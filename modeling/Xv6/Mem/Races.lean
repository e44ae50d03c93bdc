import Xv6.Lib.Account
import Xv6.Mem.GrowSpec

/-!
# Page faults on several processors

`pagefault` on a page that is not writable and the body of `deallocuvm` on one entry,
cut into the accesses to the counters, the free list and the entry that other
processors can come between. No lock covers them: `pagefault` decides on a count that
another handler may have changed before it decrements, and does not look at the count
again. The number of processes and of pages of an address space is left open.
-/

set_option autoImplicit false

namespace Xv6.Races
open Xv6.Mmu Xv6.Kalloc Xv6.Paging Xv6.Uvm Xv6.MapSpec Xv6.Refs

variable {ι ν : Type} [DecidableEq ι] [DecidableEq ν]

/-- Where a process is in a handler: the count was one and the entry will be made
writable, or it was more and a copy is made, the old page is uncounted, the new one
counted and entered; or an entry was uncounted, with the count it left, and its page
goes back before the entry is cleared. -/
inductive Point (ν : Type) where
  | idle
  | opening (v : ν)
  | tested (v : ν)
  | copied (v : ν) (g : ℕ)
  | dropped (v : ν) (g : ℕ)
  | counted (v : ν) (g : ℕ)
  | freeing (v : ν) (n : ℤ)
  | clearing (v : ν)
  deriving DecidableEq

def Point.page : Point ν → Option ν
  | .idle => none
  | .opening v => some v
  | .tested v => some v
  | .copied v _ => some v
  | .dropped v _ => some v
  | .counted v _ => some v
  | .freeing v _ => some v
  | .clearing v => some v

/-- Memory, the user entries of every process, the points and the marks that
`pagefault` sets when memory is out. -/
structure Sys (ι ν : Type) where
  phys : Phys
  pte : ι → ν → Pte
  point : ι → Point ν
  killed : ι → Bool

namespace Sys

def frame (s : Sys ι ν) (i : ι) (v : ν) : ℕ := pteFrame (s.pte i v)

def goto (s : Sys ι ν) (i : ι) (x : Point ν) : Sys ι ν :=
  { s with point := Function.update s.point i x }

def enter (s : Sys ι ν) (i : ι) (v : ν) (p : Pte) : Sys ι ν :=
  { s with pte := Function.update s.pte i (Function.update (s.pte i) v p) }

end Sys

theorem enter_pte (s : Sys ι ν) (i : ι) (v : ν) (p : Pte) : (s.enter i v p).pte i v = p := by
  dsimp only [Sys.enter]
  rw [Function.update_self, Function.update_self]

theorem enter_other (s : Sys ι ν) {i j : ι} {v w : ν} (p : Pte) (h : (j,w) ≠ (i,v)) :
    (s.enter i v p).pte j w = s.pte j w := by
  dsimp only [Sys.enter]
  by_cases hj : j = i
  · subst hj
    rw [Function.update_self, Function.update_of_ne (fun hw => h (by rw [hw]))]
  · rw [Function.update_of_ne hj]

inductive Act (ι ν : Type) where
  | test (i : ι) (v : ν)
  | reopen (i : ι) (v : ν)
  | copy (i : ι) (v : ν)
  | full (i : ι) (v : ν)
  | drop (i : ι) (v : ν)
  | raise (i : ι) (v : ν)
  | install (i : ι) (v : ν)
  | release (i : ι) (v : ν)
  | free (i : ι) (v : ν)
  | clear (i : ι) (v : ν)

inductive Step (s : Sys ι ν) : Act ι ν → Sys ι ν → Prop where
  | lone {i : ι} {v : ν} (hi : s.point i = .idle) (hP : has (s.pte i v) PTE_P = true)
      (hU : has (s.pte i v) PTE_U = true) (hW : has (s.pte i v) PTE_W = false)
      (hc : s.phys.pgRefcount (s.frame i v) = 1) :
      Step s (.test i v) (s.goto i (.opening v))
  | shared {i : ι} {v : ν} (hi : s.point i = .idle) (hP : has (s.pte i v) PTE_P = true)
      (hU : has (s.pte i v) PTE_U = true) (hW : has (s.pte i v) PTE_W = false)
      (hc : 1 < s.phys.pgRefcount (s.frame i v)) : Step s (.test i v) (s.goto i (.tested v))
  | reopen {i : ι} {v : ν} (hi : s.point i = .opening v) :
      Step s (.reopen i v) ((s.enter i v (reclaim (s.pte i v))).goto i .idle)
  | copy {i : ι} {v : ν} {ph : Phys} {g : ℕ} (hi : s.point i = .tested v)
      (hk : kalloc s.phys = (ph, some g)) :
      Step s (.copy i v) ({ s with phys := ph.fill g (ph.mem (s.frame i v)) }.goto i (.copied v g))
  | full {i : ι} {v : ν} {ph : Phys} (hi : s.point i = .tested v)
      (hk : kalloc s.phys = (ph, none)) :
      Step s (.full i v) ({ s with phys := ph, killed := Function.update s.killed i true }.goto i
        .idle)
  | drop {i : ι} {v : ν} {g : ℕ} (hi : s.point i = .copied v g) :
      Step s (.drop i v) ({ s with phys := s.phys.decRef (s.frame i v) }.goto i (.dropped v g))
  | raise {i : ι} {v : ν} {g : ℕ} (hi : s.point i = .dropped v g) :
      Step s (.raise i v) ({ s with phys := s.phys.incRef g }.goto i (.counted v g))
  | install {i : ι} {v : ν} {g : ℕ} (hi : s.point i = .counted v g) :
      Step s (.install i v)
        ((s.enter i v (physAddr g ||| PTE_P ||| PTE_W ||| PTE_U)).goto i .idle)
  | release {i : ι} {v : ν} (hi : s.point i = .idle) (hP : has (s.pte i v) PTE_P = true) :
      Step s (.release i v) ({ s with phys := s.phys.decRef (s.frame i v) }.goto i
        (.freeing v ((s.phys.decRef (s.frame i v)).pgRefcount (s.frame i v))))
  | free {i : ι} {v : ν} {ph : Phys} (hi : s.point i = .freeing v 0)
      (hk : kfree s.phys (s.frame i v) = .ok ph) :
      Step s (.free i v) ({ s with phys := ph }.goto i (.clearing v))
  | keep {i : ι} {v : ν} {n : ℤ} (hi : s.point i = .freeing v n) (hn : n ≠ 0) :
      Step s (.free i v) (s.goto i (.clearing v))
  | clear {i : ι} {v : ν} (hi : s.point i = .clearing v) :
      Step s (.clear i v) ((s.enter i v 0#32).goto i .idle)

/-- The states of the runs from `s₀` whose steps all meet `C`. -/
inductive Reach (C : Sys ι ν → Act ι ν → Prop) (s₀ : Sys ι ν) : Sys ι ν → Prop where
  | start : Reach C s₀ s₀
  | step {s s' : Sys ι ν} {a : Act ι ν} (h : Reach C s₀ s) (hC : C s a) (hs : Step s a s') :
      Reach C s₀ s'

def Sys.Maps (s : Sys ι ν) (f : ℕ) : Prop :=
  ∃ i v, has (s.pte i v) PTE_P = true ∧ s.frame i v = f

def Sys.Quiet (s : Sys ι ν) : Prop := ∀ i, s.point i = .idle

instance [Fintype ι] [Fintype ν] (s : Sys ι ν) (f : ℕ) : Decidable (s.Maps f) :=
  inferInstanceAs (Decidable (∃ _ _, _ ∧ _))

instance [Fintype ι] (s : Sys ι ν) : Decidable s.Quiet := inferInstanceAs (Decidable (∀ _, _ = _))

/-! ### The handlers alone -/

/-- The steps of a handler that no other process comes between are `pagefault`. -/
theorem fault_alone {s : Sys ι ν} {i : ι} {v : ν} {d d' : PageDir} {va : ℕ} {ph : Phys}
    {kill : Bool} (hva : va < KERNBASE) (hw : d.walk va = some (s.pte i v))
    (hP : has (s.pte i v) PTE_P = true) (hU : has (s.pte i v) PTE_U = true)
    (hi : s.point i = .idle) (h : pagefault s.phys d va = .ok (ph, d', kill)) :
    ∃ s', Reach (fun _ _ => True) s s' ∧ s'.point i = .idle ∧ s'.phys = ph ∧
      (kill = true ∧ s'.killed i = true ∧ s'.pte = s.pte ∧ d' = d ∨
        kill = false ∧ d' = d.setPte va (s'.pte i v)) := by
  rw [pagefault, if_neg (by omega), hw] at h
  dsimp only at h
  rw [if_neg (by simp [hP, hU])] at h
  have hW : has (s.pte i v) PTE_W = false := by
    by_contra hn
    rw [if_pos (by simpa using hn)] at h
    cases h
  rw [if_neg (by simp [hW])] at h
  split at h
  · next hone =>
    cases h
    refine ⟨_,(Reach.start.step trivial (.lone hi hP hU hW hone)).step trivial
      (.reopen (Function.update_self ..)),Function.update_self ..,rfl,.inr ⟨rfl,?_⟩⟩
    congr 1
    exact (enter_pte _ i v _).symm
  · split at h
    · next hmore =>
      have htest := (@Reach.start _ _ _ _ (fun _ _ => True) s).step trivial
        (.shared hi hP hU hW hmore)
      obtain ⟨-,hka⟩ | ⟨g,fs,-,hka⟩ := kalloc_cases s.phys <;> rw [hka] at h <;> cases h
      · exact ⟨_,htest.step trivial (.full (Function.update_self ..) hka),
          Function.update_self ..,rfl,.inl ⟨rfl,Function.update_self ..,rfl,rfl⟩⟩
      · refine ⟨_,(((htest.step trivial (.copy (Function.update_self ..) hka)).step trivial
          (.drop (Function.update_self ..))).step trivial (.raise (Function.update_self ..))).step
          trivial (.install (Function.update_self ..)),Function.update_self ..,rfl,.inr ⟨rfl,?_⟩⟩
        congr 1
        exact (enter_pte _ i v _).symm
    · cases h

theorem dealloc_alone {s : Sys ι ν} {i : ι} {v : ν} {ph : Phys}
    (hP : has (s.pte i v) PTE_P = true) (hi : s.point i = .idle)
    (h : dropRef s.phys (s.frame i v) = .ok ph) :
    ∃ s', Reach (fun _ _ => True) s s' ∧ s'.point i = .idle ∧ s'.phys = ph ∧
      s'.pte i v = 0#32 := by
  have hrel := (@Reach.start _ _ _ _ (fun _ _ => True) s).step trivial (.release hi hP)
  rw [dropRef] at h
  split at h
  · next h0 =>
    rw [h0] at hrel
    exact ⟨_,(hrel.step trivial (.free (Function.update_self ..) h)).step trivial
      (.clear (Function.update_self ..)),Function.update_self ..,rfl,enter_pte ..⟩
  · next h0 =>
    cases h
    exact ⟨_,(hrel.step trivial (.keep (Function.update_self ..) h0)).step trivial
      (.clear (Function.update_self ..)),Function.update_self ..,rfl,enter_pte ..⟩

/-! ### The account of the machine -/

def mapped (p : Pte) : Option ℕ := if has p PTE_P then some (pteFrame p) else none

/-- The page that the entry `p` of `v` is counted for. -/
def Point.held (v : ν) (p : Pte) : Point ν → Option ℕ
  | .idle => mapped p
  | .opening _ => mapped p
  | .tested _ => mapped p
  | .copied _ _ => mapped p
  | .dropped w _ => if v = w then none else mapped p
  | .counted w g => if v = w then some g else mapped p
  | .freeing w _ => if v = w then none else mapped p
  | .clearing w => if v = w then none else mapped p

/-- The page that is neither free nor counted and that only this handler knows. -/
def Point.hand (e : ν → Pte) : Point ν → Option ℕ
  | .idle => none
  | .opening _ => none
  | .tested _ => none
  | .copied _ g => some g
  | .dropped _ g => some g
  | .counted _ _ => none
  | .freeing v n => if n = 0 then some (pteFrame (e v)) else none
  | .clearing _ => none

def Sys.hold (s : Sys ι ν) (x : ι × ν) : Option ℕ := (s.point x.1).held x.2 (s.pte x.1 x.2)

def Sys.carry (s : Sys ι ν) (i : ι) : Option ℕ := (s.point i).hand (s.pte i)

theorem held_other {x : Point ν} {v : ν} (h : x.page ≠ some v) (p : Pte) :
    x.held v p = mapped p := by
  cases x <;> grind [Point.held, Point.page]

theorem hold_step {s s' : Sys ι ν} {i : ι} {v : ν} {x : Point ν}
    (hp : s'.point = Function.update s.point i x)
    (he : ∀ j w, (j,w) ≠ (i,v) → s'.pte j w = s.pte j w)
    (hi : ∀ w, w ≠ v → (s.point i).page ≠ some w) (hx : ∀ w, w ≠ v → x.page ≠ some w) :
    s'.hold = Function.update s.hold (i,v) (x.held v (s'.pte i v)) := by
  funext ⟨j,w⟩
  by_cases hjw : (j,w) = (i,v)
  · obtain ⟨rfl,rfl⟩ := Prod.mk.inj hjw
    rw [Function.update_self, Sys.hold, hp, Function.update_self]
  · rw [Function.update_of_ne hjw, Sys.hold, Sys.hold, hp, he j w hjw]
    dsimp only
    by_cases hj : j = i
    · subst hj
      have hw : w ≠ v := fun h => hjw (by rw [h])
      rw [Function.update_self, held_other (hx w hw), held_other (hi w hw)]
    · rw [Function.update_of_ne hj]

theorem carry_step {s s' : Sys ι ν} {i : ι} {x : Point ν}
    (hp : s'.point = Function.update s.point i x) (he : ∀ j, j ≠ i → s'.pte j = s.pte j) :
    s'.carry = Function.update s.carry i (x.hand (s'.pte i)) := by
  funext j
  by_cases hj : j = i
  · subst hj
    rw [Function.update_self, Sys.carry, hp, Function.update_self]
  · rw [Function.update_of_ne hj, Sys.carry, Sys.carry, hp, Function.update_of_ne hj, he j hj]

theorem incRef_zero {ph : Phys} {g : ℕ} (hg : ph.pgRefcount g = 0) :
    (ph.incRef g).pgRefcount = Function.update ph.pgRefcount g (ph.pgRefcount g+1) := by
  rw [Phys.incRef, hg]
  rfl

variable [Fintype ι] [Fintype ν]

/-- Counters and free list are the account of the frames in `U`, counters do not
wrap, and an entry stays present while a handler works on it. -/
structure Inv (U : Set ℕ) (s : Sys ι ν) : Prop where
  account : Account U s.phys.pgRefcount s.phys.freelist s.hold s.carry
  small : ∀ f, s.phys.pgRefcount f ≤ 127
  range : ∀ f ∈ U, InRange f
  present : ∀ i v, (s.point i).page = some v → has (s.pte i v) PTE_P = true

variable {U : Set ℕ} {s s' : Sys ι ν}

theorem Inv.next (h : Inv U s) {i : ι} {v : ν} {x : Point ν}
    (hp : s'.point = Function.update s.point i x)
    (he : ∀ j w, (j,w) ≠ (i,v) → s'.pte j w = s.pte j w)
    (hi : ∀ w, w ≠ v → (s.point i).page ≠ some w)
    (hx : ∀ w, x.page = some w → w = v ∧ has (s'.pte i v) PTE_P = true)
    (hacc : Account U s'.phys.pgRefcount s'.phys.freelist
      (Function.update s.hold (i,v) (x.held v (s'.pte i v)))
      (Function.update s.carry i (x.hand (s'.pte i))))
    (hsmall : ∀ f, s'.phys.pgRefcount f ≤ 127) : Inv U s' where
  account := by
    rw [hold_step hp he hi (fun w hw hxw => hw (hx w hxw).1),
      carry_step hp (fun j hj => funext (fun w => he j w (fun h => hj (Prod.mk.inj h).1)))]
    exact hacc
  small := hsmall
  range := h.range
  present j w hw := by
    rw [hp] at hw
    by_cases hj : j = i
    · subst hj
      rw [Function.update_self] at hw
      obtain ⟨rfl,hP⟩ := hx w hw
      exact hP
    · rw [Function.update_of_ne hj] at hw
      rw [he j w (fun h => hj (Prod.mk.inj h).1)]
      exact h.present j w hw

theorem Inv.same (h : Inv U s) {i : ι} {v : ν} {x : Point ν}
    (hp : s'.point = Function.update s.point i x)
    (he : ∀ j w, (j,w) ≠ (i,v) → s'.pte j w = s.pte j w)
    (hi : ∀ w, w ≠ v → (s.point i).page ≠ some w)
    (hx : ∀ w, x.page = some w → w = v ∧ has (s'.pte i v) PTE_P = true)
    (hph : s'.phys = s.phys) (hheld : x.held v (s'.pte i v) = s.hold (i,v))
    (hhand : x.hand (s'.pte i) = s.carry i) : Inv U s' := by
  refine h.next hp he hi hx ?_ (by rw [hph]; exact h.small)
  rw [hph, hheld, hhand, Function.update_eq_self, Function.update_eq_self]
  exact h.account

theorem Inv.nonneg (h : Inv U s) (f : ℕ) : 0 ≤ s.phys.pgRefcount f := by
  rw [h.account.count]
  exact Int.natCast_nonneg _

theorem Inv.decRef (h : Inv U s) (f : ℕ) : (s.phys.decRef f).pgRefcount =
    Function.update s.phys.pgRefcount f (s.phys.pgRefcount f-1) := by
  have h1 := h.small f
  have h2 := h.nonneg f
  rw [Phys.decRef, toChar_of_small _ (by omega) (by omega)]

theorem Inv.small_update (h : Inv U s) (f : ℕ) {n : ℤ} (hn : n ≤ 127) (x : ℕ) :
    Function.update s.phys.pgRefcount f n x ≤ 127 := by
  by_cases hx : x = f
  · rw [hx, Function.update_self]
    exact hn
  · rw [Function.update_of_ne hx]
    exact h.small x

/-- At every decrement of `pagefault` the page is still shared. -/
def StillShared (s : Sys ι ν) : Act ι ν → Prop
  | .drop i v => 1 < s.phys.pgRefcount (s.frame i v)
  | _ => True

theorem hold_at {i : ι} {x : Point ν} (hi : s.point i = x) (v : ν) :
    s.hold (i,v) = x.held v (s.pte i v) := by
  rw [Sys.hold, hi]

theorem carry_at {i : ι} {x : Point ν} (hi : s.point i = x) : s.carry i = x.hand (s.pte i) := by
  rw [Sys.carry, hi]

theorem mapped_present {p : Pte} (h : has p PTE_P = true) : mapped p = some (pteFrame p) :=
  if_pos h

theorem inv_release (h : Inv U s) {i : ι} {v : ν} (hi : s.point i = .idle)
    (hP : has (s.pte i v) PTE_P = true) :
    Inv U ({ s with phys := s.phys.decRef (s.frame i v) }.goto i
      (.freeing v ((s.phys.decRef (s.frame i v)).pgRefcount (s.frame i v)))) := by
  have hhold : s.hold (i,v) = some (s.frame i v) := (hold_at hi v).trans (mapped_present hP)
  have hhand : s.carry i = none := carry_at hi
  have hpos : 0 < number s.hold (s.frame i v) := number_pos.mpr ⟨_,hhold⟩
  have hcnt := h.account.count (s.frame i v)
  have hsmall := h.small (s.frame i v)
  rw [h.decRef, Function.update_self]
  refine h.next rfl (fun _ _ _ => rfl) (v := v) (by simp [hi, Point.page]) ?_ ?_ ?_
  · simp [Point.page, Sys.goto, hP]
  · dsimp only [Sys.goto, Point.held, Point.hand]
    rw [h.decRef, if_pos rfl]
    by_cases hone : s.phys.pgRefcount (s.frame i v) = 1
    · rw [if_pos (by omega), hone]
      exact h.account.last hhold hone hhand
    · have hkeep : Function.update s.carry i none = s.carry := Function.update_eq_iff.mpr
        ⟨hhand.symm,fun _ _ => rfl⟩
      rw [if_neg (by omega), hkeep]
      exact h.account.drop hhold (by omega)
  · dsimp only [Sys.goto]
    rw [h.decRef]
    exact h.small_update _ (by omega)

theorem inv_raise (h : Inv U s) {i : ι} {v : ν} {g : ℕ} (hi : s.point i = .dropped v g) :
    Inv U ({ s with phys := s.phys.incRef g }.goto i (.counted v g)) := by
  have hhold : s.hold (i,v) = none := (hold_at hi v).trans (if_pos rfl)
  have hhand : s.carry i = some g := carry_at hi
  have hidle := h.account.idle (f := g) (by
    have := number_pos.mpr ⟨i,hhand⟩
    omega)
  have hg : s.phys.pgRefcount g = 0 := by rw [h.account.count, hidle.2]; rfl
  have hP := h.present i v (by rw [hi]; rfl)
  refine h.next rfl (fun _ _ _ => rfl) (v := v) (by simp [hi, Point.page, eq_comm]) ?_ ?_ ?_
  · simp [Point.page, Sys.goto, hP, eq_comm]
  · dsimp only [Sys.goto, Point.held, Point.hand]
    rw [incRef_zero hg, if_pos rfl]
    exact h.account.raise hhold hhand
  · dsimp only [Sys.goto]
    rw [incRef_zero hg, hg]
    exact h.small_update _ (by decide)

theorem inv_step {a : Act ι ν} (h : Inv U s) (hC : StillShared s a) (hs : Step s a s') :
    Inv U s' := by
  cases hs with
  | @lone i v hi hP hU hW hc =>
    refine h.same rfl (fun _ _ _ => rfl) (by simp [hi, Point.page]) (v := v) ?_ rfl
      (hold_at hi v).symm (carry_at hi).symm
    simp [Point.page, Sys.goto, hP]
  | @shared i v hi hP hU hW hc =>
    refine h.same rfl (fun _ _ _ => rfl) (by simp [hi, Point.page]) (v := v) ?_ rfl
      (hold_at hi v).symm (carry_at hi).symm
    simp [Point.page, Sys.goto, hP]
  | @reopen i v hi =>
    refine h.same rfl (fun _ _ hne => enter_other s _ hne) (by simp [hi, Point.page, eq_comm])
      (by simp [Point.page]) rfl ?_ (carry_at hi).symm
    simp [hold_at hi, Point.held, Sys.goto, enter_pte, mapped]
  | @copy i v ph g hi hk =>
    obtain ⟨-,hka⟩ | ⟨f,fs,hl,hka⟩ := kalloc_cases s.phys <;> rw [hka] at hk <;> cases hk
    refine h.next rfl (fun _ _ _ => rfl) (v := v) (by simp [hi, Point.page, eq_comm]) ?_ ?_ h.small
    · simp [Point.page, Sys.goto, h.present i v (by rw [hi]; rfl), eq_comm]
    · have hacc := h.account
      rw [hl] at hacc
      have hsame : (Point.copied v g).held v (s.pte i v) = s.hold (i,v) := (hold_at hi v).symm
      change Account U s.phys.pgRefcount fs
        (Function.update s.hold (i,v) ((Point.copied v g).held v (s.pte i v))) _
      rw [hsame, Function.update_eq_self]
      exact hacc.take (carry_at hi)
  | @full i v ph hi hk =>
    obtain ⟨-,hka⟩ | ⟨f,fs,hl,hka⟩ := kalloc_cases s.phys <;> rw [hka] at hk <;> cases hk
    exact h.same rfl (fun _ _ _ => rfl) (by simp [hi, Point.page, eq_comm])
      (by simp [Point.page]) rfl (hold_at hi v).symm (carry_at hi).symm
  | @drop i v g hi =>
    have hP := h.present i v (by rw [hi]; rfl)
    have hhold : s.hold (i,v) = some (s.frame i v) := (hold_at hi v).trans (mapped_present hP)
    have hshared : 1 < s.phys.pgRefcount (s.frame i v) := hC
    have hsmall := h.small (s.frame i v)
    refine h.next rfl (fun _ _ _ => rfl) (v := v) (by simp [hi, Point.page, eq_comm]) ?_ ?_ ?_
    · simp [Point.page, Sys.goto, hP, eq_comm]
    · dsimp only [Sys.goto, Point.held]
      rw [h.decRef, if_pos rfl, show Point.hand _ (.dropped v g) = s.carry i from (carry_at hi).symm,
        Function.update_eq_self]
      exact h.account.drop hhold hshared
    · dsimp only [Sys.goto]
      rw [h.decRef]
      exact h.small_update _ (by omega)
  | @raise i v g hi => exact inv_raise h hi
  | @install i v g hi =>
    have hhold : s.hold (i,v) = some g := (hold_at hi v).trans (if_pos rfl)
    have hg := inRange_lt (h.range g (h.account.known g (number_pos.mpr ⟨_,hhold⟩)))
    refine h.same rfl (fun _ _ hne => enter_other s _ hne) (by simp [hi, Point.page, eq_comm])
      (by simp [Point.page]) rfl ?_ (carry_at hi).symm
    rw [hhold]
    change mapped ((s.enter i v _).pte i v) = _
    rw [enter_pte, GrowSpec.copied_entry, mapped_present (entry_P _ _),
      pteFrame_entry g hg _ (lowBits_of_lt _ (by decide))]
  | @release i v hi hP => exact inv_release h hi hP
  | @free i v ph hi hk =>
    have hhand : s.carry i = some (s.frame i v) := carry_at hi
    rw [kfree] at hk
    split at hk <;> cases hk
    refine h.next rfl (fun _ _ _ => rfl) (v := v) (by simp [hi, Point.page, eq_comm]) ?_ ?_ h.small
    · simp [Point.page, Sys.goto, h.present i v (by rw [hi]; rfl), eq_comm]
    · change Account U s.phys.pgRefcount (s.frame i v::s.phys.freelist)
        (Function.update s.hold (i,v) _) _
      rw [show Point.held v _ (.clearing v) = s.hold (i,v) from
        (if_pos rfl).trans ((hold_at hi v).trans (if_pos rfl)).symm, Function.update_eq_self]
      exact h.account.give hhand
  | @keep i v n hi hn =>
    refine h.same rfl (fun _ _ _ => rfl) (by simp [hi, Point.page, eq_comm]) (v := v) ?_ rfl ?_
      ((carry_at hi).trans (if_neg hn)).symm
    · simp [Point.page, Sys.goto, h.present i v (by rw [hi]; rfl), eq_comm]
    · rw [hold_at hi]
      rfl
  | @clear i v hi =>
    refine h.same rfl (fun _ _ hne => enter_other s _ hne) (by simp [hi, Point.page, eq_comm])
      (by simp [Point.page]) rfl ?_ (carry_at hi).symm
    rw [hold_at hi]
    change mapped ((s.enter i v _).pte i v) = _
    rw [enter_pte]
    exact (if_pos rfl).symm

end Xv6.Races
