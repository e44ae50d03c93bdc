import Xv6.Fs.InodeSteps

/-!
# The invariant of the inode cache

One entry in use for an inode, as many references as the entries count, locks where the
program points say, and a loaded entry in step with the disk. A step moves one process
and changes one entry, so what it has to keep is said for that entry alone.
-/

set_option autoImplicit false

namespace Xv6.InodeCache
open Xv6.Fs Xv6.Refs

variable {n : ℕ}

/-- The entry that a process has locked inside `ilock` or `iput`. -/
def Pc.inside : Pc → Option (Fin NINODE)
  | .load k => some k
  | .put .wait _ => none
  | .put .drop _ => none
  | .put _ k => some k
  | _ => none

/-- The entry that a process in `iput` still has a reference to. -/
def Pc.dropping : Pc → Option (Fin NINODE)
  | .put _ k => some k
  | _ => none

/-- The points from which a process will not use the inode again as it is loaded. -/
def Pc.Spent (x : Pc) (k : Fin NINODE) : Prop := x = .put .invalidate k ∨ ∃ msg, x = .panic msg

/-- A loaded entry and the inode on the disk: both allocated, and equal unless a caller
has changed the entry and not yet called `iupdate`. -/
def Settled (e : CEntry n) (d : Inode) : Prop :=
  e.ip.type ≠ 0 ∧ d.type ≠ 0 ∧ (e.dirty = false → e.ip = d)

structure Inv (s : St n) : Prop where
  one : ∀ k l, 0 < (s.entry k).ref → 0 < (s.entry l).ref → (s.entry k).dev = (s.entry l).dev →
    (s.entry k).inum = (s.entry l).inum → k = l
  count : ∀ k, (s.entry k).ref = s.refs.count k+number (fun p => (s.pc p).dropping) k
  inside : ∀ p k, (s.pc p).inside = some k → (s.entry k).lock = some p
  apart : ∀ p k, s.pc p = .put .wait k ∨ s.pc p = .put .drop k → (s.entry k).lock ≠ some p
  uses : ∀ p k, s.Uses p k → k ∈ s.refs
  loaded : ∀ k, 0 < (s.entry k).ref → (s.entry k).valid = true →
    Settled (s.entry k) (s.dinode k) ∨ ∃ q, (s.entry k).lock = some q ∧ (s.pc q).Spent k
  clean : ∀ k, (s.entry k).dirty = true → ∃ q, (s.entry k).lock = some q ∧ (s.pc q).inside ≠ some k

theorem Start.inv {s : St n} (h : Start s) : Inv s where
  one k l hk := by
    rw [h.ref] at hk
    omega
  count k := by
    rw [h.ref, h.refs, List.count_nil, Nat.zero_add]
    by_contra hne
    obtain ⟨p,hp⟩ := number_pos.mp (Nat.pos_of_ne_zero (Ne.symm hne))
    rw [h.pc] at hp
    cases hp
  inside p k hp := by
    rw [h.pc] at hp
    cases hp
  apart p k hp := by
    rw [h.lock]
    simp
  uses p k hp := by
    simp [St.Uses, h.pc, h.lock] at hp
  loaded k hk := by
    rw [h.ref] at hk
    omega
  clean k hk := by
    rw [h.dirty] at hk
    cases hk

/-- Process `p` moves to `x` and entry `k` becomes `e`; the lock of `k` is left, taken
or released by `p`. -/
structure Change (s s' : St n) (p : Fin n) (x : Pc) (k : Fin NINODE) (e : CEntry n) : Prop where
  pc : s'.pc = Function.update s.pc p x
  entry : s'.entry = Function.update s.entry k e
  lock : e.lock = (s.entry k).lock ∨ ((s.entry k).lock = none ∧ e.lock = some p) ∨
    ((s.entry k).lock = some p ∧ e.lock = none)

variable {s s' : St n} {p : Fin n} {x : Pc} {k : Fin NINODE} {e : CEntry n}

theorem Change.other (h : Change s s' p x k e) {q : Fin n} (hq : q ≠ p) : s'.pc q = s.pc q := by
  rw [h.pc, Function.update_of_ne hq]

theorem Change.self (h : Change s s' p x k e) : s'.pc p = x := by
  rw [h.pc, Function.update_self]

theorem Change.keeps (h : Change s s' p x k e) {l : Fin NINODE} (hl : l ≠ k) :
    s'.entry l = s.entry l := by
  rw [h.entry, Function.update_of_ne hl]

theorem Change.at (h : Change s s' p x k e) : s'.entry k = e := by
  rw [h.entry, Function.update_self]

theorem Change.owner (h : Change s s' p x k e) {q : Fin n} (hq : q ≠ p) (l : Fin NINODE) :
    (s'.entry l).lock = some q ↔ (s.entry l).lock = some q := by
  by_cases hl : l = k
  · subst hl
    rw [h.at]
    rcases h.lock with hlk | ⟨h1,h2⟩ | ⟨h1,h2⟩
    · rw [hlk]
    · simp [h1, h2, Ne.symm hq]
    · simp [h1, h2, Ne.symm hq]
  · rw [h.keeps hl]

theorem Change.uses (h : Change s s' p x k e) {q : Fin n} (hq : q ≠ p) {l : Fin NINODE}
    (hu : s'.Uses q l) : s.Uses q l := by
  simp only [St.Uses, h.other hq, h.owner hq] at hu
  exact hu

theorem Change.ref (h : Change s s' p x k e) (he : e.ref = (s.entry k).ref) (l : Fin NINODE) :
    (s'.entry l).ref = (s.entry l).ref := by
  by_cases hl : l = k
  · rw [hl, h.at, he]
  · rw [h.keeps hl]

theorem Change.one (h : Change s s' p x k e) (hi : Inv s)
    (hkey : 0 < e.ref → (0 < (s.entry k).ref ∧ e.dev = (s.entry k).dev ∧ e.inum = (s.entry k).inum) ∨
      ∀ l, 0 < (s.entry l).ref → ¬ ((s.entry l).dev = e.dev ∧ (s.entry l).inum = e.inum)) :
    ∀ l m, 0 < (s'.entry l).ref → 0 < (s'.entry m).ref → (s'.entry l).dev = (s'.entry m).dev →
      (s'.entry l).inum = (s'.entry m).inum → l = m := by
  have hk : ∀ m, m ≠ k → 0 < e.ref → 0 < (s.entry m).ref → (s.entry m).dev = e.dev →
      (s.entry m).inum = e.inum → False := by
    intro m hm he hr hd hn
    rcases hkey he with ⟨h1,h2,h3⟩ | hno
    · exact hm (hi.one m k hr h1 (hd.trans h2) (hn.trans h3))
    · exact hno m hr ⟨hd,hn⟩
  intro l m
  by_cases hl : l = k <;> by_cases hm : m = k
  · intros
    rw [hl, hm]
  · rw [hl, h.at, h.keeps hm]
    intro h1 h2 h3 h4
    exact (hk m hm h1 h2 h3.symm h4.symm).elim
  · rw [hm, h.at, h.keeps hl]
    intro h1 h2 h3 h4
    exact (hk l hl h2 h1 h3 h4).elim
  · rw [h.keeps hl, h.keeps hm]
    exact hi.one l m

theorem Change.count (h : Change s s' p x k e) (hi : Inv s)
    (hc : ∀ l, (s'.entry l).ref+s.refs.count l+(if (s.pc p).dropping = some l then 1 else 0) =
      (s.entry l).ref+s'.refs.count l+(if x.dropping = some l then 1 else 0)) (l : Fin NINODE) :
    (s'.entry l).ref = s'.refs.count l+number (fun q => (s'.pc q).dropping) l := by
  have hu : (fun q => (s'.pc q).dropping) =
      Function.update (fun q => (s.pc q).dropping) p x.dropping := by
    rw [h.pc]
    exact Function.comp_update Pc.dropping s.pc p x
  have hn := number_update (fun q => (s.pc q).dropping) p x.dropping l
  have hold := hi.count l
  have hl := hc l
  rw [hu]
  omega

theorem Inv.change (hi : Inv s) (h : Change s s' p x k e)
    (hkey : 0 < e.ref → (0 < (s.entry k).ref ∧ e.dev = (s.entry k).dev ∧ e.inum = (s.entry k).inum) ∨
      ∀ l, 0 < (s.entry l).ref → ¬ ((s.entry l).dev = e.dev ∧ (s.entry l).inum = e.inum))
    (hcount : ∀ l, (s'.entry l).ref+s.refs.count l+(if (s.pc p).dropping = some l then 1 else 0) =
      (s.entry l).ref+s'.refs.count l+(if x.dropping = some l then 1 else 0))
    (hinside : ∀ l, x.inside = some l → l = k ∧ e.lock = some p)
    (hapart : ∀ l, x = .put .wait l ∨ x = .put .drop l → l = k ∧ e.lock ≠ some p)
    (huses : ∀ l, s'.Uses p l → l ∈ s'.refs)
    (hrefs : ∀ q l, q ≠ p → s.Uses q l → l ∈ s'.refs)
    (hdisk : ∀ l, l ≠ k → 0 < (s.entry l).ref → (s.entry l).valid = true →
      Settled (s.entry l) (s.dinode l) → s'.disk (s.entry l).dev (s.entry l).inum = s.dinode l)
    (hspent : ∀ l, (s.pc p).Spent l → l = k)
    (hloaded : 0 < e.ref → e.valid = true → Settled e (s'.disk e.dev e.inum) ∨
      ∃ q, e.lock = some q ∧ (s'.pc q).Spent k)
    (hclean : e.dirty = true → ∃ q, e.lock = some q ∧ (s'.pc q).inside ≠ some k) : Inv s' where
  one := h.one hi hkey
  count := h.count hi hcount
  inside q l hq := by
    by_cases hqp : q = p
    · subst hqp
      rw [h.self] at hq
      obtain ⟨rfl,hl⟩ := hinside l hq
      rwa [h.at]
    · rw [h.other hqp] at hq
      exact (h.owner hqp l).mpr (hi.inside q l hq)
  apart q l hq := by
    by_cases hqp : q = p
    · subst hqp
      rw [h.self] at hq
      obtain ⟨rfl,hl⟩ := hapart l hq
      rwa [h.at]
    · rw [h.other hqp] at hq
      rw [ne_eq, h.owner hqp l]
      exact hi.apart q l hq
  uses q l hq := by
    by_cases hqp : q = p
    · subst hqp
      exact huses l hq
    · exact hrefs q l hqp (h.uses hqp hq)
  loaded l := by
    by_cases hl : l = k
    · subst hl
      rw [h.at, St.dinode, h.at]
      exact hloaded
    · rw [h.keeps hl, St.dinode, h.keeps hl]
      intro hr hv
      rcases hi.loaded l hr hv with hs | ⟨q,hq,hf⟩
      · refine Or.inl ?_
        rw [hdisk l hl hr hv hs]
        exact hs
      · refine Or.inr ⟨q,hq,?_⟩
        have hqp : q ≠ p := by
          rintro rfl
          exact hl (hspent l hf)
        rwa [h.other hqp]
  clean l := by
    by_cases hl : l = k
    · subst hl
      rw [h.at]
      exact hclean
    · rw [h.keeps hl]
      intro hd
      obtain ⟨q,hq,hf⟩ := hi.clean l hd
      refine ⟨q,hq,?_⟩
      by_cases hqp : q = p
      · subst hqp
        rw [h.self]
        exact fun hx => hl (hinside l hx).1
      · rwa [h.other hqp]

theorem Inv.still (hi : Inv s) (k : Fin NINODE) (hpc : s'.pc = Function.update s.pc p x)
    (hspent : ¬ (s.pc p).Spent k) (hr : 0 < (s.entry k).ref) (hv : (s.entry k).valid = true) :
    Settled (s.entry k) (s.dinode k) ∨ ∃ q, (s.entry k).lock = some q ∧ (s'.pc q).Spent k := by
  rcases hi.loaded k hr hv with hs | ⟨q,hq,hf⟩
  · exact Or.inl hs
  · refine Or.inr ⟨q,hq,?_⟩
    have hqp : q ≠ p := by
      rintro rfl
      exact hspent hf
    rwa [hpc, Function.update_of_ne hqp]

theorem Inv.cleans (hi : Inv s) (k : Fin NINODE) (hpc : s'.pc = Function.update s.pc p x)
    (hin : x.inside = some k → (s.pc p).inside = some k) (hd : (s.entry k).dirty = true) :
    ∃ q, (s.entry k).lock = some q ∧ (s'.pc q).inside ≠ some k := by
  obtain ⟨q,hq,hf⟩ := hi.clean k hd
  refine ⟨q,hq,?_⟩
  by_cases hqp : q = p
  · subst hqp
    rw [hpc, Function.update_self]
    exact fun hx => hf (hin hx)
  · rwa [hpc, Function.update_of_ne hqp]

/-- A step that leaves the entries alone, and the disk where an entry is loaded. -/
theorem Inv.goto (hi : Inv s) (hpc : s'.pc = Function.update s.pc p x) (hentry : s'.entry = s.entry)
    (hrefs : s'.refs = s.refs) (hdrop : x.dropping = (s.pc p).dropping)
    (hinside : ∀ l, x.inside = some l → l = k ∧ (s.pc p).inside = some l)
    (hapart : ∀ l, x ≠ .put .wait l ∧ x ≠ .put .drop l)
    (huses : ∀ l, s'.Uses p l → l ∈ s.refs) (hspent : ∀ l, ¬ (s.pc p).Spent l)
    (hdisk : ∀ l, Settled (s.entry l) (s.dinode l) →
      s'.disk (s.entry l).dev (s.entry l).inum = s.dinode l) : Inv s' := by
  have h : Change s s' p x k (s.entry k) :=
    ⟨hpc,hentry.trans (Function.update_eq_self k s.entry).symm,Or.inl rfl⟩
  refine hi.change h (fun hr => Or.inl ⟨hr,rfl,rfl⟩) (fun l => ?_) (fun l hl => ?_) (fun l hl => ?_)
    (by rwa [hrefs]) (fun q l _ hq => by rw [hrefs]; exact hi.uses q l hq)
    (fun l _ _ _ hs => hdisk l hs) (fun l hl => absurd hl (hspent l)) (fun hr hv => ?_) ?_
  · rw [hdrop, hentry, hrefs]
  · obtain ⟨rfl,h2⟩ := hinside l hl
    exact ⟨rfl,hi.inside p l h2⟩
  · rcases hl with hl | hl
    · exact absurd hl (hapart l).1
    · exact absurd hl (hapart l).2
  · rcases hi.still k hpc (hspent k) hr hv with hs | hq
    · refine Or.inl ?_
      rw [hdisk k hs]
      exact hs
    · exact Or.inr hq
  · exact hi.cleans k hpc fun hx => (hinside k hx).2

theorem Inv.ref_pos (hi : Inv s) (hp : (s.pc p).dropping = some k) : 0 < (s.entry k).ref := by
  have hn : 0 < number (fun q => (s.pc q).dropping) k := number_pos.mpr ⟨p,hp⟩
  have hc := hi.count k
  omega

theorem Inv.out_pos (hi : Inv s) (hk : k ∈ s.refs) : 0 < (s.entry k).ref := by
  have hpos := List.count_pos_iff.mpr hk
  have hc := hi.count k
  omega

/-- The holder of the lock inside `ilock` or `iput` finds the entry clean and, if it is
loaded, settled. -/
theorem Inv.own_clean (hi : Inv s) (hp : (s.pc p).inside = some k) : (s.entry k).dirty = false := by
  by_contra hd
  obtain ⟨q,hq,hf⟩ := hi.clean k (by simpa using hd)
  obtain rfl : p = q := by simpa [hi.inside p k hp] using hq
  exact hf hp

theorem Inv.own_settled (hi : Inv s) (hl : (s.entry k).lock = some p) (hspent : ¬ (s.pc p).Spent k)
    (hr : 0 < (s.entry k).ref) (hv : (s.entry k).valid = true) :
    Settled (s.entry k) (s.dinode k) := by
  rcases hi.loaded k hr hv with hs | ⟨q,hq,hf⟩
  · exact hs
  · obtain rfl : p = q := by simpa [hl] using hq
    exact absurd hf hspent

theorem Inv.free_clean (hi : Inv s) (hl : (s.entry k).lock = none) : (s.entry k).dirty = false := by
  by_contra hd
  obtain ⟨q,hq,-⟩ := hi.clean k (by simpa using hd)
  rw [hl] at hq
  cases hq

theorem Inv.free_settled (hi : Inv s) (hl : (s.entry k).lock = none) (hr : 0 < (s.entry k).ref)
    (hv : (s.entry k).valid = true) : Settled (s.entry k) (s.dinode k) := by
  rcases hi.loaded k hr hv with hs | ⟨q,hq,-⟩
  · exact hs
  · rw [hl] at hq
    cases hq

theorem write_disk (s : St n) (dev inum : ℕ) (ip : Inode) (d i : ℕ) :
    (s.write dev inum ip).disk d i = if d = dev ∧ i = inum then ip else s.disk d i := by
  rw [St.write]
  by_cases hd : d = dev
  · subst hd
    by_cases hi : i = inum
    · subst hi
      simp
    · simp [hi]
  · simp [hd]

theorem Inv.write_apart (hi : Inv s) (hk : 0 < (s.entry k).ref) (ip : Inode) {l : Fin NINODE}
    (hl : l ≠ k) (hr : 0 < (s.entry l).ref) :
    (s.write (s.entry k).dev (s.entry k).inum ip).disk (s.entry l).dev (s.entry l).inum =
      s.dinode l := by
  rw [write_disk, if_neg]
  · rfl
  · rintro ⟨h1,h2⟩
    exact hl (hi.one l k hr hk h1 h2)

theorem settled_write (s : St n) (k : Fin NINODE) {ip : Inode} (ht : ip.type ≠ 0) :
    Settled { s.entry k with ip := ip }
      ((s.write (s.entry k).dev (s.entry k).inum ip).disk (s.entry k).dev (s.entry k).inum) := by
  rw [write_disk, if_pos ⟨rfl,rfl⟩]
  exact ⟨ht,ht,fun _ => rfl⟩

/-- What a process that is not inside `iput` for the entry has locked is in use. -/
theorem Inv.locked_ref (hi : Inv s) {l : Fin NINODE} (hl : (s.entry l).lock = some p)
    (hp : ∀ ph, s.pc p ≠ .put ph l) : l ∈ s.refs := hi.uses p l (Or.inr (Or.inr ⟨hl,hp⟩))

theorem Inv.phase (hi : Inv s) {ph ph' : PutPhase} (hp : s.pc p = .put ph k)
    (h : Change s s' p (.put ph' k) k e) (hrefs : s'.refs = s.refs)
    (hkey : e.ref = (s.entry k).ref ∧ e.dev = (s.entry k).dev ∧ e.inum = (s.entry k).inum)
    (hinside : ph' ≠ .wait → ph' ≠ .drop → e.lock = some p)
    (hapart : ph' = .wait ∨ ph' = .drop → e.lock ≠ some p)
    (hdisk : ∀ l, l ≠ k → 0 < (s.entry l).ref →
      s'.disk (s.entry l).dev (s.entry l).inum = s.dinode l)
    (hloaded : 0 < e.ref → e.valid = true → Settled e (s'.disk e.dev e.inum) ∨
      ∃ q, e.lock = some q ∧ (s'.pc q).Spent k)
    (hclean : e.dirty = false) : Inv s' := by
  obtain ⟨h1,h2,h3⟩ := hkey
  refine hi.change h (fun hr => Or.inl ⟨by omega,h2,h3⟩) (fun l => ?_) (fun l hl => ?_)
    (fun l hl => ?_) (fun l hu => ?_) (fun q l _ hq => by rw [hrefs]; exact hi.uses q l hq)
    (fun l hl hr _ _ => hdisk l hl hr) (by simp [hp, Pc.Spent]) hloaded (by simp [hclean])
  · rw [h.ref h1 l, hrefs, hp]
    rfl
  · cases ph' with
    | wait => cases hl
    | drop => cases hl
    | _ =>
      cases hl
      exact ⟨rfl,hinside (by simp) (by simp)⟩
  · have hlk : l = k ∧ (ph' = .wait ∨ ph' = .drop) := by
      rcases hl with hl | hl
      · cases hl
        exact ⟨rfl,Or.inl rfl⟩
      · cases hl
        exact ⟨rfl,Or.inr rfl⟩
    exact ⟨hlk.1,hapart hlk.2⟩
  · rw [hrefs]
    simp only [St.Uses, h.self] at hu
    obtain ⟨hl,hne⟩ : (s'.entry l).lock = some p ∧ ∀ ph, Pc.put ph' k ≠ .put ph l := by simpa using hu
    have hlk : l ≠ k := by
      rintro rfl
      exact hne ph' rfl
    rw [h.keeps hlk] at hl
    exact hi.locked_ref hl (by simp [hp, Ne.symm hlk])

end Xv6.InodeCache
