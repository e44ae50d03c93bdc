import Xv6.Proc.Reference
import Xv6.Proc.Counts

/-!
# Copy-on-write refines copying

Every run of `forkcow`, `sbrk`, `exit`, `wait`, loads and stores that starts in
a well-formed state with exact counts, and that never lacks memory, has the
results of the reference machine. Well-formedness is needed beyond the counts:
a frame that one directory maps often enough overflows its counter, and a store
then reaches a page that others still share.
-/

set_option autoImplicit false

namespace Xv6.Kern
open Xv6.Mmu Xv6.Kalloc Xv6.Paging Xv6.Uvm Xv6.Table Xv6.Files Xv6.Ledger Xv6.Tally Xv6.Halting
open Xv6.Supply Xv6.View Kernel

/-- The operations of the refinement. -/
def CowOp : Op → Prop
  | .forkcow => True
  | .sbrk _ => True
  | .exit => True
  | .wait => True
  | .load _ => True
  | .store _ _ => True
  | _ => False

/-- The step did not fail for lack of memory: a `forkcow` with a free slot and
an `sbrk` within the user half did not return -1, and a store to a readable page
went through. -/
def Supplied (k : Kernel) (i : Fin NPROC) (op : Op) (r : Ret) : Prop :=
  match op with
  | .forkcow => k.table.findUnused ≠ none → r ≠ .val (-1)
  | .sbrk n => 0 < n.toInt → newSize (k.table.slot i).sz n.toInt < KERNBASE → r ≠ .val (-1)
  | .store va _ => readable (k.entry i va.toNat) = true → r = .stored
  | _ => True

theorem back_val {i : Fin NPROC} {x : Kernel × ℤ} {k' : Kernel} {r : Ret}
    (hk : (x.1.table.slot i).killed = false) (he : back i x = .ok (k', r)) : r = .val x.2 := by
  rw [back, hk] at he
  cases he
  rfl

theorem step_sim {g : Ghost} {k k' : Kernel} {s : Ref} {i : Fin NPROC} {op : Op} {r : Ret}
    (h : KInv g k) (hu : ∀ f, g.u f = 0) (hs : Sim k s) (hc : CanStep k i op) (ho : CowOp op)
    (hf : Supplied k i op r) (he : step k i op = .ok (k', r)) :
    ∃ s', s.step i op = some (s', r) ∧ Sim k' s' := by
  have hi := canStep_space hc
  -- a system call is entered unless the process has been killed
  have henter : ∀ {o : Op}, (if (k.table.slot i).killed ∧ (k.table.slot i).chan = none then do
        let k ← k.exit i
        Except.ok (k, Ret.gone)
      else syscall k i o) = .ok (k', r) →
      (((k.table.slot i).killed = false ∨ (k.table.slot i).chan ≠ none) →
        syscall k i o = .ok (k', r) → ∃ s', s.syscall i o = some (s', r) ∧ Sim k' s') →
      ∃ s', (if (s.table.slot i).killed ∧ (s.table.slot i).chan = none then s.exit i
        else s.syscall i o) = some (s', r) ∧ Sim k' s' := by
    intro o he hcall
    rw [hs.table]
    split at he
    · next hk =>
      rw [bind_ok] at he
      obtain ⟨k1,h1,h2⟩ := he
      cases h2
      rw [if_pos hk]
      exact exit_sim h hs hi h1
    · next hk =>
      rw [if_neg hk]
      refine hcall ?_ he
      by_cases hkl : (k.table.slot i).killed = true
      · exact Or.inr (fun hch => hk ⟨hkl,hch⟩)
      · exact Or.inl (by simpa using hkl)
  cases op with
  | load va => exact load_sim h hs hi va.isLt he
  | store va b => exact store_sim h hs hi va.isLt hf he
  | exit =>
    refine henter he (fun _ he => ?_)
    rw [syscall, bind_ok] at he
    obtain ⟨k1,h1,h2⟩ := he
    cases h2
    exact exit_sim h hs hi h1
  | wait =>
    refine henter he (fun _ he => ?_)
    rw [syscall, bind_ok] at he
    obtain ⟨⟨k1,q⟩,h1,he⟩ := he
    obtain ⟨s1,h2,hs1⟩ := wait_sim h hs hi h1
    rw [Ref.syscall, h2]
    cases q with
    | val z => exact back_sim (wait_inv h hi h1) hs1 (wait_self (canStep_live hc) h1) he
    | byte b => cases he; exact ⟨s1,rfl,hs1⟩
    | stored => cases he; exact ⟨s1,rfl,hs1⟩
    | gone => cases he; exact ⟨s1,rfl,hs1⟩
    | asleep => cases he; exact ⟨s1,rfl,hs1⟩
  | forkcow =>
    have hch := hc.2.resolve_right (by intro h; cases h)
    refine henter he (fun hk he => ?_)
    have hkf := hk.resolve_right (fun hn => hn hch)
    rw [syscall, bind_ok] at he
    obtain ⟨⟨k1,z⟩,h1,he⟩ := he
    have hslot := forkWith_self (c := copyuvmcow) hi h1
    have hr : r = .val z := back_val (by rw [hslot]; exact hkf) he
    obtain ⟨s1,h2,hs1⟩ := forkcow_sim h hs hi (fun hn hz => hf hn (by rw [hr, hz])) h1
    obtain ⟨g1,rfl,hk1⟩ := forkWith_inv (Q := fun g' => g' = g) h rfl hi
      (copyuvmcow_copies h rfl hi (fun p _ => hu _)) h1
    rw [Ref.syscall, h2]
    exact back_sim hk1 hs1 (by rw [hslot]; exact hi) he
  | sbrk n =>
    have hch := hc.2.resolve_right (by intro h; cases h)
    refine henter he (fun hk he => ?_)
    have hkf := hk.resolve_right (fun hn => hn hch)
    rw [syscall, bind_ok] at he
    obtain ⟨⟨k1,z⟩,h1,he⟩ := he
    obtain ⟨hst,hkl⟩ := sbrk_self (j := i) h1
    have hr : r = .val z := back_val (by rw [hkl]; exact hkf) he
    obtain ⟨s1,h2,hs1⟩ := sbrk_sim h hs hi (fun h3 h4 hz => hf h3 h4 (by rw [hr, hz])) h1
    rw [Ref.syscall, h2]
    exact back_sim (sbrk_inv h hi h1) hs1 (by rw [hst]; exact hi) he
  | _ => exact ho.elim

/-- Runs of the refinement's operations with their results. -/
inductive CowRun : Kernel → List (Fin NPROC × Op) → List Ret → Kernel → Prop where
  | nil {k : Kernel} : CowRun k [] [] k
  | cons {k k1 k' : Kernel} {i : Fin NPROC} {op : Op} {r : Ret} {es : List (Fin NPROC × Op)}
      {rs : List Ret} (hc : CanStep k i op) (ho : CowOp op) (hs : step k i op = .ok (k1, r))
      (hf : Supplied k i op r) (h : CowRun k1 es rs k') : CowRun k ((i, op)::es) (r::rs) k'

/-- Pages are counted as they are mapped, and a writable page is counted once. -/
structure CowCounts (k : Kernel) : Prop where
  counted : ∀ f, k.phys.pgRefcount f = maps (dirs k) f
  writer : ∀ i va, (k.table.slot i).state.hasSpace = true → va < KERNBASE →
    has (k.entry i va) PTE_P = true → has (k.entry i va) PTE_W = true →
    k.phys.pgRefcount (pteFrame (k.entry i va)) = 1

/-- No frame is on the free list and in use, or in use twice over; no directory
maps a frame at two user pages or opens its kernel half to user mode; and the
slots in use have what they need. -/
structure WellFormed (k : Kernel) : Prop where
  owners : ∃ P, Pipes k.files P ∧ ∀ f, held k.phys (dirs k) (P++(kstacks k++fixed k)) f ≤
    if InRange f then 1 else 0
  once : ∀ d ∈ dirs k, ∀ f, mapCnt d f ≤ 1
  hidden : ∀ d ∈ dirs k, Hidden d
  space : ∀ i n, k.table.spaces i = some n →
    (k.pgdir i).isSome ∧ (k.kstack i).isSome ∧ n < KERNBASE
  idle : ∀ i, k.table.spaces i = none → k.kstack i = none

/-- Ghosts that allow frames without an owner. -/
def loose : Ghost := ⟨fun _ => 0, fun _ => True, fun _ => True⟩

theorem WellFormed.inv {k : Kernel} (h : WellFormed k) (hc : CowCounts k) : KInv loose k := by
  obtain ⟨P,hp,hw⟩ := h.owners
  refine ⟨⟨P,⟨?_,fun _ => Or.inl rfl,hw,fun _ _ => Or.inl trivial,h.once,?_,
    fun _ _ _ _ _ _ _ => rfl,h.hidden⟩,hp⟩,h.space,h.idle⟩
  · intro f
    rw [hc.counted]
    exact add_zero _
  · intro d hd v hv hP hW
    rw [dirs, mem_gather] at hd
    obtain ⟨i,hd⟩ := hd
    rw [Kern.space, Option.bind_eq_some_iff] at hd
    obtain ⟨n,hn,hd⟩ := hd
    have := hc.writer i (v*PGSIZE) (spaces_has hn) (page_addr hv)
    rw [entry_dir hd, hc.counted] at this
    have h1 := this hP hW
    omega

theorem run_sim {k k' : Kernel} {s : Ref} {es : List (Fin NPROC × Op)} {rs : List Ret}
    (h : KInv loose k) (hs : Sim k s) (hr : CowRun k es rs k') : s.run es = some rs := by
  induction hr generalizing s with
  | nil => rfl
  | @cons k k1 k' i op r es rs hc ho he hf hr ih =>
    obtain ⟨s1,h1,hs1⟩ := step_sim h (fun _ => rfl) hs hc ho hf he
    obtain ⟨g1,rfl,hk1⟩ := step_inv (Q := fun g => g = loose) h rfl id hc
      (fun hop => by rw [hop] at ho; exact ho.elim)
      (fun _ => copyuvmcow_copies h rfl (canStep_space hc) (fun _ _ => rfl)) he
    rw [Ref.run, h1]
    dsimp only [bind, Option.bind]
    rw [ih hk1 hs1]

/-- Copy-on-write refines copying: from a well-formed state with exact counts,
the results of a run that never lacks memory are those of the machine that gives
every process pages of its own. -/
theorem cow_refines_copy {k k' : Kernel} {es : List (Fin NPROC × Op)} {rs : List Ret}
    (hc : CowCounts k) (hw : WellFormed k) (hr : CowRun k es rs k') :
    (Ref.of k).run es = some rs :=
  run_sim (hw.inv hc) (sim_of k) hr

theorem KInv.wellFormed {g : Ghost} {k : Kernel} (h : KInv g k) : WellFormed k := by
  obtain ⟨P,hb,hp⟩ := h.stock
  exact ⟨⟨P,hp,hb.within⟩,hb.inj,hb.hidden,h.space,h.idle⟩

theorem cow_refines_copy_child : ∃ k b, CowCounts k ∧ WellFormed k ∧
    (Ref.of k).run [(slot0, .forkcow), (slot1, .load 0#32)] = some [.val 2, .byte b] := by
  obtain ⟨k0,d0,f,-,h0⟩ := first_boot
  obtain ⟨k,d,e,h⟩ := first_cow h0
  have hx := (h0.booted.inv (fun _ => True)).exactCounts
  have hcc : CowCounts k0 := ⟨hx.counted,hx.writer⟩
  have hwf := (h0.booted.inv (fun _ => True)).wellFormed
  have hstep := h.family.step
  rw [h0.booted.table] at hstep
  have hload : step k slot1 (.load 0#32) = .ok (k, .byte (k.phys.mem (pteFrame (e.leaf 0)) 0)) := by
    change k.load slot1 0 = _
    rw [Kernel.load, Kernel.peek, entry_dir h.child.dir, readable, h.childPresent, h.childUser]
    rfl
  refine ⟨k0,_,hcc,hwf,cow_refines_copy hcc hwf (.cons (h0.small.canStep _) trivial hstep
    (fun _ h => by cases h) (.cons (h.child.canStep _) trivial hload trivial .nil))⟩

/-- The directory with the first `n` user pages all set to one entry. -/
def aliasPages (d : PageDir) (p : Pte) : ℕ → PageDir
  | 0 => d
  | n+1 => (aliasPages d p n).setPte (n*PGSIZE) p

theorem aliasPages_leaf {d : PageDir} {p q : Pte} (h0 : d.walk 0 = some q) {n : ℕ}
    (hn : n ≤ 1024) :
    (∀ m < 1024, ∃ x, (aliasPages d p n).walk (m*PGSIZE) = some x) ∧
      ∀ v < UPAGES, (aliasPages d p n).leaf (v*PGSIZE) =
        if v < n then p else d.leaf (v*PGSIZE) := by
  have haddr : ∀ m < 1024, m*PGSIZE < 2^32 ∧ PDX (m*PGSIZE) = 0 := by
    intro m hm
    unfold PDX PGSIZE
    omega
  induction n with
  | zero =>
    refine ⟨fun m hm => ?_,fun v _ => by rw [if_neg (by omega)]; rfl⟩
    rw [PageDir.walk, Option.map_eq_some_iff] at h0
    obtain ⟨t,ht,-⟩ := h0
    exact ⟨_,by rw [aliasPages, PageDir.walk, (haddr m hm).2, show 0 = PDX 0 from rfl, ht]; rfl⟩
  | succ n ih =>
    obtain ⟨hw,hl⟩ := ih (by omega)
    obtain ⟨x,hx⟩ := hw n (by omega)
    refine ⟨fun m hm => ?_,fun v hv => ?_⟩
    · obtain ⟨y,hy⟩ := hw m hm
      rw [aliasPages, setPte_walk _ _ _ _ (haddr n (by omega)).1 (haddr m hm).1, hy]
      split <;> exact ⟨_,rfl⟩
    · rw [aliasPages, setPte_leaf_page _ _ v x p (by unfold KERNBASE PGSIZE; omega) hv hx,
        Nat.mul_div_cancel n (by decide), hl v hv]
      split
      · next hvn => rw [if_pos (by omega)]
      · next hvn =>
        have : v < n ↔ v < n+1 := by omega
        simp only [this]

/-- The first process with its page mapped, read-only, at 86 addresses. -/
def crowded (k : Kernel) (d : PageDir) (f : ℕ) : Kernel :=
  { k with
    phys := { k.phys with pgRefcount := Function.update k.phys.pgRefcount f 86 }
    table := k.table.setSz slot0 (86*PGSIZE)
    pgdir := Function.update k.pgdir slot0
      (some (aliasPages d (physAddr f ||| PTE_U ||| PTE_P) 86)) }

section
variable {k : Kernel} {d : PageDir} {f : ℕ}

theorem First.crowded_leaf (h : First k d f) {v : ℕ} (hv : v < UPAGES) :
    (aliasPages d (physAddr f ||| PTE_U ||| PTE_P) 86).leaf (v*PGSIZE) =
      if v < 86 then physAddr f ||| PTE_U ||| PTE_P else 0#32 := by
  have hw : d.walk 0 = some (d.leaf 0) := walk_of_present (by rw [h.leaf, entry_P])
  rw [(aliasPages_leaf hw (by omega)).2 v hv]
  split
  · rfl
  · exact h.blank v hv (by omega)

theorem First.crowded_slot (h : First k d f) {j : Fin NPROC} (hj : j ≠ slot0) :
    (crowded k d f).table.slot j = ⟨.unused, 0, none, false, none, 0⟩ := by
  change (k.table.setSz slot0 (86*PGSIZE)).slot j = _
  rw [Ptable.setSz, Ptable.set_slot, if_neg hj, h.booted.table]
  exact if_neg hj

theorem First.crowded_small (h : First k d f) :
    Small (crowded k d f) slot0 (aliasPages d (physAddr f ||| PTE_U ||| PTE_P) 86) := by
  have hs : (crowded k d f).table.slot slot0 = ⟨.runnable, 1, none, false, none, 86*PGSIZE⟩ := by
    change (k.table.setSz slot0 (86*PGSIZE)).slot slot0 = _
    rw [Ptable.setSz, Ptable.set_slot, if_pos rfl, h.booted.table]
    rfl
  refine ⟨by rw [hs],by rw [hs],by rw [hs],by simp [crowded],by rw [hs]; decide,?_,
    h.booted.closed slot0⟩
  intro v hv
  rw [hs] at hv
  dsimp only at hv
  unfold PGSIZE at hv
  rw [h.crowded_leaf (by rw [UPAGES_eq]; omega), if_pos (by omega), entry_P]

theorem First.crowded_mapCnt (h : First k d f) (x : ℕ) :
    mapCnt (aliasPages d (physAddr f ||| PTE_U ||| PTE_P) 86) x = if x = f then 86 else 0 := by
  have hm : ∀ v < UPAGES, MapsTo (aliasPages d (physAddr f ||| PTE_U ||| PTE_P) 86) v x ↔
      v < 86 ∧ x = f := by
    intro v hv
    rw [MapsTo, h.crowded_leaf hv]
    split
    · next hlt =>
      rw [entry_P, pteFrame_entry f (inRange_lt h.frame) _ (lowBits_of_lt _ (by decide))]
      simp [hlt, eq_comm]
    · next hlt => simp [hlt]
  have hfilter : ((Finset.range UPAGES).filter (fun v =>
      MapsTo (aliasPages d (physAddr f ||| PTE_U ||| PTE_P) 86) v x)) =
      if x = f then Finset.range 86 else ∅ := by
    ext v
    have h86 : v < 86 → v < UPAGES := by rw [UPAGES_eq]; omega
    rw [Finset.mem_filter, Finset.mem_range]
    by_cases hx : x = f
    · rw [if_pos hx, Finset.mem_range]
      constructor
      · rintro ⟨h1,h2⟩
        exact ((hm v h1).mp h2).1
      · intro h1
        exact ⟨h86 h1,(hm v (h86 h1)).mpr ⟨h1,hx⟩⟩
    · rw [if_neg hx]
      simp only [Finset.notMem_empty, iff_false]
      rintro ⟨h1,h2⟩
      exact hx ((hm v h1).mp h2).2
  rw [mapCnt, tally, hfilter]
  split
  · exact Finset.card_range 86
  · rfl

theorem First.crowded_counts (h : First k d f) : CowCounts (crowded k d f) := by
  have hs := h.crowded_small
  have hspaces : ∀ j, j ≠ slot0 → (crowded k d f).table.spaces j = none := by
    intro j hj
    exact spaces_unused (by rw [h.crowded_slot hj])
  have hmaps := lone_maps (spaces_slot (canStep_space (hs.canStep .exit))) hs.dir hspaces
  refine ⟨fun x => ?_,fun i va hi hva hP hW => ?_⟩
  · rw [hmaps, h.crowded_mapCnt]
    by_cases hx : x = f
    · subst hx
      simp [crowded]
    · rw [if_neg hx]
      have hz : k.phys.pgRefcount x = 0 := by
        have hk := (h.booted.inv (fun _ => True)).exactCounts
        have hbl : ∀ j, j ≠ slot0 → k.table.spaces j = none := by
          intro j hj
          refine spaces_unused ?_
          exact (h.booted.virgin hj).state
        rw [hk.counted, lone_maps (spaces_slot (canStep_space (h.small.canStep .exit)))
          h.small.dir hbl, mapCnt_zero.mpr]
        · rfl
        · intro v hv hm
          by_cases hv0 : v = 0
          · subst hv0
            rw [MapsTo, Nat.zero_mul, h.leaf,
              pteFrame_entry f (inRange_lt h.frame) _ (lowBits_of_lt _ (by decide))] at hm
            exact hx hm.2.symm
          · rw [MapsTo, h.blank v hv hv0] at hm
            exact absurd hm.1 (by decide)
      simp [crowded, Function.update_of_ne hx, hz]
  · exfalso
    have hi0 : i = slot0 := by
      by_contra hne
      rw [h.crowded_slot hne] at hi
      cases hi
    subst hi0
    rw [entry_dir hs.dir, ← leaf_page, h.crowded_leaf (page_lt hva)] at hW
    split at hW
    · rw [entry_W] at hW
      exact absurd hW (by decide)
    · exact absurd hW (by decide)

/-- Two copy-on-write forks by the crowded process take the counter of its page
from 86 past 255 to 2. -/
theorem First.crowded_forks (h : First k d f) : ∃ k1 k2 z₁ z₂ d' e,
    step (crowded k d f) slot0 .forkcow = .ok (k1, .val z₁) ∧ z₁ ≠ -1 ∧
    CanStep k1 slot0 .forkcow ∧ step k1 slot0 .forkcow = .ok (k2, .val z₂) ∧ z₂ ≠ -1 ∧
    Small k2 slot0 d' ∧ Small k2 slot1 e ∧ (k2.table.slot slot1).sz = 86*PGSIZE ∧
    k2.phys.pgRefcount f = 2 ∧
    d'.leaf 0 = markCow (protect (markCow (protect (physAddr f ||| PTE_U ||| PTE_P)))) ∧
    ∀ v < 86, e.leaf (v*PGSIZE) = protect (physAddr f ||| PTE_U ||| PTE_P) := by
  have hs0 := h.crowded_small
  have hsz0 : ((crowded k d f).table.slot slot0).sz = 86*PGSIZE := by
    change ((k.table.setSz slot0 (86*PGSIZE)).slot slot0).sz = _
    rw [Ptable.setSz, Ptable.set_slot, if_pos rfl]
  have hvirgin : ∀ p, p ≠ slot0 → Virgin (crowded k d f) p := by
    intro p hp
    have hsl := h.crowded_slot hp
    exact ⟨by rw [hsl],by rw [hsl],by rw [hsl],h.booted.closed p⟩
  have hchars : ∀ x, toChar ((crowded k d f).phys.pgRefcount x) =
      (crowded k d f).phys.pgRefcount x := by
    intro x
    by_cases hx : x = f
    · subst hx
      simp only [crowded, Function.update_self]
      decide
    · simp only [crowded, Function.update_of_ne hx]
      exact (h.booted.inv (fun _ => True)).chars x
  have hfree : 56000 ≤ (crowded k d f).phys.freelist.length := h.booted.free
  have hcount : pageCount (86*PGSIZE) = 86 := rfl
  have hframe : pteFrame (physAddr f ||| PTE_U ||| PTE_P) = f :=
    pteFrame_entry f (inRange_lt h.frame) _ (lowBits_of_lt _ (by decide))
  have hsmall : ∀ v, v*PGSIZE < 86*PGSIZE → v < UPAGES ∧ v < 86 := by
    intro v hv
    rw [UPAGES_eq]
    unfold PGSIZE at hv
    omega
  -- the first fork
  obtain ⟨k1,d1,e1,hF1,-,href1,hleaf1,-⟩ := forkcow_family hs0 (hvirgin slot1 (by decide))
    (findUnused_next (hvirgin slot1 (by decide))
      (fun j hj => by rw [below_slot1 hj]; exact hs0.state)) hchars (by omega)
  rw [hsz0] at hleaf1 href1
  have hl1 : ∀ v, v*PGSIZE < 86*PGSIZE →
      e1.leaf (v*PGSIZE) = protect (physAddr f ||| PTE_U ||| PTE_P) ∧
      d1.leaf (v*PGSIZE) = markCow (protect (physAddr f ||| PTE_U ||| PTE_P)) := by
    intro v hv
    have := hleaf1 v hv
    rwa [h.crowded_leaf (hsmall v hv).1, if_pos (hsmall v hv).2] at this
  have hs1 : Small k1 slot0 d1 := hF1.parent (fun v hv => by
    rw [hsz0] at hv
    rw [(hl1 v hv).2, markCow_P, protect_P, entry_P])
  have hc1 : Small k1 slot1 e1 := hF1.child (fun v hv => by
    rw [hsz0] at hv
    rw [(hl1 v hv).1, protect_P, entry_P])
  have hf1 : k1.phys.pgRefcount f = -84 := by
    rw [href1, hcount, hits_const rfl (fun v _ hv => by
      rw [Nat.zero_add] at hv
      rw [h.crowded_leaf (hsmall v hv).1, if_pos (hsmall v hv).2, hframe])]
    simp only [crowded, Function.update_self]
    decide
  have hsz1 : (k1.table.slot slot0).sz = 86*PGSIZE := by
    rw [hF1.slot, if_neg (by decide), hsz0]
  have hv2 : Virgin k1 slot2 := hF1.virgin (hvirgin slot2 (by decide)) (by decide)
  have hfree1 := hF1.free
  rw [hsz0, hcount] at hfree1
  -- the second fork
  obtain ⟨k2,d2,e2,hF2,-,href2,hleaf2,-⟩ := forkcow_family hs1 hv2
    (findUnused_next hv2 (fun j hj => hF1.runnable (by
      rcases below_slot2 hj with rfl | rfl
      · exact Or.inr hs0.state
      · exact Or.inl rfl)))
    (fun x => by rw [href1]; exact toChar_idem _) (by omega)
  rw [hsz1] at hleaf2 href2
  have hl2 : ∀ v, v*PGSIZE < 86*PGSIZE → d2.leaf (v*PGSIZE) =
      markCow (protect (markCow (protect (physAddr f ||| PTE_U ||| PTE_P)))) := by
    intro v hv
    have := (hleaf2 v hv).2
    rwa [(hl1 v hv).2] at this
  have hf2 : k2.phys.pgRefcount f = 2 := by
    rw [href2, hcount, hits_const rfl (fun v _ hv => by
      rw [Nat.zero_add] at hv
      rw [(hl1 v hv).2, markCow_frame, protect_frame, hframe]), hf1]
    decide
  have hc2 : Small k2 slot1 e1 := by
    have hsl : k2.table.slot slot1 = k1.table.slot slot1 := by rw [hF2.slot, if_neg (by decide)]
    refine ⟨by rw [hsl]; exact hc1.state,by rw [hsl]; exact hc1.awake,
      by rw [hsl]; exact hc1.unkilled,?_,by rw [hsl]; exact hc1.sz,by rw [hsl]; exact hc1.present,
      by rw [hF2.ofile]; exact hc1.closed⟩
    rw [hF2.pgdir, if_neg (by decide), if_neg (by decide)]
    exact hc1.dir
  have hcsz : (k2.table.slot slot1).sz = 86*PGSIZE := by
    rw [hF2.slot, if_neg (by decide), hF1.slot, if_pos rfl]
    exact hsz0
  have hs2 : Small k2 slot0 d2 := hF2.parent (fun v hv => by
    rw [hsz1] at hv
    rw [hl2 v hv, markCow_P, protect_P, markCow_P, protect_P, entry_P])
  have hpid : (crowded k d f).table.nextpid = 2 := by
    change k.table.nextpid = 2
    rw [h.booted.table]
    rfl
  refine ⟨k1,k2,_,_,d2,e1,hF1.step,by rw [hpid]; decide,hs1.canStep _,hF2.step,
    by rw [hF1.nextpid, hpid]; decide,hs2,hc2,hcsz,hf2,hl2 0 (by decide),
    fun v hv => (hl1 v (by unfold PGSIZE; omega)).1⟩

/-- A child that gives one page back takes the counter to 1, and then the
parent's store is seen by that child. -/
theorem First.crowded_run (h : First k d f) (b : UInt8) : ∃ k' z₁ z₂, z₁ ≠ -1 ∧ z₂ ≠ -1 ∧
    CowRun (crowded k d f) [(slot0, .forkcow), (slot0, .forkcow),
        (slot1, .sbrk (BitVec.ofInt 32 (-4096))), (slot0, .store 0#32 b), (slot1, .load 0#32)]
      [.val z₁, .val z₂, .val (86*PGSIZE : ℕ), .stored, .byte b] k' := by
  obtain ⟨k1,k2,z₁,z₂,d2,e,hstep1,hz1,hc1,hstep2,hz2,hs2,hc2,hsz,hf2,hd2,he⟩ := h.crowded_forks
  have hframe : pteFrame (physAddr f ||| PTE_U ||| PTE_P) = f :=
    pteFrame_entry f (inRange_lt h.frame) _ (lowBits_of_lt _ (by decide))
  have hP85 : has (e.leaf (85*PGSIZE)) PTE_P = true := by rw [he 85 (by omega), protect_P, entry_P]
  have hf85 : pteFrame (e.leaf (85*PGSIZE)) = f := by
    rw [he 85 (by omega), protect_frame, hframe]
  have hw85 := walk_of_present hP85
  have hstep3 := hc2.sbrk_drops (m := 85) hsz (by omega) (by omega) hw85 hP85
    (fun h0 => by
      have h1 : pteFrame (e.leaf (85*PGSIZE)) = 0 := by rw [pteFrame, h0]; rfl
      have h2 := inRange_pos h.frame
      omega)
    (by rw [hf85, hf2]; decide)
  rw [hf85] at hstep3
  -- the parent's store finds the counter at one
  have hP0 : has (d2.leaf 0) PTE_P = true := by
    rw [hd2, markCow_P, protect_P, markCow_P, protect_P, entry_P]
  have hU0 : has (d2.leaf 0) PTE_U = true := by
    rw [hd2, markCow_U, protect_U, markCow_U, protect_U, entry_U]
    decide
  have hf0 : pteFrame (d2.leaf 0) = f := by
    rw [hd2, markCow_frame, protect_frame, markCow_frame, protect_frame, hframe]
  have hw0 := walk_of_present hP0
  generalize hk3 : ({ k2.setDir slot1 (k2.phys.decRef f) (e.setPte (85*PGSIZE) 0#32) with
    table := k2.table.setSz slot1 (85*PGSIZE) } : Kernel) = k3 at hstep3
  have hdir0 : k3.pgdir slot0 = some d2 := by
    rw [← hk3]
    simp only [Kernel.setDir]
    rw [Function.update_of_ne (by decide)]
    exact hs2.dir
  have hdir1 : k3.pgdir slot1 = some (e.setPte (85*PGSIZE) 0#32) := by
    rw [← hk3]
    simp [Kernel.setDir]
  have hstep4 := store_reclaims 0 b hdir0 (by decide) hw0 hP0 hU0
    (by rw [hd2, markCow_W, protect_W])
    (by rw [hf0, ← hk3]; change (k2.phys.decRef f).pgRefcount f = 1; rw [decRef_self, hf2]; decide)
  have hslot : ∀ j, ((k3.table.slot j).state = (k2.table.slot j).state) ∧
      (k3.table.slot j).chan = (k2.table.slot j).chan := by
    intro j
    rw [← hk3]
    dsimp only
    rw [Ptable.setSz, Ptable.set_slot]
    split
    · next hj => rw [hj]; exact ⟨rfl,rfl⟩
    · exact ⟨rfl,rfl⟩
  generalize hk4 : (k3.setDir slot0 k3.phys (d2.setPte 0 (reclaim (d2.leaf 0)))).poke slot0 0 b =
    k4 at hstep4
  have hdir4 : k4.pgdir slot1 = some (e.setPte (85*PGSIZE) 0#32) := by
    rw [← hk4]
    simp only [Kernel.poke, Kernel.setDir]
    rw [Function.update_of_ne (by decide)]
    exact hdir1
  have hmem4 : k4.phys.mem f 0 = b := by
    rw [← hk4, Kernel.poke, setDir_entry, setPte_self (by decide) hw0, reclaim_frame, hf0]
    simp [Phys.write, Phys.fill, writeBytes]
  have hleaf4 : (e.setPte (85*PGSIZE) 0#32).leaf 0 = protect (physAddr f ||| PTE_U ||| PTE_P) := by
    have := setPte_leaf_page e (85*PGSIZE) 0 (e.leaf (85*PGSIZE)) 0#32 (by decide) (by decide) hw85
    rw [Nat.zero_mul, if_neg (by decide)] at this
    rw [this]
    have h0 := he 0 (by omega)
    rwa [Nat.zero_mul] at h0
  have hload : step k4 slot1 (.load 0#32) = .ok (k4, .byte b) := by
    change k4.load slot1 0 = _
    rw [Kernel.load, Kernel.peek, entry_dir hdir4, hleaf4, readable, protect_P, protect_U, entry_P,
      entry_U, protect_frame, hframe]
    simp only [Nat.zero_mod, hmem4]
    rfl
  have htab4 : k4.table = k3.table := by rw [← hk4]; rfl
  refine ⟨k4,z₁,z₂,hz1,hz2,.cons (h.crowded_small.canStep _) trivial hstep1
    (fun _ hv => hz1 (by injection hv)) (.cons hc1 trivial hstep2 (fun _ hv => hz2 (by injection hv))
    (.cons (hc2.canStep _) trivial hstep3 (fun h0 => absurd h0 (by decide))
    (.cons ⟨Or.inl ?_,Or.inl ?_⟩ trivial hstep4 (fun _ => rfl)
    (.cons ⟨Or.inl ?_,Or.inl ?_⟩ trivial hload trivial .nil))))⟩
  · rw [(hslot slot0).1]; exact hs2.state
  · rw [(hslot slot0).2]; exact hs2.awake
  · rw [htab4, (hslot slot1).1]; exact hc2.state
  · rw [htab4, (hslot slot1).2]; exact hc2.awake

end

/-- Exact counts alone are not enough: with a page mapped 86 times in one
directory, two copy-on-write forks overflow its counter and a child loads what
its parent stored. -/
theorem crowded_page_overflows : ∃ k es rs k', CowCounts k ∧ CowRun k es rs k' ∧
    (Ref.of k).run es ≠ some rs := by
  obtain ⟨k,d,f,-,h⟩ := first_boot
  obtain ⟨k',z₁,z₂,hz1,hz2,hrun⟩ := h.crowded_run (k.phys.mem f 0+1)
  refine ⟨_,_,_,k',h.crowded_counts,hrun,fun href => ?_⟩
  obtain ⟨s1,hs1,href⟩ := Ref.run_cons href
  obtain ⟨s2,hs2,href⟩ := Ref.run_cons href
  obtain ⟨s3,hs3,href⟩ := Ref.run_cons href
  obtain ⟨s4,hs4,href⟩ := Ref.run_cons href
  obtain ⟨s5,hs5,-⟩ := Ref.run_cons href
  have hs0 := h.crowded_small
  have hpage : (Ref.of (crowded k d f)).pages slot0 0 = some (true, k.phys.mem f) := by
    rw [(sim_of _).pages slot0 _ _ (spaces_slot (canStep_space (hs0.canStep .exit))) hs0.dir, view,
      if_pos (by decide), look, h.crowded_leaf (by decide), if_pos (by decide), seen, entry_P, entry_U,
      pteFrame_entry f (inRange_lt h.frame) _ (lowBits_of_lt _ (by decide))]
    rfl
  -- the first child is slot 1 and starts with the parent's page
  obtain ⟨p,hp,ht1,-,hp1⟩ := Ref.forkcow_val hs1 hz1
  have hp' : p = slot1 := by
    have hu : (crowded k d f).table.findUnused = some slot1 :=
      Ptable.findUnused_eq (by rw [h.crowded_slot (by decide)])
        (fun j hj => by rw [below_slot1 hj, hs0.state]; decide)
    exact Option.some.inj (hp.symm.trans hu)
  subst hp'
  have hslot1 : s1.table.slot slot1 = { (crowded k d f).table.slot slot1 with
      state := .runnable, pid := (crowded k d f).table.nextpid, parent := some slot0,
      sz := 86*PGSIZE } := by
    rw [ht1]
    simp [Ptable.launch, Ptable.claim, Ptable.set, Ref.of, crowded, Ptable.setSz,
      Function.update_of_ne (show slot0 ≠ slot1 by decide)]
  have hpage1 : s1.pages slot1 0 = some (true, k.phys.mem f) := by
    rw [hp1]
    dsimp only
    rw [if_pos, hpage]
    change 0*PGSIZE < ((k.table.setSz slot0 (86*PGSIZE)).slot slot0).sz
    rw [Ptable.setSz, Ptable.set_slot, if_pos rfl]
    exact (by decide : 0*PGSIZE < 86*PGSIZE)
  -- nothing after that touches the first page of slot 1
  obtain ⟨q,hq,ht2,hoff,-⟩ := Ref.forkcow_val hs2 hz2
  have hq1 : slot1 ≠ q := by
    rintro rfl
    have := Ptable.findUnused_state hq
    rw [hslot1] at this
    cases this
  have hslot2 : s2.table.slot slot1 = s1.table.slot slot1 := by
    rw [ht2]
    simp [Ptable.launch, Ptable.claim, Ptable.set, Function.update_of_ne hq1]
  have hpage3 := Ref.sbrk_first hs3 (by decide) (by rw [hslot2, hslot1]; exact (by decide : 0 < newSize (86*PGSIZE) (-4096)))
  have hpage4 := Ref.store_other hs4 (show slot1 ≠ slot0 by decide)
  have hlast : s4.step slot1 (.load 0#32) = some (s4, .byte (k.phys.mem f 0)) := by
    change s4.load slot1 0 = _
    rw [Ref.load, hpage4, Nat.zero_div, hpage3, hoff slot1 hq1, hpage1]
    rfl
  rw [hlast] at hs5
  simp at hs5

end Xv6.Kern
