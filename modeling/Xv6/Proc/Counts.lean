import Xv6.Proc.Progress

/-!
# Reference counts and page ownership

Without plain `fork` the ghosts of the ledger stay empty, so the counters are
exact and every frame of the allocator has one owner. Plain `fork` maps pages it
does not count, and the last `exit` and `wait` of the child leave such a page
with no owner at all.
-/

set_option autoImplicit false

namespace Xv6.Kern
open Xv6.Mmu Xv6.Kalloc Xv6.Paging Xv6.Table Xv6.Files Xv6.Ledger Xv6.Tally Xv6.Halting

structure ExactCounts (k : Kernel) : Prop where
  counted : ∀ f, k.phys.pgRefcount f = maps (dirs k) f
  bounded : ∀ f, 0 ≤ k.phys.pgRefcount f ∧ k.phys.pgRefcount f ≤ NPROC
  free : ∀ f ∈ k.phys.freelist, k.phys.pgRefcount f = 0
  writer : ∀ i va, (k.table.slot i).state.hasSpace = true → va < KERNBASE →
    has (k.entry i va) PTE_P = true → has (k.entry i va) PTE_W = true →
    k.phys.pgRefcount (pteFrame (k.entry i va)) = 1

theorem KInv.exactCounts {k : Kernel} (h : KInv Ghost.exact k) : ExactCounts k := by
  obtain ⟨P,hb,-⟩ := h.stock
  have hcnt : ∀ f, k.phys.pgRefcount f = maps (dirs k) f := by
    intro f
    have := hb.counted f
    change k.phys.pgRefcount f+(0 : ℕ) = _ at this
    omega
  refine ⟨hcnt,fun f => ?_,fun f hf => (h.free_unmapped hf).2.2,fun i va hi hva hP hW => ?_⟩
  · have h1 := maps_le_length f (fun d hd => hb.inj d hd f)
    have h2 := dirs_length k
    rw [hcnt, NPROC]
    omega
  · obtain ⟨d,hd,-,hperm⟩ := h.split (spaces_slot hi)
    rw [entry_dir hd] at hP hW ⊢
    have hp := hb.priv d (hperm.mem_iff.mpr List.mem_cons_self) (va/PGSIZE) (page_lt hva)
    rw [leaf_page] at hp
    rw [hcnt, hp hP hW]
    rfl

/-- How many kernel objects use a frame: kernel stacks, pipes, the levels of the
live directories, and what boot has given out for good. -/
def objects (k : Kernel) (f : ℕ) : ℕ :=
  (kstacks k).count f+(fixed k).count f+tabs (dirs k) f+
    if ∃ x, (k.files.file x).type = .pipe ∧ (k.files.file x).pipe = f then 1 else 0

/-- The frame is free, or one kernel object has it, or user entries map it. -/
def Owned (k : Kernel) (f : ℕ) : Prop :=
  (k.phys.freelist.count f = 1 ∧ objects k f = 0 ∧ maps (dirs k) f = 0) ∨
  (k.phys.freelist.count f = 0 ∧ objects k f = 1 ∧ maps (dirs k) f = 0) ∨
  (k.phys.freelist.count f = 0 ∧ objects k f = 0 ∧ 0 < maps (dirs k) f)

theorem pipes_count {g : Ghost} {ph : Phys} {ds : List PageDir} {own P : List ℕ} {t : Ftable}
    (hb : Books g ph ds (P++own)) (hp : Pipes t P) (f : ℕ) :
    P.count f = if ∃ x, (t.file x).type = .pipe ∧ (t.file x).pipe = f then 1 else 0 := by
  split
  · next h =>
    obtain ⟨x,hx,rfl⟩ := h
    exact List.count_eq_one_of_mem (owned_nodup hb) (hp.ends x hx).1
  · next h =>
    rw [List.count_eq_zero]
    intro hm
    obtain ⟨w,hw⟩ := hp.used f hm
    obtain ⟨x,hx,hxf,-⟩ := hp.backed f hm w hw
    exact h ⟨x,hx,hxf⟩

theorem KInv.kept_objects {g : Ghost} {k : Kernel} (h : KInv g k) (f : ℕ) :
    ∃ P, Books g k.phys (dirs k) (P++(kstacks k++fixed k)) ∧
      kept k.phys (dirs k) (P++(kstacks k++fixed k)) f = k.phys.freelist.count f+objects k f := by
  obtain ⟨P,hb,hp⟩ := h.stock
  refine ⟨P,hb,?_⟩
  rw [kept, List.count_append, List.count_append, pipes_count hb hp f, objects]
  omega

theorem KInv.owned {k : Kernel} (h : KInv Ghost.exact k) {f : ℕ} (hf : InRange f) :
    Owned k f := by
  obtain ⟨P,hb,hk⟩ := h.kept_objects f
  have hone := (hb.complete f hf).resolve_left id
  rw [held, hk] at hone
  rw [Owned]
  split at hone <;> omega

theorem FirstFork.waits {k k' k2 : Kernel} {d e : PageDir} {f x : ℕ} {g : Ghost}
    (h0 : First k d f) (h : FirstFork k k' d e x) (hk : KInv g k2)
    (ht : ∀ p, k2.table.slot p = if p = slot1 then { k'.table.slot slot1 with state := .zombie }
      else k.table.slot p) :
    ∃ k3 z, CanStep k2 slot0 .wait ∧ step k2 slot0 .wait = .ok (k3, .val z) ∧ KInv g k3 ∧
      k3.pgdir = k2.pgdir ∧ ∀ p, p ≠ slot0 → (k3.table.slot p).state = .unused := by
  have hs0 : k2.table.slot slot0 = k.table.slot slot0 := by rw [ht, if_neg (by decide)]
  have hz : (k2.table.wake slot0).findZombie slot0 = some slot1 := by
    apply find_finRange
    · rw [Ptable.wake, Ptable.set_slot, if_neg (by decide), ht, if_pos rfl, h.family.slot,
        if_pos rfl]
      simp
    · intro j hj
      rw [below_slot1 hj, Ptable.wake, Ptable.set_slot, if_pos rfl, hs0, h0.booted.table]
      decide
  obtain ⟨k3,hw,hk3,ht3,hd3,-⟩ := wait_reaps hk hz
  refine ⟨k3,((k2.table.wake slot0).slot slot1).pid,⟨Or.inl (by rw [hs0]; exact h0.small.state),Or.inr rfl⟩,?_,hk3,hd3,?_⟩
  · have hkill : (k3.table.slot slot0).killed = false := by
      rw [ht3, Ptable.reap, Ptable.set_slot, if_neg (by decide), Ptable.wake, Ptable.set_slot,
        if_pos rfl, hs0]
      exact h0.small.unkilled
    rw [step_syscall (by rw [hs0]; exact h0.small.entering), syscall, bind_ok]
    refine ⟨_,hw,?_⟩
    dsimp only
    rw [back, hkill]
    rfl
  · intro p hp
    rw [ht3, Ptable.reap, Ptable.set_slot]
    split
    · rfl
    · next h1 =>
      rw [Ptable.wake, Ptable.set_slot, if_neg hp, ht, if_neg h1, h0.booted.table,
        show bootTable.slot p = _ from if_neg hp]

theorem lone_maps {k : Kernel} {d : PageDir} {n : ℕ} (hn : k.table.spaces slot0 = some n) (hd : k.pgdir slot0 = some d)
    (hj : ∀ j, j ≠ slot0 → k.table.spaces j = none) (x : ℕ) : maps (dirs k) x = mapCnt d x := by
  have hp : (dirs k).Perm (d::gather (Function.update (space k) slot0 none)) :=
    gather_swap (by rw [space, hn, hd]; rfl) (fun _ _ => rfl)
  have h0 : Function.update (space k) slot0 none = fun _ => none := by
    funext j
    by_cases h : j = slot0
    · rw [h, Function.update_self]
    · rw [Function.update_of_ne h, space, hj j h]
      rfl
  rw [maps_perm hp, h0, gather_none, maps_cons, maps_nil, add_zero]

end Xv6.Kern
