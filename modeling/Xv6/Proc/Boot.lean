import Xv6.Proc.KernelInv
import Xv6.Mem.Supply

/-!
# Boot

`main` builds the free list in two halves with the kernel directory and the
processor stacks between them. The frames that `kinit2` has not handed over yet
count as owned, so the ledger holds from the first instruction on, and the state
that `userinit` leaves behind satisfies the kernel invariant with exact ghosts.
-/

set_option autoImplicit false

namespace Xv6.Kern
open Xv6.Mmu Xv6.Kalloc Xv6.Paging Xv6.Uvm Xv6.Table Xv6.Ledger Xv6.Tally Xv6.Halting
open Xv6.MapSpec Xv6.FreeSpec Xv6.GrowSpec Xv6.Supply

/-- Ghosts that record nothing, with a choice of what is watched. -/
def clean (w : Bool → Prop) : Ghost := ⟨fun _ => 0, fun _ => False, w⟩

theorem inRange_iff (f : ℕ) : InRange f ↔ 292 ≤ f ∧ f < 57344 := by
  unfold InRange kernEnd PHYSTOP PGSIZE
  omega

theorem count_range' (s n x : ℕ) :
    (List.range' s n).count x = if s ≤ x ∧ x < s+n then 1 else 0 := by
  split
  · next h =>
    exact List.count_eq_one_of_mem List.nodup_range' (List.mem_range'_1.mpr h)
  · next h =>
    exact List.count_eq_zero_of_not_mem (fun hm => h (List.mem_range'_1.mp hm))

theorem books_start (w : Bool → Prop) (mem : ℕ → ℕ → UInt8) :
    Books (clean w) ⟨[], fun _ => 0, mem⟩ [] (List.range' 292 732++List.range' 1024 56320) := by
  have hk : ∀ x, kept ⟨[], fun _ => 0, mem⟩ [] (List.range' 292 732++List.range' 1024 56320) x =
      if InRange x then 1 else 0 := by
    intro x
    simp only [kept, List.count_nil, List.count_append, tabs_nil, count_range', inRange_iff]
    split <;> split <;> split <;> omega
  refine ⟨fun _ => rfl,fun _ => Or.inl rfl,?_,?_,?_,?_,?_,?_⟩
  · intro x
    rw [held, hk, maps_nil]
    simp
  · intro x hx
    right
    rw [held, hk, maps_nil, if_pos hx]
    simp
  all_goals
    intro d hd
    cases hd

theorem kfreeAll_length {l : List ℕ} {ph ph' : Phys} (h : l.foldlM kfree ph = .ok ph') :
    ph'.freelist.length = l.length+ph.freelist.length := by
  induction l generalizing ph with
  | nil =>
    cases h
    simp
  | cons f l ih =>
    rw [List.foldlM_cons, bind_ok] at h
    obtain ⟨ph1,h1,h⟩ := h
    rw [kfree] at h1
    split at h1
    · cases h1
      have := ih h
      simp only [List.length_cons] at this ⊢
      omega
    · cases h1

theorem startothers_books {g : Ghost} {n : ℕ} {ph : Phys} {own : List ℕ}
    (hb : Books g ph [] own) :
    Books g (startothers n ph).1 [] ((startothers n ph).2++own) := by
  induction n generalizing ph own with
  | zero => exact hb
  | succ n ih =>
    rw [startothers]
    rcases kalloc_cases ph with ⟨-,hk⟩ | ⟨f,fs,hl,hk⟩
    · rw [hk]
      exact ih hb
    · rw [hk]
      exact (ih (hb.kalloc hl)).perm (List.Perm.refl _) List.perm_middle

theorem kinit1_eq (ph : Phys) :
    freerange ph kernEnd (4*2^20) = (List.range' 292 732).foldlM kfree ph := rfl

theorem kinit2_eq (ph : Phys) :
    freerange ph (4*2^20) PHYSTOP = (List.range' 1024 56320).foldlM kfree ph := rfl

/-- The process table that `userinit` leaves. -/
def bootTable : Ptable :=
  ⟨fun i => if i = slot0 then ⟨.runnable, 1, none, false, none, PGSIZE⟩
    else ⟨.unused, 0, none, false, none, 0⟩, 2, slot0⟩

/-- What is known of the state after boot. -/
structure Booted (k : Kernel) : Prop where
  inv : ∀ w, KInv (clean w) k
  table : k.table = bootTable
  code : ∃ d f, k.pgdir slot0 = some d ∧ InRange f ∧
    d.leaf 0 = physAddr f ||| (PTE_W ||| PTE_U) ||| PTE_P ∧
    ∀ v < UPAGES, v ≠ 0 → d.leaf (v*PGSIZE) = 0#32
  free : 56000 ≤ k.phys.freelist.length
  closed : ∀ i fd, k.ofile i fd = none

theorem inituvm_runs (ph : Phys) (d : PageDir) {init : List UInt8} (hi : init.length < PGSIZE)
    (hd : d.leaf 0 = 0#32) (hf : lack slots d+1 ≤ ph.freelist.length) :
    ∃ ph' d' f, inituvm ph d init = .ok (ph', d') ∧ f ∈ ph.freelist ∧
      d'.leaf 0 = physAddr f ||| (PTE_W ||| PTE_U) ||| PTE_P ∧
      (∀ v < UPAGES, v ≠ 0 → d'.leaf (v*PGSIZE) = d.leaf (v*PGSIZE)) ∧
      ph.freelist.length ≤ ph'.freelist.length+lack slots d+1 := by
  rcases kalloc_cases ph with ⟨h0,-⟩ | ⟨f,fs,hl,hk⟩
  · rw [h0, List.length_nil] at hf
    omega
  · rw [hl, List.length_cons] at hf
    obtain ⟨ph1,d1,h1,hfed,-,-,hleaf⟩ := mappages_fed
      (({ ph with freelist := fs } : Phys).fill f (fun _ => 0)) d (a := 0)
      (physAddr f) (PTE_W ||| PTE_U) rfl (by decide) (by rw [hd]; rfl)
      (by change lack slots d ≤ fs.length; omega)
    have hlen : ph1.freelist.length+lack slots d = fs.length+lack slots d1 := hfed.len
    refine ⟨(ph1.incRef f).write f 0 init,d1,f,?_,by simp [hl],?_,fun v hv hv0 => ?_,?_⟩
    · rw [inituvm, if_neg (by omega), hk]
      dsimp only
      rw [h1]
      rfl
    · have := hleaf 0 (by decide)
      simpa using this
    · rw [hleaf v hv, if_neg (by rw [Nat.zero_div]; exact hv0)]
    · rw [hl, List.length_cons]
      change fs.length+1 ≤ ph1.freelist.length+_+1
      omega

theorem lack_le (d : PageDir) : lack slots d ≤ 65 := by
  have := Finset.card_filter_le slots (fun i => (d.pde i).isNone = true)
  rw [slots_card] at this
  exact this

theorem findUnused_empty : emptyTable.findUnused = some slot0 := by
  refine Ptable.findUnused_eq rfl (fun j hj => ?_)
  exact absurd hj (Nat.not_lt_zero j.val)

def firstProc (k : Kernel) (f : ℕ) (ph : Phys) (d : PageDir) : Kernel :=
  { k with phys := ph, table := bootTable,
           pgdir := Function.update k.pgdir slot0 (some d),
           kstack := Function.update k.kstack slot0 (some f) }

theorem bootTable_spaces (i : Fin NPROC) :
    bootTable.spaces i = if i = slot0 then some PGSIZE else none := by
  simp only [Ptable.spaces, bootTable]
  by_cases h : i = slot0 <;> simp [h, ProcState.hasSpace]

theorem bootTable_eq :
    { (emptyTable.claim slot0).set slot0 { (emptyTable.claim slot0).slot slot0 with
        state := .runnable, sz := PGSIZE } with initproc := slot0 } = bootTable := by
  rw [bootTable, Ptable.mk.injEq]
  refine ⟨?_,rfl,rfl⟩
  funext i
  by_cases h : i = slot0
  · simp [Ptable.claim, Ptable.set, emptyTable, h]
  · simp [Ptable.claim, Ptable.set, emptyTable, h]

theorem firstProc_inv {g : Ghost} {k : Kernel} {f : ℕ} {ph : Phys} {d : PageDir}
    (hb : Books g ph [d] (f::fixed k)) (hk : ∀ i, k.kstack i = none)
    (hfl : ∀ f, (k.files.file f).type = .none) : KInv g (firstProc k f ph d) := by
  have hdirs : (dirs (firstProc k f ph d)).Perm [d] := by
    have h := gather_fill (g := fun _ => none) (h := space (firstProc k f ph d))
      (i := slot0) (x := d) rfl
      (by simp [space, firstProc, bootTable_spaces])
      (fun j hj => by simp [space, firstProc, bootTable_spaces, hj])
    rwa [gather_none] at h
  have hst : (kstacks (firstProc k f ph d)).Perm [f] := by
    have h := gather_fill (g := fun _ => none) (h := (firstProc k f ph d).kstack)
      (i := slot0) (x := f) rfl (by simp [firstProc])
      (fun j hj => by simp [firstProc, Function.update_of_ne hj, hk])
    rwa [gather_none] at h
  refine ⟨⟨[],hb.perm hdirs.symm ((hst.append_right (fixed k)).symm),?_⟩,?_,?_⟩
  · refine ⟨?_,?_,?_,?_,?_⟩
    · intro x _
      change (k.files.file x).type ≠ .pipe
      rw [hfl]
      decide
    · intro x hx
      change (k.files.file x).type = .pipe at hx
      rw [hfl] at hx
      cases hx
    · intro x y hx
      change (k.files.file x).type = .pipe at hx
      rw [hfl] at hx
      cases hx
    · intro p hp
      cases hp
    · intro p hp
      cases hp
  · intro i n hn
    change bootTable.spaces i = some n at hn
    rw [bootTable_spaces] at hn
    split at hn
    · next hi =>
      cases hn
      subst hi
      exact ⟨by simp [firstProc],by simp [firstProc],by decide⟩
    · cases hn
  · intro i hn
    change bootTable.spaces i = none at hn
    rw [bootTable_spaces] at hn
    split at hn
    · cases hn
    · next hi => simp [firstProc, Function.update_of_ne hi, hk]

theorem userinit_runs {k : Kernel} {init : List UInt8} (hi : init.length < PGSIZE)
    (hb : ∀ w, Books (clean w) k.phys [] (fixed k)) (ht : k.table = emptyTable)
    (hk : ∀ i, k.kstack i = none) (ho : ∀ i fd, k.ofile i fd = none)
    (hfl : ∀ f, (k.files.file f).type = .none) (hf : 56200 ≤ k.phys.freelist.length) :
    ∃ k', userinit k init = .ok k' ∧ Booted k' := by
  rcases kalloc_cases k.phys with ⟨h0,-⟩ | ⟨f,fs,hl,-⟩
  · rw [h0] at hf
    simp at hf
  · have hfs : 56199 ≤ fs.length := by
      rw [hl, List.length_cons] at hf
      omega
    have ha := allocproc_some (p := slot0) (by rw [ht]; exact findUnused_empty) hl
    obtain ⟨ph1,d,h1,hlen1,hsuf⟩ := setupkvm_fed { k.phys with freelist := fs }
      (by dsimp only; omega)
    have hfresh := setupkvm_some h1
    dsimp only at hlen1 hsuf
    obtain ⟨ph2,d2,f2,h2,hm2,hleaf,hblank,hlen2⟩ := inituvm_runs ph1 d hi
      (hfresh.leaf 0 (by decide)) (by omega)
    have hlack := lack_le d
    have hb1 : ∀ w, Books (clean w) ph1 [d] (f::fixed k) :=
      fun w => hfresh.books _ _ _ ((hb w).kalloc hl)
    have hr2 : InRange f2 := by
      refine ((hb1 (fun _ => True)).idle (f := f2) ?_).1
      have := List.count_pos_iff.mpr hm2
      rw [kept]
      omega
    have hb2 : ∀ w, Books (clean w) ph2 [d2] (f::fixed k) :=
      fun w => inituvm_books (by omega) (hb1 w) h2
    refine ⟨firstProc k f ph2 d2,?_,?_⟩
    · rw [userinit, ha]
      dsimp only
      rw [show (claimed k slot0 f fs).phys = { k.phys with freelist := fs } from rfl, h1]
      simp only [bind, Except.bind]
      rw [h2]
      dsimp only
      rw [firstProc, ← bootTable_eq, ← ht]
      rfl
    · refine ⟨fun w => firstProc_inv (hb2 w) hk hfl,rfl,⟨d2,f2,?_,hr2,hleaf,?_⟩,?_,ho⟩
      · simp [firstProc]
      · intro v hv hv0
        rw [hblank v hv hv0]
        exact hfresh.leaf _ (by rw [UPAGES_eq] at hv; unfold KERNBASE PGSIZE; omega)
      · change 56000 ≤ ph2.freelist.length
        omega

theorem boot_halves {low high : List ℕ} (m : Machine) (hm : m.initcode.length < PGSIZE)
    (hlow : ∀ ph, freerange ph kernEnd (4*2^20) = low.foldlM kfree ph)
    (hhigh : ∀ ph, freerange ph (4*2^20) PHYSTOP = high.foldlM kfree ph)
    (hl : 66 ≤ low.length) (hh : 56200 ≤ high.length)
    (hb : ∀ w, Books (clean w) ⟨[], fun _ => 0, m.mem⟩ [] (low++high)) :
    ∃ k, boot m = .ok k ∧ Booted k := by
  obtain ⟨ph1,h1,-⟩ := kfreeAll (hb (fun _ => True))
  have hb1 : ∀ w, Books (clean w) ph1 [] high := by
    intro w
    obtain ⟨ph,h,hb,-⟩ := kfreeAll (hb w)
    rw [h1] at h
    cases h
    exact hb
  have hl1 := kfreeAll_length h1
  obtain ⟨ph2,d,h2,hl2,-⟩ := setupkvm_fed ph1 (by omega)
  have hfresh := setupkvm_some h2
  have hb2 : ∀ w, Books (clean w) ph2 [] (d.frames++high) := by
    intro w
    refine (hfresh.books _ _ _ (hb1 w)).dropDir (fun v hv => ?_)
    rw [hfresh.leaf _ (by rw [UPAGES_eq] at hv; unfold KERNBASE PGSIZE; omega)]
    rfl
  have hb3 : ∀ w, Books (clean w) (startothers m.aps ph2).1 []
      (high++((startothers m.aps ph2).2++d.frames)) := by
    intro w
    refine (startothers_books (n := m.aps) (hb2 w)).perm (List.Perm.refl _) ?_
    rw [← List.append_assoc]
    exact List.perm_append_comm
  obtain ⟨ph4,h4,-⟩ := kfreeAll (hb3 (fun _ => True))
  have hb4 : ∀ w, Books (clean w) ph4 [] ((startothers m.aps ph2).2++d.frames) := by
    intro w
    obtain ⟨ph,h,hb,-⟩ := kfreeAll (hb3 w)
    rw [h4] at h
    cases h
    exact hb
  have hl4 := kfreeAll_length h4
  obtain ⟨k,hk,hbk⟩ := userinit_runs (k := ⟨ph4, emptyTable, fun _ => none, fun _ => none,
    fun _ _ => none, ⟨fun _ => ⟨.none, 0, false, 0⟩, fun _ => ⟨false, false⟩⟩, d,
    (startothers m.aps ph2).2⟩) hm hb4 rfl (fun _ => rfl) (fun _ _ => rfl) (fun _ => rfl)
    (by dsimp only; omega)
  refine ⟨k,?_,hbk⟩
  rw [boot, bind_ok]
  refine ⟨ph1,(hlow _).trans h1,?_⟩
  rw [bind_ok]
  refine ⟨(ph2, some d),h2,?_⟩
  dsimp only
  rw [bind_ok]
  exact ⟨ph4,(hhigh _).trans h4,hk⟩

theorem boot_runs (m : Machine) (hm : m.initcode.length < PGSIZE) :
    ∃ k, boot m = .ok k ∧ Booted k :=
  boot_halves m hm kinit1_eq kinit2_eq (by rw [List.length_range']; omega)
    (by rw [List.length_range']; omega) (fun w => books_start w m.mem)

theorem inituvm_fits {ph : Phys} {d : PageDir} {init : List UInt8} {x : Phys × PageDir}
    (h : inituvm ph d init = .ok x) : init.length < PGSIZE := by
  rw [inituvm] at h
  split at h
  · cases h
  · omega

theorem boot_fits {m : Machine} {k : Kernel} (h : boot m = .ok k) : m.initcode.length < PGSIZE := by
  rw [boot, bind_ok] at h
  obtain ⟨ph1,-,h⟩ := h
  rw [bind_ok] at h
  obtain ⟨⟨ph2,o⟩,-,h⟩ := h
  cases o with
  | none => cases h
  | some d =>
    dsimp only at h
    rw [bind_ok] at h
    obtain ⟨ph3,-,h⟩ := h
    rw [userinit] at h
    split at h
    · cases h
    · rw [bind_ok] at h
      obtain ⟨⟨ph4,o⟩,-,h⟩ := h
      cases o with
      | none => cases h
      | some d =>
        dsimp only at h
        rw [bind_ok] at h
        obtain ⟨x,hx,-⟩ := h
        exact inituvm_fits hx

theorem boot_booted {m : Machine} {k : Kernel} (h : boot m = .ok k) : Booted k := by
  obtain ⟨k',h',hb⟩ := boot_runs m (boot_fits h)
  rw [h] at h'
  cases h'
  exact hb

end Xv6.Kern
