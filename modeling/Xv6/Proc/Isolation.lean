import Xv6.Proc.Progress

/-!
# Memory isolation

A store reaches only frames that no other process maps: a writable entry maps a
page of count one, a fault on a page of count one makes that page writable where
it is, and any other fault writes into a page fresh from the free list. The
counter is only as good as the pages it was kept for, so a `forkcow` by a process
whose pages plain `fork` never counted breaks the argument and the isolation.
-/

set_option autoImplicit false

namespace Xv6.Kern
open Xv6.Mmu Xv6.Kalloc Xv6.Paging Xv6.Uvm Xv6.Table Xv6.Files Xv6.Ledger Xv6.Tally
open Xv6.GrowSpec Xv6.CopySpec Xv6.Supply Kernel

/-- A frame that the process at `i` maps and nobody else does, or that nobody
maps. -/
def Private (k : Kernel) (i : Fin NPROC) (f : ℕ) : Prop := maps (others k i) f = 0

theorem KInv.private_of_one {g : Ghost} {k : Kernel} {i : Fin NPROC} {d : PageDir} {va : ℕ}
    (h : KInv g k) (hi : (k.table.slot i).state.hasSpace = true) (hd : k.pgdir i = some d)
    (hva : va < KERNBASE) (hP : has (d.leaf va) PTE_P = true)
    (hm : maps (dirs k) (pteFrame (d.leaf va)) = 1) : Private k i (pteFrame (d.leaf va)) := by
  obtain ⟨d0,hd0,-,hperm⟩ := h.split (spaces_slot hi)
  rw [hd] at hd0
  cases hd0
  rw [maps_perm hperm, maps_cons] at hm
  have hpos : 0 < mapCnt d (pteFrame (d.leaf va)) := by
    apply mapCnt_pos (page_lt hva)
    rw [MapsTo, leaf_page]
    exact ⟨hP,rfl⟩
  rw [Private]
  omega

theorem KInv.writable_private {g : Ghost} {k : Kernel} {i : Fin NPROC} {va : ℕ} (h : KInv g k)
    (hi : (k.table.slot i).state.hasSpace = true) (hva : va < 2^32)
    (hw : writable (k.entry i va) = true) : Private k i (pteFrame (k.entry i va)) := by
  obtain ⟨d,hd,-,hperm⟩ := h.split (spaces_slot hi)
  obtain ⟨P,hb,-⟩ := h.stock
  have hmem : d ∈ dirs k := hperm.mem_iff.mpr List.mem_cons_self
  rw [entry_dir hd] at hw ⊢
  simp only [writable, readable, Bool.and_eq_true] at hw
  obtain ⟨⟨hP,hU⟩,hW⟩ := hw
  have hk : va < KERNBASE := by
    by_contra hn
    have := hb.hidden d hmem va (by omega) hva
    rw [hU] at this
    cases this
  refine h.private_of_one hi hd hk hP ?_
  have := hb.priv d hmem (va/PGSIZE) (page_lt hk)
  rw [leaf_page] at this
  exact this hP hW

/-- What a step of `i` leaves to the others: their directories and the contents
of the pages these map. -/
def Quiet (k k' : Kernel) (i : Fin NPROC) : Prop :=
  (∀ j, j ≠ i → k'.pgdir j = k.pgdir j) ∧ ∀ x, 0 < maps (others k i) x → k'.phys.mem x = k.phys.mem x

theorem setDir_others (k : Kernel) (i : Fin NPROC) (ph : Phys) (d : PageDir) :
    others (k.setDir i ph d) i = others k i := by
  have : Function.update (space (k.setDir i ph d)) i none = Function.update (space k) i none := by
    funext j
    by_cases hj : j = i
    · subst hj; simp
    · simp [Function.update_of_ne hj, space, Kernel.setDir]
  rw [others, this, others]

theorem setDir_entry (k : Kernel) (i : Fin NPROC) (ph : Phys) (d : PageDir) (va : ℕ) :
    (k.setDir i ph d).entry i va = d.leaf va := by
  simp [Kernel.entry, Kernel.setDir]

theorem setPte_self {d : PageDir} {va : ℕ} {p q : Pte} (hva : va < KERNBASE)
    (hw : d.walk va = some p) : (d.setPte va q).leaf va = q :=
  leaf_of_walk (walk_setPte_self hva hw)

theorem exit_mem {g : Ghost} {k k' : Kernel} {i : Fin NPROC} (h : KInv g k)
    (he : k.exit i = .ok k') :
    k'.pgdir = k.pgdir ∧ ∀ x, 0 < maps (dirs k) x → k'.phys.mem x = k.phys.mem x := by
  obtain ⟨-,ph,t,o,h1,rfl⟩ := exit_cases he
  exact ⟨rfl,(closeAll_stock h.stock h1).2⟩

theorem others_le_dirs {g : Ghost} {k : Kernel} {i : Fin NPROC} (h : KInv g k)
    (hi : (k.table.slot i).state.hasSpace = true) (x : ℕ) :
    maps (others k i) x ≤ maps (dirs k) x := by
  obtain ⟨d,-,-,hperm⟩ := h.split (spaces_slot hi)
  rw [maps_perm hperm, maps_cons]
  omega

/-- A fault is quiet; when it asks for the access to be retried, the entry is
writable and its page private. -/
theorem fault_quiet {g : Ghost} {k k' : Kernel} {i : Fin NPROC} {va : ℕ} {again : Bool}
    (h : KInv g k) (hi : (k.table.slot i).state.hasSpace = true)
    (he : k.fault i va = .ok (k', again)) :
    Quiet k k' i ∧ (again = true → writable (k'.entry i va) = true ∧ k'.table = k.table ∧
      others k' i = others k i ∧ Private k i (pteFrame (k'.entry i va))) := by
  obtain ⟨d,ph,d',killed,hd,h1,hend⟩ := fault_cases he
  have hk1 := pagefault_inv h hi hd h1
  have hdir := dir_eq hd
  have hoff : ∀ j, j ≠ i → (k.setDir i ph d').pgdir j = k.pgdir j := by
    intro j hj
    simp [Kernel.setDir, Function.update_of_ne hj]
  rcases pagefault_cases h1 with ⟨rfl,rfl,rfl⟩ | ⟨p,rfl,hva,hw,hP,hU,hW,hc⟩
  · rcases hend with ⟨-,rfl,h2⟩ | ⟨h0,-⟩
    swap
    · cases h0
    have hk2 : KInv g { k.setDir i k.phys d' with table := k.table.kill i } :=
      hk1.retable (Ptable.set_spaces rfl rfl)
    obtain ⟨hpg,hmem⟩ := exit_mem hk2 h2
    refine ⟨⟨fun j hj => by rw [hpg]; exact hoff j hj,fun x hx => hmem x ?_⟩,fun h0 => by cases h0⟩
    have hsp : space { k.setDir i k.phys d' with table := k.table.kill i } = space k := by
      funext j
      have ht : (k.table.kill i).spaces = k.table.spaces := Ptable.set_spaces rfl rfl
      by_cases hj : j = i
      · subst hj; simp [space, Kernel.setDir, ht, hdir]
      · simp [space, Kernel.setDir, ht, Function.update_of_ne hj]
    rw [dirs, hsp]
    exact lt_of_lt_of_le hx (others_le_dirs h hi x)
  · rcases hend with ⟨h0,-⟩ | ⟨-,rfl,rfl⟩
    · cases h0
    have hleaf : d.leaf va = p := leaf_of_walk hw
    obtain ⟨P,hb,-⟩ := h.stock
    have hrest : (k.setDir i ph d').table = k.table ∧
        others (k.setDir i ph d') i = others k i := ⟨rfl,setDir_others k i ph d'⟩
    rcases hc with ⟨h1,rfl,rfl⟩ | ⟨f,fs,h1,hl,rfl,rfl⟩
    · refine ⟨⟨hoff,fun _ _ => rfl⟩,fun _ => ⟨?_,hrest.1,hrest.2,?_⟩⟩
      · rw [setDir_entry, setPte_self hva hw, writable, readable, reclaim_P, reclaim_U, reclaim_W,
          hP, hU]
        rfl
      · rw [setDir_entry, setPte_self hva hw, reclaim_frame, ← hleaf]
        refine h.private_of_one hi hdir hva (by rw [hleaf]; exact hP) ?_
        have hcnt := hb.counted (pteFrame p)
        rw [hleaf]
        rcases hb.single (pteFrame p) with hu | hu <;> omega
    · obtain ⟨hr,hm,-⟩ := h.free_unmapped (f := f) (by rw [hl]; simp)
      refine ⟨⟨hoff,fun x hx => ?_⟩,fun _ => ⟨?_,hrest.1,hrest.2,?_⟩⟩
      · have hne : x ≠ f := by
          rintro rfl
          have := others_le_dirs h hi x
          omega
        exact Function.update_of_ne hne _ _
      · rw [setDir_entry, setPte_self hva hw, writable, readable, entry_P, entry_U, entry_W]
        rfl
      · rw [setDir_entry, setPte_self hva hw, pteFrame_entry f (inRange_lt hr) _ userPerm_low]
        have := others_le_dirs h hi f
        rw [Private]
        omega

theorem poke_quiet {k : Kernel} {i : Fin NPROC} {va : ℕ} {b : UInt8}
    (hp : Private k i (pteFrame (k.entry i va))) : Quiet k (k.poke i va b) i := by
  refine ⟨fun _ _ => rfl,fun x hx => ?_⟩
  have hne : x ≠ pteFrame (k.entry i va) := by
    rintro rfl
    rw [Private] at hp
    omega
  exact Function.update_of_ne hne _ _

theorem Quiet.peek {g : Ghost} {k k' : Kernel} {i j : Fin NPROC} (hq : Quiet k k' i)
    (h : KInv g k) (hj : j ≠ i) (hs : (k.table.slot j).state.hasSpace = true) {va : ℕ}
    (hva : va < (k.table.slot j).sz) : k'.peek j va = k.peek j va := by
  have hn := spaces_slot hs
  have hsz := (h.space j _ hn).2.2
  obtain ⟨d,hd,-,-⟩ := h.split hn
  rw [Kernel.peek, Kernel.peek, entry_dir ((hq.1 j hj).trans hd), entry_dir hd]
  split
  · next hr =>
    rw [readable, Bool.and_eq_true] at hr
    have hm : d ∈ others k i := by
      rw [others, mem_gather]
      exact ⟨j,by rw [Function.update_of_ne hj, space, hn, hd]; rfl⟩
    have hpos : 0 < mapCnt d (pteFrame (d.leaf va)) := by
      apply mapCnt_pos (page_lt (lt_trans hva hsz))
      rw [MapsTo, leaf_page]
      exact ⟨hr.1,rfl⟩
    rw [hq.2 _ (lt_of_lt_of_le hpos (mapCnt_le_maps hm _))]
  · rfl

/-- A `forkcow` whose caller's pages have all been counted. -/
def CountedCow (k : Kernel) (i : Fin NPROC) (op : Op) : Prop :=
  op = .forkcow → ∀ p, Visits k i p → k.phys.pgRefcount (pteFrame p) ≠ 0

end Xv6.Kern
