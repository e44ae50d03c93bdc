import Xv6.Mem.Kalloc
import Xv6.Lib.Tally
import Xv6.Lib.Halting

/-!
# Two-level page directories

A directory is its own frame and, for each present directory entry, the page
table it points to. Every present directory entry carries the same permissive
flags, so only the table is kept. `leaf` reads a directory as one flat map from
addresses to entries; the functions of `vm.c` are stated on the two levels and
their effect on the flat map is derived.
-/

set_option autoImplicit false

namespace Xv6.Paging
open Xv6.Mmu Xv6.Kalloc

structure PageTable where
  frame : ℕ
  pte : ℕ → Pte

structure PageDir where
  frame : ℕ
  pde : ℕ → Option PageTable

def PageDir.walk (d : PageDir) (va : ℕ) : Option Pte :=
  (d.pde (PDX va)).map (fun t => t.pte (PTX va))

def PageDir.leaf (d : PageDir) (va : ℕ) : Pte := (d.walk va).getD 0#32

/-- A store through the pointer that `walkpgdir` returned for `va`. -/
def PageDir.setPte (d : PageDir) (va : ℕ) (p : Pte) : PageDir :=
  { d with pde := fun i => if i = PDX va then
      (d.pde i).map (fun t => { t with pte := Function.update t.pte (PTX va) p }) else d.pde i }

def PageDir.addTable (d : PageDir) (i f : ℕ) : PageDir :=
  { d with pde := Function.update d.pde i (some ⟨f, fun _ => 0#32⟩) }

/-- `walkpgdir(pgdir, va, alloc)`: the entry read through the returned pointer,
`none` for a null pointer. -/
def walkpgdir (ph : Phys) (d : PageDir) (va : ℕ) (alloc : Bool) : Phys × PageDir × Option Pte :=
  match d.walk va with
  | some p => (ph, d, some p)
  | none =>
    if alloc then
      match kalloc ph with
      | (ph', none) => (ph', d, none)
      | (ph', some f) => (ph', d.addTable (PDX va) f, some 0#32)
    else (ph, d, none)

/-- The loop of `mappages` from `a`, with `n` pages left up to `last`. -/
def mapLoop : ℕ → Phys → PageDir → ℕ → Pte → Pte → Except Halt (Phys × PageDir × Bool)
  | 0, ph, d, _, _, _ => .ok (ph, d, true)
  | n+1, ph, d, a, pa, perm =>
    match walkpgdir ph d a true with
    | (ph', d', none) => .ok (ph', d', false)
    | (ph', d', some p) =>
      if has p PTE_P then .error (.panic "remap")
      else mapLoop n ph' (d'.setPte a (pa ||| perm ||| PTE_P)) ((a+PGSIZE)%2^32)
        (pa+BitVec.ofNat 32 PGSIZE) perm

/-- `mappages`: `true` for the return value 0, `false` for -1. -/
def mappages (ph : Phys) (d : PageDir) (va size : ℕ) (pa perm : Pte) :
    Except Halt (Phys × PageDir × Bool) :=
  let a := PGROUNDDOWN (va%2^32)
  let last := PGROUNDDOWN ((va+size+2^32-1)%2^32)
  mapLoop (((last+2^32-a)%2^32)/PGSIZE+1) ph d a pa perm

/-- The frames a directory occupies: the directory page and its page tables. -/
def PageDir.frames (d : PageDir) : List ℕ :=
  d.frame::(List.range NPDENTRIES).filterMap (fun i => (d.pde i).map PageTable.frame)

theorem PDX_lt (va : ℕ) : PDX va < NPDENTRIES := Nat.mod_lt _ (by decide)

theorem same_page {va va' : ℕ} (h : va < 2^32) (h' : va' < 2^32)
    (hd : PDX va = PDX va') (ht : PTX va = PTX va') : va/PGSIZE = va'/PGSIZE := by
  unfold PDX PTX PGSIZE at *
  omega

theorem PDX_page (va : ℕ) : PDX (va/PGSIZE*PGSIZE) = PDX va := by
  unfold PDX PGSIZE
  omega

theorem PTX_page (va : ℕ) : PTX (va/PGSIZE*PGSIZE) = PTX va := by
  unfold PTX PGSIZE
  omega

theorem walk_page (d : PageDir) (va : ℕ) : d.walk (va/PGSIZE*PGSIZE) = d.walk va := by
  rw [PageDir.walk, PDX_page, PTX_page, PageDir.walk]

theorem leaf_of_walk {d : PageDir} {va : ℕ} {p : Pte} (h : d.walk va = some p) :
    d.leaf va = p := by
  rw [PageDir.leaf, h]
  rfl

theorem leaf_of_walk_none {d : PageDir} {va : ℕ} (h : d.walk va = none) :
    d.leaf va = 0#32 := by
  rw [PageDir.leaf, h]
  rfl

theorem setPte_walk (d : PageDir) (va va' : ℕ) (p : Pte) (h : va < 2^32) (h' : va' < 2^32) :
    (d.setPte va p).walk va' =
      if va'/PGSIZE = va/PGSIZE then (d.walk va').map (fun _ => p) else d.walk va' := by
  by_cases hd : PDX va' = PDX va
  · by_cases ht : PTX va' = PTX va
    · rw [if_pos (same_page h' h hd ht)]
      simp [PageDir.walk, PageDir.setPte, hd, ht, Option.map_map, Function.comp_def]
    · have hne : va'/PGSIZE ≠ va/PGSIZE := by
        intro he
        apply ht
        rw [← PTX_page va', he, PTX_page]
      rw [if_neg hne]
      simp [PageDir.walk, PageDir.setPte, hd, Option.map_map, Function.comp_def,
        Function.update_of_ne ht]
  · have hne : va'/PGSIZE ≠ va/PGSIZE := by
      intro he
      apply hd
      rw [← PDX_page va', he, PDX_page]
    rw [if_neg hne]
    simp [PageDir.walk, PageDir.setPte, hd]

theorem setPte_leaf (d : PageDir) (va va' : ℕ) (p q : Pte) (h : va < 2^32) (h' : va' < 2^32)
    (hw : d.walk va = some q) :
    (d.setPte va p).leaf va' = if va'/PGSIZE = va/PGSIZE then p else d.leaf va' := by
  rw [PageDir.leaf, setPte_walk d va va' p h h']
  split
  · next he =>
    have : d.walk va' = some q := by rw [← walk_page, he, walk_page, hw]
    rw [this]
    rfl
  · rfl

theorem setPte_setPte (d : PageDir) (va : ℕ) (p q : Pte) :
    (d.setPte va p).setPte va q = d.setPte va q := by
  rw [PageDir.setPte, PageDir.setPte, PageDir.setPte, PageDir.mk.injEq]
  refine ⟨rfl,?_⟩
  funext i
  dsimp only
  split
  · simp [Option.map_map, Function.comp_def]
  · rfl

theorem setPte_frames (d : PageDir) (va : ℕ) (p : Pte) : (d.setPte va p).frames = d.frames := by
  refine congrArg (List.cons d.frame) (Tally.filterMap_congr_on ?_)
  intro i _
  dsimp only [PageDir.setPte]
  split
  · simp [Option.map_map, Function.comp_def]
  · rfl

theorem addTable_leaf (d : PageDir) (va va' f : ℕ) (hw : d.walk va = none) :
    (d.addTable (PDX va) f).leaf va' = d.leaf va' := by
  have hn : d.pde (PDX va) = none := by simpa [PageDir.walk] using hw
  by_cases hd : PDX va' = PDX va
  · simp [PageDir.leaf, PageDir.walk, PageDir.addTable, hd, hn]
  · simp [PageDir.leaf, PageDir.walk, PageDir.addTable, Function.update_of_ne hd]

theorem addTable_walk (d : PageDir) (va f : ℕ) :
    (d.addTable (PDX va) f).walk va = some 0#32 := by
  simp [PageDir.walk, PageDir.addTable]

theorem addTable_frames (d : PageDir) (va f : ℕ) (hw : d.walk va = none) :
    (d.addTable (PDX va) f).frames.Perm (f::d.frames) := by
  have hn : d.pde (PDX va) = none := by simpa [PageDir.walk] using hw
  have hp := Tally.filterMap_fill (l := List.range NPDENTRIES) List.nodup_range
    (g := fun i => (d.pde i).map PageTable.frame)
    (h := fun i => ((d.addTable (PDX va) f).pde i).map PageTable.frame)
    (i := PDX va) (x := f) (by simpa using PDX_lt va) (by simp [hn])
    (by simp [PageDir.addTable])
    (by intro j _ hj; simp [PageDir.addTable, Function.update_of_ne hj])
  exact (hp.cons _).trans (List.Perm.swap f _ _)

end Xv6.Paging
