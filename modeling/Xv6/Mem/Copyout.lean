import Xv6.Mem.KernelHalf

/-!
# Copying into another address space

`copyout` goes through the range page by page, at addresses modulo 2^32. It stores exactly
the bytes in front of the first page that user code may not access. That page must have a
page table: `uva2ka` reads the entry without testing the pointer it gets from `walkpgdir`.
-/

set_option autoImplicit false

namespace Xv6.Copyout
open Xv6.Mmu Xv6.Kalloc Xv6.Paging Xv6.Ledger Xv6.Uvm Xv6.Halting Xv6.Supply

/-- User code may access the page of the address. -/
def Accessible (d : PageDir) (va : ℕ) : Prop :=
  has (d.leaf va) PTE_P = true ∧ has (d.leaf va) PTE_U = true

instance (d : PageDir) (va : ℕ) : Decidable (Accessible d va) := inferInstanceAs (Decidable (_ ∧ _))

def loc (d : PageDir) (a : ℕ) : ℕ × ℕ := (pteFrame (d.leaf (a%2^32)), a%PGSIZE)

/-- No frame is mapped for user code at two pages of the directory. -/
def Unaliased (d : PageDir) : Prop := ∀ a b, a < 2^32 → b < 2^32 → Accessible d a →
  Accessible d b → pteFrame (d.leaf a) = pteFrame (d.leaf b) → a/PGSIZE = b/PGSIZE

/-- The bytes of `buf` are at the addresses from `va` on, and no other byte has changed. -/
structure Stored (d : PageDir) (va : ℕ) (buf : List UInt8) (ph ph' : Phys) : Prop where
  bytes : ∀ i (hi : i < buf.length),
    ph'.mem (loc d (va+i)).1 (loc d (va+i)).2 = buf.get ⟨i, hi⟩
  others : ∀ f o, (∀ i < buf.length, loc d (va+i) ≠ (f, o)) → ph'.mem f o = ph.mem f o
  free : ph'.freelist = ph.freelist
  count : ph'.pgRefcount = ph.pgRefcount

section
variable {d : PageDir} {va : ℕ} {buf buf' : List UInt8} {ph ph' ph'' : Phys}

theorem loc_mod (d : PageDir) (a : ℕ) : loc d (a%2^32) = loc d a := by
  rw [loc, loc, Nat.mod_mod, Nat.mod_mod_of_dvd a (by decide)]

theorem Stored.nil (d : PageDir) (va : ℕ) (ph : Phys) : Stored d va [] ph ph :=
  ⟨fun i hi => absurd hi (Nat.not_lt_zero i),fun _ _ _ => rfl,rfl,rfl⟩

theorem Stored.shift (h : Stored d (va%2^32) buf ph ph') : Stored d va buf ph ph' := by
  have hloc : ∀ i, loc d (va%2^32+i) = loc d (va+i) := by
    intro i
    rw [← loc_mod d (va%2^32+i), Nat.mod_add_mod, loc_mod]
  refine ⟨fun i hi => ?_,fun f o hno => h.others f o fun i hi => ?_,h.free,h.count⟩
  · rw [← hloc]
    exact h.bytes i hi
  · rw [hloc]
    exact hno i hi

theorem Stored.append (h : Stored d va buf ph ph') (h' : Stored d (va+buf.length) buf' ph' ph'')
    (hne : ∀ i < buf.length, ∀ j < buf'.length, loc d (va+i) ≠ loc d (va+(buf.length+j))) :
    Stored d va (buf++buf') ph ph'' := by
  refine ⟨fun i hi => ?_,fun f o hno => ?_,h'.free.trans h.free,h'.count.trans h.count⟩
  · rw [List.get_eq_getElem]
    by_cases hlt : i < buf.length
    · rw [List.getElem_append_left hlt, ← List.get_eq_getElem (i := ⟨i, hlt⟩), ← h.bytes i hlt]
      refine h'.others _ _ fun j hj => ?_
      rw [Nat.add_assoc]
      exact (hne i hlt j hj).symm
    · have hj : i-buf.length < buf'.length := by
        rw [List.length_append] at hi
        omega
      have hb := h'.bytes _ hj
      rw [Nat.add_assoc, Nat.add_sub_of_le (Nat.not_lt.mp hlt)] at hb
      rw [List.getElem_append_right (Nat.not_lt.mp hlt), hb]
      rfl
  · rw [h'.others f o fun j hj => ?_, h.others f o fun i hi => hno i ?_]
    · rw [List.length_append]
      omega
    · rw [Nat.add_assoc]
      exact hno _ (by rw [List.length_append]; omega)

theorem Stored.empty (h : Stored d va [] ph ph') (a : ℕ) : Stored d a [] ph ph' :=
  ⟨fun i hi => absurd hi (Nat.not_lt_zero i),
    fun f o _ => h.others f o fun i hi => absurd hi (Nat.not_lt_zero i),h.free,h.count⟩

end

/-! ## The loop -/

section
variable {d : PageDir} {va : ℕ}

theorem uva2ka_accessible (h : Accessible d va) : uva2ka d va = .ok (some (pteFrame (d.leaf va))) := by
  rw [uva2ka, walk_of_present h.1]
  dsimp only
  rw [h.1, h.2]
  rfl

theorem accessible_page (d : PageDir) (va : ℕ) : Accessible d (va/PGSIZE*PGSIZE) ↔ Accessible d va := by
  rw [Accessible, Accessible, leaf_page]

end

end Xv6.Copyout
