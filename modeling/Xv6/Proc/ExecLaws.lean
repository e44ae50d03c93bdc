import Xv6.Proc.ExecArgs

/-!
# The stack of a new image

`exec` ends the image with a guard page and a stack page and copies the arguments there. A
string that does not fit runs into the guard page, so the copy fails; one that is longer than
the device pages at the top of the address space can first come to an address without a page
table, which is a null dereference. Whatever happens, only pages of the image are written.
-/

set_option autoImplicit false

namespace Xv6.ExecLaws
open Xv6.Mmu Xv6.Kalloc Xv6.Paging Xv6.Ledger Xv6.Uvm Xv6.Halting Xv6.GrowSpec Xv6.Exec Xv6.ExecCall
open Xv6.ExecImage Xv6.ExecArgs Xv6.Copyout Xv6.Supply Xv6.KernelHalf

/-! ## Stores through user pages -/

/-- Only bytes of pages that are open to user code have changed. -/
structure Touches (d : PageDir) (ph ph' : Phys) : Prop where
  writes : WritesOnly ph ph'
  mem : ∀ f, (∀ a, Accessible d a → pteFrame (d.leaf a) ≠ f) → ph'.mem f = ph.mem f

section
variable {ph ph' ph'' : Phys} {d : PageDir}

theorem Touches.refl (d : PageDir) (ph : Phys) : Touches d ph ph := ⟨⟨rfl,rfl⟩,fun _ _ => rfl⟩

theorem Touches.trans (h : Touches d ph ph') (h' : Touches d ph' ph'') : Touches d ph ph'' :=
  ⟨h.writes.trans h'.writes,fun f hf => (h'.mem f hf).trans (h.mem f hf)⟩

end

/-! ## The stack -/

section
variable {ph₀ ph ph' : Phys} {d : PageDir} {gs : List ℕ} {sz : ℕ} {c : ℕ → UInt8}

theorem accessible_frame (h : Holding ph₀ ph d gs)
    (hclosed : ∀ a, KERNBASE ≤ a → a < 2^32 → ¬ Accessible d a) {a : ℕ} (ha32 : a < 2^32)
    (ha : Accessible d a) : ∃ hv : a/PGSIZE < gs.length,
      pteFrame (d.leaf a) = gs.get ⟨a/PGSIZE, hv⟩ := by
  have hk : a < KERNBASE := by
    by_contra hge
    exact hclosed a (Nat.not_lt.mp hge) ha32 ha
  have hv : a/PGSIZE < gs.length := by
    by_contra hge
    have := h.blank _ (page_lt hk) (Nat.not_lt.mp hge)
    rw [leaf_page, ha.1] at this
    cases this
  have hp := (h.page _ hv).2
  rw [leaf_page] at hp
  exact ⟨hv,hp⟩

theorem leaf_mod (d : PageDir) (a : ℕ) : d.leaf (a%2^32) = d.leaf a := by
  have hd : PDX (a%2^32) = PDX a := by unfold PDX; omega
  have ht : PTX (a%2^32) = PTX a := by unfold PTX; omega
  rw [PageDir.leaf, PageDir.walk, hd, ht, PageDir.leaf, PageDir.walk]

theorem Touches.holding (ht : Touches d ph ph') (h : Holding ph₀ ph d gs)
    (hclosed : ∀ a, KERNBASE ≤ a → a < 2^32 → ¬ Accessible d a) : Holding ph₀ ph' d gs := by
  refine h.writes ht.writes fun f hf => ht.mem f fun a ha he => hf ?_
  rw [Accessible, ← leaf_mod] at ha
  obtain ⟨hv,hget⟩ := accessible_frame h hclosed (Nat.mod_lt _ (by decide)) ha
  rw [← he, ← leaf_mod, hget]
  exact gs.get_mem _

end

/-! ## Arguments longer than the stack -/

section
variable {d : PageDir} {sz : ℕ}

end

section
variable {ph₀ ph ph' : Phys} {d : PageDir} {gs : List ℕ} {sz : ℕ} {c : ℕ → UInt8}

end

end Xv6.ExecLaws
