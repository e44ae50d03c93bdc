import Xv6.Proc.Progress

/-!
# Page faults from user mode

`pagefault` panics on a write-protected user page whose counter is not positive.
Such pages appear when plain `fork` copies a page that an earlier `forkcow`
write protected: the copy keeps the flags and gets no count. Where the forks
avoid this, every write-protected page is counted and no fault panics.
-/

set_option autoImplicit false

namespace Xv6.Kern
open Xv6.Mmu Xv6.Kalloc Xv6.Paging Xv6.Uvm Xv6.Table Xv6.Ledger
open Xv6.MapSpec Xv6.Supply Kernel

/-- What the forks of a run have to respect: `forkcow` is called with counted
pages only, and plain `fork` with writable ones wherever `w` holds of the
entry's `PTE_U`. -/
def Unmixed (w : Bool → Prop) (k : Kernel) (i : Fin NPROC) (op : Op) : Prop :=
  (op = .forkcow → ∀ p, Visits k i p → k.phys.pgRefcount (pteFrame p) ≠ 0) ∧
    (op = .fork → ∀ p, Visits k i p → w (has p PTE_U) → has p PTE_W = true)

end Xv6.Kern
