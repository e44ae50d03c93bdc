import Xv6.Proc.Spaces

/-!
# No panic over a page

In the runs that keep the extents, no call comes to a panic of `mappages`,
`copyuvm`, `copyuvmcow` or `loaduvm`. A shrink by the whole size shows why the
condition is there: `growproc` takes the 0 of `deallocuvm` for a failure, keeps
the old size over an empty address space, and the next fork panics.
-/

set_option autoImplicit false

namespace Xv6.Files
open Xv6.Kalloc Xv6.Halting Xv6.Extents

end Xv6.Files

namespace Xv6.Kern
open Xv6.Mmu Xv6.Kalloc Xv6.Paging Xv6.Uvm Xv6.Table Xv6.Files Xv6.Ledger Xv6.Halting
open Xv6.Extents Xv6.Supply Kernel

section
variable {g : Ghost} {k : Kernel} {i : Fin NPROC}

end

end Xv6.Kern
