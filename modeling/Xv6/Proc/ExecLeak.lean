import Xv6.Proc.ExecSpec
import Xv6.Proc.PipeReuse

/-!
# A failed `exec` that loses a page

When a page has been freed while the child of a plain `fork` still maps it, a shrinking
`sbrk` of the child counts it down once more, to -1 on the free list. The next `exec` that
takes the page and then fails counts it up to zero and down again, and as the count is not
zero then, the page is not put back.
-/

set_option autoImplicit false

namespace Xv6.ExecLeak
open Xv6.Mmu Xv6.Kalloc Xv6.Paging Xv6.Uvm Xv6.Table Xv6.Halting Xv6.MapSpec Xv6.GrowSpec
open Xv6.Kern Xv6.OpenFiles Xv6.Dealloc Xv6.AllocSpec Xv6.Release Xv6.Exec
open Xv6.ExecCall Xv6.ExecSpec Xv6.View Kernel

/-! ## The page on the free list -/

section
variable {ph : Phys} {d : PageDir}

end

end Xv6.ExecLeak
