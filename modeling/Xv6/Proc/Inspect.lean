import Xv6.Proc.NoPanic

/-!
# The calls that look at the address space

`sys_num_pages` and `sys_virt2real`. The first divides the size by the size of a page and
so counts the mapped pages exactly when the size is a multiple of it. The second returns its
own argument, through a pointer that `argptr` has set, and stores there the byte it finds at
address 0; it is right only for a page that is mapped to itself.
-/

set_option autoImplicit false

namespace Xv6.Kern
open Xv6.Mmu Xv6.Kalloc Xv6.Paging Xv6.Uvm Xv6.Table Xv6.Extents Kernel

namespace Kernel

def userMem (k : Kernel) (i : Fin NPROC) (va : ℕ) : UInt8 :=
  k.phys.mem (pteFrame (k.entry i va)) (va%PGSIZE)

/-- `sys_virt2real` with its argument. The global `addreal` keeps the pointer of an earlier
call when `argptr` fails, and `addvirt` is never set. -/
def sysvirt2real (k : Kernel) (cur : Fin NPROC) (addreal arg : BitVec 32) :
    Except Halt (Kernel × BitVec 32) := do
  let sz := (k.table.slot cur).sz
  let addreal := if sz ≤ arg.toNat ∨ sz < (arg+4).toNat then addreal else arg
  let d ← k.dir cur
  let b := k.userMem cur 0-UInt8.ofNat (KERNBASE+d.frame*PGSIZE)
  let (k, _) ← k.kfault cur addreal.toNat
  .ok (k.poke cur addreal.toNat b, addreal)

end Kernel

/-! ### The number of pages -/

section
variable {k : Kernel} {cur : Fin NPROC} {addreal arg : BitVec 32}

end

end Xv6.Kern
