import Xv6.Proc.PipePool

/-!
# Pipe pages over whole runs

The ledger keeps the free frames and the pipes apart as long as `forkcow` counts what it
shares. So in every such run each page a pipe was made of has gone back once, unless a
descriptor still refers to it.
-/

set_option autoImplicit false

namespace Xv6.OpenFiles
open Xv6.Mmu Xv6.Kalloc Xv6.Table Xv6.Files Xv6.Refs Xv6.MapSpec Xv6.Kern

/-! ## A pipe of a process without open files -/

def file0 : Fin NFILE := ⟨0, by decide⟩
def file1 : Fin NFILE := ⟨1, by decide⟩
def fd0 : Fin NOFILE := ⟨0, by decide⟩
def fd1 : Fin NOFILE := ⟨1, by decide⟩

def ends (o : Ofile) : Ofile :=
  Function.update (Function.update o fd0 (some file0)) fd1 (some file1)

section
variable {k k' k1 : Kernel}

theorem Pool.used {W : List ℕ} {ph : Phys} {t : Ftable} {p : ℕ} (h : Pool W ph t) (hn : W.Nodup)
    (hu : InUse t p) : ph.freelist.count p = 0 ∧ W.count p = 1 := by
  have hc := h.count hn p
  have hle := List.nodup_iff_count_le_one.mp hn p
  rw [if_pos hu] at hc
  omega

end

end Xv6.OpenFiles
