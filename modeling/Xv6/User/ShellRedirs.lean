import Xv6.Proc.Files
import Xv6.User.ShellAccept

/-!
# Running the redirections

The case of `runcmd` for a redirection: the descriptor is closed and the file opened, which
gets the lowest descriptor that is free. The parser wraps each redirection around what
precedes it and `runcmd` begins outside, so the first redirection of the text is the last
that is run, and of several for one descriptor it is the one that stays.
-/

set_option autoImplicit false

namespace Xv6.Shell
open Xv6.Files

variable {F : Type}

/-- The descriptors of the process, each with the file it refers to. -/
abbrev Fds (F : Type) := Fin NOFILE → Option F

def fdalloc (o : Fds F) (f : F) : Option (Fds F × Fin NOFILE) :=
  ((List.finRange NOFILE).find? (fun fd => o fd = none)).map
    (fun fd => (Function.update o fd (some f), fd))

theorem fdalloc_kernel (o : Ofile) (f : Fin NFILE) : fdalloc o f = Files.fdalloc o f := rfl

def closeFd (o : Fds F) (fd : ℕ) : Fds F :=
  if h : fd < NOFILE then Function.update o ⟨fd,h⟩ none else o

section
variable (opens : Word → ℕ → Option F)

end

theorem nofile_pos : 0 < NOFILE := by decide

theorem one_lt_nofile : 1 < NOFILE := by decide

def Redir.fd (r : Redir) : Fin NOFILE :=
  match r.kind with
  | .input => ⟨0,nofile_pos⟩
  | .output => ⟨1,one_lt_nofile⟩
  | .append => ⟨1,one_lt_nofile⟩

def Redir.mode (r : Redir) : ℕ :=
  match r.kind with
  | .input => O_RDONLY
  | .output => O_WRONLY+O_CREATE
  | .append => O_WRONLY+O_CREATE

theorem closeFd_fin (o : Fds F) (fd : Fin NOFILE) : closeFd o fd.val = Function.update o fd none :=
  dif_pos fd.isLt

theorem fdalloc_closed {o : Fds F} {fd : Fin NOFILE} (h : ∀ d < fd, o d ≠ none) (f : F) :
    fdalloc (Function.update o fd none) f = some (Function.update o fd (some f), fd) := by
  have hfind : (List.finRange NOFILE).find? (fun d => Function.update o fd none d = none) = some fd := by
    rw [List.find?_eq_some_iff_getElem]
    refine ⟨by simp,fd.val,by simp [fd.isLt],by simp,fun j hj => ?_⟩
    have hlt : j < NOFILE := hj.trans fd.isLt
    have hd : (⟨j,hlt⟩ : Fin NOFILE) < fd := hj
    simp [Function.update_of_ne hd.ne, h _ hd]
  rw [fdalloc, hfind, Option.map_some, Function.update_idem]

variable {opens : Word → ℕ → Option F} {o : Fds F} {rs : List Redir}

/-- The descriptors of a shell that has only the first three open. -/
def console : Fds Word := fun fd => if fd.val < 3 then some ⟨0,0⟩ else none

end Xv6.Shell
