import Xv6.Proc.Table
import Xv6.Proc.Files
import Xv6.Proc.Exec

/-!
# The kernel as a state machine

Boot, the system calls of `proc.c` and `exec.c` that change memory or the
process table, and user-mode loads and stores through the page tables. One step
is one system call or one memory access of one process, executed atomically; a
store that the hardware refuses calls `pagefault` and is retried. `Reach` is
every state a run from boot can be in, with a condition on its steps.
-/

set_option autoImplicit false

namespace Xv6.Kern
open Xv6.Mmu Xv6.Kalloc Xv6.Paging Xv6.Uvm Xv6.Table Xv6.Files

def NCPU : ℕ := 8

structure Kernel where
  phys : Phys
  table : Ptable
  pgdir : Fin NPROC → Option PageDir
  kstack : Fin NPROC → Option ℕ
  ofile : Fin NPROC → Ofile
  files : Ftable
  kpgdir : PageDir
  cpuStacks : List ℕ

namespace Kernel

/-- A null `pgdir` is dereferenced by whoever uses it. -/
def dir (k : Kernel) (i : Fin NPROC) : Except Halt PageDir :=
  match k.pgdir i with
  | none => .error .nullDeref
  | some d => .ok d

def setDir (k : Kernel) (i : Fin NPROC) (ph : Phys) (d : PageDir) : Kernel :=
  { k with phys := ph, pgdir := Function.update k.pgdir i (some d) }

def allocproc (k : Kernel) : Kernel × Option (Fin NPROC) :=
  match k.table.findUnused with
  | none => (k, none)
  | some p =>
    match kalloc k.phys with
    | (ph, none) =>
      ({ k with phys := ph, table := (k.table.claim p).setState p .unused,
                kstack := Function.update k.kstack p none }, none)
    | (ph, some f) =>
      ({ k with phys := ph, table := k.table.claim p,
                kstack := Function.update k.kstack p (some f) }, some p)

/-- `kfree(p->kstack); p->kstack = 0`. -/
def freeStack (k : Kernel) (p : Fin NPROC) : Except Halt Kernel :=
  match k.kstack p with
  | none => .error (.panic "kfree")
  | some f => do
    let ph ← kfree k.phys f
    .ok { k with phys := ph, kstack := Function.update k.kstack p none }

/-- `fork` and `forkcow` have the same text except for the function that copies
the address space; that function may also change the parent's directory. -/
def forkWith (copy : Phys → PageDir → ℕ → Except Halt (Phys × PageDir × Option PageDir))
    (k : Kernel) (cur : Fin NPROC) : Except Halt (Kernel × ℤ) :=
  match k.allocproc with
  | (k, none) => .ok (k, -1)
  | (k, some np) => do
    let d ← k.dir cur
    let (ph, d, child) ← copy k.phys d (k.table.slot cur).sz
    let k := k.setDir cur ph d
    match child with
    | none => do
      let k ← k.freeStack np
      .ok ({ k with table := k.table.setState np .unused,
                    pgdir := Function.update k.pgdir np none }, -1)
    | some c => do
      let (files, o) ← dupAll (k.ofile cur) (List.finRange NOFILE) k.files (k.ofile np)
      .ok ({ k with table := k.table.launch np cur,
                    pgdir := Function.update k.pgdir np (some c),
                    files := files, ofile := Function.update k.ofile np o },
        (k.table.slot np).pid)

def eagerCopy (ph : Phys) (d : PageDir) (sz : ℕ) :
    Except Halt (Phys × PageDir × Option PageDir) := do
  let (ph, c) ← copyuvm ph d sz
  .ok (ph, d, c)

def fork (k : Kernel) (cur : Fin NPROC) : Except Halt (Kernel × ℤ) := forkWith eagerCopy k cur

def forkcow (k : Kernel) (cur : Fin NPROC) : Except Halt (Kernel × ℤ) := forkWith copyuvmcow k cur

/-- `exec` on the bytes that `namei` found, `none` when it found nothing. -/
def exec (k : Kernel) (cur : Fin NPROC) (file : Option (List UInt8)) (argv : List (List UInt8)) :
    Except Halt (Kernel × ℤ) :=
  match file with
  | none => .ok (k, -1)
  | some bytes => do
    let (ph, r) ← Exec.image k.phys bytes argv
    match r with
    | none => .ok ({ k with phys := ph }, -1)
    | some (d, sz) => do
      let old ← k.dir cur
      let ph ← freevm ph old
      .ok ({ k.setDir cur ph d with table := k.table.setSz cur sz }, 0)

/-- The address arithmetic of `growproc` is unsigned. -/
def newSize (sz : ℕ) (n : ℤ) : ℕ := (((sz : ℤ)+n)%2^32).toNat

def resize (ph : Phys) (d : PageDir) (sz : ℕ) (n : ℤ) : Except Halt (Phys × PageDir × ℕ) :=
  if 0 < n then allocuvm ph d sz (newSize sz n) else deallocuvm ph d sz (newSize sz n)

/-- `sys_sbrk` with `growproc`. -/
def sbrk (k : Kernel) (cur : Fin NPROC) (n : ℤ) : Except Halt (Kernel × ℤ) :=
  let sz := (k.table.slot cur).sz
  if n = 0 then .ok (k, sz)
  else do
    let d ← k.dir cur
    let (ph, d, r) ← resize k.phys d sz n
    let k := k.setDir cur ph d
    if r = 0 then .ok (k, -1) else .ok ({ k with table := k.table.setSz cur r }, sz)

def exit (k : Kernel) (cur : Fin NPROC) : Except Halt Kernel :=
  if cur = k.table.initproc then .error (.panic "init exiting")
  else do
    let (ph, files, o) ← closeAll (List.finRange NOFILE) k.phys k.files (k.ofile cur)
    .ok { k with phys := ph, files := files, ofile := Function.update k.ofile cur o,
                 table := k.table.exit cur }

/-- What a step gives back to the process: a system call's value, a loaded byte,
nothing, or no return at all. -/
inductive Ret where
  | val (z : ℤ)
  | byte (b : UInt8)
  | stored
  | gone
  | asleep
  deriving DecidableEq, Repr

/-- One pass of the loop of `wait`. -/
def wait (k : Kernel) (cur : Fin NPROC) : Except Halt (Kernel × Ret) :=
  let k := { k with table := k.table.wake cur }
  match k.table.findZombie cur with
  | some p => do
    let k ← k.freeStack p
    match k.pgdir p with
    | none => .error (.panic "freevm: no pgdir")
    | some d => do
      let ph ← freevm k.phys d
      .ok ({ k with phys := ph, table := k.table.reap p }, .val (k.table.slot p).pid)
  | none =>
    if !k.table.haveKids cur || (k.table.slot cur).killed then .ok (k, .val (-1))
    else .ok ({ k with table := k.table.sleep cur }, .asleep)

def syspipe (k : Kernel) (cur : Fin NPROC) : Except Halt (Kernel × ℤ) := do
  let (ph, files, o, r) ← Files.syspipe k.phys k.files (k.ofile cur)
  .ok ({ k with phys := ph, files := files, ofile := Function.update k.ofile cur o },
    if r.isSome then 0 else -1)

def sysclose (k : Kernel) (cur : Fin NPROC) (fd : Fin NOFILE) : Except Halt (Kernel × ℤ) := do
  let (ph, files, o, r) ← Files.sysclose k.phys k.files (k.ofile cur) fd
  .ok ({ k with phys := ph, files := files, ofile := Function.update k.ofile cur o }, r)

def sysdup (k : Kernel) (cur : Fin NPROC) (fd : Fin NOFILE) : Except Halt (Kernel × ℤ) := do
  let (files, o, r) ← Files.sysdup k.files (k.ofile cur) fd
  .ok ({ k with files := files, ofile := Function.update k.ofile cur o }, r)

def kill (k : Kernel) (pid : ℤ) : Kernel × ℤ :=
  match k.table.killPid pid with
  | none => (k, -1)
  | some t => ({ k with table := t }, 0)

def entry (k : Kernel) (i : Fin NPROC) (va : ℕ) : Pte :=
  match k.pgdir i with
  | none => 0#32
  | some d => d.leaf va

def readable (p : Pte) : Bool := has p PTE_P && has p PTE_U

def writable (p : Pte) : Bool := readable p && has p PTE_W

/-- The byte a process reads at an address, `none` where a load faults. -/
def peek (k : Kernel) (i : Fin NPROC) (va : ℕ) : Option UInt8 :=
  if readable (k.entry i va) then some (k.phys.mem (pteFrame (k.entry i va)) (va%PGSIZE)) else none

def poke (k : Kernel) (i : Fin NPROC) (va : ℕ) (b : UInt8) : Kernel :=
  { k with phys := k.phys.write (pteFrame (k.entry i va)) (va%PGSIZE) [b] }

/-- The page-fault trap from user mode: `pagefault`, then `exit` if it killed
the process. The flag says whether the access is retried. -/
def fault (k : Kernel) (cur : Fin NPROC) (va : ℕ) : Except Halt (Kernel × Bool) := do
  let d ← k.dir cur
  let (ph, d, killed) ← pagefault k.phys d va
  let k := k.setDir cur ph d
  if killed then do
    let k ← exit { k with table := k.table.kill cur } cur
    .ok (k, false)
  else .ok (k, true)

/-- A load; one that faults never gets a second chance, since `pagefault` only
makes readable pages writable. -/
def load (k : Kernel) (cur : Fin NPROC) (va : ℕ) : Except Halt (Kernel × Ret) :=
  match k.peek cur va with
  | some b => .ok (k, .byte b)
  | none => do
    let (k, _) ← k.fault cur va
    .ok (k, .gone)

/-- A store; after a fault that does not kill, the entry is writable and the
retried store goes through. -/
def store (k : Kernel) (cur : Fin NPROC) (va : ℕ) (b : UInt8) : Except Halt (Kernel × Ret) :=
  if writable (k.entry cur va) then .ok (k.poke cur va b, .stored)
  else do
    let (k, again) ← k.fault cur va
    if again then .ok (k.poke cur va b, .stored) else .ok (k, .gone)

/-- A write fault that the kernel takes on a user address inside a system call:
`pagefault` may mark the process, and the kernel code goes on. -/
def kfault (k : Kernel) (cur : Fin NPROC) (va : ℕ) : Except Halt (Kernel × Ret) :=
  if has (k.entry cur va) PTE_P && has (k.entry cur va) PTE_W then .ok (k, .stored)
  else do
    let d ← k.dir cur
    let (ph, d, killed) ← pagefault k.phys d va
    let k := k.setDir cur ph d
    .ok (if killed then { k with table := k.table.kill cur } else k, .stored)

end Kernel

open Kernel

inductive Op where
  | fork
  | forkcow
  | exec (file : Option (List UInt8)) (argv : List (List UInt8))
  | sbrk (n : BitVec 32)
  | exit
  | wait
  | kill (pid : ℤ)
  | pipe
  | close (fd : Fin NOFILE)
  | dup (fd : Fin NOFILE)
  | load (va : BitVec 32)
  | store (va : BitVec 32) (b : UInt8)
  | kfault (va : BitVec 32)

/-- The return to user mode: a killed process exits instead. -/
def back (cur : Fin NPROC) (x : Kernel × ℤ) : Except Halt (Kernel × Ret) :=
  if (x.1.table.slot cur).killed then do
    let k ← x.1.exit cur
    .ok (k, .gone)
  else .ok (x.1, .val x.2)

def syscall (k : Kernel) (cur : Fin NPROC) : Op → Except Halt (Kernel × Ret)
  | .fork => do
    let x ← k.fork cur
    back cur x
  | .forkcow => do
    let x ← k.forkcow cur
    back cur x
  | .exec file argv => do
    let x ← k.exec cur file argv
    back cur x
  | .sbrk n => do
    let x ← k.sbrk cur n.toInt
    back cur x
  | .exit => do
    let k ← k.exit cur
    .ok (k, .gone)
  | .wait => do
    let (k, r) ← k.wait cur
    match r with
    | .val z => back cur (k, z)
    | r => .ok (k, r)
  | .kill pid => back cur (k.kill pid)
  | .pipe => do
    let x ← k.syspipe cur
    back cur x
  | .close fd => do
    let x ← k.sysclose cur fd
    back cur x
  | .dup fd => do
    let x ← k.sysdup cur fd
    back cur x
  | .load va => k.load cur va.toNat
  | .store va b => k.store cur va.toNat b
  | .kfault va => k.kfault cur va.toNat

/-- A system call of a killed process exits at once; a process inside `sleep` is
past that test. -/
def step (k : Kernel) (cur : Fin NPROC) (op : Op) : Except Halt (Kernel × Ret) :=
  match op with
  | .load va => k.load cur va.toNat
  | .store va b => k.store cur va.toNat b
  | .kfault va => k.kfault cur va.toNat
  | op =>
    if (k.table.slot cur).killed ∧ (k.table.slot cur).chan = none then do
      let k ← k.exit cur
      .ok (k, .gone)
    else syscall k cur op

/-- A process that was woken inside `wait` can only go on with `wait`. -/
def CanStep (k : Kernel) (i : Fin NPROC) (op : Op) : Prop :=
  ((k.table.slot i).state = .runnable ∨ (k.table.slot i).state = .running) ∧
    ((k.table.slot i).chan = none ∨ op = .wait)

def emptyTable : Ptable :=
  ⟨fun _ => ⟨.unused, 0, none, false, none, 0⟩, 1, slot0⟩

/-- What boot depends on: the number of other processors, the bytes of the first
program and whatever memory held at power-on. -/
structure Machine where
  aps : ℕ
  initcode : List UInt8
  mem : ℕ → ℕ → UInt8
  aps_lt : aps < NCPU

/-- The stacks that `startothers` allocates. -/
def startothers : ℕ → Phys → Phys × List ℕ
  | 0, ph => (ph, [])
  | n+1, ph =>
    match kalloc ph with
    | (ph, none) => startothers n ph
    | (ph, some f) => ((startothers n ph).1, f::(startothers n ph).2)

def userinit (k : Kernel) (initcode : List UInt8) : Except Halt Kernel :=
  match k.allocproc with
  | (_, none) => .error .nullDeref
  | (k, some p) => do
    let (ph, d) ← setupkvm k.phys
    match d with
    | none => .error (.panic "userinit: out of memory?")
    | some d => do
      let (ph, d) ← inituvm ph d initcode
      .ok { k.setDir p ph d with
        table := { k.table.set p { k.table.slot p with state := .runnable, sz := PGSIZE } with
                   initproc := p } }

/-- `main` up to the first process: `kinit1`, `kvmalloc`, `startothers`, `kinit2`
and `userinit`. -/
def boot (m : Machine) : Except Halt Kernel := do
  let ph ← freerange ⟨[], fun _ => 0, m.mem⟩ kernEnd (4*2^20)
  let (ph, kpgdir) ← setupkvm ph
  match kpgdir with
  | none => .error .nullDeref
  | some kpgdir => do
    let aps := startothers m.aps ph
    let ph ← freerange aps.1 (4*2^20) PHYSTOP
    userinit ⟨ph, emptyTable, fun _ => none, fun _ => none, fun _ _ => none,
      ⟨fun _ => ⟨.none, 0, false, 0⟩, fun _ => ⟨false, false⟩⟩, kpgdir, aps.2⟩ m.initcode

/-- The states of the runs whose steps all meet `C`. -/
inductive Reach (m : Machine) (C : Kernel → Fin NPROC → Op → Prop) : Kernel → Prop where
  | boot {k : Kernel} (h : boot m = .ok k) : Reach m C k
  | step {k k' : Kernel} {i : Fin NPROC} {op : Op} {r : Ret} (hk : Reach m C k)
      (hc : CanStep k i op) (hC : C k i op) (hs : step k i op = .ok (k', r)) : Reach m C k'

end Xv6.Kern
