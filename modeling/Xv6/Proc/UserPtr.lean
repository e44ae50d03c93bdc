import Xv6.Fs.Log
import Xv6.Lib.Stores
import Xv6.Proc.Sizes

/-!
# Stores through user pointers

The argument checks of `syscall.c` and the handlers that store through a pointer
which the caller supplies: `sys_read` with the readers behind it, `sys_fstat`,
`sys_pipe`, `sys_date` and `sys_virt2real`. A handler gives the bytes it stores and
its result; no result stands for a call that is still asleep. `sys_read`, `sys_fstat`
and `sys_pipe` store inside the caller's memory; `sys_date` and `sys_virt2real`
ignore the result of `argptr`.
-/

set_option autoImplicit false

namespace Xv6.UserPtr
open Xv6.Mmu Xv6.Kalloc Xv6.Files Xv6.Log Xv6.Stores

/-- What a system call knows of the calling process: its size, the saved stack
pointer and its memory. -/
structure Caller where
  sz : ℕ
  fits : sz ≤ KERNBASE
  esp : BitVec 32
  mem : ℕ → UInt8

def Caller.word (c : Caller) (a : ℕ) : BitVec 32 :=
  (c.mem (a+3)).toBitVec ++ (c.mem (a+2)).toBitVec ++ (c.mem (a+1)).toBitVec ++
    (c.mem a).toBitVec

def fetchint (c : Caller) (addr : BitVec 32) : Option (BitVec 32) :=
  if c.sz ≤ addr.toNat ∨ c.sz < (addr+4).toNat then none else some (c.word addr.toNat)

def argint (c : Caller) (n : ℕ) : Option (BitVec 32) :=
  fetchint c (c.esp+4+4*BitVec.ofNat 32 n)

def argptr (c : Caller) (n : ℕ) (size : BitVec 32) : Option (BitVec 32) := do
  let i ← argint c n
  if size.toInt < 0 ∨ c.sz ≤ i.toNat ∨ c.sz < (i+size).toNat then none else some i

/-- A pipe at the time `piperead` looks at it. -/
structure PipeBuf where
  data : ℕ → UInt8
  nread : BitVec 32
  nwrite : BitVec 32
  writeopen : Bool

def PIPESIZE : ℕ := 512
def T_DEV : BitVec 16 := 3
def NDEV : ℕ := 10
def CONSOLE : ℕ := 1

/-- An inode, with its contents by block and offset. -/
structure Inode where
  dev : BitVec 32
  inum : BitVec 32
  type : BitVec 16
  major : BitVec 16
  nlink : BitVec 16
  size : BitVec 32
  block : ℕ → ℕ → UInt8

inductive Source where
  | none
  | pipe (p : PipeBuf)
  | inode (ip : Inode)

structure OpenFile where
  readable : Bool
  off : BitVec 32
  source : Source

/-- The rest of the kernel as the handlers meet it: the open files, the mark of the
caller, the characters that come in on the console (`none` when the caller is found
killed), the descriptors that `pipealloc` and `fdalloc` give, what stands in an
uninitialised pointer, the clock, and the globals of `virt2real.h`. -/
structure Env where
  ofile : Fin NOFILE → Option OpenFile
  killed : Bool
  input : List (Option UInt8)
  fds : Option (Fin NOFILE × Fin NOFILE)
  garbage : BitVec 32
  bcd : Bool
  clock : Fin 6 → BitVec 32
  pgdir : BitVec 32
  addreal : BitVec 32

structure Outcome where
  stores : Trace 32
  ret : Option (BitVec 32)

/-- `return -1` before any store. -/
def Outcome.fail : Outcome := ⟨[], some (-1)⟩

def argfd (c : Caller) (e : Env) (n : ℕ) : Option OpenFile := do
  let fd ← argint c n
  if h : 0 ≤ fd.toInt ∧ fd.toInt < NOFILE then
    e.ofile ⟨fd.toInt.toNat,by omega⟩
  else none

def pipeBytes (p : PipeBuf) : ℕ → BitVec 32 → List UInt8
  | 0, _ => []
  | n+1, r => if r = p.nwrite then [] else p.data (r.toNat%PIPESIZE)::pipeBytes p n (r+1)

def piperead (e : Env) (p : PipeBuf) (addr : BitVec 32) (n : BitVec 32) : Outcome :=
  if p.nread = p.nwrite ∧ p.writeopen then
    if e.killed then .fail else ⟨[], none⟩
  else
    let bs := pipeBytes p n.toInt.toNat p.nread
    ⟨bytesAt addr bs, some (BitVec.ofNat 32 bs.length)⟩

inductive Ending where
  | done
  | killed
  | asleep

/-- The loop of `consoleread`: the characters it stores and how it ends. -/
def consoleLoop : ℕ → List (Option UInt8) → List UInt8 × Ending
  | 0, _ => ([], .done)
  | _+1, [] => ([], .asleep)
  | _+1, none::_ => ([], .killed)
  | n+1, some c::cs =>
    if c = 4 then ([], .done)
    else if c = 10 then ([c], .done)
    else (c::(consoleLoop n cs).1, (consoleLoop n cs).2)

def consoleread (e : Env) (dst : BitVec 32) (n : BitVec 32) : Outcome :=
  let (bs, r) := consoleLoop n.toInt.toNat e.input
  ⟨bytesAt dst bs, match r with
    | .done => some (BitVec.ofNat 32 bs.length)
    | .killed => some (-1)
    | .asleep => none⟩

/-- The loop of `readi`, one block after the other. -/
def readLoop (ip : Inode) (dst : BitVec 32) (off tot n : ℕ) : Trace 32 :=
  if _h : tot < n then
    let m := min (n-tot) (BSIZE-off%BSIZE)
    bytesAt dst ((List.range m).map (fun k => ip.block (off/BSIZE) (off%BSIZE+k))) ++
      readLoop ip (dst+BitVec.ofNat 32 m) (off+m) (tot+m) n
  else []
termination_by n-tot
decreasing_by
  have := Nat.mod_lt off (show 0 < BSIZE by decide)
  omega

def readi (e : Env) (ip : Inode) (dst off n : BitVec 32) : Outcome :=
  if ip.type = T_DEV then
    if ip.major.toInt < 0 ∨ NDEV ≤ ip.major.toInt ∨ ip.major.toInt ≠ CONSOLE then .fail
    else consoleread e dst n
  else if ip.size.toNat < off.toNat ∨ (off+n).toNat < off.toNat then .fail
  else
    let n := if ip.size.toNat < (off+n).toNat then ip.size-off else n
    ⟨readLoop ip dst off.toNat 0 n.toNat, some n⟩

def fileread (e : Env) (f : OpenFile) (addr n : BitVec 32) : Except Halt Outcome :=
  if f.readable = false then .ok .fail
  else
    match f.source with
    | .pipe p => .ok (piperead e p addr n)
    | .inode ip => .ok (readi e ip addr f.off n)
    | .none => .error (.panic "fileread")

def sysread (c : Caller) (e : Env) : Except Halt Outcome :=
  match argfd c e 0, argint c 2 with
  | some f, some n =>
    match argptr c 1 n with
    | some p => fileread e f p n
    | none => .ok .fail
  | _, _ => .ok .fail

/-- `struct stat` with its padding. -/
def statSize : ℕ := 20

def stati (ip : Inode) (st : BitVec 32) : Trace 32 :=
  bytesAt (st+BitVec.ofNat 32 4) (leBytes 4 ip.dev.toNat) ++
  bytesAt (st+BitVec.ofNat 32 8) (leBytes 4 ip.inum.toNat) ++
  bytesAt (st+BitVec.ofNat 32 0) (leBytes 2 ip.type.toNat) ++
  bytesAt (st+BitVec.ofNat 32 12) (leBytes 2 ip.nlink.toNat) ++
  bytesAt (st+BitVec.ofNat 32 16) (leBytes 4 ip.size.toNat)

def filestat (f : OpenFile) (st : BitVec 32) : Outcome :=
  match f.source with
  | .inode ip => ⟨stati ip st, some 0⟩
  | _ => .fail

def sysfstat (c : Caller) (e : Env) : Outcome :=
  match argfd c e 0 with
  | none => .fail
  | some f =>
    match argptr c 1 (BitVec.ofNat 32 statSize) with
    | none => .fail
    | some st => filestat f st

def syspipe (c : Caller) (e : Env) : Outcome :=
  match argptr c 0 8 with
  | none => .fail
  | some fd =>
    match e.fds with
    | none => .fail
    | some (fd0, fd1) =>
      ⟨bytesAt (fd+BitVec.ofNat 32 0) (leBytes 4 fd0) ++
        bytesAt (fd+BitVec.ofNat 32 4) (leBytes 4 fd1), some 0⟩

/-- `CONV` of `cmostime`. -/
def conv (x : BitVec 32) : BitVec 32 := (x >>> 4)*10+(x &&& 0xf)

/-- `cmostime` once two reads of the clock agree: the whole structure, then the year. -/
def cmostime (e : Env) (r : BitVec 32) : Trace 32 :=
  let t := fun k => if e.bcd then conv (e.clock k) else e.clock k
  bytesAt r ((List.finRange 6).flatMap (fun k => leBytes 4 (t k).toNat)) ++
    bytesAt (r+BitVec.ofNat 32 20) (leBytes 4 (t 5+2000).toNat)

/-- `sizeof(struct rtcdate)`. -/
def dateSize : ℕ := 24

/-- The pointer keeps what stood there when `argptr` fails. -/
def sysdate (c : Caller) (e : Env) : Outcome :=
  let ptr := (argptr c 0 4).getD e.garbage
  ⟨cmostime e ptr, some 0⟩

/-- The global keeps the pointer of the last successful call; `addvirt` is never set. -/
def sysvirt2real (c : Caller) (e : Env) : Outcome :=
  let addreal := (argptr c 0 4).getD e.addreal
  ⟨[(addreal, c.mem 0-UInt8.ofNat e.pgdir.toNat)], some addreal⟩

inductive Call where
  | read
  | fstat
  | pipe
  | date
  | virt2real
  deriving DecidableEq

def syscall (c : Caller) (e : Env) : Call → Except Halt Outcome
  | .read => sysread c e
  | .fstat => .ok (sysfstat c e)
  | .pipe => .ok (syspipe c e)
  | .date => .ok (sysdate c e)
  | .virt2real => .ok (sysvirt2real c e)

/-- The destination of a call: where it starts and how many bytes it has. -/
def dest (c : Caller) : Call → Option (BitVec 32 × ℕ)
  | .read => do
    let n ← argint c 2
    let p ← argint c 1
    if n.toInt < 0 then none else some (p, n.toInt.toNat)
  | .fstat => (argint c 1).map (·, statSize)
  | .pipe => (argint c 0).map (·, 8)
  | .date => (argint c 0).map (·, dateSize)
  | .virt2real => (argint c 0).map (·, 1)

/-- The whole destination is in the caller's memory. -/
def Inside (c : Caller) (call : Call) : Prop :=
  ∃ d, dest c call = some d ∧ d.1.toNat+d.2 ≤ c.sz

/-- What the two handlers that do not look at the result of `argptr` need. -/
def Checked (c : Caller) : Call → Prop
  | .date => Inside c .date
  | .virt2real => (argptr c 0 4).isSome = true
  | _ => True

/-- What every handler owes: stores in the caller's memory only, and a failure without
a store when the destination is not there. -/
def Safe (c : Caller) (call : Call) (o : Outcome) : Prop :=
  (∀ s ∈ o.stores, s.1.toNat < c.sz) ∧
    (¬ Inside c call → o.ret = some (-1) ∧ o.stores = [])

section
variable {c : Caller} {e : Env} {n : ℕ} {size p : BitVec 32}

theorem toInt_toNat {x : BitVec 32} (h : 0 ≤ x.toInt) :
    x.toInt.toNat = x.toNat ∧ x.toNat < 2^31 := by
  rw [BitVec.toInt_eq_toNat_cond] at h ⊢
  split at h
  · next hlt =>
    rw [if_pos hlt]
    omega
  · omega

theorem argptr_some (h : argptr c n size = some p) :
    argint c n = some p ∧ 0 ≤ size.toInt ∧ p.toNat < c.sz ∧
      p.toNat+size.toInt.toNat ≤ c.sz := by
  rw [argptr, Option.bind_eq_bind, Option.bind_eq_some_iff] at h
  obtain ⟨i,hi,h⟩ := h
  split at h
  · cases h
  · next hc =>
    cases h
    have hf := c.fits
    obtain ⟨hs,hlt⟩ := toInt_toNat (x := size) (by omega)
    have hadd : (p+size).toNat = p.toNat+size.toNat := by
      rw [BitVec.toNat_add, Nat.mod_eq_of_lt]
      unfold KERNBASE at hf
      omega
    exact ⟨hi,by omega,by omega,by omega⟩

theorem fail_safe (c : Caller) (call : Call) : Safe c call .fail :=
  ⟨nofun,fun _ => ⟨rfl,rfl⟩⟩

theorem Safe.of_within {call : Call} {m : ℕ} {o : Outcome} (hd : dest c call = some (p, m))
    (hm : p.toNat+m ≤ c.sz) (hw : Within p m o.stores) : Safe c call o := by
  have hf := c.fits
  refine ⟨hw.lt hm (by unfold KERNBASE at hf; omega),fun hn => absurd ⟨_,hd,hm⟩ hn⟩

theorem pipeBytes_length (q : PipeBuf) (k : ℕ) (r : BitVec 32) :
    (pipeBytes q k r).length ≤ k := by
  induction k generalizing r with
  | zero => exact le_refl 0
  | succ k ih =>
    rw [pipeBytes]
    split
    · exact Nat.zero_le _
    · exact Nat.succ_le_succ (ih (r+1))

theorem piperead_within (e : Env) (q : PipeBuf) (p size : BitVec 32) :
    Within p size.toInt.toNat (piperead e q p size).stores := by
  rw [piperead]
  split
  · split
    · exact Within.nil _ _
    · exact Within.nil _ _
  · exact (bytesAt_within p _).mono (pipeBytes_length q _ _)

theorem consoleLoop_length (k : ℕ) (cs : List (Option UInt8)) :
    (consoleLoop k cs).1.length ≤ k := by
  induction k generalizing cs with
  | zero => exact le_refl 0
  | succ k ih =>
    match cs with
    | [] => exact Nat.zero_le _
    | none::_ => exact Nat.zero_le _
    | some x::cs =>
      rw [consoleLoop]
      split
      · exact Nat.zero_le _
      · split
        · exact Nat.succ_le_succ (Nat.zero_le k)
        · exact Nat.succ_le_succ (ih cs)

theorem readLoop_within (ip : Inode) (dst : BitVec 32) (off tot k : ℕ) :
    Within dst (k-tot) (readLoop ip dst off tot k) := by
  fun_induction readLoop ip dst off tot k with
  | case1 dst off tot h m ih =>
    have hm : m ≤ k-tot := min_le_left _ _
    refine ((bytesAt_within dst _).mono ?_).append (ih.shift (by omega))
    rw [List.length_map, List.length_range]
    exact hm
  | case2 dst off tot h => exact Within.nil _ _

theorem readi_within (e : Env) (ip : Inode) (p off : BitVec 32) (hs : 0 ≤ size.toInt) :
    Within p size.toInt.toNat (readi e ip p off size).stores := by
  have hn := (toInt_toNat hs).1
  rw [readi]
  split
  · split
    · exact Within.nil _ _
    · exact (bytesAt_within p _).mono (consoleLoop_length _ _)
  · split
    · exact Within.nil _ _
    · next hoff =>
      refine (readLoop_within ip p off.toNat 0 _).mono ?_
      rw [hn, Nat.sub_zero]
      split
      · next hbig =>
        rw [BitVec.toNat_add] at hoff hbig
        rw [BitVec.toNat_sub]
        omega
      · exact le_refl _

theorem fileread_within {f : OpenFile} {o : Outcome} (hs : 0 ≤ size.toInt)
    (h : fileread e f p size = .ok o) : Within p size.toInt.toNat o.stores := by
  rw [fileread] at h
  split at h
  · cases h
    exact Within.nil _ _
  · split at h
    · cases h
      exact piperead_within e _ p size
    · cases h
      exact readi_within e _ p f.off hs
    · cases h

theorem sysread_safe {o : Outcome} (h : sysread c e = .ok o) : Safe c .read o := by
  rw [sysread] at h
  split at h
  · next f m _ hm =>
    split at h
    · next q hq =>
      obtain ⟨hi,hs,-,hle⟩ := argptr_some hq
      refine Safe.of_within (p := q) (m := m.toInt.toNat) ?_ hle (fileread_within hs h)
      rw [dest, hm, hi]
      exact if_neg (by omega)
    · cases h
      exact fail_safe c _
  · cases h
    exact fail_safe c _

theorem field_within (q : BitVec 32) {i k m v : ℕ} (h : i+k ≤ m) :
    Within q m (bytesAt (q+BitVec.ofNat 32 i) (leBytes k v)) := by
  refine Within.shift (n := k) ?_ h
  have := bytesAt_within (q+BitVec.ofNat 32 i) (leBytes k v)
  rwa [leBytes_length] at this

theorem sysfstat_safe (c : Caller) (e : Env) : Safe c .fstat (sysfstat c e) := by
  rw [sysfstat]
  split
  · exact fail_safe c _
  · next f _ =>
    split
    · exact fail_safe c _
    · next st hst =>
      obtain ⟨hi,-,-,hle⟩ := argptr_some hst
      rw [filestat]
      split
      · next ip _ =>
        refine Safe.of_within (p := st) (m := statSize) (by rw [dest, hi]; rfl) hle ?_
        unfold stati statSize
        refine ((((field_within st ?_).append (field_within st ?_)).append
          (field_within st ?_)).append (field_within st ?_)).append (field_within st ?_) <;> decide
      · exact fail_safe c _

theorem syspipe_safe (c : Caller) (e : Env) : Safe c .pipe (syspipe c e) := by
  rw [syspipe]
  split
  · exact fail_safe c _
  · next q hq =>
    obtain ⟨hi,-,-,hle⟩ := argptr_some hq
    split
    · exact fail_safe c _
    · refine Safe.of_within (p := q) (m := 8) (by rw [dest, hi]; rfl) hle ?_
      exact (field_within q (by decide)).append (field_within q (by decide))

theorem cmostime_within (e : Env) (q : BitVec 32) : Within q dateSize (cmostime e q) := by
  refine Within.append ?_ (field_within q (by decide))
  refine (bytesAt_within q _).mono ?_
  rw [List.length_flatMap]
  simp [leBytes_length, dateSize]

theorem sysdate_safe (e : Env) (h : Inside c .date) : Safe c .date (sysdate c e) := by
  obtain ⟨⟨q,m⟩,hd,hle⟩ := h
  rw [dest, Option.map_eq_some_iff] at hd
  obtain ⟨q',hq,hd⟩ := hd
  cases hd
  have hptr : argptr c 0 4 = some q := by
    change q.toNat+24 ≤ c.sz at hle
    have hf : c.sz ≤ 2^31 := c.fits
    have h4 : (q+4).toNat = q.toNat+4 := by
      rw [BitVec.toNat_add, show (4 : BitVec 32).toNat = 4 from rfl, Nat.mod_eq_of_lt (by omega)]
    have hint : (4 : BitVec 32).toInt = 4 := by decide
    rw [argptr, hq]
    refine if_neg ?_
    rw [h4, hint]
    omega
  rw [sysdate, hptr]
  exact Safe.of_within (p := q) (m := dateSize) (by rw [dest, hq]; rfl) hle (cmostime_within e q)

theorem sysvirt2real_safe (e : Env) (h : (argptr c 0 4).isSome = true) :
    Safe c .virt2real (sysvirt2real c e) := by
  obtain ⟨q,hq⟩ := Option.isSome_iff_exists.1 h
  obtain ⟨hi,-,hlt,-⟩ := argptr_some hq
  rw [sysvirt2real, hq]
  refine Safe.of_within (p := q) (m := 1) (by rw [dest, hi]; rfl) hlt ?_
  intro s hs
  rw [List.mem_singleton.1 hs]
  exact ⟨0,by decide,by simp⟩

theorem syscall_safe {call : Call} {o : Outcome} (hc : Checked c call)
    (h : syscall c e call = .ok o) : Safe c call o := by
  cases call with
  | read => exact sysread_safe h
  | fstat =>
    cases h
    exact sysfstat_safe c e
  | pipe =>
    cases h
    exact syspipe_safe c e
  | date =>
    cases h
    exact sysdate_safe e hc
  | virt2real =>
    cases h
    exact sysvirt2real_safe e hc

end

/-- The caller that a process is, in any run of the kernel model. -/
def callerOf {m : Kern.Machine} {C : Kern.Kernel → Fin NPROC → Kern.Op → Prop} {k : Kern.Kernel}
    (h : Kern.Reach m C k) (i : Fin NPROC) (hi : (k.table.slot i).state.hasSpace = true)
    (esp : BitVec 32) (mem : ℕ → UInt8) : Caller :=
  ⟨(k.table.slot i).sz,le_of_lt (Kern.reach_low h i _ (Kern.spaces_slot hi)),esp,mem⟩

theorem process_stores_inside {m : Kern.Machine} {C : Kern.Kernel → Fin NPROC → Kern.Op → Prop}
    {k : Kern.Kernel} (h : Kern.Reach m C k) {i : Fin NPROC}
    (hi : (k.table.slot i).state.hasSpace = true) {esp : BitVec 32} {mem : ℕ → UInt8} {e : Env}
    {call : Call} {o : Outcome} (hc : Checked (callerOf h i hi esp mem) call)
    (ho : syscall (callerOf h i hi esp mem) e call = .ok o) :
    ∀ s ∈ o.stores, s.1.toNat < (k.table.slot i).sz :=
  (syscall_safe hc ho).1

end Xv6.UserPtr
