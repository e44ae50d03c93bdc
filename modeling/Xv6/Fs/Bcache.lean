import Xv6.Lib.Account
import Xv6.Lib.Links
import Xv6.Fs.BeginOp

/-!
# The buffer cache

`binit`, `bget`, `bread`, `bwrite` and `brelse` of `bio.c`, `iderw` of `ide.c`, and
`begin_op`, `log_write`, `end_op` and `commit` of `log.c`, run by any number of
processes on one device. A step is a critical section, the taking or releasing of a
buffer's lock, a disk transfer, or a store to a locked buffer. A process that commits
carries the calls of `commit` as a program; any other process chooses its next call.
`mem` records what was last stored for each block; no step reads it.
-/

set_option autoImplicit false

namespace Xv6.Bcache
open Xv6.Links Xv6.Log Xv6.LogOps

def NBUF : ℕ := MAXOPBLOCKS*3

/-- A `struct buf`. `touched` says that the holder has stored to the data and not yet
called `log_write` or `bwrite`. -/
structure Buf (n : ℕ) where
  dev : ℕ
  blockno : ℕ
  refcnt : ℕ
  valid : Bool
  dirty : Bool
  data : Block
  lock : Option (Fin n)
  touched : Bool

/-- The calls that both `commit` and the other callers make. -/
inductive Act where
  | bread (x : ℕ)
  | bwrite (x : ℕ)
  | brelse (x : ℕ)
  deriving DecidableEq

/-- The calls of `commit` and its own stores: `copy tail x` and `install tail x` are the
`memmove` between log block `tail` and block `x` in `write_log` and `install_trans`. -/
inductive Instr where
  | act (a : Act)
  | copy (tail x : ℕ)
  | header
  | install (tail x : ℕ)
  | clear
  | finish
  deriving DecidableEq

/-- Where a process is inside `bread` of block `x` or inside `brelse`. -/
inductive Call where
  | none
  | get (x : ℕ)
  | wait (x : ℕ) (b : Fin NBUF)
  | load (x : ℕ) (b : Fin NBUF)
  | drop (b : Fin NBUF)
  | panic (msg : String)
  deriving DecidableEq

/-- `held` lists the buffers that `bread` has returned, with the block asked for. -/
structure Proc where
  call : Call
  held : List (ℕ × Fin NBUF)
  inOp : Bool
  prog : List Instr

structure St (n : ℕ) where
  disk : ℕ → Block
  mem : ℕ → Block
  buf : Fin NBUF → Buf n
  ptrs : Ptrs (Fin NBUF)
  lh : List ℕ
  outstanding : ℕ
  committing : Bool
  proc : Fin n → Proc

/-! ## Commit -/

section
variable (L : Layout)

def writeLog (tail x : ℕ) : List Instr :=
  [.act (.bread (L.start+tail+1)),.act (.bread x),.copy tail x,.act (.bwrite (L.start+tail+1)),
    .act (.brelse x),.act (.brelse (L.start+tail+1))]

def installTrans (tail x : ℕ) : List Instr :=
  [.act (.bread (L.start+tail+1)),.act (.bread x),.install tail x,.act (.bwrite x),
    .act (.brelse (L.start+tail+1)),.act (.brelse x)]

def writeHead : List Instr :=
  [.act (.bread L.start),.header,.act (.bwrite L.start),.act (.brelse L.start)]

/-- The loops over `log.lh.block`, from index `tail` on. -/
def forBlocks (body : ℕ → ℕ → List Instr) : ℕ → List ℕ → List Instr
  | _, [] => []
  | tail, x::xs => body tail x++forBlocks body (tail+1) xs

def commit (lh : List ℕ) : List Instr :=
  if lh = [] then []
  else forBlocks (writeLog L) 0 lh++(writeHead L++(forBlocks (installTrans L) 0 lh++
    (.clear::writeHead L)))

end

/-! ## Steps -/

namespace St
variable {n : ℕ}

def setProc (s : St n) (p : Fin n) (e : Proc) : St n :=
  { s with proc := Function.update s.proc p e }

def goto (s : St n) (p : Fin n) (c : Call) : St n := s.setProc p { s.proc p with call := c }

def setBuf (s : St n) (b : Fin NBUF) (e : Buf n) : St n :=
  { s with buf := Function.update s.buf b e }

/-- Put the rest of its program before a process that commits. -/
def advance (s : St n) (p : Fin n) (is : List Instr) : St n :=
  s.setProc p { s.proc p with prog := is }

/-- The first loop of `bget`, from `head.next` on. -/
def cached (s : St n) (dev x : ℕ) : Option (Fin NBUF) :=
  walk s.ptrs.next (fun b => (s.buf b).dev = dev ∧ (s.buf b).blockno = x) (NBUF+1)
    (s.ptrs.next none)

/-- The second loop of `bget`, from `head.prev` backwards. -/
def unused (s : St n) : Option (Fin NBUF) :=
  walk s.ptrs.prev (fun b => (s.buf b).refcnt = 0 ∧ (s.buf b).dirty = false) (NBUF+1)
    (s.ptrs.prev none)

/-- `bread` returns the buffer. -/
def take (s : St n) (p : Fin n) (x : ℕ) (b : Fin NBUF) : St n :=
  s.setProc p { s.proc p with call := .none, held := (x,b)::(s.proc p).held }

/-- `iderw`: write a dirty buffer, read one that is not valid. -/
def iderw (s : St n) (b : Fin NBUF) : St n :=
  if (s.buf b).dirty then
    { s.setBuf b { s.buf b with valid := true, dirty := false, touched := false } with
      disk := Function.update s.disk (s.buf b).blockno (s.buf b).data }
  else s.setBuf b { s.buf b with valid := true, data := s.disk (s.buf b).blockno }

def bwrite (s : St n) (b : Fin NBUF) : St n :=
  (s.setBuf b { s.buf b with dirty := true }).iderw b

/-- `brelse` up to the release of the buffer's lock. -/
def release (s : St n) (p : Fin n) (x : ℕ) (b : Fin NBUF) : St n :=
  (s.setBuf b { s.buf b with lock := none }).setProc p
    { s.proc p with call := .drop b, held := (s.proc p).held.erase (x,b) }

/-- The critical section of `brelse`. -/
def drop (s : St n) (b : Fin NBUF) : St n :=
  let s := s.setBuf b { s.buf b with refcnt := (s.buf b).refcnt-1 }
  if (s.buf b).refcnt = 0 then { s with ptrs := (s.ptrs.unlink b).push b } else s

def store (s : St n) (x : ℕ) (b : Fin NBUF) (v : Block) : St n :=
  { s.setBuf b { s.buf b with data := v, touched := true } with
    mem := Function.update s.mem x v }

/-- The process is in its own code, and does not commit. -/
def User (s : St n) (p : Fin n) : Prop := (s.proc p).call = .none ∧ (s.proc p).prog = []

/-- The next instruction of a process that commits. -/
def Commits (s : St n) (p : Fin n) (i : Instr) (is : List Instr) : Prop :=
  (s.proc p).call = .none ∧ (s.proc p).prog = i::is

end St

variable {n : ℕ}

inductive Effect (s : St n) (p : Fin n) : Act → St n → Prop where
  | bread (x : ℕ) : Effect s p (.bread x) (s.goto p (.get x))
  | bwrite {x : ℕ} {b : Fin NBUF} (hb : (x,b) ∈ (s.proc p).held) :
      Effect s p (.bwrite x) (s.bwrite b)
  | brelse {x : ℕ} {b : Fin NBUF} (hb : (x,b) ∈ (s.proc p).held)
      (ht : (s.buf b).touched = false) : Effect s p (.brelse x) (s.release p x b)

/-- The steps of process `p` on device `dev` with log `L`. `may` says which blocks the
callers may store to, other than those that `commit` writes. -/
inductive Step (dev : ℕ) (L : Layout) (may : St n → ℕ → Prop) (s : St n) (p : Fin n) :
    St n → Prop where
  | beginOp (hu : s.User p) (ho : (s.proc p).inOp = false) (hc : s.committing = false)
      (hl : s.lh.length+(s.outstanding+1)*MAXOPBLOCKS ≤ LOGSIZE) :
      Step dev L may s p { s.setProc p { s.proc p with inOp := true } with
        outstanding := s.outstanding+1 }
  | endOp (hu : s.User p) (ho : (s.proc p).inOp = true) (hc : s.committing = false)
      (hl : s.outstanding-1 ≠ 0) :
      Step dev L may s p { s.setProc p { s.proc p with inOp := false } with
        outstanding := s.outstanding-1 }
  | endLast (hu : s.User p) (ho : (s.proc p).inOp = true) (hc : s.committing = false)
      (hl : s.outstanding-1 = 0) :
      Step dev L may s p { s.setProc p
        { s.proc p with inOp := false, prog := commit L s.lh++[.finish] } with
        outstanding := s.outstanding-1, committing := true }
  | endPanic (hu : s.User p) (ho : (s.proc p).inOp = true) (hc : s.committing = true) :
      Step dev L may s p (s.goto p (.panic "log.committing"))
  | user {a : Act} {s' : St n} (hu : s.User p) (h : Effect s p a s') : Step dev L may s p s'
  | cached {x : ℕ} {b : Fin NBUF} (hp : (s.proc p).call = .get x) (hb : s.cached dev x = some b) :
      Step dev L may s p
        ((s.setBuf b { s.buf b with refcnt := (s.buf b).refcnt+1 }).goto p (.wait x b))
  | recycle {x : ℕ} {b : Fin NBUF} (hp : (s.proc p).call = .get x) (hc : s.cached dev x = none)
      (hb : s.unused = some b) :
      Step dev L may s p ((s.setBuf b { s.buf b with
        dev := dev, blockno := x, valid := false, dirty := false, refcnt := 1 }).goto p (.wait x b))
  | noBuffers {x : ℕ} (hp : (s.proc p).call = .get x) (hc : s.cached dev x = none)
      (hb : s.unused = none) : Step dev L may s p (s.goto p (.panic "bget: no buffers"))
  | acquire {x : ℕ} {b : Fin NBUF} (hp : (s.proc p).call = .wait x b) (hl : (s.buf b).lock = none) :
      Step dev L may s p ((s.setBuf b { s.buf b with lock := some p }).goto p (.load x b))
  | hit {x : ℕ} {b : Fin NBUF} (hp : (s.proc p).call = .load x b) (hv : (s.buf b).valid = true) :
      Step dev L may s p (s.take p x b)
  | read {x : ℕ} {b : Fin NBUF} (hp : (s.proc p).call = .load x b) (hv : (s.buf b).valid = false) :
      Step dev L may s p ((s.iderw b).take p x b)
  | drop {b : Fin NBUF} (hp : (s.proc p).call = .drop b) :
      Step dev L may s p ((s.drop b).goto p .none)
  | store {x : ℕ} {b : Fin NBUF} {v : Block} (hu : s.User p) (hb : (x,b) ∈ (s.proc p).held)
      (hm : may s x) : Step dev L may s p (s.store x b v)
  | logWrite {x : ℕ} {b : Fin NBUF} (hu : s.User p) (hb : (x,b) ∈ (s.proc p).held)
      (ho : (s.proc p).inOp = true) (hm : may s x)
      (hl : ¬ (LOGSIZE ≤ s.lh.length ∨ L.size-1 ≤ s.lh.length)) :
      Step dev L may s p { s.setBuf b { s.buf b with dirty := true, touched := false } with
        lh := absorb s.lh x }
  | tooBig {x : ℕ} {b : Fin NBUF} (hu : s.User p) (hb : (x,b) ∈ (s.proc p).held)
      (hl : LOGSIZE ≤ s.lh.length ∨ L.size-1 ≤ s.lh.length) :
      Step dev L may s p (s.goto p (.panic "too big a transaction"))
  | act {a : Act} {is : List Instr} {s' : St n} (hc : s.Commits p (.act a) is)
      (h : Effect (s.advance p is) p a s') : Step dev L may s p s'
  | copy {tail x : ℕ} {is : List Instr} {t b : Fin NBUF} (hc : s.Commits p (.copy tail x) is)
      (ht : (L.start+tail+1,t) ∈ (s.proc p).held) (hb : (x,b) ∈ (s.proc p).held) :
      Step dev L may s p ((s.store (L.start+tail+1) t (s.buf b).data).advance p is)
  | header {is : List Instr} {b : Fin NBUF} (hc : s.Commits p .header is)
      (hb : (L.start,b) ∈ (s.proc p).held) :
      Step dev L may s p ((s.store L.start b (header s.lh (s.buf b).data)).advance p is)
  | install {tail x : ℕ} {is : List Instr} {lbuf dbuf : Fin NBUF}
      (hc : s.Commits p (.install tail x) is) (hl : (L.start+tail+1,lbuf) ∈ (s.proc p).held)
      (hb : (x,dbuf) ∈ (s.proc p).held) :
      Step dev L may s p
        ((s.setBuf dbuf { s.buf dbuf with data := (s.buf lbuf).data }).advance p is)
  | clear {is : List Instr} (hc : s.Commits p .clear is) :
      Step dev L may s p { s.advance p is with lh := [] }
  | finish {is : List Instr} (hc : s.Commits p .finish is) :
      Step dev L may s p { s.advance p is with committing := false }

/-- `binit`: the buffers are put at the front one after the other. -/
def binit : Ptrs (Fin NBUF) := (List.finRange NBUF).foldl Ptrs.push ⟨fun _ => none,fun _ => none⟩

/-- Nothing is cached, nobody is in a function, and the log is empty. -/
structure Start (s : St n) : Prop where
  mem : s.mem = s.disk
  ptrs : s.ptrs = binit
  buf : ∀ b, (s.buf b).dev = 0 ∧ (s.buf b).refcnt = 0 ∧ (s.buf b).valid = false ∧
    (s.buf b).dirty = false ∧ (s.buf b).lock = none ∧ (s.buf b).touched = false
  log : s.lh = [] ∧ s.outstanding = 0 ∧ s.committing = false
  proc : ∀ p, s.proc p = ⟨.none,[],false,[]⟩

inductive Reach (dev : ℕ) (L : Layout) (may : St n → ℕ → Prop) (s₀ : St n) : St n → Prop where
  | start : Reach dev L may s₀ s₀
  | step {s s' : St n} {p : Fin n} (h : Reach dev L may s₀ s) (hs : Step dev L may s p s') :
      Reach dev L may s₀ s'

end Xv6.Bcache
