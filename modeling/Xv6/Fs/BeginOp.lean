import Xv6.Fs.Log
import Xv6.Proc.Sleep

/-!
# Operations and commits

`begin_op`, `log_write` and `end_op` of `log.c` as a client of `sleep` and
`wakeup`, run by any number of processes. A step is one critical section of
`log.lock`, a lock operation, or an unlocked piece of code: the tests at the head
of `log_write` and the two halves of `commit`. An operation carries the blocks it
has recorded, those it will record, and the number of commits before it began;
`history` and `done` keep what was committed and which operations have ended.
-/

set_option autoImplicit false

namespace Xv6.LogOps
open Xv6.Sleep Xv6.Log

def MAXOPBLOCKS : ℕ := 10

/-- The channel `&log`. -/
def logChan : ℕ := 0

structure Op where
  epoch : ℕ
  blocks : List ℕ
  todo : List ℕ

structure LogData where
  outstanding : ℕ
  committing : Bool
  lh : List ℕ
  history : List (List ℕ)
  done : List Op

inductive Point where
  | idle
  | beginAcquire (todo : List ℕ)
  | beginTest (todo : List ℕ)
  | beginRelease (op : Op)
  | inOp (op : Op)
  | logAcquire (op : Op)
  | logRecord (op : Op)
  | logRelease (op : Op)
  | endAcquire (op : Op)
  | endHeld (op : Op)
  | endWake
  | endRelease (doCommit : Bool)
  | commitWrite
  | commitClear
  | doneAcquire
  | doneHeld
  | doneWake
  | doneRelease
  | panic (held : Bool) (op : Option Op) (msg : String)

/-- The points at which `log.lock` is held. -/
def Point.holds : Point → Bool
  | .beginTest _ => true
  | .beginRelease _ => true
  | .logRecord _ => true
  | .logRelease _ => true
  | .endHeld _ => true
  | .endWake => true
  | .endRelease _ => true
  | .doneHeld => true
  | .doneWake => true
  | .doneRelease => true
  | .panic held _ _ => held
  | _ => false

/-- The operation that `log.outstanding` counts for a process. -/
def Point.op : Point → Option Op
  | .beginRelease op => some op
  | .inOp op => some op
  | .logAcquire op => some op
  | .logRecord op => some op
  | .logRelease op => some op
  | .endAcquire op => some op
  | .endHeld op => some op
  | .panic _ op _ => op
  | _ => none

/-- The points between setting and clearing `log.committing`. -/
def Point.commits : Point → Bool
  | .endRelease doCommit => doCommit
  | .commitWrite => true
  | .commitClear => true
  | .doneAcquire => true
  | .doneHeld => true
  | _ => false

/-- The points at which `commit` has cleared the header. -/
def Point.emptied : Point → Bool
  | .doneAcquire => true
  | .doneHeld => true
  | _ => false

/-- `begin_op` has to wait. -/
def LogData.full (d : LogData) : Prop :=
  d.committing = true ∨ LOGSIZE < d.lh.length+(d.outstanding+1)*MAXOPBLOCKS

/-- The body of `log_write` under the lock: append unless the block is there. -/
def absorb (lh : List ℕ) (b : ℕ) : List ℕ := if b ∈ lh then lh else lh++[b]

/-- `admits` says which block lists operations may record, `size` is `log.size`. -/
inductive LogMove (size : ℕ) (admits : List ℕ → Prop) :
    Move → Point → LogData → Point → LogData → Prop where
  | begin {d : LogData} {todo : List ℕ} (h : admits todo) :
      LogMove size admits .work .idle d (.beginAcquire todo) d
  | beginAcquire {d : LogData} {todo : List ℕ} :
      LogMove size admits .acquire (.beginAcquire todo) d (.beginTest todo) d
  | beginSleep {d : LogData} {todo : List ℕ} (h : d.full) :
      LogMove size admits (.sleep logChan) (.beginTest todo) d (.beginTest todo) d
  | beginAdmit {d : LogData} {todo : List ℕ} (h : ¬ d.full) :
      LogMove size admits .work (.beginTest todo) d (.beginRelease ⟨d.history.length,[],todo⟩)
        { d with outstanding := d.outstanding+1 }
  | beginRelease {d : LogData} {op : Op} :
      LogMove size admits .release (.beginRelease op) d (.inOp op) d
  | tooBig {d : LogData} {op : Op} {b : ℕ} {todo : List ℕ} (hop : op.todo = b::todo)
      (h : LOGSIZE ≤ d.lh.length ∨ size-1 ≤ d.lh.length) :
      LogMove size admits .work (.inOp op) d (.panic false (some op) "too big a transaction") d
  | outside {d : LogData} {op : Op} {b : ℕ} {todo : List ℕ} (hop : op.todo = b::todo)
      (h : d.outstanding < 1) :
      LogMove size admits .work (.inOp op) d (.panic false (some op) "log_write outside of trans") d
  | logWrite {d : LogData} {op : Op} {b : ℕ} {todo : List ℕ} (hop : op.todo = b::todo)
      (h : ¬ (LOGSIZE ≤ d.lh.length ∨ size-1 ≤ d.lh.length)) (ho : ¬ d.outstanding < 1) :
      LogMove size admits .work (.inOp op) d (.logAcquire op) d
  | logAcquire {d : LogData} {op : Op} :
      LogMove size admits .acquire (.logAcquire op) d (.logRecord op) d
  | logRecord {d : LogData} {op : Op} {b : ℕ} {todo : List ℕ} (hop : op.todo = b::todo) :
      LogMove size admits .work (.logRecord op) d (.logRelease ⟨op.epoch,b::op.blocks,todo⟩)
        { d with lh := absorb d.lh b }
  | logRelease {d : LogData} {op : Op} :
      LogMove size admits .release (.logRelease op) d (.inOp op) d
  | endOp {d : LogData} {op : Op} (hop : op.todo = []) :
      LogMove size admits .work (.inOp op) d (.endAcquire op) d
  | endAcquire {d : LogData} {op : Op} :
      LogMove size admits .acquire (.endAcquire op) d (.endHeld op) d
  | endPanic {d : LogData} {op : Op} (h : d.committing = true) :
      LogMove size admits .work (.endHeld op) d (.panic true none "log.committing")
        { d with outstanding := d.outstanding-1 }
  | endLast {d : LogData} {op : Op} (h : d.committing = false) (ho : d.outstanding-1 = 0) :
      LogMove size admits .work (.endHeld op) d (.endRelease true)
        { d with outstanding := d.outstanding-1, committing := true, done := op::d.done }
  | endOther {d : LogData} {op : Op} (h : d.committing = false) (ho : d.outstanding-1 ≠ 0) :
      LogMove size admits .work (.endHeld op) d .endWake
        { d with outstanding := d.outstanding-1, done := op::d.done }
  | endWake {d : LogData} : LogMove size admits (.wakeup logChan) .endWake d (.endRelease false) d
  | endReturn {d : LogData} : LogMove size admits .release (.endRelease false) d .idle d
  | endCommit {d : LogData} : LogMove size admits .release (.endRelease true) d .commitWrite d
  | commitWrite {d : LogData} :
      LogMove size admits .work .commitWrite d .commitClear { d with history := d.history++[d.lh] }
  | commitClear {d : LogData} :
      LogMove size admits .work .commitClear d .doneAcquire { d with lh := [] }
  | doneAcquire {d : LogData} : LogMove size admits .acquire .doneAcquire d .doneHeld d
  | doneHeld {d : LogData} :
      LogMove size admits .work .doneHeld d .doneWake { d with committing := false }
  | doneWake {d : LogData} : LogMove size admits (.wakeup logChan) .doneWake d .doneRelease d
  | doneRelease {d : LogData} : LogMove size admits .release .doneRelease d .idle d

def logClient (size : ℕ) (admits : List ℕ → Prop) : Client LogData Point where
  holds := Point.holds
  move := LogMove size admits
  acquire_ok h := by cases h <;> exact ⟨rfl,rfl,rfl⟩
  release_ok h := by cases h <;> exact ⟨rfl,rfl,rfl⟩
  work_ok h := by cases h <;> rfl
  sleep_ok h := by cases h; exact ⟨rfl,rfl,rfl⟩
  wakeup_ok h := by cases h <;> exact ⟨rfl,rfl⟩

variable {n size : ℕ} {admits : List ℕ → Prop}

/-- Every process is outside the log and the log is empty. -/
structure LogStart (s : St LogData Point n) : Prop where
  lk : s.lk = none
  pt : s.pt = .free
  idle : ∀ p, s.ctl p = .run .idle
  state : ∀ p, s.state p = .running
  data : s.data = ⟨0,false,[],[],[]⟩

theorem LogStart.start {s : St LogData Point n} (h : LogStart s) : Start (logClient size admits) s :=
  ⟨h.lk,h.pt,fun p => ⟨.idle,h.idle p,rfl⟩,h.state⟩

end Xv6.LogOps
