import Xv6.Lib.Ring
import Xv6.Proc.Killing

/-!
# Pipes

`pipewrite`, `piperead` and `pipeclose` of `pipe.c` as a client of `sleep`,
`wakeup` and `kill`, run by any number of processes on one pipe. A step is a lock
operation, the transfer of one byte, or a test under `p->lock`. The lists `stored`
and `taken` record the bytes that went into the ring and those that `piperead`
delivered; no move reads them.
-/

set_option autoImplicit false

namespace Xv6.Pipes
open Xv6.Sleep Xv6.Ring

def PIPESIZE : ℕ := 512

/-- The channels `&p->nread` and `&p->nwrite`. -/
def nreadChan : ℕ := 0
def nwriteChan : ℕ := 1

structure Pipe (n : ℕ) where
  data : ℕ → UInt8
  nread : BitVec 32
  nwrite : BitVec 32
  readopen : Bool
  writeopen : Bool
  killed : Fin n → Bool
  stored : List UInt8
  taken : List UInt8

variable {n : ℕ}

/-- The pipe that `pipealloc` sets up on a page of any contents. -/
def pipealloc (data : ℕ → UInt8) (killed : Fin n → Bool) : Pipe n :=
  ⟨data,0,0,true,true,killed,[],[]⟩

def Pipe.full (d : Pipe n) : Prop := d.nwrite = d.nread+BitVec.ofNat 32 PIPESIZE

def Pipe.empty (d : Pipe n) : Prop := d.nread = d.nwrite

instance (d : Pipe n) : Decidable d.full := inferInstanceAs (Decidable (_ = _))

instance (d : Pipe n) : Decidable d.empty := inferInstanceAs (Decidable (_ = _))

/-- `p->data[p->nwrite++ % PIPESIZE] = b` -/
def Pipe.put (d : Pipe n) (b : UInt8) : Pipe n :=
  { d with
    data := Function.update d.data (d.nwrite.toNat%PIPESIZE) b
    nwrite := d.nwrite+1
    stored := d.stored++[b] }

/-- `p->data[p->nread++ % PIPESIZE]` -/
def Pipe.get (d : Pipe n) : Pipe n :=
  { d with
    nread := d.nread+1
    taken := d.taken++[d.data (d.nread.toNat%PIPESIZE)] }

def Pipe.close (d : Pipe n) (writable : Bool) : Pipe n :=
  if writable then { d with writeopen := false } else { d with readopen := false }

def Pipe.kill (q : Fin n) (d : Pipe n) : Pipe n :=
  { d with killed := Function.update d.killed q true }

/-- Where a process is in the code of `pipe.c`. The bytes that a writer has yet to
store come with the length `len` of its buffer, and `fresh` says that it has stored a
byte since it last woke the readers or took the lock; a reader has `m` bytes of room
left and has delivered `i`; `leave r` is about to release the lock and return `r`. -/
inductive Point where
  | outside
  | writeEnter (buf : List UInt8)
  | store (len : ℕ) (buf : List UInt8) (fresh : Bool)
  | blocked (len : ℕ) (buf : List UInt8)
  | readEnter (m : ℕ)
  | test (m : ℕ)
  | copy (m i : ℕ)
  | closeEnter (writable : Bool)
  | close (writable : Bool)
  | closed (writable : Bool)
  | leave (r : ℤ)

def Point.holds : Point → Bool
  | .outside => false
  | .writeEnter _ => false
  | .readEnter _ => false
  | .closeEnter _ => false
  | _ => true

/-- The moves of the process `me`. A writer that gives up after it has stored bytes
which no reader was woken for needs `quits`. -/
inductive PipeMove (quits : Prop) (me : Fin n) :
    Move → Point → Pipe n → Point → Pipe n → Prop where
  | pipewrite {d : Pipe n} (buf : List UInt8) :
      PipeMove quits me .work .outside d (.writeEnter buf) d
  | writeLock {d : Pipe n} {buf : List UInt8} :
      PipeMove quits me .acquire (.writeEnter buf) d (.store buf.length buf false) d
  | put {d : Pipe n} {len : ℕ} {b : UInt8} {buf : List UInt8} {fresh : Bool} (hf : ¬ d.full) :
      PipeMove quits me .work (.store len (b::buf) fresh) d (.store len buf true) (d.put b)
  | giveUp {d : Pipe n} {len : ℕ} {b : UInt8} {buf : List UInt8} {fresh : Bool} (hf : d.full)
      (hk : d.readopen = false ∨ d.killed me = true) (hq : fresh = true → quits) :
      PipeMove quits me .work (.store len (b::buf) fresh) d (.leave (-1)) d
  | block {d : Pipe n} {len : ℕ} {b : UInt8} {buf : List UInt8} {fresh : Bool} (hf : d.full)
      (ho : d.readopen = true) (hk : d.killed me = false) :
      PipeMove quits me (.wakeup nreadChan) (.store len (b::buf) fresh) d (.blocked len (b::buf)) d
  | writeSleep {d : Pipe n} {len : ℕ} {buf : List UInt8} :
      PipeMove quits me (.sleep nwriteChan) (.blocked len buf) d (.store len buf false) d
  | written {d : Pipe n} {len : ℕ} {fresh : Bool} :
      PipeMove quits me (.wakeup nreadChan) (.store len [] fresh) d (.leave len) d
  | piperead {d : Pipe n} (m : ℕ) : PipeMove quits me .work .outside d (.readEnter m) d
  | readLock {d : Pipe n} {m : ℕ} : PipeMove quits me .acquire (.readEnter m) d (.test m) d
  | readKilled {d : Pipe n} {m : ℕ} (he : d.empty) (ho : d.writeopen = true)
      (hk : d.killed me = true) : PipeMove quits me .work (.test m) d (.leave (-1)) d
  | readSleep {d : Pipe n} {m : ℕ} (he : d.empty) (ho : d.writeopen = true)
      (hk : d.killed me = false) :
      PipeMove quits me (.sleep nreadChan) (.test m) d (.test m) d
  | ready {d : Pipe n} {m : ℕ} (h : ¬ (d.empty ∧ d.writeopen = true)) :
      PipeMove quits me .work (.test m) d (.copy m 0) d
  | get {d : Pipe n} {m i : ℕ} (h : ¬ d.empty) :
      PipeMove quits me .work (.copy (m+1) i) d (.copy m (i+1)) d.get
  | delivered {d : Pipe n} {m i : ℕ} (h : m = 0 ∨ d.empty) :
      PipeMove quits me (.wakeup nwriteChan) (.copy m i) d (.leave i) d
  | pipeclose {d : Pipe n} (writable : Bool) :
      PipeMove quits me .work .outside d (.closeEnter writable) d
  | closeLock {d : Pipe n} {writable : Bool} :
      PipeMove quits me .acquire (.closeEnter writable) d (.close writable) d
  | close {d : Pipe n} {writable : Bool} :
      PipeMove quits me .work (.close writable) d (.closed writable) (d.close writable)
  | closed {d : Pipe n} {writable : Bool} :
      PipeMove quits me (.wakeup (if writable then nreadChan else nwriteChan)) (.closed writable) d
        (.leave 0) d
  | leave {d : Pipe n} {r : ℤ} : PipeMove quits me .release (.leave r) d .outside d

/-- A point comes with the process it belongs to, which `myproc()->killed` reads. -/
def pipeClient (n : ℕ) (quits : Prop) : Client (Pipe n) (Fin n × Point) where
  holds k := k.2.holds
  move m k d k' d' := k'.1 = k.1 ∧ PipeMove quits k.1 m k.2 d k'.2 d'
  acquire_ok := by
    rintro ⟨p,k⟩ ⟨p',k'⟩ d d' ⟨-,h⟩
    cases h <;> exact ⟨rfl,rfl,rfl⟩
  release_ok := by
    rintro ⟨p,k⟩ ⟨p',k'⟩ d d' ⟨-,h⟩
    cases h
    exact ⟨rfl,rfl,rfl⟩
  work_ok := by
    rintro ⟨p,k⟩ ⟨p',k'⟩ d d' ⟨-,h⟩
    cases h <;> rfl
  sleep_ok := by
    rintro c ⟨p,k⟩ ⟨p',k'⟩ d d' ⟨-,h⟩
    cases h <;> exact ⟨rfl,rfl,rfl⟩
  wakeup_ok := by
    rintro c ⟨p,k⟩ ⟨p',k'⟩ d d' ⟨-,h⟩
    cases h <;> exact ⟨rfl,rfl⟩

theorem PipeMove.client {quits : Prop} {me : Fin n} {m : Move} {k k' : Point} {d d' : Pipe n}
    (h : PipeMove quits me m k d k' d') : (pipeClient n quits).move m (me,k) d (me,k') d' :=
  ⟨rfl,h⟩

abbrev PipeSt (n : ℕ) : Type := St (Pipe n) (Fin n × Point) n

/-- A new pipe, and every process outside the code of `pipe.c`. -/
def pipeStart (data : ℕ → UInt8) (killed : Fin n → Bool) : PipeSt n :=
  ⟨pipealloc data killed,none,.free,fun p => .run (p,.outside),fun _ => .running,fun _ => none⟩

theorem pipe_start (quits : Prop) (data : ℕ → UInt8) (killed : Fin n → Bool) :
    Start (pipeClient n quits) (pipeStart data killed) :=
  ⟨rfl,rfl,fun p => ⟨(p,.outside),rfl,rfl⟩,fun _ => rfl⟩

/-! ## Lossless first in, first out -/

/-- The bytes in the ring: `nwrite-nread` of them, from the slot of `nread` on. -/
def Pipe.unread (d : Pipe n) : List UInt8 :=
  contents PIPESIZE d.data d.nread.toNat (d.nwrite-d.nread).toNat

def Pipe.Queue (d : Pipe n) : Prop :=
  Fifo PIPESIZE d.data d.nread d.nwrite d.stored d.taken

theorem pipealloc_queue (data : ℕ → UInt8) (killed : Fin n → Bool) :
    (pipealloc data killed).Queue :=
  ⟨⟨2^23,rfl⟩,by decide,by simp [pipealloc],rfl,rfl,rfl⟩

theorem close_queue {d : Pipe n} (h : d.Queue) (writable : Bool) : (d.close writable).Queue := by
  cases writable <;> exact h

theorem move_queue {quits : Prop} {me : Fin n} {m : Move} {k k' : Point} {d d' : Pipe n}
    (h : d.Queue) (hm : PipeMove quits me m k d k' d') : d'.Queue := by
  cases hm with
  | put hf => exact Fifo.push h _ hf
  | get he => exact Fifo.pop h he
  | close => exact close_queue h _
  | _ => exact h

theorem reach_queue {quits : Prop} {data : ℕ → UInt8} {killed : Fin n → Bool} {s : PipeSt n}
    (h : KReach (pipeClient n quits) Pipe.kill (pipeStart data killed) s) : s.data.Queue := by
  apply h.points (J := fun d _ => d.Queue) (pipealloc_queue data killed)
  · rintro m p pts d k' d' hq ⟨-,hm⟩
    exact move_queue hq hm
  · intro q pts d hq
    exact hq

/-- In every state of every run of any number of readers, writers, closers and
killers, the counters are at most `PIPESIZE` apart modulo `2^32`, and the bytes
stored are those delivered, in order, followed by the bytes in the ring. -/
theorem pipe_lossless {data : ℕ → UInt8} {killed : Fin n → Bool} {s : PipeSt n}
    (h : KReach (pipeClient n True) Pipe.kill (pipeStart data killed) s) :
    (s.data.nwrite-s.data.nread).toNat ≤ PIPESIZE ∧
      s.data.stored = s.data.taken++s.data.unread := by
  have hq : s.data.Queue := reach_queue h
  refine ⟨?_,Fifo.unread hq⟩
  have hcap := Fifo.cap hq
  rw [Fifo.count hq]
  omega

/-- One process stores two bytes and takes the first of them out again. -/
theorem pipe_lossless_two : ∃ s : PipeSt 1,
    KReach (pipeClient 1 True) Pipe.kill (pipeStart (fun _ => 0) (fun _ => false)) s ∧
      s.data.taken = [65] ∧ s.data.stored = 65::s.data.unread := by
  have hr : KReach (pipeClient 1 True) Pipe.kill (pipeStart (fun _ => 0) (fun _ => false))
    (pipeStart (fun _ => 0) (fun _ => false)) := KReach.start
  replace hr := hr.step (.step (Step.work (p := 0) rfl (PipeMove.pipewrite [65,66]).client))
  replace hr := hr.step (.step (Step.acquire (p := 0) rfl PipeMove.writeLock.client rfl))
  replace hr := hr.step (.step (Step.work (p := 0) rfl (PipeMove.put (by decide)).client))
  replace hr := hr.step (.step (Step.work (p := 0) rfl (PipeMove.put (by decide)).client))
  replace hr := hr.step (.step (Step.wakeup (p := 0) rfl PipeMove.written.client))
  replace hr := hr.step (.step (Step.wakeupPt (p := 0) rfl rfl))
  replace hr := hr.step (.step (Step.wakeupScan (p := 0) (q := 0) rfl))
  replace hr := hr.step (.step (Step.wakeupReturn (p := 0) rfl))
  replace hr := hr.step (.step (Step.release (p := 0) rfl PipeMove.leave.client))
  replace hr := hr.step (.step (Step.work (p := 0) rfl (PipeMove.piperead 1).client))
  replace hr := hr.step (.step (Step.acquire (p := 0) rfl PipeMove.readLock.client rfl))
  replace hr := hr.step (.step (Step.work (p := 0) rfl (PipeMove.ready (by decide)).client))
  replace hr := hr.step (.step (Step.work (p := 0) rfl (PipeMove.get (by decide)).client))
  exact ⟨_,hr,rfl,(pipe_lossless hr).2⟩

end Xv6.Pipes
