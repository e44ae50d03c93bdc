import Xv6.Lib.Token
import Xv6.Proc.Table

/-!
# The scheduler and the processors

`scheduler`, `sched` and the functions of `proc.c` that hold `ptable.lock`, run by any number
of processors. A processor is in the loop of `scheduler` or on the kernel stack of a process,
and `swtch` takes it from one to the other with the lock in hand. The stores to `c->proc`,
to the page directory register and to the states of processes are single steps. A process
that does not run has a saved context, which says what it does when `swtch` returns.
-/

set_option autoImplicit false

namespace Xv6.Sched
open Xv6.Table

/-- What a process does while it holds `ptable.lock`; `ret` only releases it. -/
inductive Task where
  | ret
  | yield
  | sleep
  | exit
  | wakeup
  | kill
  | alloc
  | fork
  | wait
  deriving DecidableEq

/-- A process in its own code, in a critical section, or in `sched` with its state changed. -/
inductive Th where
  | run
  | held (t : Task)
  | sched (k : Task)

/-- The point of a processor, on the stack of its scheduler or of a process. -/
inductive Pc (n : ℕ) where
  | idle
  | scan
  | chosen (p : Fin n)
  | loaded (p : Fin n)
  | marked (p : Fin n)
  | inProc (p : Fin n) (x : Th)
  | back (p : Fin n)
  | unloaded (p : Fin n)

variable {m n : ℕ}

/-- `ptable.lock` by the processor that has it, `c->proc`, the directory in `cr3` (`none` is
`kpgdir`), and for each slot the state, whether its stack and directory are there, the saved
context and the slot that its process is setting up in `fork`. -/
structure St (m n : ℕ) where
  lock : Option (Fin m)
  pc : Fin m → Pc n
  cur : Fin m → Option (Fin n)
  pgdir : Fin m → Option (Fin n)
  state : Fin n → ProcState
  alive : Fin n → Bool
  ctx : Fin n → Task
  new : Fin n → Option (Fin n × Bool)

def St.goto (s : St m n) (c : Fin m) (x : Pc n) : St m n := { s with pc := Function.update s.pc c x }

def St.setState (s : St m n) (p : Fin n) (v : ProcState) : St m n :=
  { s with state := Function.update s.state p v }

def St.setAlive (s : St m n) (p : Fin n) (v : Bool) : St m n :=
  { s with alive := Function.update s.alive p v }

def St.setNew (s : St m n) (p : Fin n) (v : Option (Fin n × Bool)) : St m n :=
  { s with new := Function.update s.new p v }

inductive Step (s : St m n) : St m n → Prop where
  | schedAcquire {c : Fin m} (hc : s.pc c = .idle) (hl : s.lock = none) :
      Step s { s.goto c .scan with lock := some c }
  | choose {c : Fin m} {p : Fin n} (hc : s.pc c = .scan) (hp : s.state p = .runnable) :
      Step s { s.goto c (.chosen p) with cur := Function.update s.cur c (some p) }
  | switchuvm {c : Fin m} {p : Fin n} (hc : s.pc c = .chosen p) :
      Step s { s.goto c (.loaded p) with pgdir := Function.update s.pgdir c (some p) }
  | setRunning {c : Fin m} {p : Fin n} (hc : s.pc c = .loaded p) :
      Step s ((s.goto c (.marked p)).setState p .running)
  | swtchIn {c : Fin m} {p : Fin n} (hc : s.pc c = .marked p) :
      Step s (s.goto c (.inProc p (.held (s.ctx p))))
  | switchkvm {c : Fin m} {p : Fin n} (hc : s.pc c = .back p) :
      Step s { s.goto c (.unloaded p) with pgdir := Function.update s.pgdir c none }
  | clearProc {c : Fin m} {p : Fin n} (hc : s.pc c = .unloaded p) :
      Step s { s.goto c .scan with cur := Function.update s.cur c none }
  | schedRelease {c : Fin m} (hc : s.pc c = .scan) : Step s { s.goto c .idle with lock := none }
  | acquire {c : Fin m} {p : Fin n} {t : Task} (hc : s.pc c = .inProc p .run) (hl : s.lock = none) :
      Step s { s.goto c (.inProc p (.held t)) with lock := some c }
  | release {c : Fin m} {p : Fin n} {t : Task} (hc : s.pc c = .inProc p (.held t))
      (ht : t ≠ .yield ∧ t ≠ .sleep ∧ t ≠ .exit) :
      Step s { s.goto c (.inProc p .run) with lock := none }
  | yield {c : Fin m} {p : Fin n} (hc : s.pc c = .inProc p (.held .yield)) :
      Step s ((s.goto c (.inProc p (.sched .ret))).setState p .runnable)
  | sleep {c : Fin m} {p : Fin n} (hc : s.pc c = .inProc p (.held .sleep)) :
      Step s ((s.goto c (.inProc p (.sched .ret))).setState p .sleeping)
  | waitSleep {c : Fin m} {p : Fin n} (hc : s.pc c = .inProc p (.held .wait)) :
      Step s ((s.goto c (.inProc p (.sched .wait))).setState p .sleeping)
  | exit {c : Fin m} {p : Fin n} (hc : s.pc c = .inProc p (.held .exit)) :
      Step s ((s.goto c (.inProc p (.sched .ret))).setState p .zombie)
  | swtchOut {c : Fin m} {p : Fin n} {k : Task} (hc : s.pc c = .inProc p (.sched k)) :
      Step s { s.goto c (.back p) with ctx := Function.update s.ctx p k }
  /-- `wakeup1` and `kill`. -/
  | wake {c : Fin m} {p q : Fin n} {t : Task} (hc : s.pc c = .inProc p (.held t))
      (ht : t = .exit ∨ t = .wakeup ∨ t = .kill) (hq : s.state q = .sleeping) :
      Step s (s.setState q .runnable)
  | allocproc {c : Fin m} {p q : Fin n} (hc : s.pc c = .inProc p (.held .alloc)) (hq : s.state q = .unused)
      (hn : s.new p = none) :
      Step s (((s.goto c (.inProc p (.held .ret))).setState q .embryo).setNew p (some (q, false)))
  | kalloc {c : Fin m} {p q : Fin n} (hc : s.pc c = .inProc p .run) (hn : s.new p = some (q, false)) :
      Step s { (s.setAlive q true).setNew p (some (q, true)) with ctx := Function.update s.ctx q .ret }
  | allocFail {c : Fin m} {p q : Fin n} (hc : s.pc c = .inProc p .run) (hn : s.new p = some (q, false)) :
      Step s ((s.setState q .unused).setNew p none)
  | forkFail {c : Fin m} {p q : Fin n} (hc : s.pc c = .inProc p .run) (hn : s.new p = some (q, true)) :
      Step s (((s.setAlive q false).setState q .unused).setNew p none)
  | fork {c : Fin m} {p q : Fin n} (hc : s.pc c = .inProc p (.held .fork)) (hn : s.new p = some (q, true)) :
      Step s (((s.goto c (.inProc p (.held .ret))).setState q .runnable).setNew p none)
  /-- `wait` frees the stack and the directory of a zombie. -/
  | reap {c : Fin m} {p q : Fin n} (hc : s.pc c = .inProc p (.held .wait)) (hq : s.state q = .zombie) :
      Step s (((s.goto c (.inProc p (.held .ret))).setAlive q false).setState q .unused)

inductive Reach (s₀ : St m n) : St m n → Prop where
  | start : Reach s₀ s₀
  | step {s s' : St m n} (h : Reach s₀ s) (hs : Step s s') : Reach s₀ s'

/-- Every processor is about to schedule; some slots have a process that is ready. -/
structure Start (s : St m n) : Prop where
  lock : s.lock = none
  pc : ∀ c, s.pc c = .idle
  cur : ∀ c, s.cur c = none
  pgdir : ∀ c, s.pgdir c = none
  slots : ∀ p, s.state p = .unused ∨ s.state p = .runnable ∧ s.alive p = true
  new : ∀ p, s.new p = none

/-! ### What a point says -/

def Pc.locked : Pc n → Bool
  | .idle => false
  | .inProc _ .run => false
  | _ => true

/-- The process in `c->proc`. -/
def Pc.proc : Pc n → Option (Fin n)
  | .idle => none
  | .scan => none
  | .chosen p => some p
  | .loaded p => some p
  | .marked p => some p
  | .inProc p _ => some p
  | .back p => some p
  | .unloaded p => some p

def Pc.dir : Pc n → Option (Fin n)
  | .loaded p => some p
  | .marked p => some p
  | .inProc p _ => some p
  | .back p => some p
  | _ => none

/-- The process has been marked and has not changed its state since. -/
def Pc.runs : Pc n → Bool
  | .marked _ => true
  | .inProc _ .run => true
  | .inProc _ (.held _) => true
  | _ => false

/-- A state between two runs. -/
def Rests (v : ProcState) : Prop := v = .runnable ∨ v = .sleeping ∨ v = .zombie

structure Inv (s : St m n) : Prop where
  lock : Token.Agrees some (fun x => Pc.locked x = true) s.lock s.pc
  cur : ∀ c, s.cur c = (s.pc c).proc
  pgdir : ∀ c, s.pgdir c = (s.pc c).dir
  own : ∀ c p, (s.pc c).proc = some p → s.alive p = true ∧
    if (s.pc c).runs then s.state p = .running else Rests (s.state p)
  one : ∀ c d p, (s.pc c).proc = some p → (s.pc d).proc = some p → c = d
  running : ∀ p, s.state p = .running → ∃ c, (s.pc c).proc = some p
  rests : ∀ p, Rests (s.state p) → s.alive p = true
  new : ∀ p q b, s.new p = some (q, b) → s.state q = .embryo ∧ (b = true → s.alive q = true)
  apart : ∀ p p' q b b', s.new p = some (q, b) → s.new p' = some (q, b') → p = p'

/-! ### What a step keeps -/

variable {s s' : St m n} {c d : Fin m} {p q : Fin n} {x : Pc n} {v : ProcState}

theorem locked_of_rests (hp : x.proc = some p) (hr : x.runs = false) : x.locked = true := by
  cases x with
  | idle => cases hp
  | inProc p x =>
    cases x with
    | run => cases hr
    | _ => rfl
  | _ => rfl

theorem Start.inv (h : Start s) : Inv s := by
  refine ⟨fun c => ?_,fun c => ?_,fun c => ?_,fun c p hp => ?_,fun c d p hp => ?_,fun p hp => ?_,fun p hp => ?_,
    fun p q b hp => ?_,fun p p' q b b' hp => ?_⟩
  · simp [h.lock, h.pc, Pc.locked]
  · rw [h.cur, h.pc]
    rfl
  · rw [h.pgdir, h.pc]
    rfl
  · rw [h.pc] at hp
    cases hp
  · rw [h.pc] at hp
    cases hp
  · rcases h.slots p with h1 | h1
    · cases h1.symm.trans hp
    · cases h1.1.symm.trans hp
  · rcases h.slots p with h1 | h1
    · rw [h1] at hp
      rcases hp with hp | hp | hp <;> cases hp
    · exact h1.2
  · rw [h.new] at hp
    cases hp
  · rw [h.new] at hp
    cases hp

/-- While one processor has the lock, the others run what they have in `c->proc`. -/
theorem Inv.unowned (h : Inv s) (hl : (s.pc c).locked = true) (hq : s.state q ≠ .running)
    (hne : (s.pc c).proc ≠ some q) (d : Fin m) : (s.pc d).proc ≠ some q := by
  intro hd
  have hown := (h.own d q hd).2
  cases hr : (s.pc d).runs with
  | true =>
    rw [hr, if_pos rfl] at hown
    exact hq hown
  | false =>
    obtain rfl := h.lock.unique (Option.some_injective _) (locked_of_rests hd hr) hl
    exact hne hd

theorem Inv.owned (h : Inv s) (hp : (s.pc c).proc = some p) : s.state p ≠ .embryo ∧ s.state p ≠ .unused := by
  have hown := (h.own c p hp).2
  split at hown
  · rw [hown]
    decide
  · rcases hown with hv | hv | hv <;> rw [hv] <;> decide

/-- A processor moves on with the process it has. The processes that no processor has may
change, but do not begin to run. -/
theorem Inv.go (h : Inv s) (hpc : s'.pc = Function.update s.pc c x)
    (hlock : Token.Agrees some (fun x => Pc.locked x = true) s'.lock (Function.update s.pc c x))
    (hcur : s'.cur = s.cur) (hdir : s'.pgdir c = x.dir) (hdirs : ∀ d, d ≠ c → s'.pgdir d = s.pgdir d)
    (hproc : x.proc = (s.pc c).proc) (hruns : x.runs = (s.pc c).runs)
    (hsame : ∀ d r, (s.pc d).proc = some r → s'.state r = s.state r ∧ s'.alive r = s.alive r)
    (hrun : ∀ r, s'.state r = .running → s.state r = .running)
    (hrests : ∀ r, Rests (s'.state r) → s'.alive r = true)
    (hnew : ∀ r q b, s'.new r = some (q, b) → s'.state q = .embryo ∧ (b = true → s'.alive q = true))
    (hapart : ∀ r r' q b b', s'.new r = some (q, b) → s'.new r' = some (q, b') → r = r') : Inv s' := by
  have hp : ∀ d, (s'.pc d).proc = (s.pc d).proc ∧ (s'.pc d).runs = (s.pc d).runs := by
    intro d
    rw [hpc]
    by_cases hd : d = c
    · rw [hd, Function.update_self]
      exact ⟨hproc,hruns⟩
    · rw [Function.update_of_ne hd]
      exact ⟨rfl,rfl⟩
  refine ⟨hpc ▸ hlock,fun d => ?_,fun d => ?_,fun d r hd => ?_,fun d e r hd he => ?_,fun r hr => ?_,hrests,hnew,hapart⟩
  · rw [hcur, (hp d).1]
    exact h.cur d
  · rw [hpc]
    by_cases hd : d = c
    · rw [hd, Function.update_self, hdir]
    · rw [Function.update_of_ne hd, hdirs d hd]
      exact h.pgdir d
  · rw [(hp d).1] at hd
    rw [(hp d).2, (hsame d r hd).1, (hsame d r hd).2]
    exact h.own d r hd
  · rw [(hp d).1] at hd
    rw [(hp e).1] at he
    exact h.one d e r hd he
  · obtain ⟨d,hd⟩ := h.running r (hrun r hr)
    exact ⟨d,by rw [(hp d).1]; exact hd⟩

theorem Inv.stay (h : Inv s) (hpc : s'.pc = Function.update s.pc c x)
    (hlock : Token.Agrees some (fun x => Pc.locked x = true) s'.lock (Function.update s.pc c x))
    (hcur : s'.cur = s.cur) (hdir : s'.pgdir c = x.dir) (hdirs : ∀ d, d ≠ c → s'.pgdir d = s.pgdir d)
    (hproc : x.proc = (s.pc c).proc) (hruns : x.runs = (s.pc c).runs)
    (hst : s'.state = s.state) (hal : s'.alive = s.alive) (hn : s'.new = s.new) : Inv s' := by
  refine h.go hpc hlock hcur hdir hdirs hproc hruns (fun _ _ _ => ?_) ?_ ?_ ?_ ?_
  · rw [hst, hal]
    exact ⟨rfl,rfl⟩
  · rw [hst]
    exact fun _ hr => hr
  · rw [hst, hal]
    exact h.rests
  · rw [hst, hal, hn]
    exact h.new
  · rw [hn]
    exact h.apart

theorem Inv.turn (h : Inv s) (hp : (s.pc c).proc = some p) (hx : x.proc = some p)
    (hlock : x.locked = (s.pc c).locked) (hdir : x.dir = (s.pc c).dir)
    (hv : if x.runs then v = .running else Rests v) : Inv ((s.goto c x).setState p v) := by
  have hproc : ∀ d, (Function.update s.pc c x d).proc = (s.pc d).proc := by
    intro d
    by_cases hd : d = c
    · rw [hd, Function.update_self, hx, hp]
    · rw [Function.update_of_ne hd]
  have halive := (h.own c p hp).1
  refine ⟨h.lock.keep (by rw [hlock]),fun d => ?_,fun d => ?_,fun d r hd => ?_,fun d e r hd he => ?_,fun r hr => ?_,
    fun r hr => ?_,fun r q b hr => ?_,h.apart⟩
  · exact (h.cur d).trans (hproc d).symm
  · refine (h.pgdir d).trans ?_
    change (s.pc d).dir = (Function.update s.pc c x d).dir
    by_cases hd : d = c
    · rw [hd, Function.update_self, hdir]
    · rw [Function.update_of_ne hd]
  · have hd' : (s.pc d).proc = some r := (hproc d).symm.trans hd
    change s.alive r = true ∧ if (Function.update s.pc c x d).runs then Function.update s.state p v r = _
      else Rests (Function.update s.state p v r)
    by_cases hdc : d = c
    · obtain rfl : p = r := Option.some.inj (hp.symm.trans (hdc ▸ hd'))
      rw [hdc, Function.update_self, Function.update_self]
      exact ⟨halive,hv⟩
    · have hrp : r ≠ p := fun hrp => hdc (h.one d c p (hrp ▸ hd') hp)
      rw [Function.update_of_ne hdc, Function.update_of_ne hrp]
      exact h.own d r hd'
  · exact h.one d e r ((hproc d).symm.trans hd) ((hproc e).symm.trans he)
  · by_cases hrp : r = p
    · exact ⟨c,(hproc c).trans (hrp ▸ hp)⟩
    · obtain ⟨d,hd⟩ := h.running r ((Function.update_of_ne hrp ..).symm.trans hr)
      exact ⟨d,(hproc d).trans hd⟩
  · by_cases hrp : r = p
    · rw [hrp]
      exact halive
    · refine h.rests r ?_
      change Rests (Function.update s.state p v r) at hr
      rwa [Function.update_of_ne hrp] at hr
  · obtain ⟨he,hb⟩ := h.new r q b hr
    have hqp : q ≠ p := fun hqp => (h.owned hp).1 (hqp ▸ he)
    exact ⟨(Function.update_of_ne hqp ..).trans he,hb⟩

/-- Two points of a processor that differ in its critical section only. -/
def Pc.Like (x y : Pc n) : Prop := x.proc = y.proc ∧ x.runs = y.runs ∧ x.locked = y.locked ∧ x.dir = y.dir

theorem Inv.touch (h : Inv s) (hx : x.Like (s.pc c)) (hpc : s'.pc = Function.update s.pc c x)
    (hkeep : s'.lock = s.lock ∧ s'.cur = s.cur ∧ s'.pgdir = s.pgdir) {a : Bool} {y : Option (Fin n × Bool)}
    (hst : s'.state = Function.update s.state q v) (hal : s'.alive = Function.update s.alive q a)
    (hn : s'.new = Function.update s.new p y) (hq : ∀ d, (s.pc d).proc ≠ some q) (hv : v ≠ .running)
    (hr : Rests v → a = true)
    (hy : ∀ r b, y = some (r, b) → r = q ∧ v = .embryo ∧ (b = true → a = true) ∨ r ≠ q ∧ s.new p = some (r, b))
    (hothers : ∀ r b, r ≠ p → s.new r ≠ some (q, b)) : Inv s' := by
  have hnew : ∀ r q' b, s'.new r = some (q', b) → (r = p ∧ q' = q ∧ v = .embryo ∧ (b = true → a = true)) ∨
      q' ≠ q ∧ s.new r = some (q', b) := by
    intro r q' b hrb
    rw [hn] at hrb
    by_cases hrp : r = p
    · rw [hrp, Function.update_self] at hrb
      rcases hy q' b hrb with hy' | hy'
      · exact .inl ⟨hrp,hy'⟩
      · exact .inr (hrp ▸ hy')
    · rw [Function.update_of_ne hrp] at hrb
      exact .inr ⟨fun hqq => hothers r b hrp (hqq ▸ hrb),hrb⟩
  refine h.go hpc ?_ hkeep.2.1 ?_ (fun d _ => by rw [hkeep.2.2]) hx.1 hx.2.1 (fun d r hd => ?_) (fun r hrun => ?_)
    (fun r hrests => ?_) (fun r q' b hrb => ?_) (fun r r' q' b b' hrb hrb' => ?_)
  · rw [hkeep.1]
    exact h.lock.keep (by rw [hx.2.2.1])
  · rw [hkeep.2.2, h.pgdir, hx.2.2.2]
  · have hrq : r ≠ q := fun hrq => hq d (hrq ▸ hd)
    rw [hst, hal, Function.update_of_ne hrq, Function.update_of_ne hrq]
    exact ⟨rfl,rfl⟩
  · rw [hst] at hrun
    by_cases hrq : r = q
    · rw [hrq, Function.update_self] at hrun
      exact absurd hrun hv
    · rwa [Function.update_of_ne hrq] at hrun
  · rw [hst] at hrests
    rw [hal]
    by_cases hrq : r = q
    · rw [hrq, Function.update_self] at hrests ⊢
      exact hr hrests
    · rw [Function.update_of_ne hrq] at hrests ⊢
      exact h.rests r hrests
  · rw [hst, hal]
    rcases hnew r q' b hrb with ⟨-,rfl,he,hb⟩ | ⟨hqq,hold⟩
    · rw [Function.update_self, Function.update_self]
      exact ⟨he,hb⟩
    · rw [Function.update_of_ne hqq, Function.update_of_ne hqq]
      exact h.new r q' b hold
  · rcases hnew r q' b hrb with ⟨rfl,rfl,-⟩ | ⟨hqq,hold⟩
    · rcases hnew r' q' b' hrb' with ⟨rfl,-⟩ | ⟨hne,-⟩
      · rfl
      · exact absurd rfl hne
    · rcases hnew r' q' b' hrb' with ⟨-,hqq',-⟩ | ⟨-,hold'⟩
      · exact absurd hqq' hqq
      · exact h.apart r r' q' b b' hold hold'

theorem Inv.no_other (h : Inv s) (hq : s.state q ≠ .embryo ∨ ∃ b, s.new p = some (q, b)) (r : Fin n) (b : Bool)
    (hrp : r ≠ p) : s.new r ≠ some (q, b) := by
  intro hr
  rcases hq with hq | ⟨b',hp⟩
  · exact hq (h.new r q b hr).1
  · exact hrp (h.apart r p q b b' hr hp)

theorem Inv.pick (h : Inv s) (hl : (s.pc c).locked = true) (hx : x.locked = true) (hdir : (s.pc c).dir = x.dir)
    (hown : ∀ r, x.proc = some r → s.alive r = true ∧ x.runs = false ∧ Rests (s.state r))
    (hone : ∀ r, x.proc = some r → ∀ d, (s.pc d).proc ≠ some r)
    (hlost : ∀ r, (s.pc c).proc = some r → s.state r ≠ .running) :
    Inv { s.goto c x with cur := Function.update s.cur c x.proc } := by
  have hpc : ∀ d r, (Function.update s.pc c x d).proc = some r →
      (d = c ∧ x.proc = some r) ∨ d ≠ c ∧ (s.pc d).proc = some r := by
    intro d r hd
    by_cases hdc : d = c
    · rw [hdc, Function.update_self] at hd
      exact .inl ⟨hdc,hd⟩
    · rw [Function.update_of_ne hdc] at hd
      exact .inr ⟨hdc,hd⟩
  refine ⟨h.lock.keep (by rw [hl, hx]),fun d => ?_,fun d => ?_,fun d r hd => ?_,fun d e r hd he => ?_,fun r hr => ?_,
    h.rests,h.new,h.apart⟩
  · change Function.update s.cur c x.proc d = (Function.update s.pc c x d).proc
    by_cases hdc : d = c
    · rw [hdc, Function.update_self, Function.update_self]
    · rw [Function.update_of_ne hdc, Function.update_of_ne hdc]
      exact h.cur d
  · change s.pgdir d = (Function.update s.pc c x d).dir
    by_cases hdc : d = c
    · rw [hdc, Function.update_self, ← hdir]
      exact h.pgdir c
    · rw [Function.update_of_ne hdc]
      exact h.pgdir d
  · change s.alive r = true ∧ if (Function.update s.pc c x d).runs then s.state r = _ else Rests (s.state r)
    rcases hpc d r hd with ⟨rfl,hx'⟩ | ⟨hdc,hd'⟩
    · obtain ⟨h1,h2,h3⟩ := hown r hx'
      rw [Function.update_self, h2]
      exact ⟨h1,h3⟩
    · rw [Function.update_of_ne hdc]
      exact h.own d r hd'
  · rcases hpc d r hd with ⟨rfl,hx'⟩ | ⟨-,hd'⟩ <;> rcases hpc e r he with ⟨rfl,he'⟩ | ⟨-,he''⟩
    · rfl
    · exact absurd he'' (hone r hx' e)
    · exact absurd hd' (hone r he' d)
    · exact h.one d e r hd' he''
  · obtain ⟨d,hd⟩ := h.running r hr
    have hdc : d ≠ c := fun hdc => hlost r (hdc ▸ hd) hr
    exact ⟨d,(congrArg Pc.proc (Function.update_of_ne hdc ..)).trans hd⟩

theorem Inv.step (h : Inv s) (hs : Step s s') : Inv s' := by
  have hinj : Function.Injective (some : Fin m → Option (Fin m)) := Option.some_injective _
  have hdir : ∀ {c : Fin m} {x : Pc n} {y}, s.pc c = x → x.dir = y → s.pgdir c = y := by
    rintro c x y rfl rfl
    exact h.pgdir c
  have hself : ∀ c : Fin m, s.pc = Function.update s.pc c (s.pc c) := fun c => (Function.update_eq_self ..).symm
  have hlike : ∀ c : Fin m, (s.pc c).Like (s.pc c) := fun c => ⟨rfl,rfl,rfl,rfl⟩
  have hin : ∀ {c : Fin m} {p : Fin n} {t t' : Task}, s.pc c = .inProc p (.held t) →
      (Pc.inProc p (.held t')).Like (s.pc c) := by
    intro c p t t' hc
    rw [hc]
    exact ⟨rfl,rfl,rfl,rfl⟩
  -- the processor with the lock is in a process that runs, so it does not have a slot at rest
  have hfree : ∀ {c : Fin m} {p q : Fin n} {t : Task}, s.pc c = .inProc p (.held t) → s.state q ≠ .running →
      ∀ d, (s.pc d).proc ≠ some q := by
    intro c p q t hc hq
    refine h.unowned (by rw [hc]; rfl) hq fun hp => ?_
    have hrun := (h.own c q hp).2
    rw [hc] at hrun
    exact hq hrun
  have hembryo : ∀ {p q : Fin n} {b : Bool}, s.new p = some (q, b) → ∀ d, (s.pc d).proc ≠ some q :=
    fun hn d hd => (h.owned hd).1 (h.new _ _ _ hn).1
  cases hs with
  | @schedAcquire c hc hl =>
    exact h.stay rfl (h.lock.take hinj (by simp [hl]) rfl) rfl (hdir hc rfl) (fun _ _ => rfl)
      (by rw [hc]; rfl) (by rw [hc]; rfl) rfl rfl rfl
  | @choose c p hc hp =>
    refine h.pick (by rw [hc]; rfl) rfl (by rw [hc]; rfl) ?_ ?_ (by rw [hc]; rintro r ⟨⟩)
    · rintro r ⟨⟩
      exact ⟨h.rests p (.inl hp),rfl,.inl hp⟩
    · rintro r ⟨⟩
      exact h.unowned (by rw [hc]; rfl) (by rw [hp]; decide) (by rw [hc]; rintro ⟨⟩)
  | @switchuvm c p hc =>
    exact h.stay rfl (h.lock.keep (by rw [hc]; rfl)) rfl (Function.update_self ..)
      (fun d hd => Function.update_of_ne hd ..) (by rw [hc]; rfl) (by rw [hc]; rfl) rfl rfl rfl
  | @setRunning c p hc =>
    exact h.turn (by rw [hc]; rfl) rfl (by rw [hc]; rfl) (by rw [hc]; rfl) rfl
  | @swtchIn c p hc =>
    exact h.stay rfl (h.lock.keep (by rw [hc]; rfl)) rfl (hdir hc rfl) (fun _ _ => rfl)
      (by rw [hc]; rfl) (by rw [hc]; rfl) rfl rfl rfl
  | @switchkvm c p hc =>
    exact h.stay rfl (h.lock.keep (by rw [hc]; rfl)) rfl (Function.update_self ..)
      (fun d hd => Function.update_of_ne hd ..) (by rw [hc]; rfl) (by rw [hc]; rfl) rfl rfl rfl
  | @clearProc c p hc =>
    refine h.pick (by rw [hc]; rfl) rfl (by rw [hc]; rfl) (by rintro r ⟨⟩) (by rintro r ⟨⟩) fun r hr hrun => ?_
    have hrests := (h.own c r hr).2
    rw [hc, hrun] at hrests
    rcases hrests with hv | hv | hv <;> cases hv
  | @schedRelease c hc =>
    exact h.stay rfl (h.lock.drop hinj (by rw [hc]; rfl) (by simp) (by simp [Pc.locked])) rfl (hdir hc rfl)
      (fun _ _ => rfl) (by rw [hc]; rfl) (by rw [hc]; rfl) rfl rfl rfl
  | @acquire c p t hc hl =>
    exact h.stay rfl (h.lock.take hinj (by simp [hl]) rfl) rfl (hdir hc rfl) (fun _ _ => rfl)
      (by rw [hc]; rfl) (by rw [hc]; rfl) rfl rfl rfl
  | @release c p t hc ht =>
    exact h.stay rfl (h.lock.drop hinj (by rw [hc]; rfl) (by simp) (by simp [Pc.locked])) rfl (hdir hc rfl)
      (fun _ _ => rfl) (by rw [hc]; rfl) (by rw [hc]; rfl) rfl rfl rfl
  | @yield c p hc => exact h.turn (by rw [hc]; rfl) rfl (by rw [hc]; rfl) (by rw [hc]; rfl) (.inl rfl)
  | @sleep c p hc => exact h.turn (by rw [hc]; rfl) rfl (by rw [hc]; rfl) (by rw [hc]; rfl) (.inr (.inl rfl))
  | @waitSleep c p hc => exact h.turn (by rw [hc]; rfl) rfl (by rw [hc]; rfl) (by rw [hc]; rfl) (.inr (.inl rfl))
  | @exit c p hc => exact h.turn (by rw [hc]; rfl) rfl (by rw [hc]; rfl) (by rw [hc]; rfl) (.inr (.inr rfl))
  | @swtchOut c p k hc =>
    exact h.stay rfl (h.lock.keep (by rw [hc]; rfl)) rfl (hdir hc rfl) (fun _ _ => rfl)
      (by rw [hc]; rfl) (by rw [hc]; rfl) rfl rfl rfl
  | @wake c p q t hc ht hq =>
    have halive : s.alive = Function.update s.alive q true := by
      rw [← h.rests q (.inr (.inl hq)), Function.update_eq_self]
    have hnew : ∀ r b, s.new p = some (r, b) → r ≠ q := by
      rintro r b hr rfl
      cases hq.symm.trans (h.new p r b hr).1
    exact h.touch (hlike c) (hself c) ⟨rfl,rfl,rfl⟩ rfl halive (Function.update_eq_self ..).symm
      (hfree hc (by rw [hq]; decide)) (by decide) (fun _ => rfl) (fun r b hr => .inr ⟨hnew r b hr,hr⟩)
      (h.no_other (.inl (by rw [hq]; decide)))
  | @allocproc c p q hc hq hn =>
    refine h.touch (hin hc) rfl ⟨rfl,rfl,rfl⟩ rfl (Function.update_eq_self ..).symm rfl
      (hfree hc (by rw [hq]; decide)) (by decide) ?_ ?_ (h.no_other (.inl (by rw [hq]; decide)))
    · rintro (hv | hv | hv) <;> cases hv
    · rintro r b ⟨⟩
      exact .inl ⟨rfl,rfl,by rintro ⟨⟩⟩
  | @kalloc c p q hc hn =>
    have hstate : s.state = Function.update s.state q .embryo := by
      rw [← (h.new p q false hn).1, Function.update_eq_self]
    refine h.touch (hlike c) (hself c) ⟨rfl,rfl,rfl⟩ hstate rfl rfl (hembryo hn) (by decide) (fun _ => rfl) ?_
      (h.no_other (.inr ⟨_,hn⟩))
    rintro r b ⟨⟩
    exact .inl ⟨rfl,rfl,fun _ => rfl⟩
  | @allocFail c p q hc hn =>
    refine h.touch (hlike c) (hself c) ⟨rfl,rfl,rfl⟩ rfl (Function.update_eq_self ..).symm rfl (hembryo hn) (by decide)
      ?_ (by rintro r b ⟨⟩) (h.no_other (.inr ⟨_,hn⟩))
    rintro (hv | hv | hv) <;> cases hv
  | @forkFail c p q hc hn =>
    refine h.touch (hlike c) (hself c) ⟨rfl,rfl,rfl⟩ rfl rfl rfl (hembryo hn) (by decide)
      ?_ (by rintro r b ⟨⟩) (h.no_other (.inr ⟨_,hn⟩))
    rintro (hv | hv | hv) <;> cases hv
  | @fork c p q hc hn =>
    have halive : s.alive = Function.update s.alive q true := by
      rw [← (h.new p q true hn).2 rfl, Function.update_eq_self]
    exact h.touch (hin hc) rfl ⟨rfl,rfl,rfl⟩ rfl halive rfl (hembryo hn) (by decide)
      (fun _ => rfl) (by rintro r b ⟨⟩) (h.no_other (.inr ⟨_,hn⟩))
  | @reap c p q hc hq =>
    have hnew : ∀ r b, s.new p = some (r, b) → r ≠ q := by
      rintro r b hr rfl
      cases hq.symm.trans (h.new p r b hr).1
    refine h.touch (hin hc) rfl ⟨rfl,rfl,rfl⟩ rfl rfl (Function.update_eq_self ..).symm
      (hfree hc (by rw [hq]; decide)) (by decide) ?_ (fun r b hr => .inr ⟨hnew r b hr,hr⟩)
      (h.no_other (.inl (by rw [hq]; decide)))
    rintro (hv | hv | hv) <;> cases hv

theorem Reach.inv {s₀ : St m n} (h₀ : Start s₀) (h : Reach s₀ s) : Inv s := by
  induction h with
  | start => exact h₀.inv
  | step _ hs ih => exact ih.step hs

end Xv6.Sched
