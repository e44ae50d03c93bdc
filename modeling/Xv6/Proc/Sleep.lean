import Xv6.Lib.Token
import Xv6.Proc.Table

/-!
# Sleep and wakeup

The functions `sleep` and `wakeup` of `proc.c`, one step for every lock
operation and every store to a process's `chan` or `state`, run by any number of
processes. The code that calls them is a client: program points, the data that
a spinlock `lk` guards, and the moves it may make, of which `sleep(chan, lk)` and
`wakeup(chan)` are two. A process that goes to sleep hands `ptable.lock` to the
scheduler of its processor, which runs the next process or releases the lock.
-/

set_option autoImplicit false

namespace Xv6.Sleep
open Xv6.Table

inductive Move where
  | acquire
  | release
  | work
  | sleep (chan : ℕ)
  | wakeup (chan : ℕ)

/-- Kernel code around one spinlock. `holds` marks the points at which the
process holds it, and a call of `sleep` is made and returns with the lock held. -/
structure Client (σ K : Type) where
  holds : K → Bool
  move : Move → K → σ → K → σ → Prop
  acquire_ok : ∀ {k k' : K} {d d' : σ}, move .acquire k d k' d' →
    holds k = false ∧ holds k' = true ∧ d' = d
  release_ok : ∀ {k k' : K} {d d' : σ}, move .release k d k' d' →
    holds k = true ∧ holds k' = false ∧ d' = d
  work_ok : ∀ {k k' : K} {d d' : σ}, move .work k d k' d' → holds k' = holds k
  sleep_ok : ∀ {c : ℕ} {k k' : K} {d d' : σ}, move (.sleep c) k d k' d' →
    holds k = true ∧ holds k' = true ∧ d' = d
  wakeup_ok : ∀ {c : ℕ} {k k' : K} {d d' : σ}, move (.wakeup c) k d k' d' →
    holds k' = holds k ∧ d' = d

/-- The next thing a process inside `sleep` does. -/
inductive SleepPoint where
  | acquirePt
  | releaseLk
  | setChan
  | setState
  | sched
  | off
  | clearChan
  | releasePt
  | acquireLk
  deriving DecidableEq

/-- Where a process is: in its own code, inside `sleep` or inside `wakeup`, with
the point it returns to. A `wakeup` that has `ptable.lock` has slots left to scan. -/
inductive Ctl (K : Type) (n : ℕ) where
  | run (k : K)
  | sleep (pc : SleepPoint) (chan : ℕ) (k : K)
  | wakeup (todo : Option (List (Fin n))) (chan : ℕ) (k : K)

inductive Owner (n : ℕ) where
  | free
  | scheduler
  | proc (p : Fin n)

structure St (σ K : Type) (n : ℕ) where
  data : σ
  lk : Option (Fin n)
  pt : Owner n
  ctl : Fin n → Ctl K n
  state : Fin n → ProcState
  chan : Fin n → Option ℕ

variable {σ K : Type} {n : ℕ}

def St.goto (s : St σ K n) (p : Fin n) (c : Ctl K n) : St σ K n :=
  { s with ctl := Function.update s.ctl p c }

/-- One slot of the loop of `wakeup1`. -/
def St.wake (s : St σ K n) (chan : ℕ) (q : Fin n) : St σ K n :=
  if s.state q = .sleeping ∧ s.chan q = some chan then
    { s with state := Function.update s.state q .runnable }
  else s

variable (C : Client σ K)

inductive Step (s : St σ K n) : St σ K n → Prop where
  | acquire {p : Fin n} {k k' : K} {d : σ} (hp : s.ctl p = .run k)
      (hm : C.move .acquire k s.data k' d) (hl : s.lk = none) :
      Step s { s.goto p (.run k') with lk := some p }
  | release {p : Fin n} {k k' : K} {d : σ} (hp : s.ctl p = .run k)
      (hm : C.move .release k s.data k' d) :
      Step s { s.goto p (.run k') with lk := none }
  | work {p : Fin n} {k k' : K} {d : σ} (hp : s.ctl p = .run k)
      (hm : C.move .work k s.data k' d) :
      Step s { s.goto p (.run k') with data := d }
  | sleep {p : Fin n} {k k' : K} {c : ℕ} {d : σ} (hp : s.ctl p = .run k)
      (hm : C.move (.sleep c) k s.data k' d) : Step s (s.goto p (.sleep .acquirePt c k'))
  | sleepPt {p : Fin n} {k : K} {c : ℕ} (hp : s.ctl p = .sleep .acquirePt c k)
      (hf : s.pt = .free) : Step s { s.goto p (.sleep .releaseLk c k) with pt := .proc p }
  | sleepLk {p : Fin n} {k : K} {c : ℕ} (hp : s.ctl p = .sleep .releaseLk c k) :
      Step s { s.goto p (.sleep .setChan c k) with lk := none }
  | sleepChan {p : Fin n} {k : K} {c : ℕ} (hp : s.ctl p = .sleep .setChan c k) :
      Step s { s.goto p (.sleep .setState c k) with chan := Function.update s.chan p (some c) }
  | sleepState {p : Fin n} {k : K} {c : ℕ} (hp : s.ctl p = .sleep .setState c k) :
      Step s { s.goto p (.sleep .sched c k) with state := Function.update s.state p .sleeping }
  | sched {p : Fin n} {k : K} {c : ℕ} (hp : s.ctl p = .sleep .sched c k) :
      Step s { s.goto p (.sleep .off c k) with pt := .scheduler }
  | schedAcquire (hf : s.pt = .free) : Step s { s with pt := .scheduler }
  | schedRelease (hf : s.pt = .scheduler) : Step s { s with pt := .free }
  | resume {p : Fin n} {k : K} {c : ℕ} (hp : s.ctl p = .sleep .off c k)
      (hr : s.state p = .runnable) (hf : s.pt = .scheduler) :
      Step s { s.goto p (.sleep .clearChan c k) with
        pt := .proc p, state := Function.update s.state p .running }
  | clearChan {p : Fin n} {k : K} {c : ℕ} (hp : s.ctl p = .sleep .clearChan c k) :
      Step s { s.goto p (.sleep .releasePt c k) with chan := Function.update s.chan p none }
  | sleepRelease {p : Fin n} {k : K} {c : ℕ} (hp : s.ctl p = .sleep .releasePt c k) :
      Step s { s.goto p (.sleep .acquireLk c k) with pt := .free }
  | sleepReturn {p : Fin n} {k : K} {c : ℕ} (hp : s.ctl p = .sleep .acquireLk c k)
      (hl : s.lk = none) : Step s { s.goto p (.run k) with lk := some p }
  | wakeup {p : Fin n} {k k' : K} {c : ℕ} {d : σ} (hp : s.ctl p = .run k)
      (hm : C.move (.wakeup c) k s.data k' d) : Step s (s.goto p (.wakeup none c k'))
  | wakeupPt {p : Fin n} {k : K} {c : ℕ} (hp : s.ctl p = .wakeup none c k) (hf : s.pt = .free) :
      Step s { s.goto p (.wakeup (some (List.finRange n)) c k) with pt := .proc p }
  | wakeupScan {p q : Fin n} {k : K} {c : ℕ} {todo : List (Fin n)}
      (hp : s.ctl p = .wakeup (some (q::todo)) c k) :
      Step s ((s.wake c q).goto p (.wakeup (some todo) c k))
  | wakeupReturn {p : Fin n} {k : K} {c : ℕ} (hp : s.ctl p = .wakeup (some []) c k) :
      Step s { s.goto p (.run k) with pt := .free }

/-- All processes are in their own code, none holds a lock. -/
structure Start (s : St σ K n) : Prop where
  lk : s.lk = none
  pt : s.pt = .free
  ctl : ∀ p, ∃ k, s.ctl p = .run k ∧ C.holds k = false
  state : ∀ p, s.state p = .running

inductive Reach (s₀ : St σ K n) : St σ K n → Prop where
  | start : Reach s₀ s₀
  | step {s s' : St σ K n} (h : Reach s₀ s) (hs : Step C s s') : Reach s₀ s'

/-! ## The two locks -/

def Ctl.hasLk : Ctl K n → Prop
  | .run k => C.holds k = true
  | .sleep .acquirePt _ _ => True
  | .sleep .releaseLk _ _ => True
  | .sleep _ _ _ => False
  | .wakeup _ _ k => C.holds k = true

def Ctl.hasPt : Ctl K n → Prop
  | .run _ => False
  | .sleep .acquirePt _ _ => False
  | .sleep .off _ _ => False
  | .sleep .acquireLk _ _ => False
  | .sleep _ _ _ => True
  | .wakeup todo _ _ => todo.isSome = true

/-- The point a call returns to is one that a client's call of it returns to. -/
def Ctl.Called : Ctl K n → Prop
  | .run _ => True
  | .sleep _ c k => ∃ k₀ d d', C.move (.sleep c) k₀ d k d'
  | .wakeup _ c k => ∃ k₀ d d', C.move (.wakeup c) k₀ d k d'

/-- Each lock's owner word names the process whose program point has the lock. -/
structure Locked (s : St σ K n) : Prop where
  lk : Token.Agrees some (Ctl.hasLk C) s.lk s.ctl
  pt : Token.Agrees Owner.proc Ctl.hasPt s.pt s.ctl
  called : ∀ p, (s.ctl p).Called C

variable {C}

theorem proc_injective : Function.Injective (Owner.proc (n := n)) := fun _ _ h => Owner.proc.inj h

theorem Start.locked {s : St σ K n} (h : Start C s) : Locked C s := by
  refine ⟨fun p => ?_,fun p => ?_,fun p => ?_⟩ <;> obtain ⟨k',hk,hh⟩ := h.ctl p
  · simp [h.lk, hk, Ctl.hasLk, hh]
  · simp [h.pt, hk, Ctl.hasPt]
  · rw [hk]
    trivial

/-- A process moves to the point `c`; the rest of the state may change freely. -/
theorem Locked.goto {s s' : St σ K n} (h : Locked C s) {p : Fin n} {c : Ctl K n}
    (hctl : s'.ctl = Function.update s.ctl p c)
    (hlk : Token.Agrees some (Ctl.hasLk C) s'.lk (Function.update s.ctl p c))
    (hpt : Token.Agrees Owner.proc Ctl.hasPt s'.pt (Function.update s.ctl p c))
    (hc : c.Called C) : Locked C s' := by
  refine ⟨by rwa [hctl],by rwa [hctl],fun q => ?_⟩
  rw [hctl]
  by_cases hqp : q = p
  · subst hqp
    rwa [Function.update_self]
  · rw [Function.update_of_ne hqp]
    exact h.called q

theorem wake_ctl (s : St σ K n) (c : ℕ) (q : Fin n) :
    (s.wake c q).ctl = s.ctl ∧ (s.wake c q).data = s.data ∧ (s.wake c q).lk = s.lk ∧
      (s.wake c q).pt = s.pt ∧ (s.wake c q).chan = s.chan := by
  rw [St.wake]
  split_ifs <;> exact ⟨rfl,rfl,rfl,rfl,rfl⟩

theorem Locked.sleeping {s : St σ K n} (h : Locked C s) {p : Fin n} {pc : SleepPoint} {c : ℕ} {k : K}
    (hp : s.ctl p = .sleep pc c k) : ∃ k₀ d d', C.move (.sleep c) k₀ d k d' := by
  have hc := h.called p
  rwa [hp] at hc

theorem Locked.waking {s : St σ K n} (h : Locked C s) {p : Fin n} {todo : Option (List (Fin n))}
    {c : ℕ} {k : K} (hp : s.ctl p = .wakeup todo c k) :
    ∃ k₀ d d', C.move (.wakeup c) k₀ d k d' := by
  have hc := h.called p
  rwa [hp] at hc

theorem Locked.step {s s' : St σ K n} (h : Locked C s) (hs : Step C s s') : Locked C s' := by
  cases hs with
  | acquire hp hm hl =>
    obtain ⟨h1,h2,-⟩ := C.acquire_ok hm
    exact h.goto rfl (h.lk.take (Option.some_injective _) (by simp [hl]) h2)
      (h.pt.keep (by simp [hp, Ctl.hasPt])) trivial
  | release hp hm =>
    obtain ⟨h1,h2,-⟩ := C.release_ok hm
    exact h.goto rfl (h.lk.drop (Option.some_injective _) (by simp [hp, Ctl.hasLk, h1]) (by simp)
      (by simp [Ctl.hasLk, h2])) (h.pt.keep (by simp [hp, Ctl.hasPt])) trivial
  | work hp hm =>
    exact h.goto rfl (h.lk.keep (by simp [hp, Ctl.hasLk, C.work_ok hm]))
      (h.pt.keep (by simp [hp, Ctl.hasPt])) trivial
  | sleep hp hm =>
    obtain ⟨h1,h2,-⟩ := C.sleep_ok hm
    exact h.goto rfl (h.lk.keep (by simp [hp, Ctl.hasLk, h1]))
      (h.pt.keep (by simp [hp, Ctl.hasPt])) ⟨_,_,_,hm⟩
  | sleepPt hp hf =>
    exact h.goto rfl (h.lk.keep (by simp [hp, Ctl.hasLk]))
      (h.pt.take proc_injective (by simp [hf]) trivial) (h.sleeping hp)
  | sleepLk hp =>
    exact h.goto rfl (h.lk.drop (Option.some_injective _) (by simp [hp, Ctl.hasLk]) (by simp)
      (by simp [Ctl.hasLk])) (h.pt.keep (by simp [hp, Ctl.hasPt])) (h.sleeping hp)
  | sleepChan hp =>
    exact h.goto rfl (h.lk.keep (by simp [hp, Ctl.hasLk])) (h.pt.keep (by simp [hp, Ctl.hasPt]))
      (h.sleeping hp)
  | sleepState hp =>
    exact h.goto rfl (h.lk.keep (by simp [hp, Ctl.hasLk])) (h.pt.keep (by simp [hp, Ctl.hasPt]))
      (h.sleeping hp)
  | sched hp =>
    exact h.goto rfl (h.lk.keep (by simp [hp, Ctl.hasLk])) (h.pt.drop proc_injective
      (by simp [hp, Ctl.hasPt]) (by simp) (by simp [Ctl.hasPt])) (h.sleeping hp)
  | schedAcquire hf => exact ⟨h.lk,h.pt.free (by simp [hf]) (by simp),h.called⟩
  | schedRelease hf => exact ⟨h.lk,h.pt.free (by simp [hf]) (by simp),h.called⟩
  | resume hp hr hf =>
    exact h.goto rfl (h.lk.keep (by simp [hp, Ctl.hasLk]))
      (h.pt.take proc_injective (by simp [hf]) trivial) (h.sleeping hp)
  | clearChan hp =>
    exact h.goto rfl (h.lk.keep (by simp [hp, Ctl.hasLk])) (h.pt.keep (by simp [hp, Ctl.hasPt]))
      (h.sleeping hp)
  | sleepRelease hp =>
    exact h.goto rfl (h.lk.keep (by simp [hp, Ctl.hasLk])) (h.pt.drop proc_injective
      (by simp [hp, Ctl.hasPt]) (by simp) (by simp [Ctl.hasPt])) (h.sleeping hp)
  | sleepReturn hp hl =>
    obtain ⟨_,_,_,hm⟩ := h.sleeping hp
    exact h.goto rfl (h.lk.take (Option.some_injective _) (by simp [hl]) (C.sleep_ok hm).2.1)
      (h.pt.keep (by simp [hp, Ctl.hasPt])) trivial
  | wakeup hp hm =>
    obtain ⟨h1,-⟩ := C.wakeup_ok hm
    exact h.goto rfl (h.lk.keep (by simp [hp, Ctl.hasLk, h1]))
      (h.pt.keep (by simp [hp, Ctl.hasPt])) ⟨_,_,_,hm⟩
  | wakeupPt hp hf =>
    exact h.goto rfl (h.lk.keep (by simp [hp, Ctl.hasLk]))
      (h.pt.take proc_injective (by simp [hf]) rfl) (h.waking hp)
  | @wakeupScan p q k c todo hp =>
    obtain ⟨hctl,-,hlk,hpt,-⟩ := wake_ctl s c q
    refine h.goto (p := p) (c := .wakeup (some todo) c k) (by rw [St.goto, hctl]) ?_ ?_ (h.waking hp)
    · rw [St.goto, hlk]
      exact h.lk.keep (by simp [hp, Ctl.hasLk])
    · rw [St.goto, hpt]
      exact h.pt.keep (by simp [hp, Ctl.hasPt])
  | wakeupReturn hp =>
    exact h.goto rfl (h.lk.keep (by simp [hp, Ctl.hasLk])) (h.pt.drop proc_injective
      (by simp [hp, Ctl.hasPt]) (by simp) (by simp [Ctl.hasPt])) trivial

/-! ## Client points

What concerns only the data and the points of the clients is kept by every step
if every move keeps it, whatever happens inside `sleep` and `wakeup`.
-/

def Ctl.point : Ctl K n → K
  | .run k => k
  | .sleep _ _ k => k
  | .wakeup _ _ k => k

def St.points (s : St σ K n) : Fin n → K := fun p => (s.ctl p).point

theorem goto_points (s : St σ K n) (p : Fin n) (c : Ctl K n) :
    (s.goto p c).points = Function.update s.points p c.point := by
  funext q
  by_cases hq : q = p
  · subst hq
    simp [St.goto, St.points]
  · simp [St.goto, St.points, hq]

theorem points_same {s : St σ K n} {p : Fin n} {c : Ctl K n} (hc : c.point = (s.ctl p).point) :
    (s.goto p c).points = s.points := by
  rw [goto_points, hc]
  exact Function.update_eq_self p s.points

theorem Step.points {s s' : St σ K n} (h : Step C s s') :
    (∃ m p k', s.ctl p = .run (s.points p) ∧ C.move m (s.points p) s.data k' s'.data ∧
      s'.points = Function.update s.points p k') ∨
    (s'.data = s.data ∧ s'.points = s.points) := by
  have hrun : ∀ {p k}, s.ctl p = .run k → s.points p = k := by
    intro p k hp
    rw [St.points, hp, Ctl.point]
  cases h with
  | @acquire p k k' d hp hm hl =>
    obtain ⟨-,-,rfl⟩ := C.acquire_ok hm
    exact Or.inl ⟨.acquire,p,k',by rw [hrun hp, hp],by rwa [hrun hp],goto_points _ _ _⟩
  | @release p k k' d hp hm =>
    obtain ⟨-,-,rfl⟩ := C.release_ok hm
    exact Or.inl ⟨.release,p,k',by rw [hrun hp, hp],by rwa [hrun hp],goto_points _ _ _⟩
  | @work p k k' d hp hm => exact Or.inl ⟨.work,p,k',by rw [hrun hp, hp],by rwa [hrun hp],goto_points _ _ _⟩
  | @sleep p k k' c d hp hm =>
    obtain ⟨-,-,rfl⟩ := C.sleep_ok hm
    exact Or.inl ⟨.sleep c,p,k',by rw [hrun hp, hp],by rwa [hrun hp],goto_points _ _ _⟩
  | @wakeup p k k' c d hp hm =>
    obtain ⟨-,rfl⟩ := C.wakeup_ok hm
    exact Or.inl ⟨.wakeup c,p,k',by rw [hrun hp, hp],by rwa [hrun hp],goto_points _ _ _⟩
  | sleepPt hp hf => exact Or.inr ⟨rfl,points_same (by rw [hp]; rfl)⟩
  | sleepLk hp => exact Or.inr ⟨rfl,points_same (by rw [hp]; rfl)⟩
  | sleepChan hp => exact Or.inr ⟨rfl,points_same (by rw [hp]; rfl)⟩
  | sleepState hp => exact Or.inr ⟨rfl,points_same (by rw [hp]; rfl)⟩
  | sched hp => exact Or.inr ⟨rfl,points_same (by rw [hp]; rfl)⟩
  | schedAcquire hf => exact Or.inr ⟨rfl,rfl⟩
  | schedRelease hf => exact Or.inr ⟨rfl,rfl⟩
  | resume hp hr hf => exact Or.inr ⟨rfl,points_same (by rw [hp]; rfl)⟩
  | clearChan hp => exact Or.inr ⟨rfl,points_same (by rw [hp]; rfl)⟩
  | sleepRelease hp => exact Or.inr ⟨rfl,points_same (by rw [hp]; rfl)⟩
  | sleepReturn hp hl => exact Or.inr ⟨rfl,points_same (by rw [hp]; rfl)⟩
  | wakeupPt hp hf => exact Or.inr ⟨rfl,points_same (by rw [hp]; rfl)⟩
  | @wakeupScan p q k c todo hp =>
    obtain ⟨hctl,hdata,-⟩ := wake_ctl s c q
    refine Or.inr ⟨hdata,?_⟩
    rw [points_same (by rw [hctl, hp]; rfl)]
    unfold St.points
    rw [hctl]
  | wakeupReturn hp => exact Or.inr ⟨rfl,points_same (by rw [hp]; rfl)⟩

theorem Reach.points {J : σ → (Fin n → K) → Prop} {s₀ s : St σ K n} (h : Reach C s₀ s)
    (h₀ : J s₀.data s₀.points)
    (hmove : ∀ m p (pts : Fin n → K) d k' d', J d pts → C.move m (pts p) d k' d' →
      J d' (Function.update pts p k')) : J s.data s.points := by
  induction h with
  | start => exact h₀
  | step _ hs ih =>
    rcases hs.points with ⟨m,p,k',-,hm,hpts⟩ | ⟨hd,hpts⟩
    · rw [hpts]
      exact hmove m p _ _ k' _ ih hm
    · rwa [hd, hpts]

theorem Reach.locked {s₀ s : St σ K n} (h : Reach C s₀ s) (h₀ : Start C s₀) : Locked C s := by
  induction h with
  | start => exact h₀.locked
  | step _ hs ih => exact ih.step hs

end Xv6.Sleep
