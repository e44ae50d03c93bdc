import Xv6.Lib.Family
import Xv6.Lib.Token
import Xv6.Proc.Boot

/-!
# The process table under interleaving

The calls of `proc.c` that change the process table, as steps of processes on
any number of processors. A critical section of `ptable.lock` is one step, except
that of `exit`, whose wakeup, hand-over loop and last store are steps of their own
with the lock held. The two stores that a fork makes without the lock, the slot
given back when it fails and the parent of the child, come between any steps of
others. The log of events is not read by the machine.
-/

set_option autoImplicit false

namespace Xv6.Tree
open Xv6.Mmu Xv6.Table Xv6.Kern

/-- Where a process is: in none of the calls below, in a fork whose child slot is
allocated or has its parent, asleep in `wait` or elsewhere, or in the loop of `exit`
with the slots still to visit. -/
inductive Point where
  | user
  | forking (np : Fin NPROC)
  | placed (np : Fin NPROC)
  | waiting
  | blocked
  | leaving (todo : List (Fin NPROC))
  deriving DecidableEq

inductive Event where
  | alloc (pid : ℤ)
  | fork (pid : ℤ)
  | exit (pid : ℤ)
  | wait (pid : ℤ) (parent : Fin NPROC)
  | kill (pid : ℤ)
  deriving DecidableEq

/-- The table, the holder of `ptable.lock` between two steps, the points, the
number of `allocproc` calls that found a slot, and the events, last one first. -/
structure Sys where
  table : Ptable
  lock : Option (Fin NPROC)
  point : Fin NPROC → Point
  allocs : ℕ
  log : List Event

namespace Sys

def state (s : Sys) (i : Fin NPROC) : ProcState := (s.table.slot i).state
def pid (s : Sys) (i : Fin NPROC) : ℤ := (s.table.slot i).pid
def parent (s : Sys) (i : Fin NPROC) : Option (Fin NPROC) := (s.table.slot i).parent
def killed (s : Sys) (i : Fin NPROC) : Bool := (s.table.slot i).killed

/-- The process is SLEEPING in `wait`. -/
def Asleep (s : Sys) (q : Fin NPROC) : Prop :=
  s.state q = .sleeping ∧ (s.table.slot q).chan = some q

def setTable (s : Sys) (t : Ptable) : Sys := { s with table := t }

def goto (s : Sys) (i : Fin NPROC) (x : Point) : Sys :=
  { s with point := Function.update s.point i x }

def note (s : Sys) (e : Event) : Sys := { s with log := e::s.log }

/-- The scan of `wait`, and what follows it. -/
def scan (s : Sys) (i : Fin NPROC) : Sys :=
  match s.table.findZombie i with
  | some p => ((s.setTable (s.table.reap p)).goto i .user).note (.wait (s.pid p) i)
  | none =>
    if !s.table.haveKids i || s.killed i then s.goto i .user
    else (s.setTable (s.table.sleep i)).goto i .waiting

/-- One pass of the loop of `wait`, with `p->chan = 0` after its sleep. -/
def waits (s : Sys) (i : Fin NPROC) : Sys := (s.setTable (s.table.wake i)).scan i

def kills (s : Sys) (pid : ℤ) : Sys :=
  (s.setTable ((s.table.killPid pid).getD s.table)).note (.kill pid)

end Sys

inductive Act where
  | run (i : Fin NPROC)
  | yield (i : Fin NPROC)
  | block (i : Fin NPROC)
  | wakeup (i : Fin NPROC)
  | resume (i : Fin NPROC)
  | alloc (i np : Fin NPROC)
  | fail (i np : Fin NPROC)
  | place (i np : Fin NPROC)
  | launch (i np : Fin NPROC)
  | leave (i : Fin NPROC)
  | adopt (i p : Fin NPROC)
  | die (i : Fin NPROC)
  | wait (i : Fin NPROC)
  | kill (i : Fin NPROC) (pid : ℤ)
  | trap (i : Fin NPROC)

/-- The steps. A channel that is no process is `none`, as an empty one is; `trap` is a fault that marks the running process as killed. -/
inductive Step (s : Sys) : Act → Sys → Prop where
  | run {i : Fin NPROC} (hl : s.lock = none) (hi : s.state i = .runnable) :
      Step s (.run i) (s.setTable (s.table.setState i .running))
  | yield {i : Fin NPROC} (hl : s.lock = none) (hi : s.state i = .running) :
      Step s (.yield i) (s.setTable (s.table.setState i .runnable))
  | block {i : Fin NPROC} (hl : s.lock = none) (hi : s.state i = .running)
      (hp : s.point i = .user) :
      Step s (.block i) ((s.setTable (s.table.set i { s.table.slot i with
        chan := none, state := .sleeping })).goto i .blocked)
  | wakeup {i : Fin NPROC} (hl : s.lock = none) (hi : s.state i = .sleeping)
      (hp : s.point i = .blocked) :
      Step s (.wakeup i) (s.setTable (s.table.setState i .runnable))
  | resume {i : Fin NPROC} (hi : s.state i = .running) (hp : s.point i = .blocked) :
      Step s (.resume i) ((s.setTable (s.table.wake i)).goto i .user)
  | alloc {i np : Fin NPROC} (hl : s.lock = none) (hi : s.state i = .running)
      (hp : s.point i = .user) (hu : s.table.findUnused = some np) :
      Step s (.alloc i np) (({ s with table := s.table.claim np, allocs := s.allocs+1 }.goto i
        (.forking np)).note (.alloc s.table.nextpid))
  | fail {i np : Fin NPROC} (hi : s.state i = .running) (hp : s.point i = .forking np) :
      Step s (.fail i np) ((s.setTable (s.table.setState np .unused)).goto i .user)
  | place {i np : Fin NPROC} (hi : s.state i = .running) (hp : s.point i = .forking np) :
      Step s (.place i np) ((s.setTable (s.table.set np { s.table.slot np with
        sz := (s.table.slot i).sz, parent := some i })).goto i (.placed np))
  | launch {i np : Fin NPROC} (hl : s.lock = none) (hi : s.state i = .running)
      (hp : s.point i = .placed np) :
      Step s (.launch i np) (((s.setTable (s.table.setState np .runnable)).goto i .user).note
        (.fork (s.pid np)))
  | leave {i : Fin NPROC} (hl : s.lock = none) (hi : s.state i = .running)
      (hp : s.point i = .user) (hne : i ≠ s.table.initproc) :
      Step s (.leave i) ({ s with table := s.table.wakeup1 (s.parent i), lock := some i }.goto i
        (.leaving (List.finRange NPROC)))
  | adopt {i p : Fin NPROC} {ps : List (Fin NPROC)} (hp : s.point i = .leaving (p::ps)) :
      Step s (.adopt i p) ((s.setTable (Ptable.adopt i s.table p)).goto i (.leaving ps))
  | die {i : Fin NPROC} (hp : s.point i = .leaving []) :
      Step s (.die i) (({ s with table := s.table.setState i .zombie, lock := none }.goto i
        .user).note (.exit (s.pid i)))
  | wait {i : Fin NPROC} (hl : s.lock = none) (hi : s.state i = .running)
      (hp : s.point i = .user ∨ s.point i = .waiting) : Step s (.wait i) (s.waits i)
  | kill {i : Fin NPROC} {pid : ℤ} (hl : s.lock = none) (hi : s.state i = .running)
      (hp : s.point i = .user) : Step s (.kill i pid) (s.kills pid)
  | trap {i : Fin NPROC} (hi : s.state i = .running) :
      Step s (.trap i) (s.setTable (s.table.kill i))

/-- After `userinit`: the first process, with pid 1, and no other. -/
def boot : Sys := ⟨bootTable, none, fun _ => .user, 1, [.alloc 1]⟩

/-- The states of the runs whose steps all meet `C`. -/
inductive Reach (C : Sys → Act → Prop) : Sys → Prop where
  | init : Reach C boot
  | step {s s' : Sys} {a : Act} (h : Reach C s) (hC : C s a) (hs : Step s a s') : Reach C s'

def phase : ProcState → Family.Phase
  | .unused => .free
  | .embryo => .nascent
  | .sleeping => .live
  | .runnable => .live
  | .running => .live
  | .zombie => .dead

theorem phase_dead {x : ProcState} (h : phase x = .dead) : x = .zombie := by
  cases x <;> cases h
  rfl

def Point.role : Point → Family.Point (Fin NPROC)
  | .user => .idle
  | .forking np => .forking np
  | .placed np => .placed np
  | .waiting => .idle
  | .blocked => .idle
  | .leaving ps => .leaving ps

def Sys.tree (s : Sys) : Family.Tree (Fin NPROC) :=
  ⟨fun p => phase (s.state p),s.parent,fun i => (s.point i).role,s.Asleep,s.table.initproc⟩

def Point.Leaving (x : Point) : Prop := ∃ ps, x = .leaving ps

/-- `ptable.lock` is held between steps by the process in the loop of `exit`. -/
def Held (s : Sys) : Prop := Token.Agrees some Point.Leaving s.lock s.point

theorem role_leaving {x : Point} {ps : List (Fin NPROC)} (h : x.role = .leaving ps) :
    x = .leaving ps := by
  cases x <;> cases h
  rfl

theorem Held.calm {s : Sys} (h : Held s) (hl : s.lock = none) : s.tree.Calm := by
  intro i ps hp
  have := (h i).2 ⟨ps,role_leaving hp⟩
  rw [hl] at this
  cases this

theorem put_set {s s' : Sys} {p i : Fin NPROC} {r : Slot} {a : Family.Phase}
    {c : Option (Fin NPROC)} {x : Point} {y : Family.Point (Fin NPROC)}
    (ht : s'.table.slot = (s.table.set p r).slot) (hi : s'.table.initproc = s.table.initproc)
    (hp : s'.point = Function.update s.point i x) (ha : phase r.state = a) (hc : r.parent = c)
    (hx : x.role = y)
    (hr : r.state = .sleeping → s.state p = .sleeping ∧ r.chan = (s.table.slot p).chan) :
    Family.Put s.tree s'.tree p a c i y := by
  subst ha hc hx
  have hfield : ∀ {β : Type} (f : Slot → β) (j : Fin NPROC),
      f (s'.table.slot j) = if j = p then f r else f (s.table.slot j) := by
    intro β f j
    rw [ht, Ptable.set_slot, apply_ite f]
  refine ⟨hfield (fun x => phase x.state),hfield Slot.parent,?_,hi,?_⟩
  · intro j
    change (s'.point j).role = _
    rw [hp, Function.update_apply, apply_ite Point.role]
    rfl
  · rintro q ⟨h1,h2⟩
    rw [Sys.state, hfield Slot.state] at h1
    rw [hfield Slot.chan] at h2
    split at h1
    · next hq =>
      subst hq
      rw [if_pos rfl] at h2
      exact ⟨(hr h1).1,(hr h1).2 ▸ h2⟩
    · next hq =>
      rw [if_neg hq] at h2
      exact ⟨h1,h2⟩

theorem rest_set {s s' : Sys} {p i : Fin NPROC} {r : Slot} {x : Point}
    (ht : s'.table.slot = (s.table.set p r).slot) (hi : s'.table.initproc = s.table.initproc)
    (hp : s'.point = Function.update s.point i x) (hx : x.role = (s.point i).role)
    (hs : phase r.state = phase (s.state p)) (hc : r.parent = s.parent p)
    (ha : r.state = .sleeping → r.chan = some p → s.Asleep p ∨
      s.tree.Calm ∧ ∀ q, s.parent q = some p → s.state q ≠ .zombie) :
    Family.Move s.tree s'.tree := by
  have hslot : ∀ j, s'.table.slot j = if j = p then r else s.table.slot j := by
    intro j
    rw [ht, Ptable.set_slot]
  refine .rest ?_ ?_ ?_ hi ?_
  · intro j
    change phase (s'.table.slot j).state = _
    rw [hslot]
    split
    · next h => rw [hs, h]; rfl
    · rfl
  · intro j
    change (s'.table.slot j).parent = _
    rw [hslot]
    split
    · next h => rw [hc, h]; rfl
    · rfl
  · intro j
    change (s'.point j).role = _
    rw [hp, Function.update_apply]
    split
    · next h => rw [hx, h]; rfl
    · rfl
  · rintro q ⟨h1,h2⟩
    rw [Sys.state, hslot] at h1
    rw [hslot] at h2
    split at h1
    · next hq =>
      subst hq
      rw [if_pos rfl] at h2
      obtain h | ⟨h,hz⟩ := ha h1 h2
      · exact .inl h
      · exact .inr ⟨h,fun j hj hd => hz j hj (phase_dead hd)⟩
    · next hq =>
      rw [if_neg hq] at h2
      exact .inl ⟨h1,h2⟩

theorem wake_field {β : Type} (f : Slot → β) (s : Sys) (i j : Fin NPROC)
    (hf : ∀ x : Slot, f { x with chan := none } = f x) :
    f ((s.table.wake i).slot j) = f (s.table.slot j) := by
  rw [Ptable.wake, Ptable.set_slot]
  split
  · next hj => rw [hf, hj]
  · rfl

theorem wake_state (s : Sys) (i : Fin NPROC) :
    (s.setTable (s.table.wake i)).state = s.state :=
  funext (fun j => wake_field Slot.state s i j (fun _ => rfl))

theorem wake_parent (s : Sys) (i : Fin NPROC) :
    (s.setTable (s.table.wake i)).parent = s.parent :=
  funext (fun j => wake_field Slot.parent s i j (fun _ => rfl))

theorem wake_tree {s : Sys} {i : Fin NPROC} (hi : s.state i = .running) :
    (s.setTable (s.table.wake i)).tree = s.tree := by
  have hasleep : (s.setTable (s.table.wake i)).Asleep = s.Asleep := by
    funext q
    rw [Sys.Asleep, wake_state]
    by_cases hq : q = i
    · subst hq
      have hn : s.state q ≠ .sleeping := fun h => by
        cases hi.symm.trans h
      simp [Sys.Asleep, hn]
    · change (_ ∧ ((s.table.wake i).slot q).chan = _) = _
      rw [Ptable.wake, Ptable.set_slot, if_neg hq]
      rfl
  rw [Sys.tree, wake_state, wake_parent, hasleep]
  rfl

theorem scan_move {s : Sys} {i : Fin NPROC} (hc : s.tree.Calm) (hi : s.state i = .running)
    (hp : (s.point i).role = .idle) : Family.Move s.tree (s.scan i).tree := by
  rw [Sys.scan]
  split
  · next p hz =>
    have hz' := (Ptable.findZombie_state hz).2
    refine .reap (i := i) (p := p) (congrArg phase hz') ?_
    exact put_set rfl rfl rfl rfl rfl hp.symm nofun
  · next hz =>
    split
    · refine rest_set (p := i) (r := s.table.slot i) ?_ rfl rfl hp.symm rfl rfl
        (fun h1 h2 => .inl ⟨h1,h2⟩)
      rw [Ptable.set, Function.update_eq_self]
      rfl
    · refine rest_set rfl rfl rfl hp.symm (congrArg phase hi).symm rfl ?_
      refine fun _ _ => .inr ⟨hc,fun p h1 h2 => ?_⟩
      exact List.find?_eq_none.1 hz p (List.mem_finRange p) (decide_eq_true ⟨h1,h2⟩)

theorem kills_move {s : Sys} (pid : ℤ) : Family.Move s.tree (s.kills pid).tree := by
  rw [Sys.kills, Ptable.killPid]
  cases (List.finRange NPROC).find? (fun p => (s.table.slot p).pid = pid) with
  | none => exact .rest (fun _ => rfl) (fun _ => rfl) (fun _ => rfl) rfl (fun _ h => .inl h)
  | some p =>
    refine rest_set rfl rfl (Function.update_eq_self p s.point).symm rfl ?_ rfl ?_
    · dsimp only
      split
      · next h => rw [show s.state p = .sleeping from h]; rfl
      · rfl
    · intro h1
      dsimp only at h1
      split at h1
      · cases h1
      · contradiction

theorem wakeup1_field {β : Type} (f : Slot → β) (t : Ptable) (c : Option (Fin NPROC))
    (hf : ∀ x : Slot, x.state = .sleeping → f { x with state := .runnable } = f x)
    (j : Fin NPROC) : f ((t.wakeup1 c).slot j) = f (t.slot j) := by
  simp only [Ptable.wakeup1]
  split
  · next h => exact hf _ h.1
  · rfl

theorem wakeup1_asleep {s : Sys} {c : Option (Fin NPROC)} {q : Fin NPROC}
    (h : (s.setTable (s.table.wakeup1 c)).Asleep q) : s.Asleep q ∧ c ≠ some q := by
  obtain ⟨h1,h2⟩ := h
  simp only [Sys.state, Sys.setTable, Ptable.wakeup1] at h1 h2
  split at h1
  · cases h1
  · next h =>
    rw [if_neg h] at h2
    exact ⟨⟨h1,h2⟩,fun hc => h ⟨h1,h2.trans hc.symm⟩⟩

theorem put_wakeup {s : Family.Tree (Fin NPROC)} {s' : Sys} {p i : Fin NPROC}
    {a : Family.Phase} {c : Option (Fin NPROC)} {x : Family.Point (Fin NPROC)}
    (hm : Family.Put s s'.tree p a c i x) (w : Option (Fin NPROC)) :
    Family.Put s (s'.setTable (s'.table.wakeup1 w)).tree p a c i x where
  phase j := (wakeup1_field (fun x => phase x.state) _ _
    (fun _ h => (congrArg phase h).symm) j).trans (hm.phase j)
  parent j := (wakeup1_field Slot.parent _ _ (fun _ _ => rfl) j).trans (hm.parent j)
  point := hm.point
  root := hm.root
  asleep q hq := hm.asleep q (wakeup1_asleep hq).1

theorem leave_move {s : Sys} {i : Fin NPROC} (hc : s.tree.Calm) (hi : s.state i = .running)
    (hp : s.point i = .user) (hne : i ≠ s.table.initproc) :
    Family.Move s.tree ({ s with table := s.table.wakeup1 (s.parent i), lock := some i }.goto i
      (.leaving (List.finRange NPROC))).tree := by
  have hm : Family.Put s.tree ({ s with lock := some i }.goto i
      (.leaving (List.finRange NPROC))).tree i (s.tree.phase i) (s.parent i) i
      (.leaving (List.finRange NPROC)) :=
    put_set (Function.update_eq_self i s.table.slot).symm rfl rfl rfl rfl rfl (fun h => ⟨h,rfl⟩)
  exact .leave hc (congrArg phase hi) (congrArg Point.role hp) hne List.mem_finRange
    (fun q hq h => (wakeup1_asleep (s := s) h).2 hq) (put_wakeup hm (s.parent i))

theorem adopt_child {t : Ptable} {cur p : Fin NPROC} (h : (t.slot p).parent = some cur) :
    Ptable.adopt cur t p = if (t.slot p).state = .zombie then
      (t.set p { t.slot p with parent := some t.initproc }).wakeup1 (some t.initproc)
      else t.set p { t.slot p with parent := some t.initproc } := if_pos h

theorem adopt_move {s : Sys} {i p : Fin NPROC} {ps : List (Fin NPROC)}
    (hp : s.point i = .leaving (p::ps)) :
    Family.Move s.tree ((s.setTable (Ptable.adopt i s.table p)).goto i (.leaving ps)).tree := by
  have hp' : s.tree.point i = .leaving (p::ps) := congrArg Point.role hp
  by_cases hc : s.tree.parent p = some i
  · have hm : Family.Put s.tree ((s.setTable (s.table.set p { s.table.slot p with
        parent := some s.table.initproc })).goto i (.leaving ps)).tree p (s.tree.phase p)
        (if s.tree.parent p = some i then some s.tree.root else s.tree.parent p) i
        (.leaving ps) := by
      rw [if_pos hc]
      exact put_set rfl rfl rfl rfl rfl rfl (fun h => ⟨h,rfl⟩)
    rw [adopt_child hc]
    split
    · exact .adopt hp' (fun _ _ h => (wakeup1_asleep (s := Sys.goto (s.setTable _) i _) h).2 rfl)
        (put_wakeup hm (some s.table.initproc))
    · next hz => exact .adopt hp' (fun h => absurd (phase_dead h) hz) hm
  · rw [show Ptable.adopt i s.table p = s.table from if_neg hc]
    refine .adopt hp' (fun _ h => absurd h hc) ?_
    rw [if_neg hc]
    exact put_set (Function.update_eq_self _ _).symm rfl rfl rfl rfl rfl (fun h => ⟨h,rfl⟩)

theorem Step.move {s s' : Sys} {a : Act} (hh : Held s) (hs : Step s a s') :
    Family.Move s.tree s'.tree := by
  cases hs with
  | @run i hl hi =>
    exact rest_set rfl rfl (Function.update_eq_self i _).symm rfl (congrArg phase hi).symm rfl nofun
  | @yield i hl hi =>
    exact rest_set rfl rfl (Function.update_eq_self i _).symm rfl (congrArg phase hi).symm rfl nofun
  | block hl hi hp =>
    exact rest_set rfl rfl rfl (congrArg Point.role hp).symm (congrArg phase hi).symm rfl nofun
  | @wakeup i hl hi hp =>
    exact rest_set rfl rfl (Function.update_eq_self i _).symm rfl (congrArg phase hi).symm rfl nofun
  | resume hi hp => exact rest_set rfl rfl rfl (congrArg Point.role hp).symm rfl rfl nofun
  | alloc hl hi hp hu =>
    exact .alloc (congrArg phase hi) (congrArg Point.role hp)
      (congrArg phase (Ptable.findUnused_state hu)) (put_set rfl rfl rfl rfl rfl rfl nofun)
  | fail hi hp => exact .fail (congrArg Point.role hp) (put_set rfl rfl rfl rfl rfl rfl nofun)
  | place hi hp =>
    exact .place (congrArg Point.role hp) (put_set rfl rfl rfl rfl rfl rfl (fun h => ⟨h,rfl⟩))
  | launch hl hi hp => exact .launch (congrArg Point.role hp) (put_set rfl rfl rfl rfl rfl rfl nofun)
  | leave hl hi hp hne => exact leave_move (hh.calm hl) hi hp hne
  | adopt hp => exact adopt_move hp
  | die hp => exact .die (congrArg Point.role hp) (put_set rfl rfl rfl rfl rfl rfl nofun)
  | @wait i hl hi hp =>
    have hrole : (s.point i).role = .idle := by
      obtain hp | hp := hp <;> rw [hp] <;> rfl
    have hw := wake_tree hi
    rw [← hw]
    refine scan_move (hw ▸ hh.calm hl) ?_ hrole
    rw [wake_state]
    exact hi
  | kill hl hi hp => exact kills_move _
  | @trap i hi =>
    refine rest_set rfl rfl (Function.update_eq_self i _).symm rfl rfl rfl ?_
    intro h
    cases hi.symm.trans h

theorem held_step {s s' : Sys} {a : Act} (h : Held s) (hs : Step s a s') : Held s' := by
  have hinj : Function.Injective (some : Fin NPROC → _) := Option.some_injective _
  have hkeep : ∀ {i : Fin NPROC} {x : Point}, ¬ x.Leaving → ¬ (s.point i).Leaving →
      Token.Agrees some Point.Leaving s.lock (Function.update s.point i x) :=
    fun h1 h2 => h.keep (iff_of_false h1 h2)
  have hno : ∀ {x y : Point}, x = y → (∀ ps, y ≠ .leaving ps) → ¬ x.Leaving := by
    rintro x y rfl hy ⟨ps,hx⟩
    exact hy ps hx
  cases hs with
  | run hl hi => exact h
  | yield hl hi => exact h
  | block hl hi hp => exact hkeep (hno rfl nofun) (hno hp nofun)
  | wakeup hl hi hp => exact h
  | resume hi hp => exact hkeep (hno rfl nofun) (hno hp nofun)
  | alloc hl hi hp hu => exact hkeep (hno rfl nofun) (hno hp nofun)
  | fail hi hp => exact hkeep (hno rfl nofun) (hno hp nofun)
  | place hi hp => exact hkeep (hno rfl nofun) (hno hp nofun)
  | launch hl hi hp => exact hkeep (hno rfl nofun) (hno hp nofun)
  | leave hl hi hp hne => exact h.take hinj (fun q => by rw [hl]; nofun) ⟨_,rfl⟩
  | adopt hp => exact h.keep (iff_of_true ⟨_,rfl⟩ ⟨_,hp⟩)
  | die hp => exact h.drop hinj ⟨_,hp⟩ nofun (hno rfl nofun)
  | @wait i hl hi hp =>
    have hp' : ¬ (s.point i).Leaving := hp.elim (fun h => hno h nofun) (fun h => hno h nofun)
    rw [Sys.waits, Sys.scan]
    split
    · exact hkeep (hno rfl nofun) hp'
    · split
      · exact hkeep (hno rfl nofun) hp'
      · exact hkeep (hno rfl nofun) hp'
  | kill hl hi hp => exact h
  | trap hi => exact h

theorem exit_steps {C : Sys → Act → Prop} (hC : ∀ s a, C s a) {s : Sys} (h : Reach C s)
    {i : Fin NPROC} (hl : s.lock = none) (hi : s.state i = .running) (hp : s.point i = .user)
    (hne : i ≠ s.table.initproc) : ∃ s', Reach C s' ∧ s'.table = s.table.exit i ∧
      s'.lock = none ∧ s'.allocs = s.allocs ∧ s'.log = .exit (s'.pid i)::s.log := by
  -- the loop of `exit` visits the slots in the order of the list
  have hloop : ∀ (ps : List (Fin NPROC)) (s1 : Sys), Reach C s1 → s1.point i = .leaving ps →
      ∃ s2, Reach C s2 ∧ s2.table = ps.foldl (Ptable.adopt i) s1.table ∧
        s2.point i = .leaving [] ∧ s2.allocs = s1.allocs ∧ s2.log = s1.log := by
    intro ps
    induction ps with
    | nil => exact fun s1 h1 hp1 => ⟨s1,h1,rfl,hp1,rfl,rfl⟩
    | cons p ps ih =>
      intro s1 h1 hp1
      exact ih _ (h1.step (hC _ _) (.adopt hp1)) (Function.update_self ..)
  obtain ⟨s2,h2,ht,hp2,hk,hlog⟩ := hloop _ _ (h.step (hC _ _) (.leave hl hi hp hne))
    (Function.update_self ..)
  refine ⟨_,h2.step (hC _ _) (.die hp2),?_,rfl,hk,?_⟩
  · change s2.table.setState i .zombie = _
    rw [ht]
    rfl
  · change Event.exit (s2.pid i)::s2.log = .exit ((s2.table.setState i .zombie).slot i).pid::s.log
    rw [hlog, Ptable.setState, Ptable.set_slot, if_pos rfl]
    rfl

theorem boot_tree : boot.tree = ⟨fun i => if i = slot0 then .live else .free,fun _ => none,
    fun _ => .idle,fun _ => False,slot0⟩ := by
  have hslot : ∀ i, bootTable.slot i = if i = slot0 then ⟨.runnable, 1, none, false, none, PGSIZE⟩
    else ⟨.unused, 0, none, false, none, 0⟩ := fun _ => rfl
  have hphase : (fun p => phase (boot.state p)) = fun i => if i = slot0 then .live else .free := by
    funext i
    change phase (bootTable.slot i).state = _
    rw [hslot]
    split <;> rfl
  have hparent : boot.parent = fun _ => none := by
    funext i
    change (bootTable.slot i).parent = _
    rw [hslot]
    split <;> rfl
  have hasleep : boot.Asleep = fun _ => False := by
    funext i
    change ((bootTable.slot i).state = _ ∧ _) = _
    rw [hslot]
    split <;> simp
  rw [Sys.tree, hphase, hparent, hasleep]
  rfl

theorem boot_sound : Family.Sound boot.tree := by
  rw [boot_tree]
  refine ⟨⟨?_,?_,nofun,nofun,rfl⟩,
    ⟨fun _ _ => rfl,nofun,nofun,nofun,?_,rfl,nofun,nofun⟩,⟨nofun,nofun⟩⟩
  · rintro i np (h | h) <;> cases h
  · rintro i j np (h | h) <;> cases h
  · intro p hp hne
    dsimp only at hp hne
    rw [if_neg hne] at hp
    obtain hp | hp := hp <;> cases hp

theorem reach_held {C : Sys → Act → Prop} {s : Sys} (h : Reach C s) : Held s := by
  induction h with
  | init =>
    intro i
    refine ⟨nofun,?_⟩
    rintro ⟨ps,h⟩
    cases h
  | step h hC hs ih => exact held_step ih hs

theorem reach_sound {C : Sys → Act → Prop} {s : Sys} (h : Reach C s) : Family.Sound s.tree := by
  induction h with
  | init => exact boot_sound
  | step h hC hs ih => exact Family.sound_step ih (hs.move (reach_held h))

end Xv6.Tree
