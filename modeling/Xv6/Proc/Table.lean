import Xv6.Lib.Tally
import Xv6.Mem.Mmu

/-!
# The process table

The slots of `ptable` with the fields that `allocproc`, `fork`, `exit`, `wait`
and `kill` of `proc.c` read and write. The functions here are the parts of those
that run on the table alone; memory and files are added by the kernel model.
Channels are process slots, since `wait` is the only modelled sleeper.
-/

set_option autoImplicit false

namespace Xv6.Table
open Xv6.Mmu

/-- The slots of the first processes. -/
def slot0 : Fin NPROC := ⟨0, by decide⟩
def slot1 : Fin NPROC := ⟨1, by decide⟩
def slot2 : Fin NPROC := ⟨2, by decide⟩

inductive ProcState where
  | unused
  | embryo
  | sleeping
  | runnable
  | running
  | zombie
  deriving DecidableEq, Repr

/-- The slot owns a page directory and a kernel stack. -/
def ProcState.hasSpace : ProcState → Bool
  | .unused => false
  | .embryo => false
  | .sleeping => true
  | .runnable => true
  | .running => true
  | .zombie => true

/-- The process can still execute. -/
def ProcState.live (s : ProcState) : Bool := s.hasSpace && s != .zombie

structure Slot where
  state : ProcState
  pid : ℤ
  parent : Option (Fin NPROC)
  killed : Bool
  chan : Option (Fin NPROC)
  sz : ℕ

structure Ptable where
  slot : Fin NPROC → Slot
  nextpid : ℤ
  initproc : Fin NPROC

namespace Ptable

def set (t : Ptable) (i : Fin NPROC) (s : Slot) : Ptable :=
  { t with slot := Function.update t.slot i s }

def setState (t : Ptable) (i : Fin NPROC) (s : ProcState) : Ptable :=
  t.set i { t.slot i with state := s }

def setSz (t : Ptable) (i : Fin NPROC) (sz : ℕ) : Ptable :=
  t.set i { t.slot i with sz := sz }

def kill (t : Ptable) (i : Fin NPROC) : Ptable :=
  t.set i { t.slot i with killed := true }

/-- The scan of `allocproc`. -/
def findUnused (t : Ptable) : Option (Fin NPROC) :=
  (List.finRange NPROC).find? (fun i => (t.slot i).state = .unused)

/-- `p->state = EMBRYO; p->pid = nextpid++`. -/
def claim (t : Ptable) (i : Fin NPROC) : Ptable :=
  { t.set i { t.slot i with state := .embryo, pid := t.nextpid } with nextpid := t.nextpid+1 }

/-- What `fork` stores in the child's slot once its memory exists. -/
def launch (t : Ptable) (np cur : Fin NPROC) : Ptable :=
  t.set np { t.slot np with state := .runnable, parent := some cur, sz := (t.slot cur).sz }

def wakeup1 (t : Ptable) (c : Option (Fin NPROC)) : Ptable :=
  { t with slot := fun i =>
      if (t.slot i).state = .sleeping ∧ (t.slot i).chan = c then
        { t.slot i with state := .runnable }
      else t.slot i }

/-- One pass of the loop in `exit` that hands the children to `initproc`. -/
def adopt (cur : Fin NPROC) (t : Ptable) (p : Fin NPROC) : Ptable :=
  if (t.slot p).parent = some cur then
    let t' := t.set p { t.slot p with parent := some t.initproc }
    if (t.slot p).state = .zombie then t'.wakeup1 (some t.initproc) else t'
  else t

/-- `exit` from the wakeup of the parent on. -/
def exit (t : Ptable) (cur : Fin NPROC) : Ptable :=
  ((List.finRange NPROC).foldl (adopt cur) (t.wakeup1 (t.slot cur).parent)).setState cur .zombie

/-- The child that the scan of `wait` finds first. -/
def findZombie (t : Ptable) (cur : Fin NPROC) : Option (Fin NPROC) :=
  (List.finRange NPROC).find?
    (fun p => (t.slot p).parent = some cur ∧ (t.slot p).state = .zombie)

def haveKids (t : Ptable) (cur : Fin NPROC) : Bool :=
  (List.finRange NPROC).any (fun p => (t.slot p).parent = some cur)

/-- The stores of `wait` into the slot of a reaped child. -/
def reap (t : Ptable) (p : Fin NPROC) : Ptable :=
  t.set p { t.slot p with pid := 0, parent := none, killed := false, state := .unused }

/-- `sleep(curproc, &ptable.lock)`. -/
def sleep (t : Ptable) (cur : Fin NPROC) : Ptable :=
  t.set cur { t.slot cur with chan := some cur, state := .sleeping }

/-- `p->chan = 0` when a sleeper runs again. -/
def wake (t : Ptable) (cur : Fin NPROC) : Ptable := t.set cur { t.slot cur with chan := none }

/-- `kill(pid)`: the first slot with that pid, whatever its state. -/
def killPid (t : Ptable) (pid : ℤ) : Option Ptable :=
  ((List.finRange NPROC).find? (fun p => (t.slot p).pid = pid)).map (fun p =>
    t.set p { t.slot p with
      killed := true, state := if (t.slot p).state = .sleeping then .runnable else (t.slot p).state })

/-- Which slots have an address space and how large it is. -/
def spaces (t : Ptable) (i : Fin NPROC) : Option ℕ :=
  if (t.slot i).state.hasSpace then some (t.slot i).sz else none

theorem set_slot (t : Ptable) (i j : Fin NPROC) (s : Slot) :
    (t.set i s).slot j = if j = i then s else t.slot j := by
  rw [set]
  by_cases h : j = i
  · subst h; simp
  · simp [h]

theorem findUnused_eq {t : Ptable} {p : Fin NPROC} (hp : (t.slot p).state = .unused)
    (hlt : ∀ j < p, (t.slot j).state ≠ .unused) : t.findUnused = some p :=
  Tally.find_finRange (by simp [hp]) (fun j hj => by simp [hlt j hj])

theorem findUnused_state {t : Ptable} {i : Fin NPROC} (h : t.findUnused = some i) :
    (t.slot i).state = .unused := by
  have := List.find?_some h
  simpa using this

theorem findZombie_state {t : Ptable} {cur p : Fin NPROC} (h : t.findZombie cur = some p) :
    (t.slot p).parent = some cur ∧ (t.slot p).state = .zombie := by
  have := List.find?_some h
  simpa using this

theorem set_spaces {t : Ptable} {i : Fin NPROC} {s : Slot}
    (h : s.state.hasSpace = (t.slot i).state.hasSpace) (hsz : s.sz = (t.slot i).sz) :
    (t.set i s).spaces = t.spaces := by
  funext j
  rw [spaces, spaces, set_slot]
  split
  · next hj => subst hj; rw [h, hsz]
  · rfl

theorem setState_spaces {t : Ptable} {i : Fin NPROC} {s : ProcState}
    (h : s.hasSpace = (t.slot i).state.hasSpace) : (t.setState i s).spaces = t.spaces :=
  set_spaces h rfl

theorem setSz_spaces (t : Ptable) (i j : Fin NPROC) (n : ℕ) :
    (t.setSz i n).spaces j = if j = i then (t.spaces i).map (fun _ => n) else t.spaces j := by
  rw [setSz, spaces, set_slot]
  split
  · next h =>
    subst h
    rw [spaces]
    split <;> rfl
  · rfl

theorem wakeup1_spaces (t : Ptable) (c : Option (Fin NPROC)) :
    (t.wakeup1 c).spaces = t.spaces := by
  funext j
  simp only [spaces, wakeup1]
  split
  · next h => simp [h.1, ProcState.hasSpace]
  · rfl

theorem adopt_spaces (cur : Fin NPROC) (t : Ptable) (p : Fin NPROC) :
    (adopt cur t p).spaces = t.spaces := by
  have hset : (t.set p { t.slot p with parent := some t.initproc }).spaces = t.spaces :=
    set_spaces rfl rfl
  unfold adopt
  split
  · dsimp only
    split
    · rw [wakeup1_spaces, hset]
    · exact hset
  · rfl

theorem adoptAll_spaces (cur : Fin NPROC) (l : List (Fin NPROC)) (t : Ptable) :
    (l.foldl (adopt cur) t).spaces = t.spaces := by
  induction l generalizing t with
  | nil => rfl
  | cons p l ih => rw [List.foldl_cons, ih, adopt_spaces]

theorem exit_spaces {t : Ptable} {cur : Fin NPROC} (h : (t.slot cur).state.hasSpace = true) :
    (t.exit cur).spaces = t.spaces := by
  have hall := adoptAll_spaces cur (List.finRange NPROC) (t.wakeup1 (t.slot cur).parent)
  rw [wakeup1_spaces] at hall
  have hcur := congrFun hall cur
  have hs : (((List.finRange NPROC).foldl (adopt cur)
      (t.wakeup1 (t.slot cur).parent)).slot cur).state.hasSpace = true := by
    by_contra hn
    simp [spaces, h, hn] at hcur
  rw [exit, setState_spaces (by rw [hs]; decide), hall]

theorem killPid_spaces {t t' : Ptable} {pid : ℤ} (h : t.killPid pid = some t') :
    t'.spaces = t.spaces := by
  rw [killPid, Option.map_eq_some_iff] at h
  obtain ⟨p,-,rfl⟩ := h
  apply set_spaces
  · dsimp only
    split
    · next hs => rw [hs]; rfl
    · rfl
  · rfl

end Ptable

end Xv6.Table
