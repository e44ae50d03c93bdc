import Xv6.Proc.Reaping

/-!
# Which process a kill reaches

`kill` compares pids without looking at the state of the slot, and a slot keeps its
pid and its `killed` mark when a fork fails. Where no kill names such a stale pid and
no fork fails whose child has been killed, `kill` reaches live processes only and
every child starts without the mark, unless its own pid was killed.
-/

set_option autoImplicit false

namespace Xv6.Tree
open Xv6.Mmu Xv6.Table

/-- `kill(pid)`: the result and the table. -/
def killCall (t : Ptable) (pid : ℤ) : ℤ × Ptable :=
  match t.killPid pid with
  | some t' => (0, t')
  | none => (-1, t)

/-- The pid was killed after it was handed out. -/
def killedSince (pid : ℤ) : List Event → Bool
  | [] => false
  | .alloc p::log => p != pid && killedSince pid log
  | .fork _::log => killedSince pid log
  | .exit _::log => killedSince pid log
  | .wait _ _::log => killedSince pid log
  | .kill p::log => p == pid || killedSince pid log

/-- No slot that is not in use carries the pid. -/
def NotStale (s : Sys) (pid : ℤ) : Prop := ∀ p, s.state p = .unused → s.pid p ≠ pid

instance (s : Sys) (pid : ℤ) : Decidable (NotStale s pid) :=
  inferInstanceAs (Decidable (∀ p, s.state p = .unused → s.pid p ≠ pid))

/-- Kills name no stale pid, no fork fails after its child was killed, and the pids
stay in the range of an `int`. -/
def Aimed (s : Sys) : Act → Prop
  | .kill _ pid => NotStale s pid
  | .fail _ np => s.killed np = false
  | .alloc _ _ => s.allocs+1 < 2^31
  | _ => True

/-- Free slots carry no mark, and a child being made only its own. -/
structure Spared (s : Sys) : Prop where
  unused : ∀ p, s.state p = .unused → s.killed p = false
  embryo : ∀ p, s.state p = .embryo → s.killed p = true → killedSince (s.pid p) s.log = true

theorem spared_set {s s' : Sys} {p : Fin NPROC} {r : Slot} (h : Spared s)
    (ht : s'.table.slot = (s.table.set p r).slot)
    (hlog : ∀ j, s.state j = .embryo → killedSince (s.pid j) s.log = true →
      killedSince (s.pid j) s'.log = true)
    (hu : r.state = .unused → r.killed = false)
    (he : r.state = .embryo → r.killed = true → killedSince r.pid s'.log = true) :
    Spared s' := by
  have hslot : ∀ j, s'.table.slot j = if j = p then r else s.table.slot j := by
    intro j
    rw [ht, Ptable.set_slot]
  constructor
  · intro j hj
    rw [Sys.state, hslot] at hj
    rw [Sys.killed, hslot]
    split at hj
    · next h1 => rw [if_pos h1]; exact hu hj
    · next h1 => rw [if_neg h1]; exact h.unused j hj
  · intro j hj hk
    rw [Sys.state, hslot] at hj
    rw [Sys.killed, hslot] at hk
    rw [Sys.pid, hslot]
    split at hj
    · next h1 =>
      rw [if_pos h1] at hk ⊢
      exact he hj hk
    · next h1 =>
      rw [if_neg h1] at hk ⊢
      exact hlog j hj (h.embryo j hj hk)

theorem phase_nascent {x : ProcState} : phase x = .nascent ↔ x = .embryo := by
  cases x <;> simp [phase]

theorem spared_rest {s s' : Sys} (h : Spared s)
    (hs : ∀ j, phase (s'.state j) = phase (s.state j)) (hp : ∀ j, s'.pid j = s.pid j)
    (hk : ∀ j, s'.killed j = s.killed j)
    (hlog : ∀ j, s.state j = .embryo → killedSince (s.pid j) s.log = true →
      killedSince (s.pid j) s'.log = true) : Spared s' := by
  constructor
  · intro j hj
    rw [← phase_free, hs, phase_free] at hj
    rw [hk]
    exact h.unused j hj
  · intro j hj hkj
    rw [← phase_nascent, hs, phase_nascent] at hj
    rw [hk] at hkj
    rw [hp]
    exact hlog j hj (h.embryo j hj hkj)

theorem killPid_cases (t : Ptable) (pid : ℤ) :
    (t.killPid pid = none ∧ ∀ p, (t.slot p).pid ≠ pid) ∨
    ∃ p, (t.slot p).pid = pid ∧ t.killPid pid = some (t.set p { t.slot p with
      killed := true
      state := if (t.slot p).state = .sleeping then .runnable else (t.slot p).state }) := by
  rw [Ptable.killPid]
  cases hf : (List.finRange NPROC).find? (fun p => (t.slot p).pid = pid) with
  | none =>
    refine .inl ⟨rfl,fun p hp => ?_⟩
    exact List.find?_eq_none.1 hf p (List.mem_finRange p) (decide_eq_true hp)
  | some p =>
    have hp := List.find?_some hf
    exact .inr ⟨p,of_decide_eq_true hp,rfl⟩

theorem kills_spared {s : Sys} {pid : ℤ} (h : Spared s) (hst : NotStale s pid) :
    Spared (s.kills pid) := by
  have hlog : ∀ j, s.state j = .embryo → killedSince (s.pid j) s.log = true →
      killedSince (s.pid j) (s.kills pid).log = true := by
    intro j _ hk
    rw [show (s.kills pid).log = .kill pid::s.log from rfl, killedSince, hk, Bool.or_true]
  obtain ⟨hn,-⟩ | ⟨p,hp,hk⟩ := killPid_cases s.table pid
  · refine spared_rest h ?_ ?_ ?_ hlog <;> intro j <;> rw [Sys.kills, hn] <;> rfl
  · refine spared_set h (by rw [Sys.kills, hk]; rfl) hlog ?_ ?_
    · dsimp only
      split
      · exact fun h => by cases h
      · exact fun hu => absurd hp (hst p hu)
    · intro _ _
      rw [show (s.kills pid).log = .kill pid::s.log from rfl, killedSince]
      exact Bool.or_eq_true_iff.2 (.inl (beq_iff_eq.2 hp.symm))

theorem scan_spared {s : Sys} (h : Spared s) (i : Fin NPROC) : Spared (s.scan i) := by
  rw [Sys.scan]
  split
  · exact spared_set h rfl (fun _ _ hk => hk) (fun _ => rfl) (fun h => by cases h)
  · split
    · exact spared_rest h (fun _ => rfl) (fun _ => rfl) (fun _ => rfl) (fun _ _ hk => hk)
    · exact spared_set h rfl (fun _ _ hk => hk) (fun h => by cases h) (fun h => by cases h)

theorem spared_step {s s' : Sys} {a : Act} (hp : Pids s) (h : Spared s) (ha : Aimed s a)
    (hs : Step s a s') : Spared s' := by
  have hwake : ∀ x : Slot, x.state = .sleeping →
      phase ({ x with state := .runnable } : Slot).state = phase x.state :=
    fun _ h => (congrArg phase h).symm
  have hid : ∀ j, s.state j = .embryo → killedSince (s.pid j) s.log = true →
      killedSince (s.pid j) s.log = true := fun _ _ hk => hk
  cases hs with
  | run hl hi => exact spared_set h rfl hid nofun nofun
  | yield hl hi => exact spared_set h rfl hid nofun nofun
  | block hl hi hp => exact spared_set h rfl hid nofun nofun
  | wakeup hl hi hp => exact spared_set h rfl hid nofun nofun
  | resume hi hp => exact spared_set h rfl hid (h.unused _) (h.embryo _)
  | @alloc i np hl hi hpt hu =>
    have hkn := h.unused np (Ptable.findUnused_state hu)
    refine spared_set h rfl (fun j hj hk => ?_) nofun (fun _ hk => ?_)
    · -- the new pid is none of those in use
      have hlt := (hp.range j (by rw [hj]; decide)).2
      have hne : (s.table.nextpid != s.pid j) = true := bne_iff_ne.2 (by omega)
      change (s.table.nextpid != s.pid j && killedSince (s.pid j) s.log) = true
      rw [hne, hk]
      rfl
    · cases hkn.symm.trans hk
  | fail hi hp => exact spared_set h rfl hid (fun _ => ha) nofun
  | place hi hp => exact spared_set h rfl hid (h.unused _) (h.embryo _)
  | launch hl hi hp => exact spared_set h rfl hid nofun nofun
  | leave hl hi hp hne =>
    exact spared_rest h (fun j => wakeup1_field (fun x => phase x.state) _ _ hwake j)
      (fun j => wakeup1_field Slot.pid _ _ (fun _ _ => rfl) j)
      (fun j => wakeup1_field Slot.killed _ _ (fun _ _ => rfl) j) hid
  | adopt hp =>
    exact spared_rest h
      (fun j => adopt_field (fun x => phase x.state) _ _ _ j (fun _ _ => rfl) hwake)
      (fun j => adopt_field Slot.pid _ _ _ j (fun _ _ => rfl) (fun _ _ => rfl))
      (fun j => adopt_field Slot.killed _ _ _ j (fun _ _ => rfl) (fun _ _ => rfl)) hid
  | die hp => exact spared_set h rfl hid nofun nofun
  | @wait i hl hi hp =>
    refine scan_spared (s := s.setTable (s.table.wake i)) ?_ i
    exact spared_set h rfl hid (h.unused _) (h.embryo _)
  | kill hl hi hp => exact kills_spared h ha
  | trap hi =>
    refine spared_set h rfl hid (fun hu => ?_) (fun he => ?_)
    · cases hi.symm.trans hu
    · cases hi.symm.trans he

theorem reach_spared {s : Sys} (h : Reach Aimed s) : Spared s := by
  induction h with
  | init =>
    have hk : ∀ p, boot.killed p = false := by
      intro p
      by_cases hp : p = slot0
      · rw [hp]
        rfl
      · exact congrArg Slot.killed (if_neg hp)
    exact ⟨fun p _ => hk p,fun p _ h1 => absurd h1 (by rw [hk p]; exact Bool.false_ne_true)⟩
  | step h hC hs ih => exact spared_step (reach_pids h) ih hC hs

/-- In runs whose kills are aimed, `kill` of a pid that is not stale finds exactly the
processes in use and changes that one alone, and a child that starts with the mark had
its own pid killed. -/
theorem kill_reaches_live {s : Sys} (h : Reach Aimed s) :
    (∀ pid, NotStale s pid →
      (∃ p, s.state p ≠ .unused ∧ s.pid p = pid ∧ (killCall s.table pid).1 = 0 ∧
        (killCall s.table pid).2.nextpid = s.table.nextpid ∧
        ∀ j, j ≠ p → (killCall s.table pid).2.slot j = s.table.slot j) ∨
      (∀ p, s.state p ≠ .unused → s.pid p ≠ pid) ∧ killCall s.table pid = (-1, s.table)) ∧
    ∀ i np s', Step s (.launch i np) s' → s'.killed np = true →
      killedSince (s'.pid np) s'.log = true := by
  refine ⟨fun pid hst => ?_,fun i np s' hs hk => ?_⟩
  · obtain ⟨hn,hne⟩ | ⟨p,hp,hk⟩ := killPid_cases s.table pid
    · exact .inr ⟨fun p _ => hne p,by rw [killCall, hn]⟩
    · refine .inl ⟨p,fun hu => hst p hu hp,hp,by rw [killCall, hk],by rw [killCall, hk]; rfl,?_⟩
      intro j hj
      rw [killCall, hk]
      exact (Ptable.set_slot _ _ _ _).trans (if_neg hj)
  · have hf := (reach_sound h).shape
    cases hs with
    | launch hl hi hp =>
      have he : s.state np = .embryo :=
        phase_nascent.1 (hf.owns i np (.inr (congrArg Point.role hp))).2
      have hslot : (s.table.setState np .runnable).slot np =
          { s.table.slot np with state := .runnable } := (Ptable.set_slot _ _ _ _).trans (if_pos rfl)
      have hk' : s.killed np = true := (congrArg Slot.killed hslot).symm.trans hk
      change killedSince ((s.table.setState np .runnable).slot np).pid _ = true
      rw [hslot]
      exact (reach_spared h).embryo np he hk'

/-- A child with pid 2 that is killed before it starts. -/
theorem kill_reaches_embryo : ∃ s, Reach Aimed s ∧ s.state slot1 = .embryo ∧ s.pid slot1 = 2 ∧
    (killCall s.table 2).1 = 0 ∧ s.killed slot1 = false := by
  have h1 := (Reach.init (C := Aimed)).step (a := .run slot0) trivial (.run rfl rfl)
  have h2 := h1.step (a := .alloc slot0 slot1) (show _ < _ by decide)
    (.alloc rfl rfl rfl (by decide))
  refine ⟨_,h2,rfl,rfl,?_,rfl⟩
  obtain ⟨p,-,-,hk,-⟩ | ⟨hne,-⟩ := (kill_reaches_live h2).1 2 (by decide +kernel)
  · exact hk
  · exact absurd rfl (hne slot1 (by decide))

/-- `kill(0)` right after the first process runs succeeds on a slot that is not in use,
and the child that gets the slot starts with the mark though nobody killed its pid. -/
theorem kill_zero_marks_unused : ∃ s s', Reach Any s ∧ (∀ p, s.state p ≠ .unused → s.pid p ≠ 0) ∧
    (killCall s.table 0).1 = 0 ∧ Reach Any s' ∧ s'.state slot1 = .runnable ∧
    s'.log = [.fork 2, .alloc 2, .kill 0, .alloc 1] ∧ s'.pid slot1 = 2 ∧
    s'.killed slot1 = true := by
  have h1 := (Reach.init (C := Any)).step trivial (.run (i := slot0) rfl rfl)
  have h2 := h1.step trivial (@Step.kill _ slot0 0 rfl rfl rfl)
  have h3 := h2.step trivial (@Step.alloc _ slot0 slot1 rfl rfl rfl (by decide +kernel))
  have h4 := h3.step trivial (@Step.place _ slot0 slot1 rfl rfl)
  have h5 := h4.step trivial (@Step.launch _ slot0 slot1 rfl rfl rfl)
  refine ⟨_,_,h1,fun p hp => ?_,by decide +kernel,h5,by decide +kernel,by decide +kernel,
    by decide +kernel,by decide +kernel⟩
  have := ((reach_pids h1).range p hp).1
  omega

end Xv6.Tree
