import Xv6.Proc.Tree

/-!
# Who reaps whom

Under any interleaving pids are distinct, every process but the first has a parent
that is alive, a process asleep in `wait` has no zombie child, and `wait` returns a
pid once, to the parent of that moment, after the exit.
-/

set_option autoImplicit false

namespace Xv6.Tree
open Xv6.Mmu Xv6.Table

/-- The event is the return of the pid from a `wait`. -/
def Event.reaps (pid : ℤ) : Event → Bool
  | .wait p _ => p = pid
  | _ => false

/-- What a step does to the pids of the slots in use. -/
inductive Numbers (s s' : Sys) : Prop where
  | same (hpid : ∀ p, s'.state p ≠ .unused → s.state p ≠ .unused ∧ s'.pid p = s.pid p)
      (hn : s'.table.nextpid = s.table.nextpid) (hk : s'.allocs = s.allocs)
      (hz : ∀ p, s'.state p = .zombie → s.state p = .zombie ∨ .exit (s'.pid p) ∈ s'.log)
      (hlog : s'.log = s.log ∨ ∃ e, s'.log = e::s.log ∧ ∀ pid, e.reaps pid = false)
  | alloc {np : Fin NPROC} (hu : s.state np = .unused)
      (hs : ∀ p, s'.state p = if p = np then .embryo else s.state p)
      (hp : ∀ p, s'.pid p = if p = np then s.table.nextpid else s.pid p)
      (hn : s'.table.nextpid = s.table.nextpid+1) (hk : s'.allocs = s.allocs+1)
      (hlog : s'.log = .alloc s.table.nextpid::s.log)
  | reap {i p : Fin NPROC} (hz : s.state p = .zombie) (hc : s.parent p = some i)
      (hs : ∀ j, s'.state j = if j = p then .unused else s.state j)
      (hp : ∀ j, j ≠ p → s'.pid j = s.pid j)
      (hn : s'.table.nextpid = s.table.nextpid) (hk : s'.allocs = s.allocs)
      (hlog : s'.log = .wait (s.pid p) i::s.log)

theorem numbers_set {s s' : Sys} {p : Fin NPROC} {r : Slot}
    (ht : s'.table.slot = (s.table.set p r).slot) (hn : s'.table.nextpid = s.table.nextpid)
    (hk : s'.allocs = s.allocs) (hpid : r.pid = s.pid p)
    (hu : r.state ≠ .unused → s.state p ≠ .unused)
    (hz : r.state = .zombie → s.state p = .zombie ∨ .exit (s.pid p) ∈ s'.log)
    (hlog : s'.log = s.log ∨ ∃ e, s'.log = e::s.log ∧ ∀ pid, e.reaps pid = false) :
    Numbers s s' := by
  have hslot : ∀ j, s'.table.slot j = if j = p then r else s.table.slot j := by
    intro j
    rw [ht, Ptable.set_slot]
  have hpids : ∀ j, s'.pid j = s.pid j := by
    intro j
    rw [Sys.pid, hslot]
    split
    · next h => rw [hpid, h]
    · rfl
  refine .same (fun j hj => ⟨?_,hpids j⟩) hn hk (fun j hj => ?_) hlog
  · rw [Sys.state, hslot] at hj
    split at hj
    · next h => rw [h]; exact hu hj
    · exact hj
  · rw [hpids j]
    rw [Sys.state, hslot] at hj
    split at hj
    · next h => rw [h]; exact hz hj
    · exact .inl hj

theorem phase_free {x : ProcState} : phase x = .free ↔ x = .unused := by
  cases x <;> simp [phase]

theorem numbers_rest {s s' : Sys} (hs : ∀ j, phase (s'.state j) = phase (s.state j))
    (hp : ∀ j, s'.pid j = s.pid j) (hn : s'.table.nextpid = s.table.nextpid)
    (hk : s'.allocs = s.allocs)
    (hlog : s'.log = s.log ∨ ∃ e, s'.log = e::s.log ∧ ∀ pid, e.reaps pid = false) :
    Numbers s s' := by
  refine .same (fun j hj => ⟨fun h => hj ?_,hp j⟩) hn hk (fun j hj => .inl (phase_dead ?_)) hlog
  · rw [← phase_free, hs, h]
    rfl
  · rw [← hs, hj]
    rfl

theorem adopt_field {β : Type} (f : Slot → β) (t : Ptable) (cur p j : Fin NPROC)
    (hp : ∀ (x : Slot) c, f { x with parent := c } = f x)
    (hs : ∀ x : Slot, x.state = .sleeping → f { x with state := .runnable } = f x) :
    f ((Ptable.adopt cur t p).slot j) = f (t.slot j) := by
  have hset : f ((t.set p { t.slot p with parent := some t.initproc }).slot j) =
      f (t.slot j) := by
    rw [Ptable.set_slot]
    split
    · next h => rw [hp, h]
    · rfl
  by_cases hc : (t.slot p).parent = some cur
  · rw [adopt_child hc]
    split
    · rw [wakeup1_field f _ _ hs, hset]
    · exact hset
  · rw [Ptable.adopt, if_neg hc]

theorem adopt_nextpid (t : Ptable) (cur p : Fin NPROC) :
    (Ptable.adopt cur t p).nextpid = t.nextpid := by
  by_cases hc : (t.slot p).parent = some cur
  · rw [adopt_child hc]
    split <;> rfl
  · rw [Ptable.adopt, if_neg hc]

theorem scan_numbers {s : Sys} {i : Fin NPROC} (hi : s.state i = .running) :
    Numbers s (s.scan i) := by
  rw [Sys.scan]
  split
  · next p hz =>
    obtain ⟨hz1,hz2⟩ := Ptable.findZombie_state hz
    refine .reap hz2 hz1 (fun j => ?_) (fun j hj => ?_) rfl rfl rfl
    · exact (congrArg Slot.state (Ptable.set_slot _ _ _ _)).trans (apply_ite _ _ _ _)
    · exact congrArg Slot.pid ((Ptable.set_slot _ _ _ _).trans (if_neg hj))
  · split
    · exact numbers_rest (fun _ => rfl) (fun _ => rfl) rfl rfl (.inl rfl)
    · exact numbers_set rfl rfl rfl rfl (fun _ => by rw [hi]; decide) (fun h => by cases h) (.inl rfl)

theorem waits_numbers {s : Sys} {i : Fin NPROC} (hi : s.state i = .running) :
    Numbers s (s.waits i) := by
  have hpid : (s.setTable (s.table.wake i)).pid = s.pid :=
    funext (fun j => wake_field Slot.pid s i j (fun _ => rfl))
  have hw : (s.setTable (s.table.wake i)).state i = .running := by rw [wake_state, hi]
  cases scan_numbers hw with
  | same h1 hn hk hz hlog =>
    rw [wake_state, hpid] at h1
    rw [wake_state] at hz
    exact .same h1 hn hk hz hlog
  | alloc hu hs hp hn hk hlog =>
    rw [wake_state] at hu hs
    rw [hpid] at hp
    exact .alloc hu hs hp hn hk hlog
  | reap hz hc hs hp hn hk hlog =>
    rw [wake_state] at hz hs
    rw [wake_parent] at hc
    rw [hpid] at hp hlog
    exact .reap hz hc hs hp hn hk hlog

theorem kills_numbers (s : Sys) (pid : ℤ) : Numbers s (s.kills pid) := by
  rw [Sys.kills, Ptable.killPid]
  cases (List.finRange NPROC).find? (fun p => (s.table.slot p).pid = pid) with
  | none => exact numbers_rest (fun _ => rfl) (fun _ => rfl) rfl rfl (.inr ⟨_,rfl,fun _ => rfl⟩)
  | some p =>
    refine numbers_set rfl rfl rfl rfl ?_ ?_ (.inr ⟨_,rfl,fun _ => rfl⟩)
    · dsimp only
      split
      · next h => exact fun _ h' => by cases h.symm.trans h'
      · exact id
    · dsimp only
      split
      · exact fun h => by cases h
      · exact .inl

theorem Step.numbers {s s' : Sys} {a : Act} (hf : Family.Shape s.tree) (hs : Step s a s') :
    Numbers s s' := by
  have hwake : ∀ x : Slot, x.state = .sleeping → phase ({ x with state := .runnable } : Slot).state =
      phase x.state := fun _ h => (congrArg phase h).symm
  cases hs with
  | run hl hi => exact numbers_set rfl rfl rfl rfl (fun _ => by rw [hi]; decide) nofun (.inl rfl)
  | yield hl hi => exact numbers_set rfl rfl rfl rfl (fun _ => by rw [hi]; decide) nofun (.inl rfl)
  | block hl hi hp =>
    exact numbers_set rfl rfl rfl rfl (fun _ => by rw [hi]; decide) nofun (.inl rfl)
  | wakeup hl hi hp =>
    exact numbers_set rfl rfl rfl rfl (fun _ => by rw [hi]; decide) nofun (.inl rfl)
  | resume hi hp => exact numbers_set rfl rfl rfl rfl id .inl (.inl rfl)
  | alloc hl hi hp hu =>
    refine .alloc (Ptable.findUnused_state hu) (fun p => ?_) (fun p => ?_) rfl rfl rfl
    · exact (congrArg Slot.state (Ptable.set_slot _ _ _ _)).trans (apply_ite _ _ _ _)
    · exact (congrArg Slot.pid (Ptable.set_slot _ _ _ _)).trans (apply_ite _ _ _ _)
  | fail hi hp => exact numbers_set rfl rfl rfl rfl (fun h => absurd rfl h) nofun (.inl rfl)
  | place hi hp => exact numbers_set rfl rfl rfl rfl id .inl (.inl rfl)
  | @launch i np hl hi hp =>
    have he := (hf.owns i np (.inr (congrArg Point.role hp))).2
    refine numbers_set rfl rfl rfl rfl (fun _ h => ?_) nofun (.inr ⟨_,rfl,fun _ => rfl⟩)
    cases he.symm.trans (congrArg phase h)
  | leave hl hi hp hne =>
    exact numbers_rest (fun j => wakeup1_field (fun x => phase x.state) _ _ hwake j)
      (fun j => wakeup1_field Slot.pid _ _ (fun _ _ => rfl) j) rfl rfl (.inl rfl)
  | adopt hp =>
    exact numbers_rest (fun j => adopt_field (fun x => phase x.state) _ _ _ j (fun _ _ => rfl) hwake)
      (fun j => adopt_field Slot.pid _ _ _ j (fun _ _ => rfl) (fun _ _ => rfl)) (adopt_nextpid _ _ _) rfl (.inl rfl)
  | @die i hp =>
    have he := (hf.leaving i [] (congrArg Point.role hp)).1
    refine numbers_set rfl rfl rfl rfl (fun _ h => ?_) (fun _ => .inr (List.mem_cons_self ..))
      (.inr ⟨_,rfl,fun _ => rfl⟩)
    cases he.symm.trans (congrArg phase h)
  | wait hl hi hp => exact waits_numbers hi
  | kill hl hi hp => exact kills_numbers s _
  | trap hi => exact numbers_set rfl rfl rfl rfl id .inl (.inl rfl)

/-- Pids are handed out upwards and not twice: slots in use have different ones, a
zombie has logged its exit, and a pid that `wait` has returned is in no slot. -/
structure Pids (s : Sys) : Prop where
  next : s.table.nextpid = s.allocs+1
  range : ∀ p, s.state p ≠ .unused → 0 < s.pid p ∧ s.pid p < s.table.nextpid
  inj : ∀ p q, s.state p ≠ .unused → s.state q ≠ .unused → s.pid p = s.pid q → p = q
  exited : ∀ p, s.state p = .zombie → .exit (s.pid p) ∈ s.log
  gone : ∀ pid, 0 < s.log.countP (Event.reaps pid) →
    pid < s.table.nextpid ∧ ∀ p, s.state p ≠ .unused → s.pid p ≠ pid
  once : ∀ pid, s.log.countP (Event.reaps pid) ≤ 1

theorem pids_same {s s' : Sys} (h : Pids s)
    (hpid : ∀ p, s'.state p ≠ .unused → s.state p ≠ .unused ∧ s'.pid p = s.pid p)
    (hn : s'.table.nextpid = s.table.nextpid) (hk : s'.allocs = s.allocs)
    (hz : ∀ p, s'.state p = .zombie → s.state p = .zombie ∨ .exit (s'.pid p) ∈ s'.log)
    (hlog : s'.log = s.log ∨ ∃ e, s'.log = e::s.log ∧ ∀ pid, e.reaps pid = false) : Pids s' := by
  have hsub : ∀ e ∈ s.log, e ∈ s'.log := by
    obtain hl | ⟨e,hl,-⟩ := hlog <;> rw [hl]
    · exact fun _ => id
    · exact fun _ => List.mem_cons_of_mem _
  have hcount : ∀ pid, s'.log.countP (Event.reaps pid) = s.log.countP (Event.reaps pid) := by
    intro pid
    obtain hl | ⟨e,hl,he⟩ := hlog <;> rw [hl]
    rw [List.countP_cons_of_neg (by rw [he]; exact Bool.false_ne_true)]
  refine ⟨by rw [hn, hk, h.next],fun p hp => ?_,fun p q hp hq he => ?_,fun p hp => ?_,
    fun pid hpos => ?_,fun pid => by rw [hcount]; exact h.once pid⟩
  · obtain ⟨h1,h2⟩ := hpid p hp
    rw [h2, hn]
    exact h.range p h1
  · obtain ⟨h1,h2⟩ := hpid p hp
    obtain ⟨h3,h4⟩ := hpid q hq
    exact h.inj p q h1 h3 (by rw [← h2, ← h4, he])
  · obtain h1 | h1 := hz p hp
    · rw [(hpid p (by rw [hp]; decide)).2]
      exact hsub _ (h.exited p h1)
    · exact h1
  · rw [hcount] at hpos
    obtain ⟨h1,h2⟩ := h.gone pid hpos
    refine ⟨by rw [hn]; exact h1,fun p hp => ?_⟩
    obtain ⟨h3,h4⟩ := hpid p hp
    rw [h4]
    exact h2 p h3

theorem pids_step {s s' : Sys} (h : Pids s) (hs : Numbers s s') : Pids s' := by
  cases hs with
  | same hpid hn hk hz hlog => exact pids_same h hpid hn hk hz hlog
  | @alloc np hu hs hp hn hk hlog =>
    -- the new pid is above every pid in use and every pid returned
    have hold : ∀ p, p ≠ np → s'.state p ≠ .unused → s.state p ≠ .unused ∧ s'.pid p = s.pid p := by
      intro p hne h1
      rw [hs, if_neg hne] at h1
      exact ⟨h1,by rw [hp, if_neg hne]⟩
    have hnew : s'.pid np = s.table.nextpid := by rw [hp, if_pos rfl]
    have hpos : 0 < s.table.nextpid := by
      rw [h.next]
      omega
    have hlt : ∀ p, p ≠ np → s'.state p ≠ .unused → 0 < s'.pid p ∧ s'.pid p < s.table.nextpid := by
      intro p hne h1
      obtain ⟨h2,h3⟩ := hold p hne h1
      rw [h3]
      exact h.range p h2
    have hcount : ∀ pid, s'.log.countP (Event.reaps pid) = s.log.countP (Event.reaps pid) := by
      intro pid
      rw [hlog, List.countP_cons_of_neg (by exact Bool.false_ne_true)]
    refine ⟨by rw [hn, hk, h.next]; push_cast; ring,fun p h1 => ?_,fun p q h1 h2 he => ?_,
      fun p h1 => ?_,fun pid h1 => ?_,fun pid => by rw [hcount]; exact h.once pid⟩
    · rw [hn]
      by_cases hne : p = np
      · rw [hne, hnew]
        omega
      · have := hlt p hne h1
        omega
    · by_cases hne : p = np <;> by_cases hne' : q = np
      · rw [hne, hne']
      · have := hlt q hne' h2
        rw [hne, hnew] at he
        omega
      · have := hlt p hne h1
        rw [hne', hnew] at he
        omega
      · obtain ⟨h3,h4⟩ := hold p hne h1
        obtain ⟨h5,h6⟩ := hold q hne' h2
        exact h.inj p q h3 h5 (by rw [← h4, ← h6, he])
    · rw [hs] at h1
      split at h1
      · cases h1
      · next hne =>
        rw [hp, if_neg hne, hlog]
        exact List.mem_cons_of_mem _ (h.exited p h1)
    · rw [hcount] at h1
      obtain ⟨h2,h3⟩ := h.gone pid h1
      refine ⟨by omega,fun p h4 => ?_⟩
      by_cases hne : p = np
      · rw [hne, hnew]
        omega
      · obtain ⟨h5,h6⟩ := hold p hne h4
        rw [h6]
        exact h3 p h5
  | @reap i p hz hc hs hp hn hk hlog =>
    -- the pid was in a slot, so `wait` has not returned it before
    have hold : ∀ j, s'.state j ≠ .unused → j ≠ p ∧ s.state j ≠ .unused ∧ s'.pid j = s.pid j := by
      intro j h1
      rw [hs] at h1
      split at h1
      · exact absurd rfl h1
      · next hne => exact ⟨hne,h1,hp j hne⟩
    have hzu : s.state p ≠ .unused := by rw [hz]; decide
    have hnone : s.log.countP (Event.reaps (s.pid p)) = 0 := by
      by_contra h1
      exact (h.gone _ (Nat.pos_of_ne_zero h1)).2 p hzu rfl
    have hcount : ∀ pid, s'.log.countP (Event.reaps pid) =
        s.log.countP (Event.reaps pid)+if s.pid p = pid then 1 else 0 := by
      intro pid
      rw [hlog, List.countP_cons]
      simp [Event.reaps]
    refine ⟨by rw [hn, hk, h.next],fun j h1 => ?_,fun j k h1 h2 he => ?_,fun j h1 => ?_,
      fun pid h1 => ?_,fun pid => ?_⟩
    · obtain ⟨-,h2,h3⟩ := hold j h1
      rw [h3, hn]
      exact h.range j h2
    · obtain ⟨-,h3,h4⟩ := hold j h1
      obtain ⟨-,h5,h6⟩ := hold k h2
      exact h.inj j k h3 h5 (by rw [← h4, ← h6, he])
    · rw [hs] at h1
      split at h1
      · cases h1
      · next hne =>
        rw [hp j hne, hlog]
        exact List.mem_cons_of_mem _ (h.exited j h1)
    · by_cases hpid : s.pid p = pid
      · subst hpid
        rw [hn]
        refine ⟨(h.range p hzu).2,fun j h2 he => ?_⟩
        obtain ⟨hne,h3,h4⟩ := hold j h2
        exact hne (h.inj j p h3 hzu (by rw [← h4, he]))
      · rw [hcount, if_neg hpid] at h1
        obtain ⟨h2,h3⟩ := h.gone pid h1
        refine ⟨by rw [hn]; exact h2,fun j h4 => ?_⟩
        obtain ⟨-,h5,h6⟩ := hold j h4
        rw [h6]
        exact h3 j h5
    · rw [hcount]
      split
      · next hpid => rw [← hpid, hnone]
      · exact h.once pid

theorem boot_pids : Pids boot := by
  have hslot : ∀ p, boot.state p ≠ .unused → p = slot0 := by
    intro p hp
    by_contra hne
    exact hp (congrArg Slot.state (if_neg hne))
  refine ⟨rfl,fun p hp => ?_,fun p q hp hq _ => ?_,fun p hp => ?_,fun pid h => ?_,fun pid => ?_⟩
  · rw [hslot p hp]
    decide
  · rw [hslot p hp, hslot q hq]
  · rw [hslot p (by rw [hp]; decide)] at hp
    cases hp
  · exact absurd h (Nat.lt_irrefl 0)
  · exact Nat.zero_le 1

theorem reach_pids {C : Sys → Act → Prop} {s : Sys} (h : Reach C s) : Pids s := by
  induction h with
  | init => exact boot_pids
  | step h hC hs ih => exact pids_step ih (hs.numbers (reach_sound h).shape)

/-- No condition on the steps. -/
def Any (_ : Sys) (_ : Act) : Prop := True

theorem child_exits : ∃ s, Reach Any s ∧ s.allocs = 2 ∧ s.pid slot1 = 2 ∧
    s.parent slot1 = some slot0 ∧ s.state slot1 = .zombie := by
  have h1 := (Reach.init (C := Any)).step trivial (.run (i := slot0) rfl rfl)
  have h2 := h1.step trivial (@Step.alloc _ slot0 slot1 rfl rfl rfl (by decide))
  have h3 := h2.step trivial (@Step.place _ slot0 slot1 rfl rfl)
  have h4 := h3.step trivial (@Step.launch _ slot0 slot1 rfl rfl rfl)
  have h5 := h4.step trivial (.run (i := slot1) rfl rfl)
  obtain ⟨s,hs,ht,-,hk,-⟩ := exit_steps (fun _ _ => trivial) h5 (i := slot1) rfl rfl rfl (by decide)
  refine ⟨s,hs,hk,?_,?_,?_⟩
  · rw [Sys.pid, ht]
    decide +kernel
  · rw [Sys.parent, ht]
    decide +kernel
  · rw [Sys.state, ht]
    decide +kernel

/-- The process tree and its reaping, with fewer than `2^31` pids handed out so far. The
last part is about the step in which a `wait` of `i` returns `pid`. -/
theorem process_tree {s : Sys} (h : Reach Any s) (hk : s.allocs < 2^31) :
    (∀ p, s.state p ≠ .unused → 0 < s.pid p ∧ s.pid p < 2^31) ∧
    (∀ p q, s.state p ≠ .unused → s.state q ≠ .unused → s.pid p = s.pid q → p = q) ∧
    (∀ p, s.state p ≠ .unused → s.state p ≠ .embryo → p ≠ s.table.initproc →
      ∃ q, s.parent p = some q ∧ s.state q ≠ .unused ∧ s.state q ≠ .zombie) ∧
    (∀ pid, s.log.countP (Event.reaps pid) ≤ 1) ∧
    ∀ a s' pid i, Step s a s' → s'.log = .wait pid i::s.log →
      ∃ p, s.pid p = pid ∧ s.parent p = some i ∧ s.state p = .zombie ∧ .exit pid ∈ s.log := by
  have hf := reach_sound h
  have hp := reach_pids h
  refine ⟨fun p hu => ?_,hp.inj,fun p hu he hne => ?_,hp.once,fun a s' pid i hs hlog => ?_⟩
  · have := hp.range p hu
    rw [hp.next] at this
    omega
  · have hphase : s.tree.phase p = .live ∨ s.tree.phase p = .dead := by
      change phase (s.state p) = _ ∨ phase (s.state p) = _
      revert hu he
      cases s.state p <;> simp [phase]
    obtain ⟨q,hq⟩ := Option.ne_none_iff_exists'.1 (hf.kin.child p hphase hne)
    have hlive := hf.kin.live p q hq
    refine ⟨q,hq,fun h1 => ?_,fun h1 => ?_⟩
    · cases hlive.symm.trans (congrArg phase h1)
    · cases hlive.symm.trans (congrArg phase h1)
  · cases hs.numbers hf.shape with
    | same _ _ _ _ h1 =>
      obtain h1 | ⟨e,h1,he⟩ := h1
      · exact absurd (hlog.symm.trans h1) (List.cons_ne_self _ _)
      · obtain ⟨rfl,-⟩ := List.cons.inj (h1.symm.trans hlog)
        exact absurd (he pid) (by simp [Event.reaps])
    | alloc _ _ _ _ _ h1 => exact absurd (List.cons.inj (h1.symm.trans hlog)).1 nofun
    | reap hz hc _ _ _ _ h1 =>
      obtain ⟨he,-⟩ := List.cons.inj (h1.symm.trans hlog)
      obtain ⟨rfl,rfl⟩ := Event.wait.inj he
      exact ⟨_,rfl,hc,hz,hp.exited _ hz⟩

theorem process_tree_zombie : ∃ s, Reach Any s ∧ s.allocs < 2^31 ∧ s.state slot1 = .zombie ∧
    ∀ pid, s.log.countP (Event.reaps pid) ≤ 1 := by
  obtain ⟨s,h,hk,-,-,hz⟩ := child_exits
  have hlt : s.allocs < 2^31 := by rw [hk]; decide
  exact ⟨s,h,hlt,hz,(process_tree h hlt).2.2.2.1⟩

/-- Nobody is asleep in `wait` while a child of its own is a zombie, whoever holds
`ptable.lock`. -/
theorem no_sleep_beside_zombie {s : Sys} (h : Reach Any s) :
    ¬ ∃ q p, s.state q = .sleeping ∧ (s.table.slot q).chan = some q ∧
      s.parent p = some q ∧ s.state p = .zombie := by
  rintro ⟨q,p,h1,h2,hc,hz⟩
  exact (reach_sound h).quiet.dead p q (congrArg phase hz) hc ⟨h1,h2⟩

theorem no_sleep_beside_first_zombie : ∃ s, Reach Any s ∧ s.parent slot1 = some slot0 ∧
    s.state slot1 = .zombie ∧ ¬ s.Asleep slot0 := by
  obtain ⟨s,h,-,-,hc,hz⟩ := child_exits
  exact ⟨s,h,hc,hz,fun ha => no_sleep_beside_zombie h ⟨slot0,slot1,ha.1,ha.2,hc,hz⟩⟩

end Xv6.Tree
