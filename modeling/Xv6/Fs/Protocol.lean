import Xv6.Lib.Tally
import Xv6.Fs.BeginOp
import Xv6.Proc.Wakeup

/-!
# The log protocol

The invariant of `begin_op`, `log_write` and `end_op`: `log.outstanding` counts
the processes inside an operation, a commit has one owner and no operation beside
it, and the header holds the blocks of every operation since the last commit.
That nobody sleeps in `begin_op` while the log is idle is the contract of `sleep`
and `wakeup`, with the end of a commit as the only producer.
-/

set_option autoImplicit false

namespace Xv6.LogOps
open Xv6.Sleep Xv6.Log

variable {n size : ℕ} {admits : List ℕ → Prop}

/-- Where the blocks of an ended operation are: still in the header, or in the
transaction that its epoch names. -/
def Logged (d : LogData) (op : Op) : Prop :=
  (op.epoch = d.history.length ∧ ∀ b ∈ op.blocks, b ∈ d.lh) ∨
    ∃ t, d.history[op.epoch]? = some t ∧ ∀ b ∈ op.blocks, b ∈ t

def active (pts : Fin n → Point) : ℕ := Tally.tally Finset.univ (fun p => (pts p).op.isSome = true)

/-- What a process's point says about the log. -/
structure PointInv (d : LogData) (x : Point) : Prop where
  ops : ∀ op, x.op = some op → op.epoch = d.history.length ∧ ∀ b ∈ op.blocks, b ∈ d.lh
  cleared : x = .commitClear → ∀ op ∈ d.done, op.epoch < d.history.length
  emptied : x.emptied = true → d.lh = []
  sound : ∀ held op, x ≠ .panic held op "log.committing"

structure LogInv (d : LogData) (pts : Fin n → Point) : Prop where
  count : d.outstanding = active pts
  commits : d.committing = true ↔ ∃ p, (pts p).commits = true
  one : ∀ p q, (pts p).commits = true → (pts q).commits = true → p = q
  quiet : d.committing = true → d.outstanding = 0
  clean : d.committing = false → d.outstanding = 0 → d.lh = []
  done : ∀ op ∈ d.done, Logged d op
  header : d.lh.Nodup
  taken : ∀ t ∈ d.history, t.Nodup
  point : ∀ p, PointInv d (pts p)

theorem LogStart.inv {s : St LogData Point n} (h : LogStart s) : LogInv s.data s.points := by
  have hp : ∀ p, s.points p = .idle := by
    intro p
    rw [St.points, h.idle p, Ctl.point]
  rw [h.data]
  refine ⟨?_,by simp [hp, Point.commits],by simp [hp, Point.commits],fun _ => rfl,fun _ _ => rfl,
    by simp,List.nodup_nil,by simp,fun p => ⟨by simp [hp, Point.op],by simp [hp],fun _ => rfl,by simp [hp]⟩⟩
  symm
  rw [active, Tally.tally_eq_zero]
  simp [hp, Point.op]

theorem active_update (pts : Fin n → Point) (p : Fin n) (k : Point) :
    active (Function.update pts p k)+(if (pts p).op.isSome = true then 1 else 0) =
      active pts+(if k.op.isSome = true then 1 else 0) := by
  have h := Tally.tally_update Finset.univ (fun q => (pts q).op.isSome = true)
    (fun q => (Function.update pts p k q).op.isSome = true) p (Finset.mem_univ p)
    (fun q _ hq => by rw [Function.update_of_ne hq])
  simp only [Function.update_self] at h
  exact h

theorem active_same {pts : Fin n → Point} {p : Fin n} {k : Point}
    (h : k.op.isSome = (pts p).op.isSome) : active (Function.update pts p k) = active pts := by
  have hu := active_update pts p k
  rw [h] at hu
  omega

theorem forall_update {P : Fin n → Point → Prop} {pts : Fin n → Point} {p : Fin n} {k : Point}
    (hk : P p k) (hrest : ∀ q, q ≠ p → P q (pts q)) (q : Fin n) :
    P q (Function.update pts p k q) := by
  by_cases hq : q = p
  · subst hq
    rwa [Function.update_self]
  · rw [Function.update_of_ne hq]
    exact hrest q hq

theorem commits_update {pts : Fin n → Point} {p : Fin n} {k : Point}
    (h : k.commits = (pts p).commits) (q : Fin n) :
    (Function.update pts p k q).commits = (pts q).commits :=
  forall_update (P := fun q x => x.commits = (pts q).commits) h (fun _ _ => rfl) q

variable {d : LogData} {pts : Fin n → Point} {p : Fin n} {k : Point}

theorem emptied_commits (h : k.emptied = true) : k.commits = true := by
  cases k <;> simp_all [Point.emptied, Point.commits]

theorem LogInv.active_pos (h : LogInv d pts) {op : Op} (hop : (pts p).op = some op) :
    0 < d.outstanding := by
  rw [h.count, active, Tally.tally_pos]
  exact ⟨p,Finset.mem_univ p,by rw [hop]; rfl⟩

theorem LogInv.not_committing (h : LogInv d pts) {op : Op} (hop : (pts p).op = some op) :
    d.committing = false := by
  have hpos := h.active_pos hop
  by_contra hc
  rw [Bool.not_eq_false] at hc
  have := h.quiet hc
  omega

theorem LogInv.no_op (h : LogInv d pts) (ho : d.outstanding = 0) (q : Fin n) :
    (pts q).op = none := by
  cases hop : (pts q).op with
  | none => rfl
  | some op =>
    have := h.active_pos hop
    omega

/-- The parts of the invariant that speak of commits stay when neither
`log.committing` nor the moving process's part in a commit changes. -/
theorem LogInv.same_commits (h : LogInv d pts) (hco : k.commits = (pts p).commits) :
    (d.committing = true ↔ ∃ q, (Function.update pts p k q).commits = true) ∧
      ∀ q r, (Function.update pts p k q).commits = true →
        (Function.update pts p k r).commits = true → q = r := by
  simp only [commits_update hco]
  exact ⟨h.commits,h.one⟩

theorem LogInv.stay (h : LogInv d pts) (hop : k.op = (pts p).op)
    (hco : k.commits = (pts p).commits) (hcl : k ≠ .commitClear)
    (hem : k.emptied = true → (pts p).emptied = true)
    (hpa : ∀ held op, k ≠ .panic held op "log.committing") : LogInv d (Function.update pts p k) := by
  obtain ⟨hc,hone⟩ := h.same_commits hco
  refine ⟨?_,hc,hone,h.quiet,h.clean,h.done,h.header,h.taken,?_⟩
  · rw [h.count, active_same (by rw [hop])]
  · refine forall_update (P := fun _ => PointInv d) ?_ (fun q _ => h.point q)
    exact ⟨fun op hk => (h.point p).ops op (hop ▸ hk),fun hk => absurd hk hcl,
      fun hk => (h.point p).emptied (hem hk),hpa⟩

theorem LogInv.admit {todo : List ℕ} (h : LogInv d pts) (hp : pts p = .beginTest todo)
    (hf : ¬ d.full) : LogInv { d with outstanding := d.outstanding+1 }
      (Function.update pts p (.beginRelease ⟨d.history.length,[],todo⟩)) := by
  have hcf : d.committing ≠ true := fun hc => hf (Or.inl hc)
  obtain ⟨hc,hone⟩ := h.same_commits (p := p) (k := .beginRelease ⟨d.history.length,[],todo⟩)
    (by rw [hp]; rfl)
  refine ⟨?_,hc,hone,fun hcm => absurd hcm hcf,fun _ ho => absurd ho (Nat.succ_ne_zero _),h.done,
    h.header,h.taken,?_⟩
  · have hu := active_update pts p (.beginRelease ⟨d.history.length,[],todo⟩)
    simp only [hp, Point.op, Option.isSome_none, Option.isSome_some] at hu
    simp only [h.count]
    simpa using hu.symm
  · refine forall_update (P := fun _ => PointInv _) ⟨?_,by simp,by simp [Point.emptied],by simp⟩
      (fun q _ => ?_)
    · rintro op ⟨⟩
      simp
    · exact ⟨(h.point q).ops,(h.point q).cleared,(h.point q).emptied,(h.point q).sound⟩

theorem mem_absorb {lh : List ℕ} {b x : ℕ} : x ∈ absorb lh b ↔ x = b ∨ x ∈ lh := by
  unfold absorb
  split_ifs with hb
  · constructor
    · exact Or.inr
    · rintro (rfl | hx)
      · exact hb
      · exact hx
  · simp [or_comm]

theorem absorb_nodup {lh : List ℕ} (b : ℕ) (h : lh.Nodup) : (absorb lh b).Nodup := by
  unfold absorb
  split_ifs with hb
  · exact h
  · rw [List.nodup_append]
    refine ⟨h,List.nodup_singleton b,fun x hx y hy => ?_⟩
    rw [List.mem_singleton] at hy
    rintro rfl
    exact hb (hy ▸ hx)

theorem LogInv.record {op : Op} {b : ℕ} {todo : List ℕ} (h : LogInv d pts)
    (hp : pts p = .logRecord op) : LogInv { d with lh := absorb d.lh b }
      (Function.update pts p (.logRelease ⟨op.epoch,b::op.blocks,todo⟩)) := by
  have hop : (pts p).op = some op := by
    rw [hp]
    rfl
  have hpos := h.active_pos hop
  obtain ⟨hc,hone⟩ := h.same_commits (p := p) (k := .logRelease ⟨op.epoch,b::op.blocks,todo⟩)
    (by rw [hp]; rfl)
  refine ⟨?_,hc,hone,h.quiet,fun _ ho => absurd ho hpos.ne',fun op' hd => ?_,
    absorb_nodup b h.header,h.taken,?_⟩
  · simp only [h.count]
    rw [active_same (by rw [hop]; rfl)]
  · exact (h.done op' hd).imp (fun hl => ⟨hl.1,fun x hx => mem_absorb.mpr (Or.inr (hl.2 x hx))⟩) id
  · refine forall_update (P := fun _ => PointInv _) ⟨?_,by simp,by simp [Point.emptied],by simp⟩
      (fun q _ => ⟨?_,(h.point q).cleared,fun hq => ?_,(h.point q).sound⟩)
    · rintro op' ⟨⟩
      obtain ⟨he,hb⟩ := (h.point p).ops op hop
      refine ⟨he,fun x hx => mem_absorb.mpr ?_⟩
      exact (List.mem_cons.mp hx).imp id (hb x)
    · intro op' hq
      obtain ⟨he,hb⟩ := (h.point q).ops op' hq
      exact ⟨he,fun x hx => mem_absorb.mpr (Or.inr (hb x hx))⟩
    · exact absurd (h.commits.mpr ⟨q,emptied_commits hq⟩) (by simp [h.not_committing hop])

theorem LogInv.end_count {op : Op} (h : LogInv d pts) (hp : pts p = .endHeld op)
    (hk : k.op = none) : d.outstanding-1 = active (Function.update pts p k) := by
  have hu := active_update pts p k
  have hp' : (pts p).op.isSome = true := by
    rw [hp]
    rfl
  rw [hk, if_pos hp', if_neg (by simp)] at hu
  rw [h.count]
  omega

theorem LogInv.end_done {op : Op} (h : LogInv d pts) (hp : pts p = .endHeld op) {d' : LogData}
    (hh : d'.history = d.history) (hl : d'.lh = d.lh) :
    ∀ op' ∈ op::d.done, Logged d' op' := by
  intro op' hd
  unfold Logged
  rw [hh, hl]
  rcases List.mem_cons.mp hd with rfl | hd
  · exact Or.inl ((h.point p).ops op' (by rw [hp]; rfl))
  · exact h.done op' hd

theorem LogInv.end_last {op : Op} (h : LogInv d pts) (hp : pts p = .endHeld op)
    (ho : d.outstanding-1 = 0) :
    LogInv { d with outstanding := d.outstanding-1, committing := true, done := op::d.done }
      (Function.update pts p (.endRelease true)) := by
  have hop : (pts p).op = some op := by rw [hp]; rfl
  have hcf := h.not_committing hop
  have hnone : ∀ q, q ≠ p → (pts q).commits = false := by
    intro q _
    by_contra hq
    rw [h.commits.mpr ⟨q,by simpa using hq⟩] at hcf
    cases hcf
  have hcount := h.end_count (k := .endRelease true) hp rfl
  refine ⟨hcount,?_,?_,fun _ => ho,fun hc => absurd hc (by simp),h.end_done hp rfl rfl,h.header,
    h.taken,?_⟩
  · exact ⟨fun _ => ⟨p,by simp [Point.commits]⟩,fun _ => rfl⟩
  · have heq : ∀ q, (Function.update pts p (.endRelease true) q).commits = true → q = p := by
      intro q hq
      by_contra hqp
      rw [Function.update_of_ne hqp, hnone q hqp] at hq
      cases hq
    intro q r hq hr
    rw [heq q hq, heq r hr]
  · -- nobody else is in an operation any more
    have hop : ∀ q, q ≠ p → (pts q).op = none := by
      intro q hq
      have hz := (Tally.tally_eq_zero _ _).mp (hcount.symm.trans ho) q (Finset.mem_univ q)
      rw [Function.update_of_ne hq] at hz
      simpa using hz
    refine forall_update (P := fun _ => PointInv _)
      ⟨by simp [Point.op],by simp,by simp [Point.emptied],by simp⟩
      (fun q hq => ⟨by simp [hop q hq],fun hk => ?_,(h.point q).emptied,(h.point q).sound⟩)
    have := hnone q hq
    rw [hk] at this
    cases this

theorem LogInv.end_other {op : Op} (h : LogInv d pts) (hp : pts p = .endHeld op)
    (ho : d.outstanding-1 ≠ 0) :
    LogInv { d with outstanding := d.outstanding-1, done := op::d.done }
      (Function.update pts p .endWake) := by
  have hop : (pts p).op = some op := by rw [hp]; rfl
  have hcf := h.not_committing hop
  obtain ⟨hc,hone⟩ := h.same_commits (p := p) (k := .endWake) (by rw [hp]; rfl)
  refine ⟨h.end_count hp rfl,hc,hone,fun hcm => absurd hcm (by simp [hcf]),
    fun _ hz => absurd hz ho,h.end_done hp rfl rfl,h.header,h.taken,?_⟩
  refine forall_update (P := fun _ => PointInv _)
    ⟨by simp [Point.op],by simp,by simp [Point.emptied],by simp⟩
    (fun q _ => ⟨(h.point q).ops,fun hk => ?_,(h.point q).emptied,(h.point q).sound⟩)
  have hq := h.commits.mpr ⟨q,by rw [hk]; rfl⟩
  rw [hcf] at hq
  cases hq

/-- `commit` takes the header as one transaction; every ended operation is in it or in
an earlier one. -/
theorem LogInv.commit_write (h : LogInv d pts) (hp : pts p = .commitWrite) :
    LogInv { d with history := d.history++[d.lh] } (Function.update pts p .commitClear) := by
  have hct := h.commits.mpr ⟨p,by rw [hp]; rfl⟩
  have hout := h.quiet hct
  obtain ⟨hc,hone⟩ := h.same_commits (p := p) (k := .commitClear) (by rw [hp]; rfl)
  have hlt : ∀ op ∈ d.done, op.epoch < (d.history++[d.lh]).length := by
    intro op hd
    rw [List.length_append, List.length_singleton]
    rcases h.done op hd with ⟨he,-⟩ | ⟨t,ht,-⟩
    · omega
    · have := (List.getElem?_eq_some_iff.mp ht).1
      omega
  refine ⟨?_,hc,hone,h.quiet,h.clean,fun op hd => Or.inr ?_,h.header,?_,?_⟩
  · simp only [h.count]
    rw [active_same (by rw [hp]; rfl)]
  · rcases h.done op hd with ⟨he,hb⟩ | ⟨t,ht,hb⟩
    · exact ⟨d.lh,by simp [he],hb⟩
    · refine ⟨t,?_,hb⟩
      rw [List.getElem?_append_left (List.getElem?_eq_some_iff.mp ht).1]
      exact ht
  · intro t ht
    rcases List.mem_append.mp ht with ht | ht
    · exact h.taken t ht
    · rw [List.mem_singleton.mp ht]
      exact h.header
  · refine forall_update (P := fun _ => PointInv _)
      ⟨by simp [Point.op],fun _ => hlt,by simp [Point.emptied],by simp⟩
      (fun q hq => ⟨by simp [h.no_op hout q],fun hk => ?_,(h.point q).emptied,(h.point q).sound⟩)
    exact absurd (h.one q p (by rw [hk]; rfl) (by rw [hp]; rfl)) hq

theorem LogInv.commit_clear (h : LogInv d pts) (hp : pts p = .commitClear) :
    LogInv { d with lh := [] } (Function.update pts p .doneAcquire) := by
  have hct := h.commits.mpr ⟨p,by rw [hp]; rfl⟩
  have hout := h.quiet hct
  obtain ⟨hc,hone⟩ := h.same_commits (p := p) (k := .doneAcquire) (by rw [hp]; rfl)
  refine ⟨?_,hc,hone,h.quiet,fun _ _ => rfl,fun op hd => ?_,List.nodup_nil,h.taken,?_⟩
  · simp only [h.count]
    rw [active_same (by rw [hp]; rfl)]
  · have hlt := (h.point p).cleared hp op hd
    rcases h.done op hd with ⟨he,-⟩ | ht
    · omega
    · exact Or.inr ht
  · refine forall_update (P := fun _ => PointInv _) ⟨by simp [Point.op],by simp,fun _ => rfl,by simp⟩
      (fun q hq => ⟨by simp [h.no_op hout q],(h.point q).cleared,fun _ => rfl,(h.point q).sound⟩)

theorem LogInv.commit_done (h : LogInv d pts) (hp : pts p = .doneHeld) :
    LogInv { d with committing := false } (Function.update pts p .doneWake) := by
  have hempty := (h.point p).emptied (by rw [hp]; rfl)
  have hnone : ∀ q, (Function.update pts p .doneWake q).commits ≠ true := by
    refine forall_update (P := fun _ x => x.commits ≠ true) (by simp [Point.commits]) ?_
    intro q hq hqc
    exact hq (h.one q p hqc (by rw [hp]; rfl))
  refine ⟨?_,?_,fun q _ hq => absurd hq (hnone q),by simp,fun _ _ => hempty,h.done,h.header,h.taken,?_⟩
  · simp only [h.count]
    rw [active_same (by rw [hp]; rfl)]
  · exact ⟨fun hc => absurd hc (by simp),fun ⟨q,hq⟩ => absurd hq (hnone q)⟩
  · exact forall_update (P := fun _ => PointInv _)
      ⟨by simp [Point.op],by simp,by simp [Point.emptied],by simp⟩
      (fun q _ => ⟨(h.point q).ops,(h.point q).cleared,(h.point q).emptied,(h.point q).sound⟩)

theorem LogInv.move {m : Move} {k' : Point} {d' : LogData} (h : LogInv d pts)
    (hm : LogMove size admits m (pts p) d k' d') : LogInv d' (Function.update pts p k') := by
  generalize hk : pts p = k at hm
  cases hm with
  | beginAdmit hf => exact h.admit hk hf
  | logRecord hop => exact h.record hk
  | endPanic hc => exact absurd hc (by simp [h.not_committing (p := p) (by rw [hk]; rfl)])
  | endLast hc ho => exact h.end_last hk ho
  | endOther hc ho => exact h.end_other hk ho
  | commitWrite => exact h.commit_write hk
  | commitClear => exact h.commit_clear hk
  | doneHeld => exact h.commit_done hk
  | _ =>
    exact h.stay (by simp [hk, Point.op]) (by simp [hk, Point.commits]) (by simp)
      (by simp [hk, Point.emptied]) (by simp)

theorem reach_inv {s₀ s : St LogData Point n} (h : Reach (logClient size admits) s₀ s)
    (h₀ : LogStart s₀) : LogInv s.data s.points :=
  h.points h₀.inv (fun _ _ _ _ _ _ hJ hm => hJ.move hm)

/-! ## Sleepers of begin_op -/

/-- The log is idle, so `begin_op` would admit an operation. -/
def Idle (d : LogData) : Prop := d.committing = false ∧ d.outstanding = 0 ∧ d.lh = []

def OwesWake (k : Point) : Prop := k = .doneWake

theorem full_not_idle (h : d.full) : ¬ Idle d := by
  rintro ⟨hc,ho,hl⟩
  rcases h with hf | hf
  · rw [hc] at hf
    cases hf
  · rw [ho, hl] at hf
    exact absurd hf (by decide)

theorem log_contract : Contract (logClient size admits)
    (fun s : St LogData Point n => LogInv s.data s.points) logChan Idle OwesWake where
  sleeps := by
    intro s p k k' d' _ _ hm
    cases hm with
    | beginSleep hf => exact full_not_idle hf
  raises := by
    intro s p k k' d' hI hp hm hi hn
    cases hm with
    | doneHeld => exact ⟨rfl,rfl⟩
    | beginAdmit hf => exact absurd hi.2.1 (Nat.succ_ne_zero _)
    | @logRecord _ op b todo hop =>
      have hnil : absorb s.data.lh b = [] := hi.2.2
      have hmem : b ∈ absorb s.data.lh b := mem_absorb.mpr (Or.inl rfl)
      rw [hnil] at hmem
      cases hmem
    | endPanic hc => exact absurd hi.1 (by simp [hc])
    | endLast hc ho => exact absurd hi.1 (by simp)
    | endOther hc ho => exact absurd hi.2.1 ho
    | commitWrite => exact absurd hi hn
    | commitClear =>
      have hc := hI.commits.mpr ⟨p,by rw [St.points, hp]; rfl⟩
      exact absurd hi.1 (by simp [hc])
    | _ => exact absurd hi hn
  keeps := by
    intro m k d k' d' hm hne hk
    cases hk
    cases hm
    exact absurd rfl hne

theorem pending_holds {s : St LogData Point n} (hl : Locked (logClient size admits) s) {p : Fin n}
    (hp : Pending OwesWake logChan (s.ctl p)) : s.lk = some p := by
  rw [hl.lk p]
  cases hctl : s.ctl p with
  | run k =>
    rw [hctl] at hp
    cases hp
    rfl
  | sleep pc c k =>
    rw [hctl] at hp
    cases hp
    obtain ⟨_,_,_,hm⟩ := hl.sleeping hctl
    cases hm
  | wakeup todo c k =>
    obtain ⟨_,_,_,hm⟩ := hl.waking hctl
    cases hm <;> rfl

/-- What the protocol guarantees in a state: a commit runs alone, `end_op` does not
panic, the blocks of an operation that is running or has ended are in one
transaction (the header, or the one committed as number `epoch`), no transaction
holds a block twice, and nobody sleeps in `begin_op` once the log is idle. -/
structure Protocol (s : St LogData Point n) : Prop where
  alone : s.data.committing = true → s.data.outstanding = 0 ∧ ∀ p, (s.points p).op = none
  noPanic : ∀ p held op, s.points p ≠ .panic held op "log.committing"
  running : ∀ p op, (s.points p).op = some op →
    op.epoch = s.data.history.length ∧ ∀ b ∈ op.blocks, b ∈ s.data.lh
  ended : ∀ op ∈ s.data.done, Logged s.data op
  once : s.data.lh.Nodup ∧ ∀ t ∈ s.data.history, t.Nodup
  awake : s.lk = none → s.data.outstanding = 0 → s.data.committing = false →
    ∀ p, ¬ (s.state p = .sleeping ∧ s.chan p = some logChan)

/-- The log protocol over any interleaving of any number of processes, whatever
blocks their operations record. -/
theorem log_protocol (size : ℕ) (admits : List ℕ → Prop) {s₀ s : St LogData Point n}
    (h₀ : LogStart s₀) (h : Reach (logClient size admits) s₀ s) : Protocol s := by
  have hinv := reach_inv h h₀
  refine ⟨fun hc => ⟨hinv.quiet hc,hinv.no_op (hinv.quiet hc)⟩,fun p => (hinv.point p).sound,
    fun p => (hinv.point p).ops,hinv.done,⟨hinv.header,hinv.taken⟩,?_⟩
  intro hlk ho hc p
  refine h.none_asleep h₀.start (fun _ hr => reach_inv hr h₀) log_contract
    ⟨hc,ho,hinv.clean hc ho⟩ (fun q hq => ?_) p
  rw [pending_holds (h.locked h₀.start) hq] at hlk
  cases hlk

def oneProcess : St LogData Point 1 :=
  ⟨⟨0,false,[],[],[]⟩,none,.free,fun _ => .run .idle,fun _ => .running,fun _ => none⟩

theorem one_commit : ∃ s, Reach (logClient LOGSIZE (fun _ => True)) oneProcess s ∧
    s.data.history = [[5]] := by
  have hr : Reach (logClient LOGSIZE (fun _ => True)) oneProcess oneProcess := Reach.start
  replace hr := hr.step (Step.work (p := 0) rfl (@LogMove.begin _ _ _ [5] trivial))
  replace hr := hr.step (Step.acquire (p := 0) rfl LogMove.beginAcquire rfl)
  replace hr := hr.step (Step.work (p := 0) rfl (LogMove.beginAdmit (by
    simp [LogData.full, oneProcess, St.goto, LOGSIZE, MAXOPBLOCKS])))
  replace hr := hr.step (Step.release (p := 0) rfl LogMove.beginRelease)
  replace hr := hr.step (Step.work (p := 0) rfl (LogMove.logWrite rfl (by
    simp [oneProcess, St.goto, LOGSIZE]) (by simp [oneProcess, St.goto])))
  replace hr := hr.step (Step.acquire (p := 0) rfl LogMove.logAcquire rfl)
  replace hr := hr.step (Step.work (p := 0) rfl (LogMove.logRecord rfl))
  replace hr := hr.step (Step.release (p := 0) rfl LogMove.logRelease)
  replace hr := hr.step (Step.work (p := 0) rfl (LogMove.endOp rfl))
  replace hr := hr.step (Step.acquire (p := 0) rfl LogMove.endAcquire rfl)
  replace hr := hr.step (Step.work (p := 0) rfl (LogMove.endLast rfl rfl))
  replace hr := hr.step (Step.release (p := 0) rfl LogMove.endCommit)
  replace hr := hr.step (Step.work (p := 0) rfl LogMove.commitWrite)
  exact ⟨_,hr,rfl⟩

theorem log_protocol_commit : ∃ s, Reach (logClient LOGSIZE (fun _ => True)) oneProcess s ∧
    s.data.history = [[5]] ∧ Protocol s := by
  obtain ⟨s,hr,hh⟩ := one_commit
  exact ⟨s,hr,hh,log_protocol LOGSIZE _ ⟨rfl,rfl,fun _ => rfl,fun _ => rfl,rfl⟩ hr⟩

end Xv6.LogOps
