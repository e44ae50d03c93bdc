import Xv6.Fs.BcacheLocks

/-!
# Transactions and the commit

What a step does to the log, leaving the buffers aside: the counts of `begin_op` and
`end_op`, the program of the process that commits, and the stores. One process commits
at a time, no operation is open meanwhile, and so `log_write` never meets a commit.
-/

set_option autoImplicit false

namespace Xv6.Bcache
open Xv6.Log Xv6.LogOps Xv6.Refs

variable {n dev : ℕ} {L : Layout} {may : St n → ℕ → Prop} {s s' t : St n} {p : Fin n}

def Proc.txn (e : Proc) : Bool × List Instr := (e.inOp,e.prog)

/-- A step that the log does not see. -/
structure Quiet (s s' : St n) : Prop where
  mem : s'.mem = s.mem
  lh : s'.lh = s.lh
  outstanding : s'.outstanding = s.outstanding
  committing : s'.committing = s.committing
  txn : ∀ q, (s'.proc q).txn = (s.proc q).txn

theorem Quiet.refl (s : St n) : Quiet s s := ⟨rfl,rfl,rfl,rfl,fun _ => rfl⟩

theorem Quiet.inOp (h : Quiet s s') (q : Fin n) : (s'.proc q).inOp = (s.proc q).inOp :=
  congrArg Prod.fst (h.txn q)

theorem Quiet.prog (h : Quiet s s') (q : Fin n) : (s'.proc q).prog = (s.proc q).prog :=
  congrArg Prod.snd (h.txn q)

inductive LogStep (L : Layout) (may : St n → ℕ → Prop) (s : St n) (p : Fin n) : St n → Prop where
  | same : LogStep L may s p s
  | beginOp (ho : (s.proc p).inOp = false) (hc : s.committing = false) :
      LogStep L may s p { s.setProc p { s.proc p with inOp := true } with
        outstanding := s.outstanding+1 }
  | endOp (ho : (s.proc p).inOp = true) (hc : s.committing = false) :
      LogStep L may s p { s.setProc p { s.proc p with inOp := false } with
        outstanding := s.outstanding-1 }
  | endLast (ho : (s.proc p).inOp = true) (hc : s.committing = false) (hl : s.outstanding-1 = 0) :
      LogStep L may s p { s.setProc p
        { s.proc p with inOp := false, prog := commit L s.lh++[.finish] } with
        outstanding := s.outstanding-1, committing := true }
  | store {x : ℕ} (v : Block) (hm : may s x) :
      LogStep L may s p { s with mem := Function.update s.mem x v }
  | logWrite {x : ℕ} (ho : (s.proc p).inOp = true) (hm : may s x) (hl : s.lh.length < L.size-1) :
      LogStep L may s p { s with lh := absorb s.lh x }
  | advance {a : Act} {is : List Instr} (hc : s.Commits p (.act a) is) :
      LogStep L may s p (s.advance p is)
  | copy {tail x : ℕ} {is : List Instr} {b : Fin NBUF} (hc : s.Commits p (.copy tail x) is)
      (hb : (x,b) ∈ (s.proc p).held) :
      LogStep L may s p { s.advance p is with
        mem := Function.update s.mem (L.start+tail+1) (s.buf b).data }
  | header {is : List Instr} {b : Fin NBUF} (hc : s.Commits p .header is)
      (hb : (L.start,b) ∈ (s.proc p).held) :
      LogStep L may s p { s.advance p is with
        mem := Function.update s.mem L.start (header s.lh (s.buf b).data) }
  | install {tail x : ℕ} {is : List Instr} (hc : s.Commits p (.install tail x) is) :
      LogStep L may s p (s.advance p is)
  | clear {is : List Instr} (hc : s.Commits p .clear is) :
      LogStep L may s p { s.advance p is with lh := [] }
  | finish {is : List Instr} (hc : s.Commits p .finish is) :
      LogStep L may s p { s.advance p is with committing := false }

theorem setProc_txn {e : Proc} (h : e.txn = (s.proc p).txn) (q : Fin n) :
    ((s.setProc p e).proc q).txn = (s.proc q).txn := by
  by_cases hq : q = p
  · subst hq
    rw [s.setProc_self, h]
  · rw [s.setProc_of_ne hq]

theorem Quiet.setProc (h : Quiet s t) {e : Proc} (he : e.txn = (t.proc p).txn) :
    Quiet s (t.setProc p e) :=
  ⟨h.mem,h.lh,h.outstanding,h.committing,fun q => (setProc_txn he q).trans (h.txn q)⟩

theorem quiet_iderw (s : St n) (b : Fin NBUF) : Quiet s (s.iderw b) := by
  unfold St.iderw
  split
  · exact ⟨rfl,rfl,rfl,rfl,fun _ => rfl⟩
  · exact ⟨rfl,rfl,rfl,rfl,fun _ => rfl⟩

theorem quiet_drop (s : St n) (b : Fin NBUF) : Quiet s (s.drop b) := by
  unfold St.drop
  dsimp only
  split
  · exact ⟨rfl,rfl,rfl,rfl,fun _ => rfl⟩
  · exact ⟨rfl,rfl,rfl,rfl,fun _ => rfl⟩

theorem quiet_setBuf (s : St n) (b : Fin NBUF) (f : Buf n) : Quiet s (s.setBuf b f) :=
  ⟨rfl,rfl,rfl,rfl,fun _ => rfl⟩

theorem Effect.quiet {a : Act} (h : Effect s p a s') : Quiet s s' := by
  cases h with
  | bread x => exact (Quiet.refl s).setProc rfl
  | @bwrite x b hb =>
    have h := quiet_iderw (s.setBuf b { s.buf b with dirty := true }) b
    exact ⟨h.mem,h.lh,h.outstanding,h.committing,h.txn⟩
  | brelse hb ht => exact (quiet_setBuf s _ _).setProc rfl

theorem Step.log (h : Step dev L may s p s') : ∃ t, LogStep L may s p t ∧ Quiet t s' := by
  cases h with
  | beginOp _ ho hc => exact ⟨_,.beginOp ho hc,Quiet.refl _⟩
  | endOp _ ho hc => exact ⟨_,.endOp ho hc,Quiet.refl _⟩
  | endLast _ ho hc hl => exact ⟨_,.endLast ho hc hl,Quiet.refl _⟩
  | endPanic => exact ⟨s,.same,(Quiet.refl s).setProc rfl⟩
  | user _ h => exact ⟨s,.same,h.quiet⟩
  | cached => exact ⟨s,.same,(quiet_setBuf s _ _).setProc rfl⟩
  | recycle => exact ⟨s,.same,(quiet_setBuf s _ _).setProc rfl⟩
  | noBuffers => exact ⟨s,.same,(Quiet.refl s).setProc rfl⟩
  | acquire => exact ⟨s,.same,(quiet_setBuf s _ _).setProc rfl⟩
  | hit => exact ⟨s,.same,(Quiet.refl s).setProc rfl⟩
  | read => exact ⟨s,.same,(quiet_iderw s _).setProc rfl⟩
  | drop => exact ⟨s,.same,(quiet_drop s _).setProc rfl⟩
  | store _ _ hm => exact ⟨_,.store _ hm,⟨rfl,rfl,rfl,rfl,fun _ => rfl⟩⟩
  | logWrite _ _ ho hm hl =>
    rw [not_or, not_le, not_le] at hl
    exact ⟨_,.logWrite ho hm hl.2,⟨rfl,rfl,rfl,rfl,fun _ => rfl⟩⟩
  | tooBig => exact ⟨s,.same,(Quiet.refl s).setProc rfl⟩
  | act hc h => exact ⟨_,.advance hc,h.quiet⟩
  | copy hc _ hb => exact ⟨_,.copy hc hb,⟨rfl,rfl,rfl,rfl,fun _ => rfl⟩⟩
  | header hc hb => exact ⟨_,.header hc hb,⟨rfl,rfl,rfl,rfl,fun _ => rfl⟩⟩
  | install hc => exact ⟨_,.install hc,⟨rfl,rfl,rfl,rfl,fun _ => rfl⟩⟩
  | clear hc => exact ⟨_,.clear hc,Quiet.refl _⟩
  | finish hc => exact ⟨_,.finish hc,Quiet.refl _⟩

/-! ## One commit at a time -/

/-- A program ends in the only `finish` that it has. -/
def Ends (is : List Instr) : Prop := is = [] ∨ ∃ js, is = js++[.finish] ∧ .finish ∉ js

theorem Ends.tail {i : Instr} {is : List Instr} (h : Ends (i::is)) : Ends is := by
  obtain ⟨js,heq,hn⟩ : ∃ js, i::is = js++[.finish] ∧ .finish ∉ js := by
    rcases h with h | h
    · cases h
    · exact h
  cases js with
  | nil =>
    cases heq
    exact Or.inl rfl
  | cons j js =>
    cases heq
    exact Or.inr ⟨js,rfl,fun hm => hn (List.mem_cons_of_mem _ hm)⟩

theorem Ends.finish {is : List Instr} (h : Ends (.finish::is)) : is = [] := by
  rcases h with h | ⟨js,heq,hn⟩
  · cases h
  · cases js with
    | nil =>
      cases heq
      rfl
    | cons j js =>
      cases heq
      exact absurd List.mem_cons_self hn

/-- Whether a process is between `begin_op` and `end_op`. -/
def active (s : St n) (p : Fin n) : Option Unit := if (s.proc p).inOp then some () else none

structure Txns (s : St n) : Prop where
  count : s.outstanding = number (active s) ()
  quiet : s.committing = true → s.outstanding = 0
  running : ∀ p, (s.proc p).prog ≠ [] → s.committing = true
  sole : ∀ p q, (s.proc p).prog ≠ [] → (s.proc q).prog ≠ [] → p = q
  ends : ∀ p, Ends (s.proc p).prog

theorem Txns.congr (h : Txns s) (hq : Quiet s s') : Txns s' := by
  have ha : active s' = active s := by
    funext p
    rw [active, active, hq.inOp p]
  refine ⟨?_,?_,?_,?_,?_⟩
  · rw [hq.outstanding, ha]
    exact h.count
  · rw [hq.outstanding, hq.committing]
    exact h.quiet
  · intro p
    rw [hq.prog p, hq.committing]
    exact h.running p
  · intro p q
    rw [hq.prog p, hq.prog q]
    exact h.sole p q
  · intro p
    rw [hq.prog p]
    exact h.ends p

theorem Txns.inOp_idle (h : Txns s) (ho : (s.proc p).inOp = true) :
    0 < s.outstanding ∧ s.committing = false := by
  have hpos : 0 < s.outstanding := by
    rw [h.count]
    exact number_pos.mpr ⟨p,by rw [active, if_pos ho]⟩
  refine ⟨hpos,?_⟩
  by_contra hc
  have hz := h.quiet (by simpa using hc)
  omega

theorem Txns.idle (h : Txns s) (hc : s.committing = false) (q : Fin n) : (s.proc q).prog = [] := by
  by_contra hne
  rw [h.running q hne] at hc
  cases hc

theorem Txns.advance (h : Txns s) {i : Instr} {is : List Instr} (hp : (s.proc p).prog = i::is) :
    Txns (s.advance p is) := by
  have hcons : (s.proc p).prog ≠ [] := by
    rw [hp]
    exact List.cons_ne_nil i is
  have hprog : ∀ q, ((s.advance p is).proc q).prog ≠ [] → (s.proc q).prog ≠ [] := by
    intro q hq
    by_cases hqp : q = p
    · rw [hqp]
      exact hcons
    · rwa [St.advance, s.setProc_of_ne hqp] at hq
  refine ⟨?_,h.quiet,?_,?_,?_⟩
  · have ha : active (s.advance p is) = active s := by
      funext q
      by_cases hqp : q = p
      · rw [active, active, hqp, s.advance_self]
      · rw [active, active, St.advance, s.setProc_of_ne hqp]
    rw [ha]
    exact h.count
  · intro q hq
    exact h.running q (hprog q hq)
  · intro q r hq hr
    exact h.sole q r (hprog q hq) (hprog r hr)
  · intro q
    by_cases hqp : q = p
    · rw [hqp, s.advance_self]
      have he := h.ends p
      rw [hp] at he
      exact he.tail
    · rw [St.advance, s.setProc_of_ne hqp]
      exact h.ends q

theorem active_setProc (s : St n) (p : Fin n) (e : Proc) :
    active (s.setProc p e) = Function.update (active s) p (if e.inOp then some () else none) := by
  funext q
  by_cases hq : q = p
  · subst hq
    rw [active, s.setProc_self, Function.update_self]
  · rw [active, s.setProc_of_ne hq, Function.update_of_ne hq, active]

theorem Txns.open (h : Txns s) (hc : s.committing = false) {e : Proc} {k : ℕ} {c : Bool}
    (hk : k+(if (s.proc p).inOp then 1 else 0) = s.outstanding+(if e.inOp then 1 else 0))
    (hz : c = true → k = 0) (hp : e.prog ≠ [] → c = true) (he : Ends e.prog) :
    Txns { s.setProc p e with outstanding := k, committing := c } := by
  have hprog : ∀ q, ((s.setProc p e).proc q).prog ≠ [] → q = p ∧ c = true := by
    intro q hq
    by_cases hqp : q = p
    · rw [hqp, s.setProc_self] at hq
      exact ⟨hqp,hp hq⟩
    · rw [s.setProc_of_ne hqp] at hq
      exact absurd (h.idle hc q) hq
  refine ⟨?_,hz,fun q hq => (hprog q hq).2,?_,?_⟩
  · show k = number (active (s.setProc p e)) ()
    have hn := number_update (active s) p (if e.inOp then some () else none) ()
    have hs := h.count
    rw [active_setProc]
    have h1 : (if active s p = some () then 1 else 0) = if (s.proc p).inOp then 1 else 0 := by
      unfold active
      cases (s.proc p).inOp <;> rfl
    have h2 : (if (if e.inOp then some () else none) = some () then 1 else 0) =
        if e.inOp then 1 else 0 := by
      cases e.inOp <;> rfl
    omega
  · intro q r hq hr
    rw [(hprog q hq).1, (hprog r hr).1]
  · intro q
    show Ends ((s.setProc p e).proc q).prog
    by_cases hqp : q = p
    · rw [hqp, s.setProc_self]
      exact he
    · rw [s.setProc_of_ne hqp]
      exact h.ends q

theorem forBlocks_mem {body : ℕ → ℕ → List Instr} {i : Instr} {tail : ℕ} {xs : List ℕ}
    (h : i ∈ forBlocks body tail xs) : ∃ t x, i ∈ body t x := by
  induction xs generalizing tail with
  | nil => cases h
  | cons x xs ih =>
    rcases List.mem_append.mp h with h | h
    · exact ⟨tail,x,h⟩
    · exact ih h

theorem commit_ends (L : Layout) (lh : List ℕ) : Ends (commit L lh++[.finish]) := by
  refine Or.inr ⟨_,rfl,?_⟩
  intro h
  unfold commit at h
  split at h
  · cases h
  · simp only [List.mem_append, List.mem_cons] at h
    rcases h with h | h | h | h | h
    · obtain ⟨t,x,h⟩ := forBlocks_mem h
      simp [writeLog] at h
    · simp [writeHead] at h
    · obtain ⟨t,x,h⟩ := forBlocks_mem h
      simp [installTrans] at h
    · cases h
    · simp [writeHead] at h

theorem Txns.log (h : Txns s) (hs : LogStep L may s p t) : Txns t := by
  cases hs with
  | same => exact h
  | beginOp ho hc =>
    refine h.open hc ?_ (fun hf => absurd (hc.symm.trans hf) (by simp)) ?_ (h.ends p)
    · simp [ho]
    · intro hp
      exact absurd (h.idle hc p) hp
  | endOp ho hc =>
    have hpos := (h.inOp_idle ho).1
    refine h.open hc ?_ (fun hf => absurd (hc.symm.trans hf) (by simp)) ?_ (h.ends p)
    · simp only [ho, if_true, Bool.false_eq_true, if_false]
      omega
    · intro hp
      exact absurd (h.idle hc p) hp
  | endLast ho hc hl =>
    have hpos := (h.inOp_idle ho).1
    refine h.open hc ?_ (fun _ => hl) (fun _ => rfl) (commit_ends L s.lh)
    simp only [ho, if_true, Bool.false_eq_true, if_false]
    omega
  | store => exact ⟨h.count,h.quiet,h.running,h.sole,h.ends⟩
  | logWrite => exact ⟨h.count,h.quiet,h.running,h.sole,h.ends⟩
  | advance hc => exact h.advance hc.2
  | copy hc =>
    have ha := h.advance hc.2
    exact ⟨ha.count,ha.quiet,ha.running,ha.sole,ha.ends⟩
  | header hc =>
    have ha := h.advance hc.2
    exact ⟨ha.count,ha.quiet,ha.running,ha.sole,ha.ends⟩
  | install hc => exact h.advance hc.2
  | clear hc =>
    have ha := h.advance hc.2
    exact ⟨ha.count,ha.quiet,ha.running,ha.sole,ha.ends⟩
  | @finish is hc =>
    have ha := h.advance hc.2
    have hlast : is = [] := by
      have he := h.ends p
      rw [hc.2] at he
      exact he.finish
    refine ⟨ha.count,fun hf => (nomatch hf),?_,ha.sole,ha.ends⟩
    -- The only program was that of `p`, and nothing of it is left.
    intro q hq
    have hqp : q = p := by
      by_contra hne
      have hq' : (s.proc q).prog ≠ [] := by
        rwa [← s.setProc_of_ne hne { s.proc p with prog := is }]
      exact hne (h.sole q p hq' (by rw [hc.2]; exact List.cons_ne_nil _ _))
    rw [hqp] at hq
    exact absurd ((congrArg Proc.prog (s.advance_self p is)).trans hlast) hq

theorem Txns.step (h : Txns s) (hs : Step dev L may s p s') : Txns s' := by
  obtain ⟨t,hl,hq⟩ := hs.log
  exact (h.log hl).congr hq

theorem Start.txns (h : Start s) : Txns s := by
  have hp : ∀ p, (s.proc p).prog = [] := fun p => by rw [h.proc p]
  refine ⟨?_,fun _ => h.log.2.1,fun p hne => absurd (hp p) hne,fun p _ hne => absurd (hp p) hne,?_⟩
  · rw [h.log.2.1]
    by_contra hne
    obtain ⟨p,hact⟩ := number_pos.mp (Nat.pos_of_ne_zero (Ne.symm hne))
    rw [active, h.proc p] at hact
    cases hact
  · intro p
    exact Or.inl (hp p)

end Xv6.Bcache
