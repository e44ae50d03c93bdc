import Xv6.Fs.Protocol
import Xv6.Fs.BcacheCommit
import Xv6.Fs.BcacheRun

/-!
# When `bget` finds a buffer

A buffer that is not referenced is pinned only as the buffer of a block in the log
header, and a commit writes all of those before it empties the header. So `bget` finds a
buffer while the logged blocks and the buffers in use are fewer than the buffers; nothing
in `begin_op` keeps readers from using them all.
-/

set_option autoImplicit false

namespace Xv6.Bcache
open Xv6.Log Xv6.LogOps Xv6.Refs

/-- The rest of a commit writes block `x` before it empties the header. -/
def Flushes (x : ℕ) : List Instr → Prop
  | [] => True
  | .act (.bwrite y)::is => x = y ∨ Flushes x is
  | .clear::_ => False
  | _::is => Flushes x is

theorem Flushes.body {x : ℕ} {is js : List Instr} (h : .clear ∉ is) (hj : Flushes x js) :
    Flushes x (is++js) := by
  induction is with
  | nil => exact hj
  | cons i is ih =>
    rw [List.mem_cons, not_or] at h
    have hrest := ih h.2
    cases i with
    | act a =>
      cases a with
      | bread y => exact hrest
      | bwrite y => exact Or.inr hrest
      | brelse y => exact hrest
    | copy t y => exact hrest
    | header => exact hrest
    | install t y => exact hrest
    | clear => exact absurd rfl h.1
    | finish => exact hrest

theorem clear_writeLog (L : Layout) (tail : ℕ) (xs : List ℕ) :
    .clear ∉ forBlocks (writeLog L) tail xs := by
  intro h
  obtain ⟨t,x,h⟩ := forBlocks_mem h
  simp [writeLog] at h

theorem flushes_installTrans {L : Layout} {x tail : ℕ} {xs : List ℕ} {js : List Instr}
    (hx : x ∈ xs) : Flushes x (forBlocks (installTrans L) tail xs++js) := by
  induction xs generalizing tail with
  | nil => cases hx
  | cons y xs ih =>
    rw [forBlocks, List.append_assoc]
    rcases List.mem_cons.mp hx with rfl | hx
    · exact Or.inl rfl
    · exact Flushes.body (by simp [installTrans]) (ih hx)

theorem flushes_commit (L : Layout) {x : ℕ} {lh : List ℕ} (hx : x ∈ lh) :
    Flushes x (commit L lh++[.finish]) := by
  have hne : lh ≠ [] := List.ne_nil_of_mem hx
  rw [commit, if_neg hne]
  simp only [List.append_assoc]
  exact Flushes.body (clear_writeLog L 0 lh)
    (Flushes.body (by simp [writeHead]) (flushes_installTrans hx))

variable {n dev : ℕ} {L : Layout} {may : St n → ℕ → Prop} {s s' s₀ t : St n} {p : Fin n}
  {b : Fin NBUF}

structure Pinned (dev : ℕ) (s : St n) : Prop where
  logged : ∀ b, (s.buf b).dirty = true → (s.buf b).dev = dev ∧ (s.buf b).blockno ∈ s.lh
  flushed : ∀ p b, (s.buf b).dirty = true → Flushes (s.buf b).blockno (s.proc p).prog

/-- A step that makes no buffer dirty and leaves the dirty ones to their blocks. -/
def Tidy (s s' : St n) : Prop := ∀ b, (s'.buf b).dirty = true → (s.buf b).dirty = true ∧
  (s'.buf b).dev = (s.buf b).dev ∧ (s'.buf b).blockno = (s.buf b).blockno

theorem Tidy.refl (s : St n) : Tidy s s := fun _ h => ⟨h,rfl,rfl⟩

theorem tidy_update {f : Buf n} {s' : St n} (hs : s'.buf = Function.update s.buf b f)
    (h : f.dirty = true → (s.buf b).dirty = true ∧ f.dev = (s.buf b).dev ∧
      f.blockno = (s.buf b).blockno) : Tidy s s' := by
  intro c hc
  rw [hs] at hc ⊢
  by_cases hcb : c = b
  · rw [hcb, Function.update_self] at hc ⊢
    exact h hc
  · rw [Function.update_of_ne hcb] at hc ⊢
    exact ⟨hc,rfl,rfl⟩

theorem Pinned.congr (h : Pinned dev s) (ht : Tidy s s') (hlh : s'.lh = s.lh)
    (hprog : ∀ p, (s'.proc p).prog = (s.proc p).prog) : Pinned dev s' := by
  constructor
  · intro b hb
    obtain ⟨h1,h2,h3⟩ := ht b hb
    rw [h2, h3, hlh]
    exact h.logged b h1
  · intro p b hb
    obtain ⟨h1,-,h3⟩ := ht b hb
    rw [h3, hprog p]
    exact h.flushed p b h1

theorem Pinned.setProc (h : Pinned dev s) {e : Proc}
    (he : ∀ b, (s.buf b).dirty = true → Flushes (s.buf b).blockno e.prog) :
    Pinned dev (s.setProc p e) := by
  refine ⟨h.logged,?_⟩
  intro q c hc
  by_cases hq : q = p
  · rw [hq, s.setProc_self]
    exact he c hc
  · rw [s.setProc_of_ne hq]
    exact h.flushed q c hc

theorem tidy_iderw (s : St n) (b : Fin NBUF) : Tidy s (s.iderw b) := by
  unfold St.iderw
  split
  · exact tidy_update rfl fun hd => nomatch hd
  · exact tidy_update rfl fun hd => ⟨hd,rfl,rfl⟩

theorem bwrite_buf (s : St n) (b : Fin NBUF) :
    (s.bwrite b).buf = Function.update s.buf b
      { s.buf b with valid := true, dirty := false, touched := false } := by
  simp [St.bwrite, St.iderw, St.setBuf]

theorem Effect.tidy {a : Act} (h : Effect s p a s') : Tidy s s' := by
  cases h with
  | bread x => exact Tidy.refl s
  | bwrite hb => exact tidy_update (bwrite_buf s _) fun hd => nomatch hd
  | brelse hb ht => exact tidy_update rfl fun hd => ⟨hd,rfl,rfl⟩

theorem Pinned.quiet (h : Pinned dev s) (ht : Tidy s s') (hq : Quiet s s') : Pinned dev s' :=
  h.congr ht hq.lh hq.prog

/-- A call of the commit: after a `bwrite` the buffer of its block is clean. -/
theorem Pinned.act (h : Pinned dev s) (hi : Shape dev s) {a : Act} {is : List Instr}
    (hc : s.Commits p (.act a) is) (he : Effect (s.advance p is) p a s') : Pinned dev s' := by
  have hrest : ∀ c, (s.buf c).dirty = true → Flushes (s.buf c).blockno (.act a::is) := by
    intro c hd
    rw [← hc.2]
    exact h.flushed p c hd
  have hquiet := he.quiet
  have htidy := he.tidy
  cases he with
  | bread x => exact (h.setProc hrest).quiet htidy hquiet
  | @bwrite x b hb =>
    rw [s.advance_self] at hb
    obtain ⟨hbd,hbx⟩ := hi.key p x b (Or.inl hb)
    have hclean : (((s.advance p is).bwrite b).buf b).dirty = false := by
      rw [bwrite_buf, Function.update_self]
    constructor
    · intro c hd
      obtain ⟨h1,h2,h3⟩ := htidy c hd
      rw [h2, h3, hquiet.lh]
      exact h.logged c h1
    · intro q c hd
      obtain ⟨h1,-,h3⟩ := htidy c hd
      rw [h3, hquiet.prog q]
      by_cases hq : q = p
      · rw [hq, s.advance_self]
        rcases hrest c h1 with heq | hfl
        · have hcb : c = b := hi.one c b (h.logged c h1).1 hbd (heq.trans hbx.symm)
          rw [hcb, hclean] at hd
          cases hd
        · exact hfl
      · rw [St.advance, s.setProc_of_ne hq]
        exact h.flushed q c h1
  | brelse hb ht => exact (h.setProc hrest).quiet htidy hquiet

theorem Pinned.step (h : Pinned dev s) (hi : Shape dev s) (ht : Txns s)
    (hs : Step dev L may s p s') : Pinned dev s' := by
  have hrest : ∀ {i : Instr} {is : List Instr}, s.Commits p i is → ∀ c, (s.buf c).dirty = true →
      Flushes (s.buf c).blockno (i::is) := by
    intro i is hc c hd
    rw [← hc.2]
    exact h.flushed p c hd
  cases hs with
  | beginOp =>
    have hp := h.setProc (p := p) (e := { s.proc p with inOp := true }) (h.flushed p)
    exact ⟨hp.logged,hp.flushed⟩
  | endOp =>
    have hp := h.setProc (p := p) (e := { s.proc p with inOp := false }) (h.flushed p)
    exact ⟨hp.logged,hp.flushed⟩
  | endLast =>
    have hp := h.setProc (p := p)
      (e := { s.proc p with inOp := false, prog := commit L s.lh++[.finish] })
      fun c hc => flushes_commit L (h.logged c hc).2
    exact ⟨hp.logged,hp.flushed⟩
  | endPanic => exact h.setProc (h.flushed p)
  | user _ he => exact h.quiet he.tidy he.quiet
  | cached =>
    exact h.quiet (tidy_update rfl fun hd => ⟨hd,rfl,rfl⟩) ((quiet_setBuf s _ _).setProc rfl)
  | recycle =>
    exact h.quiet (tidy_update rfl fun hd => nomatch hd) ((quiet_setBuf s _ _).setProc rfl)
  | noBuffers => exact h.setProc (h.flushed p)
  | acquire =>
    exact h.quiet (tidy_update rfl fun hd => ⟨hd,rfl,rfl⟩) ((quiet_setBuf s _ _).setProc rfl)
  | hit => exact h.setProc (h.flushed p)
  | read => exact h.quiet (tidy_iderw s _) ((quiet_iderw s _).setProc rfl)
  | drop =>
    exact h.quiet (tidy_update (s.drop_buf _) fun hd => ⟨hd,rfl,rfl⟩)
      ((quiet_drop s _).setProc rfl)
  | store =>
    exact h.congr (tidy_update rfl fun hd => ⟨hd,rfl,rfl⟩) rfl fun _ => rfl
  | @logWrite x b hu hb ho hm hl =>
    obtain ⟨hbd,hbx⟩ := hi.key p x b (Or.inl hb)
    have hnil := ht.idle (ht.inOp_idle ho).2
    constructor
    · intro c hd
      show (Function.update s.buf b _ c).dev = dev ∧
        (Function.update s.buf b _ c).blockno ∈ absorb s.lh x
      by_cases hcb : c = b
      · rw [hcb, Function.update_self]
        exact ⟨hbd,mem_absorb.mpr (Or.inl hbx)⟩
      · have hd' : (s.buf c).dirty = true := by
          simpa [St.setBuf, Function.update_of_ne hcb] using hd
        rw [Function.update_of_ne hcb]
        obtain ⟨h1,h2⟩ := h.logged c hd'
        exact ⟨h1,mem_absorb.mpr (Or.inr h2)⟩
    · intro q c hd
      show Flushes _ (s.proc q).prog
      rw [hnil q]
      trivial
  | tooBig => exact h.setProc (h.flushed p)
  | act hc he => exact h.act hi hc he
  | copy hc =>
    exact (h.setProc (p := p) (hrest hc)).congr (tidy_update rfl fun hd => ⟨hd,rfl,rfl⟩) rfl
      fun _ => rfl
  | header hc =>
    exact (h.setProc (p := p) (hrest hc)).congr (tidy_update rfl fun hd => ⟨hd,rfl,rfl⟩) rfl
      fun _ => rfl
  | install hc =>
    exact (h.setProc (p := p) (hrest hc)).congr (tidy_update rfl fun hd => ⟨hd,rfl,rfl⟩) rfl
      fun _ => rfl
  | clear hc =>
    exact ⟨fun c hd => (hrest hc c hd).elim,fun _ c hd => (hrest hc c hd).elim⟩
  | @finish is hc =>
    have hp := h.setProc (p := p) (e := { s.proc p with prog := is }) (hrest hc)
    exact ⟨hp.logged,hp.flushed⟩

/-! ## Counting -/

def Call.buffer : Call → List (Fin NBUF)
  | .wait _ b => [b]
  | .load _ b => [b]
  | .drop b => [b]
  | _ => []

/-- The buffers that a process holds, waits for or is about to drop. -/
def Proc.buffers (e : Proc) : List (Fin NBUF) := e.held.map Prod.snd++e.call.buffer

/-- Logged blocks and buffers in use leave a buffer over. -/
def Room (s : St n) : Prop := s.lh.length+∑ p, (s.proc p).buffers.length < NBUF

instance (s : St n) : Decidable (Room s) := Nat.decLt _ _

theorem Shape.user (h : Shape dev s) (hr : (s.buf b).refcnt ≠ 0) : ∃ p, b ∈ (s.proc p).buffers := by
  rw [h.count b] at hr
  cases hl : (s.buf b).lock with
  | some p =>
    refine ⟨p,List.mem_append.mpr ?_⟩
    rcases h.owner b p hl with ⟨x,hx⟩ | ⟨x,hx⟩
    · exact Or.inl (List.mem_map.mpr ⟨(x,b),hx,rfl⟩)
    · rw [hx]
      exact Or.inr List.mem_cons_self
  | none =>
    rw [lockBit, hl] at hr
    obtain ⟨p,hp⟩ := number_pos.mp (Nat.pos_of_ne_zero fun hz => hr (by rw [hz]; rfl))
    refine ⟨p,List.mem_append.mpr (Or.inr ?_)⟩
    unfold Call.pending at hp
    split at hp
    · next x c hc =>
      cases hp
      rw [hc]
      exact List.mem_cons_self
    · next c hc =>
      cases hp
      rw [hc]
      exact List.mem_cons_self
    · cases hp

theorem card_referenced (h : Shape dev s) :
    (Finset.univ.filter fun b => (s.buf b).refcnt ≠ 0).card ≤ ∑ p, (s.proc p).buffers.length := by
  calc (Finset.univ.filter fun b => (s.buf b).refcnt ≠ 0).card
      ≤ (Finset.univ.biUnion fun p => (s.proc p).buffers.toFinset).card := by
        apply Finset.card_le_card
        intro b hb
        obtain ⟨p,hp⟩ := h.user (Finset.mem_filter.mp hb).2
        exact Finset.mem_biUnion.mpr ⟨p,Finset.mem_univ p,List.mem_toFinset.mpr hp⟩
    _ ≤ ∑ p, (s.proc p).buffers.toFinset.card := Finset.card_biUnion_le
    _ ≤ ∑ p, (s.proc p).buffers.length :=
        Finset.sum_le_sum fun p _ => List.toFinset_card_le _

theorem card_dirty (h : Pinned dev s) (hi : Shape dev s) :
    (Finset.univ.filter fun b => (s.buf b).dirty = true).card ≤ s.lh.length := by
  calc (Finset.univ.filter fun b => (s.buf b).dirty = true).card
      ≤ s.lh.toFinset.card := by
        apply Finset.card_le_card_of_injOn fun b => (s.buf b).blockno
        · intro b hb
          exact List.mem_toFinset.mpr (h.logged b (Finset.mem_filter.mp hb).2).2
        · intro b hb c hc heq
          exact hi.one b c (h.logged b (Finset.mem_filter.mp hb).2).1
            (h.logged c (Finset.mem_filter.mp hc).2).1 heq
    _ ≤ s.lh.length := List.toFinset_card_le _

theorem Room.unused (hr : Room s) (hi : Shape dev s) (h : Pinned dev s) : s.unused ≠ none := by
  intro hn
  have hall : (Finset.univ : Finset (Fin NBUF)) ⊆ (Finset.univ.filter fun b => (s.buf b).refcnt ≠ 0) ∪
      Finset.univ.filter fun b => (s.buf b).dirty = true := by
    intro b _
    rw [Finset.mem_union, Finset.mem_filter, Finset.mem_filter]
    exact (hi.unused_none hn b).imp (fun h => ⟨Finset.mem_univ b,h⟩) fun h => ⟨Finset.mem_univ b,h⟩
  have hcard := (Finset.card_le_card hall).trans (Finset.card_union_le _ _)
  rw [Finset.card_univ, Fintype.card_fin] at hcard
  have h1 := card_referenced hi
  have h2 := card_dirty h hi
  unfold Room at hr
  omega

/-! ## Runs -/

/-- The runs in which every `bget` starts with room. -/
inductive Roomy (dev : ℕ) (L : Layout) (may : St n → ℕ → Prop) (s₀ : St n) : St n → Prop where
  | start : Roomy dev L may s₀ s₀
  | step {s s' : St n} {p : Fin n} (h : Roomy dev L may s₀ s)
      (hr : ∀ x, (s.proc p).call = .get x → Room s) (hs : Step dev L may s p s') :
      Roomy dev L may s₀ s'

theorem Start.pinned (h : Start s) : Pinned dev s := by
  have hd : ∀ b, (s.buf b).dirty ≠ true := by
    intro b hb
    rw [(h.buf b).2.2.2.1] at hb
    cases hb
  exact ⟨fun b hb => absurd hb (hd b),fun _ b hb => absurd hb (hd b)⟩

theorem Roomy.inv (hdev : dev ≠ 0) (h₀ : Start s₀) (h : Roomy dev L may s₀ s) :
    Shape dev s ∧ Txns s ∧ Pinned dev s := by
  induction h with
  | start => exact ⟨h₀.shape hdev,h₀.txns,h₀.pinned⟩
  | step _ _ hs ih => exact ⟨ih.1.step hs,ih.2.1.step hs,ih.2.2.step ih.1 ih.2.1 hs⟩

variable {q : Fin n} {m : String}

theorem setProc_panic {e : Proc} (h : ((s.setProc p e).proc q).call = .panic m)
    (he : e.call = (s.proc p).call ∨ e.call ≠ .panic m) : (s.proc q).call = .panic m := by
  by_cases hq : q = p
  · subst hq
    rw [s.setProc_self] at h
    rcases he with he | he
    · rw [← he, h]
    · exact absurd h he
  · rwa [s.setProc_of_ne hq] at h

theorem Effect.panic {a : Act} (he : Effect s p a s') (h : (s'.proc q).call = .panic m) :
    (s.proc q).call = .panic m := by
  cases he with
  | bread x => exact setProc_panic h (Or.inr (by simp))
  | bwrite hb =>
    rw [St.bwrite, St.iderw_proc] at h
    exact h
  | brelse hb ht => exact setProc_panic h (Or.inr (by simp))

theorem Step.no_buffers (hs : Step dev L may s p s')
    (h : (s'.proc q).call = .panic "bget: no buffers") :
    (s.proc q).call = .panic "bget: no buffers" ∨
      ∃ x, (s.proc p).call = .get x ∧ s.unused = none := by
  cases hs with
  | beginOp => exact Or.inl (setProc_panic h (Or.inl rfl))
  | endOp => exact Or.inl (setProc_panic h (Or.inl rfl))
  | endLast => exact Or.inl (setProc_panic h (Or.inl rfl))
  | endPanic => exact Or.inl (setProc_panic h (Or.inr (by simp)))
  | user _ he => exact Or.inl (he.panic h)
  | cached => exact Or.inl (setProc_panic h (Or.inr (by simp)))
  | recycle => exact Or.inl (setProc_panic h (Or.inr (by simp)))
  | noBuffers hp _ hb => exact Or.inr ⟨_,hp,hb⟩
  | acquire => exact Or.inl (setProc_panic h (Or.inr (by simp)))
  | hit => exact Or.inl (setProc_panic h (Or.inr (by simp)))
  | read =>
    have h' := setProc_panic h (Or.inr (by simp))
    rw [St.iderw_proc] at h'
    exact Or.inl h'
  | drop =>
    have h' := setProc_panic h (Or.inr (by simp))
    rw [St.drop_proc] at h'
    exact Or.inl h'
  | store => exact Or.inl h
  | logWrite => exact Or.inl h
  | tooBig => exact Or.inl (setProc_panic h (Or.inr (by simp)))
  | act _ he => exact Or.inl (setProc_panic (he.panic h) (Or.inl rfl))
  | copy => exact Or.inl (setProc_panic h (Or.inl rfl))
  | header => exact Or.inl (setProc_panic h (Or.inl rfl))
  | install => exact Or.inl (setProc_panic h (Or.inl rfl))
  | clear => exact Or.inl (setProc_panic h (Or.inl rfl))
  | finish => exact Or.inl (setProc_panic h (Or.inl rfl))

/-- In every run in which, at each `bget`, the blocks in the log header and the buffers
that processes hold, wait for or drop are together fewer than `NBUF`, the scan for an
unused buffer never fails. -/
theorem bget_finds_buffer (hdev : dev ≠ 0) (h₀ : Start s₀) (h : Roomy dev L may s₀ s) (q : Fin n) :
    (s.proc q).call ≠ .panic "bget: no buffers" := by
  induction h with
  | start =>
    rw [h₀.proc q]
    simp
  | step hrun hr hs ih =>
    intro hq
    obtain ⟨hi,-,hp⟩ := hrun.inv hdev h₀
    rcases hs.no_buffers hq with hq | ⟨x,hx,hn⟩
    · exact ih hq
    · exact (hr x hx).unused hi hp hn

/-- One process enters `bread` of block 60 on the booted machine. -/
def asking : St 1 := (booted 1).goto 0 (.get 60)

theorem bget_finds_buffer_reader : ∃ s : St 1, Roomy 1 mkfsLayout (fun _ _ => False) (booted 1) s ∧
    (s.proc 0).call = .wait 60 buf0 ∧ (s.proc 0).call ≠ .panic "bget: no buffers" := by
  have h1 : Roomy 1 mkfsLayout (fun _ _ => False) (booted 1) asking :=
    Roomy.start.step (p := 0) (fun x hx => nomatch hx) (.user ⟨rfl,rfl⟩ (.bread 60))
  have hroom : Room asking := by decide
  have h2 := h1.step (p := 0) (fun _ _ => hroom)
    (.recycle rfl (show asking.cached 1 60 = none by decide) (show asking.unused = some buf0 by decide))
  exact ⟨_,h2,rfl,bget_finds_buffer (by decide) (booted_start 1) h2 0⟩

/-- Thirty processes each hold the buffer of a block of their own, and one more reads. -/
def readers : List (Fin 31 × Choice) :=
  ((List.finRange 31).flatMap fun p => breadRun p (100+p.val)).take 122

/-- Readers alone use up the buffers. -/
theorem readers_exhaust_buffers :
    ¬ ∀ (n dev : ℕ) (L : Layout) (s₀ s : St n), dev ≠ 0 → Start s₀ →
      Reach dev L (fun _ _ => False) s₀ s → ∀ p, (s.proc p).call ≠ .panic "bget: no buffers" := by
  intro hall
  have hrun : ((booted 31).run 1 mkfsLayout (fun _ _ => false) readers).any
      (fun s => (s.proc 30).call = .panic "bget: no buffers") = true := by
    decide +kernel
  rw [Option.any_eq_true] at hrun
  obtain ⟨s,hs,hend⟩ := hrun
  have hok : ∀ (_ : St 31) (_ : ℕ), false = true → False := fun _ _ h => Bool.false_ne_true h
  have hr : Reach 1 mkfsLayout (fun _ _ => False) (booted 31) s :=
    run_reach hok readers .start hs
  exact hall 31 1 mkfsLayout (booted 31) s (by decide) (booted_start 31) hr 30
    (of_decide_eq_true hend)

end Xv6.Bcache
