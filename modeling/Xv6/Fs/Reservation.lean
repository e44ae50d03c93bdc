import Xv6.Fs.Icache
import Xv6.Fs.Protocol

/-!
# The reservation of log blocks

`begin_op` reserves `MAXOPBLOCKS` blocks for an operation, and `log_write` wants one block
of the log to stay free. What the operations under way may still add to the header, and the
header itself, stay below that bound as long as every operation records fewer than
`MAXOPBLOCKS` distinct blocks. A chunk of `filewrite` may record more.
-/

set_option autoImplicit false

namespace Xv6.LogOps
open Xv6.Sleep Xv6.Log Xv6.Tally

variable {n : ℕ}

/-- An operation records fewer blocks than `begin_op` reserves. -/
def Modest (blocks : List ℕ) : Prop := blocks.toFinset.card < MAXOPBLOCKS

theorem modest_nil : Modest [] := Nat.succ_pos 9

def Op.left (op : Op) : ℕ := MAXOPBLOCKS-1-op.blocks.toFinset.card

def Point.left (k : Point) : ℕ := (k.op.map Op.left).getD 0

def Point.wants : Point → List ℕ
  | .beginAcquire todo => todo
  | .beginTest todo => todo
  | k => (k.op.map fun op => op.blocks++op.todo).getD []

structure RoomInv (d : LogData) (pts : Fin n → Point) : Prop where
  log : LogInv d pts
  modest : ∀ p, Modest (pts p).wants
  room : d.lh.length+∑ p, (pts p).left ≤ LOGSIZE-2
  fits : ∀ p held op, pts p ≠ .panic held op "too big a transaction"

variable {d d' : LogData} {pts : Fin n → Point} {p : Fin n} {k : Point} {op : Op} {b : ℕ} {todo : List ℕ}

theorem LogStart.room {s : St LogData Point n} (h : LogStart s) : RoomInv s.data s.points := by
  have hp : ∀ p, s.points p = .idle := by
    intro p
    rw [St.points, h.idle p, Ctl.point]
  refine ⟨h.inv,fun p => ?_,?_,fun p held op => ?_⟩
  · rw [hp]
    exact modest_nil
  · simp [hp, h.data, Point.left, Point.op]
  · simp [hp]

theorem RoomInv.next (h : RoomInv d pts) (hlog : LogInv d' (Function.update pts p k)) (hm : Modest k.wants)
    (hroom : d'.lh.length+∑ p, (pts p).left+k.left ≤ LOGSIZE-2+(pts p).left)
    (hk : ∀ held op, k ≠ .panic held op "too big a transaction") : RoomInv d' (Function.update pts p k) := by
  refine ⟨hlog,forall_update (P := fun _ x => Modest x.wants) hm fun q _ => h.modest q,?_,
    forall_update (P := fun _ x => ∀ held op, x ≠ .panic held op "too big a transaction") hk
      fun q _ => h.fits q⟩
  have hsum := sum_update Point.left pts p k
  omega

theorem left_le (k : Point) : k.left ≤ if k.op.isSome = true then MAXOPBLOCKS-1 else 0 := by
  rw [Point.left]
  cases k.op with
  | none => rfl
  | some op => exact Nat.sub_le _ _

theorem RoomInv.admit (h : RoomInv d pts) (hf : ¬ d.full) :
    d.lh.length+∑ p, (pts p).left+(MAXOPBLOCKS-1) ≤ LOGSIZE-2 := by
  have hM : MAXOPBLOCKS = 10 := rfl
  have hL : LOGSIZE = 30 := rfl
  rw [LogData.full, not_or, Bool.not_eq_true, not_lt] at hf
  obtain ⟨hidle,hfit⟩ := hf
  have hshares : ∑ p, (pts p).left ≤ d.outstanding*(MAXOPBLOCKS-1) := by
    calc ∑ p, (pts p).left
      _ ≤ ∑ p, if (pts p).op.isSome = true then MAXOPBLOCKS-1 else 0 := Finset.sum_le_sum fun p _ => left_le _
      _ = d.outstanding*(MAXOPBLOCKS-1) := by
        rw [h.log.count, active, tally, ← Finset.sum_filter, Finset.sum_const, smul_eq_mul]
  by_cases ho : d.outstanding = 0
  · rw [h.log.clean hidle ho, List.length_nil]
    rw [ho] at hshares
    omega
  · rw [hM] at hfit hshares ⊢
    omega

theorem record_left (hm : Modest (op.blocks++b::todo)) (hsub : ∀ x ∈ op.blocks, x ∈ d.lh) (e : ℕ) :
    (absorb d.lh b).length+Op.left ⟨e,b::op.blocks,todo⟩ ≤ d.lh.length+op.left := by
  rw [absorb, Op.left, Op.left, List.toFinset_cons]
  split
  · have := Finset.card_le_card (Finset.subset_insert b op.blocks.toFinset)
    omega
  · next hb =>
    have hnew : b ∉ op.blocks.toFinset := fun h => hb (hsub b (List.mem_toFinset.mp h))
    have hall : (insert b op.blocks.toFinset).card ≤ (op.blocks++b::todo).toFinset.card := by
      refine Finset.card_le_card fun x hx => ?_
      rw [List.mem_toFinset, List.mem_append, List.mem_cons]
      rcases Finset.mem_insert.mp hx with rfl | hx
      · exact .inr (.inl rfl)
      · exact .inl (List.mem_toFinset.mp hx)
    rw [Modest] at hm
    rw [Finset.card_insert_of_notMem hnew] at hall ⊢
    rw [List.length_append, List.length_singleton]
    omega

theorem RoomInv.move {m : Move} {k' : Point} (h : RoomInv d pts)
    (hm : LogMove LOGSIZE Modest m (pts p) d k' d') : RoomInv d' (Function.update pts p k') := by
  have hlog := h.log.move hm
  have hmod := h.modest p
  have hroom := h.room
  generalize hk : pts p = k at hm
  rw [hk] at hmod
  cases hm with
  | begin hadm => exact h.next hlog hadm (by rw [hk]; exact hroom) (by simp)
  | beginAdmit hf => exact h.next hlog hmod (by rw [hk]; exact h.admit hf) (by simp)
  | tooBig hop hbig =>
    have hL : LOGSIZE = 30 := rfl
    omega
  | @logRecord _ op b todo hop =>
    have hop' : (pts p).op = some op := by rw [hk]; rfl
    have hmod' : Modest (op.blocks++op.todo) := hmod
    rw [hop] at hmod'
    have hleft := record_left hmod' ((h.log.point p).ops op hop').2 op.epoch
    refine h.next hlog ?_ ?_ (by simp)
    · change ((b::op.blocks)++todo).toFinset.card < MAXOPBLOCKS
      have hperm : (op.blocks++b::todo).Perm ((b::op.blocks)++todo) := List.perm_middle
      rw [← List.toFinset_eq_of_perm _ _ hperm]
      exact hmod'
    · rw [hk]
      change (absorb d.lh b).length+_+Op.left ⟨op.epoch,b::op.blocks,todo⟩ ≤ _+op.left
      omega
  | endLast hc ho => exact h.next hlog modest_nil (by rw [hk]; exact Nat.le_add_right_of_le hroom) (by simp)
  | endOther hc ho => exact h.next hlog modest_nil (by rw [hk]; exact Nat.le_add_right_of_le hroom) (by simp)
  | endPanic hc => exact h.next hlog modest_nil (by rw [hk]; exact Nat.le_add_right_of_le hroom) (by simp)
  | commitClear =>
    refine h.next hlog hmod ?_ (by simp)
    rw [hk]
    exact (Nat.add_le_add_right (Nat.zero_le _) _).trans hroom
  | _ => exact h.next hlog hmod (by rw [hk]; exact Nat.add_le_add_right hroom _) (by simp)

section
variable {admits : List ℕ → Prop} {s₀ s : St LogData Point n}

theorem reach_admit (h : Reach (logClient LOGSIZE admits) s₀ s) (hp : s.ctl p = .run .idle) (hl : s.lk = none)
    (hf : ¬ s.data.full) (hadm : admits todo) :
    ∃ s', Reach (logClient LOGSIZE admits) s₀ s' ∧ s'.lk = none ∧
      s'.ctl = Function.update s.ctl p (.run (.inOp ⟨s.data.history.length,[],todo⟩)) ∧
      s'.data = { s.data with outstanding := s.data.outstanding+1 } := by
  have h1 := h.step (Step.work hp (LogMove.begin hadm))
  have h2 := h1.step (Step.acquire (Function.update_self ..) LogMove.beginAcquire hl)
  have h3 := h2.step (Step.work (Function.update_self ..) (LogMove.beginAdmit hf))
  have h4 := h3.step (Step.release (Function.update_self ..) LogMove.beginRelease)
  exact ⟨_,h4,rfl,by simp [St.goto],rfl⟩

theorem reach_record (h : Reach (logClient LOGSIZE admits) s₀ s) (xs rest blocks : List ℕ) (e : ℕ)
    (hp : s.ctl p = .run (.inOp ⟨e,blocks,xs++rest⟩)) (hl : s.lk = none) (ho : ¬ s.data.outstanding < 1)
    (hroom : s.data.lh.length+xs.length < LOGSIZE) :
    ∃ s' done, Reach (logClient LOGSIZE admits) s₀ s' ∧ s'.lk = none ∧
      s'.ctl = Function.update s.ctl p (.run (.inOp ⟨e,done,rest⟩)) ∧
      s'.data = { s.data with lh := xs.foldl absorb s.data.lh } := by
  have hL : LOGSIZE = 30 := rfl
  induction xs generalizing s blocks with
  | nil => exact ⟨s,blocks,h,hl,(Function.update_eq_self_iff.mpr hp.symm).symm,rfl⟩
  | cons b xs ih =>
    rw [List.length_cons] at hroom
    have h1 := h.step (Step.work hp (LogMove.logWrite rfl (by omega) ho))
    have h2 := h1.step (Step.acquire (Function.update_self ..) LogMove.logAcquire hl)
    have h3 := h2.step (Step.work (Function.update_self ..) (LogMove.logRecord rfl))
    have h4 := h3.step (Step.release (Function.update_self ..) LogMove.logRelease)
    have hgrow : (absorb s.data.lh b).length ≤ s.data.lh.length+1 := by
      rw [absorb]
      split <;> simp
    obtain ⟨s',done,hr,hl',hc,hd⟩ := ih h4 (b::blocks) (Function.update_self ..) rfl ho (by
      change (absorb s.data.lh b).length+xs.length < LOGSIZE
      omega)
    exact ⟨s',done,hr,hl',by rw [hc]; simp [St.goto],hd⟩

end

/-- As long as every operation records fewer than `MAXOPBLOCKS` blocks, none is too big. -/
theorem log_write_has_room {s₀ s : St LogData Point n} (h₀ : LogStart s₀)
    (h : Reach (logClient LOGSIZE Modest) s₀ s) (p : Fin n) (held : Bool) (op : Option Op) :
    s.points p ≠ .panic held op "too big a transaction" :=
  (h.points h₀.room fun _ _ _ _ _ _ hJ hm => hJ.move hm).fits p held op

theorem log_write_has_room_once : ∃ s, Reach (logClient LOGSIZE Modest) oneProcess s ∧ s.data.lh = [5] ∧
    ∀ held op, s.points 0 ≠ .panic held op "too big a transaction" := by
  have h0 : Reach (logClient LOGSIZE Modest) oneProcess oneProcess := Reach.start
  have hadm : Modest [5] := by
    rw [Modest]
    decide
  obtain ⟨s1,h1,hl1,hc1,hd1⟩ := reach_admit (p := 0) h0 rfl rfl (by
    simp [LogData.full, oneProcess, LOGSIZE, MAXOPBLOCKS]) hadm
  obtain ⟨s2,-,h2,-,-,hd2⟩ := reach_record (p := 0) h1 [5] [] [] 0 (by rw [hc1]; rfl) hl1
    (by rw [hd1]; decide) (by rw [hd1]; decide)
  refine ⟨s2,h2,by rw [hd2, hd1]; rfl,?_⟩
  exact log_write_has_room ⟨rfl,rfl,fun _ => rfl,fun _ => rfl,rfl⟩ h2 0

/-! ### Chunks of filewrite -/

/-- `max` in `filewrite`. -/
def maxChunk : ℕ := ((LOGSIZE-1-1-2)/2)*512

/-- The layout of `mkfs`. -/
def mkfsSuper : Fs.Super := ⟨1000,200,32,58⟩

/-- A file of 14 blocks, all there. -/
def longFile (k : ℕ) : Fs.Inode :=
  { Fs.Sys.fresh Fs.T_FILE with nlink := 1, size := 7168, addrs := fun r => .ofNat (100+20*k+r) }

def threeFiles : Fs.Disk := fun b =>
  if b = 32 then (longFile 2).store ((longFile 1).store ((longFile 0).store (fun _ => 0) 64) 128) 192
  else if b%20 = 12 then Fs.setWord (Fs.setWord (fun _ => 0) 0 (b+1)) 1 (b+2)
  else fun _ => 0

/-- The blocks that a chunk at offset 100 of one of the files records. -/
def chunkBlocks (k : ℕ) : Option (List ℕ) :=
  (Fs.writei mkfsSuper ⟨threeFiles,[]⟩ (k+1) (Fs.dinode mkfsSuper threeFiles (k+1))
    (List.replicate maxChunk 0) 100).toOption.map fun r => r.1.log

def fileBlocks (k : ℕ) : List ℕ := List.range' (100+20*k) 12++[113+20*k, 114+20*k]

theorem chunk_blocks : ∀ k < 3, chunkBlocks k = some (fileBlocks k) := by decide +kernel

/-- The operations are such chunks. -/
def Chunk (todo : List ℕ) : Prop := ∃ k < 3, chunkBlocks k = some todo

theorem chunk_file {k : ℕ} (h : k < 3) : Chunk (fileBlocks k) := ⟨k,h,chunk_blocks k h⟩

def threeProcesses : St LogData Point 3 :=
  ⟨⟨0,false,[],[],[]⟩,none,.free,fun _ => .run .idle,fun _ => .running,fun _ => none⟩

theorem not_full {o : ℕ} (h : o < 3) : ¬ LogData.full ⟨o,false,[],[],[]⟩ := by
  rintro (hc | hf)
  · cases hc
  · change 30 < 0+(o+1)*10 at hf
    omega

/-- Three processes that each write a chunk are admitted together and fill the log. -/
theorem chunks_too_big : ∃ (s : St LogData Point 3) (op : Op), LogStart threeProcesses ∧
    Reach (logClient LOGSIZE Chunk) threeProcesses s ∧
      s.points 2 = .panic false (some op) "too big a transaction" := by
  have h0 : Reach (logClient LOGSIZE Chunk) threeProcesses threeProcesses := Reach.start
  obtain ⟨s1,h1,hl1,hc1,hd1⟩ := reach_admit (p := 0) h0 rfl rfl (not_full (by decide)) (chunk_file (k := 0) (by decide))
  obtain ⟨s2,h2,hl2,hc2,hd2⟩ := reach_admit (p := 1) h1 (by rw [hc1]; rfl) hl1
    (by rw [hd1]; exact not_full (by decide)) (chunk_file (k := 1) (by decide))
  obtain ⟨s3,h3,hl3,hc3,hd3⟩ := reach_admit (p := 2) h2 (by rw [hc2, hc1]; rfl) hl2
    (by rw [hd2, hd1]; exact not_full (by decide)) (chunk_file (k := 2) (by decide))
  rw [hd2, hd1] at hd3
  rw [hc2, hc1, hd2, hd1] at hc3
  obtain ⟨s4,done4,h4,hl4,hc4,hd4⟩ := reach_record (p := 0) h3 (fileBlocks 0) [] [] 0 (by rw [hc3]; rfl) hl3
    (by rw [hd3]; decide) (by rw [hd3]; decide)
  obtain ⟨s5,done5,h5,hl5,hc5,hd5⟩ := reach_record (p := 1) h4 (fileBlocks 1) [] [] 0 (by rw [hc4, hc3]; rfl) hl4
    (by rw [hd4, hd3]; decide) (by rw [hd4, hd3]; decide)
  obtain ⟨s6,done6,h6,hl6,hc6,hd6⟩ := reach_record (p := 2) h5 [140] (fileBlocks 2).tail [] 0
    (by rw [hc5, hc4, hc3]; rfl) hl5 (by rw [hd5, hd4, hd3]; decide) (by rw [hd5, hd4, hd3]; decide)
  have hp : s6.ctl 2 = .run (.inOp ⟨0,done6,(fileBlocks 2).tail⟩) := by
    rw [hc6]
    exact Function.update_self ..
  have hfull : s6.data.lh.length = 29 := by
    rw [hd6, hd5, hd4, hd3]
    decide
  have h7 := h6.step (Step.work hp (LogMove.tooBig rfl (.inr (by rw [hfull]; decide))))
  refine ⟨_,⟨0,done6,(fileBlocks 2).tail⟩,⟨rfl,rfl,fun _ => rfl,fun _ => rfl,rfl⟩,h7,?_⟩
  simp [St.points, St.goto, Ctl.point]

end Xv6.LogOps
