import Xv6.Lib.Crash

/-!
# The redo log

The disk is a map from block numbers to blocks of 32-bit words, and the functions
of `log.c` are the lists of single-block writes they issue. A write may read the
disk it finds: `install_trans` copies a log block home, and `write_head` replaces
only the words it owns, so the header keeps stale block numbers behind them.
-/

set_option autoImplicit false

namespace Xv6.Log

open Crash

def BSIZE : ℕ := 512
def LOGSIZE : ℕ := 30

abbrev Block := Fin (BSIZE/4) → BitVec 32
abbrev Disk := ℕ → Block
abbrev Write := Disk → Disk

/-- The log area as `initlog` takes it from the superblock; its body fits `lh.block`. -/
structure Layout where
  start : ℕ
  size : ℕ
  hasHeader : 0 < size
  fits : size ≤ LOGSIZE+1

def Layout.home (L : Layout) (b : ℕ) : Prop := b < L.start ∨ L.start+L.size ≤ b

/-- The blocks recorded in `log.lh` at a commit, with their contents in the buffer cache. -/
structure Txn (L : Layout) where
  blocks : List (ℕ × Block)
  distinct : (blocks.map Prod.fst).Nodup
  home : ∀ b ∈ blocks.map Prod.fst, L.home b
  uint : ∀ b ∈ blocks.map Prod.fst, b < 2^32
  short : blocks.length ≤ L.size-1

def bwrite (b : ℕ) (c : Block) : Write := fun d => Function.update d b c

def word (c : Block) (i : ℕ) : BitVec 32 := if h : i < BSIZE/4 then c ⟨i,h⟩ else 0

variable (L : Layout)

def writeLog : ℕ → List Block → List Write
  | _, [] => []
  | tail, c::cs => bwrite (L.start+tail+1) c::writeLog (tail+1) cs

def header (bs : List ℕ) (old : Block) : Block := fun j =>
  if j.val = 0 then BitVec.ofNat 32 bs.length
  else match bs[j.val-1]? with
    | some b => BitVec.ofNat 32 b
    | none => old j

def writeHead (bs : List ℕ) : Write := fun d => bwrite L.start (header bs (d L.start)) d

def readHead (d : Disk) : List ℕ :=
  (List.range (word (d L.start) 0).toInt.toNat).map fun i => (word (d L.start) (i+1)).toNat

def installTrans : ℕ → List ℕ → List Write
  | _, [] => []
  | tail, b::bs => (fun d => bwrite b (d (L.start+tail+1)) d)::installTrans (tail+1) bs

def commit (T : Txn L) : List Write :=
  if 0 < T.blocks.length then
    writeLog L 0 (T.blocks.map Prod.snd)++(writeHead L (T.blocks.map Prod.fst)::
      (installTrans L 0 (T.blocks.map Prod.fst)++[writeHead L []]))
  else []

def recoverFromLog (d : Disk) : List Write := installTrans L 0 (readHead L d)++[writeHead L []]

def recover (d : Disk) : Disk := exec (recoverFromLog L d) d

/-- A boot that loses power after `m` writes of its recovery. -/
def cutRecover (d : Disk) (m : ℕ) : Disk := exec ((recoverFromLog L d).take m) d

variable {L}

/-- What a transaction means: each of its blocks holds its new contents. -/
def Txn.apply (T : Txn L) (S : Disk) : Disk := fun b => (T.blocks.lookup b).getD (S b)

def applyAll (ts : List (Txn L)) (S : Disk) : Disk := ts.foldl (fun S T => T.apply S) S

theorem lookup_of_mem {bs : List (ℕ × Block)} (hn : (bs.map Prod.fst).Nodup) {b : ℕ} {c : Block}
    (h : (b,c) ∈ bs) : bs.lookup b = some c := by
  induction bs with
  | nil => cases h
  | cons p bs ih =>
    obtain ⟨a,v⟩ := p
    rw [List.map_cons, List.nodup_cons] at hn
    rcases List.mem_cons.mp h with heq | htl
    · cases heq
      rw [List.lookup_cons, beq_self_eq_true]
    · have hne : b ≠ a := by
        rintro rfl
        exact hn.1 (List.mem_map.mpr ⟨(b,c),htl,rfl⟩)
      rw [List.lookup_cons, beq_eq_false_iff_ne.mpr hne]
      exact ih hn.2 htl

theorem Txn.apply_mem (T : Txn L) (S : Disk) {b : ℕ} {c : Block} (h : (b,c) ∈ T.blocks) :
    T.apply S b = c := by
  rw [Txn.apply, lookup_of_mem T.distinct h, Option.getD_some]

theorem Txn.apply_other (T : Txn L) (S : Disk) {b : ℕ} (h : b ∉ T.blocks.map Prod.fst) :
    T.apply S b = S b := by
  have hl : T.blocks.lookup b = none := by
    rw [List.lookup_eq_none_iff]
    intro p hp
    rw [bne_iff_ne]
    rintro rfl
    exact h (List.mem_map.mpr ⟨p,hp,rfl⟩)
  rw [Txn.apply, hl, Option.getD_none]

/-! ## The header block -/

theorem bwrite_same (b : ℕ) (c : Block) (d : Disk) : bwrite b c d b = c := by
  simp [bwrite]

theorem bwrite_other {a b : ℕ} (c : Block) (d : Disk) (h : a ≠ b) : bwrite b c d a = d a := by
  simp [bwrite, h]

theorem readHead_writeHead {bs : List ℕ} (d : Disk) (hlen : bs.length ≤ LOGSIZE)
    (hu : ∀ b ∈ bs, b < 2^32) : readHead L (writeHead L bs d) = bs := by
  unfold LOGSIZE at hlen
  have hn : (word (header bs (d L.start)) 0).toInt.toNat = bs.length := by
    have h0 : word (header bs (d L.start)) 0 = BitVec.ofNat 32 bs.length := by
      simp [word, header, BSIZE]
    rw [h0, BitVec.toInt_ofNat', Int.bmod_def]
    omega
  rw [readHead, writeHead, bwrite_same, hn]
  apply List.ext_getElem
  · simp
  · intro i hi hb
    have hi' : i+1 < BSIZE/4 := by
      unfold BSIZE
      omega
    simpa [word, header, hi', List.getElem?_eq_getElem hb] using hu bs[i] (List.getElem_mem hb)

theorem writeHead_other (bs : List ℕ) (d : Disk) {b : ℕ} (h : b ≠ L.start) :
    writeHead L bs d b = d b := bwrite_other _ _ h

theorem readHead_congr {d d' : Disk} (h : d' L.start = d L.start) :
    readHead L d' = readHead L d := by
  rw [readHead, readHead, h]

theorem Layout.home_start {b : ℕ} (h : L.home b) : b ≠ L.start := by
  have hs := L.hasHeader
  rcases h with h | h <;> omega

theorem Layout.home_body {b i : ℕ} (hi : i < L.size-1) (h : L.home b) :
    b ≠ L.start+i+1 := by
  rcases h with h | h <;> omega

theorem Txn.body_lt (T : Txn L) {i : ℕ} (hi : i < T.blocks.length) : i < L.size-1 :=
  lt_of_lt_of_le hi T.short

theorem Txn.readHead_writeHead (T : Txn L) (d : Disk) :
    readHead L (writeHead L (T.blocks.map Prod.fst) d) = T.blocks.map Prod.fst := by
  apply Log.readHead_writeHead d _ T.uint
  have hs := T.short
  have hf := L.fits
  rw [List.length_map]
  omega

/-! ## What the disk stands for

`Clean L d S` is a disk with an empty log whose home blocks are those of `S`.
`Pending d S T` is one whose log holds the committed transaction `T`: the home
blocks `T` names may be old or new, and `S` is the state once they are all new.
-/

structure Clean (L : Layout) (d S : Disk) : Prop where
  head : readHead L d = []
  homes : ∀ b, L.home b → d b = S b

structure Pending (d S : Disk) (T : Txn L) : Prop where
  head : readHead L d = T.blocks.map Prod.fst
  body : ∀ i (h : i < T.blocks.length), d (L.start+i+1) = T.blocks[i].2
  new : ∀ i (h : i < T.blocks.length), S T.blocks[i].1 = T.blocks[i].2
  rest : ∀ b, L.home b → b ∉ T.blocks.map Prod.fst → d b = S b

theorem clean_writeHead {d S : Disk} (h : ∀ b, L.home b → d b = S b) :
    Clean L (writeHead L [] d) S := by
  constructor
  · exact readHead_writeHead d (by simp) (by simp)
  · intro b hb
    rw [writeHead_other [] d (Layout.home_start hb), h b hb]

/-! ## Installing -/

theorem Pending.install {d S : Disk} {T : Txn L} (h : Pending d S T) {i : ℕ}
    (hi : i < T.blocks.length) :
    Pending (bwrite T.blocks[i].1 (d (L.start+i+1)) d) S T := by
  have hhome : L.home T.blocks[i].1 :=
    T.home _ (List.mem_map.mpr ⟨T.blocks[i],List.getElem_mem hi,rfl⟩)
  refine ⟨?_,?_,h.new,?_⟩
  · rw [readHead_congr, h.head]
    exact bwrite_other _ _ (Layout.home_start hhome).symm
  · intro j hj
    rw [bwrite_other _ _ (Layout.home_body (T.body_lt hj) hhome).symm, h.body j hj]
  · intro b hb hnot
    have hne : b ≠ T.blocks[i].1 := by
      rintro rfl
      exact hnot (List.mem_map.mpr ⟨T.blocks[i],List.getElem_mem hi,rfl⟩)
    rw [bwrite_other _ _ hne, h.rest b hb hnot]

theorem Pending.install_value {d S : Disk} {T : Txn L} (h : Pending d S T) {i : ℕ}
    (hi : i < T.blocks.length) {b : ℕ} (hb : b = T.blocks[i].1 ∨ d b = S b) :
    bwrite T.blocks[i].1 (d (L.start+i+1)) d b = S b := by
  by_cases heq : b = T.blocks[i].1
  · subst heq
    rw [bwrite_same, h.body i hi, h.new i hi]
  · rw [bwrite_other _ _ heq]
    exact hb.resolve_left heq

theorem installTrans_length (tail : ℕ) (bs : List ℕ) :
    (installTrans L tail bs).length = bs.length := by
  induction bs generalizing tail with
  | nil => rfl
  | cons b bs ih => simp [installTrans, ih]

-- the blocks before `tail` are new already, and every write makes one more of them new
theorem Pending.install_run {S : Disk} {T : Txn L} {tail : ℕ} {bs : List ℕ} {d : Disk}
    (h : Pending d S T) (hbs : bs = (T.blocks.map Prod.fst).drop tail)
    (hnew : ∀ i (hi : i < T.blocks.length), i < tail → d T.blocks[i].1 = S T.blocks[i].1) (m : ℕ) :
    Pending (exec ((installTrans L tail bs).take m) d) S T ∧
      (bs.length ≤ m → ∀ i (hi : i < T.blocks.length),
        exec ((installTrans L tail bs).take m) d T.blocks[i].1 = S T.blocks[i].1) := by
  induction bs generalizing tail d m with
  | nil =>
    refine ⟨by simpa [installTrans, exec] using h,fun _ i hi => ?_⟩
    have hlen : T.blocks.length ≤ tail := by
      simpa using List.drop_eq_nil_iff.mp hbs.symm
    simpa [installTrans, exec] using hnew i hi (by omega)
  | cons b bs ih =>
    have hlt : tail < T.blocks.length := by
      by_contra hge
      rw [List.drop_of_length_le (by simpa using hge)] at hbs
      cases hbs
    rw [List.drop_eq_getElem_cons (by simpa using hlt), List.getElem_map] at hbs
    obtain ⟨rfl,htl⟩ := List.cons.inj hbs
    cases m with
    | zero => exact ⟨h,fun hm => by simp at hm⟩
    | succ m =>
      have hstep := ih (h.install hlt) htl (fun i hi hle => by
        apply h.install_value hlt
        rcases Nat.lt_succ_iff_lt_or_eq.mp hle with hlt' | rfl
        · exact Or.inr (hnew i hi hlt')
        · exact Or.inl rfl) m
      exact ⟨hstep.1,fun hm => hstep.2 (by simpa using hm)⟩

theorem Pending.installed {d S : Disk} {T : Txn L} (h : Pending d S T)
    (hnew : ∀ i (hi : i < T.blocks.length), d T.blocks[i].1 = S T.blocks[i].1)
    (b : ℕ) (hb : L.home b) : d b = S b := by
  by_cases hmem : b ∈ T.blocks.map Prod.fst
  · obtain ⟨p,hp,rfl⟩ := List.mem_map.mp hmem
    obtain ⟨i,hi,rfl⟩ := List.getElem_of_mem hp
    exact hnew i hi
  · exact h.rest b hb hmem

/-- The committed state is the one an interrupted installation is on its way to. -/
def Recovers (L : Layout) (d S : Disk) : Prop := Clean L d S ∨ ∃ T : Txn L, Pending d S T

theorem Pending.finish {d S : Disk} {T : Txn L} (h : Pending d S T) (m : ℕ) :
    let ws := installTrans L 0 (T.blocks.map Prod.fst)++[writeHead L []]
    Recovers L (exec (ws.take m) d) S ∧ (ws.length ≤ m → Clean L (exec (ws.take m) d) S) := by
  intro ws
  have hrun := h.install_run (List.drop_zero (l := T.blocks.map Prod.fst)).symm
    (fun i _ hi => by omega)
  by_cases hm : m ≤ (installTrans L 0 (T.blocks.map Prod.fst)).length
  · rw [exec_take_before _ _ _ hm]
    refine ⟨Or.inr ⟨T,(hrun m).1⟩,fun hall => ?_⟩
    simp only [ws, List.length_append, List.length_singleton] at hall
    omega
  · have hclean : Clean L (exec (ws.take m) d) S := by
      rw [exec_take_after _ _ _ (by omega), List.take_of_length_le (by simp; omega)]
      apply clean_writeHead
      obtain ⟨hp,hnew⟩ := hrun (installTrans L 0 (T.blocks.map Prod.fst)).length
      rw [List.take_length] at hp hnew
      exact hp.installed (hnew (by rw [installTrans_length]))
    exact ⟨Or.inl hclean,fun _ => hclean⟩

/-! ## Recovery -/

theorem Recovers.cut {d S : Disk} (h : Recovers L d S) (m : ℕ) : Recovers L (cutRecover L d m) S := by
  rcases h with h | ⟨T,h⟩
  · rw [cutRecover, recoverFromLog, h.head]
    cases m with
    | zero => exact Or.inl h
    | succ m => exact Or.inl (by simpa [installTrans, exec] using clean_writeHead h.homes)
  · rw [cutRecover, recoverFromLog, h.head]
    exact (h.finish m).1

theorem Recovers.cuts {d S : Disk} (h : Recovers L d S) (ms : List ℕ) :
    Recovers L (ms.foldl (cutRecover L) d) S := by
  induction ms generalizing d with
  | nil => exact h
  | cons m ms ih => exact ih (h.cut m)

theorem Recovers.recover {d S : Disk} (h : Recovers L d S) : Clean L (recover L d) S := by
  rcases h with h | ⟨T,h⟩
  · rw [Log.recover, recoverFromLog, h.head]
    exact clean_writeHead h.homes
  · have hf := (h.finish (recoverFromLog L d).length).2
    rw [recoverFromLog, h.head, List.take_length] at hf
    rw [Log.recover, recoverFromLog, h.head]
    exact hf le_rfl

/-! ## Committing -/

theorem writeLog_length (tail : ℕ) (cs : List Block) : (writeLog L tail cs).length = cs.length := by
  induction cs generalizing tail with
  | nil => rfl
  | cons c cs ih => simp [writeLog, ih]

-- every write of the log body is to a log block, so the header and the home blocks stay
theorem writeLog_outside (tail : ℕ) (cs : List Block) (m : ℕ) (d : Disk) {b : ℕ}
    (hb : ∀ i, i < cs.length → b ≠ L.start+(tail+i)+1) :
    exec ((writeLog L tail cs).take m) d b = d b := by
  induction cs generalizing tail m d with
  | nil => simp [writeLog, exec]
  | cons c cs ih =>
    cases m with
    | zero => rfl
    | succ m =>
      have h0 := hb 0 (by simp)
      have hrest := ih (tail+1) m (bwrite (L.start+tail+1) c d) (fun i hi => by
        have := hb (i+1) (by simpa using hi)
        omega)
      rw [bwrite_other _ _ (by simpa using h0)] at hrest
      exact hrest

theorem writeLog_body (tail : ℕ) (cs : List Block) (d : Disk) {i : ℕ} (hi : i < cs.length) :
    exec (writeLog L tail cs) d (L.start+(tail+i)+1) = cs[i] := by
  induction cs generalizing tail d i with
  | nil => simp at hi
  | cons c cs ih =>
    cases i with
    | zero =>
      have hout := writeLog_outside (L := L) (tail+1) cs cs.length
        (bwrite (L.start+tail+1) c d) (b := L.start+tail+1) (fun j _ => by omega)
      rw [List.take_of_length_le (by rw [writeLog_length])] at hout
      exact hout.trans (bwrite_same _ _ _)
    | succ i =>
      have hrest := ih (tail+1) (bwrite (L.start+tail+1) c d) (i := i) (by simpa using hi)
      rw [show L.start+(tail+1+i)+1 = L.start+(tail+(i+1))+1 by omega] at hrest
      exact hrest

theorem Clean.writeLog_cut {d S : Disk} (h : Clean L d S) (T : Txn L) (m : ℕ) :
    Clean L (exec ((writeLog L 0 (T.blocks.map Prod.snd)).take m) d) S := by
  constructor
  · rw [readHead_congr, h.head]
    exact writeLog_outside 0 _ m d (fun i _ => by omega)
  · intro b hb
    rw [writeLog_outside 0 _ m d, h.homes b hb]
    intro i hi
    rw [Nat.zero_add]
    exact Layout.home_body (T.body_lt (by simpa using hi)) hb

theorem Clean.committed {d S : Disk} (h : Clean L d S) (T : Txn L) :
    Pending (writeHead L (T.blocks.map Prod.fst)
      (exec (writeLog L 0 (T.blocks.map Prod.snd)) d)) (T.apply S) T := by
  have hlog := h.writeLog_cut T T.blocks.length
  rw [List.take_of_length_le (by simp [writeLog_length])] at hlog
  refine ⟨T.readHead_writeHead _,?_,?_,?_⟩
  · intro i hi
    have hbody := writeLog_body (L := L) 0 (T.blocks.map Prod.snd) d (i := i) (by simpa using hi)
    rw [writeHead_other _ _ (by omega)]
    simpa using hbody
  · intro i hi
    exact T.apply_mem S (List.getElem_mem hi)
  · intro b hb hnot
    rw [writeHead_other _ _ (Layout.home_start hb), hlog.homes b hb, T.apply_other S hnot]

theorem Clean.commit_empty {d S : Disk} (h : Clean L d S) {T : Txn L} (hT : ¬ 0 < T.blocks.length) :
    Clean L d (T.apply S) := by
  have hnil : T.blocks = [] := List.length_eq_zero_iff.mp (by omega)
  refine ⟨h.head,fun b hb => ?_⟩
  rw [h.homes b hb, T.apply_other S (by simp [hnil])]

/-- A commit cut after `m` writes leaves the old state or the new one, and all of
its writes leave the new one. -/
theorem Clean.commit_cut {d S : Disk} (h : Clean L d S) (T : Txn L) (m : ℕ) :
    (Recovers L (exec ((commit L T).take m) d) S ∨
      Recovers L (exec ((commit L T).take m) d) (T.apply S)) ∧
    ((commit L T).length ≤ m → Clean L (exec ((commit L T).take m) d) (T.apply S)) := by
  by_cases hT : 0 < T.blocks.length
  · rw [commit, if_pos hT]
    by_cases hm : m ≤ (writeLog L 0 (T.blocks.map Prod.snd)).length
    · rw [exec_take_before _ _ _ hm]
      refine ⟨Or.inl (Or.inl (h.writeLog_cut T m)),fun hall => ?_⟩
      simp only [List.length_append, List.length_cons] at hall
      omega
    · -- the header is on the disk, and what is left is the installation of `T`
      obtain ⟨k,hk⟩ : ∃ k, m-(writeLog L 0 (T.blocks.map Prod.snd)).length = k+1 :=
        ⟨m-(writeLog L 0 (T.blocks.map Prod.snd)).length-1,by omega⟩
      rw [exec_take_after _ _ _ (by omega), hk, List.take_succ_cons]
      obtain ⟨hrec,hall⟩ := (h.committed T).finish k
      refine ⟨Or.inr hrec,fun hlen => hall ?_⟩
      simp only [List.length_append, List.length_cons] at hlen ⊢
      omega
  · rw [commit, if_neg hT, List.take_nil]
    exact ⟨Or.inl (Or.inl h),fun _ => h.commit_empty hT⟩

/-- The disk writes of transactions committed one after another. -/
def commits (ts : List (Txn L)) : List Write := ts.flatMap (commit L)

theorem commits_cons (T : Txn L) (ts : List (Txn L)) : commits (T::ts) = commit L T++commits ts := by
  rw [commits, List.flatMap_cons, ← commits]

theorem Clean.commits_cut {d S : Disk} (h : Clean L d S) (ts : List (Txn L)) (m : ℕ) :
    ∃ p ≤ ts.length, Recovers L (exec ((commits ts).take m) d) (applyAll (ts.take p) S) ∧
      ∀ q ≤ ts.length, (commits (ts.take q)).length ≤ m → q ≤ p := by
  induction ts generalizing d S m with
  | nil =>
    have hnone : exec ((commits ([] : List (Txn L))).take m) d = d := by simp [commits, exec]
    rw [hnone]
    exact ⟨0,le_rfl,Or.inl h,fun q hq _ => hq⟩
  | cons T ts ih =>
    rw [commits_cons]
    by_cases hm : (commit L T).length ≤ m
    · have hdone := (h.commit_cut T (commit L T).length).2 le_rfl
      rw [List.take_length] at hdone
      obtain ⟨p,hp,hrec,hret⟩ := ih hdone (m-(commit L T).length)
      rw [exec_take_after _ _ _ hm]
      refine ⟨p+1,by simpa using hp,hrec,fun q hq hlen => ?_⟩
      cases q with
      | zero => exact Nat.zero_le _
      | succ q =>
        rw [List.take_succ_cons, commits_cons, List.length_append] at hlen
        exact Nat.succ_le_succ (hret q (by simpa using hq) (by omega))
    · -- the crash is inside the commit of `T`, so only the empty prefix had returned
      have hret : ∀ q ≤ (T::ts).length, (commits ((T::ts).take q)).length ≤ m → q ≤ 0 := by
        intro q hq hlen
        cases q with
        | zero => exact le_rfl
        | succ q =>
          rw [List.take_succ_cons, commits_cons, List.length_append] at hlen
          omega
      rw [exec_take_before _ _ _ (by omega)]
      rcases (h.commit_cut T m).1 with hrec | hrec
      · exact ⟨0,Nat.zero_le _,hrec,hret⟩
      · exact ⟨1,by simp,hrec,fun q hq hlen => (hret q hq hlen).trans (Nat.zero_le 1)⟩

/-- Crash atomicity: transactions `ts` are committed from a disk with an empty log,
the power fails after `m` writes and again after each number of writes in `ms`
during recovery. Recovery then gives the state after a prefix of `ts` that holds
every transaction whose commit had made all its writes, and is idempotent. -/
theorem crash_recovers (L : Layout) (d : Disk) (hd : readHead L d = []) (ts : List (Txn L))
    (m : ℕ) (ms : List ℕ) :
    let r := recover L (ms.foldl (cutRecover L) (exec ((commits ts).take m) d))
    ∃ p ≤ ts.length, (∀ b, L.home b → r b = applyAll (ts.take p) d b) ∧
      (∀ q ≤ ts.length, (commits (ts.take q)).length ≤ m → q ≤ p) ∧
      ∀ b, L.home b → recover L r b = r b := by
  intro r
  obtain ⟨p,hp,hrec,hret⟩ := Clean.commits_cut (L := L) (d := d) ⟨hd,fun b _ => rfl⟩ ts m
  have hr : Clean L r (applyAll (ts.take p) d) := (hrec.cuts ms).recover
  refine ⟨p,hp,hr.homes,hret,fun b hb => ?_⟩
  have hagain : Clean L (recover L r) (applyAll (ts.take p) d) := Recovers.recover (Or.inl hr)
  rw [hagain.homes b hb, hr.homes b hb]

/-- The log `mkfs` lays out: header in block 2, 29 blocks of body behind it. -/
def mkfsLayout : Layout := ⟨2,LOGSIZE,by decide,by decide⟩

def oneBlock : Txn mkfsLayout :=
  ⟨[(100,fun _ => 7)],by decide,by
    intro b hb
    rw [List.map_cons, List.map_nil, List.mem_singleton] at hb
    subst hb
    exact Or.inr (by decide),by simp,by decide⟩

/-- One transaction, a crash after its header is written and one during recovery. -/
theorem crash_recovers_committed :
    readHead mkfsLayout (fun _ _ => 0) = [] ∧
      ∃ p ≤ 1, (∀ b, mkfsLayout.home b →
        recover mkfsLayout (cutRecover mkfsLayout
          (exec ((commits [oneBlock]).take 2) (fun _ _ => 0)) 1) b =
        applyAll ([oneBlock].take p) (fun _ _ => 0) b) :=
  ⟨by decide,by
    obtain ⟨p,hp,hs,_,_⟩ := crash_recovers mkfsLayout (fun _ _ => 0) (by decide) [oneBlock] 2 [1]
    exact ⟨p,hp,hs⟩⟩

end Xv6.Log
