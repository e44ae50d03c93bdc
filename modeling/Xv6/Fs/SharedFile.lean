import Xv6.Fs.FileBytes
import Xv6.Fs.Reservation

/-!
# Writers that share an open file

`filewrite` of `file.c` on an inode cuts its buffer into chunks. Each chunk is a `writei` at
the offset of the `struct file`, and the store to that offset, under the lock of the inode.
Calls of any number of processes on one file run with their chunks in any order. The offset
goes on by what is written, so that the chunks stand one after the other in the file.
-/

set_option autoImplicit false

namespace Xv6.Fs
open Xv6.Kalloc Xv6.Halting Xv6.LogOps

/-- The disk, the inode in memory and `f->off`. -/
structure Shared where
  store : Store
  ip : Inode
  off : ℕ

/-- How far a call is in its buffer; a failed `writei` breaks the loop. -/
inductive Call where
  | run (i : ℕ)
  | broken
  deriving DecidableEq

/-- The bytes that the next round of the loop writes. -/
def nextChunk (buf : List UInt8) (i : ℕ) : List UInt8 := (buf.drop i).take maxChunk

/-- One round of the loop of `filewrite`, from `begin_op` to `i += r`. -/
def filewriteChunk (sb : Super) (inum : ℕ) (f : Shared) (buf : List UInt8) (i : ℕ) :
    Except Halt (Shared × Call) := do
  let src := nextChunk buf i
  let (s, ip, r) ← writei sb f.store inum f.ip src f.off
  match r with
  | .fail => .ok (⟨s,ip,f.off⟩, .broken)
  | .done r =>
    if r ≠ src.length then .error (.panic "short filewrite") else .ok (⟨s,ip,f.off+r⟩, .run (i+r))
  -- `consolewrite` returns its argument
  | .console => .ok (⟨s,ip,f.off+src.length⟩, .run (i+src.length))

/-- The calls, and the chunks in the order in which they were written. -/
structure Writers (n : ℕ) where
  file : Shared
  calls : Fin n → Call
  order : List (Fin n × List UInt8)

section
variable {n : ℕ} (sb : Super) (inum : ℕ) (buf : Fin n → List UInt8)

inductive ChunkStep (w : Writers n) : Writers n → Prop where
  | wrote {p : Fin n} {i j : ℕ} {f : Shared} (hp : w.calls p = .run i) (hi : i < (buf p).length)
      (h : filewriteChunk sb inum w.file (buf p) i = .ok (f, .run j)) :
      ChunkStep w ⟨f,Function.update w.calls p (.run j),w.order++[(p,nextChunk (buf p) i)]⟩
  | broke {p : Fin n} {i : ℕ} {f : Shared} (hp : w.calls p = .run i) (hi : i < (buf p).length)
      (h : filewriteChunk sb inum w.file (buf p) i = .ok (f, .broken)) :
      ChunkStep w ⟨f,Function.update w.calls p .broken,w.order⟩

inductive ChunkRun (w₀ : Writers n) : Writers n → Prop where
  | start : ChunkRun w₀ w₀
  | step {w w' : Writers n} (h : ChunkRun w₀ w) (hs : ChunkStep sb inum buf w w') : ChunkRun w₀ w'

/-- All calls begin, on an inode in memory that is the one on the disk. -/
structure Writers.Begin (w : Writers n) : Prop where
  calls : ∀ p, w.calls p = .run 0
  order : w.order = []
  ip : w.file.ip = dinode sb w.file.store.disk inum
  regular : w.file.ip.type = T_FILE
  filled : Filled (slotRef w.file.store.disk w.file.ip) w.file.ip.nblocks
  allocated : Allocated sb w.file.store.disk

/-- Every call has returned its `n`. -/
def Writers.Returned (w : Writers n) : Prop := ∀ p, w.calls p = .run (buf p).length

end

def Writers.bytes {n : ℕ} (w : Writers n) : List UInt8 := (w.order.map (·.2)).flatten

def Writers.bytesOf {n : ℕ} (w : Writers n) (p : Fin n) : List UInt8 :=
  ((w.order.filter (·.1 = p)).map (·.2)).flatten

variable {n inum : ℕ} {sb : Super} {buf : Fin n → List UInt8} {w w' w₀ : Writers n} {f f' : Shared}
  {b src : List UInt8} {i j off : ℕ} {s s' : Store} {ip ip' : Inode}

/-! ### One chunk -/

theorem writei_fail (h : writei sb s inum ip src off = .ok (s', ip', .fail)) : s' = s ∧ ip' = ip := by
  have hsame : ∀ r, (Except.ok (s, ip, r) : Except Halt (Store × Inode × Io ℕ)) = .ok (s', ip', .fail) →
      s' = s ∧ ip' = ip := by
    intro r hr
    rw [Except.ok.injEq, Prod.mk.injEq, Prod.mk.injEq] at hr
    exact ⟨hr.1.symm,hr.2.1.symm⟩
  rw [writei] at h
  dsimp only at h
  split at h
  · exact hsame _ h
  split at h
  · exact hsame _ h
  split at h
  · exact hsame _ h
  obtain ⟨t,-,h⟩ := bind_ok.mp h
  split at h <;> cases h

theorem writei_bounds (hdev : ip.type ≠ T_DEV) (hlen : src.length < 2^32) {r : ℕ}
    (h : writei sb s inum ip src off = .ok (s', ip', .done r)) :
    off ≤ ip.size.toNat ∧ off+src.length ≤ MAXFILE*BSIZE := by
  have hs := ip.size.toNat_lt
  rw [writei] at h
  dsimp only at h
  rw [if_neg hdev] at h
  split at h
  · cases h
  split at h
  · cases h
  next hoff hend => omega

theorem chunk_broken (h : filewriteChunk sb inum f b i = .ok (f', .broken)) : f' = f := by
  rw [filewriteChunk] at h
  obtain ⟨t,ht,h⟩ := bind_ok.mp h
  obtain ⟨s',ip',r⟩ := t
  cases r with
  | fail =>
    obtain ⟨rfl,rfl⟩ := writei_fail ht
    cases h
    rfl
  | done r =>
    dsimp only at h
    split at h <;> cases h
  | console => cases h

theorem chunk_run (hdev : f.ip.type ≠ T_DEV) (h : filewriteChunk sb inum f b i = .ok (f', .run j)) :
    writei sb f.store inum f.ip (nextChunk b i) f.off = .ok (f'.store, f'.ip, .done (nextChunk b i).length) ∧
      f'.off = f.off+(nextChunk b i).length ∧ j = i+(nextChunk b i).length := by
  rw [filewriteChunk] at h
  obtain ⟨t,ht,h⟩ := bind_ok.mp h
  obtain ⟨s',ip',r⟩ := t
  cases r with
  | fail => cases h
  | done r =>
    dsimp only at h
    split at h
    · cases h
    · next hr =>
      rw [not_not] at hr
      subst hr
      cases h
      exact ⟨ht,rfl,rfl⟩
  | console =>
    rw [writei] at ht
    dsimp only at ht
    rw [if_neg hdev] at ht
    split at ht
    · cases ht
    split at ht
    · cases ht
    obtain ⟨t,-,ht⟩ := bind_ok.mp ht
    split at ht <;> cases ht

/-! ### The chunks in order -/

theorem bytes_wrote (f : Shared) (calls : Fin n → Call) (order : List (Fin n × List UInt8)) (p : Fin n) :
    (⟨f,calls,order++[(p,src)]⟩ : Writers n).bytes = (⟨f,calls,order⟩ : Writers n).bytes++src := by
  simp [Writers.bytes]

theorem bytesOf_wrote (f : Shared) (calls : Fin n → Call) (order : List (Fin n × List UInt8)) (p q : Fin n) :
    (⟨f,calls,order++[(p,src)]⟩ : Writers n).bytesOf q =
      (⟨f,calls,order⟩ : Writers n).bytesOf q++if p = q then src else [] := by
  by_cases h : p = q
  · simp [Writers.bytesOf, List.filter_append, h]
  · simp [Writers.bytesOf, List.filter_append, h]

theorem bytes_length (w : Writers n) : w.bytes.length = ∑ p, (w.bytesOf p).length := by
  obtain ⟨f,calls,order⟩ := w
  induction order using List.reverseRecOn with
  | nil => simp [Writers.bytes, Writers.bytesOf]
  | append_singleton order x ih =>
    obtain ⟨p,src⟩ := x
    have hlen : ∀ q, (if p = q then src else []).length = if p = q then src.length else 0 := by
      intro q
      split <;> rfl
    simp only [bytes_wrote, bytesOf_wrote, List.length_append, hlen, Finset.sum_add_distrib,
      Finset.sum_ite_eq, Finset.mem_univ, if_true]
    rw [ih]

/-- What holds after any chunks: the file has the old content with the chunks at the offset. -/
structure Writers.Inv (lost : Set ℕ) (sb : Super) (inum : ℕ) (buf : Fin n → List UInt8) (off : ℕ)
    (old : List UInt8) (w : Writers n) : Prop where
  ip : w.file.ip = dinode sb w.file.store.disk inum
  regular : w.file.ip.type = T_FILE
  filled : Filled (slotRef w.file.store.disk w.file.ip) w.file.ip.nblocks
  agree : Agree lost sb w.file.store.disk (dinode sb w.file.store.disk)
  offset : w.file.off = off+w.bytes.length
  begun : w.bytes = [] ∨ off ≤ old.length
  content : content w.file.store.disk w.file.ip = old.take off++w.bytes++old.drop (off+w.bytes.length)
  parts : ∀ p i, w.calls p = .run i → w.bytesOf p = (buf p).take i

theorem patch_behind {old done : List UInt8} (hoff : done = [] ∨ off ≤ old.length) (hle : off+done.length ≤
    (old.take off++done++old.drop (off+done.length)).length) :
    (old.take off++done++old.drop (off+done.length)).take (off+done.length)++src++
        (old.take off++done++old.drop (off+done.length)).drop (off+done.length+src.length) =
      old.take off++(done++src)++old.drop (off+(done++src).length) ∧ off ≤ old.length := by
  have hlen : off ≤ old.length := by
    rcases hoff with rfl | h
    · simp at hle
      omega
    · exact h
  have hfront : (old.take off++done).length = off+done.length := by
    rw [List.length_append, List.length_take, Nat.min_eq_left hlen]
  refine ⟨?_,hlen⟩
  rw [List.take_left' hfront, ← List.drop_drop, List.drop_left' hfront, List.drop_drop, List.length_append,
    ← Nat.add_assoc]
  simp only [List.append_assoc]

theorem Writers.Inv.step {lost : Set ℕ} {old : List UInt8} (hsb : sb.Ok) (hi : inum < sb.ninodes)
    (h : w.Inv lost sb inum buf off old) (hs : ChunkStep sb inum buf w w') : w'.Inv lost sb inum buf off old := by
  cases hs with
  | @broke p i f hp hlt hc =>
    obtain rfl := chunk_broken hc
    refine ⟨h.ip,h.regular,h.filled,h.agree,h.offset,h.begun,h.content,fun q j hq => ?_⟩
    by_cases hqp : q = p
    · subst hqp
      cases hq.symm.trans (Function.update_self ..)
    · exact h.parts q j ((Function.update_of_ne hqp ..).symm.trans hq)
  | @wrote p i j f hp hlt hc =>
    have hdev : w.file.ip.type ≠ T_DEV := by
      rw [h.regular]
      decide
    have hused : w.file.ip.type ≠ 0 := by
      rw [h.regular]
      decide
    have hfilled := h.filled
    obtain ⟨hw,hoff,rfl⟩ := chunk_run hdev hc
    have hchunk : (nextChunk (buf p) i).length < 2^32 := (List.length_take_le ..).trans_lt (by decide)
    obtain ⟨hle,hend⟩ := writei_bounds hdev hchunk hw
    rw [h.ip] at hw hle hdev hused hfilled
    rcases writei_outcome hsb h.agree hi hused hdev hfilled hle hend with ⟨s',ip',hrun,hst,-⟩ | ⟨hrun,-⟩
    · have hp' := hst.patched hi hle
      rw [hrun, Except.ok.injEq, Prod.mk.injEq, Prod.mk.injEq] at hw
      obtain ⟨rfl,rfl,-⟩ := hw
      have hcontent := h.content
      rw [h.ip] at hcontent
      have hpatch := hp'.content
      rw [hcontent, h.offset] at hpatch
      rw [← content_length w.file.store.disk, hcontent, h.offset] at hle
      obtain ⟨hnew,hin⟩ := @patch_behind (nextChunk (buf p) i) off old w.bytes h.begun hle
      refine ⟨hp'.inode.symm,?_,hst.settled.own,hst.settled.agree,?_,.inr hin,?_,fun q k hq => ?_⟩
      · have htype : f.ip.type = (dinode sb w.file.store.disk inum).type := by rw [hst.fields]
        rw [htype, ← h.ip]
        exact h.regular
      · rw [bytes_wrote, List.length_append, ← Nat.add_assoc]
        exact hoff.trans (by rw [h.offset]; rfl)
      · rw [bytes_wrote]
        exact hpatch.trans hnew
      · rw [bytesOf_wrote]
        by_cases hqp : q = p
        · subst hqp
          cases hq.symm.trans (Function.update_self ..)
          rw [if_pos rfl]
          change w.bytesOf q++_ = _
          rw [h.parts q i hp, nextChunk, List.take_add, List.length_take, ← List.take_eq_take_min]
        · rw [if_neg (Ne.symm hqp), List.append_nil]
          exact h.parts q k ((Function.update_of_ne hqp ..).symm.trans hq)
    · cases hrun.symm.trans hw

theorem Writers.Begin.inv (h₀ : w₀.Begin sb inum) :
    ∃ lost, w₀.Inv lost sb inum buf w₀.file.off (content w₀.file.store.disk w₀.file.ip) := by
  have hnil : w₀.bytes = [] := by
    rw [Writers.bytes, h₀.order]
    rfl
  refine ⟨_,h₀.ip,h₀.regular,h₀.filled,h₀.allocated.agree,by rw [hnil]; rfl,.inl hnil,?_,fun p i hp => ?_⟩
  · rw [hnil, List.append_nil, List.length_nil, Nat.add_zero, List.take_append_drop]
  · cases (h₀.calls p).symm.trans hp
    rw [Writers.bytesOf, h₀.order]
    rfl

theorem ChunkRun.inv {lost : Set ℕ} {old : List UInt8} (hsb : sb.Ok) (hi : inum < sb.ninodes)
    (h₀ : w₀.Inv lost sb inum buf off old) (hr : ChunkRun sb inum buf w₀ w) : w.Inv lost sb inum buf off old := by
  induction hr with
  | start => exact h₀
  | step _ hs ih => exact ih.step hsb hi hs

/-- One call that writes a byte at the start of a file of 512 bytes. -/
def oneWriter : Writers 1 := ⟨⟨⟨tinyDisk 4 31,[]⟩,shortFile 4,0⟩,fun _ => .run 0,[]⟩

theorem oneWriter_begin : oneWriter.Begin tiny 1 := by
  have hfilled := (tiny_owned (a := 4) (by decide) (by decide) 31 (by decide +kernel)).files 1
    (by decide) (by rw [tiny_dinode]; decide)
  have hrefs := @refs_allocated tiny (dinode tiny (tinyDisk 4 31)) 1 (tinyDisk 4 31)
    (by decide) (by rw [tiny_dinode]; decide)
  simp only [hrefs, tiny_dinode] at hfilled
  exact ⟨fun _ => rfl,rfl,(tiny_dinode 4 31).symm,rfl,hfilled,tiny_allocated⟩

theorem oneWriter_run : ∃ w, ChunkRun tiny 1 (fun _ => [7]) oneWriter w ∧ w.Returned (fun _ => [7]) ∧
    w.bytes = [7] := by
  have hok : (filewriteChunk tiny 1 oneWriter.file [7] 0).toOption.map (·.2) = some (.run 1) := by
    decide +kernel
  cases hrun : filewriteChunk tiny 1 oneWriter.file [7] 0 with
  | error e =>
    rw [hrun] at hok
    cases hok
  | ok t =>
    obtain ⟨f,c⟩ := t
    rw [hrun] at hok
    obtain rfl : c = .run 1 := Option.some.inj hok
    refine ⟨_,ChunkRun.start.step (.wrote (p := 0) rfl (by decide) hrun),fun p => ?_,rfl⟩
    obtain rfl : p = 0 := Subsingleton.elim ..
    exact Function.update_self (0 : Fin 1) (Call.run 1) oneWriter.calls

/-- Once every call has returned its `n`, the chunks stand in the file in the order in which
they were written, and those of each call make up its buffer. -/
theorem writers_append (hsb : sb.Ok) (hi : inum < sb.ninodes) (h₀ : w₀.Begin sb inum)
    (hr : ChunkRun sb inum buf w₀ w) (hret : w.Returned buf) :
    content w.file.store.disk w.file.ip =
        (content w₀.file.store.disk w₀.file.ip).take w₀.file.off++w.bytes++
          (content w₀.file.store.disk w₀.file.ip).drop (w₀.file.off+w.bytes.length) ∧
      (∀ p, w.bytesOf p = buf p) ∧ w.file.off = w₀.file.off+∑ p, (buf p).length := by
  obtain ⟨lost,hbegin⟩ : ∃ lost, w₀.Inv lost sb inum buf w₀.file.off _ := h₀.inv
  have hinv := hr.inv hsb hi hbegin
  have hparts : ∀ p, w.bytesOf p = buf p := fun p => (hinv.parts p _ (hret p)).trans List.take_length
  refine ⟨hinv.content,hparts,?_⟩
  rw [hinv.offset, bytes_length]
  simp only [hparts]

theorem writers_append_one : ∃ w, ChunkRun tiny 1 (fun _ => [7]) oneWriter w ∧ w.file.off = 1 ∧
    content w.file.store.disk w.file.ip = 7::(content (tinyDisk 4 31) (shortFile 4)).drop 1 := by
  obtain ⟨w,hr,hret,hbytes⟩ := oneWriter_run
  obtain ⟨hcontent,-,hoff⟩ := writers_append tiny_ok (by decide) oneWriter_begin hr hret
  have h0 : oneWriter.file.off = 0 := rfl
  rw [hbytes, h0, List.take_zero, List.nil_append, List.singleton_append] at hcontent
  exact ⟨w,hr,hoff.trans (by simp [h0]),hcontent⟩

/-- A file that was longer keeps its end. -/
theorem old_bytes_remain : ∃ w, oneWriter.Begin tiny 1 ∧ ChunkRun tiny 1 (fun _ => [7]) oneWriter w ∧
    w.Returned (fun _ => [7]) ∧ (content w.file.store.disk w.file.ip).drop oneWriter.file.off ≠ w.bytes := by
  obtain ⟨w,hr,hret,hbytes⟩ := oneWriter_run
  obtain ⟨lost,hbegin⟩ : ∃ lost, oneWriter.Inv lost tiny 1 (fun _ => [7]) 0 _ := oneWriter_begin.inv
  have hi : 1 < tiny.ninodes := by decide
  have hlen := congrArg List.length (hr.inv tiny_ok hi hbegin).content
  refine ⟨w,oneWriter_begin,hr,hret,fun heq => ?_⟩
  have heq' := congrArg List.length heq
  rw [hbytes] at hlen heq'
  simp only [List.length_append, List.length_take, List.length_drop, content_length] at hlen heq'
  have h512 : oneWriter.file.ip.size.toNat = 512 := by decide
  have h0 : oneWriter.file.off = 0 := rfl
  rw [h512] at hlen
  rw [h0] at heq'
  simp only [List.length_singleton] at hlen heq'
  omega

end Xv6.Fs
