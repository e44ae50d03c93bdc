import Xv6.Lib.Ring

/-!
# The lines of the console

`consoleintr` edits the line that is typed at the end of a ring of 128 bytes and commits it at
its end, at `^D` and when the ring is full; `consoleread` takes committed bytes. Each runs
under `cons.lock`, which a read gives up only while it sleeps. The three indices are counters
modulo `2^32`. The ring behaves as an editor of a line behind a list of committed bytes, and
what the reads take is a prefix of that list.
-/

set_option autoImplicit false

namespace Xv6.Console
open Xv6.Ring

def INPUT_BUF : ℕ := 128

/-- `C('P')`, `C('U')`, `C('H')` and `C('D')`. -/
def ctrlP : UInt8 := 16
def ctrlU : UInt8 := 21
def ctrlH : UInt8 := 8
def ctrlD : UInt8 := 4

def delete : UInt8 := 0x7f
def newline : UInt8 := 10
def carriage : UInt8 := 13

structure Input where
  buf : ℕ → UInt8
  r : BitVec 32
  w : BitVec 32
  e : BitVec 32

/-- The loop of `C('U')`, which goes down to `w` at most. -/
def killLine : ℕ → Input → Input
  | 0, i => i
  | n+1, i =>
    if i.e ≠ i.w ∧ i.buf ((i.e-1).toNat%INPUT_BUF) ≠ newline then killLine n { i with e := i.e-1 }
    else i

/-- The store of one byte, and the commit. -/
def Input.put (i : Input) (c : UInt8) : Input :=
  let i := { i with buf := Function.update i.buf (i.e.toNat%INPUT_BUF) c, e := i.e+1 }
  if c = newline ∨ c = ctrlD ∨ i.e = i.r+BitVec.ofNat 32 INPUT_BUF then { i with w := i.e } else i

/-- One round of `consoleintr`. -/
def Input.key (i : Input) (c : UInt8) : Input :=
  if c = ctrlP then i
  else if c = ctrlU then killLine (i.e-i.w).toNat i
  else if c = ctrlH ∨ c = delete then
    if i.e ≠ i.w then { i with e := i.e-1 } else i
  else if c ≠ 0 ∧ (i.e-i.r).toNat < INPUT_BUF then i.put (if c = carriage then newline else c)
  else i

def consoleintr (i : Input) (keys : List UInt8) : Input := keys.foldl Input.key i

/-- How far a read came: it returns with the bytes in `dst`, or sleeps with `n` bytes to go. -/
inductive Outcome
  | done (dst : List UInt8)
  | sleeps (n : ℕ) (dst : List UInt8)

def Outcome.dst : Outcome → List UInt8
  | .done dst | .sleeps _ dst => dst

/-- The loop of `consoleread` up to its end or to the next `sleep`, with the bytes that it took
out of the ring. -/
def readLoop (target : ℕ) : ℕ → Input → List UInt8 → Input × List UInt8 × Outcome
  | 0, i, dst => (i,[],.done dst)
  | n+1, i, dst =>
    if i.r = i.w then (i,[],.sleeps (n+1) dst)
    else
      let c := i.buf (i.r.toNat%INPUT_BUF)
      let i := { i with r := i.r+1 }
      if c = ctrlD then
        if n+1 < target then ({ i with r := i.r-1 },[],.done dst) else (i,[c],.done dst)
      else if c = newline then (i,[c],.done (dst++[c]))
      else
        let x := readLoop target n i (dst++[c])
        (x.1,c::x.2.1,x.2.2)

/-- What the keys are for: a line behind the committed bytes. -/
structure Editor where
  committed : List UInt8
  line : List UInt8

/-- A byte is typed, with `room` bytes left before it. -/
def Editor.type (ed : Editor) (room : ℕ) (c : UInt8) : Editor :=
  if c = newline ∨ c = ctrlD ∨ room = 1 then ⟨ed.committed++(ed.line++[c]),[]⟩
  else { ed with line := ed.line++[c] }

def Editor.key (ed : Editor) (room : ℕ) (c : UInt8) : Editor :=
  if c = ctrlP then ed
  else if c = ctrlU then { ed with line := [] }
  else if c = ctrlH ∨ c = delete then { ed with line := ed.line.dropLast }
  else if c ≠ 0 ∧ 0 < room then ed.type room (if c = carriage then newline else c)
  else ed

/-- The room left when the bytes `eaten` have been taken. -/
def Editor.room (ed : Editor) (eaten : List UInt8) : ℕ :=
  eaten.length+INPUT_BUF-(ed.committed++ed.line).length

def Editor.keys (eaten : List UInt8) (ed : Editor) (keys : List UInt8) : Editor :=
  keys.foldl (fun ed c => ed.key (ed.room eaten) c) ed

/-- The ring holds what the editor has and the reads have not taken. -/
structure Holds (i : Input) (ed : Editor) (eaten : List UInt8) : Prop where
  ring : Fifo INPUT_BUF i.buf i.r i.e (ed.committed++ed.line) eaten
  writes : i.w = BitVec.ofNat 32 ed.committed.length
  eats : eaten.length ≤ ed.committed.length
  clean : newline ∉ ed.line

section
variable {i : Input} {ed : Editor} {eaten : List UInt8}

theorem Holds.length (h : Holds i ed eaten) :
    ed.committed.length+ed.line.length ≤ eaten.length+128 := by
  have := h.ring.cap
  rwa [List.length_append] at this

theorem Holds.edited_iff (h : Holds i ed eaten) : i.e = i.w ↔ ed.line = [] := by
  have hlen := h.length
  have heats := h.eats
  rw [h.ring.writes, h.writes, eq_comm, ofNat_inj (by simp) (by simp; omega), List.length_append,
    ← List.length_eq_zero_iff]
  omega

theorem Holds.unread_iff (h : Holds i ed eaten) :
    i.r = i.w ↔ eaten.length = ed.committed.length := by
  have hlen := h.length
  rw [h.ring.reads, h.writes, ofNat_inj h.eats (by omega)]

theorem Holds.erase (h : Holds i ed eaten) {line : List UInt8} {b : UInt8}
    (hl : ed.line = line++[b]) :
    Holds { i with e := i.e-1 } { ed with line := line } eaten ∧
      i.buf ((i.e-1).toNat%INPUT_BUF) = b := by
  have hring := h.ring
  rw [hl, ← List.append_assoc] at hring
  have hle : eaten.length ≤ (ed.committed++line).length := by
    rw [List.length_append]
    exact h.eats.trans (Nat.le_add_right _ _)
  obtain ⟨hring',hb⟩ := hring.unpush hle
  refine ⟨⟨hring',h.writes,h.eats,?_⟩,hb⟩
  intro hn
  exact h.clean (by rw [hl]; exact List.mem_append_left _ hn)

theorem Holds.killLine (line : List UInt8) : ∀ {i : Input} {ed : Editor} (n : ℕ), Holds i ed eaten →
    ed.line = line → line.length ≤ n →
    Holds (Console.killLine n i) { ed with line := [] } eaten := by
  induction line using List.reverseRecOn with
  | nil =>
    intro i ed n h hl _
    have hstop : Console.killLine n i = i := by
      cases n with
      | zero => rfl
      | succ n => exact if_neg fun hc => hc.1 (h.edited_iff.mpr hl)
    rw [hstop, ← hl]
    exact h
  | append_singleton line b ih =>
    intro i ed n h hl hn
    rw [List.length_append, List.length_singleton] at hn
    obtain ⟨n,rfl⟩ := Nat.exists_eq_succ_of_ne_zero (Nat.ne_of_gt (Nat.zero_lt_of_lt hn))
    obtain ⟨herase,hb⟩ := h.erase hl
    have hne : i.e ≠ i.w := by
      rw [Ne, h.edited_iff, hl]
      simp
    have hnew : i.buf ((i.e-1).toNat%INPUT_BUF) ≠ newline := by
      rw [hb]
      rintro rfl
      exact h.clean (by rw [hl]; simp)
    rw [Console.killLine, if_pos ⟨hne,hnew⟩]
    have hrest := ih n herase rfl (by omega)
    exact hrest

theorem Holds.line_count (h : Holds i ed eaten) : (i.e-i.w).toNat = ed.line.length := by
  have hlen := h.length
  have heats := h.eats
  rw [h.ring.writes, h.writes, List.length_append, BitVec.ofNat_add, BitVec.add_comm,
    BitVec.add_sub_cancel, BitVec.toNat_ofNat, Nat.mod_eq_of_lt (by omega)]

theorem Holds.room_eq (h : Holds i ed eaten) :
    ed.room eaten = INPUT_BUF-(i.e-i.r).toNat := by
  have hle := h.ring.le
  rw [h.ring.count, Editor.room]
  omega

theorem Holds.put (h : Holds i ed eaten) (c : UInt8) (hroom : 0 < ed.room eaten) :
    Holds (i.put c) (ed.type (ed.room eaten) c) eaten := by
  have hcap := h.ring.cap
  have hnotfull : i.e ≠ i.r+BitVec.ofNat 32 INPUT_BUF := by
    rw [Ne, h.ring.full_iff]
    unfold Editor.room at hroom
    omega
  have hring := h.ring.push c hnotfull
  have hlen : (ed.committed++ed.line++[c]).length = (ed.committed++ed.line).length+1 := by
    rw [List.length_append, List.length_singleton]
  have hfull : i.e+1 = i.r+BitVec.ofNat 32 INPUT_BUF ↔ ed.room eaten = 1 := by
    rw [hring.full_iff, hlen]
    unfold Editor.room at hroom ⊢
    omega
  rw [List.append_assoc] at hring
  simp only [Input.put, Editor.type, hfull]
  by_cases hc : c = newline ∨ c = ctrlD ∨ ed.room eaten = 1
  · rw [if_pos hc, if_pos hc]
    refine ⟨by rw [List.append_nil]; exact hring,hring.writes,?_,by simp⟩
    rw [List.length_append]
    exact h.eats.trans (Nat.le_add_right _ _)
  · rw [if_neg hc, if_neg hc]
    refine ⟨hring,h.writes,h.eats,?_⟩
    intro hn
    rcases List.mem_append.mp hn with hn | hn
    · exact h.clean hn
    · exact hc (Or.inl (List.mem_singleton.mp hn).symm)

theorem Holds.key (h : Holds i ed eaten) (c : UInt8) :
    Holds (i.key c) (ed.key (ed.room eaten) c) eaten := by
  have hroom : (i.e-i.r).toNat < INPUT_BUF ↔ 0 < ed.room eaten := by
    rw [h.room_eq]
    omega
  simp only [Input.key, Editor.key, hroom]
  generalize (if c = carriage then newline else c) = b
  split_ifs with hP hU hH he hc
  · exact h
  · exact Holds.killLine ed.line _ h rfl (by rw [h.line_count])
  · have hline : ed.line ≠ [] := fun hl => he (h.edited_iff.mpr hl)
    exact (h.erase (List.dropLast_append_getLast hline).symm).1
  · have hline : ed.line = [] := h.edited_iff.mp (by simpa using he)
    rw [hline, List.dropLast_nil, ← hline]
    exact h
  · exact h.put b hc.2
  · exact h

theorem Holds.keys (keys : List UInt8) : ∀ {i : Input} {ed : Editor}, Holds i ed eaten →
    Holds (consoleintr i keys) (ed.keys eaten keys) eaten := by
  induction keys with
  | nil =>
    intro i ed h
    exact h
  | cons c keys ih =>
    intro i ed h
    exact ih (h.key c)

theorem Holds.take (h : Holds i ed eaten) (hne : i.r ≠ i.w) :
    Holds { i with r := i.r+1 } ed (eaten++[i.buf (i.r.toNat%INPUT_BUF)]) := by
  have heats := h.eats
  have hlt : eaten.length ≠ ed.committed.length := fun he => hne (h.unread_iff.mpr he)
  refine ⟨h.ring.pop ?_,h.writes,?_,h.clean⟩
  · rw [Ne, h.ring.empty_iff, List.length_append]
    omega
  · rw [List.length_append, List.length_singleton]
    omega

theorem Holds.readLoop {target : ℕ} (n : ℕ) : ∀ {i : Input} {eaten dst : List UInt8},
    Holds i ed eaten → dst.length+n = target →
    Holds (Console.readLoop target n i dst).1 ed
      (eaten++(Console.readLoop target n i dst).2.1) ∧
    ((Console.readLoop target n i dst).2.2.dst = dst++(Console.readLoop target n i dst).2.1 ∧
        ctrlD ∉ (Console.readLoop target n i dst).2.1 ∨
      (Console.readLoop target n i dst).2.1 = [ctrlD] ∧ dst = [] ∧
        (Console.readLoop target n i dst).2.2 = .done []) ∧
    ∀ k d, (Console.readLoop target n i dst).2.2 = .sleeps k d → d.length+k = target := by
  induction n with
  | zero =>
    intro i eaten dst h _
    rw [Console.readLoop, List.append_nil]
    exact ⟨h,Or.inl ⟨(List.append_nil dst).symm,List.not_mem_nil⟩,by rintro k d ⟨⟩⟩
  | succ n ih =>
    intro i eaten dst h ht
    rw [Console.readLoop]
    by_cases hr : i.r = i.w
    · rw [if_pos hr, List.append_nil]
      refine ⟨h,Or.inl ⟨(List.append_nil dst).symm,List.not_mem_nil⟩,?_⟩
      rintro k d ⟨⟩
      exact ht
    · rw [if_neg hr]
      have htake := h.take hr
      dsimp only
      generalize i.buf (i.r.toNat%INPUT_BUF) = c at htake ⊢
      by_cases hD : c = ctrlD
      · rw [if_pos hD]
        by_cases hfirst : n+1 < target
        · rw [if_pos hfirst, List.append_nil, BitVec.add_sub_cancel]
          exact ⟨h,Or.inl ⟨(List.append_nil dst).symm,List.not_mem_nil⟩,by rintro k d ⟨⟩⟩
        · have hdst : dst = [] := List.length_eq_zero_iff.mp (by omega)
          rw [if_neg hfirst, hdst, hD]
          rw [hD] at htake
          exact ⟨htake,Or.inr ⟨rfl,rfl,rfl⟩,by rintro k d ⟨⟩⟩
      · rw [if_neg hD]
        by_cases hn : c = newline
        · rw [if_pos hn]
          exact ⟨htake,Or.inl ⟨rfl,by simpa using Ne.symm hD⟩,by rintro k d ⟨⟩⟩
        · rw [if_neg hn]
          have hgo : (dst++[c]).length+n = target := by
            rw [List.length_append, List.length_singleton]
            omega
          obtain ⟨hi,htaken,hsleep⟩ := ih htake hgo
          rw [List.append_assoc] at hi
          refine ⟨hi,Or.inl ?_,hsleep⟩
          rcases htaken with ⟨hd,hno⟩ | ⟨-,hd,-⟩
          · rw [hd, List.append_assoc]
            exact ⟨rfl,by simpa using ⟨Ne.symm hD,hno⟩⟩
          · simp at hd

theorem Holds.ordered (h : Holds i ed eaten) :
    (i.w-i.r).toNat ≤ (i.e-i.r).toNat ∧ (i.e-i.r).toNat ≤ INPUT_BUF ∧
      (i.w-i.r).toNat = ed.committed.length-eaten.length := by
  have hlen := h.length
  have heats := h.eats
  obtain ⟨k,hk⟩ := Nat.exists_eq_add_of_le heats
  have hw : (i.w-i.r).toNat = ed.committed.length-eaten.length := by
    rw [h.writes, h.ring.reads, hk, BitVec.ofNat_add, BitVec.add_comm, BitVec.add_sub_cancel,
      BitVec.toNat_ofNat, Nat.mod_eq_of_lt (by omega), Nat.add_sub_cancel_left]
  rw [hw, h.ring.count, List.length_append]
  unfold INPUT_BUF
  omega

theorem Holds.eaten_prefix (h : Holds i ed eaten) : eaten <+: ed.committed :=
  List.prefix_of_prefix_length_le ⟨_,h.ring.flow.symm⟩ (List.prefix_append _ _) h.eats

theorem killLine_keeps (n : ℕ) : ∀ i : Input, (Console.killLine n i).buf = i.buf ∧
    (Console.killLine n i).r = i.r ∧ (Console.killLine n i).w = i.w := by
  induction n with
  | zero =>
    intro i
    exact ⟨rfl,rfl,rfl⟩
  | succ n ih =>
    intro i
    rw [Console.killLine]
    split
    · exact ih _
    · exact ⟨rfl,rfl,rfl⟩

theorem Holds.erases (h : Holds i ed eaten) {c : UInt8} (hc : c ∈ [ctrlU,ctrlH,delete]) :
    (i.key c).buf = i.buf ∧ (i.key c).r = i.r ∧ (i.key c).w = i.w ∧
      ((i.key c).e-(i.key c).w).toNat ≤ (i.e-i.w).toNat ∧
      (ed.key (ed.room eaten) c).committed = ed.committed := by
  have hcount := h.line_count
  have hcount' := (h.key c).line_count
  have herase : ∀ i : Input, (if i.e ≠ i.w then { i with e := i.e-1 } else i).buf = i.buf ∧
      (if i.e ≠ i.w then { i with e := i.e-1 } else i).r = i.r ∧
      (if i.e ≠ i.w then { i with e := i.e-1 } else i).w = i.w := by
    intro i
    split <;> exact ⟨rfl,rfl,rfl⟩
  rw [hcount, hcount']
  simp only [List.mem_cons, List.not_mem_nil, or_false] at hc
  rcases hc with rfl | rfl | rfl
  · obtain ⟨hb,hr,hw⟩ := killLine_keeps (i.e-i.w).toNat i
    exact ⟨hb,hr,hw,Nat.zero_le _,rfl⟩
  · obtain ⟨hb,hr,hw⟩ := herase i
    exact ⟨hb,hr,hw,List.length_dropLast ▸ Nat.sub_le _ _,rfl⟩
  · obtain ⟨hb,hr,hw⟩ := herase i
    exact ⟨hb,hr,hw,List.length_dropLast ▸ Nat.sub_le _ _,rfl⟩

end

/-- A call of `consoleread` with `n` bytes to go and the bytes in `dst`. -/
structure Read where
  n : ℕ
  target : ℕ
  dst : List UInt8

/-- The console, the calls of the processes, and what the editor and the reads have seen. -/
structure Sys (P : Type) where
  input : Input
  reads : P → Option Read
  ed : Editor
  eaten : List UInt8

variable {P : Type}

def Sys.init (buf : ℕ → UInt8) : Sys P := ⟨⟨buf,0,0,0⟩,fun _ => none,⟨[],[]⟩,[]⟩

/-- The ring holds what the editor has, and every read counts its bytes. -/
structure Ok (s : Sys P) : Prop where
  holds : Holds s.input s.ed s.eaten
  reads : ∀ p rd, s.reads p = some rd → rd.dst.length+rd.n = rd.target

theorem init_ok (buf : ℕ → UInt8) : Ok (Sys.init buf : Sys P) := by
  refine ⟨⟨⟨by decide,by decide,Nat.zero_le _,rfl,rfl,rfl⟩,rfl,le_rfl,List.not_mem_nil⟩,?_⟩
  rintro p rd ⟨⟩

def Read.next (rd : Read) : Outcome → Option Read
  | .done _ => none
  | .sleeps n dst => some ⟨n,rd.target,dst⟩

variable [DecidableEq P]

/-- One segment of the loop of a read, from the lock to its end or its sleep. -/
def Sys.read (s : Sys P) (p : P) (rd : Read) : Sys P :=
  let x := readLoop rd.target rd.n s.input rd.dst
  { s with
    input := x.1
    reads := Function.update s.reads p (rd.next x.2.2)
    eaten := s.eaten++x.2.1 }

/-- An interrupt with its keys; a call; a segment of a read, at first or after any wakeup; a
sleeping read that returns -1 because its process was killed. -/
inductive Step (s : Sys P) : Sys P → Prop
  | intr (keys : List UInt8) :
      Step s { s with input := consoleintr s.input keys, ed := s.ed.keys s.eaten keys }
  | call {p : P} (n : ℤ) (hp : s.reads p = none) :
      Step s { s with reads := Function.update s.reads p (some ⟨n.toNat,n.toNat,[]⟩) }
  | read {p : P} {rd : Read} (hp : s.reads p = some rd) : Step s (s.read p rd)
  | killed {p : P} {rd : Read} (hp : s.reads p = some rd) (hn : 0 < rd.n)
      (he : s.input.r = s.input.w) : Step s { s with reads := Function.update s.reads p none }

inductive Reach (buf : ℕ → UInt8) : Sys P → Prop
  | init : Reach buf (Sys.init buf)
  | step {s s' : Sys P} (h : Reach buf s) (hs : Step s s') : Reach buf s'

theorem Ok.update {s : Sys P} (h : Ok s) {p : P} {o : Option Read}
    (ho : ∀ rd, o = some rd → rd.dst.length+rd.n = rd.target) :
    ∀ q rd, Function.update s.reads p o q = some rd → rd.dst.length+rd.n = rd.target := by
  intro q rd hq
  by_cases hqp : q = p
  · subst hqp
    rw [Function.update_self] at hq
    exact ho rd hq
  · rw [Function.update_of_ne hqp] at hq
    exact h.reads q rd hq

theorem Ok.step {s s' : Sys P} (h : Ok s) (hs : Step s s') : Ok s' := by
  cases hs with
  | intr keys => exact ⟨h.holds.keys keys,h.reads⟩
  | call n hp =>
    refine ⟨h.holds,h.update ?_⟩
    rintro rd ⟨⟩
    exact Nat.zero_add _
  | read hp =>
    obtain ⟨hh,-,hsleep⟩ := Holds.readLoop _ h.holds (h.reads _ _ hp)
    refine ⟨hh,h.update ?_⟩
    intro rd hrd
    cases hout : (readLoop _ _ _ _).2.2 with
    | done dst =>
      rw [hout] at hrd
      cases hrd
    | sleeps n dst =>
      rw [hout] at hrd
      cases hrd
      exact hsleep n dst hout
  | killed hp hn he => exact ⟨h.holds,h.update (by rintro rd ⟨⟩)⟩

theorem Reach.ok {buf : ℕ → UInt8} {s : Sys P} (h : Reach buf s) : Ok s := by
  induction h with
  | init => exact init_ok buf
  | step _ hs ih => exact ih.step hs

/-- Along every run the indices are in order, what the reads took is a prefix of what was
committed, the keys that erase leave the committed bytes, and a read takes the bytes that it
stores, or a `^D` and then it returns no byte. -/
theorem console_input (buf : ℕ → UInt8) (s : Sys P) (h : Reach buf s) :
    (s.input.w-s.input.r).toNat ≤ (s.input.e-s.input.r).toNat ∧
    (s.input.e-s.input.r).toNat ≤ INPUT_BUF ∧
    s.eaten <+: s.ed.committed ∧
    (s.input.w-s.input.r).toNat = s.ed.committed.length-s.eaten.length ∧
    (∀ c ∈ [ctrlU,ctrlH,delete], (s.input.key c).buf = s.input.buf ∧
      (s.input.key c).r = s.input.r ∧ (s.input.key c).w = s.input.w ∧
      ((s.input.key c).e-(s.input.key c).w).toNat ≤ (s.input.e-s.input.w).toNat ∧
      (s.ed.key (s.ed.room s.eaten) c).committed = s.ed.committed) ∧
    ∀ p rd, s.reads p = some rd →
      (readLoop rd.target rd.n s.input rd.dst).2.2.dst =
          rd.dst++(readLoop rd.target rd.n s.input rd.dst).2.1 ∧
        ctrlD ∉ (readLoop rd.target rd.n s.input rd.dst).2.1 ∨
      (readLoop rd.target rd.n s.input rd.dst).2.1 = [ctrlD] ∧ rd.dst = [] ∧
        (readLoop rd.target rd.n s.input rd.dst).2.2 = .done [] := by
  obtain ⟨hholds,hreads⟩ := h.ok
  obtain ⟨hwe,hcap,hcount⟩ := hholds.ordered
  refine ⟨hwe,hcap,hholds.eaten_prefix,hcount,fun c hc => hholds.erases hc,?_⟩
  intro p rd hp
  exact (Holds.readLoop rd.n hholds (hreads p rd hp)).2.1

/-- A line of two bytes, the first of which is read. -/
theorem console_input_line : ∃ s : Sys Unit, Reach (fun _ => 0) s ∧ s.eaten = [97] ∧
    s.eaten <+: s.ed.committed := by
  have hreach : Reach (fun _ => 0) (Sys.read (P := Unit) _ () ⟨1,1,[]⟩) :=
    .step (.step (.step .init (.intr [97,98,8,newline])) (.call (p := ()) 1 rfl)) (.read rfl)
  exact ⟨_,hreach,by decide,(console_input _ _ hreach).2.2.1⟩

end Xv6.Console
