import Xv6.Lib.Capacity
import Xv6.Fs.Blocks

/-!
# Writing within the log

`log_write` panics when the transaction has no room for another block, before it looks
whether the block is in the log already. Here is `writei` with this test in every
`log_write`. It follows the plain one until the log is full. A block that is not in the
log at the end was not stored to.
-/

set_option autoImplicit false

namespace Xv6.Fs
open Xv6.Fields Xv6.Kalloc Xv6.Halting Xv6.Capacity Xv6.Log

namespace Logged

def tooBig : Halt := .panic "too big a transaction"

section
variable (nlog : ℕ) (sb : Super)

/-- `nlog` is `log.size`. -/
def logWrite (s : Store) (b : ℕ) (p : Block) : Except Halt Store :=
  if LOGSIZE ≤ s.log.length ∨ nlog-1 ≤ s.log.length then .error tooBig
  else .ok (s.logWrite b p)

def bzero (s : Store) (b : ℕ) : Except Halt Store := logWrite nlog s b (fun _ => 0)

def balloc (s : Store) : Except Halt (Store × ℕ) :=
  match (List.range sb.size).find? (fun b => !marked sb s.disk b) with
  | none => .error (.panic "balloc: out of blocks")
  | some b => do
    let s ← logWrite nlog s (sb.bblock b) (setBit (s.disk (sb.bblock b)) (b%BPB))
    let s ← bzero nlog s b
    .ok (s, b)

def iupdate (s : Store) (inum : ℕ) (ip : Inode) : Except Halt Store :=
  logWrite nlog s (sb.iblock inum) (ip.store (s.disk (sb.iblock inum)) (inum%IPB*dinodeSize))

def ensureAddr (s : Store) (ip : Inode) (r : Fin (NDIRECT+1)) : Except Halt (Store × Inode) :=
  if ip.addr r = 0 then do
    let (s, b) ← balloc nlog sb s
    .ok (s, ip.setAddr r b)
  else .ok (s, ip)

def bmap (s : Store) (ip : Inode) (bn : ℕ) : Except Halt (Store × Inode × ℕ) :=
  if h : bn < NDIRECT then do
    let (s, ip) ← ensureAddr nlog sb s ip ⟨bn,Nat.lt_succ_of_lt h⟩
    .ok (s, ip, ip.addr ⟨bn,Nat.lt_succ_of_lt h⟩)
  else if bn-NDIRECT < NINDIRECT then do
    let (s, ip) ← ensureAddr nlog sb s ip indirect
    let a := ip.addr indirect
    if word (s.disk a) (bn-NDIRECT) = 0 then do
      let (s, b) ← balloc nlog sb s
      let s ← logWrite nlog s a (setWord (s.disk a) (bn-NDIRECT) b)
      .ok (s, ip, b)
    else .ok (s, ip, word (s.disk a) (bn-NDIRECT))
  else .error (.panic "bmap: out of range")

def writeLoop : ℕ → Store → Inode → ℕ → List UInt8 → Except Halt (Store × Inode × ℕ)
  | 0, s, ip, off, _ => .ok (s, ip, off)
  | fuel+1, s, ip, off, src =>
    if src = [] then .ok (s, ip, off)
    else do
      let (s, ip, b) ← bmap nlog sb s ip (off/BSIZE)
      let m := min src.length (BSIZE-off%BSIZE)
      let s ← logWrite nlog s b (writeBytes (s.disk b) (off%BSIZE) (src.take m))
      writeLoop fuel s ip (off+m) (src.drop m)

def writei (s : Store) (inum : ℕ) (ip : Inode) (src : List UInt8) (off : ℕ) :
    Except Halt (Store × Inode × Io ℕ) :=
  let n := src.length
  if ip.type = T_DEV then
    .ok (s, ip, if ip.major = CONSOLE then .console else .fail)
  else if ip.size.toNat < off ∨ (off+n)%2^32 < off then .ok (s, ip, .fail)
  else if MAXFILE*BSIZE < (off+n)%2^32 then .ok (s, ip, .fail)
  else do
    let (s, ip, off) ← writeLoop nlog sb n s ip off src
    if 0 < n ∧ ip.size.toNat < off then do
      let ip := { ip with size := .ofNat off }
      let s ← iupdate nlog sb s inum ip
      .ok (s, ip, .done n)
    else .ok (s, ip, .done n)

end

/-! ### The run with the test and the run without -/

def room (nlog : ℕ) : ℕ := min LOGSIZE (nlog-1)

variable {nlog : ℕ} {sb : Super} {s : Store} {ip : Inode}

theorem logWrite_tracks (s : Store) (b : ℕ) (p : Block) :
    Tracks (room nlog) tooBig s.log.length (fun t => t.log.length) (.ok (s.logWrite b p))
      (logWrite nlog s b p) := by
  have hlen : s.log.length ≤ (LogOps.absorb s.log b).length ∧
      (LogOps.absorb s.log b).length ≤ s.log.length+1 := by
    rw [LogOps.absorb]
    split
    · omega
    · rw [List.length_append, List.length_singleton]
      omega
  constructor
  · intro e he
    cases he
  · intro t ht
    cases ht
    refine ⟨hlen.1,?_⟩
    rw [logWrite]
    split
    · next hfull => exact Or.inr ⟨rfl,le_trans (by unfold room; omega) hlen.1⟩
    · next hroom =>
      refine Or.inl ⟨rfl,le_trans (hlen.2.trans ?_) (le_max_right _ _)⟩
      unfold room
      omega

def logged {α : Type} (t : Store × α) : ℕ := t.1.log.length

theorem balloc_tracks (s : Store) :
    Tracks (room nlog) tooBig s.log.length logged (Fs.balloc sb s) (balloc nlog sb s) := by
  rw [Fs.balloc, balloc]
  cases (List.range sb.size).find? (fun b => !marked sb s.disk b) with
  | none => exact Tracks.fail _
  | some b =>
    refine (logWrite_tracks s (sb.bblock b) _).next ?_
    exact (logWrite_tracks _ b (fun _ => 0)).next (Tracks.pure rfl)

theorem ensureAddr_tracks (s : Store) (ip : Inode) (r : Fin (NDIRECT+1)) :
    Tracks (room nlog) tooBig s.log.length logged (Fs.ensureAddr sb s ip r) (ensureAddr nlog sb s ip r) := by
  rw [Fs.ensureAddr, ensureAddr]
  split
  · exact (balloc_tracks s).bind fun t => Tracks.pure rfl
  · exact Tracks.pure rfl

theorem bmap_tracks (s : Store) (ip : Inode) (bn : ℕ) :
    Tracks (room nlog) tooBig s.log.length logged (Fs.bmap sb s ip bn) (bmap nlog sb s ip bn) := by
  rw [Fs.bmap, bmap]
  split
  · exact (ensureAddr_tracks s ip _).bind fun t => Tracks.pure rfl
  split
  · refine (ensureAddr_tracks s ip indirect).bind fun t => ?_
    dsimp only
    split
    · refine (balloc_tracks t.1).bind fun u => ?_
      exact (logWrite_tracks u.1 (t.2.addr indirect) _).next (Tracks.pure rfl)
    · exact Tracks.pure rfl
  · exact Tracks.fail _

theorem writeLoop_tracks (fuel : ℕ) (s : Store) (ip : Inode) (off : ℕ) (src : List UInt8) :
    Tracks (room nlog) tooBig s.log.length logged (Fs.writeLoop sb fuel s ip off src)
      (writeLoop nlog sb fuel s ip off src) := by
  induction fuel generalizing s ip off src with
  | zero => exact Tracks.pure rfl
  | succ fuel ih =>
    rw [Fs.writeLoop, writeLoop]
    split
    · exact Tracks.pure rfl
    · refine (bmap_tracks s ip (off/BSIZE)).bind fun t => ?_
      exact (logWrite_tracks t.1 t.2.2 _).next (ih _ t.2.1 _ _)

theorem writei_tracks (s : Store) (i : ℕ) (ip : Inode) (src : List UInt8) (off : ℕ) :
    Tracks (room nlog) tooBig s.log.length logged (Fs.writei sb s i ip src off)
      (writei nlog sb s i ip src off) := by
  rw [Fs.writei, writei]
  dsimp only
  split
  · exact Tracks.pure rfl
  split
  · exact Tracks.pure rfl
  split
  · exact Tracks.pure rfl
  refine (writeLoop_tracks _ s ip off src).bind fun t => ?_
  split
  · exact (logWrite_tracks t.1 (sb.iblock i) _).next (Tracks.pure rfl)
  · exact Tracks.pure rfl

end Logged

/-! ### What is not in the log -/

variable {sb : Super} {i : ℕ}

/-- A block that is not in the log at the end was not stored to. -/
def Untouched (s s' : Store) : Prop := ∀ b, b ∉ s'.log → b ∉ s.log ∧ s'.disk b = s.disk b

theorem Untouched.refl (s : Store) : Untouched s s := fun _ h => ⟨h,rfl⟩

theorem Untouched.trans {s s' s'' : Store} (h : Untouched s s') (h' : Untouched s' s'') :
    Untouched s s'' := by
  intro b hb
  obtain ⟨h1,h2⟩ := h' b hb
  obtain ⟨h3,h4⟩ := h b h1
  exact ⟨h3,h2.trans h4⟩

theorem logWrite_untouched (s : Store) (b : ℕ) (p : Block) : Untouched s (s.logWrite b p) := by
  intro c hc
  have hmem : c ∈ s.log ∨ c = b → c ∈ LogOps.absorb s.log b := by
    rw [LogOps.absorb]
    split
    · next hb =>
      rintro (h | rfl)
      · exact h
      · exact hb
    · intro h
      simpa using h
  exact ⟨fun h => hc (hmem (.inl h)),Function.update_of_ne (fun h => hc (hmem (.inr h))) ..⟩

/-- No halt is excluded. -/
def anyHalt (_ : Halt) : Prop := False

theorem balloc_untouched (s : Store) : Yields anyHalt (fun t => Untouched s t.1) (balloc sb s) := by
  rw [balloc]
  split
  · exact Yields.error not_false
  · exact Yields.ok ((logWrite_untouched s _ _).trans (logWrite_untouched _ _ _))

theorem ensureAddr_untouched (s : Store) (ip : Inode) (r : Fin (NDIRECT+1)) :
    Yields anyHalt (fun t => Untouched s t.1) (ensureAddr sb s ip r) := by
  rw [ensureAddr]
  split
  · exact (balloc_untouched s).bind fun t ht => Yields.ok ht
  · exact Yields.ok (Untouched.refl s)

theorem bmap_untouched (s : Store) (ip : Inode) (bn : ℕ) :
    Yields anyHalt (fun t => Untouched s t.1) (bmap sb s ip bn) := by
  rw [bmap]
  split
  · exact (ensureAddr_untouched s ip _).bind fun t ht => Yields.ok ht
  split
  · refine (ensureAddr_untouched s ip indirect).bind fun t ht => ?_
    dsimp only
    split
    · exact (balloc_untouched t.1).bind fun u hu =>
        Yields.ok ((ht.trans hu).trans (logWrite_untouched u.1 _ _))
    · exact Yields.ok ht
  · exact Yields.error not_false

theorem writeLoop_untouched (fuel : ℕ) (s : Store) (ip : Inode) (off : ℕ) (src : List UInt8) :
    Yields anyHalt (fun t => Untouched s t.1) (writeLoop sb fuel s ip off src) := by
  induction fuel generalizing s ip off src with
  | zero => exact Yields.ok (Untouched.refl s)
  | succ fuel ih =>
    rw [writeLoop]
    split
    · exact Yields.ok (Untouched.refl s)
    · refine (bmap_untouched s ip (off/BSIZE)).bind fun t ht => ?_
      exact (ih _ t.2.1 _ _).mono fun u hu => (ht.trans (logWrite_untouched t.1 _ _)).trans hu

theorem writei_untouched (s : Store) (ip : Inode) (src : List UInt8) (off : ℕ) :
    Yields anyHalt (fun t => Untouched s t.1) (writei sb s i ip src off) := by
  rw [writei]
  dsimp only
  split
  · exact Yields.ok (Untouched.refl s)
  split
  · exact Yields.ok (Untouched.refl s)
  split
  · exact Yields.ok (Untouched.refl s)
  refine (writeLoop_untouched _ s ip off src).bind fun t ht => ?_
  split
  · exact Yields.ok (ht.trans (logWrite_untouched t.1 _ _))
  · exact Yields.ok ht

end Xv6.Fs
