import Xv6.Fs.Dirents
import Xv6.Fs.FileBytes

/-!
# A directory is a finite map

`dirlink` fills the first slot of a directory that is not in use or appends one, and the
store of zeros in `sys_unlink` empties one. After any sequence of these the directory
stands for the map that the sequence defines on names cut to `DIRSIZ` bytes.
-/

set_option autoImplicit false

namespace Xv6.Fs
open Xv6.Kalloc Xv6.Halting Xv6.SlotMap

section
variable (sb : Super)

/-- `dirlink` on the directory with inode number `inum`, up to the reference to the inode
that was found. -/
def dirlink (s : Store) (inum : ℕ) (ip : Inode) (name : List UInt8) (target : ℕ) :
    Except Halt (Store × Inode × Bool) := do
  let (s, ip, found) ← dirlookup sb s ip name
  match found with
  | some _ => .ok (s, ip, false)
  | none => do
    let (s, ip) ← addDirent sb s inum ip name target
    .ok (s, ip, true)

/-- What `sys_unlink` does to the directory. -/
def unlinkEntry (s : Store) (inum : ℕ) (ip : Inode) (name : List UInt8) :
    Except Halt (Store × Inode × Bool) := do
  let (s, ip, found) ← dirlookup sb s ip name
  match found with
  | none => .ok (s, ip, false)
  | some (_, off) => do
    let (s, ip, r) ← writei sb s inum ip (List.replicate direntSize 0) off
    match r with
    | .done _ => .ok (s, ip, true)
    | .fail => .error (.panic "unlink: writei")
    | .console => .error (.panic "unlink: writei")

end

variable {lost : Set ℕ} {sb : Super} {s s' : Store} {i : ℕ} {ip : Inode}

/-- An inode is a directory that stands for the map `m`. -/
structure Directory (lost : Set ℕ) (sb : Super) (i : ℕ) (s : Store) (m : List UInt8 → Option ℕ) :
    Prop where
  agree : Agree lost sb s.disk (dinode sb s.disk)
  type : (dinode sb s.disk i).type = T_DIR
  own : Filled (slotRef s.disk (dinode sb s.disk i)) (dinode sb s.disk i).nblocks
  whole : (dinode sb s.disk i).nentries*direntSize = (dinode sb s.disk i).size.toNat
  table : Represents (dinode sb s.disk i).nentries (slots s.disk (dinode sb s.disk i)) m

variable {m : List UInt8 → Option ℕ}

theorem Directory.not_device (h : Directory lost sb i s m) : (dinode sb s.disk i).type ≠ T_DEV := by
  rw [h.type]
  decide

theorem Directory.allocated (h : Directory lost sb i s m) : (dinode sb s.disk i).type ≠ 0 := by
  rw [h.type]
  decide

theorem Directory.dirlookup_eq (h : Directory lost sb i s m) (name : List UInt8) :
    dirlookup sb s (dinode sb s.disk i) name = .ok (s, dinode sb s.disk i,
      ((List.range (dinode sb s.disk i).nentries).find?
        (holds (slots s.disk (dinode sb s.disk i)) (shorten name))).map
        (fun j => (direntInum (entryAt s.disk (dinode sb s.disk i) j),j*direntSize))) := by
  have := lookupLoop_eq sb h.own h.not_device name ((dinode sb s.disk i).nentries+1) 0 _ (Nat.le_succ _)
    (by rw [Nat.zero_add]; exact h.whole)
  rw [Nat.zero_mul, ← List.range_eq_range'] at this
  rw [dirlookup, if_pos h.type]
  exact this

theorem slot_some {d : Disk} {k v : ℕ} {a : List UInt8} (h : slots d ip k = some (a,v)) :
    direntInum (entryAt d ip k) = v ∧ v ≠ 0 ∧ shorten (direntName (entryAt d ip k)) = a := by
  rw [slots, slotOf] at h
  split at h
  · cases h
  · next h0 =>
    cases h
    exact ⟨rfl,h0,rfl⟩

theorem Directory.absent (h : Directory lost sb i s m) {name : List UInt8}
    (hm : m (shorten name) = none) :
    dirlookup sb s (dinode sb s.disk i) name = .ok (s, dinode sb s.disk i, none) := by
  rw [h.dirlookup_eq, h.table.find_none hm]
  rfl

theorem Directory.present (h : Directory lost sb i s m) {name : List UInt8} {v : ℕ}
    (hm : m (shorten name) = some v) :
    ∃ k < (dinode sb s.disk i).nentries, slots s.disk (dinode sb s.disk i) k = some (shorten name,v) ∧
      dirlookup sb s (dinode sb s.disk i) name =
        .ok (s, dinode sb s.disk i, some (v,k*direntSize)) := by
  obtain ⟨k,hk,hs,hfind⟩ := h.table.find_some hm
  refine ⟨k,hk,hs,?_⟩
  rw [h.dirlookup_eq, hfind, Option.map_some, (slot_some hs).1]

theorem Directory.size_le (h : Directory lost sb i s m) :
    (dinode sb s.disk i).size.toNat ≤ MAXFILE*BSIZE := by
  have hshort := h.own.short
  have hB : BSIZE = 512 := rfl
  unfold Inode.nblocks at hshort
  rw [hB] at hshort ⊢
  omega

theorem Directory.size_stored (h : Directory lost sb i s m) {src : List UInt8} {j : ℕ}
    (hst : Stored lost sb i s src (j*direntSize) s' ip) (hlen : src.length = direntSize) :
    ip.size.toNat = max (dinode sb s.disk i).nentries (j+1)*direntSize := by
  have hD : direntSize = 16 := rfl
  have := h.whole
  rw [hst.size, hlen]
  rw [hD] at *
  omega

theorem Directory.nentries_stored (h : Directory lost sb i s m) {src : List UInt8} {j : ℕ}
    (hst : Stored lost sb i s src (j*direntSize) s' ip) (hlen : src.length = direntSize) :
    ip.nentries = max (dinode sb s.disk i).nentries (j+1) := by
  rw [Inode.nentries, h.size_stored hst hlen, Nat.mul_div_cancel _ (by decide)]

theorem Directory.stored (h : Directory lost sb i s m) (hi : i < sb.ninodes) {src : List UInt8}
    {j : ℕ} {m' : List UInt8 → Option ℕ} (hst : Stored lost sb i s src (j*direntSize) s' ip)
    (hlen : src.length = direntSize)
    (ht : Represents (max (dinode sb s.disk i).nentries (j+1))
      (Function.update (slots s.disk (dinode sb s.disk i)) j (slotOf src)) m') :
    Directory lost sb i s' m' ∧ dinode sb s'.disk i = ip := by
  have hip : dinode sb s'.disk i = ip := by rw [hst.settled.inode i hi, Function.update_self]
  have hn := h.nentries_stored hst hlen
  refine ⟨⟨hst.settled.agree,?_,?_,?_,?_⟩,hip⟩
  · rw [hip, hst.fields]
    exact h.type
  · rw [hip]
    exact hst.settled.own
  · rw [hip, hn, h.size_stored hst hlen]
  · rw [hip, hn]
    refine ht.congr fun k _ => ?_
    rw [slots, hst.entry hlen]
    by_cases hk : k = j
    · rw [if_pos hk, hk, Function.update_self]
    · rw [if_neg hk, Function.update_of_ne hk]
      rfl

/-! ### Adding an entry -/

theorem Directory.emptyLoop_eq (h : Directory lost sb i s m) :
    emptyLoop sb ((dinode sb s.disk i).size.toNat/direntSize+1) s (dinode sb s.disk i) 0 =
      .ok (s, dinode sb s.disk i, freeSlot s.disk (dinode sb s.disk i)*direntSize) := by
  have := Fs.emptyLoop_eq sb h.own h.not_device ((dinode sb s.disk i).nentries+1) 0 _ (Nat.le_succ _)
    (by rw [Nat.zero_add]; exact h.whole)
  rw [Nat.zero_mul, Nat.zero_add, ← List.range_eq_range'] at this
  exact this

theorem Directory.freeSlot_le (h : Directory lost sb i s m) :
    freeSlot s.disk (dinode sb s.disk i)*direntSize ≤ (dinode sb s.disk i).size.toNat := by
  rw [← h.whole]
  apply Nat.mul_le_mul_right
  rcases freeSlot_cases s.disk (dinode sb s.disk i) with hn | hn <;> omega

theorem blocksFor_entry {off size : ℕ} (h : off ≤ size) :
    blocksFor (max ((size+(BSIZE-1))/BSIZE) ((off+direntSize+(BSIZE-1))/BSIZE)) ≤
      blocksFor ((size+(BSIZE-1))/BSIZE)+2 := by
  have hB : BSIZE = 512 := rfl
  have hD : direntSize = 16 := rfl
  have hle : max ((size+(BSIZE-1))/BSIZE) ((off+direntSize+(BSIZE-1))/BSIZE) ≤
      (size+(BSIZE-1))/BSIZE+1 := by
    rw [hB, hD]
    omega
  refine (blocksFor_mono hle).trans ?_
  unfold blocksFor
  split <;> split <;> omega

theorem Directory.dirlink_present (h : Directory lost sb i s m) {name : List UInt8} {v : ℕ}
    (hm : m (shorten name) = some v) (target : ℕ) :
    dirlink sb s i (dinode sb s.disk i) name target = .ok (s, dinode sb s.disk i, false) := by
  obtain ⟨k,-,-,hrun⟩ := h.present hm
  rw [dirlink, hrun]
  rfl

theorem Directory.dirlink_absent (h : Directory lost sb i s m) {name : List UInt8}
    (hm : m (shorten name) = none) (target : ℕ) :
    dirlink sb s i (dinode sb s.disk i) name target =
      (writei sb s i (dinode sb s.disk i) (dirent target name)
        (freeSlot s.disk (dinode sb s.disk i)*direntSize) >>= fun t =>
          match t.2.2 with
          | .done _ => .ok (t.1, t.2.1, true)
          | .fail => .error (.panic "dirlink")
          | .console => .error (.panic "dirlink")) := by
  rw [dirlink, h.absent hm, ok_bind]
  dsimp only
  rw [addDirent, h.emptyLoop_eq, ok_bind]
  dsimp only
  cases writei sb s i (dinode sb s.disk i) (dirent target name)
      (freeSlot s.disk (dinode sb s.disk i)*direntSize) with
  | error e => rfl
  | ok t =>
    obtain ⟨s',ip,r⟩ := t
    cases r <;> rfl

theorem Directory.dirlink_outcome (hsb : sb.Ok) (h : Directory lost sb i s m) (hi : i < sb.ninodes)
    {name : List UInt8} (hm : m (shorten name) = none) (target : ℕ)
    (hmax : (freeSlot s.disk (dinode sb s.disk i)+1)*direntSize ≤ MAXFILE*BSIZE) :
    (∃ s' ip, dirlink sb s i (dinode sb s.disk i) name target = .ok (s', ip, true) ∧
      Stored lost sb i s (dirent target name) (freeSlot s.disk (dinode sb s.disk i)*direntSize) s' ip) ∨
    dirlink sb s i (dinode sb s.disk i) name target = .error outOfBlocks ∧
      freeBlocks sb s.disk < 2 ∧
      freeSlot s.disk (dinode sb s.disk i) = (dinode sb s.disk i).nentries := by
  have hlen := dirent_length target name
  rw [Nat.succ_mul] at hmax
  rw [h.dirlink_absent hm]
  rcases writei_outcome hsb h.agree hi h.allocated h.not_device h.own
      h.freeSlot_le (show _+(dirent target name).length ≤ _ by rw [hlen]; exact hmax) with ⟨s',ip,hrun,hst,-⟩ | ⟨hrun,hfew⟩
  · exact Or.inl ⟨s',ip,by rw [hrun]; rfl,hst⟩
  · refine Or.inr ⟨by rw [hrun]; rfl,?_,?_⟩
    · have := blocksFor_entry h.freeSlot_le
      rw [hlen] at hfew
      unfold Inode.nblocks at hfew
      omega
    · rcases freeSlot_cases s.disk (dinode sb s.disk i) with hn | ⟨hlt,-⟩
      · exact hn
      -- a slot below the size needs no block
      have hle : (freeSlot s.disk (dinode sb s.disk i)*direntSize+direntSize+(BSIZE-1))/BSIZE ≤
          (dinode sb s.disk i).nblocks := by
        apply Nat.div_le_div_right
        have := h.whole
        have := Nat.mul_le_mul_right direntSize hlt
        rw [Nat.succ_mul] at this
        omega
      rw [hlen, max_eq_left hle] at hfew
      omega

theorem Directory.linked (h : Directory lost sb i s m) (hi : i < sb.ninodes) {name : List UInt8}
    (hm : m (shorten name) = none) {target : ℕ} (h0 : 0 < target) (ht : target < 2^16)
    (hst : Stored lost sb i s (dirent target name) (freeSlot s.disk (dinode sb s.disk i)*direntSize) s' ip) :
    Directory lost sb i s' (Function.update m (shorten name) (some target)) ∧ dinode sb s'.disk i = ip := by
  have hslot : slotOf (dirent target name) = some (shorten name,target) := by
    rw [slotOf, direntInum_dirent ht, if_neg (by omega), direntName_dirent]
  refine h.stored hi hst (dirent_length target name) ?_
  rw [hslot]
  refine h.table.insert hm target ((freeSlot_cases _ _).imp_right fun hn => ⟨hn.1,?_⟩)
  rw [slots, slotOf, if_pos hn.2]

/-! ### Emptying an entry -/

theorem slotOf_zero : slotOf (List.replicate direntSize 0) = none := by decide

theorem Directory.unlink_absent (h : Directory lost sb i s m) {name : List UInt8}
    (hm : m (shorten name) = none) :
    unlinkEntry sb s i (dinode sb s.disk i) name = .ok (s, dinode sb s.disk i, false) := by
  rw [unlinkEntry, h.absent hm]
  rfl

theorem Directory.unlink_present (hsb : sb.Ok) (h : Directory lost sb i s m) (hi : i < sb.ninodes)
    {name : List UInt8} {v : ℕ} (hm : m (shorten name) = some v) :
    ∃ s' ip, unlinkEntry sb s i (dinode sb s.disk i) name = .ok (s', ip, true) ∧
      Directory lost sb i s' (Function.update m (shorten name) none) ∧ dinode sb s'.disk i = ip := by
  obtain ⟨k,hk,hslot,hrun⟩ := h.present hm
  have hlen : (List.replicate direntSize (0 : UInt8)).length = direntSize := List.length_replicate
  have hend : k*direntSize+direntSize ≤ (dinode sb s.disk i).size.toNat := by
    have := Nat.mul_le_mul_right direntSize hk
    rw [h.whole, Nat.succ_mul] at this
    exact this
  have hblocks := h.size_le
  have hle : (k*direntSize+direntSize+(BSIZE-1))/BSIZE ≤ (dinode sb s.disk i).nblocks := by
    apply Nat.div_le_div_right
    omega
  obtain ⟨s',ip,hw,hst⟩ := writei_total hsb h.agree hi h.allocated h.not_device h.own
    (show k*direntSize ≤ _ by omega) (show _+(List.replicate direntSize 0).length ≤ _ by rw [hlen]; omega)
    (by rw [hlen, max_eq_left hle]; omega)
  refine ⟨s',ip,?_,h.stored hi hst hlen ?_⟩
  · rw [unlinkEntry, hrun, ok_bind]
    dsimp only
    rw [hw]
    rfl
  · rw [slotOf_zero, max_eq_left hk]
    exact h.table.erase hk hslot

/-! ### Histories -/

inductive DirOp where
  | link (name : List UInt8) (target : ℕ)
  | unlink (name : List UInt8)

namespace DirOp

/-- The inode numbers that an entry can hold. -/
def Valid : DirOp → Prop
  | .link _ target => 0 < target ∧ target < 2^16
  | .unlink _ => True

def run (sb : Super) (i : ℕ) : DirOp → Store → Inode → Except Halt (Store × Inode × Bool)
  | .link name target, s, ip => dirlink sb s i ip name target
  | .unlink name, s, ip => unlinkEntry sb s i ip name

/-- What the operation means: a name is added when it is not there, and taken away. -/
def apply : DirOp → (List UInt8 → Option ℕ) → List UInt8 → Option ℕ
  | .link name target, m =>
    if m (shorten name) = none then Function.update m (shorten name) (some target) else m
  | .unlink name, m => Function.update m (shorten name) none

def execute (sb : Super) (i : ℕ) : List DirOp → Store → Inode → Except Halt (Store × Inode)
  | [], s, ip => .ok (s, ip)
  | op::ops, s, ip => do
    let (s, ip, _) ← op.run sb i s ip
    execute sb i ops s ip

def meaning (ops : List DirOp) (m : List UInt8 → Option ℕ) : List UInt8 → Option ℕ :=
  ops.foldl (fun m op => op.apply m) m

end DirOp

theorem Directory.step (hsb : sb.Ok) (h : Directory lost sb i s m) (hi : i < sb.ninodes) {op : DirOp}
    (hop : op.Valid) {t : Store × Inode × Bool} (hrun : op.run sb i s (dinode sb s.disk i) = .ok t) :
    Directory lost sb i t.1 (op.apply m) ∧ dinode sb t.1.disk i = t.2.1 := by
  cases op with
  | link name target =>
    change dirlink sb s i (dinode sb s.disk i) name target = .ok t at hrun
    rw [DirOp.apply]
    cases hm : m (shorten name) with
    | some v =>
      rw [h.dirlink_present hm] at hrun
      cases hrun
      exact ⟨h,rfl⟩
    | none =>
      rw [if_pos rfl]
      by_cases hmax : (freeSlot s.disk (dinode sb s.disk i)+1)*direntSize ≤ MAXFILE*BSIZE
      · rcases h.dirlink_outcome hsb hi hm target hmax with ⟨s',ip,hok,hst⟩ | ⟨herr,-⟩
        · rw [hok] at hrun
          cases hrun
          exact h.linked hi hm hop.1 hop.2 hst
        · rw [herr] at hrun
          cases hrun
      · -- the entry would end behind the largest file
        have hle := h.freeSlot_le
        have hs := (dinode sb s.disk i).size.toNat_lt
        have hM : MAXFILE*BSIZE+direntSize < 2^32 := by decide
        have hshort : (dinode sb s.disk i).size.toNat ≤ MAXFILE*BSIZE := h.size_le
        rw [Nat.succ_mul] at hmax
        rw [h.dirlink_absent hm, writei, if_neg h.not_device, dirent_length, Nat.mod_eq_of_lt (by omega),
          if_neg (by omega), if_pos (by omega)] at hrun
        cases hrun
  | unlink name =>
    change unlinkEntry sb s i (dinode sb s.disk i) name = .ok t at hrun
    cases hm : m (shorten name) with
    | some v =>
      obtain ⟨s',ip,hok,hd⟩ := h.unlink_present hsb hi hm
      rw [hok] at hrun
      cases hrun
      exact hd
    | none =>
      rw [h.unlink_absent hm] at hrun
      cases hrun
      refine ⟨?_,rfl⟩
      rw [DirOp.apply, ← hm, Function.update_eq_self]
      exact h

theorem Directory.run (hsb : sb.Ok) (hi : i < sb.ninodes) {ops : List DirOp}
    (hops : ∀ op ∈ ops, op.Valid) (h : Directory lost sb i s m) {t : Store × Inode}
    (hrun : DirOp.execute sb i ops s (dinode sb s.disk i) = .ok t) :
    Directory lost sb i t.1 (DirOp.meaning ops m) ∧ dinode sb t.1.disk i = t.2 := by
  induction ops generalizing s m with
  | nil =>
    cases hrun
    exact ⟨h,rfl⟩
  | cons op ops ih =>
    rw [DirOp.execute, bind_ok] at hrun
    obtain ⟨⟨s1,ip1,b⟩,hu,hrest⟩ := hrun
    obtain ⟨hd,hip⟩ := h.step hsb hi (hops op (by simp)) hu
    obtain rfl : dinode sb s1.disk i = ip1 := hip
    exact ih (fun op hop => hops op (by simp [hop])) hd hrest

end Xv6.Fs
