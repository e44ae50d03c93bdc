import Xv6.Lib.SlotMap
import Xv6.Fs.Names
import Xv6.Fs.Contents

/-!
# The slots of a directory

The contents of a directory are slots of `sizeof(struct dirent)` bytes, in use when their
inode number is not zero. The loop of `dirlookup` finds the first slot in use whose name
has the same first `DIRSIZ` bytes, the loop of `dirlink` the first slot that is not in use,
and a store of one entry changes one slot.
-/

set_option autoImplicit false

namespace Xv6.Fs
open Xv6.Kalloc Xv6.Halting Xv6.SlotMap

/-- The bytes of slot `k`. -/
def entryAt (d : Disk) (ip : Inode) (k : ℕ) : List UInt8 :=
  (List.range direntSize).map (fun a => byteAt d ip (k*direntSize+a))

/-- The name and the inode number of an entry in use. -/
def slotOf (de : List UInt8) : Option (List UInt8 × ℕ) :=
  if direntInum de = 0 then none else some (shorten (direntName de),direntInum de)

def slots (d : Disk) (ip : Inode) (k : ℕ) : Option (List UInt8 × ℕ) := slotOf (entryAt d ip k)

def Inode.nentries (ip : Inode) : ℕ := ip.size.toNat/direntSize

/-- The slot that `dirlink` uses. -/
def freeSlot (d : Disk) (ip : Inode) : ℕ :=
  ((List.range ip.nentries).find? (fun k => direntInum (entryAt d ip k) = 0)).getD ip.nentries

variable {lost : Set ℕ} {sb : Super} {s s' : Store} {i : ℕ} {ip : Inode}

theorem content_slice (d : Disk) {off n : ℕ} (h : off+n ≤ ip.size.toNat) :
    ((content d ip).drop off).take n = (List.range n).map (fun a => byteAt d ip (off+a)) := by
  apply List.ext_getElem
  · rw [List.length_take, List.length_drop, content_length, List.length_map, List.length_range]
    omega
  · intro a h1 h2
    simp [content]

theorem entryAt_length (d : Disk) (ip : Inode) (k : ℕ) : (entryAt d ip k).length = direntSize := by
  rw [entryAt, List.length_map, List.length_range]

variable (sb) in
theorem readDirent_entry (h : Filled (slotRef s.disk ip) ip.nblocks) (ht : ip.type ≠ T_DEV)
    (msg : String) {k : ℕ} (hk : (k+1)*direntSize ≤ ip.size.toNat) :
    readDirent sb msg s ip (k*direntSize) = .ok (s, ip, entryAt s.disk ip k) := by
  have hs := ip.size.toNat_lt
  rw [Nat.succ_mul] at hk
  rw [readDirent, readi_bytes sb h ht (by decide), if_neg (by omega), content_slice s.disk hk, ok_bind]
  exact if_pos (entryAt_length s.disk ip k)

theorem holds_unused {d : Disk} {k : ℕ} (h : direntInum (entryAt d ip k) = 0) (a : List UInt8) :
    holds (slots d ip) a k = false := by
  rw [holds, slots, slotOf, if_pos h]
  rfl

theorem holds_used {d : Disk} {k : ℕ} (h : direntInum (entryAt d ip k) ≠ 0) (name : List UInt8) :
    holds (slots d ip) (shorten name) k = namecmp name (direntName (entryAt d ip k)) := by
  rw [holds, slots, slotOf, if_neg h, namecmp, beq_eq_decide]
  exact decide_eq_decide.mpr eq_comm

variable (sb) in
theorem lookupLoop_eq (h : Filled (slotRef s.disk ip) ip.nblocks) (ht : ip.type ≠ T_DEV)
    (name : List UInt8) (fuel k m : ℕ) (hf : m ≤ fuel) (hm : (k+m)*direntSize = ip.size.toNat) :
    lookupLoop sb name fuel s ip (k*direntSize) =
      .ok (s, ip, ((List.range' k m).find? (holds (slots s.disk ip) (shorten name))).map
        (fun j => (direntInum (entryAt s.disk ip j),j*direntSize))) := by
  have hD : direntSize = 16 := rfl
  induction m generalizing k fuel with
  | zero =>
    cases fuel with
    | zero => rfl
    | succ fuel =>
      rw [lookupLoop, if_neg (by rw [← hm, Nat.add_zero]; exact Nat.lt_irrefl _)]
      rfl
  | succ m ih =>
    cases fuel with
    | zero => omega
    | succ fuel =>
      have hnext := ih fuel (k+1) (by omega) (by rw [← hm]; ring)
      rw [lookupLoop, if_pos (by rw [hD] at *; omega),
        readDirent_entry sb h ht _ (by rw [hD] at *; omega), ok_bind, List.range'_succ, List.find?_cons]
      dsimp only
      rw [Nat.succ_mul] at hnext
      by_cases h0 : direntInum (entryAt s.disk ip k) = 0
      · rw [if_pos h0, hnext, holds_unused h0]
      · rw [if_neg h0, holds_used h0]
        by_cases hn : namecmp name (direntName (entryAt s.disk ip k)) = true
        · rw [if_pos hn, hn]
          rfl
        · rw [if_neg hn, hnext, Bool.eq_false_iff.mpr hn]

variable (sb) in
theorem emptyLoop_eq (h : Filled (slotRef s.disk ip) ip.nblocks) (ht : ip.type ≠ T_DEV)
    (fuel k m : ℕ) (hf : m ≤ fuel) (hm : (k+m)*direntSize = ip.size.toNat) :
    emptyLoop sb fuel s ip (k*direntSize) =
      .ok (s, ip, ((List.range' k m).find? (fun j => direntInum (entryAt s.disk ip j) = 0)).getD (k+m)*
        direntSize) := by
  have hD : direntSize = 16 := rfl
  induction m generalizing k fuel with
  | zero =>
    cases fuel with
    | zero => rfl
    | succ fuel =>
      rw [emptyLoop, if_neg (by rw [← hm, Nat.add_zero]; exact Nat.lt_irrefl _)]
      rfl
  | succ m ih =>
    cases fuel with
    | zero => omega
    | succ fuel =>
      have hnext := ih fuel (k+1) (by omega) (by rw [← hm]; ring)
      rw [emptyLoop, if_pos (by rw [hD] at *; omega),
        readDirent_entry sb h ht _ (by rw [hD] at *; omega), ok_bind, List.range'_succ, List.find?_cons]
      dsimp only
      rw [Nat.succ_mul] at hnext
      by_cases h0 : direntInum (entryAt s.disk ip k) = 0
      · rw [if_pos h0]
        simp [h0]
      · rw [if_neg h0, hnext]
        simp [h0, Nat.add_right_comm, Nat.add_assoc]

/-! ### What a store of one entry does -/

theorem Stored.entry {src : List UInt8} {j : ℕ} (h : Stored lost sb i s src (j*direntSize) s' ip)
    (hlen : src.length = direntSize) (k : ℕ) :
    entryAt s'.disk ip k = if k = j then src else entryAt s.disk (dinode sb s.disk i) k := by
  have hD : direntSize = 16 := rfl
  split
  · next hk =>
    subst hk
    apply List.ext_getElem
    · rw [entryAt_length, hlen]
    · intro a h1 h2
      simp only [entryAt, List.getElem_map, List.getElem_range]
      rw [h.bytes, writeBytes, if_pos (Nat.le_add_right ..), Nat.add_sub_cancel_left,
        List.getD_eq_getElem?_getD, List.getElem?_eq_getElem h2]
      rfl
  · next hk =>
    refine List.map_congr_left fun a ha => ?_
    rw [List.mem_range] at ha
    rw [h.bytes, writeBytes_outside]
    rw [hlen, hD] at *
    omega

theorem freeSlot_cases (d : Disk) (ip : Inode) : freeSlot d ip = ip.nentries ∨
    freeSlot d ip < ip.nentries ∧ direntInum (entryAt d ip (freeSlot d ip)) = 0 := by
  rw [freeSlot]
  cases hf : (List.range ip.nentries).find? (fun k => direntInum (entryAt d ip k) = 0) with
  | none => exact Or.inl rfl
  | some k =>
    have h0 := List.find?_some hf
    rw [decide_eq_true_eq] at h0
    exact Or.inr ⟨List.mem_range.mp (List.mem_of_find?_eq_some hf),h0⟩

end Xv6.Fs
