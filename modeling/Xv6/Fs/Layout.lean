import Xv6.Lib.Fields

/-!
# The disk format

The disk as `fs.h` lays it out: a superblock, packed inodes, one bit for each block,
and data blocks, all read from and written to blocks of bytes. What the file system
means by a disk are three views of it, the bits, the inodes and the words of a data
block; the lemmas say which view a store into one of the regions changes.
-/

set_option autoImplicit false

namespace Xv6.Fs
open Xv6.Fields

def BSIZE : ℕ := 512
def NDIRECT : ℕ := 12
def NINDIRECT : ℕ := BSIZE/4
def MAXFILE : ℕ := NDIRECT+NINDIRECT
/-- `sizeof(struct dinode)`. -/
def dinodeSize : ℕ := 64
def IPB : ℕ := BSIZE/dinodeSize
def BPB : ℕ := BSIZE*8
def ROOTINO : ℕ := 1

def T_DIR : UInt16 := 1
def T_FILE : UInt16 := 2
def T_DEV : UInt16 := 3

abbrev Block := ℕ → UInt8
abbrev Disk := ℕ → Block

structure Super where
  size : ℕ
  ninodes : ℕ
  inodestart : ℕ
  bmapstart : ℕ

namespace Super

/-- `IBLOCK(i, sb)`. -/
def iblock (sb : Super) (i : ℕ) : ℕ := i/IPB+sb.inodestart

/-- `BBLOCK(b, sb)`. -/
def bblock (sb : Super) (b : ℕ) : ℕ := b/BPB+sb.bmapstart

/-- The first block behind the bitmap, the `nmeta` of `mkfs`. -/
def nmeta (sb : Super) : ℕ := sb.bmapstart+(sb.size/BPB+1)

/-- The regions follow each other as `mkfs` arranges them. -/
structure Ok (sb : Super) : Prop where
  inodes : sb.inodestart+(sb.ninodes/IPB+1) ≤ sb.bmapstart
  data : sb.nmeta ≤ sb.size
  int : sb.size ≤ 2^31

end Super

/-- The fields that `struct dinode` and the in-memory `struct inode` share. -/
@[ext] structure Inode where
  type : UInt16
  major : UInt16
  minor : UInt16
  nlink : UInt16
  size : UInt32
  addrs : Fin (NDIRECT+1) → UInt32

namespace Inode

/-- The `struct dinode` at a byte offset. -/
def load (p : Block) (o : ℕ) : Inode where
  type := .ofNat (get p o 2)
  major := .ofNat (get p (o+2) 2)
  minor := .ofNat (get p (o+4) 2)
  nlink := .ofNat (get p (o+6) 2)
  size := .ofNat (get p (o+8) 4)
  addrs r := .ofNat (get p (o+12+4*r) 4)

/-- The bytes of a `struct dinode`. -/
def bytes (ip : Inode) (k : ℕ) : UInt8 :=
  if k < 2 then byteOf ip.type.toNat k
  else if k < 4 then byteOf ip.major.toNat (k-2)
  else if k < 6 then byteOf ip.minor.toNat (k-4)
  else if k < 8 then byteOf ip.nlink.toNat (k-6)
  else if k < 12 then byteOf ip.size.toNat (k-8)
  else if h : (k-12)/4 < NDIRECT+1 then byteOf (ip.addrs ⟨(k-12)/4,h⟩).toNat ((k-12)%4)
  else 0

def store (ip : Inode) (p : Block) (o : ℕ) : Block :=
  fun i => if o ≤ i ∧ i < o+dinodeSize then ip.bytes (i-o) else p i

theorem load_store (ip : Inode) (p : Block) (o : ℕ) : load (ip.store p o) o = ip := by
  have hat : ∀ k < dinodeSize, ip.store p o (o+k) = ip.bytes k := by
    intro k hk
    rw [store, if_pos ⟨by omega,by omega⟩, Nat.add_sub_cancel_left]
  have hsize : dinodeSize = 64 := rfl
  have h1 : get (ip.store p o) o 2 = ip.type.toNat%256^2 :=
    get_bytes (fun k hk => by rw [hat k (by omega), bytes, if_pos hk])
  have h2 : get (ip.store p o) (o+2) 2 = ip.major.toNat%256^2 :=
    get_bytes (fun k hk => by
      rw [Nat.add_assoc, hat _ (by omega), bytes, if_neg (by omega), if_pos (by omega)]
      congr 1; omega)
  have h3 : get (ip.store p o) (o+4) 2 = ip.minor.toNat%256^2 :=
    get_bytes (fun k hk => by
      rw [Nat.add_assoc, hat _ (by omega), bytes, if_neg (by omega), if_neg (by omega),
        if_pos (by omega)]
      congr 1; omega)
  have h4 : get (ip.store p o) (o+6) 2 = ip.nlink.toNat%256^2 :=
    get_bytes (fun k hk => by
      rw [Nat.add_assoc, hat _ (by omega), bytes, if_neg (by omega), if_neg (by omega),
        if_neg (by omega), if_pos (by omega)]
      congr 1; omega)
  have h5 : get (ip.store p o) (o+8) 4 = ip.size.toNat%256^4 :=
    get_bytes (fun k hk => by
      rw [Nat.add_assoc, hat _ (by omega), bytes, if_neg (by omega), if_neg (by omega),
        if_neg (by omega), if_neg (by omega), if_pos (by omega)]
      congr 1; omega)
  have h6 : ∀ r : Fin (NDIRECT+1), get (ip.store p o) (o+12+4*r) 4 = (ip.addrs r).toNat%256^4 := by
    intro r
    have hr : r.val < 13 := r.isLt
    refine get_bytes (fun k hk => ?_)
    have hd : (12+4*r.val+k-12)/4 = r.val := by omega
    have hm : (12+4*r.val+k-12)%4 = k := by omega
    rw [Nat.add_assoc, Nat.add_assoc, hat _ (by omega), bytes, if_neg (by omega), if_neg (by omega),
      if_neg (by omega), if_neg (by omega), if_neg (by omega)]
    rw [dif_pos (by rw [← Nat.add_assoc, hd]; exact r.isLt)]
    congr 1
    · congr 2
      apply Fin.ext
      change (12+(4*r.val+k)-12)/4 = r.val
      omega
    · omega
  apply Inode.ext
  · rw [load, h1]; simp
  · rw [load, h2]; simp
  · rw [load, h3]; simp
  · rw [load, h4]; simp
  · rw [load, h5]; simp
  · funext r
    rw [load]
    dsimp only
    rw [h6 r]
    simp

theorem load_congr {p q : Block} {o o' : ℕ} (h : ∀ k < dinodeSize, p (o+k) = q (o'+k)) :
    load p o = load q o' := by
  have hget : ∀ a w, a+w ≤ dinodeSize → get p (o+a) w = get q (o'+a) w := by
    intro a w haw
    refine get_congr (fun k hk => ?_)
    rw [Nat.add_assoc, Nat.add_assoc]
    exact h (a+k) (by omega)
  have hsize : dinodeSize = 64 := rfl
  unfold load
  congr 1
  · exact congrArg _ (hget 0 2 (by omega))
  · rw [hget 2 2 (by omega)]
  · rw [hget 4 2 (by omega)]
  · rw [hget 6 2 (by omega)]
  · rw [hget 8 4 (by omega)]
  · funext r
    have hr : r.val < 13 := r.isLt
    rw [Nat.add_assoc, Nat.add_assoc, hget (12+4*r) 4 (by omega)]

theorem load_store_apart (ip : Inode) (p : Block) {o o' : ℕ}
    (h : o'+dinodeSize ≤ o ∨ o+dinodeSize ≤ o') : load (ip.store p o) o' = load p o' := by
  refine load_congr (fun k hk => ?_)
  rw [store, if_neg (by omega)]

end Inode

def marked (sb : Super) (d : Disk) (b : ℕ) : Bool := testBit (d (sb.bblock b)) (b%BPB)

def dinode (sb : Super) (d : Disk) (i : ℕ) : Inode :=
  .load (d (sb.iblock i)) (i%IPB*dinodeSize)

/-- `((uint*)bp->data)[j]`. -/
def word (p : Block) (j : ℕ) : ℕ := get p (4*j) 4

def setWord (p : Block) (j v : ℕ) : Block := put p (4*j) 4 v

theorem word_set {p : Block} {j v : ℕ} (hv : v < 2^32) (i : ℕ) :
    word (setWord p j v) i = if i = j then v else word p i := by
  split
  · next h =>
    subst h
    rw [word, setWord, get_put]
    exact Nat.mod_eq_of_lt hv
  · rw [word, setWord, get_put_apart _ _ (by omega)]
    rfl

section
variable {sb : Super}

theorem Super.bblock_mem {b : ℕ} (hb : b < sb.size) :
    sb.bmapstart ≤ sb.bblock b ∧ sb.bblock b < sb.nmeta := by
  unfold bblock nmeta
  rw [show BPB = 4096 from rfl]
  omega

theorem Super.Ok.iblock_lt (h : sb.Ok) {i : ℕ} (hi : i < sb.ninodes) :
    sb.iblock i < sb.bmapstart := by
  have := h.inodes
  unfold iblock
  rw [show IPB = 8 from rfl] at *
  omega

theorem Super.bmapstart_lt (sb : Super) : sb.bmapstart < sb.nmeta := by
  unfold nmeta
  rw [show BPB = 4096 from rfl]
  omega

theorem marked_outside (d : Disk) {c b : ℕ} (p : Block) (hb : b < sb.size)
    (hc : c < sb.bmapstart ∨ sb.nmeta ≤ c) :
    marked sb (Function.update d c p) b = marked sb d b := by
  have := Super.bblock_mem hb
  rw [marked, marked, Function.update_of_ne (by omega)]

theorem bit_inj {b c : ℕ} (hd : sb.bblock b = sb.bblock c) (hm : b%BPB = c%BPB) : b = c := by
  have hb := Nat.div_add_mod b BPB
  have hc := Nat.div_add_mod c BPB
  unfold Super.bblock at hd
  rw [show b/BPB = c/BPB by omega, hm] at hb
  omega

theorem marked_set (d : Disk) (b c : ℕ) :
    marked sb (Function.update d (sb.bblock b) (setBit (d (sb.bblock b)) (b%BPB))) c =
      Function.update (marked sb d) b true c := by
  by_cases hd : sb.bblock c = sb.bblock b
  · rw [marked, hd, Function.update_self, testBit_set]
    by_cases h : c = b
    · rw [h, Function.update_self, if_pos rfl]
    · rw [Function.update_of_ne h, if_neg (fun hm => h (bit_inj hd hm)), marked, hd]
  · have hne : c ≠ b := fun h => hd (by rw [h])
    rw [marked, Function.update_of_ne hd, Function.update_of_ne hne, marked]

theorem marked_clear (d : Disk) (b c : ℕ) :
    marked sb (Function.update d (sb.bblock b) (clearBit (d (sb.bblock b)) (b%BPB))) c =
      Function.update (marked sb d) b false c := by
  by_cases hd : sb.bblock c = sb.bblock b
  · rw [marked, hd, Function.update_self, testBit_clear]
    by_cases h : c = b
    · rw [h, Function.update_self, if_pos rfl]
    · rw [Function.update_of_ne h, if_neg (fun hm => h (bit_inj hd hm)), marked, hd]
  · have hne : c ≠ b := fun h => hd (by rw [h])
    rw [marked, Function.update_of_ne hd, Function.update_of_ne hne, marked]

theorem dinode_outside (h : sb.Ok) (d : Disk) {c i : ℕ} (p : Block) (hi : i < sb.ninodes)
    (hc : sb.bmapstart ≤ c) : dinode sb (Function.update d c p) i = dinode sb d i := by
  have := h.iblock_lt hi
  rw [dinode, dinode, Function.update_of_ne (by omega)]

theorem dinode_store (d : Disk) (i j : ℕ) (ip : Inode) :
    dinode sb (Function.update d (sb.iblock i)
      (ip.store (d (sb.iblock i)) (i%IPB*dinodeSize))) j =
        Function.update (dinode sb d) i ip j := by
  by_cases hd : sb.iblock j = sb.iblock i
  · rw [dinode, hd, Function.update_self]
    by_cases h : j = i
    · rw [h, Inode.load_store, Function.update_self]
    · have hb := Nat.div_add_mod i IPB
      have hc := Nat.div_add_mod j IPB
      have hdiv : j/IPB = i/IPB := by
        unfold Super.iblock at hd
        omega
      have hmod : j%IPB ≠ i%IPB := fun hm => h (by rw [hm, hdiv] at hc; omega)
      rw [Inode.load_store_apart _ _ (by unfold dinodeSize; omega), Function.update_of_ne h, dinode,
        hd]
  · have hne : j ≠ i := fun h => hd (by rw [h])
    rw [dinode, Function.update_of_ne hd, Function.update_of_ne hne, dinode]

end

end Xv6.Fs
