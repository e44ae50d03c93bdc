import Xv6.Fs.Bmap

/-!
# The bytes of a file

A file owns exactly the blocks below its size, and its contents are the bytes of these
blocks in order. Under this `readi` finds every block it asks for, returns the bytes of
the range it is given and leaves the disk as it is.
-/

set_option autoImplicit false

namespace Xv6.Fs

/-- `ceil(size/BSIZE)`. -/
def Inode.nblocks (ip : Inode) : ℕ := (ip.size.toNat+(BSIZE-1))/BSIZE

/-- The disk is consistent: bitmap and slots agree, and every allocated inode has the
blocks below its size and no others. -/
structure Sound (sb : Super) (d : Disk) : Prop where
  agree : Agree ∅ sb d (dinode sb d)
  filled : ∀ i < sb.ninodes, (dinode sb d i).type ≠ 0 →
    Filled (fun q => refs sb d (dinode sb d) (i,q)) (dinode sb d i).nblocks

variable {sb : Super} {s : Store} {ip : Inode}

/-! ### The bytes -/

/-- The block of an index of a file, zero when there is none. -/
def blockOf (d : Disk) (ip : Inode) (n : ℕ) : ℕ :=
  if h : n < MAXFILE then slotRef d ip (place ⟨n,h⟩) else 0

/-- The byte at an offset; a block that is not there reads as zeros. -/
def byteAt (d : Disk) (ip : Inode) (a : ℕ) : UInt8 :=
  if blockOf d ip (a/BSIZE) = 0 then 0 else d (blockOf d ip (a/BSIZE)) (a%BSIZE)

def content (d : Disk) (ip : Inode) : List UInt8 := (List.range ip.size.toNat).map (byteAt d ip)

theorem content_length (d : Disk) (ip : Inode) : (content d ip).length = ip.size.toNat := by
  rw [content, List.length_map, List.length_range]

theorem blockOf_place (d : Disk) (ip : Inode) (n : Fin MAXFILE) :
    blockOf d ip n = slotRef d ip (place n) := dif_pos n.isLt

theorem byteAt_present {d : Disk} {a : ℕ} (h : blockOf d ip (a/BSIZE) ≠ 0) :
    byteAt d ip a = d (blockOf d ip (a/BSIZE)) (a%BSIZE) := if_neg h

theorem Filled.blockOf {d : Disk} {k : ℕ} (h : Filled (slotRef d ip) k) {n : ℕ} (hn : n < k) :
    blockOf d ip n ≠ 0 := by
  have hmax : n < MAXFILE := lt_of_lt_of_le hn h.short
  rw [blockOf_place d ip ⟨n,hmax⟩]
  exact (h.blocks ⟨n,hmax⟩).mpr hn

theorem Filled.hole {d : Disk} {k : ℕ} (h : Filled (slotRef d ip) k) {a : ℕ} (ha : k ≤ a/BSIZE) :
    byteAt d ip a = 0 := by
  refine if_pos ?_
  rw [Fs.blockOf]
  split
  · next hmax => exact not_not.mp fun hne => absurd ((h.blocks ⟨_,hmax⟩).mp hne) (Nat.not_lt.mpr ha)
  · rfl

/-! ### Reading -/

variable (sb) in
/-- Every pass of `readi` below the size finds its block, and the bytes are those of the
file. -/
theorem readLoop_bytes (h : Filled (slotRef s.disk ip) ip.nblocks) (fuel off n : ℕ) (hf : n ≤ fuel)
    (hn : off+n ≤ ip.size.toNat) :
    readLoop sb fuel s ip off n =
      .ok (s, ip, (List.range n).map (fun k => byteAt s.disk ip (off+k))) := by
  have hB : BSIZE = 512 := rfl
  induction fuel generalizing off n with
  | zero =>
    obtain rfl : n = 0 := by omega
    rfl
  | succ fuel ih =>
    rw [readLoop]
    split
    · next h0 =>
      rw [h0]
      rfl
    · next h0 =>
      have hblk : off/BSIZE < ip.nblocks := by
        unfold Inode.nblocks
        rw [hB]
        omega
      have hmax : off/BSIZE < MAXFILE := lt_of_lt_of_le hblk h.short
      have hb := bmap_present sb ((h.blocks ⟨off/BSIZE,hmax⟩).mpr hblk)
      have hrest := ih (off+min n (BSIZE-off%BSIZE)) (n-min n (BSIZE-off%BSIZE))
        (by rw [hB]; omega) (by omega)
      -- the pass stays inside one block
      have hpass : ∀ j < min n (BSIZE-off%BSIZE), s.disk (slotRef s.disk ip (place ⟨off/BSIZE,hmax⟩))
          (off%BSIZE+j) = byteAt s.disk ip (off+j) := by
        intro j hj
        have hdiv : (off+j)/BSIZE = off/BSIZE := by rw [hB] at *; omega
        have hmod : (off+j)%BSIZE = off%BSIZE+j := by rw [hB] at *; omega
        have hne := h.blockOf hblk
        rw [byteAt_present (by rw [hdiv]; exact hne), hdiv, hmod, ← blockOf_place s.disk ip ⟨off/BSIZE,hmax⟩]
      rw [hb]
      dsimp only [bind, Except.bind]
      rw [hrest]
      dsimp only
      have hsplit : n = min n (BSIZE-off%BSIZE)+(n-min n (BSIZE-off%BSIZE)) := by omega
      conv_rhs => rw [hsplit, List.range_add, List.map_append, List.map_map]
      congr 3
      congr 1
      · exact List.map_congr_left fun j hj => hpass j (List.mem_range.mp hj)
      · refine List.map_congr_left fun j _ => ?_
        rw [Function.comp_apply, Nat.add_assoc]

theorem readi_bytes (sb : Super) (h : Filled (slotRef s.disk ip) ip.nblocks) (ht : ip.type ≠ T_DEV)
    {off n : ℕ} (hn : n < 2^32) :
    readi sb s ip off n = .ok (s, ip, if ip.size.toNat < off ∨ 2^32 ≤ off+n then .fail
      else .done (((content s.disk ip).drop off).take n)) := by
  have hs := ip.size.toNat_lt
  rw [readi, if_neg ht]
  by_cases hg : ip.size.toNat < off ∨ 2^32 ≤ off+n
  · rw [if_pos (by omega), if_pos hg]
  · rw [if_neg (by omega), if_neg hg]
    dsimp only
    rw [Nat.mod_eq_of_lt (by omega), readLoop_bytes sb h _ off _ le_rfl (by split <;> omega)]
    dsimp only [bind, Except.bind]
    congr 4
    apply List.ext_getElem
    · rw [List.length_map, List.length_range, List.length_take, List.length_drop, content_length]
      split <;> omega
    · intro j h1 h2
      simp [content]

variable (sb) in
theorem readi_same (h : Filled (slotRef s.disk ip) ip.nblocks) (off : ℕ) {n : ℕ} (hn : n < 2^32) :
    ∃ r, readi sb s ip off n = .ok (s, ip, r) := by
  rw [readi]
  split
  · exact ⟨_,rfl⟩
  · split
    · exact ⟨_,rfl⟩
    · next hg =>
      push Not at hg
      dsimp only
      rw [readLoop_bytes sb h _ off (if ip.size.toNat < (off+n)%2^32 then ip.size.toNat-off else n) le_rfl (by
        have hs := ip.size.toNat_lt
        split <;> omega)]
      exact ⟨_,rfl⟩

end Xv6.Fs
