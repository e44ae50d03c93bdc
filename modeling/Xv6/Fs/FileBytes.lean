import Xv6.Fs.FreeBlocks
import Xv6.Fs.LogRoom
import Xv6.Fs.Ownership

/-!
# A file is an array of bytes

`readi` returns the bytes of a range, and `writei` replaces the bytes of a range, growing
the file at its end, on a disk with enough free blocks and in a transaction with enough
room in the log. A write of thirty blocks has no such room in any transaction.
-/

set_option autoImplicit false

namespace Xv6.Fs
open Xv6.Fields Xv6.Kalloc Xv6.Log

/-- Every block that an inode names is a marked block behind the metadata, and no two slots
share one. Blocks may be marked that no inode names. -/
structure Allocated (sb : Super) (d : Disk) : Prop where
  metadata : ∀ b < sb.nmeta, marked sb d b = true
  data : ∀ x b, Names sb d x b → sb.nmeta ≤ b ∧ b < sb.size ∧ marked sb d b = true
  unshared : ∀ x y b, Names sb d x b → Names sb d y b → x = y

variable {sb : Super} {s : Store} {i : ℕ}

theorem Allocated.agree {d : Disk} (h : Allocated sb d) :
    Agree {b | marked sb d b = true ∧ ∀ x, refs sb d (dinode sb d) x ≠ b} sb d (dinode sb d) := by
  constructor
  · have := sb.bmapstart_lt
    omega
  · exact h.metadata
  · intro x hx
    obtain ⟨h1,h2,-⟩ := h.data x _ ⟨hx,rfl⟩
    exact ⟨h1,h2⟩
  · intro x y hx hxy
    exact h.unshared x y _ ⟨hx,rfl⟩ ⟨hx,hxy.symm⟩
  · intro b hlo hhi
    constructor
    · intro hm
      by_cases hx : ∃ x, refs sb d (dinode sb d) x = b
      · exact Or.inr hx
      · exact Or.inl ⟨hm,not_exists.mp hx⟩
    · rintro (hlost | ⟨x,rfl⟩)
      · exact hlost.1
      · have hpos := sb.bmapstart_lt
        exact (h.data x _ ⟨by omega,rfl⟩).2.2
  · intro x _ hlost
    exact hlost.2 x rfl

/-- What a successful `writei` of `src` at `off` makes of inode `i`, in memory and on the
disk, and of the others. -/
structure Patched (sb : Super) (i : ℕ) (s : Store) (src : List UInt8) (off : ℕ) (s' : Store)
    (ip : Inode) : Prop where
  inode : dinode sb s'.disk i = ip
  size : ip.size.toNat = max (dinode sb s.disk i).size.toNat (off+src.length)
  content : content s'.disk ip = (content s.disk (dinode sb s.disk i)).take off ++ src ++
    (Fs.content s.disk (dinode sb s.disk i)).drop (off+src.length)
  others : ∀ j < sb.ninodes, j ≠ i → dinode sb s'.disk j = dinode sb s.disk j ∧
    ((dinode sb s.disk j).type ≠ 0 →
      Fs.content s'.disk (dinode sb s'.disk j) = Fs.content s.disk (dinode sb s.disk j))

theorem map_writeBytes (f : ℕ → UInt8) {n off : ℕ} {src : List UInt8} (hoff : off ≤ n) :
    (List.range (max n (off+src.length))).map (writeBytes f off src) =
      ((List.range n).map f).take off ++ src ++ ((List.range n).map f).drop (off+src.length) := by
  rw [List.append_assoc]
  apply List.ext_getElem
  · simp only [List.length_map, List.length_range, List.length_append, List.length_take, List.length_drop]
    omega
  · intro a h1 h2
    have hlen : (((List.range n).map f).take off).length = off := by
      rw [List.length_take, List.length_map, List.length_range]
      omega
    rw [List.length_map, List.length_range] at h1
    rw [List.getElem_map, List.getElem_range]
    rcases Nat.lt_or_ge a off with hlt | hge
    · rw [writeBytes_outside _ (.inl hlt), List.getElem_append_left (by omega), List.getElem_take]
      simp
    · rw [List.getElem_append_right (by omega)]
      rcases Nat.lt_or_ge a (off+src.length) with hin | hout
      · rw [List.getElem_append_left (by omega), writeBytes, if_pos hge]
        simp only [hlen]
        rw [List.getD_eq_getElem?_getD, List.getElem?_eq_getElem (by omega)]
        rfl
      · rw [writeBytes_outside _ (.inr hout), List.getElem_append_right (by omega), List.getElem_drop,
          List.getElem_map, List.getElem_range]
        congr 1
        omega

theorem Stored.patched {lost : Set ℕ} {src : List UInt8} {off : ℕ} {s' : Store} {ip : Inode}
    (h : Stored lost sb i s src off s' ip) (hi : i < sb.ninodes)
    (hoff : off ≤ (dinode sb s.disk i).size.toNat) : Patched sb i s src off s' ip := by
  refine ⟨?_,h.size,?_,fun j hj hne => ?_⟩
  · rw [h.settled.inode i hi, Function.update_self]
  · have hnew : content s'.disk ip =
        (List.range ip.size.toNat).map (writeBytes (byteAt s.disk (dinode sb s.disk i)) off src) :=
      List.map_congr_left fun a _ => h.bytes a
    rw [hnew, h.size, map_writeBytes _ hoff]
    rfl
  · have hsame : dinode sb s'.disk j = dinode sb s.disk j := by
      rw [h.settled.inode j hj, Function.update_of_ne hne]
    refine ⟨hsame,fun htype => ?_⟩
    have hold := @refs_allocated sb (dinode sb s.disk) j s.disk hj htype
    have hslots : ∀ q, slotRef s'.disk (dinode sb s'.disk j) q = slotRef s.disk (dinode sb s.disk j) q := by
      intro q
      have := h.settled.others (j,q) hne
      rwa [refs_allocated _ hj (by rw [hsame]; exact htype), hold] at this
    have hbyte := byteAt_congr hslots fun n hn => by
      have := h.apart (j,place n) hne (by rw [hold]; exact hn)
      rwa [hold] at this
    rw [content, content, hsame] at *
    exact List.map_congr_left fun a _ => hbyte a

/-- The content of an inode of type file or directory, read and written as bytes. A write
within the bounds has its effect when the blocks that are logged then still leave room. -/
theorem file_is_byte_array (hsb : sb.Ok) (halloc : Allocated sb s.disk) (hi : i < sb.ninodes)
    (htype : (dinode sb s.disk i).type = T_FILE ∨ (dinode sb s.disk i).type = T_DIR)
    (hown : Filled (slotRef s.disk (dinode sb s.disk i)) (dinode sb s.disk i).nblocks) (nlog : ℕ) :
    (∀ off n, off < 2^32 → n < 2^32 → readi sb s (dinode sb s.disk i) off n =
      .ok (s, dinode sb s.disk i, if (dinode sb s.disk i).size.toNat < off ∨ 2^32 ≤ off+n then .fail
        else .done (((content s.disk (dinode sb s.disk i)).drop off).take n))) ∧
    ∀ (src : List UInt8) (off : ℕ), off < 2^32 → src.length < 2^32 →
      ((dinode sb s.disk i).size.toNat < off ∨ 2^32 ≤ off+src.length ∨ MAXFILE*BSIZE < off+src.length →
        Logged.writei nlog sb s i (dinode sb s.disk i) src off = .ok (s, dinode sb s.disk i, .fail)) ∧
      (off ≤ (dinode sb s.disk i).size.toNat → off+src.length ≤ MAXFILE*BSIZE →
        blocksFor (max (dinode sb s.disk i).nblocks ((off+src.length+(BSIZE-1))/BSIZE)) ≤
          blocksFor (dinode sb s.disk i).nblocks+freeBlocks sb s.disk →
        ∃ s' ip, writei sb s i (dinode sb s.disk i) src off = .ok (s', ip, .done src.length) ∧
          (s'.log.length < Logged.room nlog → Logged.writei nlog sb s i (dinode sb s.disk i) src off =
            .ok (s', ip, .done src.length)) ∧ Patched sb i s src off s' ip) := by
  have ht : (dinode sb s.disk i).type ≠ 0 := by
    rcases htype with h | h <;> rw [h] <;> decide
  have hdev : (dinode sb s.disk i).type ≠ T_DEV := by
    rcases htype with h | h <;> rw [h] <;> decide
  refine ⟨fun off n _ hn => readi_bytes sb hown hdev hn,fun src off hoff hlen => ⟨fun hbad => ?_,?_⟩⟩
  · have hs := (dinode sb s.disk i).size.toNat_lt
    rw [Logged.writei, if_neg hdev]
    dsimp only
    split
    · rfl
    · next hok => rw [if_pos (by omega)]
  · intro hle hend hfree
    obtain ⟨s',ip,hrun,hst⟩ := writei_total hsb halloc.agree hi ht hdev hown hle hend hfree
    exact ⟨s',ip,hrun,(Logged.writei_tracks s i _ src off).fits hrun,hst.patched hi hle⟩

theorem tiny_allocated : Allocated tiny (tinyDisk 4 31) := by
  have hnames : ∀ x b, Names tiny (tinyDisk 4 31) x b → x = (1,.addr 0) ∧ b = 4 := by
    rintro x b ⟨hb,rfl⟩
    rw [tiny_refs (by decide)] at hb ⊢
    split at hb
    · next hx => exact ⟨hx,if_pos hx⟩
    · exact absurd rfl hb
  constructor
  · decide +kernel
  · intro x b hx
    rw [(hnames x b hx).2]
    decide +kernel
  · intro x y b hx hy
    rw [(hnames x b hx).1, (hnames y b hy).1]

/-- Appending a byte to the file of the small disk, which takes the last free block. -/
theorem file_is_byte_array_append : ∃ s' ip,
    Logged.writei LOGSIZE tiny ⟨tinyDisk 4 31,[]⟩ 1 (dinode tiny (tinyDisk 4 31) 1) [7] 512 =
      .ok (s', ip, .done 1) ∧ Patched tiny 1 ⟨tinyDisk 4 31,[]⟩ [7] 512 s' ip := by
  have hfilled := (tiny_owned (a := 4) (by decide) (by decide) 31 (by decide +kernel)).files 1
    (by decide) (by rw [tiny_dinode]; decide)
  have hrefs := @refs_allocated tiny (dinode tiny (tinyDisk 4 31)) 1 (tinyDisk 4 31)
    (by decide) (by rw [tiny_dinode]; decide)
  simp only [hrefs] at hfilled
  obtain ⟨-,hwrite⟩ := @file_is_byte_array tiny ⟨tinyDisk 4 31,[]⟩ 1 tiny_ok tiny_allocated (by decide)
    (by rw [tiny_dinode]; exact Or.inl rfl) hfilled LOGSIZE
  obtain ⟨s',ip,hrun,hroom,hp⟩ := (hwrite [7] 512 (by decide) (by decide)).2
    (by rw [tiny_dinode]; decide) (by decide) (by rw [tiny_dinode]; decide +kernel)
  refine ⟨s',ip,hroom ?_,hp⟩
  have hlog : (writei tiny ⟨tinyDisk 4 31,[]⟩ 1 (dinode tiny (tinyDisk 4 31) 1) [7] 512).toOption.map
      (fun t => t.1.log.length) = some 3 := by decide +kernel
  rw [hrun] at hlog
  have h3 : s'.log.length = 3 := Option.some.inj hlog
  rw [h3]
  decide

/-! ### A write that does not fit -/

theorem Stored.log_length {lost : Set ℕ} {src : List UInt8} {s' : Store} {ip : Inode} {n : ℕ}
    (h : Stored lost sb i s src 0 s' ip) (hu : Untouched s s') (hi : i < sb.ninodes)
    (ht : (dinode sb s.disk i).type ≠ 0) (hn : n ≤ MAXFILE) (hsrc : src = List.replicate (n*BSIZE) 1)
    (hzero : ∀ b, sb.nmeta ≤ b → s.disk b = fun _ => 0) : n ≤ s'.log.length := by
  have hB : BSIZE = 512 := rfl
  have hip : dinode sb s'.disk i = ip := by rw [h.settled.inode i hi, Function.update_self]
  have htype : (dinode sb s'.disk i).type ≠ 0 := by
    rw [hip, h.fields]
    exact ht
  have hrefs := @refs_allocated sb (dinode sb s'.disk) i s'.disk hi htype
  have hsize : n*BSIZE ≤ ip.size.toNat := by
    rw [h.size, hsrc, List.length_replicate]
    omega
  have hthere : ∀ m < n, blockOf s'.disk ip m ≠ 0 := by
    intro m hm
    refine h.settled.own.blockOf ?_
    unfold Inode.nblocks
    rw [hB] at *
    omega
  have hname : ∀ m, (hm : m < n) →
      blockOf s'.disk ip m = refs sb s'.disk (dinode sb s'.disk) (i,place ⟨m,by omega⟩) := by
    intro m hm
    rw [hrefs, hip]
    exact blockOf_place s'.disk ip ⟨m,by omega⟩
  have hlog : ∀ m < n, blockOf s'.disk ip m ∈ s'.log := by
    intro m hm
    by_contra hnot
    have hdiv : m*BSIZE/BSIZE = m := Nat.mul_div_cancel m (by decide)
    have hone : s'.disk (blockOf s'.disk ip m) 0 = 1 := by
      have hb := h.bytes (m*BSIZE)
      rw [byteAt_present (by rw [hdiv]; exact hthere m hm), hdiv, Nat.mul_mod_left, writeBytes,
        if_pos (Nat.zero_le _), hsrc, List.getD_eq_getElem?_getD,
        List.getElem?_replicate_of_lt (by rw [hB]; omega)] at hb
      exact hb
    have hge : sb.nmeta ≤ blockOf s'.disk ip m := by
      rw [hname m hm]
      refine (h.settled.agree.range _ ?_).1
      rw [← hname m hm]
      exact hthere m hm
    rw [(hu _ hnot).2, hzero _ hge] at hone
    cases hone
  have hnodup : ((List.range n).map (blockOf s'.disk ip)).Nodup := by
    refine List.Nodup.map_on ?_ List.nodup_range
    intro x hx y hy hxy
    have hx := List.mem_range.mp hx
    have hy := List.mem_range.mp hy
    have := h.settled.agree.once (i,place ⟨x,by omega⟩) (i,place ⟨y,by omega⟩)
      (by rw [← hname x hx]; exact hthere x hx) (by rw [← hname x hx, ← hname y hy]; exact hxy)
    exact congrArg Fin.val (place_inj (Prod.mk.inj this).2)
  have hsub : (List.range n).map (blockOf s'.disk ip) ⊆ s'.log := by
    intro b hb
    obtain ⟨m,hm,rfl⟩ := List.mem_map.mp hb
    exact hlog m (List.mem_range.mp hm)
  have := (hnodup.subperm hsub).length_le
  rwa [List.length_map, List.length_range] at this

/-- A disk of 64 blocks with one empty inode and nothing else. -/
def wide : Super := ⟨64,2,2,3⟩

def blankDisk (type : UInt16) : Disk := fun b =>
  if b = 2 then (Sys.fresh type).store (fun _ => 0) dinodeSize
  else if b = 3 then Function.update (fun _ => 0) 0 15
  else fun _ => 0

theorem wide_ok : wide.Ok := ⟨by decide,by decide,by decide⟩

theorem blank_dinode (type : UInt16) : dinode wide (blankDisk type) 1 = Sys.fresh type :=
  Inode.load_store _ _ _

theorem blank_slots (type : UInt16) (q : Pos) : slotRef (blankDisk type) (Sys.fresh type) q = 0 := by
  cases q with
  | addr r => rfl
  | entry j =>
    have h0 : (Sys.fresh type).addr indirect = 0 := rfl
    rw [slotRef, if_pos h0]

theorem blank_nblocks (type : UInt16) : (dinode wide (blankDisk type) 1).nblocks = 0 := by
  rw [blank_dinode]
  change ((0 : UInt32).toNat+(BSIZE-1))/BSIZE = 0
  decide

theorem blank_filled (type : UInt16) : Filled (slotRef (blankDisk type) (dinode wide (blankDisk type) 1))
    (dinode wide (blankDisk type) 1).nblocks := by
  rw [blank_nblocks, blank_dinode]
  refine ⟨fun n => ?_,?_,by decide⟩
  · rw [blank_slots]
    simp
  · rw [blank_slots]
    simp

theorem blank_refs (type : UInt16) (x : ℕ × Pos) :
    refs wide (blankDisk type) (dinode wide (blankDisk type)) x = 0 := by
  obtain ⟨j,q⟩ := x
  unfold refs
  split
  · next h =>
    have hlt : j < 2 := h.1
    obtain rfl | rfl : j = 0 ∨ j = 1 := by omega
    · have hzero : dinode wide (blankDisk type) 0 = Inode.load (fun _ => 0) 0 :=
        Inode.load_store_apart _ _ (.inl (by decide))
      rw [hzero, Inode.load, get_zero] at h
      exact absurd rfl h.2
    · rw [blank_dinode]
      exact blank_slots type q
  · rfl

theorem blank_marked (type : UInt16) {b : ℕ} (hb : b < 64) :
    marked wide (blankDisk type) b = decide (b < 4) := by
  have h3 : wide.bblock b = 3 := by
    rw [Super.bblock, Nat.div_eq_of_lt (lt_trans hb (by decide))]
    rfl
  have hbits : ∀ b < 64, testBit (Function.update (fun _ => 0) 0 15) (b%BPB) = decide (b < 4) := by
    decide +kernel
  rw [marked, h3]
  exact hbits b hb

theorem blank_allocated (type : UInt16) : Allocated wide (blankDisk type) := by
  have hnames : ∀ x b, ¬ Names wide (blankDisk type) x b :=
    fun x b h => h.1 (h.2.symm.trans (blank_refs type x))
  refine ⟨fun b hb => ?_,fun x b h => absurd h (hnames x b),fun x _ b h => absurd h (hnames x b)⟩
  have h4 : b < 4 := hb
  rw [blank_marked type (by omega)]
  exact decide_eq_true h4

/-- Thirty blocks written to an empty file in a transaction of its own: there are enough free
blocks, but not enough room in the log. -/
theorem thirty_blocks_overflow_log : ¬ ∀ (sb : Super) (s : Store) (i : ℕ), sb.Ok → s.log = [] →
    Allocated sb s.disk → i < sb.ninodes → (dinode sb s.disk i).type = T_FILE →
    Filled (slotRef s.disk (dinode sb s.disk i)) (dinode sb s.disk i).nblocks →
    ∀ (src : List UInt8) (off : ℕ), off ≤ (dinode sb s.disk i).size.toNat →
      off+src.length ≤ MAXFILE*BSIZE →
      blocksFor (max (dinode sb s.disk i).nblocks ((off+src.length+(BSIZE-1))/BSIZE)) ≤
        blocksFor (dinode sb s.disk i).nblocks+freeBlocks sb s.disk →
      ∃ s' ip, Logged.writei LOGSIZE sb s i (dinode sb s.disk i) src off = .ok (s', ip, .done src.length) := by
  intro hall
  have hi : 1 < wide.ninodes := by decide
  have htype : (dinode wide (blankDisk T_FILE) 1).type = T_FILE := by rw [blank_dinode]; rfl
  have hown := blank_filled T_FILE
  have hlen : (List.replicate (30*BSIZE) (1 : UInt8)).length = 30*BSIZE := List.length_replicate
  have hfree : blocksFor (max (dinode wide (blankDisk T_FILE) 1).nblocks
      ((0+(List.replicate (30*BSIZE) (1 : UInt8)).length+(BSIZE-1))/BSIZE)) ≤
        blocksFor (dinode wide (blankDisk T_FILE) 1).nblocks+freeBlocks wide (blankDisk T_FILE) := by
    rw [hlen, blank_nblocks]
    decide +kernel
  obtain ⟨s',ip,hrun⟩ := hall wide ⟨blankDisk T_FILE,[]⟩ 1 wide_ok rfl (blank_allocated T_FILE) hi htype hown
    (List.replicate (30*BSIZE) 1) 0 (Nat.zero_le _) (by rw [hlen]; decide) hfree
  obtain ⟨s1,ip1,hplain,hst⟩ := @writei_total _ wide ⟨blankDisk T_FILE,[]⟩ 1 wide_ok (blank_allocated T_FILE).agree hi
    (by rw [htype]; decide) (by rw [htype]; decide) hown (List.replicate (30*BSIZE) 1) 0 (Nat.zero_le _)
    (by rw [hlen]; decide) hfree
  have hlog : 30 ≤ s1.log.length := by
    refine hst.log_length ((writei_untouched _ _ _ _).2 _ hplain) hi (by rw [htype]; decide) (by decide) rfl ?_
    intro b hb
    have h4 : 4 ≤ b := hb
    change blankDisk T_FILE b = _
    rw [blankDisk, if_neg (by omega), if_neg (by omega)]
  have hstop := (Logged.writei_tracks _ _ _ _ _).stops hplain (Nat.zero_le _)
    (show Logged.room LOGSIZE < s1.log.length from lt_of_lt_of_le (by decide) hlog)
  rw [hstop] at hrun
  cases hrun

end Xv6.Fs
