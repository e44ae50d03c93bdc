import Xv6.Fs.Reading

/-!
# Writing a file

The loop of `writei` adds the blocks behind the end one by one and stores a piece of the
source into each; the inode on the disk lags behind the one in memory until the new size
and addresses are written together. What the file contains is followed along as a function
of the offset, and the blocks of all other files stay as they are.
-/

set_option autoImplicit false

namespace Xv6.Fs
open Xv6.Kalloc Xv6.Halting

variable {lost : Set ℕ} {sb : Super} {s s' : Store} {i : ℕ} {ip : Inode}

theorem refs_fields {ino ino' : ℕ → Inode} (d : Disk)
    (h : ∀ j < sb.ninodes, (ino' j).type = (ino j).type ∧ (ino' j).addrs = (ino j).addrs)
    (x : ℕ × Pos) : refs sb d ino' x = refs sb d ino x := by
  unfold refs
  by_cases hx : x.1 < sb.ninodes
  · obtain ⟨h1,h2⟩ := h x.1 hx
    have haddr : ∀ r, (ino' x.1).addr r = (ino x.1).addr r := by
      intro r
      rw [Inode.addr, Inode.addr, h2]
    have hslot : ∀ q, slotRef d (ino' x.1) q = slotRef d (ino x.1) q := by
      intro q
      cases q <;> simp only [slotRef, haddr]
    rw [h1, hslot]
  · simp [hx]

/-- What holds while the blocks of inode `i` are written: it has its first `k` blocks,
and the other inodes and the inodes on the disk are as before. -/
structure Writing (lost : Set ℕ) (sb : Super) (s₀ : Store) (i : ℕ) (s : Store) (ip : Inode) (k : ℕ) : Prop where
  agree : Agree lost sb s.disk (Function.update (dinode sb s₀.disk) i ip)
  others : ∀ x, x.1 ≠ i → refs sb s.disk (Function.update (dinode sb s₀.disk) i ip) x =
    refs sb s₀.disk (dinode sb s₀.disk) x
  filled : Filled (slotRef s.disk ip) k
  fields : ip = { dinode sb s₀.disk i with addrs := ip.addrs }
  inode : ∀ j < sb.ninodes, dinode sb s.disk j = dinode sb s₀.disk j

variable {s₀ : Store} {k : ℕ}

theorem Sound.slotRef_filled (h : Sound sb s.disk) (hi : i < sb.ninodes)
    (ht : (dinode sb s.disk i).type ≠ 0) :
    Filled (slotRef s.disk (dinode sb s.disk i)) (dinode sb s.disk i).nblocks :=
  (h.filled i hi ht).congr (fun q => (refs_allocated _ hi ht q).symm)

theorem Writing.type (h : Writing lost sb s₀ i s ip k) : ip.type = (dinode sb s₀.disk i).type := by
  rw [h.fields]

theorem Writing.refs_own (h : Writing lost sb s₀ i s ip k) (hi : i < sb.ninodes)
    (ht : (dinode sb s₀.disk i).type ≠ 0) (q : Pos) :
    refs sb s.disk (Function.update (dinode sb s₀.disk) i ip) (i,q) = slotRef s.disk ip q := by
  rw [refs_allocated _ hi (by rw [Function.update_self, h.type]; exact ht), Function.update_self]

theorem Writing.bmap (hsb : sb.Ok) (h : Writing lost sb s₀ i s ip k) (hi : i < sb.ninodes)
    (ht : (dinode sb s₀.disk i).type ≠ 0) (n : Fin MAXFILE) (hn : n.val ≤ k) :
    Yields freeing (fun t => Writing lost sb s₀ i t.1 t.2.1 (max k (n.val+1)) ∧ t.2.2 ≠ 0 ∧
      slotRef t.1.disk t.2.1 (place n) = t.2.2 ∧ (n.val < k → t.2.1 = ip) ∧
      Grown lost sb (Function.update (dinode sb s₀.disk) i ip) i (onPath n) s t.1 t.2.1 ∧
      (k ≤ n.val → t.1.disk t.2.2 = fun _ => 0)) (bmap sb s ip n) := by
  by_cases hlt : n.val < k
  · have hslot := (h.filled.blocks n).mpr hlt
    have hsame := Grown.refl (i := i) (onPath n) h.agree
    rw [Function.update_self] at hsame
    rw [bmap_present sb hslot]
    refine Yields.ok ⟨?_,hslot,rfl,fun _ => rfl,hsame,fun hle => absurd hlt (Nat.not_lt.mpr hle)⟩
    rw [max_eq_left (by omega)]
    exact h
  · have ht' : (Function.update (dinode sb s₀.disk) i ip i).type ≠ 0 := by
      rw [Function.update_self, h.type]
      exact ht
    have hspec := bmap_spec hsb h.agree hi ht' n
    rw [Function.update_self] at hspec
    refine hspec.mono (fun t hmap => ?_)
    obtain ⟨hg,hne,hslot,hA,hzero⟩ := hmap
    have hempty : slotRef s.disk ip (place n) = 0 :=
      not_not.mp fun hn' => hlt ((h.filled.blocks n).mp hn')
    obtain ⟨agree,slots,fields,inode,-⟩ := id hg
    rw [Function.update_idem] at agree slots
    rw [Function.update_self] at fields
    have htype : t.2.1.type ≠ 0 := by
      rw [fields]
      rwa [Function.update_self] at ht'
    have hown : ∀ q, refs sb t.1.disk (Function.update (dinode sb s₀.disk) i t.2.1) (i,q) =
        slotRef t.1.disk t.2.1 q := by
      intro q
      rw [refs_allocated _ hi (by rw [Function.update_self]; exact htype), Function.update_self]
    refine ⟨⟨agree,fun x hx => ?_,?_,?_,fun j hj => ?_⟩,hne,hslot,fun hc => absurd hc hlt,hg,
      fun _ => hzero hempty⟩
    · rw [slots x (.inl (fun hxi => absurd hxi hx)), h.others x hx]
    · refine h.filled.grow hn (fun q hq => ?_) (by rw [hslot]; exact hne) hA
      rw [← hown, ← h.refs_own hi ht]
      exact slots (i,q) (hq.imp (fun hn _ => hn) (fun hn => by rw [h.refs_own hi ht]; exact hn))
    · rw [fields, h.fields]
    · rw [inode j hj, h.inode j hj]

theorem Writing.store_refs (h : Writing lost sb s₀ i s ip k) (hi : i < sb.ninodes)
    (ht : (dinode sb s₀.disk i).type ≠ 0) (n : Fin MAXFILE) (p : Block) (x : ℕ × Pos) :
    refs sb (s.logWrite (slotRef s.disk ip (place n)) p).disk
      (Function.update (dinode sb s₀.disk) i ip) x =
        refs sb s.disk (Function.update (dinode sb s₀.disk) i ip) x :=
  refs_write s.disk p (fun j hj heq => by
    have := h.agree.once (j,.addr indirect) (i,place n) hj (by rw [heq, h.refs_own hi ht])
    exact place_ne_indirect n (Prod.mk.inj this).2.symm) x

theorem Writing.store (hsb : sb.Ok) (h : Writing lost sb s₀ i s ip k) (hi : i < sb.ninodes)
    (ht : (dinode sb s₀.disk i).type ≠ 0) (n : Fin MAXFILE) (p : Block)
    (hb : slotRef s.disk ip (place n) ≠ 0) :
    Writing lost sb s₀ i (s.logWrite (slotRef s.disk ip (place n)) p) ip k ∧
      ∀ q, slotRef (s.logWrite (slotRef s.disk ip (place n)) p).disk ip q = slotRef s.disk ip q := by
  have hown := h.refs_own hi ht
  have hge : sb.nmeta ≤ slotRef s.disk ip (place n) := by
    have := (h.agree.range (i,place n) (by rw [hown]; exact hb)).1
    rwa [hown] at this
  have hrefs := h.store_refs hi ht n p
  have hslots : ∀ q, slotRef (s.logWrite (slotRef s.disk ip (place n)) p).disk ip q =
      slotRef s.disk ip q := by
    intro q
    have := hrefs (i,q)
    rwa [hown, refs_allocated _ hi (by rw [Function.update_self, h.type]; exact ht),
      Function.update_self] at this
  refine ⟨⟨?_,fun x hx => (hrefs x).trans (h.others x hx),h.filled.congr hslots,h.fields,fun j hj => ?_⟩,
    hslots⟩
  · exact h.agree.congr hsb.data (fun c hc => marked_outside _ _ hc (.inr hge)) hrefs
  · exact (dinode_outside hsb _ _ hj (by have := sb.bmapstart_lt; omega)).trans (h.inode j hj)

/-! ### The bytes that are written -/

theorem writeBytes_nil (p : ℕ → UInt8) (off : ℕ) : writeBytes p off [] = p := by
  funext a
  rw [writeBytes]
  split <;> simp

theorem writeBytes_outside (p : ℕ → UInt8) {off a : ℕ} {src : List UInt8}
    (h : a < off ∨ off+src.length ≤ a) : writeBytes p off src a = p a := by
  rw [writeBytes]
  split
  · rw [List.getD_eq_getElem?_getD, List.getElem?_eq_none (by omega), Option.getD_none]
  · rfl

theorem writeBytes_append (p : ℕ → UInt8) (off : ℕ) (x y : List UInt8) :
    writeBytes (writeBytes p off x) (off+x.length) y = writeBytes p off (x++y) := by
  funext a
  by_cases h1 : a < off
  · rw [writeBytes_outside _ (.inl (by omega)), writeBytes_outside _ (.inl h1), writeBytes_outside _ (.inl h1)]
  · by_cases h2 : a < off+x.length
    · rw [writeBytes_outside _ (.inl h2), writeBytes, if_pos (by omega), writeBytes, if_pos (by omega),
        List.getD_eq_getElem?_getD, List.getD_eq_getElem?_getD, List.getElem?_append_left (by omega)]
    · rw [writeBytes, if_pos (by omega), writeBytes_outside _ (.inr (by omega)), writeBytes, if_pos (by omega),
        List.getD_eq_getElem?_getD, List.getD_eq_getElem?_getD, List.getElem?_append_right (by omega),
        Nat.sub_sub]

/-- The bytes of the file while it is written, and the untouched blocks of the other
files. -/
structure Filling (lost : Set ℕ) (sb : Super) (s₀ : Store) (i : ℕ) (s : Store) (ip : Inode) (k : ℕ)
    (c : ℕ → UInt8) : Prop where
  writing : Writing lost sb s₀ i s ip k
  bytes : ∀ a, byteAt s.disk ip a = c a
  apart : ∀ x, x.1 ≠ i → refs sb s₀.disk (dinode sb s₀.disk) x ≠ 0 →
    s.disk (refs sb s₀.disk (dinode sb s₀.disk) x) = s₀.disk (refs sb s₀.disk (dinode sb s₀.disk) x)

variable {c : ℕ → UInt8}

theorem Grown.block {ino : ℕ → Inode} {n : Fin MAXFILE} {ip' : Inode} (hg : Grown lost sb ino i (onPath n) s s' ip')
    (hi : i < sb.ninodes) (ht : (ino i).type ≠ 0) {m : Fin MAXFILE}
    (hm : slotRef s.disk (ino i) (place m) ≠ 0) :
    slotRef s'.disk ip' (place m) = slotRef s.disk (ino i) (place m) ∧
      s'.disk (slotRef s.disk (ino i) (place m)) = s.disk (slotRef s.disk (ino i) (place m)) := by
  have hold := refs_allocated s.disk hi ht (place m)
  have hslot := hg.slots (i,place m) (.inr (by rw [hold]; exact hm))
  have hkept := hg.kept (i,place m) (by rw [hold]; exact hm)
    (fun he => absurd (Prod.mk.inj he).2 (place_ne_indirect m))
  rw [hold] at hslot hkept
  rw [refs_allocated _ hi (by rw [Function.update_self, hg.type]; exact ht), Function.update_self] at hslot
  exact ⟨hslot,hkept⟩

theorem Filling.bmap (hsb : sb.Ok) (h : Filling lost sb s₀ i s ip k c) (hi : i < sb.ninodes)
    (ht : (dinode sb s₀.disk i).type ≠ 0) (n : Fin MAXFILE) (hn : n.val ≤ k) :
    Yields freeing (fun t => Filling lost sb s₀ i t.1 t.2.1 (max k (n.val+1)) c ∧ t.2.2 ≠ 0 ∧
      slotRef t.1.disk t.2.1 (place n) = t.2.2 ∧ (n.val < k → t.2.1 = ip)) (bmap sb s ip n) := by
  refine (h.writing.bmap hsb hi ht n hn).mono fun t hmap => ?_
  obtain ⟨hw,hne,hslot,hsame,hg,hzero⟩ := hmap
  have htype : (Function.update (dinode sb s₀.disk) i ip i).type ≠ 0 := by
    rw [Function.update_self, h.writing.type]
    exact ht
  refine ⟨⟨hw,fun a => ?_,fun x hx h0 => ?_⟩,hne,hslot,hsame⟩
  · by_cases hlt : a/BSIZE < k
    · have hmax : a/BSIZE < MAXFILE := lt_of_lt_of_le hlt h.writing.filled.short
      have hthere := (h.writing.filled.blocks ⟨a/BSIZE,hmax⟩).mpr hlt
      obtain ⟨hb,hd⟩ := @Grown.block lost sb s t.1 i _ n t.2.1 hg hi htype ⟨a/BSIZE,hmax⟩
        (by rw [Function.update_self]; exact hthere)
      rw [Function.update_self] at hb hd
      have hold : blockOf s.disk ip (a/BSIZE) = slotRef s.disk ip (place ⟨a/BSIZE,hmax⟩) :=
        blockOf_place s.disk ip ⟨a/BSIZE,hmax⟩
      have hnew : blockOf t.1.disk t.2.1 (a/BSIZE) = slotRef s.disk ip (place ⟨a/BSIZE,hmax⟩) :=
        (blockOf_place t.1.disk t.2.1 ⟨a/BSIZE,hmax⟩).trans hb
      rw [← h.bytes a, byteAt_present (by rw [hnew]; exact hthere), hnew, hd,
        byteAt_present (by rw [hold]; exact hthere), hold]
    · rw [← h.bytes a, h.writing.filled.hole (Nat.not_lt.mp hlt)]
      by_cases hdiv : a/BSIZE = n.val
      · -- the new block
        have hnew : blockOf t.1.disk t.2.1 (a/BSIZE) = t.2.2 := by
          rw [hdiv, blockOf_place, hslot]
        rw [byteAt_present (by rw [hnew]; exact hne), hnew, hzero (by omega)]
      · exact hw.filled.hole (by omega)
  · have hx0 := h.writing.others x hx
    have := hg.kept x (by rw [hx0]; exact h0) (fun he => absurd (congrArg Prod.fst he) hx)
    rw [hx0] at this
    rw [this, h.apart x hx h0]

theorem Filling.store (hsb : sb.Ok) (h : Filling lost sb s₀ i s ip k c) (hi : i < sb.ninodes)
    (ht : (dinode sb s₀.disk i).type ≠ 0) {off : ℕ} (hn : off/BSIZE < MAXFILE) (hk : off/BSIZE < k)
    (src : List UInt8) (hfit : off%BSIZE+src.length ≤ BSIZE) :
    Filling lost sb s₀ i (s.logWrite (slotRef s.disk ip (place ⟨off/BSIZE,hn⟩))
      (writeBytes (s.disk (slotRef s.disk ip (place ⟨off/BSIZE,hn⟩))) (off%BSIZE) src)) ip k
      (writeBytes c off src) := by
  have hb : slotRef s.disk ip (place ⟨off/BSIZE,hn⟩) ≠ 0 := (h.writing.filled.blocks _).mpr hk
  have hown := h.writing.refs_own hi ht
  obtain ⟨hw,hslots⟩ := h.writing.store hsb hi ht ⟨off/BSIZE,hn⟩
    (writeBytes (s.disk (slotRef s.disk ip (place ⟨off/BSIZE,hn⟩))) (off%BSIZE) src) hb
  refine ⟨hw,fun a => ?_,fun x hx h0 => ?_⟩
  · by_cases hlt : a/BSIZE < k
    swap
    · have hm : a/BSIZE ≠ off/BSIZE := by omega
      rw [hw.filled.hole (Nat.not_lt.mp hlt), writeBytes_outside c (by unfold BSIZE at hm hfit; omega),
        ← h.bytes a, h.writing.filled.hole (Nat.not_lt.mp hlt)]
    have hmax : a/BSIZE < MAXFILE := lt_of_lt_of_le hlt h.writing.filled.short
    have hthere := (h.writing.filled.blocks ⟨a/BSIZE,hmax⟩).mpr hlt
    have hold : blockOf s.disk ip (a/BSIZE) = slotRef s.disk ip (place ⟨a/BSIZE,hmax⟩) :=
      blockOf_place s.disk ip ⟨a/BSIZE,hmax⟩
    have hnew := (blockOf_place (s.logWrite _ (writeBytes (s.disk (slotRef s.disk ip
      (place ⟨off/BSIZE,hn⟩))) (off%BSIZE) src)).disk ip ⟨a/BSIZE,hmax⟩).trans (hslots _)
    have hbyte := h.bytes a
    rw [byteAt_present (by rw [hold]; exact hthere), hold] at hbyte
    rw [byteAt_present (by rw [hnew]; exact hthere), hnew]
    by_cases hm : a/BSIZE = off/BSIZE
    · have hfin : (⟨a/BSIZE,hmax⟩ : Fin MAXFILE) = ⟨off/BSIZE,hn⟩ := Fin.ext hm
      rw [hfin] at hbyte ⊢
      refine (congrFun (Function.update_self ..) _).trans ?_
      rw [writeBytes, writeBytes, hbyte]
      have hiff : off%BSIZE ≤ a%BSIZE ↔ off ≤ a := by unfold BSIZE at *; omega
      have hsub : a%BSIZE-off%BSIZE = a-off := by unfold BSIZE at *; omega
      simp only [hiff, hsub]
    · have hne : slotRef s.disk ip (place ⟨a/BSIZE,hmax⟩) ≠ slotRef s.disk ip (place ⟨off/BSIZE,hn⟩) := by
        intro he
        have := h.writing.agree.once (i,place ⟨a/BSIZE,hmax⟩) (i,place ⟨off/BSIZE,hn⟩)
          (by rw [hown]; exact hthere) (by rw [hown, hown]; exact he)
        exact hm (congrArg Fin.val (place_inj (Prod.mk.inj this).2))
      refine (congrFun (Function.update_of_ne hne ..) _).trans (hbyte.trans ?_)
      rw [writeBytes_outside c (by unfold BSIZE at hm hfit; omega)]
  · have hx0 := h.writing.others x hx
    refine (Function.update_of_ne ?_ ..).trans (h.apart x hx h0)
    intro he
    have := h.writing.agree.once x (i,place ⟨off/BSIZE,hn⟩) (by rw [hx0]; exact h0)
      (by rw [hx0, hown]; exact he)
    exact hx (congrArg Prod.fst this)

/-- What one pass of the loop of `writei` moves. -/
def pass (off n : ℕ) : ℕ := min n (BSIZE-off%BSIZE)

theorem pass_bounds {off n k : ℕ} (hn : 0 < n) (hoff : off ≤ k*BSIZE) (hmax : off+n ≤ MAXFILE*BSIZE) :
    off/BSIZE < MAXFILE ∧ off/BSIZE ≤ k ∧ 0 < pass off n ∧ off%BSIZE+pass off n ≤ BSIZE ∧
      off+pass off n ≤ max k (off/BSIZE+1)*BSIZE ∧ off/BSIZE+1 ≤ (off+n+(BSIZE-1))/BSIZE := by
  unfold pass MAXFILE NDIRECT NINDIRECT BSIZE at *
  omega

theorem Filling.pass (hsb : sb.Ok) (h : Filling lost sb s₀ i s ip k c) (hi : i < sb.ninodes)
    (ht : (dinode sb s₀.disk i).type ≠ 0) {off : ℕ} {src : List UInt8} (h0 : src ≠ []) (hoff : off ≤ k*BSIZE)
    (hmax : off+src.length ≤ MAXFILE*BSIZE) :
    Yields freeing (fun t => Filling lost sb s₀ i (t.1.logWrite t.2.2 (writeBytes (t.1.disk t.2.2) (off%BSIZE)
        (src.take (Fs.pass off src.length)))) t.2.1 (max k (off/BSIZE+1))
        (writeBytes c off (src.take (Fs.pass off src.length))) ∧
      (off/BSIZE < k → t.2.1 = ip) ∧ ∃ x, t.2.2 = refs sb t.1.disk (Function.update (dinode sb s₀.disk) i t.2.1) x ∧
        t.2.2 ≠ 0 ∧ Agree lost sb t.1.disk (Function.update (dinode sb s₀.disk) i t.2.1))
      (Fs.bmap sb s ip (off/BSIZE)) := by
  obtain ⟨hn,hk,-,hfit,-,-⟩ := pass_bounds (List.length_pos_iff.mpr h0) hoff hmax
  refine (h.bmap hsb hi ht ⟨off/BSIZE,hn⟩ hk).mono fun t hmap => ?_
  obtain ⟨hw,hne,hslot,hsame⟩ := hmap
  have hstore := hw.store hsb hi ht hn (lt_max_of_lt_right (Nat.lt_succ_self _))
    (src.take (Fs.pass off src.length)) (by rw [List.length_take]; exact (Nat.add_le_add_left (Nat.min_le_left ..) _).trans hfit)
  rw [hslot] at hstore
  exact ⟨hstore,hsame,(i,place ⟨off/BSIZE,hn⟩),by rw [hw.writing.refs_own hi ht, hslot],hne,hw.writing.agree⟩

theorem writeLoop_spec (hsb : sb.Ok) (hi : i < sb.ninodes) (ht : (dinode sb s₀.disk i).type ≠ 0)
    (h : Filling lost sb s₀ i s ip k c) (fuel off : ℕ) (src : List UInt8) (hf : src.length ≤ fuel)
    (hoff : off ≤ k*BSIZE) (hmax : off+src.length ≤ MAXFILE*BSIZE) :
    Yields freeing (fun t => t.2.2 = off+src.length ∧
      Filling lost sb s₀ i t.1 t.2.1 (max k ((off+src.length+(BSIZE-1))/BSIZE)) (writeBytes c off src) ∧
      (off+src.length ≤ k*BSIZE → t.2.1 = ip)) (writeLoop sb fuel s ip off src) := by
  have hB : BSIZE = 512 := rfl
  have hnil : ∀ (s : Store) (ip : Inode) (off k : ℕ) (c : ℕ → UInt8), Filling lost sb s₀ i s ip k c →
      off ≤ k*BSIZE → Filling lost sb s₀ i s ip (max k ((off+0+(BSIZE-1))/BSIZE)) (writeBytes c off []) := by
    intro s ip off k c h hoff
    rw [max_eq_left (by rw [hB] at *; omega), writeBytes_nil]
    exact h
  induction fuel generalizing s ip k off src c with
  | zero =>
    obtain rfl : src = [] := List.length_eq_zero_iff.mp (by omega)
    exact Yields.ok ⟨rfl,hnil s ip off k c h hoff,fun _ => rfl⟩
  | succ fuel ih =>
    rw [writeLoop]
    split
    · next h0 =>
      subst h0
      exact Yields.ok ⟨rfl,hnil s ip off k c h hoff,fun _ => rfl⟩
    · next h0 =>
      obtain ⟨-,-,hpos,-,hnext,hceil⟩ := pass_bounds (List.length_pos_iff.mpr h0) hoff hmax
      have hle : pass off src.length ≤ src.length := Nat.min_le_left ..
      have hend : off+pass off src.length+(src.drop (pass off src.length)).length = off+src.length := by
        rw [List.length_drop]
        omega
      refine (h.pass hsb hi ht h0 hoff hmax).bind fun t hpass => ?_
      obtain ⟨hw,hsame,-⟩ := hpass
      have hstep := ih hw (off+pass off src.length) (src.drop (pass off src.length))
        (by rw [List.length_drop]; omega) hnext (by rw [hend]; exact hmax)
      rw [hend] at hstep
      refine hstep.mono fun u hu => ?_
      obtain ⟨h1,h2,h3⟩ := hu
      refine ⟨h1,?_,fun hwhole => ?_⟩
      · rw [max_assoc, max_eq_right hceil] at h2
        have happ := writeBytes_append c off (src.take (pass off src.length)) (src.drop (pass off src.length))
        rw [List.length_take, Nat.min_eq_left hle, List.take_append_drop] at happ
        rwa [happ] at h2
      · have hlt : off/BSIZE < k := by rw [hB] at *; omega
        rw [h3 (by rw [max_eq_left (by omega)]; exact hwhole)]
        exact hsame hlt

/-- The inode that ends an operation on `i` is the one on the disk, and the others are
as before. -/
structure Done (sb : Super) (i : ℕ) (s s' : Store) (ip : Inode) : Prop where
  sound : Sound sb s'.disk
  inode : ∀ j < sb.ninodes, dinode sb s'.disk j = Function.update (dinode sb s.disk) i ip j

theorem Done.refl (h : Sound sb s.disk) : Done sb i s s (dinode sb s.disk i) :=
  ⟨h,fun _ _ => by rw [Function.update_eq_self]⟩

theorem iupdate_views (hsb : sb.Ok) (hi : i < sb.ninodes) (s : Store) (ip : Inode) :
    (∀ j, dinode sb (iupdate sb s i ip).disk j = Function.update (dinode sb s.disk) i ip j) ∧
    ∀ c < sb.size, marked sb (iupdate sb s i ip).disk c = marked sb s.disk c :=
  ⟨fun _ => dinode_store _ _ _ _,fun _ hc => marked_outside _ _ hc (.inl (hsb.iblock_lt hi))⟩

/-- The operation on `i` is over: its inode is on the disk, and the slots of the others
are as before. -/
structure Settled (lost : Set ℕ) (sb : Super) (i : ℕ) (s s' : Store) (ip : Inode) : Prop where
  agree : Agree lost sb s'.disk (dinode sb s'.disk)
  own : Filled (slotRef s'.disk ip) ip.nblocks
  inode : ∀ j < sb.ninodes, dinode sb s'.disk j = Function.update (dinode sb s.disk) i ip j
  others : ∀ x, x.1 ≠ i → refs sb s'.disk (dinode sb s'.disk) x = refs sb s.disk (dinode sb s.disk) x

/-- Once the inodes on the disk are those in memory, and the blocks of the file are those of
its size, the operation is over. -/
theorem Writing.settle (hsb : sb.Ok) (h : Writing lost sb s₀ i s ip k)
    (hi : i < sb.ninodes) (ht : (dinode sb s₀.disk i).type ≠ 0) {ip' : Inode}
    (haddrs : ip'.addrs = ip.addrs) (htype : ip'.type = ip.type) (hk : ip'.nblocks = k)
    (hinode : ∀ j < sb.ninodes, dinode sb s'.disk j = Function.update (dinode sb s₀.disk) i ip' j)
    (hmark : ∀ c < sb.size, marked sb s'.disk c = marked sb s.disk c)
    (hdata : ∀ x, refs sb s'.disk (Function.update (dinode sb s₀.disk) i ip) x =
      refs sb s.disk (Function.update (dinode sb s₀.disk) i ip) x) :
    Settled lost sb i s₀ s' ip' ∧ ∀ q, slotRef s'.disk ip' q = slotRef s.disk ip q := by
  have hrefs : ∀ x, refs sb s'.disk (dinode sb s'.disk) x =
      refs sb s.disk (Function.update (dinode sb s₀.disk) i ip) x := by
    intro x
    rw [← hdata]
    refine refs_fields _ (fun j hj => ?_) x
    rw [hinode j hj]
    by_cases hji : j = i
    · rw [hji, Function.update_self, Function.update_self]
      exact ⟨htype,haddrs⟩
    · rw [Function.update_of_ne hji, Function.update_of_ne hji]
      exact ⟨rfl,rfl⟩
  have hself : dinode sb s'.disk i = ip' := by rw [hinode i hi, Function.update_self]
  have hslots : ∀ q, slotRef s'.disk ip' q = slotRef s.disk ip q := by
    intro q
    have := hrefs (i,q)
    rwa [h.refs_own hi ht, refs_allocated _ hi (by rw [hself, htype, h.type]; exact ht), hself] at this
  exact ⟨⟨h.agree.congr hsb.data hmark hrefs,hk ▸ h.filled.congr hslots,hinode,
    fun x hx => (hrefs x).trans (h.others x hx)⟩,hslots⟩

theorem Settled.done (h : Settled ∅ sb i s s' ip) (h₀ : Sound sb s.disk) (hi : i < sb.ninodes) :
    Done sb i s s' ip := by
  refine ⟨⟨h.agree,fun j hj htj => ?_⟩,h.inode⟩
  rw [h.inode j hj] at htj ⊢
  by_cases hji : j = i
  · subst hji
    rw [Function.update_self] at htj ⊢
    have hself : dinode sb s'.disk j = ip := by rw [h.inode j hi, Function.update_self]
    refine h.own.congr fun q => ?_
    rw [refs_allocated _ hi (by rw [hself]; exact htj), hself]
  · rw [Function.update_of_ne hji] at htj ⊢
    exact (h₀.filled j hj htj).congr (fun q => h.others (j,q) hji)

theorem Writing.iupdate (hsb : sb.Ok) (h : Writing lost sb s₀ i s ip k)
    (hi : i < sb.ninodes) (ht : (dinode sb s₀.disk i).type ≠ 0) (ip' : Inode)
    (haddrs : ip'.addrs = ip.addrs) (htype : ip'.type = ip.type) (hk : ip'.nblocks = k) :
    Settled lost sb i s₀ (iupdate sb s i ip') ip' ∧
      ∀ q, slotRef (Fs.iupdate sb s i ip').disk ip' q = slotRef s.disk ip q := by
  obtain ⟨hdin,hmark⟩ := iupdate_views hsb hi s ip'
  refine h.settle hsb hi ht haddrs htype hk (fun j hj => ?_) hmark ?_
  · rw [hdin j]
    by_cases hji : j = i
    · rw [hji, Function.update_self, Function.update_self]
    · rw [Function.update_of_ne hji, Function.update_of_ne hji, h.inode j hj]
  · exact refs_write _ _ (h.agree.indirect_ge _ (by
      have := hsb.iblock_lt hi
      have := sb.bmapstart_lt
      omega))

/-- What a successful `writei` has done: the bytes of the source stand in the file, the size
has grown if needed, and the blocks of the other files are as before. -/
structure Stored (lost : Set ℕ) (sb : Super) (i : ℕ) (s : Store) (src : List UInt8) (off : ℕ) (s' : Store)
    (ip : Inode) : Prop where
  settled : Settled lost sb i s s' ip
  bytes : ∀ a, byteAt s'.disk ip a = writeBytes (byteAt s.disk (dinode sb s.disk i)) off src a
  size : ip.size.toNat = max (dinode sb s.disk i).size.toNat (off+src.length)
  fields : ip = { dinode sb s.disk i with size := ip.size, addrs := ip.addrs }
  apart : ∀ x, x.1 ≠ i → refs sb s.disk (dinode sb s.disk) x ≠ 0 →
    s'.disk (refs sb s.disk (dinode sb s.disk) x) = s.disk (refs sb s.disk (dinode sb s.disk) x)

theorem byteAt_congr {d d' : Disk} {ip' : Inode} (hs : ∀ q, slotRef d' ip' q = slotRef d ip q)
    (hd : ∀ n : Fin MAXFILE, slotRef d ip (place n) ≠ 0 →
      d' (slotRef d ip (place n)) = d (slotRef d ip (place n))) (a : ℕ) :
    byteAt d' ip' a = byteAt d ip a := by
  have hblock : blockOf d' ip' (a/BSIZE) = blockOf d ip (a/BSIZE) := by
    rw [blockOf, blockOf]
    split
    · exact hs _
    · rfl
  rw [byteAt, byteAt, hblock]
  split
  · rfl
  · next h0 =>
    rw [blockOf] at h0 ⊢
    split at h0
    · next hn =>
      rw [dif_pos hn, hd ⟨_,hn⟩ h0]
    · exact absurd rfl h0

theorem writing_start (hagree : Agree lost sb s.disk (dinode sb s.disk))
    (hown : Filled (slotRef s.disk (dinode sb s.disk i)) (dinode sb s.disk i).nblocks) :
    Writing lost sb s i s (dinode sb s.disk i) (dinode sb s.disk i).nblocks := by
  refine ⟨?_,fun x _ => ?_,hown,rfl,fun _ _ => rfl⟩ <;> rw [Function.update_eq_self]
  exact hagree

theorem writei_stores (hsb : sb.Ok) (hagree : Agree lost sb s.disk (dinode sb s.disk))
    (hi : i < sb.ninodes) (ht : (dinode sb s.disk i).type ≠ 0)
    (hdev : (dinode sb s.disk i).type ≠ T_DEV)
    (hown : Filled (slotRef s.disk (dinode sb s.disk i)) (dinode sb s.disk i).nblocks)
    {src : List UInt8} {off : ℕ} (hoff : off ≤ (dinode sb s.disk i).size.toNat)
    (hend : off+src.length ≤ MAXFILE*BSIZE) :
    Yields freeing (fun t => t.2.2 = .done src.length ∧ Stored lost sb i s src off t.1 t.2.1)
      (writei sb s i (dinode sb s.disk i) src off) := by
  have hB : BSIZE = 512 := rfl
  have hM : MAXFILE = 140 := rfl
  have hmod : (off+src.length)%2^32 = off+src.length := Nat.mod_eq_of_lt (by rw [hB, hM] at hend; omega)
  have hblocks : off ≤ (dinode sb s.disk i).nblocks*BSIZE := by
    unfold Inode.nblocks
    rw [hB]
    omega
  rw [writei]
  dsimp only
  rw [hmod, if_neg hdev, if_neg (by omega), if_neg (by omega)]
  have hstart : Filling lost sb s i s (dinode sb s.disk i) (dinode sb s.disk i).nblocks
      (byteAt s.disk (dinode sb s.disk i)) :=
    ⟨writing_start hagree hown,fun _ => rfl,fun _ _ _ => rfl⟩
  refine (writeLoop_spec hsb hi ht hstart _ off src le_rfl hblocks hend).bind (fun t hloop => ?_)
  obtain ⟨s1,ip1,off1⟩ := t
  obtain ⟨hoff1,hf,hsame⟩ := hloop
  dsimp only at hoff1 hf hsame ⊢
  have hw1 := hf.writing
  have hsize : ip1.size = (dinode sb s.disk i).size := by rw [hw1.fields]
  split
  · next hgrow =>
    have hv : (UInt32.ofNat off1).toNat = off1 := by
      rw [UInt32.toNat_ofNat']
      exact Nat.mod_eq_of_lt (by rw [hB, hM] at hend; omega)
    have hk : ({ ip1 with size := .ofNat off1 } : Inode).nblocks =
        max (dinode sb s.disk i).nblocks ((off+src.length+(BSIZE-1))/BSIZE) := by
      unfold Inode.nblocks
      dsimp only
      rw [hv, hoff1, max_eq_right]
      rw [← hsize] at *
      apply Nat.div_le_div_right
      omega
    obtain ⟨hset,hslots⟩ := hw1.iupdate hsb hi ht { ip1 with size := .ofNat off1 } rfl rfl hk
    -- the inode block is none of the data blocks
    have hmeta : ∀ b, sb.nmeta ≤ b → (iupdate sb s1 i { ip1 with size := .ofNat off1 }).disk b = s1.disk b := by
      intro b hb
      refine Function.update_of_ne ?_ ..
      have := hsb.iblock_lt hi
      have := sb.bmapstart_lt
      omega
    refine Yields.ok ⟨rfl,hset,fun a => ?_,?_,?_,fun x hx h0 => ?_⟩
    · rw [← hf.bytes a]
      refine byteAt_congr hslots (fun n hn => hmeta _ ?_) a
      have := (hw1.agree.range (i,place n) (by rw [hw1.refs_own hi ht]; exact hn)).1
      rwa [hw1.refs_own hi ht] at this
    · rw [hsize] at hgrow
      rw [hv, hoff1, max_eq_right (by omega)]
    · rw [hw1.fields]
    · rw [hmeta _ (hagree.range x h0).1, hf.apart x hx h0]
  · next hgrow =>
    -- nothing was added, so the inode in memory did not change
    have hle : off+src.length ≤ (dinode sb s.disk i).size.toNat := by
      rw [hsize] at hgrow
      omega
    obtain rfl := hsame (hle.trans (by unfold Inode.nblocks; rw [hB]; omega))
    have hk : (dinode sb s.disk i).nblocks =
        max (dinode sb s.disk i).nblocks ((off+src.length+(BSIZE-1))/BSIZE) := by
      rw [max_eq_left]
      exact Nat.div_le_div_right (by omega)
    obtain ⟨hset,-⟩ := hw1.settle hsb hi ht rfl rfl hk (fun j hj => by
      rw [Function.update_eq_self, hw1.inode j hj]) (fun _ _ => rfl) (fun _ => rfl)
    exact Yields.ok ⟨rfl,hset,hf.bytes,by rw [max_eq_left hle],rfl,hf.apart⟩

theorem writei_spec (hsb : sb.Ok) (h : Sound sb s.disk) (hi : i < sb.ninodes)
    (ht : (dinode sb s.disk i).type ≠ 0) (src : List UInt8) (off : ℕ) (hn : src.length < 2^32) :
    Yields freeing (fun t => Done sb i s t.1 t.2.1 ∧ t.2.1.type = (dinode sb s.disk i).type)
      (writei sb s i (dinode sb s.disk i) src off) := by
  have hs := (dinode sb s.disk i).size.toNat_lt
  by_cases hdev : (dinode sb s.disk i).type = T_DEV
  · rw [writei]
    dsimp only
    rw [if_pos hdev]
    exact Yields.ok ⟨Done.refl h,rfl⟩
  by_cases hgo : off ≤ (dinode sb s.disk i).size.toNat ∧ off+src.length ≤ MAXFILE*BSIZE
  · refine (writei_stores hsb h.agree hi ht hdev (h.slotRef_filled hi ht) hgo.1 hgo.2).mono
      fun t hw => ⟨hw.2.settled.done h hi,?_⟩
    rw [hw.2.fields]
  · rw [writei]
    dsimp only
    rw [if_neg hdev]
    split
    · exact Yields.ok ⟨Done.refl h,rfl⟩
    split
    · exact Yields.ok ⟨Done.refl h,rfl⟩
    next hg hmax =>
    exact absurd ⟨by omega,by omega⟩ hgo

end Xv6.Fs
