import Xv6.Fs.Contents

/-!
# Enough free blocks

`balloc` sets one bit, or panics when none is clear. A file with `k` blocks of data uses
`blocksFor k` blocks, so the clear bits and the blocks of the file that is written always add
up to the same number, and `writei` panics exactly when there were not enough at the start.
-/

set_option autoImplicit false

namespace Xv6.Fs
open Xv6.Kalloc Xv6.Halting

def freeBlocks (sb : Super) (d : Disk) : ℕ :=
  ((Finset.range sb.size).filter (fun b => marked sb d b = false)).card

/-- The blocks of a file with `k` blocks of data. -/
def blocksFor (k : ℕ) : ℕ := k+if NDIRECT < k then 1 else 0

theorem blocksFor_mono {j k : ℕ} (h : j ≤ k) : blocksFor j ≤ blocksFor k := by
  unfold blocksFor
  split <;> split <;> omega

variable {lost : Set ℕ} {sb : Super} {s s₀ : Store} {ino : ℕ → Inode} {i k : ℕ} {ip : Inode} {c : ℕ → UInt8}

theorem freeBlocks_congr {d d' : Disk} (h : ∀ b < sb.size, marked sb d' b = marked sb d b) :
    freeBlocks sb d' = freeBlocks sb d := by
  refine congrArg Finset.card (Finset.filter_congr fun b hb => ?_)
  rw [h b (Finset.mem_range.mp hb)]

def outOfBlocks : Halt := .panic "balloc: out of blocks"

/-- The computation returns and takes `n` clear bits, or there are fewer than that. -/
def Takes {α : Type} (sb : Super) (d : Disk) (n : ℕ) (disk : α → Disk) (x : Except Halt α) : Prop :=
  (∃ t, x = .ok t ∧ freeBlocks sb (disk t)+n = freeBlocks sb d) ∨
    x = .error outOfBlocks ∧ freeBlocks sb d < n

theorem balloc_takes (hsb : sb.Ok) (hlow : ∀ b < sb.nmeta, marked sb s.disk b = true) :
    Takes sb s.disk 1 (fun t => t.1.disk) (balloc sb s) := by
  cases hrun : balloc sb s with
  | ok t =>
    have hal := (balloc_spec hsb hlow).2 t hrun
    have herase : (Finset.range sb.size).filter (fun b => marked sb t.1.disk b = false) =
        ((Finset.range sb.size).filter (fun b => marked sb s.disk b = false)).erase t.2 := by
      ext a
      rw [Finset.mem_erase, Finset.mem_filter, Finset.mem_filter]
      by_cases ha : a ∈ Finset.range sb.size
      · rw [hal.bits a (Finset.mem_range.mp ha)]
        by_cases hat : a = t.2
        · simp [hat]
        · simp [hat]
      · simp [ha]
    have hmem : t.2 ∈ (Finset.range sb.size).filter (fun b => marked sb s.disk b = false) :=
      Finset.mem_filter.mpr ⟨Finset.mem_range.mpr hal.lt,hal.clear⟩
    refine .inl ⟨t,rfl,?_⟩
    rw [freeBlocks, herase, Finset.card_erase_of_mem hmem]
    exact Nat.sub_add_cancel (Finset.card_pos.mpr ⟨_,hmem⟩)
  | error e =>
    rw [balloc] at hrun
    split at hrun
    · next hnone =>
      cases hrun
      refine .inr ⟨rfl,Nat.lt_one_iff.mpr (Finset.card_eq_zero.mpr (Finset.filter_eq_empty_iff.mpr ?_))⟩
      intro b hb
      have := List.find?_eq_none.mp hnone b (List.mem_range.mpr (Finset.mem_range.mp hb))
      simpa using this
    · cases hrun

theorem ensureAddr_takes (hsb : sb.Ok) (h : Agree lost sb s.disk ino) (r : Fin (NDIRECT+1)) :
    Takes sb s.disk (if (ino i).addr r = 0 then 1 else 0) (fun t => t.1.disk) (ensureAddr sb s (ino i) r) := by
  rw [ensureAddr]
  by_cases h0 : (ino i).addr r = 0
  · rw [if_pos h0, if_pos h0]
    rcases balloc_takes hsb h.low with ⟨t,ht,hfree⟩ | ⟨he,hfree⟩
    · rw [ht]
      exact .inl ⟨_,rfl,hfree⟩
    · rw [he]
      exact .inr ⟨rfl,hfree⟩
  · rw [if_neg h0, if_neg h0]
    exact .inl ⟨_,rfl,rfl⟩

/-- The blocks that `bmap` adds. -/
def missing (d : Disk) (ip : Inode) (n : Fin MAXFILE) : ℕ :=
  (if NDIRECT ≤ n.val ∧ ip.addr indirect = 0 then 1 else 0)+(if slotRef d ip (place n) = 0 then 1 else 0)

theorem bmap_takes (hsb : sb.Ok) (h : Agree lost sb s.disk ino) (hi : i < sb.ninodes)
    (ht : (ino i).type ≠ 0) (n : Fin MAXFILE) :
    Takes sb s.disk (missing s.disk (ino i) n) (fun t => t.1.disk) (bmap sb s (ino i) n) := by
  rw [bmap]
  by_cases hn : n.val < NDIRECT
  · have hm : missing s.disk (ino i) n =
        if (ino i).addr ⟨n,Nat.lt_succ_of_lt hn⟩ = 0 then 1 else 0 := by
      rw [missing, if_neg (by omega), place_direct hn, Nat.zero_add]
      rfl
    rw [hm, dif_pos hn]
    rcases ensureAddr_takes (i := i) hsb h ⟨n,Nat.lt_succ_of_lt hn⟩ with ⟨t,hrun,hfree⟩ | ⟨he,hfree⟩
    · rw [hrun]
      exact .inl ⟨_,rfl,hfree⟩
    · rw [he]
      exact .inr ⟨rfl,hfree⟩
  · have hlt : n.val-NDIRECT < NINDIRECT := by
      have := n.isLt
      unfold MAXFILE at this
      omega
    have hm : missing s.disk (ino i) n = (if (ino i).addr indirect = 0 then 1 else 0)+
        (if slotRef s.disk (ino i) (.entry ⟨n-NDIRECT,hlt⟩) = 0 then 1 else 0) := by
      rw [missing, place_entry hn hlt]
      simp [Nat.not_lt.mp hn]
    rw [hm, dif_neg hn, if_pos hlt]
    rcases ensureAddr_takes (i := i) hsb h indirect with ⟨t,hrun,hfree⟩ | ⟨he,hfree⟩
    swap
    · rw [he]
      exact .inr ⟨rfl,by omega⟩
    dsimp only at hfree
    obtain ⟨hg,hA,-,-⟩ := (ensureAddr_spec hsb h hi ht indirect).2 t hrun
    have ht' : (Function.update ino i t.2 i).type ≠ 0 := by
      rw [Function.update_self, hg.type]
      exact ht
    have hslot := hg.slots (i,.entry ⟨n-NDIRECT,hlt⟩) (.inl (fun _ => by simp))
    rw [refs_allocated _ hi ht, refs_allocated _ hi ht', Function.update_self] at hslot
    have hword : slotRef t.1.disk t.2 (.entry ⟨n-NDIRECT,hlt⟩) =
        word (t.1.disk (t.2.addr indirect)) (n-NDIRECT) := if_neg hA
    rw [hword] at hslot
    rw [← hslot, hrun, ok_bind]
    dsimp only
    by_cases h0 : word (t.1.disk (t.2.addr indirect)) (n-NDIRECT) = 0
    swap
    · rw [if_neg h0, if_neg h0]
      exact .inl ⟨_,rfl,by omega⟩
    rw [if_pos h0, if_pos h0]
    rcases balloc_takes hsb hg.agree.low with ⟨u,hu,hfree'⟩ | ⟨he,hfree'⟩
    swap
    · rw [he]
      exact .inr ⟨rfl,by omega⟩
    have hge : sb.nmeta ≤ t.2.addr indirect := by
      have hr := @refs_allocated sb (Function.update ino i t.2) i t.1.disk hi ht' (.addr indirect)
      rw [Function.update_self] at hr
      have := (hg.agree.range (i,.addr indirect) (by rw [hr]; exact hA)).1
      rwa [hr] at this
    have hsame : freeBlocks sb (u.1.logWrite (t.2.addr indirect)
        (setWord (u.1.disk (t.2.addr indirect)) (n-NDIRECT) u.2)).disk = freeBlocks sb u.1.disk :=
      freeBlocks_congr fun b hb => marked_outside _ _ hb (.inr hge)
    dsimp only at hfree'
    rw [hu, ok_bind]
    exact .inl ⟨_,rfl,by dsimp only; omega⟩

theorem Filling.bmap_takes (hsb : sb.Ok) (h : Filling lost sb s₀ i s ip k c) (hi : i < sb.ninodes)
    (ht : (dinode sb s₀.disk i).type ≠ 0) (n : Fin MAXFILE) (hn : n.val ≤ k) :
    Takes sb s.disk (blocksFor (max k (n.val+1))-blocksFor k) (fun t => t.1.disk) (Fs.bmap sb s ip n) := by
  have htype : (Function.update (dinode sb s₀.disk) i ip i).type ≠ 0 := by
    rw [Function.update_self, h.writing.type]
    exact ht
  have hslot := h.writing.filled.blocks n
  have hA : ip.addr indirect ≠ 0 ↔ NDIRECT < k := h.writing.filled.more
  have hcost : missing s.disk ip n = blocksFor (max k (n.val+1))-blocksFor k := by
    rw [missing]
    unfold blocksFor
    by_cases hlt : n.val < k
    · rw [if_neg (fun hc => (hA.mpr (by omega)) hc.2), if_neg (hslot.mpr hlt), max_eq_left (by omega),
        Nat.sub_self]
    · have h0 : slotRef s.disk ip (place n) = 0 := not_not.mp fun hne => hlt (hslot.mp hne)
      rw [if_pos h0, max_eq_right (by omega)]
      by_cases h12 : NDIRECT < k
      · rw [if_neg (fun hc => hA.mpr h12 hc.2), if_pos h12, if_pos (by omega)]
        omega
      · have hz : ip.addr indirect = 0 := not_not.mp fun hne => h12 (hA.mp hne)
        rw [if_neg h12]
        by_cases heq : NDIRECT ≤ n.val
        · rw [if_pos ⟨heq,hz⟩, if_pos (by omega)]
          omega
        · rw [if_neg (fun hc => heq hc.1), if_neg (by omega)]
          omega
  have hbmap := Fs.bmap_takes hsb h.writing.agree hi htype n
  rw [Function.update_self, hcost] at hbmap
  exact hbmap

theorem writeLoop_takes (hsb : sb.Ok) (hi : i < sb.ninodes) (ht : (dinode sb s₀.disk i).type ≠ 0)
    (h : Filling lost sb s₀ i s ip k c) (fuel off : ℕ) (src : List UInt8) (hf : src.length ≤ fuel)
    (hoff : off ≤ k*BSIZE) (hmax : off+src.length ≤ MAXFILE*BSIZE) :
    Takes sb s.disk (blocksFor (max k ((off+src.length+(BSIZE-1))/BSIZE))-blocksFor k) (fun t => t.1.disk)
      (writeLoop sb fuel s ip off src) := by
  have hnil : ∀ k off : ℕ, off ≤ k*BSIZE → max k ((off+0+(BSIZE-1))/BSIZE) = k := by
    unfold BSIZE
    omega
  induction fuel generalizing s ip k off src c with
  | zero =>
    obtain rfl : src = [] := List.length_eq_zero_iff.mp (by omega)
    exact .inl ⟨_,rfl,by rw [List.length_nil, hnil k off hoff, Nat.sub_self]; rfl⟩
  | succ fuel ih =>
    rw [writeLoop]
    split
    · next h0 =>
      subst h0
      exact .inl ⟨_,rfl,by rw [List.length_nil, hnil k off hoff, Nat.sub_self]; rfl⟩
    · next h0 =>
      obtain ⟨hn,hk,hpos,-,hnext,hceil⟩ := pass_bounds (List.length_pos_iff.mpr h0) hoff hmax
      have hle : pass off src.length ≤ src.length := Nat.min_le_left ..
      have hend : off+pass off src.length+(src.drop (pass off src.length)).length = off+src.length := by
        rw [List.length_drop]
        omega
      have hmono : blocksFor (max k (off/BSIZE+1)) ≤
          blocksFor (max k ((off+src.length+(BSIZE-1))/BSIZE)) := blocksFor_mono (by omega)
      have hgrow : blocksFor k ≤ blocksFor (max k (off/BSIZE+1)) := blocksFor_mono (le_max_left ..)
      rcases h.bmap_takes hsb hi ht ⟨off/BSIZE,hn⟩ hk with ⟨t,hrun,hsum⟩ | ⟨he,hsum⟩
      swap
      · dsimp only at he hsum
        rw [he]
        exact .inr ⟨rfl,by omega⟩
      dsimp only at hsum hrun
      obtain ⟨hw,-,x,hx,hne,hagree⟩ := (h.pass hsb hi ht h0 hoff hmax).2 t hrun
      have hge : sb.nmeta ≤ t.2.2 := by
        rw [hx]
        exact (hagree.range x (hx ▸ hne)).1
      have hsame : freeBlocks sb (t.1.logWrite t.2.2 (writeBytes (t.1.disk t.2.2) (off%BSIZE)
          (src.take (pass off src.length)))).disk = freeBlocks sb t.1.disk :=
        freeBlocks_congr fun b hb => marked_outside _ _ hb (.inr hge)
      rw [hrun, ok_bind]
      have hstep := ih hw (off+pass off src.length) (src.drop (pass off src.length))
        (by rw [List.length_drop]; omega) hnext (by rw [hend]; exact hmax)
      rw [Takes, hend, hsame, max_assoc, max_eq_right hceil] at hstep
      rcases hstep with ⟨u,hu,hcost⟩ | ⟨he,hcost⟩
      · exact .inl ⟨u,hu,by dsimp only at hcost ⊢; omega⟩
      · exact .inr ⟨he,by omega⟩

/-- `writei` within the bounds returns and uses as many blocks as the file grows by, or there
are not enough free blocks. -/
theorem writei_outcome (hsb : sb.Ok) (hagree : Agree lost sb s.disk (dinode sb s.disk))
    (hi : i < sb.ninodes) (ht : (dinode sb s.disk i).type ≠ 0)
    (hdev : (dinode sb s.disk i).type ≠ T_DEV)
    (hown : Filled (slotRef s.disk (dinode sb s.disk i)) (dinode sb s.disk i).nblocks)
    {src : List UInt8} {off : ℕ} (hoff : off ≤ (dinode sb s.disk i).size.toNat)
    (hend : off+src.length ≤ MAXFILE*BSIZE) :
    (∃ s' ip, writei sb s i (dinode sb s.disk i) src off = .ok (s', ip, .done src.length) ∧
      Stored lost sb i s src off s' ip ∧
      freeBlocks sb s'.disk+blocksFor (max (dinode sb s.disk i).nblocks ((off+src.length+(BSIZE-1))/BSIZE)) =
        freeBlocks sb s.disk+blocksFor (dinode sb s.disk i).nblocks) ∨
    writei sb s i (dinode sb s.disk i) src off = .error outOfBlocks ∧
      blocksFor (dinode sb s.disk i).nblocks+freeBlocks sb s.disk <
        blocksFor (max (dinode sb s.disk i).nblocks ((off+src.length+(BSIZE-1))/BSIZE)) := by
  have hB : BSIZE = 512 := rfl
  have hM : MAXFILE = 140 := rfl
  have hmod : (off+src.length)%2^32 = off+src.length := Nat.mod_eq_of_lt (by rw [hB, hM] at hend; omega)
  have hgrow : blocksFor (dinode sb s.disk i).nblocks ≤
      blocksFor (max (dinode sb s.disk i).nblocks ((off+src.length+(BSIZE-1))/BSIZE)) :=
    blocksFor_mono (le_max_left ..)
  have hunfold : writei sb s i (dinode sb s.disk i) src off =
      (writeLoop sb src.length s (dinode sb s.disk i) off src >>= fun t =>
        if 0 < src.length ∧ t.2.1.size.toNat < t.2.2 then
          .ok (iupdate sb t.1 i { t.2.1 with size := .ofNat t.2.2 }, { t.2.1 with size := .ofNat t.2.2 },
            .done src.length)
        else .ok (t.1, t.2.1, .done src.length)) := by
    rw [writei]
    dsimp only
    rw [hmod, if_neg hdev, if_neg (by omega), if_neg (by omega)]
  rcases writeLoop_takes hsb hi ht ⟨writing_start hagree hown,fun _ => rfl,fun _ _ _ => rfl⟩ _ off src le_rfl
    (by unfold Inode.nblocks; rw [hB]; omega) hend with ⟨t,hloop,hcost⟩ | ⟨he,hcost⟩
  swap
  · exact .inr ⟨by rw [hunfold, he]; rfl,by omega⟩
  obtain ⟨u,hu,hsame⟩ : ∃ u, writei sb s i (dinode sb s.disk i) src off = .ok u ∧
      freeBlocks sb u.1.disk = freeBlocks sb t.1.disk := by
    rw [hunfold, hloop, ok_bind]
    split
    · exact ⟨_,rfl,freeBlocks_congr (iupdate_views hsb hi _ _).2⟩
    · exact ⟨_,rfl,rfl⟩
  obtain ⟨hdone,hst⟩ := (writei_stores hsb hagree hi ht hdev hown hoff hend).2 u hu
  obtain ⟨s',ip,r⟩ := u
  cases hdone
  dsimp only at hsame hcost
  exact .inl ⟨s',ip,hu,hst,by omega⟩

theorem writei_total (hsb : sb.Ok) (hagree : Agree lost sb s.disk (dinode sb s.disk))
    (hi : i < sb.ninodes) (ht : (dinode sb s.disk i).type ≠ 0)
    (hdev : (dinode sb s.disk i).type ≠ T_DEV)
    (hown : Filled (slotRef s.disk (dinode sb s.disk i)) (dinode sb s.disk i).nblocks)
    {src : List UInt8} {off : ℕ} (hoff : off ≤ (dinode sb s.disk i).size.toNat)
    (hend : off+src.length ≤ MAXFILE*BSIZE)
    (hfree : blocksFor (max (dinode sb s.disk i).nblocks ((off+src.length+(BSIZE-1))/BSIZE)) ≤
      blocksFor (dinode sb s.disk i).nblocks+freeBlocks sb s.disk) :
    ∃ s' ip, writei sb s i (dinode sb s.disk i) src off = .ok (s', ip, .done src.length) ∧
      Stored lost sb i s src off s' ip := by
  rcases writei_outcome hsb hagree hi ht hdev hown hoff hend with ⟨s',ip,hrun,hst,-⟩ | ⟨-,hfew⟩
  · exact ⟨s',ip,hrun,hst⟩
  · omega

end Xv6.Fs
