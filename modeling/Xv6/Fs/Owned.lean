import Xv6.Lib.Slots
import Xv6.Fs.Blocks

/-!
# Who owns a block

The slots of the allocated inodes, direct, indirect and inside an indirect block, as
one family of references to blocks. The bitmap and the slots are kept as a pool of
owned units, and each file has exactly the blocks below some number. `balloc` and
`bfree` move the bits, and a fresh block is entered in one slot of the family.
-/

set_option autoImplicit false

namespace Xv6.Fs
open Xv6.Fields Xv6.Kalloc Xv6.Halting Xv6.Slots

/-- The places of an inode that can name a block. -/
inductive Pos where
  | addr (r : Fin (NDIRECT+1))
  | entry (j : Fin NINDIRECT)
  deriving DecidableEq

/-- The place of block `n` of a file. -/
def place (n : Fin MAXFILE) : Pos :=
  if h : n.val < NDIRECT then .addr ⟨n,by omega⟩
  else .entry ⟨n-NDIRECT,by have := n.isLt; unfold MAXFILE at this; omega⟩

def slotRef (d : Disk) (ip : Inode) : Pos → ℕ
  | .addr r => ip.addr r
  | .entry j => if ip.addr indirect = 0 then 0 else word (d (ip.addr indirect)) j

def refs (sb : Super) (d : Disk) (ino : ℕ → Inode) (x : ℕ × Pos) : ℕ :=
  if x.1 < sb.ninodes ∧ (ino x.1).type ≠ 0 then slotRef d (ino x.1) x.2 else 0

/-- The bitmap and the slots of the inodes `ino` agree; the blocks in `lost` are marked
though no slot names them. -/
def Agree (lost : Set ℕ) (sb : Super) (d : Disk) (ino : ℕ → Inode) : Prop :=
  Owns lost sb.nmeta sb.size (marked sb d) (refs sb d ino)

/-- Exactly the first `k` blocks are there, with the indirect block when it is needed. -/
structure Filled (R : Pos → ℕ) (k : ℕ) : Prop where
  blocks : ∀ n : Fin MAXFILE, R (place n) ≠ 0 ↔ n.val < k
  more : R (.addr indirect) ≠ 0 ↔ NDIRECT < k
  short : k ≤ MAXFILE

variable {lost : Set ℕ} {sb : Super} {s s' : Store} {ino : ℕ → Inode} {i : ℕ} {ip : Inode}

theorem refs_allocated (d : Disk) (hi : i < sb.ninodes) (ht : (ino i).type ≠ 0) (q : Pos) :
    refs sb d ino (i,q) = slotRef d (ino i) q := if_pos ⟨hi,ht⟩

theorem setAddr_addr {b : ℕ} (hb : b < 2^32) (r t : Fin (NDIRECT+1)) :
    (ip.setAddr r b).addr t = if t = r then b else ip.addr t := by
  unfold Inode.setAddr Inode.addr
  dsimp only
  split
  · next h =>
    rw [h, Function.update_self, UInt32.toNat_ofNat']
    exact Nat.mod_eq_of_lt hb
  · next h => rw [Function.update_of_ne h]

theorem slotRef_congr {d d' : Disk} (h : ip.addr indirect ≠ 0 →
    d' (ip.addr indirect) = d (ip.addr indirect)) (q : Pos) : slotRef d' ip q = slotRef d ip q := by
  cases q with
  | addr r => rfl
  | entry j =>
    rw [slotRef, slotRef]
    split
    · rfl
    · next h0 => rw [h h0]

theorem refs_write (d : Disk) {c : ℕ} (p : Block) (h : ∀ j, refs sb d ino (j,.addr indirect) ≠ 0 →
    refs sb d ino (j,.addr indirect) ≠ c) (x : ℕ × Pos) :
    refs sb (Function.update d c p) ino x = refs sb d ino x := by
  unfold refs
  split
  · next hx =>
    apply slotRef_congr
    intro h0
    have := h x.1
    rw [refs_allocated d hx.1 hx.2] at this
    exact Function.update_of_ne (this h0) ..
  · rfl

theorem Agree.indirect_ge {d : Disk} (h : Agree lost sb d ino) (c : ℕ) (hc : c < sb.nmeta) (j : ℕ)
    (hj : refs sb d ino (j,.addr indirect) ≠ 0) : refs sb d ino (j,.addr indirect) ≠ c := by
  have := (h.range _ hj).1
  omega

/-- What `balloc` returns: a block that nobody names, now marked and zero. -/
structure Alloc (sb : Super) (s s' : Store) (b : ℕ) : Prop where
  clear : marked sb s.disk b = false
  lt : b < sb.size
  bits : ∀ c < sb.size, marked sb s'.disk c = Function.update (marked sb s.disk) b true c
  zero : s'.disk b = fun _ => 0
  other : ∀ c, sb.nmeta ≤ c → c ≠ b → s'.disk c = s.disk c
  inode : ∀ j < sb.ninodes, dinode sb s'.disk j = dinode sb s.disk j

/-- The halt that must not come. -/
def freeing (e : Halt) : Prop := e = .panic "freeing free block"

theorem not_freeing {msg : String} (h : msg ≠ "freeing free block") : ¬ freeing (.panic msg) :=
  fun hf => h (by cases hf; rfl)

theorem balloc_spec (hsb : sb.Ok) (hlow : ∀ b < sb.nmeta, marked sb s.disk b = true) :
    Yields freeing (fun r => Alloc sb s r.1 r.2) (balloc sb s) := by
  rw [balloc]
  split
  · exact Yields.error (not_freeing (by decide))
  · next b hf =>
    have hclear : marked sb s.disk b = false := by simpa using List.find?_some hf
    have hlt : b < sb.size := List.mem_range.mp (List.mem_of_find?_eq_some hf)
    have hmem := Super.bblock_mem hlt
    have hmeta : sb.nmeta ≤ b := by
      by_contra hn
      rw [hlow b (by omega)] at hclear
      cases hclear
    apply Yields.ok
    refine ⟨hclear,hlt,fun c hc => ?_,Function.update_self ..,fun c hc hne => ?_,fun j hj => ?_⟩
    · change marked sb (Function.update (Function.update _ _ _) b _) c = _
      rw [marked_outside _ _ hc (.inr hmeta), marked_set]
    · change Function.update (Function.update _ _ _) b _ c = _
      rw [Function.update_of_ne hne, Function.update_of_ne (by omega)]
    · change dinode sb (Function.update (Function.update _ _ _) b _) j = _
      rw [dinode_outside hsb _ _ hj (by omega), dinode_outside hsb _ _ hj hmem.1]

theorem bfree_spec {b : ℕ} (hsb : sb.Ok) (hb : b < sb.size) (hm : marked sb s.disk b = true) :
    ∃ s', bfree sb s b = .ok s' ∧
      (∀ c, marked sb s'.disk c = Function.update (marked sb s.disk) b false c) ∧
      (∀ c, sb.nmeta ≤ c → s'.disk c = s.disk c) ∧
      ∀ j < sb.ninodes, dinode sb s'.disk j = dinode sb s.disk j := by
  have hmem := Super.bblock_mem hb
  refine ⟨_,if_pos hm,fun c => marked_clear _ _ _,fun c hc => ?_,fun j hj => ?_⟩
  · exact Function.update_of_ne (by omega) ..
  · exact dinode_outside hsb _ _ hj hmem.1

theorem Agree.filled {d d' : Disk} {ino' : ℕ → Inode} {y : ℕ × Pos} {b : ℕ} (hsb : sb.Ok)
    (h : Agree lost sb d ino) (h0 : refs sb d ino y = 0) (hclear : marked sb d b = false)
    (hlt : b < sb.size)
    (hbits : ∀ c < sb.size, marked sb d' c = Function.update (marked sb d) b true c)
    (hrefs : ∀ x, refs sb d' ino' x = Function.update (refs sb d ino) y b x) :
    Agree lost sb d' ino' :=
  (Owns.fill h h0 hclear hlt).congr hsb.data hbits hrefs

theorem Alloc.keeps {b : ℕ} (hal : Alloc sb s s' b) (h : Agree lost sb s.disk ino) {x : ℕ × Pos}
    (hx : refs sb s.disk ino x ≠ 0) :
    s'.disk (refs sb s.disk ino x) = s.disk (refs sb s.disk ino x) :=
  hal.other _ (h.range x hx).1 ((h.unnamed hal.clear hal.lt).2 x)

theorem fill_addr {b : ℕ} (hsb : sb.Ok) (h : Agree lost sb s.disk ino) (hal : Alloc sb s s' b)
    (hi : i < sb.ninodes) (ht : (ino i).type ≠ 0) (r : Fin (NDIRECT+1))
    (h0 : (ino i).addr r = 0) (x : ℕ × Pos) :
    refs sb s'.disk (Function.update ino i ((ino i).setAddr r b)) x =
      Function.update (refs sb s.disk ino) (i,.addr r) b x := by
  have hb : b < 2^32 := by
    have := hsb.int
    have := hal.lt
    omega
  have hpos : b ≠ 0 := by
    have := h.pos
    have := (h.unnamed hal.clear hal.lt).1
    omega
  obtain ⟨j,q⟩ := x
  by_cases hj : j = i
  · subst hj
    rw [refs_allocated _ hi (by rw [Function.update_self]; exact ht), Function.update_self]
    cases q with
    | addr t =>
      rw [slotRef, setAddr_addr hb]
      split
      · next htr => rw [htr, Function.update_self]
      · next htr =>
        rw [Function.update_of_ne (by simpa using htr), refs_allocated _ hi ht]
        rfl
    | entry e =>
      rw [Function.update_of_ne (by simp), refs_allocated _ hi ht, slotRef, slotRef, setAddr_addr hb]
      by_cases hr : indirect = r
      · rw [if_pos hr, if_neg hpos, hal.zero, if_pos (by rw [hr]; exact h0)]
        exact get_zero _ _
      · rw [if_neg hr]
        split
        · rfl
        · next hA =>
          have hk := hal.keeps h (x := (j,.addr indirect)) (by rw [refs_allocated _ hi ht]; exact hA)
          rw [refs_allocated _ hi ht] at hk
          exact congrArg (fun p => word p e) hk
  · rw [Function.update_of_ne (by simp [hj])]
    unfold refs
    dsimp only
    rw [Function.update_of_ne hj]
    split
    · next hx =>
      apply slotRef_congr
      intro hA
      have hk := hal.keeps h (x := (j,.addr indirect))
        (by rw [refs_allocated _ hx.1 hx.2]; exact hA)
      rw [refs_allocated _ hx.1 hx.2] at hk
      exact hk
    · rfl

theorem fill_entry {b : ℕ} (hsb : sb.Ok) (h : Agree lost sb s.disk ino) (hal : Alloc sb s s' b)
    (hi : i < sb.ninodes) (ht : (ino i).type ≠ 0) (e : Fin NINDIRECT)
    (hA : (ino i).addr indirect ≠ 0) (x : ℕ × Pos) :
    refs sb (Function.update s'.disk ((ino i).addr indirect)
        (setWord (s'.disk ((ino i).addr indirect)) e b)) ino x =
      Function.update (refs sb s.disk ino) (i,.entry e) b x := by
  have hb : b < 2^32 := by
    have := hsb.int
    have := hal.lt
    omega
  have hown : ∀ j, refs sb s.disk ino (j,.addr indirect) ≠ 0 →
      s'.disk (refs sb s.disk ino (j,.addr indirect)) =
        s.disk (refs sb s.disk ino (j,.addr indirect)) := fun j hj => hal.keeps h hj
  have hiA := refs_allocated s.disk hi ht (.addr indirect)
  obtain ⟨j,q⟩ := x
  by_cases hj : j = i
  · subst hj
    have hk := hown j (by rw [hiA]; exact hA)
    rw [hiA] at hk
    change s'.disk ((ino j).addr indirect) = _ at hk
    rw [refs_allocated _ hi ht]
    cases q with
    | addr t =>
      rw [Function.update_of_ne (by simp), refs_allocated _ hi ht]
      rfl
    | entry f =>
      rw [slotRef, if_neg hA, Function.update_self, word_set hb, hk]
      split
      · next hfe => rw [Fin.ext hfe, Function.update_self]
      · next hfe =>
        rw [Function.update_of_ne (by simpa [Fin.ext_iff] using hfe), refs_allocated _ hi ht]
        exact (if_neg hA).symm
  · rw [Function.update_of_ne (by simp [hj])]
    unfold refs
    dsimp only
    split
    · next hx =>
      apply slotRef_congr
      intro hA'
      have hjA := refs_allocated s.disk hx.1 hx.2 (.addr indirect)
      have hk := hown j (by rw [hjA]; exact hA')
      have hne : (ino j).addr indirect ≠ (ino i).addr indirect := by
        intro heq
        have := h.once (j,.addr indirect) (i,.addr indirect) (by rw [hjA]; exact hA')
          (by rw [hjA, hiA]; exact heq)
        exact hj (Prod.mk.inj this).1
      rw [Function.update_of_ne hne]
      rw [hjA] at hk
      exact hk
    · rfl

end Xv6.Fs
