import Xv6.Fs.Consistency

/-!
# Every block has one owner

The consistency of the disk in the terms of its users: which blocks are free, which
are named and how often, and which blocks a file has. An image must not only have
every block at most once, its slots must name blocks of the data area: `itrunc` of a
file that names a metadata block clears the bit of that block.
-/

set_option autoImplicit false

namespace Xv6.Fs
open Xv6.Fields

def Names (sb : Super) (d : Disk) (x : ℕ × Pos) (b : ℕ) : Prop :=
  b ≠ 0 ∧ refs sb d (dinode sb d) x = b

/-- A data block is free and named nowhere, or taken and named once; the metadata is
taken; and every file has exactly the blocks below its size. -/
structure Ownership (sb : Super) (d : Disk) : Prop where
  data : ∀ b, sb.nmeta ≤ b → b < sb.size →
    marked sb d b = false ∧ (∀ x, ¬ Names sb d x b) ∨ marked sb d b = true ∧ ∃! x, Names sb d x b
  metadata : ∀ b < sb.nmeta, marked sb d b = true
  files : ∀ i < sb.ninodes, (dinode sb d i).type ≠ 0 →
    Filled (fun q => refs sb d (dinode sb d) (i,q)) (dinode sb d i).nblocks

/-- All slots name blocks behind the metadata. -/
def InData (sb : Super) (d : Disk) : Prop :=
  ∀ x b, Names sb d x b → sb.nmeta ≤ b ∧ b < sb.size

variable {sb : Super} {d : Disk}

theorem Sound.ownership (h : Sound sb d) : Ownership sb d ∧ InData sb d := by
  have hpos := h.agree.pos
  refine ⟨⟨fun b h1 h2 => ?_,h.agree.low,h.filled⟩,?_⟩
  · have hused : marked sb d b = true ↔ ∃ x, refs sb d (dinode sb d) x = b := by
      rw [h.agree.used b h1 h2]
      exact or_iff_right (Set.notMem_empty b)
    cases hm : marked sb d b with
    | false =>
      refine .inl ⟨rfl,fun x hx => ?_⟩
      rw [hm] at hused
      exact Bool.false_ne_true (hused.mpr ⟨x,hx.2⟩)
    | true =>
      obtain ⟨x,hx⟩ := hused.mp hm
      refine .inr ⟨rfl,x,⟨by omega,hx⟩,fun y hy => ?_⟩
      exact h.agree.once y x (by rw [hy.2]; exact hy.1) (by rw [hy.2, hx])
  · rintro x b ⟨hb,rfl⟩
    exact h.agree.range x hb

theorem Ownership.sound (h : Ownership sb d) (hin : InData sb d) : Sound sb d := by
  have hpos : 0 < sb.nmeta := by have := sb.bmapstart_lt; omega
  refine ⟨⟨hpos,h.metadata,fun x hx => hin x _ ⟨hx,rfl⟩,fun x y hx hxy => ?_,fun b h1 h2 => ?_,
    fun _ _ hlost => hlost⟩,h.files⟩
  · obtain ⟨h1,h2⟩ := hin x _ ⟨hx,rfl⟩
    obtain ⟨-,hno⟩ | ⟨-,z,-,hz⟩ := h.data _ h1 h2
    · exact absurd ⟨hx,rfl⟩ (hno x)
    · rw [hz x ⟨hx,rfl⟩, hz y ⟨hx,hxy.symm⟩]
  · obtain ⟨hm,hno⟩ | ⟨hm,x,hx,-⟩ := h.data b h1 h2
    · refine iff_of_false (by rw [hm]; exact Bool.false_ne_true) ?_
      rintro (hlost | ⟨x,hx⟩)
      · exact hlost
      · exact hno x ⟨by omega,hx⟩
    · exact iff_of_true hm (.inr ⟨x,hx.2⟩)

/-- From an image in which the blocks are owned and all slots name data blocks, with a
coherent cache, every run keeps this, no operation frees a free block, and reading
changes nothing. -/
theorem blocks_owned (hsb : sb.Ok) {s₀ s : Sys} (hown : Ownership sb s₀.store.disk)
    (hin : InData sb s₀.store.disk) (hc : Coherent sb s₀) (h : Reach sb s₀ s) :
    (Ownership sb s.store.disk ∧ InData sb s.store.disk) ∧
      ∀ op, s.Ready sb op → s.run sb op ≠ .error (.panic "freeing free block") ∧
        ∀ k off n, op = .readi k off n → s.run sb op = .ok s := by
  have hinv := reach_inv hsb ⟨hown.sound hin,hc⟩ h
  refine ⟨hinv.sound.ownership,fun op hr => ⟨fun he => ?_,?_⟩⟩
  · exact (inv_run hsb hinv hr).1 _ he rfl
  · rintro k off n rfl
    exact hinv.readi hr.1 off hr.2

/-- A disk of six blocks with one inode block, one bitmap block and one file whose first
block is `a`. -/
def tiny : Super := ⟨6,2,2,3⟩

def shortFile (a : ℕ) : Inode := Inode.setAddr { Sys.fresh T_FILE with size := 512 } 0 a

def tinyDisk (a : ℕ) (bits : UInt8) : Disk := fun b =>
  if b = 2 then (shortFile a).store (fun _ => 0) dinodeSize
  else if b = 3 then Function.update (fun _ => 0) 0 bits
  else fun _ => 0

def booted (d : Disk) : Sys := ⟨⟨d,[]⟩,fun _ => ⟨0,0,false,Sys.fresh 0⟩⟩

theorem booted_coherent (sb : Super) (d : Disk) : Coherent sb (booted d) :=
  ⟨fun _ _ h _ _ => absurd h (Nat.lt_irrefl 0),fun _ h => absurd h.1 (Nat.lt_irrefl 0)⟩

theorem tiny_ok : tiny.Ok := ⟨by decide,by decide,by decide⟩

theorem tiny_dinode (a : ℕ) (bits : UInt8) : dinode tiny (tinyDisk a bits) 1 = shortFile a :=
  Inode.load_store _ _ _

theorem tiny_unused (a : ℕ) (bits : UInt8) : (dinode tiny (tinyDisk a bits) 0).type = 0 := by
  have h : dinode tiny (tinyDisk a bits) 0 = Inode.load (fun _ => 0) 0 :=
    Inode.load_store_apart _ _ (.inl (by decide))
  rw [h, Inode.load, get_zero]
  rfl

theorem tiny_refs {a : ℕ} (ha : a < 2^32) (bits : UInt8) (x : ℕ × Pos) :
    refs tiny (tinyDisk a bits) (dinode tiny (tinyDisk a bits)) x =
      if x = (1,.addr 0) then a else 0 := by
  have haddr : ∀ r, (shortFile a).addr r = if r = 0 then a else 0 := setAddr_addr ha 0
  obtain ⟨i,q⟩ := x
  unfold refs
  dsimp only
  by_cases hi : i = 1
  · subst hi
    rw [tiny_dinode, if_pos ⟨by decide,(show (2 : UInt16) ≠ 0 by decide)⟩]
    cases q with
    | addr r => simp [slotRef, haddr]
    | entry e => rw [if_neg (by simp), slotRef, if_pos ((haddr indirect).trans (if_neg (by decide)))]
  · rw [if_neg, if_neg (by simp [hi])]
    rintro ⟨hlt,ht⟩
    obtain rfl : i = 0 := by
      change i < 2 at hlt
      omega
    exact ht (tiny_unused a bits)

theorem tiny_marked (a : ℕ) (bits : UInt8) {b : ℕ} (hb : b < 6) :
    marked tiny (tinyDisk a bits) b = testBit (fun _ => bits) b := by
  interval_cases b <;> rfl

theorem tiny_owned {a : ℕ} (h0 : 0 < a) (ha : a < 6) (bits : UInt8)
    (hbits : ∀ b < 6, testBit (fun _ => bits) b = true ↔ b < 4 ∨ b = a) :
    Ownership tiny (tinyDisk a bits) := by
  have hrefs := tiny_refs (a := a) (by omega) bits
  have hmark : ∀ b < 6, marked tiny (tinyDisk a bits) b = true ↔ b < 4 ∨ b = a := by
    intro b hb
    rw [tiny_marked a bits hb]
    exact hbits b hb
  have hnames : ∀ x b, Names tiny (tinyDisk a bits) x b ↔ x = (1,.addr 0) ∧ b = a := by
    intro x b
    rw [Names, hrefs]
    by_cases hx : x = (1,.addr 0)
    · simp only [hx, if_true, true_and]
      omega
    · simp only [hx, if_false, false_and, iff_false]
      omega
  refine ⟨fun b h1 h2 => ?_,fun b hb => (hmark b (by change b < 4 at hb; omega)).mpr (.inl hb),
    fun i hi ht => ?_⟩
  · change 4 ≤ b at h1
    change b < 6 at h2
    by_cases hba : b = a
    · refine .inr ⟨(hmark b h2).mpr (.inr hba),(1,.addr 0),(hnames _ _).mpr ⟨rfl,hba⟩,fun y hy => ?_⟩
      exact ((hnames y b).mp hy).1
    · refine .inl ⟨?_,fun x hx => hba ((hnames x b).mp hx).2⟩
      rw [Bool.eq_false_iff]
      intro hm
      have := (hmark b h2).mp hm
      omega
  · obtain rfl : i = 1 := by
      change i < 2 at hi
      by_contra hne
      obtain rfl : i = 0 := by omega
      exact ht (tiny_unused a bits)
    have hk : (shortFile a).nblocks = 1 := by
      change ((512 : UInt32).toNat+(BSIZE-1))/BSIZE = 1
      decide
    rw [tiny_dinode, hk]
    have h1 : place ⟨0,by decide⟩ = .addr 0 := rfl
    refine ⟨fun n => ?_,?_,by decide⟩
    · have hn : (1,place n) = (1,Pos.addr 0) ↔ n.val < 1 := by
        rw [Prod.mk.injEq, ← h1]
        refine ⟨fun h => ?_,fun h => ⟨rfl,congrArg place (Fin.ext (by simpa using h))⟩⟩
        rw [place_inj h.2]
        decide
      rw [hrefs]
      by_cases hlt : n.val < 1
      · rw [if_pos (hn.mpr hlt)]
        omega
      · rw [if_neg (fun h => hlt (hn.mp h))]
        omega
    · rw [hrefs, if_neg (by decide)]
      decide

/-- The file on the small disk has no links: its last `iput` frees its blocks. -/
def dropFile : List Op := [.iget 1, .ilock ⟨0,by decide⟩, .iput ⟨0,by decide⟩]

theorem blocks_owned_drop : ∃ s, Reach tiny (booted (tinyDisk 4 31)) s ∧
    marked tiny s.store.disk 4 = false ∧ Ownership tiny s.store.disk := by
  have hrun : ∃ s, (booted (tinyDisk 4 31)).execute tiny dropFile = some s ∧
      marked tiny s.store.disk 4 = false := by
    have h : ((booted (tinyDisk 4 31)).execute tiny dropFile).any
        (fun s => !marked tiny s.store.disk 4) = true := by decide +kernel
    rw [Option.any_eq_true] at h
    simpa using h
  obtain ⟨s,hs,hm⟩ := hrun
  have hreach := reach_execute .start dropFile hs
  have hown := tiny_owned (a := 4) (by decide) (by decide) 31 (by decide +kernel)
  have hin : InData tiny (tinyDisk 4 31) := by
    rintro x b ⟨hb,rfl⟩
    rw [tiny_refs (by decide)] at hb ⊢
    split at hb
    · next hx =>
      rw [if_pos hx]
      decide
    · exact absurd rfl hb
  have hend := @blocks_owned tiny tiny_ok (booted (tinyDisk 4 31)) s hown hin (booted_coherent _ _)
    hreach
  exact ⟨s,hreach,hm,hend.1.1⟩

/-- A file that names a metadata block: the blocks are owned, but freeing the file
clears the bit of the metadata block. -/
theorem stray_slot_frees_metadata : ¬∀ (sb : Super) (s₀ s : Sys), sb.Ok →
    Ownership sb s₀.store.disk → Coherent sb s₀ → Reach sb s₀ s → Ownership sb s.store.disk := by
  intro hall
  have hown := tiny_owned (a := 2) (by decide) (by decide) 15 (by decide +kernel)
  have h : ((booted (tinyDisk 2 15)).execute tiny dropFile).any
      (fun s => !marked tiny s.store.disk 2) = true := by decide +kernel
  rw [Option.any_eq_true] at h
  obtain ⟨s,hs,hm⟩ := h
  have hend := hall tiny _ s tiny_ok hown (booted_coherent _ _) (reach_execute .start dropFile hs)
  have hbit := hend.metadata 2 (by decide)
  rw [hbit] at hm
  cases hm

end Xv6.Fs
