import Mathlib.Tactic

/-!
# Pages and page-table entries

The constants of `param.h`, `memlayout.h` and `mmu.h` that the memory subsystem
uses, and the page-table entry as the 32-bit word the hardware reads. A flag
test is a bit of the word and the frame is its upper twenty bits, so an update
of the flags never moves the frame. `kernEnd` and `kernData` are the physical
addresses of the linker symbols `end` and `data` of the built kernel.
-/

set_option autoImplicit false

namespace Xv6.Mmu

def PGSIZE : ℕ := 4096
def NPDENTRIES : ℕ := 1024
def KERNBASE : ℕ := 0x80000000
def EXTMEM : ℕ := 0x100000
def PHYSTOP : ℕ := 0xE000000
def DEVSPACE : ℕ := 0xFE000000
def KERNLINK : ℕ := KERNBASE+EXTMEM
def NPROC : ℕ := 64
def kernEnd : ℕ := 0x1234e4
def kernData : ℕ := 0x108000

abbrev Pte := BitVec 32

def PTE_P : Pte := 0x001#32
def PTE_W : Pte := 0x002#32
def PTE_U : Pte := 0x004#32
def PTE_COW : Pte := 0x400#32

def pteAddr (p : Pte) : Pte := p &&& ~~~0xFFF#32
def pteFlags (p : Pte) : Pte := p &&& 0xFFF#32

/-- `PTE_ADDR(pte) >> PGSHIFT`, the index into `pg_refcount`. -/
def pteFrame (p : Pte) : ℕ := (pteAddr p >>> 12).toNat

def has (p flag : Pte) : Bool := p &&& flag != 0#32

def physAddr (f : ℕ) : Pte := BitVec.ofNat 32 (f*PGSIZE)

def PDX (va : ℕ) : ℕ := va/2^22%1024
def PTX (va : ℕ) : ℕ := va/2^12%1024
def PGADDR (d t o : ℕ) : ℕ := (d*2^22+t*2^12+o)%2^32
def PGROUNDUP (sz : ℕ) : ℕ := (sz+PGSIZE-1)/PGSIZE*PGSIZE
def PGROUNDDOWN (a : ℕ) : ℕ := a/PGSIZE*PGSIZE

/-- The number of user pages of an address space. -/
def UPAGES : ℕ := KERNBASE/PGSIZE

theorem UPAGES_eq : UPAGES = 524288 := rfl

theorem has_twoPow (p : Pte) (i : ℕ) (hi : i < 32) :
    has p (BitVec.twoPow 32 i) = p.getLsbD i := by
  have hne : BitVec.twoPow 32 i ≠ 0#32 := by
    intro h
    have := congrArg (fun x => BitVec.getLsbD x i) h
    simp [hi] at this
  unfold has
  rw [BitVec.and_twoPow]
  cases h : p.getLsbD i
  · simp
  · simpa using hne

theorem has_P (p : Pte) : has p PTE_P = p.getLsbD 0 := has_twoPow p 0 (by decide)
theorem has_W (p : Pte) : has p PTE_W = p.getLsbD 1 := has_twoPow p 1 (by decide)
theorem has_U (p : Pte) : has p PTE_U = p.getLsbD 2 := has_twoPow p 2 (by decide)

theorem pteFrame_eq (p : Pte) : pteFrame p = p.toNat/4096 := by
  have h : pteAddr p >>> 12 = p >>> 12 := by
    apply BitVec.eq_of_getLsbD_eq
    intro i hi
    have hm : BitVec.getLsbD (~~~0xFFF#32) (12+i) = decide (12+i < 32) := by
      rw [BitVec.getLsbD_not]
      have : BitVec.getLsbD (0xFFF#32) (12+i) = false := by
        rw [BitVec.getLsbD_ofNat]
        have : Nat.testBit 0xFFF (12+i) = false :=
          Nat.testBit_lt_two_pow (lt_of_lt_of_le (by decide : 0xFFF < 2^12)
            (Nat.pow_le_pow_right (by decide) (by omega)))
        simp [this]
      simp [this]
    rw [BitVec.getLsbD_ushiftRight, BitVec.getLsbD_ushiftRight, pteAddr, BitVec.getLsbD_and, hm]
    by_cases hlt : 12+i < 32
    · simp [hlt]
    · simp [BitVec.getLsbD_of_ge p (12+i) (by omega)]
  rw [pteFrame, h, BitVec.toNat_ushiftRight, Nat.shiftRight_eq_div_pow]

theorem pteFrame_congr (p q : Pte) (h : ∀ i, 12 ≤ i → p.getLsbD i = q.getLsbD i) :
    pteFrame p = pteFrame q := by
  rw [pteFrame_eq, pteFrame_eq]
  apply Nat.eq_of_testBit_eq
  intro i
  have := h (12+i) (by omega)
  simp only [BitVec.getLsbD] at this
  rw [show (4096:ℕ) = 2^12 by norm_num, Nat.testBit_div_two_pow, Nat.testBit_div_two_pow,
    Nat.add_comm]
  exact this

theorem pteFrame_physAddr (f : ℕ) (hf : f < 2^20) : pteFrame (physAddr f) = f := by
  rw [pteFrame_eq, physAddr, BitVec.toNat_ofNat]
  unfold PGSIZE
  omega

/-- The flag bits live in the low twelve bits of the word. -/
def LowBits (perm : Pte) : Prop := ∀ i, 12 ≤ i → perm.getLsbD i = false

theorem lowBits_of_lt (perm : Pte) (h : perm.toNat < 4096) : LowBits perm := by
  intro i hi
  apply Nat.testBit_lt_two_pow
  exact lt_of_lt_of_le h (by
    calc 4096 = 2^12 := by norm_num
      _ ≤ 2^i := Nat.pow_le_pow_right (by decide) hi)

theorem lowBits_flags (p : Pte) : LowBits (pteFlags p) := by
  intro i hi
  rw [pteFlags, BitVec.getLsbD_and, lowBits_of_lt 0xFFF#32 (by decide) i hi, Bool.and_false]

theorem physAddr_low (f : ℕ) (i : ℕ) (hi : i < 12) : (physAddr f).getLsbD i = false := by
  rw [physAddr, BitVec.getLsbD_ofNat]
  have : (f*PGSIZE).testBit i = false := by
    rw [show PGSIZE = 2^12 from rfl, Nat.testBit_mul_two_pow]
    simp [show ¬ 12 ≤ i by omega]
  simp [this]

theorem pteFrame_entry (f : ℕ) (hf : f < 2^20) (perm : Pte) (hp : LowBits perm) :
    pteFrame (physAddr f ||| perm ||| PTE_P) = f := by
  rw [pteFrame_congr _ (physAddr f), pteFrame_physAddr f hf]
  intro i hi
  simp [hp i hi, lowBits_of_lt PTE_P (by decide) i hi]

theorem or_P (p : Pte) : has (p ||| PTE_P) PTE_P = true := by
  rw [has_P, BitVec.getLsbD_or, show PTE_P.getLsbD 0 = true from rfl, Bool.or_true]

theorem entry_P (f : ℕ) (perm : Pte) : has (physAddr f ||| perm ||| PTE_P) PTE_P = true :=
  or_P _

theorem entry_W (f : ℕ) (perm : Pte) :
    has (physAddr f ||| perm ||| PTE_P) PTE_W = has perm PTE_W := by
  rw [has_W, has_W, BitVec.getLsbD_or, BitVec.getLsbD_or, physAddr_low f 1 (by decide),
    show PTE_P.getLsbD 1 = false from rfl, Bool.false_or, Bool.or_false]

theorem entry_U (f : ℕ) (perm : Pte) :
    has (physAddr f ||| perm ||| PTE_P) PTE_U = has perm PTE_U := by
  rw [has_U, has_U, BitVec.getLsbD_or, BitVec.getLsbD_or, physAddr_low f 2 (by decide),
    show PTE_P.getLsbD 2 = false from rfl, Bool.false_or, Bool.or_false]

theorem addr_or_flags (p : Pte) : pteAddr p ||| pteFlags p = p := by
  apply BitVec.eq_of_getLsbD_eq
  intro i hi
  rw [pteAddr, pteFlags, BitVec.getLsbD_or, BitVec.getLsbD_and, BitVec.getLsbD_and,
    BitVec.getLsbD_not]
  cases BitVec.getLsbD 0xFFF#32 i <;> simp [hi]

theorem addr_flags_entry (p : Pte) (hp : has p PTE_P = true) :
    pteAddr p ||| pteFlags p ||| PTE_P = p := by
  rw [addr_or_flags]
  apply BitVec.eq_of_getLsbD_eq
  intro i hi
  rw [BitVec.getLsbD_or]
  by_cases h0 : i = 0
  · subst h0
    rw [← has_P, hp, Bool.true_or]
  · have : PTE_P.getLsbD i = false := by
      rw [show PTE_P = BitVec.twoPow 32 0 from rfl, BitVec.getLsbD_twoPow]
      simp [Ne.symm h0]
    rw [this, Bool.or_false]

theorem pteFrame_or (p m : Pte) (hm : LowBits m) : pteFrame (p ||| m) = pteFrame p := by
  apply pteFrame_congr
  intro i hi
  rw [BitVec.getLsbD_or, hm i hi, Bool.or_false]

theorem pteFrame_clear (p m : Pte) (hm : LowBits m) : pteFrame (p &&& ~~~m) = pteFrame p := by
  apply pteFrame_congr
  intro i hi
  rw [BitVec.getLsbD_and, BitVec.getLsbD_not, hm i hi]
  by_cases h : i < 32
  · simp [h]
  · simp [BitVec.getLsbD_of_ge p i (by omega)]

/-- `*pte &= ~PTE_W`, the write protection of `copyuvmcow`. -/
def protect (p : Pte) : Pte := p &&& ~~~PTE_W

@[simp] theorem protect_frame (p : Pte) : pteFrame (protect p) = pteFrame p :=
  pteFrame_clear p PTE_W (lowBits_of_lt _ (by decide))

theorem protect_bit (p : Pte) (i : ℕ) (hi : i ≠ 1) : (protect p).getLsbD i = p.getLsbD i := by
  rw [protect, BitVec.getLsbD_and, BitVec.getLsbD_not,
    show PTE_W = BitVec.twoPow 32 1 from rfl, BitVec.getLsbD_twoPow]
  by_cases h : i < 32
  · simp [h, Ne.symm hi]
  · simp [BitVec.getLsbD_of_ge p i (by omega)]

@[simp] theorem protect_P (p : Pte) : has (protect p) PTE_P = has p PTE_P := by
  rw [has_P, has_P, protect_bit p 0 (by decide)]

@[simp] theorem protect_U (p : Pte) : has (protect p) PTE_U = has p PTE_U := by
  rw [has_U, has_U, protect_bit p 2 (by decide)]

@[simp] theorem protect_W (p : Pte) : has (protect p) PTE_W = false := by
  rw [has_W, protect, BitVec.getLsbD_and, BitVec.getLsbD_not,
    show PTE_W.getLsbD 1 = true from rfl]
  simp

/-- `*pte |= PTE_COW`. -/
def markCow (p : Pte) : Pte := p ||| PTE_COW

@[simp] theorem markCow_frame (p : Pte) : pteFrame (markCow p) = pteFrame p :=
  pteFrame_or p PTE_COW (lowBits_of_lt _ (by decide))

theorem markCow_bit (p : Pte) (i : ℕ) (hi : i ≠ 10) : (markCow p).getLsbD i = p.getLsbD i := by
  rw [markCow, BitVec.getLsbD_or, show PTE_COW = BitVec.twoPow 32 10 from rfl,
    BitVec.getLsbD_twoPow]
  simp [Ne.symm hi]

@[simp] theorem markCow_P (p : Pte) : has (markCow p) PTE_P = has p PTE_P := by
  rw [has_P, has_P, markCow_bit p 0 (by decide)]

@[simp] theorem markCow_W (p : Pte) : has (markCow p) PTE_W = has p PTE_W := by
  rw [has_W, has_W, markCow_bit p 1 (by decide)]

@[simp] theorem markCow_U (p : Pte) : has (markCow p) PTE_U = has p PTE_U := by
  rw [has_U, has_U, markCow_bit p 2 (by decide)]

/-- `*pte &= ~PTE_COW; *pte |= PTE_W`, the reuse in place of `pagefault`. -/
def reclaim (p : Pte) : Pte := (p &&& ~~~PTE_COW) ||| PTE_W

@[simp] theorem reclaim_frame (p : Pte) : pteFrame (reclaim p) = pteFrame p := by
  rw [reclaim, pteFrame_or _ _ (lowBits_of_lt _ (by decide)),
    pteFrame_clear _ _ (lowBits_of_lt _ (by decide))]

theorem reclaim_bit (p : Pte) (i : ℕ) (h1 : i ≠ 1) (h10 : i ≠ 10) :
    (reclaim p).getLsbD i = p.getLsbD i := by
  rw [reclaim, BitVec.getLsbD_or, BitVec.getLsbD_and, BitVec.getLsbD_not,
    show PTE_COW = BitVec.twoPow 32 10 from rfl, show PTE_W = BitVec.twoPow 32 1 from rfl,
    BitVec.getLsbD_twoPow, BitVec.getLsbD_twoPow]
  by_cases h : i < 32
  · simp [h, Ne.symm h1, Ne.symm h10]
  · simp [BitVec.getLsbD_of_ge p i (by omega), Ne.symm h1]

@[simp] theorem reclaim_P (p : Pte) : has (reclaim p) PTE_P = has p PTE_P := by
  rw [has_P, has_P, reclaim_bit p 0 (by decide) (by decide)]

@[simp] theorem reclaim_U (p : Pte) : has (reclaim p) PTE_U = has p PTE_U := by
  rw [has_U, has_U, reclaim_bit p 2 (by decide) (by decide)]

@[simp] theorem reclaim_W (p : Pte) : has (reclaim p) PTE_W = true := by
  rw [has_W, reclaim, BitVec.getLsbD_or, show PTE_W.getLsbD 1 = true from rfl, Bool.or_true]

/-- `*pte &= ~PTE_U`, the guard page of `exec`. -/
def hideUser (p : Pte) : Pte := p &&& ~~~PTE_U

@[simp] theorem hideUser_frame (p : Pte) : pteFrame (hideUser p) = pteFrame p :=
  pteFrame_clear p PTE_U (lowBits_of_lt _ (by decide))

theorem hideUser_bit (p : Pte) (i : ℕ) (hi : i ≠ 2) : (hideUser p).getLsbD i = p.getLsbD i := by
  rw [hideUser, BitVec.getLsbD_and, BitVec.getLsbD_not,
    show PTE_U = BitVec.twoPow 32 2 from rfl, BitVec.getLsbD_twoPow]
  by_cases h : i < 32
  · simp [h, Ne.symm hi]
  · simp [BitVec.getLsbD_of_ge p i (by omega)]

@[simp] theorem hideUser_P (p : Pte) : has (hideUser p) PTE_P = has p PTE_P := by
  rw [has_P, has_P, hideUser_bit p 0 (by decide)]

@[simp] theorem hideUser_W (p : Pte) : has (hideUser p) PTE_W = has p PTE_W := by
  rw [has_W, has_W, hideUser_bit p 1 (by decide)]

@[simp] theorem hideUser_U (p : Pte) : has (hideUser p) PTE_U = false := by
  rw [has_U, hideUser, BitVec.getLsbD_and, BitVec.getLsbD_not, show PTE_U.getLsbD 2 = true from rfl,
    Bool.not_true, Bool.and_false, Bool.and_false]

@[simp] theorem zero_P : has 0#32 PTE_P = false := rfl

end Xv6.Mmu
