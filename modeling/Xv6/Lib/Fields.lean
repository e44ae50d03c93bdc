import Mathlib.Tactic

/-!
# Fields of a byte array

Numbers stored lowest byte first in an array of bytes, and single bits of it. A
field is read with `get`; a reader can check a layout by the offsets alone. The rules
say what a reader sees after a store: the number stored at its own place, and what was
there before at a place apart from it.
-/

set_option autoImplicit false

namespace Xv6.Fields

/-- Byte `k` of a number. -/
def byteOf (v k : ℕ) : UInt8 := UInt8.ofNat (v/256^k)

/-- The number in the `w` bytes from `off` on. -/
def get (p : ℕ → UInt8) : ℕ → ℕ → ℕ
  | _, 0 => 0
  | off, w+1 => (p off).toNat+256*get p (off+1) w

def put (p : ℕ → UInt8) (off w v : ℕ) : ℕ → UInt8 :=
  fun i => if off ≤ i ∧ i < off+w then byteOf v (i-off) else p i

theorem get_congr {p q : ℕ → UInt8} {off off' w : ℕ} (h : ∀ k < w, p (off+k) = q (off'+k)) :
    get p off w = get q off' w := by
  induction w generalizing off off' with
  | zero => rfl
  | succ w ih =>
    have h0 := h 0 (by omega)
    rw [Nat.add_zero, Nat.add_zero] at h0
    rw [get, get, h0, ih (fun k hk => ?_)]
    have := h (k+1) (by omega)
    rwa [← Nat.add_assoc, ← Nat.add_assoc, Nat.add_right_comm, Nat.add_right_comm off'] at this

theorem get_bytes {p : ℕ → UInt8} {off w v : ℕ} (h : ∀ k < w, p (off+k) = byteOf v k) :
    get p off w = v%256^w := by
  induction w generalizing off v with
  | zero => rw [get, pow_zero, Nat.mod_one]
  | succ w ih =>
    have h0 : p off = UInt8.ofNat v := by
      have := h 0 (by omega)
      rwa [Nat.add_zero, byteOf, pow_zero, Nat.div_one] at this
    have hrest : get p (off+1) w = (v/256)%256^w := by
      apply ih
      intro k hk
      have := h (k+1) (by omega)
      rw [byteOf, pow_succ, Nat.mul_comm, ← Nat.div_div_eq_div_mul] at this
      rwa [Nat.add_assoc, Nat.add_comm 1 k]
    rw [get, hrest, h0, pow_succ, Nat.mul_comm (256^w) 256, Nat.mod_mul, UInt8.toNat_ofNat']

theorem get_put (p : ℕ → UInt8) (off w v : ℕ) : get (put p off w v) off w = v%256^w := by
  apply get_bytes
  intro k hk
  rw [put, if_pos ⟨by omega,by omega⟩, Nat.add_sub_cancel_left]

theorem get_put_apart (p : ℕ → UInt8) {off w off' w' : ℕ} (v : ℕ)
    (h : off'+w' ≤ off ∨ off+w ≤ off') : get (put p off w v) off' w' = get p off' w' := by
  apply get_congr
  intro k hk
  rw [put, if_neg (by omega)]

theorem get_zero (off w : ℕ) : get (fun _ => 0) off w = 0 := by
  induction w generalizing off with
  | zero => rfl
  | succ w ih => rw [get, ih]; rfl

/-- The mask `1 << (i % 8)`. -/
def mask (i : ℕ) : UInt8 := UInt8.ofBitVec (1#8 <<< (i%8))

def testBit (p : ℕ → UInt8) (i : ℕ) : Bool := p (i/8) &&& mask i != 0

def setBit (p : ℕ → UInt8) (i : ℕ) : ℕ → UInt8 :=
  Function.update p (i/8) (p (i/8) ||| mask i)

def clearBit (p : ℕ → UInt8) (i : ℕ) : ℕ → UInt8 :=
  Function.update p (i/8) (p (i/8) &&& ~~~mask i)

theorem mask_eq (i : ℕ) : (mask i).toBitVec = BitVec.twoPow 8 (i%8) := by
  rw [mask, BitVec.twoPow]

theorem mask_test (x : UInt8) (i : ℕ) : (x &&& mask i != 0) = x.toBitVec.getLsbD (i%8) := by
  have hlt : i%8 < 8 := Nat.mod_lt _ (by decide)
  rw [bne, ← Bool.not_not (x.toBitVec.getLsbD (i%8))]
  congr 1
  rw [Bool.eq_iff_iff, beq_iff_eq, ← UInt8.toBitVec_inj, UInt8.toBitVec_and,
    mask_eq, BitVec.and_twoPow]
  cases x.toBitVec.getLsbD (i%8) with
  | false => simp
  | true =>
    simp only [if_true, Bool.not_true, Bool.false_eq_true, iff_false]
    intro h
    have := congrArg (fun y => y.getLsbD (i%8)) h
    simp [BitVec.getLsbD_twoPow, hlt] at this

theorem testBit_eq (p : ℕ → UInt8) (i : ℕ) :
    testBit p i = (p (i/8)).toBitVec.getLsbD (i%8) := mask_test _ _

theorem mask_bit (i j : ℕ) : (mask i).toBitVec.getLsbD j = decide (j = i%8) := by
  have hi : i%8 < 8 := Nat.mod_lt _ (by decide)
  rw [mask_eq, BitVec.getLsbD_twoPow]
  simp [hi, eq_comm]

theorem testBit_set (p : ℕ → UInt8) (i j : ℕ) :
    testBit (setBit p i) j = if j = i then true else testBit p j := by
  rw [testBit_eq, testBit_eq, setBit]
  by_cases hd : j/8 = i/8
  · rw [hd, Function.update_self, UInt8.toBitVec_or, BitVec.getLsbD_or,
      mask_bit]
    by_cases h : j = i
    · simp [h]
    · have : j%8 ≠ i%8 := by omega
      simp [h, this]
  · rw [Function.update_of_ne hd, if_neg (fun h => hd (by rw [h]))]

theorem testBit_clear (p : ℕ → UInt8) (i j : ℕ) :
    testBit (clearBit p i) j = if j = i then false else testBit p j := by
  rw [testBit_eq, testBit_eq, clearBit]
  by_cases hd : j/8 = i/8
  · have hlt : j%8 < 8 := Nat.mod_lt _ (by decide)
    rw [hd, Function.update_self, UInt8.toBitVec_and, UInt8.toBitVec_not, BitVec.getLsbD_and,
      BitVec.getLsbD_not, mask_bit]
    by_cases h : j = i
    · simp [h]
    · have : j%8 ≠ i%8 := by omega
      simp [h, this, hlt]
  · rw [Function.update_of_ne hd, if_neg (fun h => hd (by rw [h]))]

end Xv6.Fields
