import Mathlib.Tactic

/-!
# printint and atoi

`printint` of console.c and of printf.c store the digits of an unsigned number from the last
one on in a buffer of 16 bytes, add the sign and emit the buffer backwards. In base 10 both
emit the decimal numeral of every int, and `atoi` reads the numeral of a number that is not
negative back.
-/

set_option autoImplicit false

namespace Xv6.Decimal

/-- `sizeof(buf)`. -/
def bufSize : ℕ := 16

/-- The `do`-`while` over the digits of `x`, with `room` bytes left in the buffer; `none` where
it would store behind the buffer or read behind the table of digits. -/
def digitLoop (digits : List Char) (base : BitVec 32) : ℕ → BitVec 32 → Option (List Char)
  | 0, _ => none
  | room+1, x => do
    let c ← digits[(x%base).toNat]?
    if x/base ≠ 0 then
      return c::(← digitLoop digits base room (x/base))
    else return [c]

/-- `buf[i++] = '-'` when `neg`. -/
def pushSign (neg : Bool) (buf : List Char) : Option (List Char) :=
  if neg then if buf.length < bufSize then some (buf++['-']) else none else some buf

/-- The characters emitted for `xx`, with `digits` as the table. -/
def emitted (digits : List Char) (xx base : BitVec 32) (sign : Bool) : Option (List Char) := do
  let neg := sign && decide (xx.toInt < 0)
  let buf ← digitLoop digits base bufSize (if neg then -xx else xx)
  return (← pushSign neg buf).reverse

/-- `printint` of console.c: the characters given to `consputc`. -/
def consolePrintint (xx base : BitVec 32) (sign : Bool) : Option (List Char) :=
  emitted "0123456789abcdef".toList xx base sign

/-- `printint` of printf.c: the characters given to `putc`. -/
def printint (xx base : BitVec 32) (sgn : Bool) : Option (List Char) :=
  emitted "0123456789ABCDEF".toList xx base sgn

def isDigit (c : Char) : Prop := '0' ≤ c ∧ c ≤ '9'

instance : DecidablePred isDigit := fun _ => inferInstanceAs (Decidable (_ ∧ _))

/-- `atoi` from `n` on; `none` where it would read behind the characters given. -/
def atoiLoop (n : BitVec 32) : List Char → Option (BitVec 32)
  | [] => none
  | c::s =>
    if isDigit c then
      atoiLoop (n*10+BitVec.ofNat 32 c.toNat-BitVec.ofNat 32 '0'.toNat) s
    else some n

def atoi (s : List Char) : Option (BitVec 32) := atoiLoop 0 s

def numeral (v : ℤ) : List Char := v.repr.toList

theorem numeral_natCast (n : ℕ) : numeral n = Nat.toDigits 10 n := by
  rw [numeral, Int.repr_eq_if, if_pos (by omega), Int.toNat_natCast, Nat.toList_repr]

theorem numeral_neg {v : ℤ} (h : v < 0) : numeral v = '-'::Nat.toDigits 10 (-v).toNat := by
  rw [numeral, Int.repr_eq_if, if_neg (by omega), String.toList_append, Nat.toList_repr]
  rfl

theorem length_toDigits (x : BitVec 32) : (Nat.toDigits 10 x.toNat).length < bufSize := by
  have hx := x.isLt
  have hle := (Nat.length_toDigits_le_iff (b := 10) (n := x.toNat) (k := 10) (by omega)
    (by omega)).mpr (by omega)
  unfold bufSize
  omega

section
variable {digits : List Char} (hd : ∀ d < 10, digits[d]? = some d.digitChar)
include hd

theorem digitLoop_step (room : ℕ) (x : BitVec 32) :
    digitLoop digits 10 (room+1) x =
      if x.toNat < 10 then some [(x.toNat%10).digitChar]
      else (digitLoop digits 10 room (x/10)).map ((x.toNat%10).digitChar::·) := by
  have hdigit : digits[(x%10).toNat]? = some (x.toNat%10).digitChar :=
    hd _ (Nat.mod_lt _ (by decide))
  have hquot : x/10 ≠ 0 ↔ ¬ x.toNat < 10 := by
    rw [Ne, ← BitVec.toNat_inj, BitVec.toNat_udiv]
    change ¬ x.toNat/10 = 0 ↔ _
    omega
  rw [digitLoop, hdigit]
  by_cases hx : x.toNat < 10
  · rw [if_pos hx]
    exact if_neg (fun hne => hquot.mp hne hx)
  · rw [if_neg hx]
    refine (if_pos (hquot.mpr hx)).trans ?_
    cases digitLoop digits 10 room (x/10) <;> rfl

theorem digitLoop_decimal (room : ℕ) : ∀ x : BitVec 32, x.toNat < 10^(room+1) →
    digitLoop digits 10 (room+1) x = some (Nat.toDigits 10 x.toNat).reverse := by
  induction room with
  | zero =>
    intro x hx
    rw [digitLoop_step hd, if_pos (by omega), Nat.mod_eq_of_lt (by omega),
      Nat.toDigits_of_lt_base (by omega)]
    rfl
  | succ room ih =>
    intro x hx
    have hquot : (x/10).toNat = x.toNat/10 := BitVec.toNat_udiv
    rw [digitLoop_step hd, Nat.toDigits_eq_if (by omega)]
    by_cases hlt : x.toNat < 10
    · rw [if_pos hlt, if_pos hlt, Nat.mod_eq_of_lt hlt]
      rfl
    · rw [if_neg hlt, if_neg hlt, ih _ (by rw [hquot]; omega), hquot, List.reverse_append]
      rfl

theorem emitted_decimal (xx : BitVec 32) (sign : Bool) :
    emitted digits xx 10 sign =
      if sign = true ∧ xx.toInt < 0 then some ('-'::Nat.toDigits 10 (-xx).toNat)
      else some (Nat.toDigits 10 xx.toNat) := by
  have hloop : ∀ x : BitVec 32, digitLoop digits 10 bufSize x =
      some (Nat.toDigits 10 x.toNat).reverse := by
    intro x
    have hx := x.isLt
    exact digitLoop_decimal hd 15 x (by omega)
  by_cases hneg : sign = true ∧ xx.toInt < 0
  · have hn : (sign && decide (xx.toInt < 0)) = true := by simp [hneg]
    have hlen := length_toDigits (-xx)
    rw [if_pos hneg]
    simp only [emitted, hn, if_true, hloop, pushSign, List.length_reverse, hlen, Option.bind_eq_bind,
      Option.bind_some, List.reverse_append, List.reverse_reverse]
    rfl
  · have hn : (sign && decide (xx.toInt < 0)) = false := by simpa using hneg
    rw [if_neg hneg]
    simp only [emitted, hn, Bool.false_eq_true, if_false, hloop, pushSign, Option.bind_eq_bind,
      Option.bind_some, List.reverse_reverse]
    rfl

end

theorem toNat_of_nonneg {v : BitVec 32} (h : 0 ≤ v.toInt) : v.toInt = v.toNat := by
  apply BitVec.toInt_eq_toNat_of_msb
  rw [BitVec.msb_eq_toInt]
  exact decide_eq_false (by omega)

theorem toNat_neg_of_neg {v : BitVec 32} (h : v.toInt < 0) : (-v).toNat = (-v.toInt).toNat := by
  have hv := v.isLt
  rw [BitVec.toInt_eq_toNat_cond] at h ⊢
  rw [BitVec.toNat_neg]
  split at h <;> omega

theorem emitted_numeral {digits : List Char} (hd : ∀ d < 10, digits[d]? = some d.digitChar)
    (v : BitVec 32) : emitted digits v 10 true = some (numeral v.toInt) := by
  rw [emitted_decimal hd]
  by_cases hneg : v.toInt < 0
  · rw [if_pos ⟨rfl,hneg⟩, numeral_neg hneg, toNat_neg_of_neg hneg]
  · rw [if_neg (fun hc => hneg hc.2), toNat_of_nonneg (by omega), numeral_natCast]

theorem isDigit_digitChar {d : ℕ} (h : d < 10) : isDigit d.digitChar := by
  interval_cases d <;> decide

theorem atoiLoop_digit {d : ℕ} (h : d < 10) (n : ℕ) (s : List Char) :
    atoiLoop (BitVec.ofNat 32 n) (d.digitChar::s) = atoiLoop (BitVec.ofNat 32 (10*n+d)) s := by
  rw [atoiLoop, if_pos (isDigit_digitChar h), Nat.toNat_digitChar_of_lt_ten h]
  congr 1
  rw [BitVec.ofNat_add, BitVec.ofNat_add, BitVec.ofNat_mul, BitVec.mul_comm]
  change _+(48+_)-48 = _
  bv_omega

theorem atoiLoop_digits (n : ℕ) : ∀ s : List Char,
    atoiLoop 0 (Nat.toDigits 10 n++s) = atoiLoop (BitVec.ofNat 32 n) s := by
  induction n using Nat.strong_induction_on with
  | _ n ih =>
    intro s
    rw [Nat.toDigits_eq_if (by omega)]
    by_cases hn : n < 10
    · rw [if_pos hn]
      have hd := atoiLoop_digit hn 0 s
      rwa [Nat.mul_zero, Nat.zero_add] at hd
    · rw [if_neg hn, List.append_assoc, ih (n/10) (by omega), List.singleton_append,
        atoiLoop_digit (Nat.mod_lt n (by omega)), Nat.div_add_mod]

theorem atoi_numeral {v : BitVec 32} (hv : 0 ≤ v.toInt) {c : Char} (hc : ¬ isDigit c)
    (s : List Char) : atoi (numeral v.toInt++c::s) = some v := by
  rw [atoi, toNat_of_nonneg hv, numeral_natCast, atoiLoop_digits, atoiLoop, if_neg hc,
    BitVec.ofNat_toNat, BitVec.setWidth_eq]

/-- Every int is printed as its numeral, by both functions and inside the buffer, and `atoi`
reads the numerals of the ints that are not negative. -/
theorem printint_atoi (v : BitVec 32) :
    consolePrintint v 10 true = some (numeral v.toInt) ∧
    printint v 10 true = some (numeral v.toInt) ∧
    (∀ sign, consolePrintint v 10 sign = printint v 10 sign) ∧
    (0 ≤ v.toInt → ∀ c, ¬ isDigit c → ∀ s, atoi (numeral v.toInt++c::s) = some v) := by
  have hlower : ∀ d < 10, "0123456789abcdef".toList[d]? = some d.digitChar := by decide
  have hupper : ∀ d < 10, "0123456789ABCDEF".toList[d]? = some d.digitChar := by decide
  refine ⟨emitted_numeral hlower v,emitted_numeral hupper v,?_,?_⟩
  · intro sign
    exact (emitted_decimal hlower v sign).trans (emitted_decimal hupper v sign).symm
  · intro hv c hc s
    exact atoi_numeral hv hc s

/-- The smallest int, and a numeral that ends at a newline. -/
theorem printint_atoi_ends :
    printint (BitVec.intMin 32) 10 true = some (numeral (-2147483648)) ∧
    atoi (numeral 4096++['\n']) = some 4096 :=
  ⟨(printint_atoi (BitVec.intMin 32)).2.1,
    (printint_atoi 4096).2.2.2 (by decide) '\n' (by decide) []⟩

end Xv6.Decimal
