import Mathlib.Tactic

/-!
# Stores through a pointer

The bytes that a piece of code stores through a machine pointer, as a list of
addresses with their values. Addresses wrap as machine words do; the rules say that
a trace stays within the first bytes behind a pointer, and what follows for the
numbers behind the addresses when the range does not wrap.
-/

set_option autoImplicit false

namespace Xv6.Stores

variable {w : ℕ}

abbrev Trace (w : ℕ) := List (BitVec w × UInt8)

def bytesAt (p : BitVec w) : List UInt8 → Trace w
  | [] => []
  | b::bs => (p, b)::bytesAt (p+1) bs

/-- The low `n` bytes of a number, lowest first. -/
def leBytes : ℕ → ℕ → List UInt8
  | 0, _ => []
  | n+1, v => UInt8.ofNat v::leBytes n (v/256)

theorem leBytes_length (n v : ℕ) : (leBytes n v).length = n := by
  induction n generalizing v with
  | zero => rfl
  | succ n ih => rw [leBytes, List.length_cons, ih]

/-- Every store is to one of the `n` bytes at the pointer. -/
def Within (p : BitVec w) (n : ℕ) (tr : Trace w) : Prop :=
  ∀ s ∈ tr, ∃ k < n, s.1 = p+BitVec.ofNat w k

theorem Within.nil (p : BitVec w) (n : ℕ) : Within p n [] := nofun

theorem Within.append {p : BitVec w} {n : ℕ} {a b : Trace w} (ha : Within p n a)
    (hb : Within p n b) : Within p n (a++b) := by
  intro s hs
  obtain hs | hs := List.mem_append.1 hs
  · exact ha s hs
  · exact hb s hs

theorem Within.mono {p : BitVec w} {n m : ℕ} {a : Trace w} (ha : Within p n a) (h : n ≤ m) :
    Within p m a := by
  intro s hs
  obtain ⟨k,hk,he⟩ := ha s hs
  exact ⟨k,by omega,he⟩

theorem Within.shift {p : BitVec w} {i n m : ℕ} {a : Trace w}
    (ha : Within (p+BitVec.ofNat w i) n a) (h : i+n ≤ m) : Within p m a := by
  intro s hs
  obtain ⟨k,hk,he⟩ := ha s hs
  refine ⟨i+k,by omega,?_⟩
  rw [he, BitVec.ofNat_add, BitVec.add_assoc]

theorem bytesAt_within (p : BitVec w) (bs : List UInt8) : Within p bs.length (bytesAt p bs) := by
  induction bs generalizing p with
  | nil => exact Within.nil p 0
  | cons b bs ih =>
    intro s hs
    obtain rfl | hs := List.mem_cons.1 hs
    · exact ⟨0,by simp,by simp⟩
    · exact (ih (p+1)).shift (i := 1) (m := bs.length+1) (by omega) s hs

theorem Within.lt {p : BitVec w} {n bound : ℕ} {tr : Trace w} (h : Within p n tr)
    (hb : p.toNat+n ≤ bound) (hw : bound < 2^w) : ∀ s ∈ tr, s.1.toNat < bound := by
  intro s hs
  obtain ⟨k,hk,he⟩ := h s hs
  rw [he, BitVec.toNat_add, BitVec.toNat_ofNat, Nat.mod_eq_of_lt (a := k) (by omega),
    Nat.mod_eq_of_lt (by omega)]
  omega

end Xv6.Stores
