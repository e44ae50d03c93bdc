import Mathlib.Tactic

/-!
# memmove in the kernel and in the user library

The kernel's `memmove` copies downwards when the destination begins inside the source; the
one of the user library always copies upwards. A copy upwards that runs into its own output
repeats the bytes between the two pointers, so both functions leave the same memory unless
the destination begins behind the first byte of the source and before its end.
-/

set_option autoImplicit false

namespace Xv6.Move

abbrev Addr := BitVec 32

/-- `while(n-- > 0) *d++ = *s++;` -/
def copyUp (m : Addr → UInt8) (d s : Addr) : ℕ → Addr → UInt8
  | 0 => m
  | n+1 => copyUp (Function.update m d (m s)) (d+1) (s+1) n

/-- `while(n-- > 0) *--d = *--s;` -/
def copyDown (m : Addr → UInt8) (d s : Addr) : ℕ → Addr → UInt8
  | 0 => m
  | n+1 => copyDown (Function.update m (d-1) (m (s-1))) (d-1) (s-1) n

/-- `memmove` of string.c, where `n` is unsigned: the memory it leaves and what it returns. -/
def memmove (m : Addr → UInt8) (dst src : Addr) (n : BitVec 32) : (Addr → UInt8) × Addr :=
  (if src < dst ∧ src+n > dst then copyDown m (dst+n) (src+n) n.toNat
    else copyUp m dst src n.toNat, dst)

/-- `memmove` of ulib.c, where `n` is signed. -/
def ulibMemmove (m : Addr → UInt8) (vdst vsrc : Addr) (n : BitVec 32) :
    (Addr → UInt8) × Addr :=
  (copyUp m vdst vsrc n.toInt.toNat, vdst)

/-- The `n` bytes from `dst` on are byte `f i` behind `src`, the rest is unchanged. -/
def filled (m : Addr → UInt8) (dst src : Addr) (n : ℕ) (f : ℕ → ℕ) : Addr → UInt8 :=
  fun a => if (a-dst).toNat < n then m (src+BitVec.ofNat 32 (f (a-dst).toNat)) else m a

/-- The bytes of `src` moved to `dst`. -/
def moved (m : Addr → UInt8) (dst src : Addr) (n : ℕ) : Addr → UInt8 := filled m dst src n id

variable (m : Addr → UInt8)

theorem filled_congr {dst src : Addr} {n : ℕ} {f g : ℕ → ℕ} (h : ∀ i < n, f i = g i) :
    filled m dst src n f = filled m dst src n g := by
  funext a
  unfold filled
  by_cases ha : (a-dst).toNat < n
  · rw [if_pos ha, if_pos ha, h _ ha]
  · rw [if_neg ha, if_neg ha]

theorem offset_next {a d : Addr} (h : a ≠ d) : (a-d).toNat = (a-(d+1)).toNat+1 := by
  bv_omega

theorem read_behind (d s : Addr) (o : ℕ) :
    Function.update m d (m s) (s+1+BitVec.ofNat 32 (o%(d-s).toNat)) =
      m (s+BitVec.ofNat 32 ((o+1)%(d-s).toNat)) := by
  rcases Nat.eq_zero_or_pos (d-s).toNat with hgap | hgap
  · have hd : d = s := by bv_omega
    subst hd
    rw [Function.update_eq_self, hgap, Nat.mod_zero, Nat.mod_zero, BitVec.ofNat_add]
    congr 1
    bv_omega
  · have hlt := Nat.mod_lt o hgap
    by_cases hend : o%(d-s).toNat+1 = (d-s).toNat
    · have hz : (o+1)%(d-s).toNat = 0 := by rw [← Nat.mod_add_mod, hend, Nat.mod_self]
      have hd : s+1+BitVec.ofNat 32 (o%(d-s).toNat) = d := by bv_omega
      rw [hz, hd, Function.update_self]
      congr 1
      bv_omega
    · have hs : (o+1)%(d-s).toNat = o%(d-s).toNat+1 := by
        rw [← Nat.mod_add_mod]
        exact Nat.mod_eq_of_lt (by omega)
      have hd : s+1+BitVec.ofNat 32 (o%(d-s).toNat) ≠ d := by bv_omega
      rw [hs, Function.update_of_ne hd, BitVec.ofNat_add]
      congr 1
      bv_omega

/-- A copy upwards repeats the bytes between the pointers; where these are equal it changes
nothing, as `x%0 = x`. -/
theorem copyUp_eq (n : ℕ) : ∀ (m : Addr → UInt8) (d s : Addr), n ≤ 2^32 →
    copyUp m d s n = filled m d s n (fun i => i%(d-s).toNat) := by
  induction n with
  | zero =>
    intro m d s _
    funext a
    simp [copyUp, filled]
  | succ n ih =>
    intro m d s h
    have hgap : (d+1)-(s+1) = d-s := by bv_omega
    rw [copyUp, ih _ _ _ (by omega), hgap]
    funext a
    dsimp only [filled]
    by_cases ha : a = d
    · subst ha
      have hlast : (a-(a+1)).toNat = 2^32-1 := by bv_omega
      have hzero : (a-a).toNat = 0 := by bv_omega
      rw [hlast, if_neg (by omega), Function.update_self, hzero, if_pos (by omega), Nat.zero_mod]
      congr 1
      bv_omega
    · rw [offset_next ha, read_behind, Function.update_of_ne ha]
      simp only [Nat.add_lt_add_iff_right]

theorem unread_ne {a d s : Addr} {n : ℕ} (h : n+1 ≤ 2^32)
    (hgap : (s-d).toNat = 0 ∨ n+1 ≤ (s-d).toNat) (ha : (a-d).toNat < n) :
    s+BitVec.ofNat 32 (a-d).toNat ≠ d+BitVec.ofNat 32 n := by
  bv_omega

/-- A copy downwards moves the bytes when the source does not begin behind the first byte
of the destination and before its end. -/
theorem copyDown_eq (n : ℕ) : ∀ (m : Addr → UInt8) (d s : Addr), n ≤ 2^32 →
    ((s-d).toNat = 0 ∨ n ≤ (s-d).toNat) →
    copyDown m (d+BitVec.ofNat 32 n) (s+BitVec.ofNat 32 n) n = moved m d s n := by
  induction n with
  | zero =>
    intro m d s _ _
    funext a
    simp [copyDown, moved, filled]
  | succ n ih =>
    intro m d s h hgap
    have hd : d+BitVec.ofNat 32 (n+1)-1 = d+BitVec.ofNat 32 n := by
      rw [BitVec.ofNat_add]
      bv_omega
    have hs : s+BitVec.ofNat 32 (n+1)-1 = s+BitVec.ofNat 32 n := by
      rw [BitVec.ofNat_add]
      bv_omega
    rw [copyDown, hd, hs, ih _ _ _ (by omega) (by omega)]
    funext a
    dsimp only [moved, filled, id]
    by_cases ha : a = d+BitVec.ofNat 32 n
    · have hoff : (a-d).toNat = n := by bv_omega
      rw [hoff, if_neg (by omega), if_pos (by omega), ha, Function.update_self]
    · have hoff : (a-d).toNat ≠ n := by bv_omega
      rw [Function.update_of_ne ha]
      by_cases hin : (a-d).toNat < n
      · rw [if_pos hin, if_pos (by omega), Function.update_of_ne]
        exact unread_ne h hgap hin
      · rw [if_neg hin, if_neg (by omega)]

section
variable {dst src n : BitVec 32}

theorem copyUp_moves (hs : src.toNat+n.toNat ≤ 2^32)
    (hout : ¬ (src < dst ∧ dst.toNat < src.toNat+n.toNat)) :
    copyUp m dst src n.toNat = moved m dst src n.toNat := by
  rw [copyUp_eq n.toNat m dst src (by omega)]
  apply filled_congr
  intro i hi
  rcases Nat.eq_zero_or_pos (dst-src).toNat with hgap | hgap
  · rw [hgap, Nat.mod_zero, id]
  · exact Nat.mod_eq_of_lt (by bv_omega)

theorem memmove_moves (hd : dst.toNat+n.toNat ≤ 2^32) (hs : src.toNat+n.toNat ≤ 2^32) :
    memmove m dst src n = (moved m dst src n.toNat,dst) := by
  unfold memmove
  by_cases hin : src < dst ∧ src+n > dst
  · have hdown := copyDown_eq n.toNat m dst src (by omega) (by bv_omega)
    rw [BitVec.ofNat_toNat, BitVec.setWidth_eq] at hdown
    rw [if_pos hin, hdown]
  · rw [if_neg hin, copyUp_moves m hs (by bv_omega)]

theorem ulibMemmove_eq (hn : 0 ≤ n.toInt) :
    ulibMemmove m dst src n = (copyUp m dst src n.toNat,dst) := by
  have hmsb : n.msb = false := by
    rw [BitVec.msb_eq_toInt]
    exact decide_eq_false (by omega)
  rw [ulibMemmove, BitVec.toInt_eq_toNat_of_msb hmsb, Int.toNat_natCast]

/-- The kernel moves the bytes. The user library does the same unless the destination begins
inside the source; there it repeats the bytes between the two pointers. -/
theorem ulib_memmove_kernel (m : Addr → UInt8) (dst src n : BitVec 32) (hn : 0 ≤ n.toInt)
    (hd : dst.toNat+n.toNat ≤ 2^32) (hs : src.toNat+n.toNat ≤ 2^32) :
    memmove m dst src n = (moved m dst src n.toNat,dst) ∧
    (¬ (src < dst ∧ dst.toNat < src.toNat+n.toNat) →
      ulibMemmove m dst src n = memmove m dst src n) ∧
    ulibMemmove m dst src n = (filled m dst src n.toNat (fun i => i%(dst-src).toNat),dst) := by
  refine ⟨memmove_moves m hd hs,?_,?_⟩
  · intro hout
    rw [ulibMemmove_eq m hn, copyUp_moves m hs hout, memmove_moves m hd hs]
  · rw [ulibMemmove_eq m hn, copyUp_eq n.toNat m dst src (by omega)]

/-- Two bytes moved up past each other. -/
theorem ulib_memmove_kernel_apart :
    ulibMemmove (fun a => UInt8.ofNat a.toNat) 6 4 2 =
      memmove (fun a => UInt8.ofNat a.toNat) 6 4 2 :=
  (ulib_memmove_kernel (fun a => UInt8.ofNat a.toNat) 6 4 2 (by decide) (by decide)
    (by decide)).2.1 (by decide)

/-- Two bytes moved up by one: the user library writes the first one twice. -/
theorem ulib_memmove_overlap :
    (memmove (fun a => UInt8.ofNat a.toNat) 5 4 2).1 6 = 5 ∧
    (ulibMemmove (fun a => UInt8.ofNat a.toNat) 5 4 2).1 6 = 4 ∧
    ulibMemmove (fun a => UInt8.ofNat a.toNat) 5 4 2 ≠
      memmove (fun a => UInt8.ofNat a.toNat) 5 4 2 := by
  have hk : (memmove (fun a => UInt8.ofNat a.toNat) 5 4 2).1 6 = 5 := by decide
  have hu : (ulibMemmove (fun a => UInt8.ofNat a.toNat) 5 4 2).1 6 = 4 := by decide
  refine ⟨hk,hu,?_⟩
  intro he
  rw [he, hk] at hu
  exact absurd hu (by decide)

end
end Xv6.Move
