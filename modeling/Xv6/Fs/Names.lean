import Xv6.Fs.Blocks

/-!
# Names of directory entries

`strncmp` and `strncpy` of `string.c` over byte strings that end at their first zero or at
the end of the list. Names are compared and stored by their first `DIRSIZ` bytes: two names
are equal for `strncmp` when they are equal after `shorten`, and the bytes that `strncpy`
stores shorten to what the name shortens to, with or without a zero at the end.
-/

set_option autoImplicit false

namespace Xv6.Fs
open Xv6.Fields

def strncmp : ℕ → List UInt8 → List UInt8 → ℤ
  | 0, _, _ => 0
  | n+1, p, q =>
    if p.headD 0 ≠ 0 ∧ p.headD 0 = q.headD 0 then strncmp n p.tail q.tail
    else (p.headD 0).toNat-(q.headD 0).toNat

/-- The `n` bytes that `strncpy` stores. -/
def strncpy : ℕ → List UInt8 → List UInt8
  | 0, _ => []
  | n+1, t =>
    if t.headD 0 = 0 then List.replicate (n+1) 0 else t.headD 0::strncpy n t.tail

/-- The string in the first `n` bytes. -/
def upTo (n : ℕ) (s : List UInt8) : List UInt8 := (s.take n).takeWhile (· != 0)

theorem upTo_succ (n : ℕ) (s : List UInt8) :
    upTo (n+1) s = if s.headD 0 = 0 then [] else s.headD 0::upTo n s.tail := by
  cases s with
  | nil => rfl
  | cons c s =>
    by_cases hc : c = 0
    · simp [upTo, hc]
    · simp [upTo, hc]

theorem strncmp_eq_zero (n : ℕ) (p q : List UInt8) : strncmp n p q = 0 ↔ upTo n p = upTo n q := by
  induction n generalizing p q with
  | zero => simp [strncmp, upTo]
  | succ n ih =>
    rw [strncmp, upTo_succ, upTo_succ]
    by_cases hpq : p.headD 0 = q.headD 0
    · by_cases hq : q.headD 0 = 0
      · rw [if_neg (fun h => h.1 (hpq.trans hq)), if_pos (hpq.trans hq), if_pos hq, hpq, sub_self]
        exact iff_of_true rfl rfl
      · rw [if_pos ⟨by rw [hpq]; exact hq,hpq⟩, if_neg (by rw [hpq]; exact hq), if_neg hq, hpq, ih]
        simp
    · have hne : ((p.headD 0).toNat : ℤ)-(q.headD 0).toNat ≠ 0 := by
        intro h
        exact hpq (UInt8.toNat_inj.mp (by omega))
      rw [if_neg (fun h => hpq h.2)]
      refine iff_of_false hne fun h => ?_
      split at h <;> split at h
      · next h1 h2 => exact hpq (h1.trans h2.symm)
      · cases h
      · cases h
      · exact hpq (List.cons.inj h).1

theorem strncpy_eq (n : ℕ) (t : List UInt8) :
    strncpy n t = upTo n t ++ List.replicate (n-(upTo n t).length) 0 := by
  induction n generalizing t with
  | zero => rfl
  | succ n ih =>
    rw [strncpy, upTo_succ]
    split
    · simp
    · rw [ih, List.length_cons, Nat.add_sub_add_right, List.cons_append]

theorem upTo_length_le (n : ℕ) (s : List UInt8) : (upTo n s).length ≤ n :=
  (List.takeWhile_sublist _).length_le.trans (List.length_take_le _ _)

theorem upTo_strncpy (n : ℕ) (t : List UInt8) : upTo n (strncpy n t) = upTo n t := by
  induction n generalizing t with
  | zero => rfl
  | succ n ih =>
    rw [strncpy]
    split
    · next h0 =>
      rw [upTo_succ, upTo_succ, if_pos h0]
      rfl
    · next h0 =>
      rw [upTo_succ, upTo_succ, if_neg h0, List.headD_cons, if_neg h0, List.tail_cons, ih]

theorem namecmp_iff (s t : List UInt8) : namecmp s t = true ↔ strncmp DIRSIZ s t = 0 := by
  rw [strncmp_eq_zero, namecmp, beq_iff_eq]
  rfl

theorem dirent_eq (inum : ℕ) (name : List UInt8) :
    dirent inum name = byteOf inum 0::byteOf inum 1::strncpy DIRSIZ name := by
  rw [dirent, strncpy_eq]
  rfl

theorem direntName_dirent (inum : ℕ) (name : List UInt8) :
    shorten (direntName (dirent inum name)) = shorten name := by
  rw [dirent_eq]
  exact upTo_strncpy DIRSIZ name

theorem direntInum_dirent {inum : ℕ} (h : inum < 2^16) (name : List UInt8) :
    direntInum (dirent inum name) = inum := by
  have hget : direntInum (dirent inum name) = inum%256^2 := by
    refine get_bytes fun k hk => ?_
    obtain rfl | rfl : k = 0 ∨ k = 1 := by omega
    · rfl
    · rfl
  rw [hget]
  exact Nat.mod_eq_of_lt (by omega)

theorem dirent_length (inum : ℕ) (name : List UInt8) : (dirent inum name).length = direntSize := by
  have h := upTo_length_le DIRSIZ name
  change (shorten name).length ≤ DIRSIZ at h
  rw [dirent, List.length_cons, List.length_cons, List.length_append, List.length_replicate]
  unfold direntSize
  omega

end Xv6.Fs
