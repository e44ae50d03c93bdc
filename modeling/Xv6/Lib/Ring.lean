import Mathlib.Tactic

/-!
# Ring buffers with wrapping counters

A buffer of `N` slots and two counters of `w` bits that are only ever counted up:
an element goes in at the write counter modulo `N` and comes out at the read
counter modulo `N`. When `N` divides `2^w` the counters may wrap without harm, and
the buffer is a queue: what went in is what came out followed by what is left.
-/

set_option autoImplicit false

namespace Xv6.Ring

variable {α : Type*}

/-- The `len` elements from position `r` on, positions taken modulo `N`. -/
def contents (N : ℕ) (slot : ℕ → α) (r len : ℕ) : List α :=
  (List.range len).map fun i => slot ((r+i)%N)

theorem contents_pop (N : ℕ) (slot : ℕ → α) (r len : ℕ) :
    contents N slot r (len+1) = slot (r%N)::contents N slot (r+1) len := by
  rw [contents, List.range_succ_eq_map, List.map_cons, List.map_map, Nat.add_zero, contents]
  congr 1
  apply List.map_congr_left
  intro i _
  rw [Function.comp_apply, Nat.succ_eq_add_one, show r+(i+1) = r+1+i by omega]

theorem mod_ne {N r i len : ℕ} (hi : i < len) (hlen : len < N) : (r+i)%N ≠ (r+len)%N := by
  intro h
  have hd : N ∣ r+len-(r+i) := (Nat.modEq_iff_dvd' (by omega)).mp h
  have hle := Nat.le_of_dvd (by omega) hd
  omega

theorem contents_succ (N : ℕ) (slot : ℕ → α) (r len : ℕ) :
    contents N slot r (len+1) = contents N slot r len++[slot ((r+len)%N)] := by
  rw [contents, List.range_succ, List.map_append, List.map_singleton]
  rfl

theorem contents_push {N len : ℕ} (slot : ℕ → α) (r : ℕ) (b : α) (hlen : len < N) :
    contents N (Function.update slot ((r+len)%N) b) r (len+1) = contents N slot r len++[b] := by
  rw [contents_succ, Function.update_self]
  congr 1
  apply List.map_congr_left
  intro i hi
  exact Function.update_of_ne (mod_ne (List.mem_range.mp hi) hlen) b slot

theorem contents_mod {N M : ℕ} (slot : ℕ → α) (r len : ℕ) (h : N ∣ M) :
    contents N slot (r%M) len = contents N slot r len := by
  apply List.map_congr_left
  intro i _
  rw [Nat.add_mod, Nat.mod_mod_of_dvd r h, ← Nat.add_mod]

/-- The buffer as a queue: `stored` went in, `taken` came out, the rest is in the slots. -/
structure Fifo (N : ℕ) {w : ℕ} (slot : ℕ → α) (nread nwrite : BitVec w) (stored taken : List α) :
    Prop where
  wraps : N ∣ 2^w
  fits : N < 2^w
  cap : stored.length ≤ taken.length+N
  reads : nread = BitVec.ofNat w taken.length
  writes : nwrite = BitVec.ofNat w stored.length
  flow : stored = taken++contents N slot taken.length (stored.length-taken.length)

variable {N w : ℕ} {slot : ℕ → α} {nread nwrite : BitVec w} {stored taken : List α}

theorem Fifo.le (h : Fifo N slot nread nwrite stored taken) : taken.length ≤ stored.length := by
  rw [h.flow, List.length_append]
  omega

theorem ofNat_inj {a b : ℕ} (hab : a ≤ b) (hlt : b-a < 2^w) :
    BitVec.ofNat w a = BitVec.ofNat w b ↔ a = b := by
  constructor
  · intro h
    have hm : a%2^w = b%2^w := by simpa using congrArg BitVec.toNat h
    have hd : 2^w ∣ b-a := (Nat.modEq_iff_dvd' hab).mp hm
    by_contra hne
    have hle := Nat.le_of_dvd (by omega) hd
    omega
  · intro h
    rw [h]

theorem Fifo.empty_iff (h : Fifo N slot nread nwrite stored taken) :
    nread = nwrite ↔ taken.length = stored.length := by
  have hcap := h.cap
  have hfits := h.fits
  rw [h.reads, h.writes]
  exact ofNat_inj h.le (by omega)

theorem Fifo.full_iff (h : Fifo N slot nread nwrite stored taken) :
    nwrite = nread+BitVec.ofNat w N ↔ stored.length = taken.length+N := by
  have hcap := h.cap
  have hle := h.le
  have hfits := h.fits
  rw [h.reads, h.writes, ← BitVec.ofNat_add]
  exact ofNat_inj hcap (by omega)

theorem Fifo.count (h : Fifo N slot nread nwrite stored taken) :
    (nwrite-nread).toNat = stored.length-taken.length := by
  have hcap := h.cap
  have hle := h.le
  have hfits := h.fits
  obtain ⟨k,hk⟩ := Nat.exists_eq_add_of_le hle
  rw [h.reads, h.writes, hk, BitVec.ofNat_add, BitVec.add_comm, BitVec.add_sub_cancel,
    BitVec.toNat_ofNat, Nat.mod_eq_of_lt (by omega), Nat.add_sub_cancel_left]

theorem Fifo.unread (h : Fifo N slot nread nwrite stored taken) :
    stored = taken++contents N slot nread.toNat (nwrite-nread).toNat := by
  rw [h.count, h.reads, BitVec.toNat_ofNat, contents_mod slot _ _ h.wraps]
  exact h.flow

theorem index_mod {a : ℕ} (h : N ∣ 2^w) : (BitVec.ofNat w a).toNat%N = a%N := by
  rw [BitVec.toNat_ofNat, Nat.mod_mod_of_dvd a h]

theorem Fifo.push (h : Fifo N slot nread nwrite stored taken) (b : α)
    (hfull : nwrite ≠ nread+BitVec.ofNat w N) :
    Fifo N (Function.update slot (nwrite.toNat%N) b) nread (nwrite+1) (stored++[b]) taken := by
  have hroom : stored.length ≠ taken.length+N := fun he => hfull (h.full_iff.mpr he)
  have hcap := h.cap
  have hlen : (stored++[b]).length = stored.length+1 := by simp
  have hsub : stored.length+1-taken.length = stored.length-taken.length+1 := by
    have := h.le
    omega
  have hidx : nwrite.toNat%N = (taken.length+(stored.length-taken.length))%N := by
    rw [h.writes, index_mod h.wraps, Nat.add_sub_cancel' h.le]
  refine ⟨h.wraps,h.fits,by omega,h.reads,?_,?_⟩
  · rw [hlen, BitVec.ofNat_add, ← h.writes]
    rfl
  · rw [hlen, hsub, hidx, contents_push slot taken.length b (by omega), ← List.append_assoc,
      ← h.flow]

theorem Fifo.pop (h : Fifo N slot nread nwrite stored taken) (hne : nread ≠ nwrite) :
    Fifo N slot (nread+1) nwrite stored (taken++[slot (nread.toNat%N)]) := by
  have hsome : taken.length ≠ stored.length := fun he => hne (h.empty_iff.mpr he)
  have hcap := h.cap
  have hlen : (taken++[slot (nread.toNat%N)]).length = taken.length+1 := by simp
  have hsub : stored.length-taken.length = stored.length-(taken.length+1)+1 := by
    have := h.le
    omega
  refine ⟨h.wraps,h.fits,by omega,?_,h.writes,?_⟩
  · rw [hlen, BitVec.ofNat_add, ← h.reads]
    rfl
  · rw [hlen, List.append_assoc, List.singleton_append, h.reads, index_mod h.wraps,
      ← contents_pop, ← hsub]
    exact h.flow

theorem Fifo.unpush {b : α} (h : Fifo N slot nread nwrite (stored++[b]) taken)
    (hle : taken.length ≤ stored.length) :
    Fifo N slot nread (nwrite-1) stored taken ∧ slot ((nwrite-1).toNat%N) = b := by
  have hcap := h.cap
  have hlen : (stored++[b]).length = stored.length+1 := by simp
  have hsub : stored.length+1-taken.length = stored.length-taken.length+1 := by omega
  have hwrite : nwrite-1 = BitVec.ofNat w stored.length := by
    rw [h.writes, hlen, BitVec.ofNat_add]
    exact BitVec.add_sub_cancel ..
  have hflow := h.flow
  rw [hlen, hsub, contents_succ, ← List.append_assoc, Nat.add_sub_cancel' hle] at hflow
  obtain ⟨hrest,hlast⟩ := List.append_inj' hflow rfl
  refine ⟨⟨h.wraps,h.fits,by omega,h.reads,hwrite,hrest⟩,?_⟩
  rw [hwrite, index_mod h.wraps]
  exact (List.singleton_inj.mp hlast).symm

end Xv6.Ring
