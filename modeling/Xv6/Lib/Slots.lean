import Mathlib.Tactic

/-!
# Units owned by slots

A pool of numbered units with one bit for each, and slots that name a unit or hold
zero. The units below `lo` are always taken; from `lo` to `hi` a unit is taken when
some slot names it or it is lost, and no two slots name the same one. Naming a clear unit
in an empty slot and emptying a slot while its bit is cleared keep this.
-/

set_option autoImplicit false

namespace Xv6.Slots

variable {σ : Type*} {lost : Set ℕ} {lo hi : ℕ} {bit : ℕ → Bool} {ref : σ → ℕ}

/-- The bits stand for the units that the slots name and for those in `lost`. -/
structure Owns (lost : Set ℕ) (lo hi : ℕ) (bit : ℕ → Bool) (ref : σ → ℕ) : Prop where
  pos : 0 < lo
  low : ∀ b < lo, bit b = true
  range : ∀ s, ref s ≠ 0 → lo ≤ ref s ∧ ref s < hi
  once : ∀ s t, ref s ≠ 0 → ref s = ref t → s = t
  used : ∀ b, lo ≤ b → b < hi → (bit b = true ↔ b ∈ lost ∨ ∃ s, ref s = b)
  apart : ∀ s, ref s ≠ 0 → ref s ∉ lost

theorem Owns.congr {bit' : ℕ → Bool} {ref' : σ → ℕ} (h : Owns lost lo hi bit ref) (hlo : lo ≤ hi)
    (hb : ∀ b < hi, bit' b = bit b) (hr : ∀ s, ref' s = ref s) : Owns lost lo hi bit' ref' := by
  obtain rfl : ref' = ref := funext hr
  exact ⟨h.pos,fun b hb' => by rw [hb b (by omega)]; exact h.low b hb',h.range,h.once,
    fun b h1 h2 => by rw [hb b h2]; exact h.used b h1 h2,h.apart⟩

theorem Owns.taken (h : Owns lost lo hi bit ref) {s : σ} (hs : ref s ≠ 0) : bit (ref s) = true :=
  (h.used _ (h.range s hs).1 (h.range s hs).2).mpr (.inr ⟨s,rfl⟩)

theorem Owns.unnamed (h : Owns lost lo hi bit ref) {b : ℕ} (hb : bit b = false) (hhi : b < hi) :
    lo ≤ b ∧ ∀ s, ref s ≠ b := by
  have hlo : lo ≤ b := by
    by_contra hlt
    rw [h.low b (by omega)] at hb
    cases hb
  refine ⟨hlo,fun s hs => ?_⟩
  rw [(h.used b hlo hhi).mpr (.inr ⟨s,hs⟩)] at hb
  cases hb

variable [DecidableEq σ]

theorem Owns.fill (h : Owns lost lo hi bit ref) {s : σ} {b : ℕ} (hs : ref s = 0)
    (hb : bit b = false) (hhi : b < hi) :
    Owns lost lo hi (Function.update bit b true) (Function.update ref s b) := by
  obtain ⟨hlo,hfree⟩ := h.unnamed hb hhi
  refine ⟨h.pos,fun c hc => ?_,fun t ht => ?_,fun t u ht htu => ?_,fun c h1 h2 => ?_,fun t ht => ?_⟩
  · rw [Function.update_of_ne (by omega)]
    exact h.low c hc
  · by_cases hts : t = s
    · subst hts
      rw [Function.update_self]
      exact ⟨hlo,hhi⟩
    · rw [Function.update_of_ne hts] at ht ⊢
      exact h.range t ht
  · by_cases hts : t = s <;> by_cases hus : u = s
    · rw [hts, hus]
    · subst hts
      rw [Function.update_self, Function.update_of_ne hus] at htu
      exact absurd htu.symm (hfree u)
    · subst hus
      rw [Function.update_self, Function.update_of_ne hts] at htu
      exact absurd htu (hfree t)
    · rw [Function.update_of_ne hts] at ht htu
      rw [Function.update_of_ne hus] at htu
      exact h.once t u ht htu
  · by_cases hcb : c = b
    · subst hcb
      simp only [Function.update_self, true_iff]
      exact .inr ⟨s,Function.update_self ..⟩
    · rw [Function.update_of_ne hcb, h.used c h1 h2]
      refine or_congr_right ⟨?_,?_⟩
      · rintro ⟨t,rfl⟩
        have hpos := h.pos
        have hts : t ≠ s := by
          rintro rfl
          omega
        exact ⟨t,Function.update_of_ne hts ..⟩
      · rintro ⟨t,ht⟩
        by_cases hts : t = s
        · subst hts
          rw [Function.update_self] at ht
          exact absurd ht.symm hcb
        · rw [Function.update_of_ne hts] at ht
          exact ⟨t,ht⟩
  · by_cases hts : t = s
    · subst hts
      rw [Function.update_self]
      intro hl
      rw [(h.used b hlo hhi).mpr (.inl hl)] at hb
      cases hb
    · rw [Function.update_of_ne hts] at ht ⊢
      exact h.apart t ht

theorem Owns.clear (h : Owns lost lo hi bit ref) {s : σ} (hs : ref s ≠ 0) :
    Owns lost lo hi (Function.update bit (ref s) false) (Function.update ref s 0) := by
  have hpos := h.pos
  refine ⟨h.pos,fun c hc => ?_,fun t ht => ?_,fun t u ht htu => ?_,fun c h1 h2 => ?_,fun t ht => ?_⟩
  · have := (h.range s hs).1
    rw [Function.update_of_ne (by omega)]
    exact h.low c hc
  · by_cases hts : t = s
    · subst hts
      rw [Function.update_self] at ht
      exact absurd rfl ht
    · rw [Function.update_of_ne hts] at ht ⊢
      exact h.range t ht
  · have hts : t ≠ s := by
      rintro rfl
      exact ht (Function.update_self ..)
    have hus : u ≠ s := by
      rintro rfl
      rw [Function.update_self] at htu
      exact ht htu
    rw [Function.update_of_ne hts] at ht htu
    rw [Function.update_of_ne hus] at htu
    exact h.once t u ht htu
  · by_cases hcs : c = ref s
    · subst hcs
      simp only [Function.update_self, Bool.false_eq_true, false_iff, not_or, not_exists]
      refine ⟨h.apart s hs,fun t ht => ?_⟩
      by_cases hts : t = s
      · subst hts
        rw [Function.update_self] at ht
        exact hs ht.symm
      · rw [Function.update_of_ne hts] at ht
        exact hts (h.once t s (by rw [ht]; exact hs) ht)
    · rw [Function.update_of_ne hcs, h.used c h1 h2]
      refine or_congr_right ⟨?_,?_⟩
      · rintro ⟨t,rfl⟩
        have hts : t ≠ s := fun hts => hcs (by rw [hts])
        exact ⟨t,Function.update_of_ne hts ..⟩
      · rintro ⟨t,ht⟩
        by_cases hts : t = s
        · subst hts
          rw [Function.update_self] at ht
          omega
        · rw [Function.update_of_ne hts] at ht
          exact ⟨t,ht⟩
  · by_cases hts : t = s
    · subst hts
      rw [Function.update_self] at ht
      exact absurd rfl ht
    · rw [Function.update_of_ne hts] at ht ⊢
      exact h.apart t ht

end Xv6.Slots
