import Mathlib.Tactic

/-!
# Computations that may hit a limit

Two runs of the same program: a plain one, and one that stops with a fixed error as soon as
it needs more room than there is. A measure of the result grows along the plain run. The
guarded run is the plain one as long as the measure stays below the limit, and when it
returns, it has not gone past the limit.
-/

set_option autoImplicit false

namespace Xv6.Capacity

variable {ε α β : Type} {limit n : ℕ} {stop : ε} {size : α → ℕ} {size' : β → ℕ}

/-- The guarded run `g` follows the plain run `p`, which starts with the measure `n`. -/
structure Tracks (limit : ℕ) (stop : ε) (n : ℕ) (size : α → ℕ) (p g : Except ε α) : Prop where
  error : ∀ e, p = .error e → g = .error e ∨ g = .error stop
  ok : ∀ a, p = .ok a → n ≤ size a ∧
    (g = .ok a ∧ size a ≤ max n limit ∨ g = .error stop ∧ limit ≤ size a)

theorem Tracks.fail (e : ε) : Tracks limit stop n size (.error e) (.error e) := by
  constructor
  · intro _ h
    exact Or.inl h
  · intro _ h
    cases h

theorem Tracks.pure {a : α} (h : size a = n) : Tracks limit stop n size (.ok a) (.ok a) := by
  constructor
  · intro _ h
    cases h
  · intro _ hb
    cases hb
    exact ⟨h.ge,Or.inl ⟨rfl,h.le.trans (le_max_left _ _)⟩⟩

theorem Tracks.next {a : α} {g : Except ε α} {q : Except ε β} {f : α → Except ε β}
    (h : Tracks limit stop n size (.ok a) g) (hf : Tracks limit stop (size a) size' q (f a)) :
    Tracks limit stop n size' q (g >>= f) := by
  obtain ⟨hle,⟨hg,hsize⟩ | ⟨hg,hfull⟩⟩ := h.ok a rfl <;> rw [hg]
  · refine ⟨hf.error,fun b hb => ?_⟩
    obtain ⟨hle',hcase⟩ := hf.ok b hb
    refine ⟨hle.trans hle',hcase.imp_left fun hok => ⟨hok.1,hok.2.trans ?_⟩⟩
    exact max_le hsize (le_max_right _ _)
  · refine ⟨fun _ _ => Or.inr rfl,fun b hb => ?_⟩
    obtain ⟨hle',-⟩ := hf.ok b hb
    exact ⟨hle.trans hle',Or.inr ⟨rfl,hfull.trans hle'⟩⟩

theorem Tracks.bind {p g : Except ε α} {f f' : α → Except ε β} (h : Tracks limit stop n size p g)
    (hf : ∀ a, Tracks limit stop (size a) size' (f a) (f' a)) :
    Tracks limit stop n size' (p >>= f) (g >>= f') := by
  cases p with
  | error e =>
    constructor
    · intro _ he
      cases he
      rcases h.error e rfl with hg | hg
      · exact Or.inl (by rw [hg]; rfl)
      · exact Or.inr (by rw [hg]; rfl)
    · intro _ hb
      cases hb
  | ok a => exact h.next (hf a)

theorem Tracks.fits {p g : Except ε α} {a : α} (h : Tracks limit stop n size p g) (hp : p = .ok a)
    (ha : size a < limit) : g = .ok a := by
  rcases (h.ok a hp).2 with hg | hg
  · exact hg.1
  · exact absurd hg.2 (Nat.not_le.mpr ha)

theorem Tracks.stops {p g : Except ε α} {a : α} (h : Tracks limit stop n size p g) (hp : p = .ok a)
    (hn : n ≤ limit) (ha : limit < size a) : g = .error stop := by
  rcases (h.ok a hp).2 with hg | hg
  · have := hg.2
    rw [max_eq_right hn] at this
    exact absurd this (Nat.not_le.mpr ha)
  · exact hg.1

end Xv6.Capacity
