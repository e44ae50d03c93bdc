import Xv6.Lib.Tally

/-!
# An account of counted items

Items are held by places, carried by parties between two steps, or on a free list.
An account says that the counter of every item is the number of places that hold it
and that an item which nobody holds is exactly once on the list or in a hand. The
five rules are the moves of a reference counting discipline.
-/

set_option autoImplicit false

namespace Xv6.Refs
open Xv6.Tally

section
variable {π φ : Type} [Fintype π] [DecidableEq φ]

def number (a : π → Option φ) (f : φ) : ℕ := tally Finset.univ (fun x => a x = some f)

theorem number_pos {a : π → Option φ} {f : φ} : 0 < number a f ↔ ∃ x, a x = some f := by
  rw [number, tally_pos]
  simp

theorem number_two {a : π → Option φ} {f : φ} {x y : π} (hxy : x ≠ y) (hx : a x = some f)
    (hy : a y = some f) : 2 ≤ number a f := by
  unfold number tally
  exact Finset.one_lt_card.mpr ⟨x,by simp [hx],y,by simp [hy],hxy⟩

theorem number_mono {a b : π → Option φ} {f : φ} (h : ∀ x, a x = some f → b x = some f) :
    number a f ≤ number b f := by
  unfold number tally
  apply Finset.card_le_card
  intro x hx
  simp only [Finset.mem_filter, Finset.mem_univ, true_and] at hx ⊢
  exact h x hx

theorem number_update [DecidableEq π] (a : π → Option φ) (x : π) (o : Option φ) (f : φ) :
    number (Function.update a x o) f+(if a x = some f then 1 else 0) =
      number a f+(if o = some f then 1 else 0) := by
  have h := tally_update Finset.univ (fun y => a y = some f)
    (fun y => Function.update a x o y = some f) x (Finset.mem_univ x)
    (fun y _ hy => by rw [Function.update_of_ne hy])
  unfold number
  simpa using h

theorem number_fill [DecidableEq π] {a : π → Option φ} {x : π} (hx : a x = none) (g f : φ) :
    number (Function.update a x (some g)) f = number a f+(if g = f then 1 else 0) := by
  have h := number_update a x (some g) f
  rw [hx] at h
  simpa using h

theorem number_clear [DecidableEq π] {a : π → Option φ} {x : π} {g : φ} (hx : a x = some g)
    (f : φ) : number (Function.update a x none) f+(if g = f then 1 else 0) = number a f := by
  have h := number_update a x none f
  rw [hx] at h
  simpa using h

end

variable {π κ φ : Type} [Fintype π] [Fintype κ] [DecidableEq φ]

structure Account (U : Set φ) (count : φ → ℤ) (free : List φ) (hold : π → Option φ)
    (carry : κ → Option φ) : Prop where
  count : ∀ f, count f = number hold f
  known : ∀ f, 0 < number hold f → f ∈ U
  spare : ∀ f ∈ U, number hold f = 0 → free.count f+number carry f = 1
  busy : ∀ f, f ∉ U ∨ 0 < number hold f → free.count f+number carry f = 0

variable {U : Set φ} {count count' : φ → ℤ} {free free' : List φ} {hold hold' : π → Option φ}
  {carry carry' : κ → Option φ}

theorem Account.idle (h : Account U count free hold carry) {f : φ}
    (hf : 0 < free.count f+number carry f) : f ∈ U ∧ number hold f = 0 := by
  by_contra hn
  have := h.busy f (by
    by_contra hn'
    push Not at hn'
    exact hn ⟨hn'.1,by omega⟩)
  omega

theorem Account.move (h : Account U count free hold carry) (f : φ)
    (hnum : ∀ y, y ≠ f → number hold' y = number hold y)
    (hcnt : ∀ y, y ≠ f → count' y = count y)
    (hsum : ∀ y, y ≠ f → free'.count y+number carry' y = free.count y+number carry y)
    (hcount : count' f = number hold' f) (hknown : 0 < number hold' f → f ∈ U)
    (hspare : f ∈ U → number hold' f = 0 → free'.count f+number carry' f = 1)
    (hbusy : f ∉ U ∨ 0 < number hold' f → free'.count f+number carry' f = 0) :
    Account U count' free' hold' carry' := by
  refine ⟨fun y => ?_,fun y hy => ?_,fun y hy h0 => ?_,fun y hy => ?_⟩ <;>
    rcases eq_or_ne y f with rfl | hne
  · exact hcount
  · rw [hcnt y hne, hnum y hne]
    exact h.count y
  · exact hknown hy
  · rw [hnum y hne] at hy
    exact h.known y hy
  · exact hspare hy h0
  · rw [hnum y hne] at h0
    rw [hsum y hne]
    exact h.spare y hy h0
  · exact hbusy hy
  · rw [hnum y hne] at hy
    rw [hsum y hne]
    exact h.busy y hy

theorem Account.take [DecidableEq κ] {g : φ} {fs : List φ} {k : κ}
    (h : Account U count (g::fs) hold carry) (hk : carry k = none) :
    Account U count fs hold (Function.update carry k (some g)) := by
  have hsum : ∀ f, fs.count f+number (Function.update carry k (some g)) f =
      (g::fs).count f+number carry f := by
    intro f
    rw [number_fill hk, List.count_cons]
    simp only [beq_iff_eq]
    omega
  refine h.move g (fun _ _ => rfl) (fun _ _ => rfl) (fun f _ => hsum f) (h.count g) (h.known g)
    ?_ ?_ <;> rw [hsum]
  · exact h.spare g
  · exact h.busy g

theorem Account.give [DecidableEq κ] {f : φ} {k : κ} (h : Account U count free hold carry)
    (hk : carry k = some f) :
    Account U count (f::free) hold (Function.update carry k none) := by
  have hsum : ∀ y, (f::free).count y+number (Function.update carry k none) y =
      free.count y+number carry y := by
    intro y
    rw [← number_clear hk y, List.count_cons]
    simp only [beq_iff_eq]
    omega
  refine h.move f (fun _ _ => rfl) (fun _ _ => rfl) (fun y _ => hsum y) (h.count f) (h.known f)
    ?_ ?_ <;> rw [hsum]
  · exact h.spare f
  · exact h.busy f

theorem Account.drop [DecidableEq π] {f : φ} {x : π} (h : Account U count free hold carry)
    (hx : hold x = some f) (hc : 2 ≤ count f) :
    Account U (Function.update count f (count f-1)) free (Function.update hold x none)
      carry := by
  have hnum := number_clear hx
  have hf := hnum f
  rw [if_pos rfl] at hf
  have hcf := h.count f
  refine h.move f (fun y hy => ?_) (fun y hy => Function.update_of_ne hy _ _) (fun _ _ => rfl)
    ?_ (fun _ => h.known f (by omega)) (fun _ h0 => by omega)
    (fun _ => h.busy f (.inr (by omega)))
  · have := hnum y
    rwa [if_neg (Ne.symm hy)] at this
  · rw [Function.update_self]
    omega

theorem Account.last [DecidableEq π] [DecidableEq κ] {f : φ} {x : π} {k : κ}
    (h : Account U count free hold carry) (hx : hold x = some f) (hc : count f = 1)
    (hk : carry k = none) :
    Account U (Function.update count f 0) free (Function.update hold x none)
      (Function.update carry k (some f)) := by
  have hnum := number_clear hx
  have hcar := number_fill hk f
  have hf := hnum f
  have hg := hcar f
  rw [if_pos rfl] at hf hg
  have hcf := h.count f
  have hzero := h.busy f (.inr (by omega))
  refine h.move f (fun y hy => ?_) (fun y hy => Function.update_of_ne hy _ _) (fun y hy => ?_)
    ?_ (fun _ => h.known f (by omega)) (fun _ _ => by omega) (fun hb => ?_)
  · have := hnum y
    rwa [if_neg (Ne.symm hy)] at this
  · rw [hcar y, if_neg (Ne.symm hy), Nat.add_zero]
  · rw [Function.update_self]
    omega
  · obtain hb | hb := hb
    · exact absurd (h.known f (by omega)) hb
    · omega

theorem Account.raise [DecidableEq π] [DecidableEq κ] {g : φ} {x : π} {k : κ}
    (h : Account U count free hold carry) (hx : hold x = none) (hk : carry k = some g) :
    Account U (Function.update count g (count g+1)) free (Function.update hold x (some g))
      (Function.update carry k none) := by
  have hnum := number_fill hx g
  have hcar := number_clear hk
  have hf := hnum g
  have hg := hcar g
  rw [if_pos rfl] at hf hg
  obtain ⟨hU,h0⟩ := h.idle (f := g) (by omega)
  have hone := h.spare g hU h0
  have hcg := h.count g
  refine h.move g (fun y hy => ?_) (fun y hy => Function.update_of_ne hy _ _) (fun y hy => ?_)
    ?_ (fun _ => hU) (fun _ _ => by omega) (fun _ => by omega)
  · rw [hnum y, if_neg (Ne.symm hy), Nat.add_zero]
  · have := hcar y
    rw [if_neg (Ne.symm hy)] at this
    omega
  · rw [Function.update_self]
    omega

end Xv6.Refs
