import Mathlib.Data.Finset.Card
import Mathlib.Data.List.FinRange
import Mathlib.Data.List.Nodup
import Mathlib.Tactic

/-!
# Counting references

A reference count is compared with the number of places of a finite index set
that hold the reference. The rules below say how that number moves when one
place is rewritten, and how a table of optional entries changes as a list when
one entry is filled or emptied.
-/

set_option autoImplicit false

namespace Xv6.Tally

variable {ι α : Type*}

def tally (s : Finset ι) (p : ι → Prop) [DecidablePred p] : ℕ := (s.filter p).card

theorem tally_congr (s : Finset ι) (p q : ι → Prop) [DecidablePred p] [DecidablePred q]
    (h : ∀ i ∈ s, p i ↔ q i) : tally s p = tally s q := by
  unfold tally
  rw [Finset.filter_congr h]

theorem tally_pos (s : Finset ι) (p : ι → Prop) [DecidablePred p] :
    0 < tally s p ↔ ∃ i ∈ s, p i := by
  unfold tally
  rw [Finset.card_pos]
  constructor
  · rintro ⟨i,hi⟩
    exact ⟨i,(Finset.mem_filter.mp hi).1,(Finset.mem_filter.mp hi).2⟩
  · rintro ⟨i,hi,hp⟩
    exact ⟨i,Finset.mem_filter.mpr ⟨hi,hp⟩⟩

theorem tally_eq_zero (s : Finset ι) (p : ι → Prop) [DecidablePred p] :
    tally s p = 0 ↔ ∀ i ∈ s, ¬ p i := by
  constructor
  · intro h i hi hp
    have := (tally_pos s p).mpr ⟨i,hi,hp⟩
    omega
  · intro h
    by_contra hne
    obtain ⟨i,hi,hp⟩ := (tally_pos s p).mp (Nat.pos_of_ne_zero hne)
    exact h i hi hp

theorem tally_update [DecidableEq ι] (s : Finset ι) (p q : ι → Prop)
    [DecidablePred p] [DecidablePred q] (a : ι) (ha : a ∈ s)
    (h : ∀ i ∈ s, i ≠ a → (p i ↔ q i)) :
    tally s q+(if p a then 1 else 0) = tally s p+(if q a then 1 else 0) := by
  have hsplit : ∀ (r : ι → Prop) [DecidablePred r],
      tally s r = tally (s.erase a) r+(if r a then 1 else 0) := by
    intro r _
    unfold tally
    conv_lhs => rw [← Finset.insert_erase ha, Finset.filter_insert]
    split
    · rw [Finset.card_insert_of_notMem (by simp)]
    · simp
  have hrest : tally (s.erase a) p = tally (s.erase a) q := by
    apply tally_congr
    intro i hi
    exact h i (Finset.mem_of_mem_erase hi) (Finset.ne_of_mem_erase hi)
  rw [hsplit p, hsplit q, hrest]
  omega

theorem sum_update [Fintype ι] [DecidableEq ι] (w : α → ℕ) (f : ι → α) (a : ι) (x : α) :
    ∑ i, w (Function.update f a x i)+w (f a) = ∑ i, w (f i)+w x := by
  have hrest : ∑ i ∈ Finset.univ.erase a, w (Function.update f a x i) =
      ∑ i ∈ Finset.univ.erase a, w (f i) := by
    apply Finset.sum_congr rfl
    intro i hi
    rw [Function.update_of_ne (Finset.ne_of_mem_erase hi)]
  rw [← Finset.add_sum_erase _ _ (Finset.mem_univ a),
    ← Finset.add_sum_erase _ (fun i => w (f i)) (Finset.mem_univ a), Function.update_self, hrest]
  omega

theorem filterMap_congr_on {l : List ι} {g h : ι → Option α}
    (hoff : ∀ j ∈ l, h j = g j) : l.filterMap h = l.filterMap g := by
  induction l with
  | nil => rfl
  | cons j l ih =>
    rw [List.filterMap_cons, List.filterMap_cons, hoff j (by simp),
      ih (fun i hi => hoff i (by simp [hi]))]

theorem filterMap_fill {l : List ι} (hn : l.Nodup) {g h : ι → Option α} {i : ι} {x : α}
    (hi : i ∈ l) (hg : g i = none) (hh : h i = some x)
    (hoff : ∀ j ∈ l, j ≠ i → h j = g j) :
    (l.filterMap h).Perm (x::l.filterMap g) := by
  induction l with
  | nil => simp at hi
  | cons j l ih =>
    obtain ⟨hj,hl⟩ := List.nodup_cons.mp hn
    rcases List.mem_cons.mp hi with rfl | him
    · rw [List.filterMap_cons, List.filterMap_cons, hg, hh]
      have : l.filterMap h = l.filterMap g :=
        filterMap_congr_on (fun k hk => hoff k (by simp [hk]) (fun e => hj (e ▸ hk)))
      simp [this]
    · have hji : j ≠ i := fun e => hj (e ▸ him)
      have hp := ih hl him (fun k hk hne => hoff k (by simp [hk]) hne)
      rw [List.filterMap_cons, List.filterMap_cons, hoff j (by simp) hji]
      cases g j with
      | none => simpa using hp
      | some y => exact (hp.cons y).trans (List.Perm.swap x y _)

/-- The entries of a finite table in slot order. -/
def gather {n : ℕ} (h : Fin n → Option α) : List α := (List.finRange n).filterMap h

theorem gather_length {n : ℕ} (h : Fin n → Option α) : (gather h).length ≤ n :=
  (List.length_filterMap_le _ _).trans (by simp)

theorem mem_gather {n : ℕ} {h : Fin n → Option α} {x : α} :
    x ∈ gather h ↔ ∃ i, h i = some x := by
  simp [gather]

@[simp] theorem gather_none {n : ℕ} : gather (fun _ : Fin n => (none : Option α)) = [] := by
  simp [gather]

theorem find_finRange {n : ℕ} {q : Fin n → Bool} {p : Fin n} (hp : q p = true)
    (hlt : ∀ j < p, q j = false) : (List.finRange n).find? q = some p := by
  rw [List.find?_eq_some_iff_getElem]
  refine ⟨hp,p.val,by simp,by simp,fun j hj => ?_⟩
  simpa using hlt ⟨j,hj.trans p.isLt⟩ hj

theorem gather_swap {n : ℕ} {g h : Fin n → Option α} {i : Fin n} {x : α} (hi : h i = some x)
    (hoff : ∀ j, j ≠ i → h j = g j) :
    (gather h).Perm (x::gather (Function.update g i none)) :=
  filterMap_fill (List.nodup_finRange n) (List.mem_finRange i) (Function.update_self ..) hi
    (fun j _ hj => by rw [Function.update_of_ne hj, hoff j hj])

theorem gather_fill {n : ℕ} {g h : Fin n → Option α} {i : Fin n} {x : α} (hg : g i = none)
    (hi : h i = some x) (hoff : ∀ j, j ≠ i → h j = g j) : (gather h).Perm (x::gather g) := by
  have := gather_swap hi hoff
  rwa [← hg, Function.update_eq_self] at this

end Xv6.Tally
