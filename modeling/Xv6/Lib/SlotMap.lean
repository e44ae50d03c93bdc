import Mathlib.Tactic

/-!
# A table of slots as a finite map

A table has `n` slots, each empty or with a key and a value, and no two slots have the same
key. It stands for the map from its keys to their values. Filling an empty slot with a new
key adds to the map, emptying a slot takes its key away, and a scan for a key finds the slot
of its value.
-/

set_option autoImplicit false

namespace Xv6.SlotMap

variable {κ ν : Type} {n : ℕ} {slot : ℕ → Option (κ × ν)} {m : κ → Option ν}

structure Represents (n : ℕ) (slot : ℕ → Option (κ × ν)) (m : κ → Option ν) : Prop where
  once : ∀ j k a v w, j < n → k < n → slot j = some (a,v) → slot k = some (a,w) → j = k
  lookup : ∀ a v, m a = some v ↔ ∃ k < n, slot k = some (a,v)

theorem Represents.empty (slot : ℕ → Option (κ × ν)) : Represents 0 slot (fun _ => none) := by
  constructor
  · intro j _ _ _ _ hj
    exact absurd hj (Nat.not_lt_zero j)
  · simp

theorem Represents.absent (h : Represents n slot m) {a : κ} (ha : m a = none) {k : ℕ} (hk : k < n)
    (v : ν) : slot k ≠ some (a,v) := by
  intro hs
  rw [(h.lookup a v).mpr ⟨k,hk,hs⟩] at ha
  cases ha

theorem Represents.congr {slot' : ℕ → Option (κ × ν)} (h : Represents n slot m)
    (hs : ∀ k < n, slot' k = slot k) : Represents n slot' m := by
  constructor
  · intro j k a v w hj hk h1 h2
    rw [hs j hj] at h1
    rw [hs k hk] at h2
    exact h.once j k a v w hj hk h1 h2
  · intro a v
    rw [h.lookup a v]
    exact exists_congr fun k => and_congr_right fun hk => by rw [hs k hk]

variable [DecidableEq κ]

theorem Represents.insert (h : Represents n slot m) {a : κ} (ha : m a = none) (v : ν) {j : ℕ}
    (hj : j = n ∨ j < n ∧ slot j = none) :
    Represents (max n (j+1)) (Function.update slot j (some (a,v))) (Function.update m a (some v)) := by
  have hbelow : ∀ k, k < max n (j+1) → k ≠ j → k < n := by omega
  constructor
  · intro x y b u w hx hy h1 h2
    by_cases hxj : x = j <;> by_cases hyj : y = j
    · rw [hxj, hyj]
    · rw [hxj, Function.update_self] at h1
      rw [Function.update_of_ne hyj] at h2
      cases h1
      exact absurd h2 (h.absent ha (hbelow y hy hyj) w)
    · rw [hyj, Function.update_self] at h2
      rw [Function.update_of_ne hxj] at h1
      cases h2
      exact absurd h1 (h.absent ha (hbelow x hx hxj) u)
    · rw [Function.update_of_ne hxj] at h1
      rw [Function.update_of_ne hyj] at h2
      exact h.once x y b u w (hbelow x hx hxj) (hbelow y hy hyj) h1 h2
  · intro b w
    by_cases hba : b = a
    · subst hba
      rw [Function.update_self]
      constructor
      · intro hw
        cases hw
        exact ⟨j,by omega,Function.update_self ..⟩
      · rintro ⟨k,hk,hs⟩
        by_cases hkj : k = j
        · rw [hkj, Function.update_self] at hs
          cases hs
          rfl
        · rw [Function.update_of_ne hkj] at hs
          exact absurd hs (h.absent ha (hbelow k hk hkj) w)
    · rw [Function.update_of_ne hba, h.lookup b w]
      constructor
      · rintro ⟨k,hk,hs⟩
        have hkj : k ≠ j := by
          rintro rfl
          rcases hj with rfl | ⟨-,hnone⟩
          · omega
          · rw [hnone] at hs
            cases hs
        exact ⟨k,by omega,by rw [Function.update_of_ne hkj]; exact hs⟩
      · rintro ⟨k,hk,hs⟩
        have hkj : k ≠ j := by
          rintro rfl
          rw [Function.update_self] at hs
          cases hs
          exact hba rfl
        rw [Function.update_of_ne hkj] at hs
        exact ⟨k,hbelow k hk hkj,hs⟩

theorem Represents.erase (h : Represents n slot m) {a : κ} {v : ν} {j : ℕ} (hj : j < n)
    (hs : slot j = some (a,v)) :
    Represents n (Function.update slot j none) (Function.update m a none) := by
  have hold : ∀ k b w, Function.update slot j none k = some (b,w) → k ≠ j ∧ slot k = some (b,w) := by
    intro k b w hk
    have hkj : k ≠ j := by
      rintro rfl
      rw [Function.update_self] at hk
      cases hk
    rw [Function.update_of_ne hkj] at hk
    exact ⟨hkj,hk⟩
  constructor
  · intro x y b u w hx hy h1 h2
    exact h.once x y b u w hx hy (hold x b u h1).2 (hold y b w h2).2
  · intro b w
    by_cases hba : b = a
    · subst hba
      rw [Function.update_self]
      constructor
      · intro hw
        cases hw
      · rintro ⟨k,hk,hkb⟩
        obtain ⟨hkj,hkb⟩ := hold k b w hkb
        exact absurd (h.once k j b w v hk hj hkb hs) hkj
    · rw [Function.update_of_ne hba, h.lookup b w]
      constructor
      · rintro ⟨k,hk,hkb⟩
        have hkj : k ≠ j := by
          rintro rfl
          rw [hs] at hkb
          cases hkb
          exact hba rfl
        exact ⟨k,hk,by rw [Function.update_of_ne hkj]; exact hkb⟩
      · rintro ⟨k,hk,hkb⟩
        exact ⟨k,hk,(hold k b w hkb).2⟩

def holds (slot : ℕ → Option (κ × ν)) (a : κ) (k : ℕ) : Bool := (slot k).any (fun e => e.1 = a)

theorem holds_iff {a : κ} {k : ℕ} : holds slot a k = true ↔ ∃ v, slot k = some (a,v) := by
  rw [holds, Option.any_eq_true]
  constructor
  · rintro ⟨⟨b,v⟩,hs,hb⟩
    obtain rfl : b = a := of_decide_eq_true hb
    exact ⟨v,hs⟩
  · rintro ⟨v,hs⟩
    exact ⟨_,hs,decide_eq_true rfl⟩

theorem Represents.find_none (h : Represents n slot m) {a : κ} (ha : m a = none) :
    (List.range n).find? (holds slot a) = none := by
  rw [List.find?_eq_none]
  intro k hk hold
  obtain ⟨v,hs⟩ := holds_iff.mp hold
  exact h.absent ha (List.mem_range.mp hk) v hs

theorem Represents.find_some (h : Represents n slot m) {a : κ} {v : ν} (ha : m a = some v) :
    ∃ k < n, slot k = some (a,v) ∧ (List.range n).find? (holds slot a) = some k := by
  obtain ⟨k,hk,hs⟩ := (h.lookup a v).mp ha
  have hsome : ((List.range n).find? (holds slot a)).isSome := by
    rw [List.find?_isSome]
    exact ⟨k,List.mem_range.mpr hk,holds_iff.mpr ⟨v,hs⟩⟩
  obtain ⟨j,hj⟩ := Option.isSome_iff_exists.mp hsome
  obtain ⟨w,hw⟩ := holds_iff.mp (List.find?_some hj)
  have hjn := List.mem_range.mp (List.mem_of_find?_eq_some hj)
  have hjk := h.once j k a w v hjn hk hw hs
  rw [hjk] at hj
  exact ⟨k,hk,hs,hj⟩

end Xv6.SlotMap
