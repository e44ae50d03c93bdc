import Mathlib.Tactic

/-!
# Circular lists and loops over them

`Walk next a l b` says that the links lead from `a` through the nodes of `l` to `b`; a
circular list is a walk from its first node back to it. A circular list in ascending order
has one place for each new element, and a loop that follows the links from any node finds
it. Loops are functions of a bound on their rounds; `Returns` says what they return for
every bound that is large enough.
-/

set_option autoImplicit false

namespace Xv6.Cycle

section
variable {α β : Type} {f : ℕ → Option α} {x y : α}

def Returns (f : ℕ → Option α) (x : α) : Prop := ∃ k, ∀ j ≥ k, f j = some x

theorem Returns.unique (h : Returns f x) (h' : Returns f y) : x = y := by
  obtain ⟨k,hk⟩ := h
  obtain ⟨k',hk'⟩ := h'
  exact Option.some.inj ((hk _ (le_max_left k k')).symm.trans (hk' _ (le_max_right k k')))

theorem Returns.always (h : ∀ k, f k = some x) : Returns f x := ⟨0,fun j _ => h j⟩

theorem Returns.succ (h : Returns (fun k => f (k+1)) x) : Returns f x := by
  obtain ⟨k,hk⟩ := h
  refine ⟨k+1,fun j hj => ?_⟩
  obtain ⟨j,rfl⟩ : ∃ i, j = i+1 := ⟨j-1,by omega⟩
  exact hk j (by omega)

theorem Returns.bind {g : α → ℕ → Option β} {z : β} (h : Returns f x) (h' : Returns (g x) z) :
    Returns (fun k => (f k).bind fun a => g a k) z := by
  obtain ⟨k,hk⟩ := h
  obtain ⟨k',hk'⟩ := h'
  refine ⟨max k k',fun j hj => ?_⟩
  dsimp only
  rw [hk j (le_of_max_le_left hj), Option.bind_some]
  exact hk' j (le_of_max_le_right hj)

end

variable {α : Type} {next next' : α → α} {a b x y : α} {l l' m : List α}

def Walk (next : α → α) : α → List α → α → Prop
  | a, [], b => next a = b
  | a, x::l, b => next a = x ∧ Walk next x l b

theorem walk_append : Walk next a (l++x::l') b ↔ Walk next a l x ∧ Walk next x l' b := by
  induction l generalizing a with
  | nil => exact Iff.rfl
  | cons y l ih =>
    change next a = y ∧ Walk next y (l++x::l') b ↔ (next a = y ∧ Walk next y l x) ∧ Walk next x l' b
    rw [ih, and_assoc]

theorem Walk.move (h : Walk next x l b) (hy : next' y = next x) (hl : ∀ z ∈ l, next' z = next z) :
    Walk next' y l b := by
  induction l generalizing x y with
  | nil => exact hy.trans h
  | cons c l ih =>
    refine ⟨hy.trans h.1,ih h.2 (hl c List.mem_cons_self) ?_⟩
    exact fun z hz => hl z (List.mem_cons_of_mem c hz)

theorem Walk.drop (h : Walk next a (l++l') b) : Walk next (l.getLastD a) l' b := by
  induction l generalizing a with
  | nil => exact h
  | cons c l ih =>
    rw [List.getLastD_cons]
    exact ih h.2

theorem Walk.splice (h : Walk next a (l++l') b) (hdup : (a::l).Nodup)
    (hn : ∀ y ∈ a::l, y ≠ l.getLastD a → next' y = next y) (hm : Walk next' (l.getLastD a) m b) :
    Walk next' a (l++m) b := by
  induction l generalizing a with
  | nil => exact hm
  | cons c l ih =>
    rw [List.getLastD_cons] at hn hm
    have hmem : l.getLastD c ∈ c::l := List.getLastD_mem_cons
    have hne : a ≠ l.getLastD c := by
      intro he
      rw [← he] at hmem
      exact (List.nodup_cons.mp hdup).1 hmem
    refine ⟨(hn a List.mem_cons_self hne).trans h.1,?_⟩
    exact ih h.2 (List.nodup_cons.mp hdup).2 (fun y hy => hn y (List.mem_cons_of_mem a hy)) hm

theorem exists_getLastD (h : x ∈ a::l) : ∃ l1 l2, l = l1++l2 ∧ l1.getLastD a = x := by
  rcases List.mem_cons.mp h with rfl | h
  · exact ⟨[],l,rfl,rfl⟩
  · obtain ⟨l1,l2,rfl⟩ := List.append_of_mem h
    exact ⟨l1++[x],l2,by simp,by simp⟩

theorem Walk.rotate (h : Walk next b l b) (hx : x ∈ b::l) :
    ∃ l', Walk next x l' x ∧ (x::l').Perm (b::l) := by
  rcases List.mem_cons.mp hx with rfl | hx
  · exact ⟨l,h,List.Perm.refl _⟩
  · obtain ⟨l1,l2,rfl⟩ := List.append_of_mem hx
    obtain ⟨h1,h2⟩ := walk_append.mp h
    refine ⟨l2++b::l1,walk_append.mpr ⟨h2,h1⟩,?_⟩
    rw [← List.cons_append, ← List.cons_append]
    exact List.perm_append_comm

theorem Walk.pred (h : Walk next b l b) (hy : y ∈ b::l) : ∃ x ∈ b::l, next x = y := by
  rcases List.mem_cons.mp hy with rfl | hy
  · refine ⟨l.getLastD y,List.getLastD_mem_cons,?_⟩
    rw [← List.append_nil l] at h
    exact h.drop
  · obtain ⟨l1,l2,rfl⟩ := List.append_of_mem hy
    have h1 := (walk_append.mp h).1
    rw [← List.append_nil l1] at h1
    refine ⟨l1.getLastD b,?_,h1.drop⟩
    rw [← List.cons_append]
    exact List.mem_append_left _ List.getLastD_mem_cons

/-! ### Following the links until a test succeeds -/

def seek (P : α → Bool) (next : α → α) : ℕ → α → Option α
  | 0, _ => none
  | k+1, x => if P x then some x else seek P next k (next x)

theorem seek_found {P : α → Bool} (h : P x = true) : Returns (fun k => seek P next k x) x :=
  Returns.succ (Returns.always fun k => by rw [seek, if_pos h])

theorem seek_next {P : α → Bool} (h : ¬ P x = true) (hn : Returns (fun k => seek P next k (next x)) y) :
    Returns (fun k => seek P next k x) y := by
  refine Returns.succ ?_
  obtain ⟨k,hk⟩ := hn
  refine ⟨k,fun j hj => ?_⟩
  change seek P next (j+1) x = some y
  rw [seek, if_neg h]
  exact hk j hj

theorem seek_walk {P : α → Bool} (h : Walk next x l b) :
    (∃ z ∈ x::l, P z = true ∧ Returns (fun k => seek P next k x) z) ∨
      (∀ z ∈ x::l, ¬ P z = true) ∧
        ∀ y, Returns (fun k => seek P next k b) y → Returns (fun k => seek P next k x) y := by
  induction l generalizing x with
  | nil =>
    by_cases hp : P x = true
    · exact .inl ⟨x,List.mem_cons_self,hp,seek_found hp⟩
    · refine .inr ⟨by simpa using hp,fun y hy => seek_next hp ?_⟩
      rw [show next x = b from h]
      exact hy
  | cons c l ih =>
    by_cases hp : P x = true
    · exact .inl ⟨x,List.mem_cons_self,hp,seek_found hp⟩
    · have hc : next x = c := h.1
      rcases ih h.2 with ⟨z,hz,hpz,hr⟩ | ⟨hno,hr⟩
      · refine .inl ⟨z,List.mem_cons_of_mem x hz,hpz,seek_next hp ?_⟩
        rw [hc]
        exact hr
      · refine .inr ⟨?_,fun y hy => seek_next hp ?_⟩
        · intro z hz
          rcases List.mem_cons.mp hz with rfl | hz
          · exact hp
          · exact hno z hz
        · rw [hc]
          exact hr y hy

theorem seek_ring {P : α → Bool} (h : Walk next b l b) (hx : x ∈ b::l) (hy : y ∈ b::l) (hP : P y = true)
    (honly : ∀ z ∈ b::l, P z = true → z = y) : Returns (fun k => seek P next k x) y := by
  obtain ⟨l',hw,hperm⟩ := h.rotate hx
  rcases seek_walk hw with ⟨z,hz,hpz,hr⟩ | ⟨hno,-⟩
  · rw [← honly z (hperm.mem_iff.mp hz) hpz]
    exact hr
  · exact absurd hP (hno y (hperm.mem_iff.mpr hy))

/-! ### Circular lists in ascending order -/

section
variable [LinearOrder α]

/-- The links go up to the next larger node, and from the largest back to the first. -/
theorem Walk.next_cases (h : Walk next b l b) (hs : (b::l).Pairwise (· < ·)) (hx : x ∈ b::l) :
    (next x = b ∧ ∀ y ∈ b::l, y ≤ x) ∨
      (x < next x ∧ next x ∈ l ∧ ∀ y ∈ b::l, x < y → next x ≤ y) := by
  obtain ⟨l1,l2,rfl,rfl⟩ := exists_getLastD hx
  have hrest := h.drop
  have hle : ∀ y ∈ b::l1, y ≤ l1.getLastD b := by
    intro y hy
    rcases List.eq_nil_or_concat l1 with rfl | ⟨l1,c,rfl⟩
    · exact le_of_eq (List.mem_singleton.mp hy)
    · rw [List.concat_eq_append, List.getLastD_concat]
      rw [List.concat_eq_append, ← List.cons_append, List.mem_append, List.mem_singleton] at hy
      rcases hy with hy | rfl
      · rw [List.concat_eq_append, List.append_assoc, ← List.cons_append, List.pairwise_append] at hs
        exact (hs.2.2 y hy c (by simp)).le
      · exact le_rfl
  have hmem : l1.getLastD b ∈ b::l1 := List.getLastD_mem_cons
  rw [← List.cons_append, List.pairwise_append] at hs
  cases l2 with
  | nil =>
    refine .inl ⟨hrest,fun y hy => hle y ?_⟩
    rw [List.append_nil] at hy
    exact hy
  | cons c l2 =>
    have hc : next (l1.getLastD b) = c := hrest.1
    rw [hc]
    refine .inr ⟨hs.2.2 _ hmem c List.mem_cons_self,by simp,fun y hy hlt => ?_⟩
    rw [← List.cons_append, List.mem_append] at hy
    rcases hy with hy | hy
    · exact absurd (hle y hy) hlt.not_ge
    · rcases List.mem_cons.mp hy with rfl | hy
      · exact le_rfl
      · exact ((List.pairwise_cons.mp hs.2.1).1 y hy).le

/-- The place of `y` is behind `x`: between `x` and the next node, or at the wrap. -/
def Slot (next : α → α) (y x : α) : Prop :=
  (x < y ∧ y < next x) ∨ (next x ≤ x ∧ (x < y ∨ y < next x))

theorem Walk.slot_unique (h : Walk next b l b) (hs : (b::l).Pairwise (· < ·)) (hb : b < y)
    {z : α} (hx : x ∈ b::l) (hz : z ∈ b::l) (hsx : Slot next y x) (hsz : Slot next y z) : x = z := by
  have hbetween : ∀ u v, u ∈ b::l → v ∈ b::l → Slot next y u → Slot next y v → ¬ u < v := by
    intro u v hu hv hsu hsv huv
    rcases h.next_cases hs hu with ⟨-,hle⟩ | ⟨hlt,-,hle⟩
    · exact absurd (hle v hv) huv.not_ge
    · have hyv : y < v := by
        rcases hsu with ⟨-,hy⟩ | ⟨hge,-⟩
        · exact hy.trans_le (hle v hv huv)
        · exact absurd hlt hge.not_gt
      rcases hsv with ⟨hvy,-⟩ | ⟨hge,hvy | hyn⟩
      · exact absurd hvy hyv.not_gt
      · exact absurd hvy hyv.not_gt
      · rcases h.next_cases hs hv with ⟨hnb,-⟩ | ⟨hltv,-⟩
        · rw [hnb] at hyn
          exact absurd hyn hb.not_gt
        · exact absurd hltv hge.not_gt
  exact le_antisymm (not_lt.mp (hbetween z x hz hx hsz hsx)) (not_lt.mp (hbetween x z hx hz hsx hsz))

theorem Walk.slot_exists (h : Walk next b (l++l') b) (hb : b < y) (hlow : ∀ z ∈ l, z < y)
    (hhigh : ∀ z ∈ l', y < z) (hs : (b::(l++l')).Pairwise (· < ·)) : Slot next y (l.getLastD b) := by
  have hmem : l.getLastD b ∈ b::l := List.getLastD_mem_cons
  have hlt : l.getLastD b < y := by
    rcases List.mem_cons.mp hmem with he | hl
    · rw [he]
      exact hb
    · exact hlow _ hl
  have hrest := h.drop
  cases l' with
  | nil =>
    have hn : next (l.getLastD b) = b := hrest
    refine .inr ⟨?_,.inl hlt⟩
    rw [hn]
    rcases List.mem_cons.mp hmem with he | hl
    · exact he.ge
    · exact ((List.pairwise_cons.mp hs).1 _ (List.mem_append_left _ hl)).le
  | cons c l' =>
    have hn : next (l.getLastD b) = c := hrest.1
    refine .inl ⟨hlt,?_⟩
    rw [hn]
    exact hhigh c List.mem_cons_self

end

end Xv6.Cycle
