import Mathlib.Data.List.Nodup
import Mathlib.Tactic

/-!
# Circular doubly linked lists

A list of cells with a head: `next` and `prev` map cells to cells, `none` is the head.
The pointers are read as paths from the head to itself, the backward one along the
reversed list, so that unlinking a cell and putting one at the front are shown once for
a path and hold in both directions.
-/

set_option autoImplicit false

namespace Xv6.Links

variable {ι : Type*}

/-- Following `f` from `a` leads through `xs` to `c`. -/
def Path (f : Option ι → Option ι) : Option ι → List ι → Option ι → Prop
  | a, [], c => f a = c
  | a, x::xs, c => f a = some x ∧ Path f (some x) xs c

/-- The last cell of a path from `a` through `xs`. -/
def last : Option ι → List ι → Option ι
  | a, [] => a
  | _, x::xs => last (some x) xs

theorem last_mem (a : Option ι) (xs : List ι) : last a xs ∈ a::xs.map some := by
  induction xs generalizing a with
  | nil => simp [last]
  | cons x xs ih =>
    rw [last, List.map_cons]
    exact List.mem_cons_of_mem _ (ih (some x))

theorem last_getLast (a : ι) (xs : List ι) : last (some a) xs = (a::xs).getLast? := by
  induction xs generalizing a with
  | nil => rfl
  | cons x xs ih => rw [last, ih, List.getLast?_cons_cons]

theorem last_none (xs : List ι) : last none xs = xs.getLast? := by
  cases xs with
  | nil => rfl
  | cons x xs => exact last_getLast x xs

variable {f g : Option ι → Option ι} {a c : Option ι} {b : ι} {xs l r : List ι}

theorem path_append : Path f a (l++b::r) c ↔ Path f a l (some b) ∧ Path f (some b) r c := by
  induction l generalizing a with
  | nil => rfl
  | cons x l ih => simp only [List.cons_append, Path, ih, and_assoc]

theorem Path.congr (h : Path f a xs c) (hg : ∀ u ∈ a::xs.map some, g u = f u) : Path g a xs c := by
  induction xs generalizing a with
  | nil => exact (hg a (by simp)).trans h
  | cons x xs ih =>
    exact ⟨(hg a (by simp)).trans h.1,ih h.2 fun u hu => hg u (List.mem_cons_of_mem a hu)⟩

theorem Path.first (h : Path f a xs none) : f a = xs.head? := by
  cases xs with
  | nil => exact h
  | cons x xs => exact h.1

/-- The loop that follows `f` from a cell until one passes the test or it is back at the
head, with `k` steps to spend. -/
def walk (f : Option ι → Option ι) (test : ι → Bool) : ℕ → Option ι → Option ι
  | 0, _ => none
  | _, none => none
  | k+1, some b => if test b then some b else walk f test k (f (some b))

theorem walk_find (test : ι → Bool) (h : Path f a xs none) {k : ℕ} (hk : xs.length < k) :
    walk f test k (f a) = xs.find? test := by
  induction xs generalizing a k with
  | nil =>
    rw [show f a = none from h]
    cases k <;> rfl
  | cons x xs ih =>
    cases k with
    | zero => exact absurd hk (Nat.not_lt_zero _)
    | succ k =>
      rw [h.1, walk, List.find?_cons]
      cases htest : test x with
      | true => simp
      | false =>
        simp only [Bool.false_eq_true, if_false]
        exact ih h.2 (by simpa using hk)

structure Ptrs (ι : Type*) where
  next : Option ι → Option ι
  prev : Option ι → Option ι

/-- The pointers are those of the circular list of the cells `xs`. -/
structure Linked (p : Ptrs ι) (xs : List ι) : Prop where
  nodup : xs.Nodup
  next : Path p.next none xs none
  prev : Path p.prev none xs.reverse none

variable {p : Ptrs ι}

theorem nodup_nodes (h : xs.Nodup) : ((none : Option ι)::xs.map some).Nodup := by
  rw [List.nodup_cons]
  exact ⟨by simp,h.map (Option.some_injective ι)⟩

theorem Linked.around (h : Linked p (l++b::r)) :
    p.next (some b) = r.head? ∧ p.prev (some b) = l.getLast? := by
  have hp := h.prev
  rw [List.reverse_append, List.reverse_cons, List.append_assoc, List.singleton_append] at hp
  refine ⟨(path_append.mp h.next).2.first,?_⟩
  rw [(path_append.mp hp).2.first, List.head?_reverse]

variable [DecidableEq ι]

theorem Path.redirect (h : Path f a xs c) (hn : (a::xs.map some).Nodup) (d : Option ι) :
    Path (Function.update f (last a xs) d) a xs d := by
  induction xs generalizing a with
  | nil => exact Function.update_self ..
  | cons x xs ih =>
    rw [List.map_cons, List.nodup_cons] at hn
    have hne : a ≠ last (some x) xs := fun heq => hn.1 (heq ▸ last_mem (some x) xs)
    exact ⟨(Function.update_of_ne hne ..).trans h.1,ih h.2 hn.2⟩

theorem Path.unlink (h : Path f a (l++b::r) c) (hn : (a::(l++b::r).map some).Nodup) :
    Path (Function.update f (last a l) (f (some b))) a (l++r) c := by
  obtain ⟨h1,h2⟩ := path_append.mp h
  have hl : (a::l.map some).Nodup := by
    rw [List.map_append, ← List.cons_append] at hn
    exact hn.of_append_left
  cases r with
  | nil =>
    rw [List.append_nil, show f (some b) = c from h2]
    exact h1.redirect hl c
  | cons y r =>
    rw [h2.1]
    refine path_append.mpr ⟨h1.redirect hl (some y),h2.2.congr fun u hu => ?_⟩
    refine Function.update_of_ne ?_ ..
    rintro rfl
    rw [List.map_append, ← List.cons_append, List.map_cons] at hn
    exact (List.nodup_append.mp hn).2.2 _ (last_mem a l) _ (List.mem_cons_of_mem _ hu) rfl

theorem Path.push (h : Path f a xs c) (ha : a ∉ xs.map some) (hb : some b ∉ a::xs.map some) :
    Path (Function.update (Function.update f (some b) (f a)) a (some b)) a (b::xs) c := by
  rw [List.mem_cons, not_or] at hb
  have hfb : ∀ x, Function.update (Function.update f (some b) x) a (some b) (some b) = x := by
    intro x
    rw [Function.update_of_ne hb.1, Function.update_self]
  refine ⟨Function.update_self ..,?_⟩
  cases xs with
  | nil =>
    have hc : f a = c := h
    rw [hc]
    exact hfb c
  | cons y xs =>
    rw [h.1]
    refine ⟨hfb (some y),h.2.congr fun u hu => ?_⟩
    have hua : u ≠ a := by
      rintro rfl
      exact ha hu
    have hub : u ≠ some b := by
      rintro rfl
      exact hb.2 hu
    rw [Function.update_of_ne hua, Function.update_of_ne hub]

theorem Path.snoc (h : Path f a xs c) (hn : (a::xs.map some).Nodup) (hb : some b ∉ a::xs.map some) :
    Path (Function.update (Function.update f (some b) c) (last a xs) (some b)) a (xs++[b]) c := by
  have hg : Path (Function.update f (some b) c) a xs c := by
    refine h.congr fun u hu => Function.update_of_ne ?_ ..
    rintro rfl
    exact hb hu
  refine path_append.mpr ⟨hg.redirect hn (some b),?_⟩
  have hne : some b ≠ last a xs := fun heq => hb (heq ▸ last_mem a xs)
  exact (Function.update_of_ne hne ..).trans (Function.update_self ..)

/-! ## Unlinking and pushing -/

/-- The assignments that take a cell out of its list. -/
def Ptrs.unlink (p : Ptrs ι) (b : ι) : Ptrs ι :=
  let p := { p with prev := Function.update p.prev (p.next (some b)) (p.prev (some b)) }
  { p with next := Function.update p.next (p.prev (some b)) (p.next (some b)) }

/-- The assignments that put a cell at the front of the list. -/
def Ptrs.push (p : Ptrs ι) (b : ι) : Ptrs ι :=
  let p := { p with next := Function.update p.next (some b) (p.next none) }
  let p := { p with prev := Function.update p.prev (some b) none }
  let p := { p with prev := Function.update p.prev (p.next none) (some b) }
  { p with next := Function.update p.next none (some b) }

theorem Linked.unlink (h : Linked p (l++b::r)) : Linked (p.unlink b) (l++r) := by
  obtain ⟨hnext,hprev⟩ := h.around
  have hnd := h.nodup
  have hr : (l++b::r).reverse = r.reverse++b::l.reverse := by simp
  have hp := h.prev
  rw [hr] at hp
  have hbr : some b ≠ r.head? := by
    intro heq
    have hmem : b ∈ r := List.mem_of_mem_head? heq.symm
    have hbr := (List.nodup_append.mp hnd).2.1
    exact (List.nodup_cons.mp hbr).1 hmem
  refine ⟨hnd.sublist ((List.sublist_cons_self b r).append_left l),?_,?_⟩
  · have hu := h.next.unlink (nodup_nodes hnd)
    rw [last_none, ← hprev] at hu
    simp only [Ptrs.unlink]
    rwa [hnext, Function.update_of_ne hbr, ← hnext]
  · have hu := hp.unlink (nodup_nodes (by rw [← hr]; exact List.nodup_reverse.mpr hnd))
    rw [last_none, List.getLast?_reverse, ← hnext] at hu
    rw [List.reverse_append]
    exact hu

theorem Linked.push (h : Linked p xs) (hb : b ∉ xs) : Linked (p.push b) (b::xs) := by
  have hbn : some b ∉ (none : Option ι)::xs.map some := by simp [hb]
  refine ⟨List.nodup_cons.mpr ⟨hb,h.nodup⟩,?_,?_⟩
  · exact h.next.push (by simp) hbn
  · have hs := h.prev.snoc (b := b) (nodup_nodes (List.nodup_reverse.mpr h.nodup)) (by simpa using hb)
    rw [List.reverse_cons]
    rw [last_none, List.getLast?_reverse, ← h.next.first] at hs
    simp only [Ptrs.push]
    rwa [Function.update_of_ne (by simp)]

theorem Linked.toFront (h : Linked p (l++b::r)) : Linked ((p.unlink b).push b) (b::(l++r)) := by
  refine h.unlink.push ?_
  have hnd := h.nodup
  rw [List.nodup_append] at hnd
  rw [List.mem_append, not_or]
  exact ⟨fun hl => hnd.2.2 b hl b (by simp) rfl,(List.nodup_cons.mp hnd.2.1).1⟩

end Xv6.Links
