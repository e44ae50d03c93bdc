import Mathlib.Tactic

/-!
# Tilings of an amount of memory

Spans of addresses that do not overlap and together are exactly the memory that was
granted. A span may be cut in two or joined with its neighbour, and new memory above all
there is comes with its own span.
-/

set_option autoImplicit false

namespace Xv6.Tiling

/-- The addresses from `lo` up to `hi`. -/
structure Span where
  lo : ℕ
  hi : ℕ

def Span.Has (s : Span) (x : ℕ) : Prop := s.lo ≤ x ∧ x < s.hi

def Span.Apart (s t : Span) : Prop := s.hi ≤ t.lo ∨ t.hi ≤ s.lo

def Span.bytes (s : Span) : ℕ := s.hi-s.lo

theorem Span.Apart.symm {s t : Span} (h : s.Apart t) : t.Apart s := Or.symm h

instance : Std.Symm Span.Apart := ⟨fun _ _ => Span.Apart.symm⟩

structure Tiles (granted spans : List Span) : Prop where
  nonempty : ∀ s ∈ spans, s.lo < s.hi
  apart : spans.Pairwise Span.Apart
  cover : ∀ x, (∃ s ∈ spans, s.Has x) ↔ ∃ g ∈ granted, g.Has x
  total : (spans.map Span.bytes).sum = (granted.map Span.bytes).sum

variable {granted spans spans' : List Span} {a b c : ℕ}

theorem Tiles.none : Tiles [] [] := ⟨by simp,List.Pairwise.nil,by simp,rfl⟩

theorem Tiles.perm (h : Tiles granted spans) (hp : spans.Perm spans') : Tiles granted spans' where
  nonempty s hs := h.nonempty s (hp.mem_iff.mpr hs)
  apart := (hp.pairwise_iff Span.Apart.symm).mp h.apart
  cover x := by
    rw [← h.cover x]
    exact ⟨fun ⟨s,hs,hx⟩ => ⟨s,hp.mem_iff.mpr hs,hx⟩,fun ⟨s,hs,hx⟩ => ⟨s,hp.mem_iff.mp hs,hx⟩⟩
  total := by rw [← h.total, (hp.map Span.bytes).sum_eq]

theorem apart_cut {s : Span} (hab : a < b) (hbc : b < c) (hs : s.lo < s.hi) :
    (⟨a,c⟩ : Span).Apart s ↔ (⟨a,b⟩ : Span).Apart s ∧ (⟨b,c⟩ : Span).Apart s := by
  simp only [Span.Apart]
  omega

theorem Tiles.cut (hab : a < b) (hbc : b < c) :
    Tiles granted (⟨a,c⟩::spans) ↔ Tiles granted (⟨a,b⟩::⟨b,c⟩::spans) := by
  have hhas : ∀ x, (⟨a,c⟩ : Span).Has x ↔ (⟨a,b⟩ : Span).Has x ∨ (⟨b,c⟩ : Span).Has x := by
    intro x
    simp only [Span.Has]
    omega
  have hsum : (⟨a,c⟩ : Span).bytes = (⟨a,b⟩ : Span).bytes+(⟨b,c⟩ : Span).bytes := by
    simp only [Span.bytes]
    omega
  have hcover : ∀ x, (∃ s ∈ (⟨a,c⟩ : Span)::spans, s.Has x) ↔ ∃ s ∈ (⟨a,b⟩ : Span)::⟨b,c⟩::spans, s.Has x := by
    intro x
    simp only [List.mem_cons, exists_eq_or_imp, hhas, or_assoc]
  constructor
  · intro h
    have hpos : ∀ s ∈ spans, s.lo < s.hi := fun s hs => h.nonempty s (List.mem_cons_of_mem _ hs)
    obtain ⟨hac,hrest⟩ := List.pairwise_cons.mp h.apart
    refine ⟨?_,?_,fun x => (hcover x).symm.trans (h.cover x),?_⟩
    · rw [List.forall_mem_cons, List.forall_mem_cons]
      exact ⟨hab,hbc,hpos⟩
    · rw [List.pairwise_cons, List.forall_mem_cons, List.pairwise_cons]
      exact ⟨⟨.inl le_rfl,fun s hs => ((apart_cut hab hbc (hpos s hs)).mp (hac s hs)).1⟩,
        fun s hs => ((apart_cut hab hbc (hpos s hs)).mp (hac s hs)).2,hrest⟩
    · rw [← h.total, List.map_cons, List.map_cons, List.map_cons, List.sum_cons, List.sum_cons, List.sum_cons,
        hsum, add_assoc]
  · intro h
    have hpos : ∀ s ∈ spans, s.lo < s.hi :=
      fun s hs => h.nonempty s (List.mem_cons_of_mem _ (List.mem_cons_of_mem _ hs))
    obtain ⟨hab',hbc'⟩ := List.pairwise_cons.mp h.apart
    obtain ⟨hbs,hrest⟩ := List.pairwise_cons.mp hbc'
    refine ⟨?_,?_,fun x => (hcover x).trans (h.cover x),?_⟩
    · rw [List.forall_mem_cons]
      exact ⟨hab.trans hbc,hpos⟩
    · rw [List.pairwise_cons]
      exact ⟨fun s hs => (apart_cut hab hbc (hpos s hs)).mpr
        ⟨hab' s (List.mem_cons_of_mem _ hs),hbs s hs⟩,hrest⟩
    · rw [← h.total, List.map_cons, List.map_cons, List.map_cons, List.sum_cons, List.sum_cons, List.sum_cons,
        hsum, add_assoc]

theorem Tiles.within (h : Tiles granted spans) {lo hi : ℕ} (hg : ∀ g ∈ granted, lo ≤ g.lo ∧ g.hi ≤ hi)
    {s : Span} (hs : s ∈ spans) : lo ≤ s.lo ∧ s.hi ≤ hi := by
  have hpos := h.nonempty s hs
  obtain ⟨g,hgm,hgx⟩ := (h.cover s.lo).mp ⟨s,hs,le_rfl,hpos⟩
  obtain ⟨g',hgm',hgx'⟩ := (h.cover (s.hi-1)).mp ⟨s,hs,by omega,by omega⟩
  have h1 := (hg g hgm).1
  have h2 := (hg g' hgm').2
  simp only [Span.Has] at hgx hgx'
  omega

theorem Tiles.fresh (h : Tiles granted spans) (hg : ∀ g ∈ granted, g.hi ≤ a) (hab : a < b) :
    Tiles (⟨a,b⟩::granted) (⟨a,b⟩::spans) where
  nonempty := List.forall_mem_cons.mpr ⟨hab,h.nonempty⟩
  apart := List.pairwise_cons.mpr ⟨fun s hs => .inr (h.within (fun g hgm => ⟨Nat.zero_le _,hg g hgm⟩) hs).2,h.apart⟩
  cover x := by simp only [List.mem_cons, exists_eq_or_imp, h.cover]
  total := by rw [List.map_cons, List.map_cons, List.sum_cons, List.sum_cons, h.total]

end Xv6.Tiling
