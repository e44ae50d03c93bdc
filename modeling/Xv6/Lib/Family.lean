import Mathlib.Logic.Function.Basic

/-!
# Family trees over reused slots

Parties live in slots, and every slot can be freed and used again. A live party
makes a child in steps of its own, becomes the parent of it, and before it dies
hands its children to the root, one slot after the other; a dead party is removed
later. Asleep are the parties that wait for a child to die. The invariants say that
a stored parent is never a stale one and that nobody sleeps beside a dead child.
-/

set_option autoImplicit false

namespace Xv6.Family

inductive Phase where
  | free
  | nascent
  | live
  | dead
  deriving DecidableEq

/-- Where a party is: making a child that has no parent yet or has it, or handing over
its children with the slots still to visit. -/
inductive Point (ι : Type) where
  | idle
  | forking (np : ι)
  | placed (np : ι)
  | leaving (todo : List ι)

structure Tree (ι : Type) where
  phase : ι → Phase
  parent : ι → Option ι
  point : ι → Point ι
  asleep : ι → Prop
  root : ι

variable {ι : Type} [DecidableEq ι]

def Tree.Calm (s : Tree ι) : Prop := ∀ i ps, s.point i ≠ .leaving ps

/-- The phase `a` and the parent `c` are stored in the slot `p`, `i` moves to `x`, and
nobody falls asleep. -/
structure Put (s s' : Tree ι) (p : ι) (a : Phase) (c : Option ι) (i : ι) (x : Point ι) :
    Prop where
  phase : ∀ j, s'.phase j = if j = p then a else s.phase j
  parent : ∀ j, s'.parent j = if j = p then c else s.parent j
  point : ∀ j, s'.point j = if j = i then x else s.point j
  root : s'.root = s.root
  asleep : ∀ q, s'.asleep q → s.asleep q

inductive Move (s s' : Tree ι) : Prop where
  | rest (hphase : ∀ j, s'.phase j = s.phase j) (hparent : ∀ j, s'.parent j = s.parent j)
      (hpoint : ∀ j, s'.point j = s.point j) (hroot : s'.root = s.root)
      (hasleep : ∀ q, s'.asleep q → s.asleep q ∨
        s.Calm ∧ ∀ p, s.parent p = some q → s.phase p ≠ .dead)
  | leave {i : ι} {ps : List ι} (hc : s.Calm) (hi : s.phase i = .live) (hp : s.point i = .idle)
      (hne : i ≠ s.root) (hps : ∀ p, p ∈ ps) (ha : ∀ q, s.parent i = some q → ¬ s'.asleep q)
      (hm : Put s s' i (s.phase i) (s.parent i) i (.leaving ps))
  | alloc {i np : ι} (hi : s.phase i = .live) (hp : s.point i = .idle)
      (hu : s.phase np = .free) (hm : Put s s' np .nascent (s.parent np) i (.forking np))
  | fail {i np : ι} (hp : s.point i = .forking np)
      (hm : Put s s' np .free (s.parent np) i .idle)
  | place {i np : ι} (hp : s.point i = .forking np)
      (hm : Put s s' np (s.phase np) (some i) i (.placed np))
  | launch {i np : ι} (hp : s.point i = .placed np)
      (hm : Put s s' np .live (s.parent np) i .idle)
  | adopt {i p : ι} {ps : List ι} (hp : s.point i = .leaving (p::ps))
      (ha : s.phase p = .dead → s.parent p = some i → ¬ s'.asleep s.root)
      (hm : Put s s' p (s.phase p) (if s.parent p = some i then some s.root else s.parent p) i
        (.leaving ps))
  | die {i : ι} (hp : s.point i = .leaving []) (hm : Put s s' i .dead (s.parent i) i .idle)
  | reap {i p : ι} (hz : s.phase p = .dead) (hm : Put s s' p .free none i (s.point i))

/-- The child of this point is being made. -/
@[grind]
def Point.Owns (x : Point ι) (np : ι) : Prop := x = .forking np ∨ x = .placed np

/-- Only live parties make a child or leave, a child is made by one party, and one at a
time leaves. -/
structure Shape (s : Tree ι) : Prop where
  owns : ∀ i np, (s.point i).Owns np → s.phase i = .live ∧ s.phase np = .nascent
  owner : ∀ i j np, (s.point i).Owns np → (s.point j).Owns np → i = j
  leaving : ∀ i ps, s.point i = .leaving ps → s.phase i = .live ∧ i ≠ s.root
  solo : ∀ i j ps qs, s.point i = .leaving ps → s.point j = .leaving qs → i = j
  root : s.phase s.root = .live

/-- The parents that a slot has in each phase. -/
structure Kin (s : Tree ι) : Prop where
  free : ∀ p, s.phase p = .free → s.parent p = none
  forking : ∀ i np, s.point i = .forking np → s.parent np = none
  placed : ∀ i np, s.point i = .placed np → s.parent np = some i
  live : ∀ p q, s.parent p = some q → s.phase q = .live
  child : ∀ p, s.phase p = .live ∨ s.phase p = .dead → p ≠ s.root → s.parent p ≠ none
  root : s.parent s.root = none
  irrefl : ∀ p, s.parent p ≠ some p
  handed : ∀ i ps p, s.point i = .leaving ps → s.parent p = some i → p ∈ ps

/-- Nobody sleeps beside a dead child, or beside one that is about to die. -/
structure Quiet (s : Tree ι) : Prop where
  dead : ∀ p q, s.phase p = .dead → s.parent p = some q → ¬ s.asleep q
  leaving : ∀ i ps q, s.point i = .leaving ps → s.parent i = some q → ¬ s.asleep q

theorem shape_step {s s' : Tree ι} (h : Shape s) (hs : Move s s') : Shape s' := by
  obtain ⟨h1,h2,h3,h4,h5⟩ := h
  cases hs with
  | rest hphase _ hpoint hroot _ => constructor <;> grind
  | leave hc hi hp hne _ _ hm =>
    obtain ⟨m1,-,m3,m4,-⟩ := hm
    constructor <;> grind [Tree.Calm]
  | alloc hi hp hu hm =>
    obtain ⟨m1,-,m3,m4,-⟩ := hm
    constructor <;> grind
  | fail hp hm =>
    -- the freed slot was owned by `i`, so it is live nowhere and owned by nobody else
    obtain ⟨m1,-,m3,m4,-⟩ := hm
    constructor <;> grind
  | place hp hm =>
    obtain ⟨m1,-,m3,m4,-⟩ := hm
    constructor <;> grind
  | launch hp hm =>
    obtain ⟨m1,-,m3,m4,-⟩ := hm
    constructor <;> grind
  | adopt hp _ hm =>
    obtain ⟨m1,-,m3,m4,-⟩ := hm
    constructor <;> grind
  | die hp hm =>
    obtain ⟨m1,-,m3,m4,-⟩ := hm
    constructor <;> grind
  | reap hz hm =>
    obtain ⟨m1,-,m3,m4,-⟩ := hm
    constructor <;> grind

theorem kin_step {s s' : Tree ι} (hg : Shape s) (h : Kin s) (hs : Move s s') : Kin s' := by
  obtain ⟨g1,g2,g3,-,g5⟩ := hg
  obtain ⟨h1,h2,h3,h4,h5,h6,h7,h8⟩ := h
  cases hs with
  | rest hphase hparent hpoint hroot _ => constructor <;> grind
  | leave _ hi hp _ hps _ hm =>
    obtain ⟨m1,m2,m3,m4,-⟩ := hm
    constructor <;> grind
  | alloc hi hp hu hm =>
    -- a free slot has no parent and is nobody's parent
    obtain ⟨m1,m2,m3,m4,-⟩ := hm
    constructor <;> grind
  | fail hp hm =>
    obtain ⟨m1,m2,m3,m4,-⟩ := hm
    constructor <;> grind
  | place hp hm =>
    obtain ⟨m1,m2,m3,m4,-⟩ := hm
    constructor <;> grind
  | launch hp hm =>
    obtain ⟨m1,m2,m3,m4,-⟩ := hm
    constructor <;> grind
  | adopt hp _ hm =>
    obtain ⟨m1,m2,m3,m4,-⟩ := hm
    constructor <;> grind
  | die hp hm =>
    -- every slot has been visited, so no slot names the dying party
    obtain ⟨m1,m2,m3,m4,-⟩ := hm
    constructor <;> grind
  | reap hz hm =>
    -- only live parties are parents, so no slot names the dead one
    obtain ⟨m1,m2,m3,m4,-⟩ := hm
    constructor <;> grind

theorem quiet_step {s s' : Tree ι} (hg : Shape s) (hk : Kin s) (h : Quiet s)
    (hs : Move s s') : Quiet s' := by
  have g1 := hg.owns
  have g4 := hg.solo
  have k7 := hk.irrefl
  obtain ⟨h1,h2⟩ := h
  cases hs with
  | rest hphase hparent hpoint _ hasleep => constructor <;> grind [Tree.Calm]
  | leave hc _ _ _ _ ha hm =>
    obtain ⟨m1,m2,m3,-,m5⟩ := hm
    constructor <;> grind [Tree.Calm]
  | alloc _ _ hu hm =>
    obtain ⟨m1,m2,m3,-,m5⟩ := hm
    constructor <;> grind
  | fail hp hm =>
    obtain ⟨m1,m2,m3,-,m5⟩ := hm
    constructor <;> grind
  | place hp hm =>
    have g3 := hg.leaving
    obtain ⟨m1,m2,m3,-,m5⟩ := hm
    constructor <;> grind
  | launch hp hm =>
    obtain ⟨m1,m2,m3,-,m5⟩ := hm
    constructor <;> grind
  | adopt hp ha hm =>
    obtain ⟨m1,m2,m3,-,m5⟩ := hm
    constructor <;> grind
  | die hp hm =>
    -- its parent has been awake since `i` began to leave
    obtain ⟨m1,m2,m3,-,m5⟩ := hm
    constructor <;> grind
  | reap hz hm =>
    obtain ⟨m1,m2,m3,-,m5⟩ := hm
    constructor <;> grind

structure Sound (s : Tree ι) : Prop where
  shape : Shape s
  kin : Kin s
  quiet : Quiet s

theorem sound_step {s s' : Tree ι} (h : Sound s) (hs : Move s s') : Sound s' :=
  ⟨shape_step h.shape hs,kin_step h.shape h.kin hs,quiet_step h.shape h.kin h.quiet hs⟩

end Xv6.Family
