import Mathlib.Tactic

/-!
# Programs that take and release locks

Parties run programs of lock operations, one after the other, and wait for a lock that is
taken. A program that holds a lock while it takes another one nests. When at most one party
at a time runs a program that nests, and no program takes a lock that it holds, no set of
parties waits for itself: whoever is waited for and waits must be the one that nests.
-/

set_option autoImplicit false

namespace Xv6.Locks

variable {ι : Type} {n : ℕ}

inductive LockOp (ι : Type) where
  | acquire (i : ι)
  | release (i : ι)

/-- From the locks in `held`, no lock is taken twice, and none while another is held unless
the program nests. At the end nothing is held. -/
def Orderly (nests : Bool) : Set ι → List (LockOp ι) → Prop
  | held, [] => held = ∅
  | held, .acquire i::ops => i ∉ held ∧ (nests = false → held = ∅) ∧ Orderly nests (insert i held) ops
  | held, .release i::ops => i ∈ held ∧ Orderly nests (held \ {i}) ops

/-- The owners of the locks, and for each party the rest of its program. -/
structure St (ι : Type) (n : ℕ) where
  owner : ι → Option (Fin n)
  todo : Fin n → List (LockOp ι)
  nests : Fin n → Bool

def St.held (s : St ι n) (p : Fin n) : Set ι := {i | s.owner i = some p}

/-- A program that nests is begun only while no other one is under way. -/
def Alone (s : St ι n) (nests : Bool) : Prop := nests = true → ∀ q, s.todo q ≠ [] → s.nests q = false

def quiet : St ι n := ⟨fun _ => none,fun _ => [],fun _ => false⟩

/-- Everybody in `S` waits for a lock of somebody in `S`. -/
def Deadlocked (s : St ι n) (S : Set (Fin n)) : Prop :=
  S.Nonempty ∧ ∀ p ∈ S, ∃ i ops, ∃ q ∈ S, s.todo p = .acquire i::ops ∧ s.owner i = some q

structure Inv (s : St ι n) : Prop where
  orderly : ∀ p, Orderly (s.nests p) (s.held p) (s.todo p)
  one : ∀ p q, s.todo p ≠ [] → s.todo q ≠ [] → s.nests p = true → s.nests q = true → p = q

variable {s s' : St ι n} {p q : Fin n} {i : ι} {ops : List (LockOp ι)}

theorem quiet_inv : Inv (quiet : St ι n) := by
  constructor <;> simp [quiet, Orderly, St.held]

theorem Inv.next (h : Inv s) {op : LockOp ι} (hp : s.todo p = op::ops)
    (htodo : s'.todo = Function.update s.todo p ops) (hnests : s'.nests = s.nests)
    (hself : Orderly (s.nests p) (s'.held p) ops) (hothers : ∀ q, q ≠ p → s'.held q = s.held q) : Inv s' := by
  have hbusy : ∀ q, s'.todo q ≠ [] → s.todo q ≠ [] := by
    intro q hq hnil
    by_cases hqp : q = p
    · rw [hqp, hp] at hnil
      cases hnil
    · exact hq (by rw [htodo, Function.update_of_ne hqp, hnil])
  constructor
  · intro q
    rw [hnests, htodo]
    by_cases hqp : q = p
    · rw [hqp, Function.update_self]
      exact hself
    · rw [hothers q hqp, Function.update_of_ne hqp]
      exact h.orderly q
  · intro q r hq hr
    rw [hnests]
    exact h.one q r (hbusy q hq) (hbusy r hr)

/-- Whoever is waited for and waits nests, and there is one such party at most. -/
theorem Inv.no_deadlock (h : Inv s) (S : Set (Fin n)) : ¬ Deadlocked s S := by
  rintro ⟨⟨p,hp⟩,hall⟩
  have hnests : ∀ q ∈ S, ∀ i, s.owner i = some q → s.todo q ≠ [] ∧ s.nests q = true := by
    intro q hq i hi
    obtain ⟨j,ops,-,-,hj,-⟩ := hall q hq
    have hord := h.orderly q
    rw [hj] at hord
    refine ⟨by rw [hj]; exact List.cons_ne_nil _ _,?_⟩
    by_contra hno
    have hempty := hord.2.1 (Bool.not_eq_true _ ▸ hno)
    exact Set.notMem_empty i (hempty ▸ hi)
  obtain ⟨i,-,q,hq,-,hi⟩ := hall p hp
  obtain ⟨j,ops,r,hr,hj,hown⟩ := hall q hq
  obtain ⟨hbq,hnq⟩ := hnests q hq i hi
  obtain ⟨hbr,hnr⟩ := hnests r hr j hown
  obtain rfl := h.one q r hbq hbr hnq hnr
  have hord := h.orderly q
  rw [hj] at hord
  exact hord.1 hown

/-! ### Programs one after the other -/

variable {b : Bool} {held : Set ι} {xs ys : List (LockOp ι)}

theorem Orderly.append (hx : Orderly b held xs) (hy : Orderly b ∅ ys) : Orderly b held (xs++ys) := by
  induction xs generalizing held with
  | nil =>
    obtain rfl : held = ∅ := hx
    exact hy
  | cons op xs ih =>
    cases op with
    | acquire i => exact ⟨hx.1,hx.2.1,ih hx.2.2⟩
    | release i => exact ⟨hx.1,ih hx.2⟩

theorem Orderly.once (b : Bool) (i : ι) (hy : Orderly b ∅ ys) : Orderly b ∅ (.acquire i::.release i::ys) := by
  refine ⟨Set.notMem_empty i,fun _ => rfl,Set.mem_insert i ∅,?_⟩
  rwa [Set.insert_sdiff_of_mem _ (Set.mem_singleton i), Set.empty_sdiff]

/-! ### The machine -/

variable [DecidableEq ι]

section
variable (progs : Bool → List (LockOp ι) → Prop) (admits : St ι n → Bool → Prop)

inductive Step (s : St ι n) : St ι n → Prop where
  | start {p : Fin n} {b : Bool} {ops : List (LockOp ι)} (h : s.todo p = []) (hp : progs b ops)
      (ha : admits s b) :
      Step s { s with todo := Function.update s.todo p ops, nests := Function.update s.nests p b }
  | acquire {p : Fin n} {i : ι} {ops : List (LockOp ι)} (h : s.todo p = .acquire i::ops)
      (hf : s.owner i = none) :
      Step s { s with todo := Function.update s.todo p ops, owner := Function.update s.owner i (some p) }
  | release {p : Fin n} {i : ι} {ops : List (LockOp ι)} (h : s.todo p = .release i::ops) :
      Step s { s with todo := Function.update s.todo p ops, owner := Function.update s.owner i none }

inductive Reach (s₀ : St ι n) : St ι n → Prop where
  | start : Reach s₀ s₀
  | step {s s' : St ι n} (h : Reach s₀ s) (hs : Step progs admits s s') : Reach s₀ s'

end

variable {progs : Bool → List (LockOp ι) → Prop} {admits : St ι n → Bool → Prop}

def St.next (s : St ι n) (p : Fin n) : Option (St ι n) :=
  match s.todo p with
  | [] => none
  | .acquire i::ops =>
    if s.owner i = none then
      some { s with todo := Function.update s.todo p ops, owner := Function.update s.owner i (some p) }
    else none
  | .release i::ops =>
    some { s with todo := Function.update s.todo p ops, owner := Function.update s.owner i none }

def St.run (s : St ι n) : List (Fin n) → Option (St ι n)
  | [] => some s
  | p::ps => (s.next p).bind fun s => s.run ps

theorem next_step (h : s.next p = some s') : Step progs admits s s' := by
  rw [St.next] at h
  split at h
  · cases h
  · next hp =>
    split at h
    · next hf =>
      cases h
      exact .acquire hp hf
    · cases h
  · next hp =>
    cases h
    exact .release hp

theorem Reach.run {s₀ : St ι n} (h : Reach progs admits s₀ s) (ps : List (Fin n)) (hs : s.run ps = some s') :
    Reach progs admits s₀ s' := by
  induction ps generalizing s with
  | nil =>
    cases hs
    exact h
  | cons p ps ih =>
    rw [St.run, Option.bind_eq_some_iff] at hs
    obtain ⟨s1,h1,hs⟩ := hs
    exact ih (h.step (next_step h1)) hs

theorem Inv.step (hprogs : ∀ b ops, progs b ops → Orderly b ∅ ops) (h : Inv s) (hs : Step progs Alone s s') :
    Inv s' := by
  cases hs with
  | @start p b ops hp hprog ha =>
    have hord := h.orderly p
    rw [hp] at hord
    constructor
    · intro q
      by_cases hqp : q = p
      · subst hqp
        simp only [Function.update_self]
        exact (show s.held q = ∅ from hord) ▸ hprogs b ops hprog
      · simp only [Function.update_of_ne hqp]
        exact h.orderly q
    · intro q r hq hr hnq hnr
      by_cases hqp : q = p <;> by_cases hrp : r = p
      · rw [hqp, hrp]
      · subst hqp
        simp only [Function.update_self, Function.update_of_ne hrp] at hnq hnr hr
        rw [ha hnq r hr] at hnr
        cases hnr
      · subst hrp
        simp only [Function.update_self, Function.update_of_ne hqp] at hnq hnr hq
        rw [ha hnr q hq] at hnq
        cases hnq
      · simp only [Function.update_of_ne hqp, Function.update_of_ne hrp] at hnq hnr hq hr
        exact h.one q r hq hr hnq hnr
  | @acquire p i ops hp hf =>
    have hord := h.orderly p
    rw [hp] at hord
    refine h.next hp rfl rfl ?_ fun q hqp => ?_
    · have hheld : St.held { s with todo := Function.update s.todo p ops, owner := Function.update s.owner i (some p) } p =
          insert i (s.held p) := by
        ext j
        by_cases hji : j = i <;> simp [St.held, hji, Function.update_apply]
      rw [hheld]
      exact hord.2.2
    · ext j
      by_cases hji : j = i
      · simp [St.held, hji, hf, Ne.symm hqp]
      · simp [St.held, hji]
  | @release p i ops hp =>
    have hord := h.orderly p
    rw [hp] at hord
    have hown : s.owner i = some p := hord.1
    refine h.next hp rfl rfl ?_ fun q hqp => ?_
    · have hheld : St.held { s with todo := Function.update s.todo p ops, owner := Function.update s.owner i none } p =
          s.held p \ {i} := by
        ext j
        by_cases hji : j = i <;> simp [St.held, hji]
      rw [hheld]
      exact hord.2
    · ext j
      by_cases hji : j = i
      · simp [St.held, hji, hown, Ne.symm hqp]
      · simp [St.held, hji]

theorem Reach.inv (hprogs : ∀ b ops, progs b ops → Orderly b ∅ ops) (h : Reach progs Alone quiet s) : Inv s := by
  induction h with
  | start => exact quiet_inv
  | step _ hs ih => exact ih.step hprogs hs

end Xv6.Locks
