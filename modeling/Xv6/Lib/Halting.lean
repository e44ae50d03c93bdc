import Mathlib.Tactic

/-!
# Computations that may halt

A kernel function either returns or stops the machine. The inversion rule below
takes a returning sequence apart, so that a proof never unfolds the bind, and the
rules of `Avoids` and `Yields` say which halts a sequence cannot come to and what it
returns.
-/

set_option autoImplicit false

namespace Xv6.Halting

universe u v

variable {ε : Type u} {α β : Type v}

theorem bind_ok {x : Except ε α} {f : α → Except ε β} {b : β} :
    (x >>= f) = .ok b ↔ ∃ a, x = .ok a ∧ f a = .ok b := by
  cases x with
  | error e => simp [bind, Except.bind]
  | ok a => simp [bind, Except.bind]

theorem ok_bind (a : α) (f : α → Except ε β) : ((.ok a : Except ε α) >>= f) = f a := rfl

theorem error_bind (e : ε) (f : α → Except ε β) : ((.error e : Except ε α) >>= f) = .error e := rfl

/-- The computation returns, or stops for a reason that is not `bad`. -/
def Avoids (bad : ε → Prop) (x : Except ε α) : Prop := ∀ e, x = .error e → ¬ bad e

theorem Avoids.ok (bad : ε → Prop) (a : α) : Avoids bad (.ok a : Except ε α) := by
  intro e he
  cases he

theorem Avoids.error {bad : ε → Prop} {e : ε} (h : ¬ bad e) :
    Avoids bad (.error e : Except ε α) := by
  intro e' he
  cases he
  exact h

theorem Avoids.mono {bad bad' : ε → Prop} {x : Except ε α} (h : Avoids bad x)
    (hb : ∀ e, bad' e → bad e) : Avoids bad' x := fun e he hbad => h e he (hb e hbad)

theorem Avoids.bind {bad : ε → Prop} {x : Except ε α} {f : α → Except ε β} (hx : Avoids bad x)
    (hf : ∀ a, x = .ok a → Avoids bad (f a)) : Avoids bad (x >>= f) := by
  cases x with
  | error e => exact Avoids.error (hx e rfl)
  | ok a => exact hf a rfl

theorem Avoids.foldlM {bad : ε → Prop} {f : α → β → Except ε α} (hf : ∀ a b, Avoids bad (f a b))
    (l : List β) (a : α) : Avoids bad (l.foldlM f a) := by
  induction l generalizing a with
  | nil => exact Avoids.ok bad a
  | cons b l ih =>
    rw [List.foldlM_cons]
    exact (hf a b).bind (fun c _ => ih c)

/-- The computation returns a value with `P`, or stops for a reason that is not `bad`. -/
def Yields (bad : ε → Prop) (P : α → Prop) (x : Except ε α) : Prop :=
  Avoids bad x ∧ ∀ a, x = .ok a → P a

theorem Yields.ok {bad : ε → Prop} {P : α → Prop} {a : α} (h : P a) :
    Yields bad P (.ok a : Except ε α) :=
  ⟨Avoids.ok bad a,fun b hb => by cases hb; exact h⟩

theorem Yields.error {bad : ε → Prop} {P : α → Prop} {e : ε} (h : ¬ bad e) :
    Yields bad P (.error e : Except ε α) :=
  ⟨Avoids.error h,fun _ hb => by cases hb⟩

theorem Yields.bind {bad : ε → Prop} {P : α → Prop} {Q : β → Prop} {x : Except ε α}
    {f : α → Except ε β} (hx : Yields bad P x) (hf : ∀ a, P a → Yields bad Q (f a)) :
    Yields bad Q (x >>= f) := by
  refine ⟨hx.1.bind (fun a ha => (hf a (hx.2 a ha)).1),fun b hb => ?_⟩
  obtain ⟨a,ha,hb⟩ := bind_ok.mp hb
  exact (hf a (hx.2 a ha)).2 b hb

theorem Yields.mono {bad : ε → Prop} {P Q : α → Prop} {x : Except ε α} (hx : Yields bad P x)
    (h : ∀ a, P a → Q a) : Yields bad Q x :=
  ⟨hx.1,fun a ha => h a (hx.2 a ha)⟩

end Xv6.Halting
