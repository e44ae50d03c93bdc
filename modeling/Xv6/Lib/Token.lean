import Mathlib.Tactic

/-!
# Tokens held by program points

A lock is a token: the word that stores its owner names exactly the process
whose program point says that it holds the lock. The three rules below keep that
agreement when one process moves without touching the lock, takes it or drops it.
-/

set_option autoImplicit false

namespace Xv6.Token

variable {ι κ ω : Type*}

/-- A process holds the token exactly when the owner word names it. -/
def Agrees (name : ι → ω) (holds : κ → Prop) (o : ω) (pts : ι → κ) : Prop :=
  ∀ p, o = name p ↔ holds (pts p)

variable {name : ι → ω} {holds : κ → Prop} {o : ω} {pts : ι → κ}

theorem Agrees.unique (h : Agrees name holds o pts) (hn : Function.Injective name) {p q : ι}
    (hp : holds (pts p)) (hq : holds (pts q)) : p = q :=
  hn (((h p).mpr hp).symm.trans ((h q).mpr hq))

theorem Agrees.free (h : Agrees name holds o pts) {o' : ω} (hfree : ∀ q, o ≠ name q)
    (hfree' : ∀ q, o' ≠ name q) : Agrees name holds o' pts := by
  intro q
  exact ⟨fun heq => absurd heq (hfree' q),fun hh => absurd ((h q).mpr hh) (hfree q)⟩

variable [DecidableEq ι]

theorem Agrees.keep (h : Agrees name holds o pts) {p : ι} {c : κ}
    (hc : holds c ↔ holds (pts p)) : Agrees name holds o (Function.update pts p c) := by
  intro q
  by_cases hq : q = p
  · subst hq
    rw [Function.update_self, hc]
    exact h q
  · rw [Function.update_of_ne hq]
    exact h q

theorem Agrees.take (h : Agrees name holds o pts) (hn : Function.Injective name) {p : ι} {c : κ}
    (hfree : ∀ q, o ≠ name q) (hc : holds c) :
    Agrees name holds (name p) (Function.update pts p c) := by
  intro q
  by_cases hq : q = p
  · subst hq
    rw [Function.update_self]
    exact ⟨fun _ => hc,fun _ => rfl⟩
  · rw [Function.update_of_ne hq]
    constructor
    · intro heq
      exact absurd (hn heq).symm hq
    · intro hh
      exact absurd ((h q).mpr hh) (hfree q)

theorem Agrees.drop (h : Agrees name holds o pts) (hn : Function.Injective name) {p : ι} {c : κ}
    {o' : ω} (hp : holds (pts p)) (hfree : ∀ q, o' ≠ name q) (hc : ¬ holds c) :
    Agrees name holds o' (Function.update pts p c) := by
  intro q
  by_cases hq : q = p
  · subst hq
    rw [Function.update_self]
    exact ⟨fun heq => absurd heq (hfree q),fun hh => absurd hh hc⟩
  · rw [Function.update_of_ne hq]
    constructor
    · intro heq
      exact absurd heq (hfree q)
    · intro hh
      exact absurd (h.unique hn hh hp) hq

end Xv6.Token
