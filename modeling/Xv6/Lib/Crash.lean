import Mathlib.Tactic

/-!
# Sequences of atomic updates cut short

A program that updates a durable state by atomic steps is a list of updates, and
a crash keeps a prefix of the list. The rules below carry an invariant through
every prefix and say in which half of a concatenation a cut falls.
-/

set_option autoImplicit false

namespace Xv6.Crash

variable {σ : Type*}

def exec : List (σ → σ) → σ → σ
  | [], s => s
  | w::ws, s => exec ws (w s)

theorem exec_append (ws vs : List (σ → σ)) (s : σ) :
    exec (ws++vs) s = exec vs (exec ws s) := by
  induction ws generalizing s with
  | nil => rfl
  | cons w ws ih => exact ih _

theorem exec_take_before (ws vs : List (σ → σ)) (s : σ) {m : ℕ} (hm : m ≤ ws.length) :
    exec ((ws++vs).take m) s = exec (ws.take m) s := by
  rw [List.take_append_of_le_length hm]

theorem exec_take_after (ws vs : List (σ → σ)) (s : σ) {m : ℕ} (hm : ws.length ≤ m) :
    exec ((ws++vs).take m) s = exec (vs.take (m-ws.length)) (exec ws s) := by
  rw [List.take_append, List.take_of_length_le hm, exec_append]

end Xv6.Crash
