import Mathlib.Init

/-!
# Computations that may fail

How a sequence of computations in `Except ε` ends: with a result when each of
them has one (`Except.bind_eq_ok`), and with an error as soon as one fails
(`Except.bind_eq_error`).
-/

universe u v

namespace Except

variable {ε : Type u} {α β : Type v} {x : Except ε α} {e : ε} {b : β}

theorem ok_bind {a : α} {f : α → Except ε β} : (Except.ok a >>= f) = f a := rfl

theorem bind_eq_ok {f : α → Except ε β} :
    (x >>= f) = .ok b ↔ ∃ a, x = .ok a ∧ f a = .ok b := by
  cases x <;> simp [bind, Except.bind]

theorem bind_eq_error {f : α → Except ε β} :
    (x >>= f) = .error e ↔ x = .error e ∨ ∃ a, x = .ok a ∧ f a = .error e := by
  cases x <;> simp [bind, Except.bind]

theorem map_eq_ok {f : α → β} : x.map f = .ok b ↔ ∃ a, x = .ok a ∧ f a = b := by
  cases x <;> simp [Except.map]

end Except
