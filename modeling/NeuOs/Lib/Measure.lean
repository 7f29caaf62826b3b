import Mathlib.Tactic.Linarith
import NeuOs.Lib.Run

/-!
# Measures of runs

A measure that no step raises bounds the number of the steps that lower it
(`Run.countP_le`). The steps are those of a run whose states satisfy an
invariant, and whose actions and states satisfy a condition.
-/

namespace Transition

variable {σ α : Type*} {T : σ → α → σ → Prop} {J : σ → Prop} {Q : α → σ → Prop} {φ : σ → ℤ}
  {p : α → Bool}

/-- A run has no more steps of a kind than the measure says, if no step raises the measure, and
    each step of this kind lowers it. -/
theorem Run.countP_le {s : σ} {l : List (α × σ)} (h : Run T s l) (hs : J s)
    (hQ : ∀ x ∈ l, Q x.1 x.2) (hpos : ∀ s, J s → 0 ≤ φ s)
    (hstep : ∀ s a s', J s → T s a s' → Q a s' → J s' ∧ φ s' + (if p a then 1 else 0) ≤ φ s) :
    (l.countP fun x => p x.1 : ℕ) ≤ φ s := by
  induction h with
  | nil => exact hpos _ hs
  | @cons s s' a l hst _ ih =>
    obtain ⟨hs', hle⟩ := hstep _ _ _ hs hst (hQ _ List.mem_cons_self)
    have hrest := ih hs' fun x hx => hQ x (List.mem_cons_of_mem _ hx)
    rw [List.countP_cons]
    push_cast
    linarith

end Transition
