import Mathlib.Data.Option.Basic
import Mathlib.Logic.Function.Basic

/-!
# Chains of pointers

The nodes of a chain each have a pointer to the next node, which may be null; what is
not a node ends a chain. `Reaches` follows the pointers from a pointer on.

When a node is removed (`Reaches.cut`), what could be reached through it can be reached
from its pointer.
-/

namespace Chain

variable {τ : Type*} {next next' : τ → Option (Option τ)} {p : Option τ} {t u v : τ}

/-- The elements that a pointer leads to. `next` are the pointers of the nodes. -/
inductive Reaches (next : τ → Option (Option τ)) : Option τ → τ → Prop
  | here (t : τ) : Reaches next (some t) t
  | there {t u : τ} {p : Option τ} : next t = some p → Reaches next p u → Reaches next (some t) u

namespace Reaches

theorem not_none : ¬Reaches next none u := nofun

theorem trans (h : Reaches next p t) (h' : Reaches next (some t) u) : Reaches next p u := by
  induction h with
  | here => exact h'
  | there ht _ ih => exact .there ht (ih h')

/-- More nodes lead further. -/
theorem mono (h : Reaches next p u) (hnext : ∀ t q, next t = some q → next' t = some q) :
    Reaches next' p u := by
  induction h with
  | here t => exact .here t
  | there ht _ ih => exact .there (hnext _ _ ht) ih

/-- What a pointer to something that is not a node leads to. -/
theorem eq_of_leaf (h : Reaches next (some t) u) (ht : next t = none) : u = t := by
  cases h with
  | here => rfl
  | there hp _ => cases hp.symm.trans ht

variable [DecidableEq τ]

/-- Without a node, what it could lead to is found from its pointer. -/
theorem cut (h : Reaches next p u) (q : Option τ) (ht : next t = some q) :
    Reaches (Function.update next t none) p u ∨ Reaches (Function.update next t none) q u := by
  induction h with
  | here v => exact Or.inl (.here v)
  | @there v u r hv _ ih =>
    by_cases hvt : v = t
    · subst hvt
      obtain rfl := Option.some.inj (ht.symm.trans hv)
      exact Or.inr (ih.elim id id)
    · refine ih.imp_left (.there ?_)
      rwa [Function.update_of_ne hvt]

theorem of_cut (h : Reaches (Function.update next t none) p u) : Reaches next p u := by
  refine h.mono fun v q hv => ?_
  by_cases hvt : v = t
  · rw [hvt, Function.update_self] at hv
    cases hv
  · rwa [Function.update_of_ne hvt] at hv

end Reaches

end Chain
