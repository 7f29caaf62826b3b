import Mathlib.Data.Finset.Card
import Mathlib.Algebra.BigOperators.Group.Finset.Basic

/-!
# Counting the points of a predicate

How many points of a finite set satisfy a decidable predicate, when the
predicate changes at a single point (`Finset.card_filter_change`): reference
counts go up and down by one.
-/

namespace Finset

variable {α : Type*} {s : Finset α} {p q : α → Prop} [DecidablePred p] [DecidablePred q]

/-- If `p` and `q` agree off the point `a`, their counts differ by what they say
    of `a`. -/
theorem card_filter_change [DecidableEq α] {a : α} (ha : a ∈ s)
    (h : ∀ x ∈ s, x ≠ a → (p x ↔ q x)) :
    #{x ∈ s | q x} + (if p a then 1 else 0) = #{x ∈ s | p x} + (if q a then 1 else 0) := by
  have split (r : α → Prop) [DecidablePred r] :
      #{x ∈ s | r x} = #{x ∈ s.erase a | r x} + (if r a then 1 else 0) := by
    conv_lhs => rw [← insert_erase ha, filter_insert]
    split_ifs with hr
    · rw [card_insert_of_notMem fun hm => notMem_erase a s (mem_filter.1 hm).1]
    · rfl
  have off : #{x ∈ s.erase a | q x} = #{x ∈ s.erase a | p x} := by
    congr 1
    exact filter_congr fun x hx => (h x (mem_of_mem_erase hx) (ne_of_mem_erase hx)).symm
  rw [split q, split p, off]
  omega

/-- No point satisfies `p` iff the count is zero. -/
theorem card_filter_eq_zero : #{x ∈ s | p x} = 0 ↔ ∀ x ∈ s, ¬p x := by
  rw [card_eq_zero, filter_eq_empty_iff]

/-- If at most one point is counted, two points satisfying `p` are the same. -/
theorem eq_of_card_filter_le_one (h : #{x ∈ s | p x} ≤ 1) {x y : α} (hx : x ∈ s) (hpx : p x)
    (hy : y ∈ s) (hpy : p y) : x = y :=
  card_le_one.1 h x (mem_filter.2 ⟨hx, hpx⟩) y (mem_filter.2 ⟨hy, hpy⟩)

end Finset
