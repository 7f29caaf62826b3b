import Mathlib.Order.Lattice
import Mathlib.Data.List.Nodup
import Mathlib.Logic.Function.Basic

/-!
# Insertion into queues in SCAN order

A queue that is served in SCAN order is an ascending run, followed by at most one
further ascending run: it has at most one *descent* (`descents`). A new element is
inserted (`scanInsert`) at the first place between two elements where a test of the
order says that it fits: after the first of the two, or at a descent, and before the
second; else at the end.

`scanInsert` adds exactly one descent unless the element fits at the place it gets
(`descents_scanInsert`). When the test is the order, it always keeps the number of
descents at most one (`fits_of_agrees`).

Queues are lists that are linked by pointers (`Linked`).
-/

namespace Scan

variable {ι κ : Type*} [LinearOrder κ] (key : ι → κ) (R : ι → ι → Prop) [DecidableRel R]

/-- The number of neighbours in a list that are not ascending. -/
def descents : List ι → ℕ
  | a :: b :: l => (if key a < key b then 0 else 1) + descents (b :: l)
  | _ => 0

/-- The test for a place of `r` between `a` and `b`. -/
def Between (r a b : ι) : Prop := (R a r ∨ ¬R a b) ∧ R r b

instance (r a b : ι) : Decidable (Between R r a b) :=
  inferInstanceAs (Decidable ((R a r ∨ ¬R a b) ∧ R r b))

/-- Insert `r` at the first place that passes the test, else at the end. -/
def scanInsert (r : ι) : List ι → List ι
  | a :: b :: l =>
    if Between R r a b then a :: r :: b :: l else a :: scanInsert r (b :: l)
  | [a] => [a, r]
  | [] => [r]

/-- At the first place that passes the test, `r` is really between the neighbours if
    these are ascending, and not between them if they are not. If it goes to the end,
    it is after the last element. -/
def Fits (r : ι) : List ι → Prop
  | a :: b :: l =>
    if Between R r a b then
      if key a < key b then key a < key r ∧ key r < key b else key a < key r ∨ key r < key b
    else Fits r (b :: l)
  | [a] => key a < key r
  | [] => True

instance decidableFits (r : ι) : (l : List ι) → Decidable (Fits key R r l)
  | a :: b :: l =>
    have := decidableFits r (b :: l)
    inferInstanceAs (Decidable (if Between R r a b then _ else Fits key R r (b :: l)))
  | [a] => inferInstanceAs (Decidable (key a < key r))
  | [] => inferInstanceAs (Decidable True)

variable {key R} {r : ι}

/-- An insertion puts `r` at one place, which is not the first one of a queue that is not
    empty. -/
theorem exists_scanInsert (a : ι) (l : List ι) :
    ∃ l₁ l₂, a :: l = a :: l₁ ++ l₂ ∧ scanInsert R r (a :: l) = a :: l₁ ++ r :: l₂ := by
  induction l generalizing a with
  | nil => exact ⟨[], [], rfl, rfl⟩
  | cons b l ih =>
    rw [scanInsert]
    split_ifs
    · exact ⟨[], b :: l, rfl, rfl⟩
    · obtain ⟨l₁, l₂, hl, heq⟩ := ih b
      exact ⟨b :: l₁, l₂, by rw [hl]; rfl, by rw [heq]; rfl⟩

/-- The keys of other elements do not matter. -/
theorem descents_congr {key' : ι → κ} {l : List ι} (h : ∀ a ∈ l, key' a = key a) :
    descents key' l = descents key l := by
  induction l with
  | nil => rfl
  | cons a l ih =>
    cases l with
    | nil => rfl
    | cons b l =>
      rw [descents, descents, ih fun c hc => h c (List.mem_cons_of_mem _ hc),
        h a List.mem_cons_self, h b (List.mem_cons_of_mem _ List.mem_cons_self)]

/-- An insertion adds a descent, unless `r` fits. -/
theorem descents_scanInsert (l : List ι) [Decidable (Fits key R r l)] :
    descents key (scanInsert R r l) = descents key l + if Fits key R r l then 0 else 1 := by
  have aux : ∀ l, (Fits key R r l → descents key (scanInsert R r l) = descents key l) ∧
      (¬Fits key R r l → descents key (scanInsert R r l) = descents key l + 1) := by
    intro l
    induction l with
    | nil => exact ⟨fun _ => rfl, fun h => absurd trivial h⟩
    | cons a l ih =>
      cases l with
      | nil =>
        refine ⟨fun h => ?_, fun h => ?_⟩
        · exact congrArg (· + 0) (if_pos h)
        · exact congrArg (· + 0) (if_neg h)
      | cons b l =>
        rw [Fits, scanInsert]
        by_cases hbt : Between R r a b
        · rw [if_pos hbt, if_pos hbt]
          simp only [descents]
          by_cases hab : key a < key b
          · -- at an ascent, `r` can not be out of order on both sides
            have hor : key a < key r ∨ key r < key b := by
              by_contra hno
              push Not at hno
              exact absurd (lt_of_le_of_lt hno.1 hab) (not_lt.2 hno.2)
            grind
          · -- at a descent, `r` can not be in order on both sides
            have hno : ¬(key a < key r ∧ key r < key b) := fun h => hab (lt_trans h.1 h.2)
            grind
        · rw [if_neg hbt, if_neg hbt]
          obtain ⟨c, l', hc⟩ : ∃ l₁ l₂, scanInsert R r (b :: l) = b :: (l₁ ++ r :: l₂) := by
            obtain ⟨l₁, l₂, -, heq⟩ := exists_scanInsert (R := R) (r := r) b l
            exact ⟨l₁, l₂, heq⟩
          rw [hc] at ih ⊢
          simp only [descents] at ih ⊢
          refine ⟨fun h => ?_, fun h => ?_⟩
          · have := ih.1 h
            omega
          · have := ih.2 h
            omega
  by_cases h : Fits key R r l
  · rw [if_pos h, (aux l).1 h, Nat.add_zero]
  · rw [if_neg h, (aux l).2 h]

/-- A queue in SCAN order keeps it exactly when it is a single run, or the new element
    fits. -/
theorem descents_scanInsert_le_iff {l : List ι} (h : descents key l ≤ 1) :
    descents key (scanInsert R r l) ≤ 1 ↔ descents key l = 0 ∨ Fits key R r l := by
  have := decidableFits key R r l
  rw [descents_scanInsert l]
  by_cases hf : Fits key R r l
  · rw [if_pos hf]
    exact ⟨fun _ => Or.inr hf, fun _ => h⟩
  · rw [if_neg hf]
    exact ⟨fun h => Or.inl (by omega), fun h => by grind⟩

/-- With the order itself as the test, `r` fits in an ascending run, if it belongs after the
    first element. -/
theorem fits_of_ascending {a : ι} {l : List ι} (hr : ∀ b ∈ a :: l, key b ≠ key r)
    (hio : ∀ x ∈ r :: a :: l, ∀ y ∈ r :: a :: l, R x y ↔ key x < key y) (har : key a < key r)
    (hl : descents key (a :: l) = 0) : Fits key R r (a :: l) := by
  induction l generalizing a with
  | nil => exact har
  | cons b l ih =>
    rw [descents] at hl
    have hab : key a < key b := by
      by_contra hab
      rw [if_neg hab] at hl
      omega
    rw [if_pos hab, Nat.zero_add] at hl
    rw [Fits]
    split_ifs with hbt
    · exact ⟨har, (hio r (by simp) b (by simp)).1 hbt.2⟩
    · refine ih (fun x hx => hr x (List.mem_cons_of_mem _ hx))
        (fun x hx y hy => hio x (by grind) y (by grind)) ?_ hl
      have hrb : ¬key r < key b := fun hrb =>
        hbt ⟨Or.inl ((hio a (by simp) r (by simp)).2 har), (hio r (by simp) b (by simp)).2 hrb⟩
      exact lt_of_le_of_ne (not_lt.1 hrb) (hr b (by simp))

/-- With the order itself as the test, a queue in SCAN order always keeps it. -/
theorem fits_of_agrees {l : List ι} (h : descents key l ≤ 1) (hr : ∀ a ∈ l, key a ≠ key r)
    (hio : ∀ a ∈ r :: l, ∀ b ∈ r :: l, R a b ↔ key a < key b) :
    descents key l = 0 ∨ Fits key R r l := by
  by_cases h0 : descents key l = 0
  · exact Or.inl h0
  refine Or.inr ?_
  induction l with
  | nil => exact trivial
  | cons a l ih =>
    cases l with
    | nil => exact absurd rfl h0
    | cons b l =>
      rw [descents] at h h0
      rw [Fits]
      have hrb := hio r (by simp) b (by simp)
      split_ifs with hbt hab
      · refine ⟨?_, hrb.1 hbt.2⟩
        rcases hbt.1 with har | hnab
        · exact (hio a (by simp) r (by simp)).1 har
        · exact absurd ((hio a (by simp) b (by simp)).2 hab) hnab
      · exact Or.inr (hrb.1 hbt.2)
      · have hr' : ∀ x ∈ b :: l, key x ≠ key r := fun x hx => hr x (List.mem_cons_of_mem _ hx)
        have hio' : ∀ x ∈ r :: b :: l, ∀ y ∈ r :: b :: l, R x y ↔ key x < key y :=
          fun x hx y hy => hio x (by grind) y (by grind)
        by_cases hab : key a < key b
        · rw [if_pos hab, Nat.zero_add] at h h0
          exact ih h hr' hio' h0
        · -- past a descent where `r` does not go, it belongs after the first element of the run
          rw [if_neg hab] at h
          refine fits_of_ascending hr' hio' ?_ (by omega)
          have hnab : ¬R a b := fun hio₁ => hab ((hio a (by simp) b (by simp)).1 hio₁)
          exact lt_of_le_of_ne (not_lt.1 fun hlt => hbt ⟨Or.inr hnab, hrb.2 hlt⟩)
            (hr' b List.mem_cons_self)

end Scan

/-! ## Linked lists -/

section Linked

variable {ι : Type*} {next : ι → Option ι} {p : Option ι} {l l₁ l₂ : List ι} {a r : ι}

/-- The pointers `next` link the elements of a list, from the pointer to the first. -/
inductive Linked (next : ι → Option ι) : Option ι → List ι → Prop
  | nil : Linked next none []
  | cons {a : ι} {l : List ι} : Linked next (next a) l → Linked next (some a) (a :: l)

namespace Linked

theorem unique (h : Linked next p l₁) (h' : Linked next p l₂) : l₁ = l₂ := by
  induction h generalizing l₂ with
  | nil => cases h'; rfl
  | cons _ ih => cases h' with | cons h' => rw [ih h']

/-- The links of other elements do not matter. -/
theorem congr {next' : ι → Option ι} (h : Linked next p l) (heq : ∀ a ∈ l, next' a = next a) :
    Linked next' p l := by
  induction h with
  | nil => exact .nil
  | @cons a l hl ih =>
    refine .cons ?_
    rw [heq a List.mem_cons_self]
    exact ih fun b hb => heq b (List.mem_cons_of_mem _ hb)

variable [DecidableEq ι]

/-- Linking `r` after `a`. -/
theorem insert (h : Linked next p (l₁ ++ a :: l₂)) (hnd : (l₁ ++ a :: l₂).Nodup)
    (hr : r ∉ l₁ ++ a :: l₂) :
    Linked (Function.update (Function.update next r (next a)) a (some r)) p
      (l₁ ++ a :: r :: l₂) := by
  have har : a ≠ r := fun har => hr (har ▸ List.mem_append_right _ List.mem_cons_self)
  induction l₁ generalizing p with
  | nil =>
    cases h with
    | cons h =>
      refine .cons ?_
      rw [Function.update_self]
      refine .cons ?_
      rw [Function.update_of_ne har.symm, Function.update_self]
      refine h.congr fun b hb => ?_
      have hba : b ≠ a := fun hba => (List.nodup_cons.1 hnd).1 (hba ▸ hb)
      have hbr : b ≠ r := fun hbr => hr (hbr ▸ List.mem_cons_of_mem _ hb)
      rw [Function.update_of_ne hba, Function.update_of_ne hbr]
  | cons b l₁ ih =>
    cases h with
    | cons h =>
      refine .cons ?_
      have hba : b ≠ a := fun hba =>
        (List.nodup_cons.1 hnd).1 (hba ▸ List.mem_append_right _ List.mem_cons_self)
      have hbr : b ≠ r := fun hbr => hr (hbr ▸ List.mem_cons_self)
      rw [Function.update_of_ne hba, Function.update_of_ne hbr]
      exact ih h (List.nodup_cons.1 hnd).2 fun hmem => hr (List.mem_cons_of_mem _ hmem)

end Linked

end Linked
