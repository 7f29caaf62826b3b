import Mathlib.Logic.Function.Iterate
import Mathlib.Logic.Relation

/-!
# Runs of labelled transition relations

A labelled transition relation `T : σ → α → σ → Prop` has *reachable states*,
with the rule of inductive invariants (`Reachable.invariant`), and *runs*, the
list of the actions taken together with the states they reach.

The states of a run satisfy a property `P` exactly when its steps satisfy a
condition `C` on the state they start from and the action they take, provided
that this is so of every single step from a state satisfying `P`
(`Run.forall_iff_along`). An invariant `J` of all steps may be assumed, or one
of the steps between states satisfying `P` (`Run.forall_iff_along_of`).

A step that is repeated until it succeeds ends, if there is a time at which it
succeeds (`exists_of_retries`).
-/

namespace Transition

variable {σ α : Type*}

/-- The states reachable, in zero or more steps of `T`, from those in `I`. -/
inductive Reachable (I : σ → Prop) (T : σ → α → σ → Prop) : σ → Prop
  | init {s : σ} : I s → Reachable I T s
  | step {s s' : σ} {a : α} : Reachable I T s → T s a s' → Reachable I T s'

/-- An inductive invariant holds in every reachable state. -/
theorem Reachable.invariant {I P : σ → Prop} {T : σ → α → σ → Prop} {s : σ}
    (h : Reachable I T s) (hinit : ∀ s, I s → P s)
    (hstep : ∀ s a s', P s → T s a s' → P s') : P s := by
  induction h with
  | init hs => exact hinit _ hs
  | step _ hst ih => exact hstep _ _ _ ih hst

/-- A run of `T` from a state: the actions taken, each with the state it
    reaches. -/
inductive Run (T : σ → α → σ → Prop) : σ → List (α × σ) → Prop
  | nil (s : σ) : Run T s []
  | cons {s s' : σ} {a : α} {l : List (α × σ)} :
      T s a s' → Run T s' l → Run T s ((a, s') :: l)

/-- A run goes on from the last state of another one. -/
theorem Run.append {T : σ → α → σ → Prop} {s s' : σ} {a : α} {l l' : List (α × σ)}
    (h : Run T s l) (hlast : l.getLast? = some (a, s')) (h' : Run T s' l') :
    Run T s (l ++ l') := by
  induction h with
  | nil => cases hlast
  | @cons s t b l hst hl ih =>
    refine .cons hst ?_
    cases l with
    | nil =>
      obtain ⟨-, rfl⟩ := Prod.mk.inj (Option.some.inj hlast)
      exact h'
    | cons y l => exact ih (List.getLast?_cons_cons.symm.trans hlast)

/-- Every step of a run meets the condition `C` on the state it starts from and
    the action it takes. -/
def Along (C : σ → α → Prop) : σ → List (α × σ) → Prop
  | _, [] => True
  | s, (a, s') :: l => C s a ∧ Along C s' l

variable {T : σ → α → σ → Prop} {P J : σ → Prop} {C : σ → α → Prop}

/-- An inductive invariant holds along every run. -/
theorem Run.invariant {s : σ} {l : List (α × σ)} (h : Run T s l) (hs : J s)
    (hinv : ∀ s a s', J s → T s a s' → J s') : ∀ x ∈ l, J x.2 := by
  induction h with
  | nil => exact fun _ hx => absurd hx List.not_mem_nil
  | cons hst _ ih =>
    have hs' := hinv _ _ _ hs hst
    intro x hx
    rcases List.mem_cons.1 hx with rfl | hx
    · exact hs'
    · exact ih hs' x hx

/-- A property that steps never restore holds along a run if it holds of the last state. -/
theorem Run.forall_of_getLast {s s' : σ} {a : α} {l : List (α × σ)} (h : Run T s l) (hJ : J s)
    (hinv : ∀ s a s', J s → T s a s' → J s') (hback : ∀ s a s', J s → T s a s' → P s' → P s)
    (hlast : l.getLast? = some (a, s')) (hs' : P s') : P s ∧ ∀ x ∈ l, P x.2 := by
  induction h with
  | nil => cases hlast
  | @cons s t b l hst hl ih =>
    have ht : P t ∧ ∀ x ∈ l, P x.2 := by
      cases l with
      | nil =>
        obtain ⟨-, rfl⟩ := Prod.mk.inj (Option.some.inj hlast)
        exact ⟨hs', fun x hx => absurd hx List.not_mem_nil⟩
      | cons y l => exact ih (hinv _ _ _ hJ hst) (List.getLast?_cons_cons.symm.trans hlast)
    refine ⟨hback _ _ _ hJ hst ht.1, fun x hx => ?_⟩
    rcases List.mem_cons.1 hx with rfl | hx
    · exact ht.1
    · exact ht.2 x hx

/-- The states of a run satisfy `P` when its steps meet `C`, if such steps keep `P`. -/
theorem Run.forall_of_along {s : σ} {l : List (α × σ)} (h : Run T s l) (hs : P s)
    (hstep : ∀ s a s', P s → C s a → T s a s' → P s') (hC : Along C s l) : ∀ x ∈ l, P x.2 := by
  induction h with
  | nil => exact fun _ hx => absurd hx List.not_mem_nil
  | cons hst _ ih =>
    have hs' := hstep _ _ _ hs hC.1 hst
    intro x hx
    rcases List.mem_cons.1 hx with rfl | hx
    · exact hs'
    · exact ih hs' hC.2 x hx

/-- The states of a run satisfy `P` exactly when its steps meet `C`, if this is
    so of every step from a state satisfying `P` (and the invariant `J`, which
    the steps between such states keep). -/
theorem Run.forall_iff_along_of {s : σ} {l : List (α × σ)} (h : Run T s l) (hs : P s) (hJ : J s)
    (hinv : ∀ s a s', J s → P s → T s a s' → P s' → J s')
    (hstep : ∀ s a s', J s → P s → T s a s' → (P s' ↔ C s a)) :
    (∀ x ∈ l, P x.2) ↔ Along C s l := by
  constructor
  · intro hP
    induction h with
    | nil => trivial
    | cons hst _ ih =>
      have hs' := hP _ List.mem_cons_self
      have hJ' := hinv _ _ _ hJ hs hst hs'
      exact ⟨(hstep _ _ _ hJ hs hst).1 hs', ih hs' hJ' fun x hx => hP x (List.mem_cons_of_mem _ hx)⟩
  · intro hC x hx
    refine (h.forall_of_along (P := fun s => P s ∧ J s) ⟨hs, hJ⟩ ?_ hC x hx).1
    intro s a s' hs hC hst
    have hs' := (hstep s a s' hs.2 hs.1 hst).2 hC
    exact ⟨hs', hinv s a s' hs.2 hs.1 hst hs'⟩

/-- The same with an invariant of all steps. -/
theorem Run.forall_iff_along {s : σ} {l : List (α × σ)} (h : Run T s l) (hs : P s) (hJ : J s)
    (hinv : ∀ s a s', J s → T s a s' → J s')
    (hstep : ∀ s a s', J s → P s → T s a s' → (P s' ↔ C s a)) :
    (∀ x ∈ l, P x.2) ↔ Along C s l :=
  h.forall_iff_along_of hs hJ (fun s a s' hJ _ hst _ => hinv s a s' hJ hst) hstep

/-- From a state of `A`, the step `f` stays in `A` and counts, or leads to `B`; it leads to `B`
    whenever the count is in `G`. -/
theorem exists_of_retries {f : σ → σ} {A B : σ → Prop} {c : σ → ℕ} {G : ℕ → Prop}
    (hfail : ∀ s, A s → A (f s) ∧ c (f s) = c s + 1 ∨ B (f s))
    (hgood : ∀ s, A s → G (c s) → B (f s)) (j : ℕ) {s : σ} (hs : A s) (hj : G (c s + j)) :
    ∃ n, B (f^[n] s) := by
  induction j generalizing s with
  | zero => exact ⟨1, hgood s hs hj⟩
  | succ j ih =>
    rcases hfail s hs with ⟨hA, hc⟩ | hB
    · obtain ⟨n, hn⟩ := ih hA (by rwa [hc, Nat.add_assoc, Nat.add_comm 1])
      exact ⟨n + 1, hn⟩
    · exact ⟨1, hB⟩

end Transition
