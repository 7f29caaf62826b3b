import Mathlib.Order.Basic
import Mathlib.Order.Nat

/-!
# Regions of a memory

A memory maps addresses to cells. It *holds* `src` in a region if the cells of the region are
those of `src`, in order (`Holds`). Two memories have the same *frame* of a region if they differ
only within it (`Frame`).

A loop that copies a region piece by piece keeps both (`Copied`): the copy of a piece after the
last one extends it (`Copied.extend`).
-/

namespace Region

variable {α : Type*} {m m₀ m' : ℕ → α} {src src' : ℕ → α} {dst n k : ℕ}

/-- The `n` cells from `dst` on are the first ones of `src`. -/
def Holds (m : ℕ → α) (dst n : ℕ) (src : ℕ → α) : Prop := ∀ i < n, m (dst + i) = src i

/-- Only the `n` cells from `dst` on have changed. -/
def Frame (dst n : ℕ) (m m' : ℕ → α) : Prop := ∀ a, a < dst ∨ dst + n ≤ a → m' a = m a

/-- The `n` cells from `dst` on are those of `src`, and nothing else has changed. -/
structure Copied (dst n : ℕ) (src : ℕ → α) (m m' : ℕ → α) : Prop where
  holds : Holds m' dst n src
  frame : Frame dst n m m'

theorem Holds.append (h : Holds m dst n src) (h' : Holds m (dst + n) k fun i => src (n + i)) :
    Holds m dst (n + k) src := by
  intro i hi
  rcases Nat.lt_or_ge i n with hn | hn
  · exact h i hn
  · have hi' := h' (i - n) (by omega)
    have hsrc : n + (i - n) = i := by omega
    rw [show dst + n + (i - n) = dst + i by omega] at hi'
    exact hi'.trans (congrArg src hsrc)

theorem Holds.congr (h : Holds m dst n src) (hsrc : ∀ i < n, src i = src' i) :
    Holds m dst n src' := fun i hi => (h i hi).trans (hsrc i hi)

theorem Frame.refl : Frame dst n m m := fun _ _ => rfl

theorem Frame.trans {m'' : ℕ → α} (h : Frame dst n m m') (h' : Frame dst n m' m'') :
    Frame dst n m m'' := fun a ha => (h' a ha).trans (h a ha)

/-- A region of a larger one. -/
theorem Frame.mono {d l : ℕ} (h : Frame dst n m m') (hd : d ≤ dst) (hl : dst + n ≤ d + l) :
    Frame d l m m' := fun a ha => h a (by omega)

/-- What lies outside a region stays. -/
theorem Holds.of_frame {d l : ℕ} (h : Holds m d l src) (hf : Frame dst n m m')
    (hdisj : d + l ≤ dst ∨ dst + n ≤ d) : Holds m' d l src := fun i hi =>
  (hf _ (by omega)).trans (h i hi)

theorem Copied.zero : Copied dst 0 src m m := ⟨fun _ hi => absurd hi (Nat.not_lt_zero _), .refl⟩

/-- The next piece is copied. -/
theorem Copied.extend (h : Copied dst n src m₀ m)
    (h' : Copied (dst + n) k (fun i => src (n + i)) m m') : Copied dst (n + k) src m₀ m' where
  holds := (h.holds.of_frame h'.frame (.inl le_rfl)).append h'.holds
  frame := (h.frame.mono le_rfl (by omega)).trans (h'.frame.mono (by omega) (by omega))

theorem Copied.congr (h : Copied dst n src m m') (hsrc : ∀ i < n, src i = src' i) :
    Copied dst n src' m m' := ⟨h.holds.congr hsrc, h.frame⟩

end Region
