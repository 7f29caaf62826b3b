import Mathlib.Data.List.Basic
import Mathlib.Logic.Function.Basic

/-!
# Ring buffers

A ring of `n` cells between a head and a tail, both smaller than `n`. Its content
(`content`) are the elements from the head on, up to the tail; it is empty when head
and tail are equal, and holds at most `n - 1` elements.

Elements are added (`content_push`, `content_pushFront`) and removed (`content_pop`,
`content_unpush`) at both ends by moving the tail or the head, forwards or backwards
(`next`, `prev`).
-/

namespace Ring

variable {α : Type*} (n : ℕ)

/-- The cell after a cell. -/
def next (i : ℕ) : ℕ := (i + 1) % n

/-- The cell before a cell. -/
def prev (i : ℕ) : ℕ := (i + n - 1) % n

/-- The number of cells from the head to the tail. -/
def len (head tail : ℕ) : ℕ := if head ≤ tail then tail - head else tail + n - head

/-- A number of elements from a cell on. -/
def window (buf : ℕ → α) : ℕ → ℕ → List α
  | _, 0 => []
  | i, k + 1 => buf i :: window buf (next n i) k

/-- The elements from the head to the tail. -/
def content (buf : ℕ → α) (head tail : ℕ) : List α := window n buf head (len n head tail)

variable {n} {buf : ℕ → α} {head tail i k : ℕ} {x : α}

theorem next_eq (hi : i < n) : next n i = if i + 1 = n then 0 else i + 1 := by
  rw [next]
  split_ifs with h
  · rw [h, Nat.mod_self]
  · exact Nat.mod_eq_of_lt (by omega)

theorem prev_eq (hi : i < n) : prev n i = if i = 0 then n - 1 else i - 1 := by
  rw [prev]
  split_ifs with h
  · rw [h, Nat.zero_add]
    exact Nat.mod_eq_of_lt (by omega)
  · have heq : i + n - 1 = (i - 1) + n := by omega
    rw [heq, Nat.add_mod_right]
    exact Nat.mod_eq_of_lt (by omega)

theorem next_lt (hi : i < n) : next n i < n := Nat.mod_lt _ (by omega)

theorem prev_lt (hi : i < n) : prev n i < n := Nat.mod_lt _ (by omega)

theorem next_prev (hi : i < n) : next n (prev n i) = i := by
  rw [next_eq (prev_lt hi), prev_eq hi]
  split_ifs <;> omega

theorem prev_next (hi : i < n) : prev n (next n i) = i := by
  rw [prev_eq (next_lt hi), next_eq hi]
  by_cases h : i + 1 = n
  · rw [if_pos h, if_pos rfl]
    omega
  · rw [if_neg h, if_neg (Nat.succ_ne_zero i), Nat.add_sub_cancel]

theorem len_lt (hh : head < n) (ht : tail < n) : len n head tail < n := by
  rw [len]
  split_ifs <;> omega

theorem len_eq_zero (hh : head < n) : len n head tail = 0 ↔ head = tail := by
  rw [len]
  split_ifs <;> omega

/-- The ring is full when the tail is just before the head. -/
theorem next_eq_head (hh : head < n) (ht : tail < n) :
    next n tail = head ↔ len n head tail = n - 1 := by
  rw [next_eq ht, len]
  split_ifs <;> omega

theorem len_push (hh : head < n) (ht : tail < n) (hfull : next n tail ≠ head) :
    len n head (next n tail) = len n head tail + 1 := by
  rw [next_eq ht] at hfull ⊢
  rw [len, len]
  split_ifs at hfull ⊢ <;> omega

theorem len_pop (hh : head < n) (ht : tail < n) (hne : head ≠ tail) :
    len n head tail = len n (next n head) tail + 1 := by
  rw [next_eq hh, len, len]
  split_ifs <;> omega

@[simp] theorem length_window (i k : ℕ) : (window n buf i k).length = k := by
  induction k generalizing i with
  | zero => rfl
  | succ k ih => rw [window, List.length_cons, ih]

theorem length_content : (content n buf head tail).length = len n head tail := length_window _ _

theorem content_eq_nil (hh : head < n) : content n buf head tail = [] ↔ head = tail := by
  rw [← len_eq_zero hh, ← List.length_eq_zero_iff, length_content]

/-- The cell that is `k` cells after a cell. -/
def after (n i k : ℕ) : ℕ := if i + k < n then i + k else i + k - n

theorem after_zero (hi : i < n) : after n i 0 = i := if_pos hi

theorem after_next (hi : i < n) (hk : k + 1 ≤ n) : after n (next n i) k = after n i (k + 1) := by
  rw [next_eq hi, after, after]
  split_ifs <;> omega

/-- A window only depends on its cells. -/
theorem window_congr {buf' : ℕ → α} (hi : i < n) (hk : k ≤ n)
    (h : ∀ m < k, buf' (after n i m) = buf (after n i m)) :
    window n buf' i k = window n buf i k := by
  induction k generalizing i with
  | zero => rfl
  | succ k ih =>
    have h₀ := h 0 (by omega)
    rw [after_zero hi] at h₀
    rw [window, window, h₀, ih (next_lt hi) (by omega)]
    intro m hm
    rw [after_next hi (by omega)]
    exact h (m + 1) (by omega)

theorem window_succ (hi : i < n) (hk : k < n) :
    window n buf i (k + 1) = window n buf i k ++ [buf (after n i k)] := by
  induction k generalizing i with
  | zero => rw [window, window, window, after_zero hi]; rfl
  | succ k ih =>
    rw [window, ih (next_lt hi) (by omega), after_next hi (by omega)]
    rfl

theorem after_len (hh : head < n) (ht : tail < n) : after n head (len n head tail) = tail := by
  rw [len, after]
  split_ifs <;> omega

/-- Storing outside of the content does not change it. -/
theorem content_update (hh : head < n) (ht : tail < n)
    (hout : ∀ m < len n head tail, after n head m ≠ i) :
    content n (Function.update buf i x) head tail = content n buf head tail :=
  window_congr hh (Nat.le_of_lt (len_lt hh ht)) fun m hm => Function.update_of_ne (hout m hm) _ _

/-- A new element at the tail. -/
theorem content_push (hh : head < n) (ht : tail < n) (hfull : next n tail ≠ head) :
    content n (Function.update buf tail x) head (next n tail) = content n buf head tail ++ [x] := by
  have hout : ∀ m < len n head tail, after n head m ≠ tail := by
    intro m hm heq
    rw [len] at hm
    rw [after] at heq
    split_ifs at hm heq <;> omega
  rw [content, len_push hh ht hfull, window_succ hh (len_lt hh ht), after_len hh ht,
    Function.update_self]
  exact congrArg (· ++ [x]) (content_update hh ht hout)

/-- The first element leaves at the head. -/
theorem content_pop (hh : head < n) (ht : tail < n) (hne : head ≠ tail) :
    content n buf head tail = buf head :: content n buf (next n head) tail := by
  rw [content, len_pop hh ht hne, window]
  rfl

/-- A new element at the head. -/
theorem content_pushFront (hh : head < n) (ht : tail < n) (hfull : next n tail ≠ head) :
    content n (Function.update buf (prev n head) x) (prev n head) tail =
      x :: content n buf head tail := by
  have hp := prev_lt hh
  have hne : prev n head ≠ tail := fun heq => hfull (heq ▸ next_prev hh)
  have hout : ∀ m < len n head tail, after n head m ≠ prev n head := by
    intro m hm heq
    rw [prev_eq hh] at heq
    rw [next_eq ht] at hfull
    rw [len] at hm
    rw [after] at heq
    split_ifs at hm heq hfull <;> omega
  rw [content_pop hp ht hne, Function.update_self, next_prev hh, content_update hh ht hout]

/-- The last element leaves at the tail. -/
theorem content_unpush (hh : head < n) (ht : tail < n) (hne : head ≠ tail) :
    content n buf head tail = content n buf head (prev n tail) ++ [buf (prev n tail)] := by
  have hp := prev_lt ht
  have hfull : next n (prev n tail) ≠ head := fun heq => hne (heq.symm.trans (next_prev ht))
  have h : content n (Function.update buf (prev n tail) (buf (prev n tail))) head _ = _ :=
    content_push hh hp hfull
  rwa [Function.update_eq_self, next_prev ht] at h

end Ring
