import Mathlib.Data.Nat.Digits.Lemmas

/-!
# Numerals

The numeral of a natural number in a base (`natural`), and of an integer with a sign
(`signed`), over any symbols for the digits, the most significant one first.

* `head_natural`: the first digit is not zero, unless the number is.
* `read_natural`, `readSigned_signed`: the number can be read back.
-/

namespace Numeral

variable {α : Type*} (sym : ℕ → α) (minus : α) (val : α → Option ℕ)

/-- The numeral of a natural number. -/
def natural (b n : ℕ) : List α := if n = 0 then [sym 0] else (b.digits n).reverse.map sym

/-- The numeral of an integer. -/
def signed (b : ℕ) (v : ℤ) : List α :=
  if v < 0 then minus :: natural sym b v.natAbs else natural sym b v.natAbs

/-- Read the numeral of a natural number. -/
def read (b : ℕ) (l : List α) : Option ℕ :=
  l.foldl (fun n c => n.bind fun n => (val c).map fun d => d + b * n) (some 0)

/-- Read the numeral of an integer. -/
def readSigned [DecidableEq α] (b : ℕ) (l : List α) : Option ℤ :=
  if l.head? = some minus then (read val b l.tail).map fun n => -(n : ℤ)
  else (read val b l).map fun n => (n : ℤ)

variable {sym minus val} {b : ℕ}

/-- A numeral has no leading zero. -/
theorem head_natural (sym : ℕ → α) {n : ℕ} (hb : 1 < b) (hn : n ≠ 0) :
    ∃ d, d ≠ 0 ∧ d < b ∧ (natural sym b n).head? = some (sym d) := by
  have hne : b.digits n ≠ [] := Nat.digits_ne_nil_iff_ne_zero.2 hn
  refine ⟨(b.digits n).getLast hne, Nat.getLast_digit_ne_zero b hn,
    Nat.digits_lt_base hb (List.getLast_mem hne), ?_⟩
  rw [natural, if_neg hn, List.head?_map, List.head?_reverse, List.getLast?_eq_some_getLast hne]
  rfl

/-- A numeral starts with a digit. -/
theorem exists_head_natural (sym : ℕ → α) (hb : 1 < b) (n : ℕ) :
    ∃ d, d < b ∧ (natural sym b n).head? = some (sym d) := by
  by_cases hn : n = 0
  · rw [natural, if_pos hn]
    exact ⟨0, Nat.zero_lt_of_lt hb, rfl⟩
  · obtain ⟨d, -, hd⟩ := head_natural sym hb hn
    exact ⟨d, hd⟩

/-- Digits are read from the most significant one on. -/
theorem read_reverse {l : List ℕ} (hval : ∀ d < b, val (sym d) = some d) (hl : ∀ d ∈ l, d < b) :
    read val b (l.reverse.map sym) = some (Nat.ofDigits b l) := by
  induction l with
  | nil => rfl
  | cons d l ih =>
    have hd := hval d (hl d List.mem_cons_self)
    have ih := ih fun e he => hl e (List.mem_cons_of_mem d he)
    rw [read] at ih ⊢
    rw [List.reverse_cons, List.map_append, List.foldl_append, ih, Nat.ofDigits_cons]
    exact congrArg (Option.map fun d => d + b * Nat.ofDigits b l) hd

/-- The number can be read back from its numeral. -/
theorem read_natural (hb : 1 < b) (hval : ∀ d < b, val (sym d) = some d) (n : ℕ) :
    read val b (natural sym b n) = some n := by
  rw [natural]
  split_ifs with hn
  · rw [hn]
    exact congrArg (Option.map fun d => d + b * 0) (hval 0 (Nat.zero_lt_of_lt hb))
  · rw [read_reverse hval fun d hd => Nat.digits_lt_base hb hd, Nat.ofDigits_digits]

/-- The integer can be read back from its numeral. -/
theorem readSigned_signed [DecidableEq α] (hb : 1 < b) (hval : ∀ d < b, val (sym d) = some d)
    (hminus : val minus = none) (v : ℤ) :
    readSigned minus val b (signed sym minus b v) = some v := by
  have hread := read_natural hb hval v.natAbs
  rw [signed, readSigned]
  by_cases hv : v < 0
  · have hneg : -(v.natAbs : ℤ) = v := by omega
    rw [if_pos hv, List.head?_cons, if_pos rfl, List.tail_cons, hread]
    exact congrArg some hneg
  · have hpos : (v.natAbs : ℤ) = v := by omega
    obtain ⟨d, hd, hhead⟩ := exists_head_natural sym hb v.natAbs
    have hne : (natural sym b v.natAbs).head? ≠ some minus := by
      rw [hhead]
      intro heq
      rw [← Option.some.inj heq, hval d hd] at hminus
      cases hminus
    rw [if_neg hv, if_neg hne, hread]
    exact congrArg some hpos

end Numeral
