import NeuOs.Lib.Numeral
import NeuOs.Mm.Memory

/-!
# Formatting numbers (kernel/vsprintf.c)

`_sprintnum` is meant to write the numeral of a number (`Sprintnum.Formats`): of the signed
value for `%d`, and of the unsigned value for `%u` and `%x`.

It divides the signed value for all of them, and the remainder of a negative value is
negative, or zero. `formats_iff` says exactly for which values the numeral is written.
-/

namespace NeuOs

/-! ## The code -/

/-- The characters of `digits`. -/
def digits : List Byte := [48, 49, 50, 51, 52, 53, 54, 55, 56, 57, 65, 66, 67, 68, 69, 70]

/-- `digits[i]`, and for other indices what lies around the array. -/
def digitAt (around : ℤ → Byte) (i : ℤ) : Byte :=
  if 0 ≤ i ∧ i < 16 then digits[i.toNat]?.getD 0 else around i

/-- The loop that fills `buf`: the indices into `digits`, from that of `buf[0]` on. It takes
    at most 32 rounds. -/
def digitLoop (base : Word) : ℕ → Word → List ℤ
  | 0, _ => []
  | n + 1, num => if num = 0 then [] else (num.srem base).toInt :: digitLoop base n (num.sdiv base)

/-- What is written to `dest`, with `len`; and the indices into `digits`. -/
structure Sprintnum where
  written : List Byte
  len : ℤ
  indices : List ℤ

/-- `*dest++ = ch; len++` -/
def Sprintnum.put (r : Sprintnum) (ch : Byte) : Sprintnum :=
  { r with written := r.written ++ [ch], len := r.len + 1 }

/-- `_sprintnum` -/
def sprintnum (around : ℤ → Byte) (num base : Word) (sign : Bool) : Sprintnum :=
  let negative := sign && num.slt 0
  let num := if negative then -num else num
  let r : Sprintnum := if negative then Sprintnum.put ⟨[], 0, []⟩ 45 else ⟨[], 0, []⟩
  if num = 0 then r.put 48
  else
    let indices := digitLoop base 32 num
    let buf := indices.map (digitAt around)
    buf.reverse.foldl Sprintnum.put { r with indices := indices }

/-- The conversions of `vsprintf` that call `_sprintnum`. -/
inductive Conversion
  | d
  | u
  | x

namespace Conversion

/-- The base with which `_sprintnum` is called. -/
def base : Conversion → ℕ
  | d => 10
  | u => 10
  | x => 16

/-- The argument `sign`. -/
def sign : Conversion → Bool
  | d => true
  | u => false
  | x => false

/-- The number that a conversion stands for. -/
def value (k : Conversion) (num : Word) : ℤ := if k.sign then num.toInt else num.toNat

/-- The call of `_sprintnum`. -/
def print (k : Conversion) (around : ℤ → Byte) (num : Word) : Sprintnum :=
  sprintnum around num (BitVec.ofNat 32 k.base) k.sign

/-- The numbers that are printed: all but the least one, and only those that are not
    negative as an `int`. -/
def Prints : Conversion → Word → Prop
  | d, num => num ≠ BitVec.intMin 32
  | u, num => 0 ≤ num.toInt
  | x, num => 0 ≤ num.toInt

end Conversion

/-! ## What should be written -/

/-- The digits as characters. -/
def digitChar (d : ℕ) : Byte := digits[d]?.getD 0

/-- The digit that a character stands for. -/
def digitValue (ch : Byte) : Option ℕ := digits.findIdx? (· == ch)

/-- The digits are in the array, the numeral of the value is written, which can be read back,
    and its length is returned. -/
structure Sprintnum.Formats (r : Sprintnum) (base : ℕ) (v : ℤ) : Prop where
  indices : ∀ i ∈ r.indices, 0 ≤ i ∧ i < 16
  written : r.written = Numeral.signed digitChar 45 base v
  readBack : Numeral.readSigned 45 digitValue base r.written = some v
  len : r.len = r.written.length

variable {around : ℤ → Byte} {base num : Word} {b n : ℕ}

theorem digitValue_digitChar (d : ℕ) (hd : d < 16) : digitValue (digitChar d) = some d := by
  decide +revert

theorem digitAt_natCast {d : ℕ} (hd : d < 16) : digitAt around d = digitChar d :=
  if_pos (by omega)

/-! ## The loop -/

/-- A number that is not negative is divided like a natural number. -/
theorem digitLoop_of_nonneg (hb : 1 < b) (hbase : base.toNat = b) (hbase' : base.msb = false)
    (hnum : num.msb = false) (hn : num.toNat < 2 ^ n) :
    digitLoop base n num = (b.digits num.toNat).map Nat.cast := by
  induction n generalizing num with
  | zero =>
    have hzero : num.toNat = 0 := by omega
    rw [digitLoop, hzero, Nat.digits_zero]
    rfl
  | succ n ih =>
    rw [digitLoop]
    by_cases h0 : num = 0
    · rw [if_pos h0, h0]
      exact (congrArg (List.map Nat.cast) (Nat.digits_zero b)).symm
    have hne : num.toNat ≠ 0 := fun h => h0 (BitVec.eq_of_toNat_eq h)
    -- the signed division of two numbers that are not negative is the unsigned one
    have hrem : num.srem base = num % base := by rw [BitVec.srem, hnum, hbase']; rfl
    have hdiv : num.sdiv base = num / base := by rw [BitVec.sdiv, hnum, hbase']; rfl
    have hremNat : (num % base).toNat = num.toNat % b := by rw [BitVec.toNat_umod, hbase]
    have hdivNat : (num / base).toNat = num.toNat / b := by rw [BitVec.toNat_udiv, hbase]
    have hlt : num.toNat < 2 ^ 31 := BitVec.toNat_lt_of_msb_false hnum
    have hremMsb : (num % base).msb = false := by
      rw [BitVec.msb_eq_false_iff_two_mul_lt, hremNat]
      have := Nat.mod_le num.toNat b
      omega
    have hdivMsb : (num / base).msb = false := by
      rw [BitVec.msb_eq_false_iff_two_mul_lt, hdivNat]
      have := Nat.div_le_self num.toNat b
      omega
    -- every round at least halves the number, so the fuel is enough
    have hhalf : num.toNat / b ≤ num.toNat / 2 := Nat.div_le_div_left hb (by decide)
    have hrest := ih hdivMsb (by rw [hdivNat]; omega)
    rw [if_neg h0, hrem, hdiv, BitVec.toInt_eq_toNat_of_msb hremMsb, hrest, hremNat, hdivNat,
      Nat.digits_eq_cons_digits_div hb hne]
    rfl

/-- A negative number has a negative digit. -/
theorem digitLoop_of_neg (hb : 1 < b) (hbase : base.toInt = b) (hnum : num.toInt < 0)
    (hn : -num.toInt < 2 ^ n) : ∃ i ∈ digitLoop base n num, i < 0 := by
  induction n generalizing num with
  | zero => omega
  | succ n ih =>
    have h0 : num ≠ 0 := fun h => absurd hnum (by rw [h]; decide)
    have hone : base ≠ -1#32 := by
      intro h
      rw [h] at hbase
      have : (-1#32).toInt = -1 := by decide
      omega
    have hdiv : (num.sdiv base).toInt = num.toInt.tdiv b := by
      rw [BitVec.toInt_sdiv_of_ne_or_ne _ _ (.inr hone), hbase]
    have hrem : (num.srem base).toInt = num.toInt.tmod b := by rw [BitVec.toInt_srem, hbase]
    have hsplit : num.toInt.tmod b + b * num.toInt.tdiv b = num.toInt := Int.tmod_add_mul_tdiv _ _
    rw [digitLoop, if_neg h0, hrem]
    by_cases hr : num.toInt.tmod b < 0
    · exact ⟨_, List.mem_cons_self, hr⟩
    · -- the number is a multiple of the base, and the quotient is negative
      have hle : 0 ≤ (-num.toInt).tmod b := Int.tmod_nonneg _ (by omega)
      rw [Int.neg_tmod] at hle
      have hzero : num.toInt.tmod b = 0 := by omega
      rw [hzero, zero_add] at hsplit
      have hneg : num.toInt.tdiv b < 0 := by
        by_contra h
        have := Int.mul_nonneg (Int.natCast_nonneg b) (not_lt.1 h)
        omega
      have htwo : (b : ℤ) * num.toInt.tdiv b ≤ 2 * num.toInt.tdiv b :=
        Int.mul_le_mul_of_nonpos_right (by omega) (by omega)
      have hquot : (num.sdiv base).toInt < 0 := hdiv ▸ hneg
      obtain ⟨i, hi, hi'⟩ := ih hquot (by rw [hdiv]; omega)
      exact ⟨i, List.mem_cons_of_mem _ hi, hi'⟩

/-! ## The whole function -/

/-- The loop that writes `buf`. -/
theorem foldl_put (l : List Byte) (r : Sprintnum) :
    (l.foldl Sprintnum.put r).written = r.written ++ l ∧
      (l.foldl Sprintnum.put r).len = r.len + l.length ∧
      (l.foldl Sprintnum.put r).indices = r.indices := by
  induction l generalizing r with
  | nil => exact ⟨(List.append_nil _).symm, (add_zero _).symm, rfl⟩
  | cons ch l ih =>
    obtain ⟨hw, hl, hi⟩ := ih (r.put ch)
    rw [List.foldl_cons, hw, hl, hi, List.length_cons]
    refine ⟨List.append_assoc _ _ _, ?_, rfl⟩
    push_cast
    exact (add_assoc _ _ _).trans (congrArg _ (add_comm _ _))

variable {sign : Bool}

/-- The number whose digits `_sprintnum` writes, after the sign. -/
def operand (num : Word) (sign : Bool) : Word := if sign && num.slt 0 then -num else num

/-- The bytes are written one after the other: the sign, and then the digits, or a zero. -/
theorem sprintnum_eq : sprintnum around num base sign =
    ((if sign && num.slt 0 then [45] else []) ++
      if operand num sign = 0 then [48]
      else ((digitLoop base 32 (operand num sign)).map (digitAt around)).reverse).foldl
        Sprintnum.put ⟨[], 0, digitLoop base 32 (operand num sign)⟩ := by
  rw [sprintnum, operand, List.foldl_append]
  dsimp only
  generalize (if (sign && num.slt 0) = true then -num else num) = w
  by_cases hw : w = 0
  · rw [if_pos hw, if_pos hw, hw]
    split_ifs <;> rfl
  · rw [if_neg hw, if_neg hw]
    split_ifs <;> rfl

theorem indices_sprintnum :
    (sprintnum around num base sign).indices = digitLoop base 32 (operand num sign) := by
  rw [sprintnum_eq, (foldl_put _ _).2.2]

theorem written_sprintnum : (sprintnum around num base sign).written =
    (if sign && num.slt 0 then [45] else []) ++
      if operand num sign = 0 then [48]
      else ((digitLoop base 32 (operand num sign)).map (digitAt around)).reverse := by
  rw [sprintnum_eq, (foldl_put _ _).1, List.nil_append]

/-- `_sprintnum` returns the number of bytes written. -/
theorem len_sprintnum :
    (sprintnum around num base sign).len = (sprintnum around num base sign).written.length := by
  rw [written_sprintnum, sprintnum_eq, (foldl_put _ _).2.1, zero_add]

namespace Conversion

variable {k : Conversion}

theorem base_spec (k : Conversion) : 1 < k.base ∧ k.base ≤ 16 ∧
    (BitVec.ofNat 32 k.base).toNat = k.base ∧ (BitVec.ofNat 32 k.base).toInt = k.base ∧
      (BitVec.ofNat 32 k.base).msb = false := by
  cases k <;> decide

theorem slt_zero : num.slt 0 = num.msb := BitVec.slt_zero_eq_msb

theorem msb_eq_false_iff : num.msb = false ↔ 0 ≤ num.toInt := by
  rw [BitVec.msb_eq_toInt, decide_eq_false_iff_not, not_lt]

/-- The digits that are written are those of a number that is not negative. -/
theorem prints_iff : k.Prints num ↔ (operand num k.sign).msb = false := by
  cases k with
  | d =>
    change num ≠ BitVec.intMin 32 ↔ (if num.slt 0 then -num else num).msb = false
    rw [slt_zero]
    by_cases hm : num.msb
    · rw [if_pos hm]
      -- the least number is its own negation
      by_cases hmin : num = BitVec.intMin 32
      · rw [hmin]
        decide
      · have hzero : num ≠ 0#32 := fun h => absurd hm (by rw [h]; decide)
        rw [BitVec.msb_neg_of_ne_intMin_of_ne_zero hmin hzero, hm]
        exact ⟨fun _ => rfl, fun _ => hmin⟩
    · rw [if_neg hm]
      exact ⟨fun _ => Bool.eq_false_iff.2 hm, fun _ h => hm (by rw [h]; decide)⟩
  | u => exact msb_eq_false_iff.symm
  | x => exact msb_eq_false_iff.symm

/-- They are the digits of the value, and the sign is that of the value. -/
theorem value_spec (h : (operand num k.sign).msb = false) :
    (operand num k.sign).toNat = (k.value num).natAbs ∧
      (k.value num < 0 ↔ (k.sign && num.slt 0) = true) := by
  have hnat : ∀ w : Word, w.msb = false → (w.toNat : ℤ) = w.toInt := fun w hw =>
    (BitVec.toInt_eq_toNat_of_msb hw).symm
  have hunsigned : num.toNat = (num.toNat : ℤ).natAbs ∧ ((num.toNat : ℤ) < 0 ↔ false = true) :=
    ⟨rfl, ⟨fun h => by omega, fun h => by cases h⟩⟩
  cases k with
  | d =>
    change (if num.slt 0 then -num else num).msb = false at h
    change (if num.slt 0 then -num else num).toNat = num.toInt.natAbs ∧
      (num.toInt < 0 ↔ num.slt 0 = true)
    rw [slt_zero] at h ⊢
    by_cases hm : num.msb
    · rw [if_pos hm] at h ⊢
      have hmin : num ≠ BitVec.intMin 32 := fun hmin => by rw [hmin] at h; cases h
      have hneg := BitVec.toInt_neg_of_ne_intMin hmin
      have hlt : num.toInt < 0 := by rw [BitVec.msb_eq_toInt] at hm; exact of_decide_eq_true hm
      have heq := hnat _ h
      exact ⟨by omega, fun _ => hm, fun _ => hlt⟩
    · rw [if_neg hm] at h ⊢
      have hge := msb_eq_false_iff.1 h
      have heq := hnat _ h
      exact ⟨by omega, fun hlt => absurd hlt (not_lt.2 hge), fun hm' => absurd hm' hm⟩
  | u => exact hunsigned
  | x => exact hunsigned

/-- The numeral is written if the number that is divided is not negative. -/
theorem formats_of_nonneg (h : (operand num k.sign).msb = false) :
    (k.print around num).Formats k.base (k.value num) := by
  obtain ⟨hb, hb16, hnat, -, hmsb⟩ := base_spec k
  obtain ⟨habs, hsign⟩ := value_spec h
  have hloop := digitLoop_of_nonneg hb hnat hmsb h (n := 32) (BitVec.isLt _)
  have hdigit : ∀ d ∈ k.base.digits (operand num k.sign).toNat, d < 16 := fun d hd =>
    lt_of_lt_of_le (Nat.digits_lt_base hb hd) hb16
  have hwritten : (k.print around num).written =
      Numeral.signed digitChar 45 k.base (k.value num) := by
    have hzero : operand num k.sign = 0 ↔ (operand num k.sign).toNat = 0 := BitVec.toNat_eq
    have hbuf : ((k.base.digits (operand num k.sign).toNat).map Nat.cast).map (digitAt around) =
        (k.base.digits (operand num k.sign).toNat).map digitChar := by
      rw [List.map_map]
      exact List.map_congr_left fun d hd => digitAt_natCast (hdigit d hd)
    -- the code writes the zero itself
    have hnatural : (if operand num k.sign = 0 then [48]
        else ((k.base.digits (operand num k.sign).toNat).map digitChar).reverse) =
          Numeral.natural digitChar k.base (k.value num).natAbs := by
      rw [Numeral.natural, ← habs, List.map_reverse]
      by_cases h0 : operand num k.sign = 0
      · rw [if_pos h0, if_pos (hzero.1 h0)]
        rfl
      · rw [if_neg h0, if_neg (hzero.not.1 h0)]
    rw [print, written_sprintnum, hloop, hbuf, hnatural, Numeral.signed]
    by_cases hneg : (k.sign && num.slt 0) = true
    · rw [if_pos hneg, if_pos (hsign.2 hneg), List.singleton_append]
    · rw [if_neg hneg, if_neg (hsign.not.2 hneg), List.nil_append]
  refine ⟨fun i hi => ?_, hwritten, ?_, len_sprintnum⟩
  · rw [print, indices_sprintnum, hloop] at hi
    obtain ⟨d, hd, rfl⟩ := List.mem_map.1 hi
    have hlt := hdigit d hd
    exact ⟨Int.natCast_nonneg d, by exact_mod_cast hlt⟩
  · rw [hwritten]
    exact Numeral.readSigned_signed hb
      (fun d hd => digitValue_digitChar d (lt_of_lt_of_le hd hb16)) (by decide) _

/-- If it is negative, so is an index. -/
theorem not_formats_of_neg (h : (operand num k.sign).msb = true) {v : ℤ} :
    ¬(k.print around num).Formats k.base v := by
  obtain ⟨hb, -, -, hint, -⟩ := base_spec k
  have hneg : (operand num k.sign).toInt < 0 := by
    rw [BitVec.msb_eq_toInt] at h
    exact of_decide_eq_true h
  have hle : -2 ^ 31 ≤ (operand num k.sign).toInt := BitVec.le_toInt _
  obtain ⟨i, hi, hlt⟩ := digitLoop_of_neg hb hint hneg (n := 32) (by omega)
  have hindices : (k.print around num).indices =
      digitLoop (BitVec.ofNat 32 k.base) 32 (operand num k.sign) := indices_sprintnum
  intro hf
  have hge := (hf.indices i (hindices ▸ hi)).1
  omega

/-- `%d` prints all numbers but the least one; `%u` and `%x` print the numbers that are not
    negative as an `int`. What lies around the array does not matter. -/
theorem formats_iff (k : Conversion) (around : ℤ → Byte) (num : Word) :
    (k.print around num).Formats k.base (k.value num) ↔ k.Prints num := by
  rw [prints_iff]
  cases h : (operand num k.sign).msb with
  | false => exact iff_of_true (formats_of_nonneg h) rfl
  | true => exact iff_of_false (not_formats_of_neg h) Bool.noConfusion

/-- `%u` of 4294967295 takes a digit from before the array. -/
theorem not_formats : u.value (-1) = 4294967295 ∧
    ¬(u.print (fun _ => 0) (-1)).Formats u.base (u.value (-1)) := by
  refine ⟨by decide, fun hf => ?_⟩
  have hi := hf.indices (-1) (by decide)
  exact absurd hi.1 (by decide)

end Conversion

end NeuOs
