import Mathlib.Algebra.Order.BigOperators.Group.List
import NeuOs.Kernel.Format
import NeuOs.Tty.UserWrite

/-!
# Printing (kernel/printk.c, lib/printf.c)

`printk` and `printf` have the text of a format stored in a buffer of `TTY_BUF_SIZE` bytes that is
zero before, and send it to the terminal, up to the first zero.

`vsprintf` does not know the size of the buffer. `printed_whole_iff` says which formats are
printed: the text has to fit into the buffer, with a zero after it, and into the queue of the
terminal, there must be no zero in it, and `_sprintnum` must be able to print its numbers.
-/

namespace NeuOs

/-! ## The code -/

/-- `buf` and what follows it, after the loop that clears `buf`. -/
def cleared (beyond : ℕ → Byte) : ℕ → Byte := fun i => if i < TTY_BUF_SIZE then 0 else beyond i

/-- The bytes after some stores. -/
def stored (buf : ℕ → Byte) (stores : List (ℕ × Byte)) : ℕ → Byte :=
  stores.foldl (fun buf s => Function.update buf s.1 s.2) buf

/-- The loop `while(*ptr)` with `ptr++`. -/
def untilZero {σ : Type*} (buf : ℕ → Byte) (body : ℕ → σ → σ) : (fuel ptr : ℕ) → σ → Option σ
  | 0, _, _ => none
  | fuel + 1, ptr, s =>
    if buf ptr = 0 then some s else untilZero buf body fuel (ptr + 1) (body ptr s)

/-- The stores of `vsprintf`, `buf` after them, the queue and the console, and the characters that
    have been passed to `video_putchar`. -/
structure Printed where
  stores : List (ℕ × Byte)
  buf : ℕ → Byte
  writeQ : TtyQueue
  console : Console
  passed : List Byte

section

variable (around : ℤ → Byte) (beyond : ℕ → Byte) (strings : Word → List Byte) (fmt : List Byte)
  (ap : VaList) (writeQ : TtyQueue) (c : Console) (fuel : ℕ)

/-- `printk` -/
def printk : Option Printed :=
  let stores := (vsprintf around strings fmt ap ⟨0, [], []⟩).stores
  let buf := stored (cleared beyond) stores
  (untilZero buf (fun ptr q => (q.push (buf ptr)).2) fuel 0 writeQ).map fun q =>
    ⟨stores, buf, (Console.conWrite TTY_BUF_SIZE q c).1, (Console.conWrite TTY_BUF_SIZE q c).2,
      Console.drained TTY_BUF_SIZE q⟩

/-- `printf` -/
def printf : Option Printed :=
  let stores := (vsprintf around strings fmt ap ⟨0, [], []⟩).stores
  let buf := stored (cleared beyond) stores
  (untilZero buf (fun _ i => i + 1) fuel 0 0).map fun i : ℕ =>
    let w := userTtyWrite writeQ c buf i
    ⟨stores, buf, w.writeQ, w.console, w.passed⟩

end

/-! ## What should be printed -/

namespace Piece

/-- What a piece stands for. -/
def meaning : Piece → List Byte
  | char ch => [ch]
  | num k w => Numeral.signed digitChar 45 k.base (k.value w)
  | str l => l

/-- `_sprintnum` can print the number. -/
def Prints : Piece → Prop
  | num k w => k.Prints w
  | _ => True

end Piece

/-- The text that a format stands for. -/
def expansion (ps : List Piece) : List Byte := ps.flatMap Piece.meaning

/-- The stores are in `buf`, with a zero after them, and the text is displayed, after what has
    been in the queue. -/
structure Printed.Whole (r : Printed) (writeQ : TtyQueue) (text : List Byte) : Prop where
  inside : ∀ s ∈ r.stores, s.1 < TTY_BUF_SIZE
  terminated : ∃ i < TTY_BUF_SIZE, (∀ s ∈ r.stores, s.1 < i) ∧ r.buf i = 0
  passed : r.passed = writeQ.content ++ text

variable {around : ℤ → Byte} {beyond buf : ℕ → Byte} {ps : List Piece} {q : TtyQueue}
  {text : List Byte} {n : ℕ}

/-! ## Pieces -/

/-- There are not more digits than in the numeral of the absolute value. -/
theorem length_digitLoop_le {base num : Word} {b : ℕ} (hb : 1 < b) (hbase : base.toInt = b)
    (n : ℕ) :
    (digitLoop base n num).length ≤ (b.digits num.toInt.natAbs).length := by
  induction n generalizing num with
  | zero => exact Nat.zero_le _
  | succ n ih =>
    rw [digitLoop]
    by_cases h0 : num = 0
    · rw [if_pos h0]
      exact Nat.zero_le _
    · have hone : base ≠ -1#32 := by
        intro h
        rw [h] at hbase
        have : (-1#32).toInt = -1 := by decide
        omega
      have hne : num.toInt.natAbs ≠ 0 := fun h =>
        h0 (BitVec.eq_of_toInt_eq ((Int.natAbs_eq_zero.1 h).trans (by decide)))
      have hdiv : (num.sdiv base).toInt.natAbs = num.toInt.natAbs / b := by
        rw [BitVec.toInt_sdiv_of_ne_or_ne _ _ (.inr hone), hbase, Int.natAbs_tdiv,
          Int.natAbs_natCast]
        rfl
      rw [if_neg h0, List.length_cons, Nat.digits_eq_cons_digits_div hb hne, List.length_cons,
        ← hdiv]
      exact Nat.succ_le_succ ih

namespace Piece

variable {p : Piece}

theorem text_of_prints (h : p.Prints) : p.text around = p.meaning := by
  cases p with
  | num k w => exact (Conversion.formats_of_nonneg (Conversion.prints_iff.1 h)).written
  | _ => rfl

/-- The number that is divided is negative, if a number is not printed. -/
theorem operand_neg {k : Conversion} {w : Word} (h : ¬k.Prints w) :
    (operand w k.sign).toInt < 0 := by
  rw [Conversion.prints_iff, Bool.not_eq_false, BitVec.msb_eq_toInt] at h
  exact of_decide_eq_true h

/-- Then there is a digit that lies before the array. -/
theorem zero_mem_text (h : ¬p.Prints) : 0 ∈ p.text fun _ => 0 := by
  cases p with
  | num k w =>
    obtain ⟨hb, -, -, hint, -⟩ := Conversion.base_spec k
    have hneg := operand_neg h
    have hle : -2 ^ 31 ≤ (operand w k.sign).toInt := BitVec.le_toInt _
    have hne : operand w k.sign ≠ 0 := fun h0 => absurd hneg (by rw [h0]; decide)
    obtain ⟨i, hi, hlt⟩ := digitLoop_of_neg hb hint hneg (n := 32) (by omega)
    rw [text, Conversion.print, written_sprintnum, if_neg hne]
    refine List.mem_append_right _ (List.mem_reverse.2 (List.mem_map.2 ⟨i, hi, ?_⟩))
    exact if_neg fun h => absurd h.1 (not_le.2 hlt)
  | _ => exact absurd trivial h

/-- Its absolute value is not greater than that of the value. -/
theorem natAbs_operand_le {k : Conversion} {w : Word} (h : ¬k.Prints w) :
    (operand w k.sign).toInt.natAbs ≤ (k.value w).natAbs ∧
      ((k.sign && w.slt 0) = true → k.value w < 0) := by
  have hunsigned : ¬0 ≤ w.toInt → w.toInt.natAbs ≤ (w.toNat : ℤ).natAbs := fun hneg => by
    have hint := BitVec.toInt_eq_toNat_cond w
    have hle := BitVec.le_toInt w
    split_ifs at hint <;> omega
  cases k with
  | d =>
    rw [show w = BitVec.intMin 32 from not_not.1 h]
    decide
  | u => exact ⟨hunsigned h, fun h' => absurd h' Bool.false_ne_true⟩
  | x => exact ⟨hunsigned h, fun h' => absurd h' Bool.false_ne_true⟩

theorem length_digits_le (b n : ℕ) :
    (b.digits n).length ≤ (Numeral.natural digitChar b n).length := by
  rw [Numeral.natural]
  split_ifs with h
  · rw [h, Nat.digits_zero]
    exact Nat.zero_le _
  · rw [List.length_map, List.length_reverse]

/-- And there are not more characters than there should be. -/
theorem length_text_le : (p.text around).length ≤ p.meaning.length := by
  by_cases h : p.Prints
  · rw [text_of_prints h]
  cases p with
  | num k w =>
    obtain ⟨hb, -, -, hint, -⟩ := Conversion.base_spec k
    have hneg := operand_neg h
    have hne : operand w k.sign ≠ 0 := fun h0 => absurd hneg (by rw [h0]; decide)
    have hdigits := @length_digitLoop_le _ (operand w k.sign) _ hb hint 32
    obtain ⟨habs, hsign⟩ := natAbs_operand_le h
    have hnumeral := (hdigits.trans (Nat.le_length_digits_le k.base _ _ habs)).trans
      (length_digits_le _ _)
    rw [text, Conversion.print, written_sprintnum, if_neg hne, meaning, Numeral.signed,
      List.length_append, List.length_reverse, List.length_map]
    by_cases hminus : (k.sign && w.slt 0) = true
    · rw [if_pos hminus, if_pos (hsign hminus), List.length_singleton, List.length_cons]
      omega
    · rw [if_neg hminus, List.length_nil]
      split_ifs
      · rw [List.length_cons]
        omega
      · omega
  | _ => exact absurd trivial h

end Piece

/-! ## The buffer -/

/-- The bytes are in the buffer, and the rest of it is left. -/
theorem stored_placed (l : List Byte) (p : ℕ) (buf : ℕ → Byte) (i : ℕ) :
    stored buf (placed p l) i = if p ≤ i then (l[i - p]?).getD (buf i) else buf i := by
  induction l generalizing p buf with
  | nil => split_ifs <;> rfl
  | cons c l ih =>
    have hstep : stored buf (placed p (c :: l)) =
        stored (Function.update buf p c) (placed (p + 1) l) := rfl
    rw [hstep, ih]
    rcases lt_trichotomy i p with hlt | rfl | hgt
    · rw [if_neg (by omega), if_neg (by omega), Function.update_of_ne hlt.ne]
    · rw [if_neg (by omega), if_pos le_rfl, Nat.sub_self, Function.update_self]
      rfl
    · rw [if_pos (by omega), if_pos hgt.le, Function.update_of_ne hgt.ne',
        show i - p = i - (p + 1) + 1 by omega, List.getElem?_cons_succ]

theorem stored_text {i : ℕ} (hi : i < text.length) :
    stored (cleared beyond) (placed 0 text) i = text[i] := by
  rw [stored_placed, if_pos (Nat.zero_le i), Nat.sub_zero, List.getElem?_eq_getElem hi]
  rfl

/-- There is a zero after a text that fits. -/
theorem stored_end (h : text.length < TTY_BUF_SIZE) :
    stored (cleared beyond) (placed 0 text) text.length = 0 := by
  rw [stored_placed, if_pos (Nat.zero_le _), Nat.sub_zero, List.getElem?_eq_none (le_refl _)]
  exact if_pos h

/-- The first zero is at `n`. -/
def FirstZero (buf : ℕ → Byte) (n : ℕ) : Prop := buf n = 0 ∧ ∀ i < n, buf i ≠ 0

/-- The loop ends at the first zero. -/
theorem untilZero_eq_some {σ : Type*} {body : ℕ → σ → σ} {fuel : ℕ} {s s' : σ} :
    untilZero buf body fuel 0 s = some s' ↔
      ∃ n < fuel, FirstZero buf n ∧ s' = (List.range n).foldl (fun s i => body i s) s := by
  -- the induction is over the rounds that are left, after `p` rounds
  have hrounds : ∀ fuel p, (∀ i < p, buf i ≠ 0) →
      (untilZero buf body fuel p ((List.range p).foldl (fun s i => body i s) s) = some s' ↔
        ∃ n < p + fuel, FirstZero buf n ∧ s' = (List.range n).foldl (fun s i => body i s) s) := by
    intro fuel
    induction fuel with
    | zero =>
      intro p hp
      refine ⟨fun h => (Option.some_ne_none s' h.symm).elim, fun ⟨n, hn, h0, _⟩ => ?_⟩
      exact absurd h0.1 (hp n hn)
    | succ fuel ih =>
      intro p hp
      rw [untilZero]
      by_cases h0 : buf p = 0
      · rw [if_pos h0, Option.some_inj]
        refine ⟨fun h => ⟨p, by omega, ⟨h0, hp⟩, h.symm⟩, fun ⟨n, _, hn, hs⟩ => ?_⟩
        -- there is one first zero
        have hpn : n = p := by
          rcases lt_trichotomy n p with hlt | heq | hgt
          · exact absurd hn.1 (hp n hlt)
          · exact heq
          · exact absurd h0 (hn.2 p hgt)
        rw [hs, hpn]
      · have hp' : ∀ i < p + 1, buf i ≠ 0 := fun i hi => by
          rcases Nat.lt_succ_iff_lt_or_eq.1 hi with hlt | rfl
          · exact hp i hlt
          · exact h0
        have ih := ih (p + 1) hp'
        rw [List.range_succ, List.foldl_append] at ih
        rw [if_neg h0]
        refine ih.trans (exists_congr fun n => and_congr_left' ?_)
        omega
  have h := hrounds fuel 0 fun i hi => absurd hi (Nat.not_lt_zero i)
  rwa [Nat.zero_add] at h

theorem foldl_count (n : ℕ) : (List.range n).foldl (fun i _ => i + 1) 0 = n := by
  induction n with
  | zero => rfl
  | succ n ih => rw [List.range_succ, List.foldl_append, ih]; rfl

/-! ## What is printed -/

/-- The stores of a format, and `buf` after them. -/
theorem stores_vsprintf (around : ℤ → Byte) (strings : Word → List Byte) (fmt : List Byte)
    (ap : VaList) : (vsprintf around strings fmt ap ⟨0, [], []⟩).stores =
      placed 0 (expand around (pieces strings fmt ap)) := by
  rw [vsprintf_eq, foldl_dest_putPiece, List.nil_append]

/-- What is printed, if the text is `text`, and the first zero in `buf` is at `n`. -/
structure Printed.Prints (r : Printed) (beyond : ℕ → Byte) (q : TtyQueue) (text : List Byte)
    (n : ℕ) : Prop where
  stores : r.stores = placed 0 text
  buf : r.buf = stored (cleared beyond) (placed 0 text)
  firstZero : FirstZero r.buf n
  passed : r.passed =
    q.content ++ ((List.range n).map r.buf).take (TTY_BUF_SIZE - 1 - q.content.length)

variable {strings : Word → List Byte} {fmt : List Byte} {ap : VaList} {c : Console} {r : Printed}

/-- The characters before the first zero go to the queue, and from there to the console. -/
theorem prints_pushBytes (hq : q.Bounded) {text : List Byte} {n : ℕ}
    (hn : FirstZero (stored (cleared beyond) (placed 0 text)) n)
    (hpassed : r.passed = Console.drained TTY_BUF_SIZE
      (pushBytes q (stored (cleared beyond) (placed 0 text)) n))
    (hstores : r.stores = placed 0 text)
    (hbuf : r.buf = stored (cleared beyond) (placed 0 text)) : r.Prints beyond q text n := by
  obtain ⟨hb, hc⟩ := content_pushBytes hq (stored (cleared beyond) (placed 0 text)) n
  refine ⟨hstores, hbuf, by rwa [hbuf], hpassed.trans ?_⟩
  rw [hbuf]
  exact (Console.drained_spec hb (Nat.le_of_lt (TtyQueue.length_content_lt hb))).trans hc

theorem printk_spec (hq : q.Bounded) {fuel : ℕ}
    (h : printk around beyond strings fmt ap q c fuel = some r) :
    ∃ n, r.Prints beyond q (expand around (pieces strings fmt ap)) n := by
  rw [printk, stores_vsprintf] at h
  obtain ⟨q', hloop, rfl⟩ := Option.map_eq_some_iff.1 h
  obtain ⟨n, -, hn, rfl⟩ := untilZero_eq_some.1 hloop
  exact ⟨n, prints_pushBytes hq hn rfl rfl rfl⟩

theorem printf_spec (hq : q.Bounded) {fuel : ℕ}
    (h : printf around beyond strings fmt ap q c fuel = some r) :
    ∃ n, r.Prints beyond q (expand around (pieces strings fmt ap)) n := by
  rw [printf, stores_vsprintf] at h
  obtain ⟨q', hloop, rfl⟩ := Option.map_eq_some_iff.1 h
  obtain ⟨n, -, hn, rfl⟩ := untilZero_eq_some.1 hloop
  rw [foldl_count]
  exact ⟨n, prints_pushBytes hq hn rfl rfl rfl⟩

/-- A text that fits is printed whole, if there is no zero in it. -/
theorem Printed.Prints.whole (h : r.Prints beyond q text n) (h0 : 0 ∉ text)
    (hlen : q.content.length + text.length < TTY_BUF_SIZE) : r.Whole q text := by
  have hsize : TTY_BUF_SIZE = 1024 := rfl
  rw [hsize] at hlen
  have hoffset : ∀ s ∈ r.stores, s.1 < text.length := fun s hs => by
    have hmem := List.mem_map_of_mem (f := Prod.fst) hs
    rw [h.stores, map_fst_placed, List.mem_range'_1] at hmem
    omega
  have hbyte : ∀ i (hi : i < text.length), r.buf i = text[i] := fun i hi => by
    rw [h.buf, stored_text hi]
  have hend : r.buf text.length = 0 := by
    rw [h.buf, stored_end (by omega)]
  -- the first zero is the end of the text
  have hn : n = text.length := by
    rcases lt_trichotomy n text.length with hlt | heq | hgt
    · have hzero := h.firstZero.1
      rw [hbyte n hlt] at hzero
      exact absurd (hzero ▸ List.getElem_mem hlt) h0
    · exact heq
    · exact absurd hend (h.firstZero.2 _ hgt)
  have htext : (List.range n).map r.buf = text := by
    refine List.ext_getElem (by rw [List.length_map, List.length_range, hn]) fun i h1 h2 => ?_
    rw [List.getElem_map, List.getElem_range, hbyte i h2]
  refine ⟨fun s hs => ?_, ⟨text.length, by omega, hoffset, hend⟩, ?_⟩
  · have := hoffset s hs
    omega
  · rw [h.passed, htext, List.take_of_length_le (by omega)]

/-- A text that is printed whole and is not longer than what should be printed has no zero, and
    fits. -/
theorem Printed.Prints.fits (h : r.Prints beyond q text n) (hq : q.Bounded) {l : List Byte}
    (hwhole : r.Whole q l) (hle : text.length ≤ l.length) :
    0 ∉ text ∧ q.content.length + l.length < TTY_BUF_SIZE := by
  have hsize : TTY_BUF_SIZE = 1024 := rfl
  have hcontent := TtyQueue.length_content_lt hq
  obtain ⟨-, ⟨i, hi, hbefore, -⟩, hpassed⟩ := hwhole
  rw [hsize] at hi hcontent ⊢
  -- all stores lie before `i`, so the text ends in the buffer
  have hfits : text.length < 1024 := by
    rcases Nat.eq_zero_or_pos text.length with hnil | hpos
    · omega
    · have hmem : text.length - 1 ∈ r.stores.map Prod.fst := by
        rw [h.stores, map_fst_placed, List.mem_range'_1]
        omega
      obtain ⟨s, hs, hlast⟩ := List.mem_map.1 hmem
      have := hbefore s hs
      omega
  have hend : r.buf text.length = 0 := by
    rw [h.buf, stored_end hfits]
  have hn : n ≤ text.length := not_lt.1 fun hlt => h.firstZero.2 _ hlt hend
  have hlen := congrArg List.length (List.append_cancel_left (h.passed.symm.trans hpassed))
  rw [List.length_take, List.length_map, List.length_range, hsize] at hlen
  have hntext : n = text.length := by omega
  refine ⟨fun hzero => ?_, by omega⟩
  obtain ⟨j, hj, hbyte⟩ := List.getElem_of_mem hzero
  refine h.firstZero.2 j (hntext ▸ hj) ?_
  rw [h.buf, stored_text hj, hbyte]

/-- The numbers can be printed, and the text fits, without a zero. -/
structure Printable (q : TtyQueue) (ps : List Piece) : Prop where
  numbers : ∀ p ∈ ps, p.Prints
  noZero : 0 ∉ expansion ps
  room : q.content.length + (expansion ps).length < TTY_BUF_SIZE

theorem expand_of_prints (h : ∀ p ∈ ps, p.Prints) : expand around ps = expansion ps :=
  List.flatMap_congr fun p hp => Piece.text_of_prints (h p hp)

theorem length_expand_le (around : ℤ → Byte) (ps : List Piece) :
    (expand around ps).length ≤ (expansion ps).length := by
  rw [expand, expansion, List.length_flatMap, List.length_flatMap]
  exact List.sum_le_sum fun p _ => Piece.length_text_le

theorem exists_firstZero {m : ℕ} (h : buf m = 0) : ∃ n, FirstZero buf n :=
  have hex : ∃ m, buf m = 0 := ⟨m, h⟩
  ⟨Nat.find hex, Nat.find_spec hex, fun _ hi => Nat.find_min hex hi⟩

/-- A function that prints the text of a format, and that ends when there is a zero, prints it
    whole exactly if the format is printable. -/
theorem whole_iff_of_spec {run : (ℤ → Byte) → (ℕ → Byte) → ℕ → Option Printed} (hq : q.Bounded)
    (hspec : ∀ around beyond fuel r, run around beyond fuel = some r →
      ∃ n, r.Prints beyond q (expand around ps) n)
    (hends : ∀ around beyond n,
      FirstZero (stored (cleared beyond) (placed 0 (expand around ps))) n →
        ∃ fuel r, run around beyond fuel = some r) :
    (∀ around beyond, ∃ fuel r, run around beyond fuel = some r ∧ r.Whole q (expansion ps)) ↔
      Printable q ps := by
  constructor
  · intro h
    -- with zeros around `digits`, a number that is not printed ends the text
    obtain ⟨fuel, r, hrun, hwhole⟩ := h (fun _ => 0) fun _ => 0
    obtain ⟨n, hprints⟩ := hspec _ _ _ _ hrun
    obtain ⟨hzero, hroom⟩ := hprints.fits hq hwhole (length_expand_le _ ps)
    have hnumbers : ∀ p ∈ ps, p.Prints := fun p hp => by
      by_contra hnot
      exact hzero (List.mem_flatMap.2 ⟨p, hp, Piece.zero_mem_text hnot⟩)
    rw [expand_of_prints hnumbers] at hzero
    exact ⟨hnumbers, hzero, hroom⟩
  · intro h around beyond
    have htext : expand around ps = expansion ps := expand_of_prints h.numbers
    have hroom := h.room
    have hend := @stored_end beyond (expand around ps) (by rw [htext]; omega)
    obtain ⟨n, hn⟩ := exists_firstZero hend
    obtain ⟨fuel, r, hrun⟩ := hends around beyond n hn
    obtain ⟨m, hprints⟩ := hspec around beyond fuel r hrun
    rw [htext] at hprints
    exact ⟨fuel, r, hrun, hprints.whole h.noZero h.room⟩

/-- A format is printed whole, by `printk` and by `printf`, exactly if its numbers can be printed
    and its text has no zero and fits into the queue. -/
theorem printed_whole_iff (strings : Word → List Byte) (fmt : List Byte) (ap : VaList)
    (q : TtyQueue) (hq : q.Bounded) (c : Console) :
    let ps := pieces strings fmt ap
    ((∀ around beyond, ∃ fuel r, printk around beyond strings fmt ap q c fuel = some r ∧
        r.Whole q (expansion ps)) ↔ Printable q ps) ∧
      ((∀ around beyond, ∃ fuel r, printf around beyond strings fmt ap q c fuel = some r ∧
        r.Whole q (expansion ps)) ↔ Printable q ps) := by
  refine ⟨whole_iff_of_spec hq (fun _ _ _ _ => printk_spec hq) fun around beyond n hn => ?_,
    whole_iff_of_spec hq (fun _ _ _ _ => printf_spec hq) fun around beyond n hn => ?_⟩
  · rw [← stores_vsprintf] at hn
    exact ⟨n + 1, _, by rw [printk, untilZero_eq_some.2 ⟨n, Nat.lt_succ_self n, hn, rfl⟩]; rfl⟩
  · rw [← stores_vsprintf] at hn
    exact ⟨n + 1, _, by rw [printf, untilZero_eq_some.2 ⟨n, Nat.lt_succ_self n, hn, rfl⟩]; rfl⟩

/-- The text of `%d` is printed. -/
theorem printed_whole_iff_digit : ∃ (q : TtyQueue) (c : Console), ∀ around beyond, ∃ fuel r,
    printk around beyond (fun _ => []) [37, 100] (fun _ => 7) q c fuel = some r ∧
      r.Whole q [55] := by
  obtain ⟨c⟩ : Nonempty Console := ⟨⟨fun _ => 0, 0, 0, 0, 0⟩⟩
  have hb : TtyQueue.Bounded ⟨fun _ => 0, 0, 0⟩ := ⟨by decide, by decide⟩
  have hpieces : pieces (fun _ => []) [37, 100] (fun _ => 7) = [.num .d 7] := rfl
  have hprintable : Printable ⟨fun _ => 0, 0, 0⟩ [.num .d 7] := by
    refine ⟨fun p hp => ?_, by decide, by decide⟩
    rw [List.mem_singleton.1 hp]
    exact (by decide : (7 : Word) ≠ BitVec.intMin 32)
  exact ⟨_, c, (printed_whole_iff (fun _ => []) [37, 100] (fun _ => 7) _ hb c).1.2
    (hpieces ▸ hprintable)⟩

/-- A string of 1024 characters leaves no zero in the buffer. -/
theorem printk_overflow : ∃ (q : TtyQueue) (c : Console), q.Bounded ∧ q.isEmpty ∧
    ∀ around beyond fuel r,
      printk around beyond (fun _ => List.replicate 1024 65) [37, 115] (fun _ => 0) q c fuel =
        some r → ¬r.Whole q (List.replicate 1024 65) := by
  obtain ⟨c⟩ : Nonempty Console := ⟨⟨fun _ => 0, 0, 0, 0, 0⟩⟩
  have hb : TtyQueue.Bounded ⟨fun _ => 0, 0, 0⟩ := ⟨by decide, by decide⟩
  refine ⟨_, c, hb, by decide, fun around beyond fuel r h hwhole => ?_⟩
  obtain ⟨n, hprints⟩ := printk_spec hb h
  have htext : expand around (pieces (fun _ => List.replicate 1024 65) [37, 115] fun _ => 0) =
      List.replicate 1024 65 := List.append_nil _
  rw [htext] at hprints
  have hroom := (hprints.fits hb hwhole le_rfl).2
  rw [List.length_replicate] at hroom
  exact absurd hroom (by decide)

end NeuOs
