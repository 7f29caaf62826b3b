import Mathlib.Data.List.Induction
import NeuOs.Kernel.Sprintf

/-!
# Formats (`vsprintf` in kernel/vsprintf.c, `s_printk` in kernel/serial_debug.c)

There are two interpreters of formats: `vsprintf` stores the text from `dest` on, and advances its
pointer by the lengths that `_sprintnum` returns; `s_printk` sends the text to the serial line.

A format and its arguments stand for a list of pieces (`pieces`), and each of the two goes through
these pieces (`sPrintk_eq`, `vsprintf_eq`). So `formatters_agree`.

The format and the strings are given by their characters, up to the `'\0'`. They do not lie in the
memory that `vsprintf` stores to.
-/

namespace NeuOs

/-- The byte of a character. -/
def byteOf (c : Char) : Byte := BitVec.ofNat 8 c.toNat

/-- The arguments from `ap` on. By the macro `va_arg`, an `int`, a `char` and a pointer take a
    word each. -/
abbrev VaList := ℕ → Word

/-- The arguments after the first one. -/
def VaList.next (ap : VaList) : VaList := fun n => ap (n + 1)

/-! ## `s_printk` -/

/-- What has been sent to the serial line, and the indices into `digits`. -/
structure Serial where
  sent : List Byte
  indices : List ℤ

/-- `s_putchar` -/
def Serial.putchar (r : Serial) (ch : Byte) : Serial := { r with sent := r.sent ++ [ch] }

/-- `s_printnum` -/
def sPrintnum (around : ℤ → Byte) (num base : Word) (sign : Bool) (r : Serial) : Serial :=
  let negative := sign && num.slt 0
  let num := if negative then -num else num
  let r := if negative then r.putchar 45 else r
  if num = 0 then r.putchar 48
  else
    let indices := digitLoop base 32 num
    let buf := indices.map (digitAt around)
    buf.reverse.foldl Serial.putchar { r with indices := r.indices ++ indices }

/-- `s_printk`, for the rest `fmt` of the format. A pointer `p` points to the string
    `strings p`. -/
def sPrintk (around : ℤ → Byte) (strings : Word → List Byte) :
    (fmt : List Byte) → VaList → Serial → Serial
  | [], _, r => r
  | c :: fmt, ap, r =>
    if c ≠ byteOf '%' then sPrintk around strings fmt ap (r.putchar c)
    else match fmt with
      | [] => r
      | c :: fmt =>
        if c = byteOf 'd' then
          sPrintk around strings fmt ap.next (sPrintnum around (ap 0) 10 true r)
        else if c = byteOf 'u' then
          sPrintk around strings fmt ap.next (sPrintnum around (ap 0) 10 false r)
        else if c = byteOf 'x' then
          sPrintk around strings fmt ap.next (sPrintnum around (ap 0) 16 false r)
        else if c = byteOf 's' then
          sPrintk around strings fmt ap.next ((strings (ap 0)).foldl Serial.putchar r)
        else if c = byteOf 'c' then
          sPrintk around strings fmt ap.next (r.putchar ((ap 0).setWidth 8))
        else if c = byteOf '%' then sPrintk around strings fmt ap (r.putchar (byteOf '%'))
        else sPrintk around strings fmt ap r

/-! ## `vsprintf` -/

/-- The bytes one after the other, from an offset on. -/
def placed : ℕ → List Byte → List (ℕ × Byte)
  | _, [] => []
  | p, c :: l => (p, c) :: placed (p + 1) l

/-- `dest_ptr`, as an offset from `dest`, the stores so far, and the indices into `digits`. -/
structure Dest where
  ptr : ℕ
  stores : List (ℕ × Byte)
  indices : List ℤ

/-- `*dest_ptr++ = ch` -/
def Dest.put (d : Dest) (ch : Byte) : Dest :=
  { d with ptr := d.ptr + 1, stores := d.stores ++ [(d.ptr, ch)] }

/-- A call of `_sprintnum` with `dest_ptr`, which is advanced by the length. -/
def Dest.putnum (d : Dest) (r : Sprintnum) : Dest :=
  ⟨d.ptr + r.len.toNat, d.stores ++ placed d.ptr r.written, d.indices ++ r.indices⟩

/-- `vsprintf`, for the rest `fmt` of the format. -/
def vsprintf (around : ℤ → Byte) (strings : Word → List Byte) :
    (fmt : List Byte) → VaList → Dest → Dest
  | [], _, d => d
  | c :: fmt, ap, d =>
    if c ≠ byteOf '%' then vsprintf around strings fmt ap (d.put c)
    else match fmt with
      | [] => d
      | c :: fmt =>
        if c = byteOf 'd' then
          vsprintf around strings fmt ap.next (d.putnum (sprintnum around (ap 0) 10 true))
        else if c = byteOf 'u' then
          vsprintf around strings fmt ap.next (d.putnum (sprintnum around (ap 0) 10 false))
        else if c = byteOf 'x' then
          vsprintf around strings fmt ap.next (d.putnum (sprintnum around (ap 0) 16 false))
        else if c = byteOf 's' then
          vsprintf around strings fmt ap.next ((strings (ap 0)).foldl Dest.put d)
        else if c = byteOf 'c' then
          vsprintf around strings fmt ap.next (d.put ((ap 0).setWidth 8))
        else if c = byteOf '%' then vsprintf around strings fmt ap (d.put (byteOf '%'))
        else vsprintf around strings fmt ap d

/-! ## Pieces -/

/-- A piece of the text: a character, a number, or a string. -/
inductive Piece
  | char (ch : Byte)
  | num (k : Conversion) (w : Word)
  | str (l : List Byte)

/-- The pieces that a format and its arguments stand for. -/
def pieces (strings : Word → List Byte) : (fmt : List Byte) → VaList → List Piece
  | [], _ => []
  | c :: fmt, ap =>
    if c ≠ byteOf '%' then .char c :: pieces strings fmt ap
    else match fmt with
      | [] => []
      | c :: fmt =>
        if c = byteOf 'd' then .num .d (ap 0) :: pieces strings fmt ap.next
        else if c = byteOf 'u' then .num .u (ap 0) :: pieces strings fmt ap.next
        else if c = byteOf 'x' then .num .x (ap 0) :: pieces strings fmt ap.next
        else if c = byteOf 's' then .str (strings (ap 0)) :: pieces strings fmt ap.next
        else if c = byteOf 'c' then .char ((ap 0).setWidth 8) :: pieces strings fmt ap.next
        else if c = byteOf '%' then .char (byteOf '%') :: pieces strings fmt ap
        else pieces strings fmt ap

namespace Piece

/-- The characters of a piece. -/
def text (around : ℤ → Byte) : Piece → List Byte
  | char ch => [ch]
  | num k w => (k.print around w).written
  | str l => l

/-- The indices into `digits`. -/
def indices : Piece → List ℤ
  | num k w => digitLoop (BitVec.ofNat 32 k.base) 32 (operand w k.sign)
  | _ => []

end Piece

/-- What `s_printk` does for a piece. -/
def Serial.putPiece (around : ℤ → Byte) (r : Serial) : Piece → Serial
  | .char ch => r.putchar ch
  | .num k w => sPrintnum around w (BitVec.ofNat 32 k.base) k.sign r
  | .str l => l.foldl Serial.putchar r

/-- What `vsprintf` does for a piece. -/
def Dest.putPiece (around : ℤ → Byte) (d : Dest) : Piece → Dest
  | .char ch => d.put ch
  | .num k w => d.putnum (k.print around w)
  | .str l => l.foldl Dest.put d

variable {around around' : ℤ → Byte} {strings : Word → List Byte} {fmt l l' : List Byte}
  {ap : VaList} {r : Serial} {d : Dest} {p : ℕ}

/-- `s_printk` goes through the pieces. -/
theorem sPrintk_eq (fmt : List Byte) (ap : VaList) (r : Serial) :
    sPrintk around strings fmt ap r = (pieces strings fmt ap).foldl (Serial.putPiece around) r := by
  induction fmt using List.twoStepInduction generalizing ap r with
  | nil => rfl
  | singleton c =>
    rw [sPrintk, pieces]
    split_ifs <;> rfl
  | cons_cons c c' fmt ih ih' =>
    rw [sPrintk, pieces]
    by_cases hc : c ≠ byteOf '%'
    · rw [if_pos hc, if_pos hc, ih']
      rfl
    · rw [if_neg hc, if_neg hc]
      split_ifs <;> exact ih _ _

/-- `vsprintf` goes through the pieces. -/
theorem vsprintf_eq (fmt : List Byte) (ap : VaList) (d : Dest) :
    vsprintf around strings fmt ap d = (pieces strings fmt ap).foldl (Dest.putPiece around) d := by
  induction fmt using List.twoStepInduction generalizing ap d with
  | nil => rfl
  | singleton c =>
    rw [vsprintf, pieces]
    split_ifs <;> rfl
  | cons_cons c c' fmt ih ih' =>
    rw [vsprintf, pieces]
    by_cases hc : c ≠ byteOf '%'
    · rw [if_pos hc, if_pos hc, ih']
      rfl
    · rw [if_neg hc, if_neg hc]
      split_ifs <;> exact ih _ _

/-! ## What a piece adds -/

theorem placed_append (l l' : List Byte) (p : ℕ) :
    placed p (l ++ l') = placed p l ++ placed (p + l.length) l' := by
  induction l generalizing p with
  | nil => rfl
  | cons c l ih => rw [List.cons_append, placed, placed, ih, List.length_cons, List.cons_append,
      Nat.add_assoc, Nat.add_comm 1]

/-- The offsets follow one another. -/
theorem map_fst_placed (l : List Byte) (p : ℕ) :
    (placed p l).map Prod.fst = List.range' p l.length := by
  induction l generalizing p with
  | nil => rfl
  | cons c l ih => rw [placed, List.map_cons, ih, List.length_cons, List.range'_succ]

theorem foldl_putchar (l : List Byte) (r : Serial) :
    l.foldl Serial.putchar r = ⟨r.sent ++ l, r.indices⟩ := by
  induction l generalizing r with
  | nil => rw [List.append_nil]; rfl
  | cons c l ih =>
    rw [List.foldl_cons, ih]
    exact congrArg (Serial.mk · _) (List.append_assoc _ _ _)

theorem foldl_dest_put (l : List Byte) (d : Dest) :
    l.foldl Dest.put d = ⟨d.ptr + l.length, d.stores ++ placed d.ptr l, d.indices⟩ := by
  induction l generalizing d with
  | nil => rw [placed, List.append_nil]; rfl
  | cons c l ih =>
    rw [List.foldl_cons, ih, placed, List.length_cons, Nat.add_comm l.length, ← Nat.add_assoc]
    exact congrArg (Dest.mk _ · _) (List.append_assoc _ _ _)

/-- `s_printnum` sends what `_sprintnum` writes. -/
theorem sPrintnum_eq (num base : Word) (sign : Bool) (r : Serial) :
    sPrintnum around num base sign r =
      ⟨r.sent ++ (sprintnum around num base sign).written,
        r.indices ++ (sprintnum around num base sign).indices⟩ := by
  rw [written_sprintnum, indices_sprintnum, sPrintnum, operand]
  dsimp only
  generalize (if (sign && num.slt 0) = true then -num else num) = w
  by_cases hw : w = 0
  · rw [if_pos hw, if_pos hw, hw, ← List.append_assoc]
    split_ifs <;> simp [Serial.putchar, digitLoop]
  · rw [if_neg hw, if_neg hw, foldl_putchar]
    split_ifs <;> simp [Serial.putchar]

theorem Serial.putPiece_eq (r : Serial) (q : Piece) :
    r.putPiece around q = ⟨r.sent ++ q.text around, r.indices ++ q.indices⟩ := by
  cases q with
  | char ch => exact congrArg (Serial.mk _) (List.append_nil _).symm
  | num k w =>
    rw [Serial.putPiece, sPrintnum_eq, indices_sprintnum]
    rfl
  | str l =>
    rw [Serial.putPiece, foldl_putchar]
    exact congrArg (Serial.mk _) (List.append_nil _).symm

theorem Dest.putPiece_eq (d : Dest) (q : Piece) :
    d.putPiece around q = ⟨d.ptr + (q.text around).length, d.stores ++ placed d.ptr (q.text around),
      d.indices ++ q.indices⟩ := by
  cases q with
  | char ch => exact congrArg (Dest.mk _ _) (List.append_nil _).symm
  | num k w =>
    -- the length that is returned is that of the bytes
    have hlen : (k.print around w).len.toNat = (k.print around w).written.length := by
      rw [Conversion.print, len_sprintnum, Int.toNat_natCast]
    rw [Dest.putPiece, Dest.putnum, hlen, Conversion.print, indices_sprintnum]
    rfl
  | str l =>
    rw [Dest.putPiece, foldl_dest_put]
    exact congrArg (Dest.mk _ _) (List.append_nil _).symm

/-! ## The whole format -/

/-- The text of a format. -/
def expand (around : ℤ → Byte) (ps : List Piece) : List Byte := ps.flatMap (Piece.text around)

theorem foldl_serial_putPiece (ps : List Piece) (r : Serial) :
    ps.foldl (Serial.putPiece around) r =
      ⟨r.sent ++ expand around ps, r.indices ++ ps.flatMap Piece.indices⟩ := by
  induction ps generalizing r with
  | nil => exact congrArg₂ Serial.mk (List.append_nil _).symm (List.append_nil _).symm
  | cons q ps ih =>
    rw [List.foldl_cons, ih, Serial.putPiece_eq]
    exact congrArg₂ Serial.mk (List.append_assoc _ _ _) (List.append_assoc _ _ _)

theorem foldl_dest_putPiece (ps : List Piece) (d : Dest) :
    ps.foldl (Dest.putPiece around) d =
      ⟨d.ptr + (expand around ps).length, d.stores ++ placed d.ptr (expand around ps),
        d.indices ++ ps.flatMap Piece.indices⟩ := by
  induction ps generalizing d with
  | nil =>
    exact congrArg₂ (Dest.mk _) (List.append_nil _).symm (List.append_nil _).symm
  | cons q ps ih =>
    have hexpand : expand around (q :: ps) = q.text around ++ expand around ps := rfl
    rw [List.foldl_cons, ih, Dest.putPiece_eq, hexpand, placed_append, List.length_append,
      List.flatMap_cons, Nat.add_assoc, List.append_assoc, List.append_assoc]

/-- All indices are in the array. -/
def InRange (l : List ℤ) : Prop := ∀ i ∈ l, 0 ≤ i ∧ i < 16

/-- What lies around the array matters only to an index out of range. -/
theorem expand_congr {ps : List Piece} (h : InRange (ps.flatMap Piece.indices)) :
    expand around ps = expand around' ps := by
  refine List.flatMap_congr fun q hq => ?_
  cases q with
  | char ch => rfl
  | str l => rfl
  | num k w =>
    have hmap : (digitLoop (BitVec.ofNat 32 k.base) 32 (operand w k.sign)).map (digitAt around) =
        (digitLoop (BitVec.ofNat 32 k.base) 32 (operand w k.sign)).map (digitAt around') :=
      List.map_congr_left fun i hi => by
        have hr := h i (List.mem_flatMap.2 ⟨_, hq, hi⟩)
        rw [digitAt, digitAt, if_pos hr, if_pos hr]
    rw [Piece.text, Piece.text, Conversion.print, Conversion.print, written_sprintnum,
      written_sprintnum, hmap]

/-- It does not change the length. -/
theorem length_expand (around around' : ℤ → Byte) (ps : List Piece) :
    (expand around ps).length = (expand around' ps).length := by
  rw [expand, expand, List.length_flatMap, List.length_flatMap]
  refine congrArg List.sum (List.map_congr_left fun q _ => ?_)
  cases q with
  | char ch => rfl
  | str l => rfl
  | num k w =>
    rw [Piece.text, Piece.text, Conversion.print, Conversion.print, written_sprintnum,
      written_sprintnum]
    split_ifs <;> simp

/-- The two formatters take the same indices into `digits`. The bytes are stored one after the
    other, as many as are sent; and they are the bytes sent, if the indices are in the array, or
    if the same lies around the two arrays. -/
theorem formatters_agree (around around' : ℤ → Byte) (strings : Word → List Byte)
    (fmt : List Byte) (ap : VaList) :
    let s := sPrintk around strings fmt ap ⟨[], []⟩
    let v := vsprintf around' strings fmt ap ⟨0, [], []⟩
    v.indices = s.indices ∧ v.stores.map Prod.fst = List.range s.sent.length ∧
      (InRange s.indices ∨ around = around' → v.stores = placed 0 s.sent) := by
  dsimp only
  rw [sPrintk_eq, vsprintf_eq, foldl_serial_putPiece, foldl_dest_putPiece]
  dsimp only
  rw [List.nil_append, List.nil_append, List.nil_append, map_fst_placed,
    length_expand around' around, List.range_eq_range']
  refine ⟨rfl, rfl, fun h => ?_⟩
  rcases h with hrange | rfl
  · exact congrArg _ (expand_congr hrange)
  · rfl

end NeuOs
