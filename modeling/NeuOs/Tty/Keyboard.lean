import Mathlib.Data.List.Induction
import NeuOs.Tty.Echo

/-!
# The keyboard (kernel/chr_drv/do_keyboard.c)

`do_keyboard_interrupt` decodes the scancodes. It keeps the modifiers in static variables, which
follow the history of presses and releases (`Keyboard.Inv`). A press of another key is meant to
enqueue one character from the tables, and Shift and Caps Lock are meant to cancel each other
(`Decodes`).

The length of the tables is not checked, and with Shift the letters are upper case, whatever Caps
Lock says. `decodes_iff` says for which scancodes, after which history, the decoding is right.
-/

namespace NeuOs

/-! ## The code -/

abbrev CAPS : Byte := 0x3A
abbrev LCTRL : Byte := 0x1D
abbrev LALT : Byte := 0x38
abbrev LSHIFT : Byte := 0x2A

/-- `RELEASE_CHAR` -/
def releaseChar (a : Byte) : Byte := a &&& 0x80

/-- `scancode_table`, with the `'\0'` at the end. -/
def scancodeTable : List Byte :=
  [46, 46, 49, 50, 51, 52, 53, 54, 55, 56, 57, 48, 45, 61, 8, 46,
    113, 119, 101, 114, 116, 121, 117, 105, 111, 112, 91, 93, 10, 46,
    97, 115, 100, 102, 103, 104, 106, 107, 108, 59, 39, 96, 46, 92,
    122, 120, 99, 118, 98, 110, 109, 44, 46, 47, 46, 42, 46, 32,
    46, 46, 46, 46, 46, 46, 46, 46, 46, 46, 46, 46, 46,
    55, 56, 57, 52, 53, 54, 49, 50, 51, 48, 46, 46, 46, 46, 46, 46, 0]

/-- `shift_scancode_table`, with the `'\0'` at the end. -/
def shiftScancodeTable : List Byte :=
  [46, 46, 33, 64, 35, 36, 37, 94, 38, 42, 40, 41, 95, 43, 8, 46,
    81, 87, 69, 82, 84, 89, 85, 73, 79, 80, 123, 125, 10, 46,
    65, 83, 68, 70, 71, 72, 74, 75, 76, 58, 34, 126, 46, 124,
    90, 88, 67, 86, 66, 78, 77, 60, 62, 63, 46, 42, 46, 32,
    46, 46, 46, 46, 46, 46, 46, 46, 46, 46, 46, 46, 46,
    55, 56, 57, 52, 53, 54, 49, 50, 51, 48, 46, 46, 46, 46, 46, 46, 0]

/-- The two tables. -/
inductive Table
  | scancode
  | shiftScancode

/-- The characters of a table. -/
def Table.chars : Table → List Byte
  | scancode => scancodeTable
  | shiftScancode => shiftScancodeTable

/-- An element of a table, or what lies behind the table. -/
def Table.at (around : Table → ℕ → Byte) (t : Table) (i : ℕ) : Byte :=
  t.chars[i]?.getD (around t i)

/-- `toupper` -/
def toupper (ch : Byte) : Byte := if 97 ≤ ch ∧ ch ≤ 122 then ch - 97 + 65 else ch

/-- The static variables of `do_keyboard_interrupt`, and `tty_table[0]`. -/
structure Keyboard where
  caps : Bool
  lshift : Bool
  rshift : Bool
  lctrl : Bool
  rctrl : Bool
  lalt : Bool
  ralt : Bool
  tty : Tty

/-- The lookups in the tables, and the characters that have been enqueued. -/
structure Decoded where
  lookups : List (Table × ℕ)
  queued : List Byte

namespace Keyboard

/-- The character of a key that is no modifier, with the lookups. -/
def decode (around : Table → ℕ → Byte) (k : Keyboard) (scancode : Byte) :
    Byte × List (Table × ℕ) :=
  let capOut := if k.caps then !(k.lshift || k.rshift) else k.lshift || k.rshift
  if k.lshift || k.rshift then
    let ch := Table.shiftScancode.at around scancode.toNat
    (if capOut then toupper ch else ch, [(.shiftScancode, scancode.toNat)])
  else if k.lctrl || k.rctrl then (32, [])
  else if k.lalt || k.ralt then (32, [])
  else
    let ch := Table.scancode.at around scancode.toNat
    (if capOut then toupper ch else ch, [(.scancode, scancode.toNat)])

/-- `do_keyboard_interrupt` -/
def doKeyboardInterrupt (around : Table → ℕ → Byte) (k : Keyboard) (scancode : Byte) :
    Keyboard × Decoded :=
  if releaseChar scancode ≠ 0 then
    let k := if scancode = LCTRL ||| 0x80 then { k with lctrl := false } else k
    let k := if scancode = LALT ||| 0x80 then { k with lalt := false } else k
    let k := if scancode = LSHIFT ||| 0x80 then { k with lshift := false } else k
    (k, ⟨[], []⟩)
  else if scancode = LCTRL then ({ k with lctrl := true }, ⟨[], []⟩)
  else if scancode = LALT then ({ k with lalt := true }, ⟨[], []⟩)
  else if scancode = LSHIFT then ({ k with lshift := true }, ⟨[], []⟩)
  else if scancode = CAPS then ({ k with caps := !k.caps }, ⟨[], []⟩)
  else
    let (ch, lookups) := k.decode around scancode
    let (full, readQ) := k.tty.readQ.push ch
    ({ k with tty := { k.tty with readQ := readQ }.copyToBuffer TTY_BUF_SIZE },
      ⟨lookups, if full = 0 then [ch] else []⟩)

/-- The variables are zero, and the raw queue is empty. -/
def boot (t : Tty) : Keyboard :=
  ⟨false, false, false, false, false, false, false, { t with readQ := ⟨fun _ => 0, 0, 0⟩ }⟩

/-- What happens to the keyboard: an interrupt; or a change of the terminal by the rest of the
    kernel, which does not use the raw queue. -/
inductive Event
  | key (scancode : Byte)
  | other (t : Tty)

/-- The keyboard after an event. -/
def handle (around : Table → ℕ → Byte) (k : Keyboard) : Event → Keyboard
  | .key scancode => (k.doKeyboardInterrupt around scancode).1
  | .other t => { k with tty := { t with readQ := k.tty.readQ } }

/-- The keyboard after some events. -/
def run (around : Table → ℕ → Byte) (t : Tty) (l : List Event) : Keyboard :=
  l.foldl (handle around) (boot t)

end Keyboard

/-! ## What should be decoded -/

/-- The scancodes of some events. -/
def scancodes (l : List Keyboard.Event) : List Byte :=
  l.filterMap fun | .key scancode => some scancode | .other _ => none

/-- The last event of a key was a press. -/
def Held (code : Byte) (h : List Byte) : Prop :=
  ∃ pre post, h = pre ++ code :: post ∧ code ||| 0x80 ∉ post

/-- The number of presses of Caps Lock is odd. -/
def CapsOn (h : List Byte) : Prop := Odd (h.count CAPS)

/-- A scancode that should enqueue nothing: a modifier, or a release. -/
def Silent (scancode : Byte) : Prop :=
  releaseChar scancode ≠ 0 ∨ scancode = LCTRL ∨ scancode = LALT ∨ scancode = LSHIFT ∨
    scancode = CAPS

/-- The key of a letter. -/
def LetterKey (scancode ch : Byte) : Prop :=
  scancodeTable[scancode.toNat]? = some ch ∧ 97 ≤ ch ∧ ch ≤ 122

/-- After the history `h`, a scancode is decoded as it should be. -/
structure Decodes (h : List Byte) (scancode : Byte) (d : Decoded) : Prop where
  inside : ∀ x ∈ d.lookups, x.2 < x.1.chars.length
  silent : Silent scancode → d.queued = []
  press : ¬Silent scancode → ∃ ch, d.queued = [ch]
  letter : ∀ ch, ¬Silent scancode → LetterKey scancode ch → ¬Held LCTRL h → ¬Held LALT h →
    (d.queued = [toupper ch] ↔ Xor (CapsOn h) (Held LSHIFT h))

/-- With Shift, the scancode is in the table, and Caps Lock is off if it is the key of a letter.
    Without Shift, Ctrl and Alt, the scancode is in the table. -/
def Decodable (h : List Byte) (scancode : Byte) : Prop :=
  ¬Silent scancode →
    (Held LSHIFT h → scancode.toNat < shiftScancodeTable.length ∧
      ((∃ ch, LetterKey scancode ch) → ¬Held LCTRL h → ¬Held LALT h → ¬CapsOn h)) ∧
    (¬Held LSHIFT h → ¬Held LCTRL h → ¬Held LALT h → scancode.toNat < scancodeTable.length)

/-! ## The history -/

variable {h : List Byte} {b scancode code : Byte}

theorem not_held_nil : ¬Held code [] := fun ⟨_, _, h, _⟩ =>
  List.cons_ne_nil _ _ (List.append_eq_nil_iff.1 h.symm).2

/-- A further event counts if it is one of the key. -/
theorem held_append : Held code (h ++ [b]) ↔ b = code ∨ b ≠ code ||| 0x80 ∧ Held code h := by
  constructor
  · rintro ⟨pre, post, heq, hpost⟩
    rcases List.eq_nil_or_concat post with rfl | ⟨post, c, rfl⟩
    · exact .inl (List.cons.inj (List.append_inj' heq rfl).2).1
    · rw [List.concat_eq_append, ← List.cons_append, ← List.append_assoc] at heq
      obtain ⟨hh, hb⟩ := List.append_inj' heq rfl
      rw [List.concat_eq_append, List.mem_append, not_or, List.mem_singleton] at hpost
      exact .inr ⟨fun h => hpost.2 (h ▸ (List.cons.inj hb).1), pre, post, hh, hpost.1⟩
  · rintro (rfl | ⟨hb, pre, post, rfl, hpost⟩)
    · exact ⟨h, [], rfl, List.not_mem_nil⟩
    · refine ⟨pre, post ++ [b], by rw [List.append_assoc, List.cons_append], ?_⟩
      rw [List.mem_append, not_or, List.mem_singleton]
      exact ⟨hpost, hb.symm⟩

theorem capsOn_append : CapsOn (h ++ [b]) ↔ if b = CAPS then ¬CapsOn h else CapsOn h := by
  rw [CapsOn, CapsOn, List.count_append, List.count_singleton]
  by_cases hb : b = CAPS
  · rw [if_pos (beq_iff_eq.2 hb), if_pos hb, Nat.odd_add_one]
  · rw [if_neg fun h => hb (beq_iff_eq.1 h), if_neg hb, Nat.add_zero]

namespace Keyboard

variable {around : Table → ℕ → Byte} {k : Keyboard}

/-- The variables follow the history, and the raw queue is empty. -/
structure Inv (h : List Byte) (k : Keyboard) : Prop where
  caps : k.caps = true ↔ CapsOn h
  lshift : k.lshift = true ↔ Held LSHIFT h
  lctrl : k.lctrl = true ↔ Held LCTRL h
  lalt : k.lalt = true ↔ Held LALT h
  right : k.rshift = false ∧ k.rctrl = false ∧ k.ralt = false
  bounded : k.tty.readQ.Bounded
  empty : k.tty.readQ.content = []

theorem inv_boot (t : Tty) : Inv [] (boot t) :=
  ⟨⟨fun h => Bool.noConfusion h, fun h => absurd h Nat.not_odd_zero⟩,
    ⟨fun h => Bool.noConfusion h, fun h => absurd h not_held_nil⟩,
    ⟨fun h => Bool.noConfusion h, fun h => absurd h not_held_nil⟩,
    ⟨fun h => Bool.noConfusion h, fun h => absurd h not_held_nil⟩, ⟨rfl, rfl, rfl⟩,
    ⟨Nat.zero_lt_succ 1023, Nat.zero_lt_succ 1023⟩, rfl⟩

/-! ## One interrupt -/

/-- `copy_to_buffer` takes all characters from the raw queue. -/
theorem readQ_copyToBuffer (fuel : ℕ) (t : Tty) :
    (t.copyToBuffer fuel).readQ = (copyToBuffer fuel t.readQ t.buffer).1 := by
  induction fuel generalizing t with
  | zero => rfl
  | succ fuel ih =>
    rw [Tty.copyToBuffer, copyToBuffer]
    by_cases hemp : t.readQ.isEmpty
    · rw [if_pos hemp, if_pos hemp]
    · rw [if_neg hemp, if_neg hemp]
      dsimp only
      cases edit t.buffer t.readQ.take.1 with
      | none => exact ih _
      | some buffer =>
        obtain ⟨-, hr, hbuf⟩ := Tty.echo_frame
          { t with readQ := t.readQ.take.2, buffer := buffer } t.readQ.take.1
        refine (ih _).trans ?_
        rw [hr, hbuf]

/-- The variable of a modifier key follows its events. -/
theorem flags_spec (k : Keyboard) (scancode : Byte) :
    (k.doKeyboardInterrupt around scancode).1.caps =
        (if scancode = CAPS then !k.caps else k.caps) ∧
      (k.doKeyboardInterrupt around scancode).1.lshift =
        (scancode == LSHIFT || (scancode != LSHIFT ||| 0x80 && k.lshift)) ∧
      (k.doKeyboardInterrupt around scancode).1.lctrl =
        (scancode == LCTRL || (scancode != LCTRL ||| 0x80 && k.lctrl)) ∧
      (k.doKeyboardInterrupt around scancode).1.lalt =
        (scancode == LALT || (scancode != LALT ||| 0x80 && k.lalt)) := by
  rw [doKeyboardInterrupt]
  by_cases hrel : releaseChar scancode ≠ 0
  · rw [if_pos hrel]
    have hne : scancode ≠ CAPS ∧ scancode ≠ LSHIFT ∧ scancode ≠ LCTRL ∧ scancode ≠ LALT := by
      refine ⟨?_, ?_, ?_, ?_⟩ <;> rintro rfl <;> exact hrel (by decide)
    simp only [beq_eq_false_iff_ne.2 hne.2.1, beq_eq_false_iff_ne.2 hne.2.2.1,
      beq_eq_false_iff_ne.2 hne.2.2.2, if_neg hne.1, Bool.false_or]
    split_ifs <;> simp_all
  · rw [if_neg hrel]
    have hne : scancode ≠ LSHIFT ||| 0x80 ∧ scancode ≠ LCTRL ||| 0x80 ∧
        scancode ≠ LALT ||| 0x80 := by
      refine ⟨?_, ?_, ?_⟩ <;> rintro rfl <;> exact hrel (by decide)
    simp only [bne_iff_ne.2 hne.1, bne_iff_ne.2 hne.2.1, bne_iff_ne.2 hne.2.2, Bool.true_and]
    split_ifs <;> simp_all

theorem right_spec (k : Keyboard) (scancode : Byte) :
    (k.doKeyboardInterrupt around scancode).1.rshift = k.rshift ∧
      (k.doKeyboardInterrupt around scancode).1.rctrl = k.rctrl ∧
      (k.doKeyboardInterrupt around scancode).1.ralt = k.ralt := by
  rw [doKeyboardInterrupt]
  split_ifs <;> exact ⟨rfl, rfl, rfl⟩

theorem silent_spec (hs : Silent scancode) :
    (k.doKeyboardInterrupt around scancode).1.tty = k.tty ∧
      (k.doKeyboardInterrupt around scancode).2 = ⟨[], []⟩ := by
  rw [doKeyboardInterrupt]
  split_ifs with h1 h2 h3 h4 h5 h6 h7 h8
  all_goals first | exact ⟨rfl, rfl⟩ | skip
  rcases hs with h | h | h | h | h <;> contradiction

theorem press_spec (hs : ¬Silent scancode) :
    (k.doKeyboardInterrupt around scancode).1.tty =
        { k.tty with readQ := (k.tty.readQ.push (k.decode around scancode).1).2 }.copyToBuffer
          TTY_BUF_SIZE ∧
      (k.doKeyboardInterrupt around scancode).2 = ⟨(k.decode around scancode).2,
        if (k.tty.readQ.push (k.decode around scancode).1).1 = 0 then
          [(k.decode around scancode).1] else []⟩ := by
  simp only [Silent, not_or] at hs
  rw [doKeyboardInterrupt, if_neg hs.1, if_neg hs.2.1, if_neg hs.2.2.1, if_neg hs.2.2.2.1,
    if_neg hs.2.2.2.2]
  exact ⟨rfl, rfl⟩

/-- The variables follow a further scancode. -/
theorem Inv.key (hk : Inv h k) (scancode : Byte) :
    Inv (h ++ [scancode]) (k.doKeyboardInterrupt around scancode).1 := by
  obtain ⟨hcaps, hshift, hctrl, halt⟩ := @flags_spec around k scancode
  obtain ⟨hr1, hr2, hr3⟩ := @right_spec around k scancode
  have hqueue : (k.doKeyboardInterrupt around scancode).1.tty.readQ.Bounded ∧
      (k.doKeyboardInterrupt around scancode).1.tty.readQ.content = [] := by
    by_cases hs : Silent scancode
    · rw [(silent_spec hs).1]
      exact ⟨hk.bounded, hk.empty⟩
    · rw [(press_spec hs).1, readQ_copyToBuffer]
      exact ⟨(content_readQAfter hk.bounded.push _).1, readQAfter_empty hk.bounded.push⟩
  refine ⟨?_, ?_, ?_, ?_, ?_, hqueue.1, hqueue.2⟩
  · rw [hcaps, capsOn_append]
    split_ifs
    · rw [Bool.not_eq_true', ← hk.caps, Bool.not_eq_true]
    · exact hk.caps
  · rw [hshift, held_append, Bool.or_eq_true, beq_iff_eq, Bool.and_eq_true, bne_iff_ne, hk.lshift]
  · rw [hctrl, held_append, Bool.or_eq_true, beq_iff_eq, Bool.and_eq_true, bne_iff_ne, hk.lctrl]
  · rw [halt, held_append, Bool.or_eq_true, beq_iff_eq, Bool.and_eq_true, bne_iff_ne, hk.lalt]
  · rw [hr1, hr2, hr3]
    exact hk.right

/-- So they do in every run. -/
theorem inv_run (around : Table → ℕ → Byte) (t : Tty) (l : List Event) :
    Inv (scancodes l) (run around t l) := by
  induction l using List.reverseRecOn with
  | nil => exact inv_boot t
  | append_singleton l e ih =>
    rw [run, List.foldl_append, scancodes, List.filterMap_append]
    cases e with
    | key scancode => exact ih.key scancode
    | other t =>
      rw [List.filterMap_cons_none rfl, List.filterMap_nil, List.append_nil]
      exact ⟨ih.caps, ih.lshift, ih.lctrl, ih.lalt, ih.right, ih.bounded, ih.empty⟩

/-! ## The character -/

theorem toupper_lower {ch : Byte} (hge : 97 ≤ ch) (hle : ch ≤ 122) :
    toupper (toupper ch) = toupper ch ∧ toupper ch ≠ ch := by
  have hup : toupper ch = ch - 97 + 65 := if_pos ⟨hge, hle⟩
  have hlt : ch - 97 + 65 < 97 := by bv_omega
  rw [hup]
  exact ⟨if_neg fun h => absurd h.1 (BitVec.not_le.2 hlt), fun heq => by bv_omega⟩

theorem upper_of_mem_zip {p : Byte × Byte} (hp : p ∈ scancodeTable.zip shiftScancodeTable)
    (hlower : 97 ≤ p.1 ∧ p.1 ≤ 122) : p.2 = toupper p.1 := by
  have hall : (scancodeTable.zip shiftScancodeTable).all
      (fun p => 97 ≤ p.1 ∧ p.1 ≤ 122 → p.2 = toupper p.1) = true := by
    decide
  exact of_decide_eq_true (List.all_eq_true.1 hall p hp) hlower

/-- The key of a letter has its upper case in the other table. -/
theorem letterKey_spec {ch : Byte} (hl : LetterKey scancode ch) :
    shiftScancodeTable[scancode.toNat]? = some (toupper ch) ∧
      toupper (toupper ch) = toupper ch ∧ toupper ch ≠ ch := by
  have hlen : shiftScancodeTable.length = scancodeTable.length := rfl
  obtain ⟨hlt, -⟩ := List.getElem?_eq_some_iff.1 hl.1
  obtain ⟨c, hc⟩ : ∃ c, shiftScancodeTable[scancode.toNat]? = some c :=
    ⟨_, List.getElem?_eq_getElem (hlen ▸ hlt)⟩
  have hzip : (scancodeTable.zip shiftScancodeTable)[scancode.toNat]? = some (ch, c) :=
    List.getElem?_zip_eq_some.2 ⟨hl.1, hc⟩
  have hupper : c = toupper ch := upper_of_mem_zip (List.mem_of_getElem? hzip) hl.2
  exact ⟨hc.trans (congrArg some hupper), toupper_lower hl.2.1 hl.2.2⟩

/-- What is reported of a key that is no modifier: there is room for its character. -/
theorem Inv.press (hk : Inv h k) (hs : ¬Silent scancode) :
    (k.doKeyboardInterrupt around scancode).2 =
      ⟨(k.decode around scancode).2, [(k.decode around scancode).1]⟩ := by
  have hfull : ¬k.tty.readQ.isFull := by
    rw [TtyQueue.isFull_iff hk.bounded, hk.empty]
    decide
  rw [(press_spec hs).2, (TtyQueue.push_spec hk.bounded hfull).1, if_pos rfl]

/-- The character and the lookups, from the history. -/
theorem Inv.decode (hk : Inv h k) (scancode : Byte) :
    (Held LSHIFT h → k.decode around scancode =
      (if k.caps then Table.shiftScancode.at around scancode.toNat
        else toupper (Table.shiftScancode.at around scancode.toNat),
          [(.shiftScancode, scancode.toNat)])) ∧
    (¬Held LSHIFT h → Held LCTRL h ∨ Held LALT h → k.decode around scancode = (32, [])) ∧
    (¬Held LSHIFT h → ¬Held LCTRL h → ¬Held LALT h → k.decode around scancode =
      (if k.caps then toupper (Table.scancode.at around scancode.toNat)
        else Table.scancode.at around scancode.toNat, [(.scancode, scancode.toNat)])) := by
  rw [← hk.lshift, ← hk.lctrl, ← hk.lalt, Keyboard.decode, hk.right.1, hk.right.2.1, hk.right.2.2]
  cases k.lshift <;> cases k.lctrl <;> cases k.lalt <;> cases k.caps <;> simp

/-- With Shift, the letters are upper case in the table, whatever Caps Lock says. -/
theorem Inv.decodes_shift (hk : Inv h k) (hs : ¬Silent scancode) (hshift : Held LSHIFT h) :
    Decodes h scancode (k.doKeyboardInterrupt around scancode).2 ↔ Decodable h scancode := by
  rw [hk.press hs, (hk.decode scancode).1 hshift]
  have hupper : ∀ ch, LetterKey scancode ch →
      (if k.caps = true then Table.shiftScancode.at around scancode.toNat
        else toupper (Table.shiftScancode.at around scancode.toNat)) = toupper ch := by
    intro ch hl
    have hat : Table.shiftScancode.at around scancode.toNat = toupper ch :=
      congrArg (Option.getD · _) (letterKey_spec hl).1
    rw [hat, (letterKey_spec hl).2.1, ite_self]
  constructor
  · intro hd _
    refine ⟨fun _ => ⟨hd.inside _ List.mem_cons_self, fun ⟨ch, hl⟩ hctrl halt hcaps => ?_⟩,
      fun hnot => absurd hshift hnot⟩
    have hxor := (hd.letter ch hs hl hctrl halt).1 (congrArg (fun c => [c]) (hupper ch hl))
    exact hxor.elim (fun h => h.2 hshift) fun h => h.2 hcaps
  · intro hd
    obtain ⟨hlt, hcaps⟩ := (hd hs).1 hshift
    refine ⟨fun x hx => ?_, fun h => absurd h hs, fun _ => ⟨_, rfl⟩, fun ch _ hl hctrl halt => ?_⟩
    · rw [List.mem_singleton.1 hx]
      exact hlt
    · exact iff_of_true (congrArg (fun c => [c]) (hupper ch hl))
        (.inr ⟨hshift, hcaps ⟨ch, hl⟩ hctrl halt⟩)

/-- Without modifiers, Caps Lock decides. -/
theorem Inv.decodes_plain (hk : Inv h k) (hs : ¬Silent scancode) (hshift : ¬Held LSHIFT h)
    (hctrl : ¬Held LCTRL h) (halt : ¬Held LALT h) :
    Decodes h scancode (k.doKeyboardInterrupt around scancode).2 ↔ Decodable h scancode := by
  rw [hk.press hs, (hk.decode scancode).2.2 hshift hctrl halt]
  constructor
  · exact fun hd _ => ⟨fun h => absurd h hshift, fun _ _ _ => hd.inside _ List.mem_cons_self⟩
  · intro hd
    have hlt := (hd hs).2 hshift hctrl halt
    refine ⟨fun x hx => ?_, fun h => absurd h hs, fun _ => ⟨_, rfl⟩, fun ch _ hl _ _ => ?_⟩
    · rw [List.mem_singleton.1 hx]
      exact hlt
    · have hat : Table.scancode.at around scancode.toNat = ch :=
        congrArg (Option.getD · _) hl.1
      rw [hat]
      dsimp only
      by_cases hcaps : CapsOn h
      · rw [if_pos (hk.caps.2 hcaps)]
        exact iff_of_true rfl (.inl ⟨hcaps, hshift⟩)
      · rw [if_neg (mt hk.caps.1 hcaps)]
        refine iff_of_false (fun h => (letterKey_spec hl).2.2 (List.cons.inj h).1.symm) ?_
        exact fun h => h.elim (fun h => hcaps h.1) fun h => hshift h.1

/-- One scancode is decoded as it should be exactly if it is decodable. -/
theorem Inv.decodes (hk : Inv h k) (scancode : Byte) :
    Decodes h scancode (k.doKeyboardInterrupt around scancode).2 ↔ Decodable h scancode := by
  by_cases hs : Silent scancode
  · rw [(silent_spec hs).2]
    exact iff_of_true ⟨fun x hx => absurd hx List.not_mem_nil, fun _ => rfl, fun h => absurd hs h,
      fun _ h => absurd hs h⟩ fun h => absurd hs h
  by_cases hshift : Held LSHIFT h
  · exact hk.decodes_shift hs hshift
  · by_cases hmod : Held LCTRL h ∨ Held LALT h
    · -- a space, without a lookup
      rw [hk.press hs, (hk.decode scancode).2.1 hshift hmod]
      refine iff_of_true ⟨fun x hx => absurd hx List.not_mem_nil, fun h => absurd h hs,
        fun _ => ⟨_, rfl⟩, fun ch _ _ hctrl halt => ?_⟩ fun _ => ⟨fun h => absurd h hshift, ?_⟩
      · exact absurd hmod (not_or.2 ⟨hctrl, halt⟩)
      · exact fun _ hctrl halt => absurd hmod (not_or.2 ⟨hctrl, halt⟩)
    · obtain ⟨hctrl, halt⟩ := not_or.1 hmod
      exact hk.decodes_plain hs hshift hctrl halt

/-- In a run from the boot, the interrupts decode their scancodes as they should, exactly if each
    scancode is decodable after those before it. -/
theorem decodes_iff (around : Table → ℕ → Byte) (t : Tty) (l : List Event) :
    (∀ pre scancode post, l = pre ++ .key scancode :: post →
      Decodes (scancodes pre) scancode
        ((run around t pre).doKeyboardInterrupt around scancode).2) ↔
    ∀ pre scancode post, l = pre ++ .key scancode :: post → Decodable (scancodes pre) scancode :=
  forall_congr' fun pre => forall_congr' fun scancode => forall_congr' fun _ =>
    forall_congr' fun _ => (inv_run around t pre).decodes scancode

theorem mem_of_held (h' : Held code h) : code ∈ h := by
  obtain ⟨pre, post, rfl, -⟩ := h'
  exact List.mem_append_right _ List.mem_cons_self

/-- With Shift and Caps Lock, the key of `q` enqueues `Q`; and the scancode of F12 is looked up
    behind the table. -/
theorem not_decodes : ∃ t, ∀ around : Table → ℕ → Byte,
    (((run around t [.key LSHIFT, .key CAPS]).doKeyboardInterrupt around 0x10).2.queued = [81] ∧
      ¬Decodes [LSHIFT, CAPS] 0x10
        ((run around t [.key LSHIFT, .key CAPS]).doKeyboardInterrupt around 0x10).2) ∧
    ((run around t []).doKeyboardInterrupt around 0x58).2.lookups = [(.scancode, 0x58)] ∧
      ¬Decodes [] 0x58 ((run around t []).doKeyboardInterrupt around 0x58).2 := by
  have hnot : ∀ {b : Byte}, b ∉ [LSHIFT, CAPS] → ¬Held b [LSHIFT, CAPS] := fun hb h =>
    hb (mem_of_held h)
  obtain ⟨t⟩ : Nonempty Tty :=
    ⟨⟨0, ⟨fun _ => 0, 0, 0⟩, ⟨fun _ => 0, 0, 0⟩, ⟨fun _ => 0, 0, 0⟩, ⟨fun _ => 0, 0, 0, 0, 0⟩, []⟩⟩
  refine ⟨t, fun around => ⟨⟨rfl, fun hd => ?_⟩, rfl, fun hd => ?_⟩⟩
  · have hdec := ((inv_run around t [.key LSHIFT, .key CAPS]).decodes 0x10).1 hd
    have hq : LetterKey 0x10 113 := ⟨rfl, by decide, by decide⟩
    have hshift : Held LSHIFT [LSHIFT, CAPS] := ⟨[], [CAPS], rfl, by decide⟩
    have hcaps : CapsOn [LSHIFT, CAPS] := ⟨0, rfl⟩
    refine ((hdec ?_).1 hshift).2 ⟨113, hq⟩ (hnot (by decide)) (hnot (by decide)) hcaps
    rw [Silent]
    decide
  · have hdec := ((inv_run around t []).decodes 0x58).1 hd
    refine absurd ((hdec ?_).2 not_held_nil not_held_nil not_held_nil) (by decide)
    rw [Silent]
    decide

end Keyboard

end NeuOs
