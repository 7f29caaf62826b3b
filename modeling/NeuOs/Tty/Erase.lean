import NeuOs.Tty.Console

/-!
# Erasing on the console (kernel/chr_drv/vga_console.c)

A backspace is meant to undo a character: the cursor goes back, the cell is blank, and
the other cells are as before (`Console.Undone`).

* `Console.placed_foldl`: from `video_init` on, the cursor is on the screen, and its
  registers have its position.
* `Console.undone_iff`: a backspace undoes a character exactly if it has not been printed
  in the last column. There the cursor has gone to the next row, and the backspace sets it
  to the column after the last one, where `video_putchar` takes it to the next row again.
-/

namespace NeuOs

namespace Console

variable {c c' : Console} {ch : Byte}

/-- The cursor is on the screen, where its registers say. -/
structure Placed (c : Console) : Prop where
  onScreen : OnScreen c.x c.y
  registers : c.updateCursor c.y c.x = c

/-- The end of `video_putchar` rolls the screen after a character has been printed. -/
def Scrolls (c : Console) : Prop := VIDEO_Y_SZ ≤ (carry { c with x := c.x + 1 }).y

/-- `c'` has the cursor of `c`, and its cells but for a blank one at the cursor. -/
structure Undone (c c' : Console) : Prop where
  x : c'.x = c.x
  y : c'.y = c.y
  cursorLow : c'.cursorLow = c.cursorLow
  cursorHigh : c'.cursorHigh = c.cursorHigh
  cell : ∀ x y, OnScreen x y →
    cell c'.mem x y = if x = c.x ∧ y = c.y then blank else cell c.mem x y

/-! ## The cursor -/

/-- The end of `video_putchar` brings the cursor to the screen. -/
theorem placed_wrap (hx : 0 ≤ c.x) (hy : 0 ≤ c.y) : c.wrap.Placed := by
  have hX : VIDEO_X_SZ = 80 := rfl
  have hY : VIDEO_Y_SZ = 25 := rfl
  refine ⟨?_, rfl⟩
  suffices h : OnScreen c.carry.roll.x c.carry.roll.y from h
  have hcarry : 0 ≤ c.carry.x ∧ c.carry.x < 80 ∧ 0 ≤ c.carry.y := by
    rw [carry, hX]
    split_ifs with h80
    · exact ⟨le_refl 0, (by decide : (0 : ℤ) < 80), Int.le_add_one hy⟩
    · exact ⟨hx, not_le.1 h80, hy⟩
  rw [roll, hY]
  split_ifs with h25
  · exact ⟨le_refl 0, (by decide : (0 : ℤ) < 80), (by decide : (0 : ℤ) ≤ 25 - 1),
      (by decide : (25 - 1 : ℤ) < 25)⟩
  · exact ⟨hcarry.1, hcarry.2.1, hcarry.2.2, not_le.1 h25⟩

theorem toTab_nonneg {n : ℕ} {x : ℤ} (hx : 0 ≤ x) : 0 ≤ toTab n x := by
  induction n generalizing x with
  | zero => exact hx
  | succ n ih =>
    rw [toTab]
    split_ifs
    · exact ih (by omega)
    · exact hx

/-- Every character leaves the cursor on the screen. -/
theorem Placed.putchar (h : c.Placed) (ch : Byte) : (c.putchar ch).Placed := by
  obtain ⟨⟨hx₀, hx₁, hy₀, hy₁⟩, -⟩ := h
  rw [Console.putchar]
  by_cases h10 : ch = 10
  · rw [if_pos h10]
    exact placed_wrap (le_refl 0) (Int.le_add_one hy₀)
  rw [if_neg h10]
  by_cases h9 : ch = 9
  · rw [if_pos h9]
    exact placed_wrap (toTab_nonneg hx₀) hy₀
  rw [if_neg h9]
  by_cases h8 : ch = 8
  · rw [if_pos h8]
    dsimp only
    -- a backspace in the first column goes to the row above, if there is one
    by_cases hneg : c.x - 1 < 0
    · rw [if_pos hneg]
      refine placed_wrap (by decide : (0 : ℤ) ≤ 80) ?_
      dsimp only
      split_ifs with htop
      · exact le_refl 0
      · exact not_lt.1 htop
    · rw [if_neg hneg]
      exact placed_wrap (not_lt.1 hneg) hy₀
  · rw [if_neg h8]
    exact placed_wrap (Int.le_add_one hx₀) hy₀

theorem placed_init (c : Console) : c.init.Placed :=
  ⟨⟨le_refl 0, (by decide : (0 : ℤ) < 80), le_refl 0, (by decide : (0 : ℤ) < 25)⟩, rfl⟩

/-- After any characters since `video_init`, the cursor is on the screen. -/
theorem placed_foldl (c : Console) (s : List Byte) : (s.foldl Console.putchar c.init).Placed := by
  suffices h : ∀ c : Console, c.Placed → (s.foldl Console.putchar c).Placed from h _ (placed_init c)
  induction s with
  | nil => exact fun _ h => h
  | cons ch s ih => exact fun c h => ih _ (h.putchar ch)

/-- A printed character scrolls the screen in its last cell. -/
theorem scrolls_iff (h : c.Placed) : c.Scrolls ↔ c.x = 79 ∧ c.y = 24 := by
  have hX : VIDEO_X_SZ = 80 := rfl
  have hY : VIDEO_Y_SZ = 25 := rfl
  have hx := h.onScreen.x₁
  have hy := h.onScreen.y₁
  rw [Scrolls, carry, hX, hY]
  dsimp only
  split_ifs with h80
  · dsimp only
    omega
  · dsimp only
    omega

/-- The end of `video_putchar` leaves a cursor that is on the screen. -/
theorem wrap_of_onScreen (h : OnScreen c.x c.y) : c.wrap = c.updateCursor c.y c.x := by
  have hcarry : c.carry = c := if_neg (not_le.2 h.x₁)
  have hroll : c.roll = c := if_neg (not_le.2 h.y₁)
  rw [wrap, hcarry, hroll]

/-- The end of `video_putchar` takes a cursor after the last column to the next row. -/
theorem wrap_of_lastColumn (hx : c.x = 80) (hy : c.y + 1 < 25) :
    c.wrap = { c with x := 0, y := c.y + 1 }.updateCursor (c.y + 1) 0 := by
  have hcarry : c.carry = { c with x := 0, y := c.y + 1 } := if_pos hx.ge
  have hroll : roll { c with x := 0, y := c.y + 1 } = { c with x := 0, y := c.y + 1 } :=
    if_neg (not_le.2 hy)
  rw [wrap, hcarry, hroll]

/-! ## A character and a backspace -/

/-- An ordinary character is printed at the cursor, which goes on. -/
theorem putchar_of_ordinary (h10 : ch ≠ 10) (h9 : ch ≠ 9) (h8 : ch ≠ 8) :
    c.putchar ch = wrap { c with mem := putcharAt c.mem ch c.x c.y 0x0F, x := c.x + 1 } := by
  rw [putchar, if_neg h10, if_neg h9, if_neg h8]

/-- A backspace blanks the cell before the cursor, which goes back. -/
theorem putchar_backspace (hx : 0 < c.x) :
    c.putchar 8 = { c with mem := putcharAt c.mem 32 (c.x - 1) c.y 0x0F, x := c.x - 1 }.wrap := by
  rw [putchar, if_neg (by decide), if_neg (by decide), if_pos rfl]
  dsimp only
  rw [if_neg (by omega)]

/-- In the first column, a backspace blanks the cell "after the last column of the row
    above", which is the cell of the cursor. -/
theorem putchar_backspace_zero (hx : c.x = 0) (hy : 0 < c.y) :
    c.putchar 8 =
      { c with mem := putcharAt c.mem 32 80 (c.y - 1) 0x0F, x := 80, y := c.y - 1 }.wrap := by
  rw [putchar, if_neg (by decide), if_neg (by decide), if_pos rfl]
  dsimp only
  rw [if_pos (by omega)]
  dsimp only
  rw [if_neg (by omega)]

/-- Before the last column, a character leaves the cursor in the next one. -/
theorem putchar_of_lt (h : c.Placed) (h10 : ch ≠ 10) (h9 : ch ≠ 9) (h8 : ch ≠ 8) (hx : c.x < 79) :
    c.putchar ch = updateCursor { c with mem := putcharAt c.mem ch c.x c.y 0x0F, x := c.x + 1 }
      c.y (c.x + 1) := by
  have hnext : OnScreen (c.x + 1) c.y :=
    ⟨Int.le_add_one h.onScreen.x₀, by omega, h.onScreen.y₀, h.onScreen.y₁⟩
  have hwrap := wrap_of_onScreen
    (c := { c with mem := putcharAt c.mem ch c.x c.y 0x0F, x := c.x + 1 }) hnext
  rw [putchar_of_ordinary h10 h9 h8, hwrap]

/-- Before the last column, a backspace undoes a character. -/
theorem undone_of_lt (h : c.Placed) (h10 : ch ≠ 10) (h9 : ch ≠ 9) (h8 : ch ≠ 8)
    (hx : c.x < 79) : Undone c ((c.putchar ch).putchar 8) := by
  have hon := h.onScreen
  have hback : c.x + 1 - 1 = c.x := add_sub_cancel_right _ _
  have hpos : 0 < c.x + 1 := Int.lt_add_one_of_le hon.x₀
  have hput := putchar_of_lt h h10 h9 h8 hx
  generalize hc' : c.putchar ch = c' at hput ⊢
  have hx' : c'.x = c.x + 1 := by rw [hput]; rfl
  have hy' : c'.y = c.y := by rw [hput]; rfl
  have hmem' : c'.mem = putcharAt c.mem ch c.x c.y 0x0F := by rw [hput]; rfl
  -- the cursor is back where it was, which is on the screen
  have hwrap := wrap_of_onScreen
    (c := { c' with mem := putcharAt c'.mem 32 (c'.x - 1) c'.y 0x0F, x := c'.x - 1 })
    (by rw [hx', hy', hback]; exact hon)
  rw [putchar_backspace (hx' ▸ hpos), hwrap]
  refine ⟨hx' ▸ hback, hy', ?_, ?_, fun x y hxy => ?_⟩
  · change (updateCursor c c'.y (c'.x - 1)).cursorLow = _
    rw [hx', hy', hback]
    exact congrArg Console.cursorLow h.registers
  · change (updateCursor c c'.y (c'.x - 1)).cursorHigh = _
    rw [hx', hy', hback]
    exact congrArg Console.cursorHigh h.registers
  · change cell (putcharAt c'.mem 32 (c'.x - 1) c'.y 0x0F) x y = _
    rw [hx', hy', hback, hmem', cell_putcharAt hxy hon, cell_putcharAt hxy hon]
    by_cases heq : x = c.x ∧ y = c.y
    · rw [if_pos heq, if_pos heq]
      rfl
    · rw [if_neg heq, if_neg heq, if_neg heq]

/-- In the last column, the cursor stays at the beginning of the next row. -/
theorem putchar_backspace_lastColumn (hy₀ : 0 ≤ c.y) (hy₁ : c.y < 24) (h10 : ch ≠ 10) (h9 : ch ≠ 9)
    (h8 : ch ≠ 8) (hx : c.x = 79) : ((c.putchar ch).putchar 8).x = 0 := by
  have hlast : c.x + 1 = 80 := by omega
  have hrow : c.y + 1 < 25 := by omega
  have hput := putchar_of_ordinary (c := c) h10 h9 h8
  rw [wrap_of_lastColumn (c := { c with mem := putcharAt c.mem ch c.x c.y 0x0F, x := c.x + 1 })
    hlast hrow] at hput
  generalize hc' : c.putchar ch = c' at hput ⊢
  have hx' : c'.x = 0 := by rw [hput]; rfl
  have hy' : c'.y = c.y + 1 := by rw [hput]; rfl
  -- the backspace sets `video_x` to 80, and is carried to the next row again
  have hwrap := wrap_of_lastColumn
    (c := { c' with mem := putcharAt c'.mem 32 80 (c'.y - 1) 0x0F, x := 80, y := c'.y - 1 }) rfl
    (by dsimp only; omega)
  rw [putchar_backspace_zero hx' (by omega), hwrap]
  rfl

/-- After any characters since `video_init`, a backspace undoes an ordinary character that
    does not scroll the screen exactly if it has not been printed in the last column. -/
theorem undone_iff (c₀ : Console) (s : List Byte) (ch : Byte) (hc : c = s.foldl putchar c₀.init)
    (h10 : ch ≠ 10) (h9 : ch ≠ 9) (h8 : ch ≠ 8) (hscroll : ¬c.Scrolls) :
    Undone c ((c.putchar ch).putchar 8) ↔ c.x ≠ VIDEO_X_SZ - 1 := by
  have h79 : VIDEO_X_SZ - 1 = 79 := rfl
  have hplaced : c.Placed := hc ▸ placed_foldl c₀ s
  have hon := hplaced.onScreen
  have hx₁ := hon.x₁
  have hy₁ := hon.y₁
  rw [scrolls_iff hplaced] at hscroll
  rw [h79]
  constructor
  · intro hundone hx
    have hzero := putchar_backspace_lastColumn hon.y₀ (by omega) h10 h9 h8 hx
    have hback := hundone.x
    omega
  · exact fun hx => undone_of_lt hplaced h10 h9 h8 (by omega)

/-- The first character after `video_init` is undone. -/
theorem undone_iff_first :
    ∃ c₀ : Console, Undone c₀.init ((c₀.init.putchar 65).putchar 8) := by
  obtain ⟨c₀⟩ : Nonempty Console := ⟨⟨fun _ => 0, 0, 0, 0, 0⟩⟩
  have hscroll : ¬c₀.init.Scrolls :=
    (scrolls_iff (placed_init c₀)).not.2 fun h => absurd h.1 (by decide : (0 : ℤ) ≠ 79)
  exact ⟨c₀, (undone_iff c₀ [] 65 rfl (by decide) (by decide) (by decide) hscroll).2
    (by decide : (0 : ℤ) ≠ VIDEO_X_SZ - 1)⟩

/-- Characters that fit in the first row. -/
theorem foldl_replicate {n : ℕ} (hn : n < 80) (c₀ : Console) :
    ((List.replicate n 65).foldl putchar c₀.init).x = n ∧
      ((List.replicate n 65).foldl putchar c₀.init).y = 0 := by
  induction n with
  | zero => exact ⟨rfl, rfl⟩
  | succ n ih =>
    obtain ⟨hx, hy⟩ := ih (by omega)
    have hput : ((List.replicate n 65).foldl putchar c₀.init).putchar 65 = _ :=
      putchar_of_lt (placed_foldl c₀ (List.replicate n 65)) (by decide) (by decide) (by decide)
        (by omega)
    rw [List.replicate_succ', List.foldl_append, List.foldl_cons, List.foldl_nil, hput]
    refine ⟨?_, hy⟩
    change _ + 1 = _
    rw [hx]
    push_cast
    rfl

/-- After 79 characters, one more goes to the last column, and a backspace does not undo it. -/
theorem not_undone : ∃ (c₀ : Console) (s : List Byte),
    s.length = 79 ∧ ¬(s.foldl putchar c₀.init).Scrolls ∧
      ¬Undone (s.foldl putchar c₀.init) (((s.foldl putchar c₀.init).putchar 65).putchar 8) := by
  obtain ⟨c₀⟩ : Nonempty Console := ⟨⟨fun _ => 0, 0, 0, 0, 0⟩⟩
  obtain ⟨hx, hy⟩ := foldl_replicate (by decide : 79 < 80) c₀
  refine ⟨c₀, List.replicate 79 65, List.length_replicate, ?_, fun hundone => ?_⟩
  · rw [scrolls_iff (placed_foldl _ _), hy]
    exact fun h => absurd h.2 (by decide)
  · have hzero : ((((List.replicate 79 65).foldl putchar c₀.init).putchar 65).putchar 8).x = 0 :=
      putchar_backspace_lastColumn (hy ▸ le_refl _) (hy ▸ by decide) (by decide) (by decide)
        (by decide) hx
    have hback := hundone.x
    rw [hzero, hx] at hback
    exact absurd hback (by decide)

end Console

end NeuOs
