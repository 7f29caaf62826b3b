import NeuOs.Tty.Queue

/-!
# The console (kernel/chr_drv/vga_console.c)

The screen has 25 rows of 80 cells, in 4000 bytes of video memory that are scrolled in
place. It shows what a terminal with any number of rows (`Terminal.Rows`) has in the row
of its cursor and in the 24 rows above it (`Console.Shows`).
-/

namespace NeuOs

abbrev VIDEO_X_SZ : ℤ := 80
abbrev VIDEO_Y_SZ : ℤ := 25
abbrev TAB_LEN : ℤ := 8

/-- The bytes from `video_buffer` on. -/
abbrev VideoMem := ℤ → Byte

/-- The video memory, `video_x` and `video_y`, and the two registers of the cursor. -/
structure Console where
  mem : VideoMem
  x : ℤ
  y : ℤ
  cursorLow : Byte
  cursorHigh : Byte

namespace Console

/-! ## The code -/

/-- `update_cursor` -/
def updateCursor (c : Console) (row col : ℤ) : Console :=
  let pos := BitVec.ofInt 32 row * 80 + BitVec.ofInt 32 col
  { c with cursorLow := pos.setWidth 8, cursorHigh := (pos >>> 8).setWidth 8 }

/-- `video_putchar_at` -/
def putcharAt (m : VideoMem) (ch : Byte) (x y : ℤ) (attr : Byte) : VideoMem :=
  let x := if 80 ≤ x then 80 else x
  let y := if 25 ≤ y then 25 else y
  Function.update (Function.update m (2 * (x + 80 * y)) ch) (2 * (x + 80 * y) + 1) attr

/-- The loops of `memcpy`. -/
def memcpy (m : VideoMem) (dest src : ℤ) (count size : ℕ) : VideoMem :=
  (List.range count).foldl (fun m (i : ℕ) => (List.range size).foldl (fun m (j : ℕ) =>
    Function.update m (dest + i * size + j) (m (src + i * size + j))) m) m

/-- The loop of `roll_screen` that copies the rows. -/
def rollRows (m : VideoMem) (n : ℕ) : VideoMem :=
  (List.range' 1 n).foldl (fun m (i : ℕ) => memcpy m (((i : ℤ) - 1) * 80 * 2) (i * 80 * 2) 80 2) m

/-- The loop of `roll_screen` that clears the last row. -/
def clearRow (m : VideoMem) (y : ℤ) (n : ℕ) : VideoMem :=
  (List.range n).foldl (fun m (i : ℕ) => putcharAt m 32 i y 0x0F) m

/-- `roll_screen` -/
def rollScreen (m : VideoMem) : VideoMem := clearRow (rollRows m 24) (VIDEO_Y_SZ - 1) 80

/-- The loop for `'\t'`, which takes less than `TAB_LEN` rounds. -/
def toTab : ℕ → ℤ → ℤ
  | 0, x => x
  | n + 1, x => if x.tmod TAB_LEN ≠ 0 then toTab n (x + 1) else x

/-- In `video_putchar`: after the last column, the cursor goes to the next row. -/
def carry (c : Console) : Console :=
  if VIDEO_X_SZ ≤ c.x then { c with x := 0, y := c.y + 1 } else c

/-- In `video_putchar`: after the last row, the screen rolls. -/
def roll (c : Console) : Console :=
  if VIDEO_Y_SZ ≤ c.y then { c with mem := rollScreen c.mem, x := 0, y := VIDEO_Y_SZ - 1 } else c

/-- The end of `video_putchar`. -/
def wrap (c : Console) : Console :=
  let c := c.carry.roll
  c.updateCursor c.y c.x

/-- `video_putchar` -/
def putchar (c : Console) (ch : Byte) : Console :=
  if ch = 10 then { c with x := 0, y := c.y + 1 }.wrap
  else if ch = 9 then { c with x := toTab 8 c.x }.wrap
  else if ch = 8 then
    let c := { c with x := c.x - 1 }
    let c := if c.x < 0 then
      { c with x := VIDEO_X_SZ, y := if c.y - 1 < 0 then 0 else c.y - 1 } else c
    { c with mem := putcharAt c.mem 32 c.x c.y 0x0F }.wrap
  else { c with mem := putcharAt c.mem ch c.x c.y 0x0F, x := c.x + 1 }.wrap

/-- `video_clear` -/
def clear (c : Console) : Console :=
  { c with
    x := 0
    y := 0
    mem := (List.range 80).foldl (fun m (i : ℕ) =>
      (List.range 25).foldl (fun m (j : ℕ) => putcharAt m 32 i j 0x0F) m) c.mem }

/-- `video_init` -/
def init (c : Console) : Console :=
  let c := { c with x := 0, y := 0 }.clear
  c.updateCursor c.y c.x

/-- `con_write`: the characters of the queue are written, until it is empty. -/
def conWrite : ℕ → TtyQueue → Console → TtyQueue × Console
  | 0, q, c => (q, c)
  | fuel + 1, q, c =>
    if q.isEmpty then (q, c)
    else conWrite fuel q.take.2 (c.putchar q.take.1)

/-! ## Cells -/

/-- The character and the attribute of a cell. -/
def cell (m : VideoMem) (x y : ℤ) : Byte × Byte := (m (2 * (x + 80 * y)), m (2 * (x + 80 * y) + 1))

/-- A cell that is on the screen. -/
structure OnScreen (x y : ℤ) : Prop where
  x₀ : 0 ≤ x
  x₁ : x < 80
  y₀ : 0 ≤ y
  y₁ : y < 25

variable {m : VideoMem} {c : Console} {x y x' y' : ℤ} {ch attr : Byte}

theorem cell_putcharAt (h : OnScreen x y) (h' : OnScreen x' y') :
    cell (putcharAt m ch x' y' attr) x y = if x = x' ∧ y = y' then (ch, attr) else cell m x y := by
  obtain ⟨hx₀, hx₁, hy₀, hy₁⟩ := h
  obtain ⟨hx₀', hx₁', hy₀', hy₁'⟩ := h'
  rw [putcharAt, if_neg (not_le.2 hx₁'), if_neg (not_le.2 hy₁'), cell, cell]
  by_cases heq : x = x' ∧ y = y'
  · rw [if_pos heq, heq.1, heq.2, Function.update_self, Function.update_of_ne (by omega),
      Function.update_self]
  · rw [if_neg heq, Function.update_of_ne (by omega), Function.update_of_ne (by omega),
      Function.update_of_ne (by omega), Function.update_of_ne (by omega)]

/-- A loop that copies bytes to a place before them. -/
theorem copyBytes_apply {dest src : ℤ} {n : ℕ} (h : dest + n ≤ src) (a : ℤ) :
    (List.range n).foldl (fun m (j : ℕ) => Function.update m (dest + j) (m (src + j))) m a =
      if dest ≤ a ∧ a < dest + n then m (src + (a - dest)) else m a := by
  induction n generalizing a with
  | zero => exact (if_neg (by omega)).symm
  | succ n ih =>
    push_cast at h
    rw [List.range_succ, List.foldl_append, List.foldl_cons, List.foldl_nil]
    by_cases ha : a = dest + n
    · rw [ha, Function.update_self, ih (by omega), if_neg (by omega), if_pos (by omega),
        add_sub_cancel_left]
    · rw [Function.update_of_ne ha, ih (by omega)]
      push_cast
      by_cases hin : dest ≤ a ∧ a < dest + n
      · rw [if_pos hin, if_pos (by omega)]
      · rw [if_neg hin, if_neg (by omega)]

theorem memcpy_apply {dest src : ℤ} {count size : ℕ} (h : dest + count * size ≤ src) (a : ℤ) :
    memcpy m dest src count size a =
      if dest ≤ a ∧ a < dest + count * size then m (src + (a - dest)) else m a := by
  rw [memcpy]
  induction count generalizing a with
  | zero => exact (if_neg (by omega)).symm
  | succ n ih =>
    have hmul : ((n + 1 : ℕ) : ℤ) * size = n * size + size := by
      push_cast
      rw [Int.add_mul, one_mul]
    have hk : 0 ≤ (n : ℤ) * size := Int.mul_nonneg (Int.natCast_nonneg n) (Int.natCast_nonneg size)
    rw [hmul] at h ⊢
    rw [List.range_succ, List.foldl_append, List.foldl_cons, List.foldl_nil,
      copyBytes_apply (by omega)]
    generalize (n : ℤ) * size = k at *
    by_cases hin : dest + k ≤ a ∧ a < dest + k + size
    · have heq : src + k + (a - (dest + k)) = src + (a - dest) := by omega
      rw [if_pos hin, ih (by omega), heq, if_neg (by omega), if_pos (by omega)]
    · rw [if_neg hin, ih (by omega)]
      by_cases hin' : dest ≤ a ∧ a < dest + k
      · rw [if_pos hin', if_pos (by omega)]
      · rw [if_neg hin', if_neg (by omega)]

/-- Copying a row to the row before it. -/
theorem cell_memcpy {i : ℤ} (h : OnScreen x y) :
    cell (memcpy m ((i - 1) * 80 * 2) (i * 80 * 2) 80 2) x y =
      if y = i - 1 then cell m x i else cell m x y := by
  obtain ⟨hx₀, hx₁, hy₀, hy₁⟩ := h
  have hdisj : (i - 1) * 80 * 2 + ((80 : ℕ) : ℤ) * (2 : ℕ) ≤ i * 80 * 2 := by omega
  rw [cell, memcpy_apply hdisj, memcpy_apply hdisj, cell, cell]
  by_cases hy : y = i - 1
  · rw [if_pos hy, if_pos (by omega), if_pos (by omega), hy]
    congr 2 <;> omega
  · rw [if_neg hy, if_neg (by omega), if_neg (by omega)]

theorem cell_rollRows {n : ℕ} (hn : n ≤ 24) (h : OnScreen x y) :
    cell (rollRows m n) x y = if y < n then cell m x (y + 1) else cell m x y := by
  induction n generalizing x y with
  | zero => rw [if_neg (by have := h.y₀; omega)]; rfl
  | succ n ih =>
    have hy₀ := h.y₀
    have hnext : OnScreen x (((1 + n : ℕ) : ℤ)) := ⟨h.x₀, h.x₁, by omega, by omega⟩
    have hstep : rollRows m (n + 1) = memcpy (rollRows m n) ((((1 + n : ℕ) : ℤ) - 1) * 80 * 2)
        (((1 + n : ℕ) : ℤ) * 80 * 2) 80 2 := by
      rw [rollRows, rollRows, List.range'_concat, List.foldl_append, List.foldl_cons,
        List.foldl_nil, Nat.one_mul]
    rw [hstep, cell_memcpy h]
    by_cases hy : y = ((1 + n : ℕ) : ℤ) - 1
    · have heq : y + 1 = ((1 + n : ℕ) : ℤ) := by omega
      rw [if_pos hy, ih (by omega) hnext, if_neg (by omega), if_pos (by omega), heq]
    · rw [if_neg hy, ih (by omega) h]
      by_cases hlt : y < n
      · rw [if_pos hlt, if_pos (by omega)]
      · rw [if_neg hlt, if_neg (by omega)]

/-- The blank cell. -/
def blank : Byte × Byte := (32, 0x0F)

theorem cell_clearRow {n : ℕ} (hn : n ≤ 80) {i : ℤ} (hi₀ : 0 ≤ i) (hi₁ : i < 25)
    (h : OnScreen x y) :
    cell (clearRow m i n) x y = if y = i ∧ x < n then blank else cell m x y := by
  induction n with
  | zero => rw [if_neg (by have := h.x₀; omega)]; rfl
  | succ n ih =>
    have hstep : clearRow m i (n + 1) = putcharAt (clearRow m i n) 32 n i 0x0F := by
      rw [clearRow, List.range_succ, List.foldl_append]
      rfl
    rw [hstep, cell_putcharAt h ⟨by omega, by omega, hi₀, hi₁⟩, ih (by omega)]
    by_cases heq : x = n ∧ y = i
    · rw [if_pos heq, if_pos (by omega)]
      rfl
    · rw [if_neg heq]
      by_cases hlt : y = i ∧ x < n
      · rw [if_pos hlt, if_pos (by omega)]
      · rw [if_neg hlt, if_neg (by omega)]

/-- Rolling moves all rows up, and leaves the last one blank. -/
theorem cell_rollScreen (h : OnScreen x y) :
    cell (rollScreen m) x y = if y < 24 then cell m x (y + 1) else blank := by
  have hx := h.x₁
  have hy := h.y₁
  have h24 : VIDEO_Y_SZ - 1 = 24 := rfl
  rw [rollScreen, h24, cell_clearRow (le_refl _) (by decide) (by decide) h]
  by_cases hlt : y < 24
  · rw [if_neg (by omega), cell_rollRows (le_refl _) h, if_pos (by omega), if_pos hlt]
  · rw [if_pos (by omega), if_neg hlt]

/-- Clearing a column. -/
theorem cell_clearColumn {n : ℕ} (hn : n ≤ 25) {i : ℤ} (hi₀ : 0 ≤ i) (hi₁ : i < 80)
    (h : OnScreen x y) :
    cell ((List.range n).foldl (fun m (j : ℕ) => putcharAt m 32 i j 0x0F) m) x y =
      if x = i ∧ y < n then blank else cell m x y := by
  induction n with
  | zero => rw [if_neg (by have := h.y₀; omega)]; rfl
  | succ n ih =>
    rw [List.range_succ, List.foldl_append, List.foldl_cons, List.foldl_nil,
      cell_putcharAt h ⟨hi₀, hi₁, by omega, by omega⟩, ih (by omega)]
    by_cases heq : x = i ∧ y = n
    · rw [if_pos heq, if_pos (by omega)]
      rfl
    · rw [if_neg heq]
      by_cases hlt : x = i ∧ y < n
      · rw [if_pos hlt, if_pos (by omega)]
      · rw [if_neg hlt, if_neg (by omega)]

theorem cell_clearColumns {n : ℕ} (hn : n ≤ 80) (h : OnScreen x y) :
    cell ((List.range n).foldl (fun m (i : ℕ) =>
      (List.range 25).foldl (fun m (j : ℕ) => putcharAt m 32 i j 0x0F) m) m) x y =
      if x < n then blank else cell m x y := by
  have hy := h.y₁
  induction n with
  | zero => rw [if_neg (by have := h.x₀; omega)]; rfl
  | succ n ih =>
    rw [List.range_succ (n := n), List.foldl_append, List.foldl_cons, List.foldl_nil,
      cell_clearColumn (le_refl _) (by omega) (by omega) h, ih (by omega)]
    by_cases heq : x = n
    · rw [if_pos (by omega), if_pos (by omega)]
    · rw [if_neg (by omega)]
      by_cases hlt : x < n
      · rw [if_pos hlt, if_pos (by omega)]
      · rw [if_neg hlt, if_neg (by omega)]

theorem cell_init (c : Console) (h : OnScreen x y) : cell c.init.mem x y = blank :=
  (cell_clearColumns (le_refl 80) h).trans (if_pos h.x₁)

end Console

/-! ## The terminal with any number of rows -/

/-- Rows of characters, and the cursor. -/
structure Rows where
  text : ℕ → ℕ → Byte
  x : ℕ
  row : ℕ

namespace Rows

/-- Blank rows, with the cursor in the first cell. -/
def init : Rows := ⟨fun _ _ => 32, 0, 0⟩

/-- The cursor moves to a column, or to the next row after the last column. -/
def moveTo (r : Rows) (x : ℕ) : Rows :=
  if 80 ≤ x then { r with x := 0, row := r.row + 1 } else { r with x := x }

/-- Write a character: `'\n'` and `'\t'` move the cursor. -/
def putchar (r : Rows) (ch : Byte) : Rows :=
  if ch = 10 then { r with x := 0, row := r.row + 1 }
  else if ch = 9 then r.moveTo ((r.x + 7) / 8 * 8)
  else
    let line := Function.update (r.text r.row) r.x ch
    { r with text := Function.update r.text r.row line }.moveTo (r.x + 1)

/-- The first row that is displayed. -/
def top (r : Rows) : ℕ := r.row - 24

/-- The cursor is in a column, and there is nothing below it. -/
structure WellFormed (r : Rows) : Prop where
  x : r.x < 80
  below : ∀ i j, r.row < i → r.text i j = 32

end Rows

namespace Console

variable {c : Console} {r : Rows} {ch : Byte}

/-- The screen shows the row of the cursor and the 24 rows above it. -/
structure Shows (c : Console) (r : Rows) : Prop where
  wf : r.WellFormed
  x : c.x = r.x
  y : c.y = (r.row : ℤ) - r.top
  cell : ∀ i j : ℕ, i < 80 → j < 25 → cell c.mem i j = (r.text (r.top + j) i, 0x0F)

theorem toTab_eq {n : ℕ} {x : ℕ} (hn : (8 - x % 8) % 8 ≤ n) :
    toTab n x = ((x + 7) / 8 * 8 : ℕ) := by
  induction n generalizing x with
  | zero =>
    rw [toTab]
    omega
  | succ n ih =>
    rw [toTab]
    have hmod : (x : ℤ).tmod TAB_LEN = ((x % 8 : ℕ) : ℤ) := rfl
    rw [hmod]
    split_ifs with h
    · have hcast : (x : ℤ) + 1 = ((x + 1 : ℕ) : ℤ) := by push_cast; rfl
      rw [hcast, ih (by omega)]
      omega
    · omega

variable {m : VideoMem} {x y : ℤ} {l h : Byte}

/-- What the screen shows with the cursor in the row of `r`. -/
structure ShowsText (m : VideoMem) (y : ℤ) (r : Rows) : Prop where
  below : ∀ i j, r.row < i → r.text i j = 32
  y : y = (r.row : ℤ) - r.top
  cell : ∀ i j : ℕ, i < 80 → j < 25 → cell m i j = (r.text (r.top + j) i, 0x0F)

theorem Shows.text (hs : c.Shows r) : ShowsText c.mem c.y r := ⟨hs.wf.below, hs.y, hs.cell⟩

theorem top_le (r : Rows) : r.top ≤ r.row := Nat.sub_le _ _

theorem Shows.updateCursor (hs : c.Shows r) (row col : ℤ) : (c.updateCursor row col).Shows r :=
  ⟨hs.wf, hs.x, hs.y, hs.cell⟩

/-- The cursor goes to the next row, and the screen rolls if it has been in the last one. -/
theorem ShowsText.newline (hs : ShowsText m y r) :
    (roll ⟨m, 0, y + 1, l, h⟩).Shows ⟨r.text, 0, r.row + 1⟩ := by
  have hy := hs.y
  have hY : VIDEO_Y_SZ = 25 := rfl
  rw [Rows.top] at hy
  have hbelow : ∀ i j, r.row + 1 < i → r.text i j = 32 := fun i j hi => hs.below i j (by omega)
  have hwf : Rows.WellFormed ⟨r.text, 0, r.row + 1⟩ := ⟨Nat.zero_lt_succ _, hbelow⟩
  have htop : Rows.top ⟨r.text, 0, r.row + 1⟩ = r.row + 1 - 24 := rfl
  rw [roll, hY]
  dsimp only
  by_cases hrow : r.row < 24
  · have hsame : Rows.top ⟨r.text, 0, r.row + 1⟩ = r.top := by
      rw [htop, Rows.top]
      omega
    rw [if_neg (by omega)]
    refine ⟨hwf, rfl, ?_, ?_⟩
    · rw [htop]
      dsimp only
      omega
    · rw [hsame]
      exact hs.cell
  · have hnext : Rows.top ⟨r.text, 0, r.row + 1⟩ = r.top + 1 := by
      rw [htop, Rows.top]
      omega
    rw [if_pos (by omega)]
    refine ⟨hwf, rfl, ?_, fun i j hi hj => ?_⟩
    · rw [htop]
      dsimp only
      omega
    · rw [hnext, cell_rollScreen ⟨by omega, by omega, by omega, by omega⟩]
      by_cases hj24 : j < 24
      · have hcast : (j : ℤ) + 1 = ((j + 1 : ℕ) : ℤ) := by push_cast; rfl
        have hadd : r.top + 1 + j = r.top + (j + 1) := by omega
        rw [if_pos (by omega), hcast, hs.cell i (j + 1) hi (by omega), hadd]
      · -- the row of the cursor is blank
        have hlast : r.text (r.top + 1 + j) i = 32 := hs.below _ _ (by rw [Rows.top]; omega)
        rw [if_neg (by omega), hlast]
        rfl

/-- The cursor moves to a column, or to the next row. -/
theorem ShowsText.moveTo (hs : ShowsText m y r) (k : ℕ) :
    (wrap ⟨m, k, y, l, h⟩).Shows (r.moveTo k) := by
  have hX : VIDEO_X_SZ = 80 := rfl
  have hY : VIDEO_Y_SZ = 25 := rfl
  refine Shows.updateCursor ?_ _ _
  rw [Rows.moveTo, carry, hX]
  dsimp only
  by_cases hk : 80 ≤ k
  · rw [if_pos (by exact_mod_cast hk), if_pos hk]
    exact hs.newline
  · have hy := hs.y
    rw [Rows.top] at hy
    rw [if_neg (by exact_mod_cast hk), if_neg hk, roll, hY]
    dsimp only
    rw [if_neg (by omega)]
    exact ⟨⟨Nat.lt_of_not_le hk, hs.below⟩, rfl, hs.y, hs.cell⟩

/-- Writing a character at the cursor. -/
theorem Shows.putcharAt (hs : c.Shows r) (ch : Byte) :
    ShowsText (putcharAt c.mem ch c.x c.y 0x0F) c.y { r with
      text := Function.update r.text r.row (Function.update (r.text r.row) r.x ch) } := by
  have htop := top_le r
  have hx := hs.wf.x
  have hy := hs.y
  have hy₁ : r.row - r.top < 25 := by rw [Rows.top]; omega
  refine ⟨fun i j hi => ?_, hs.y, fun i j hi hj => ?_⟩
  · exact (congrFun (Function.update_of_ne (Nat.ne_of_gt hi) _ _) j).trans (hs.wf.below i j hi)
  · rw [cell_putcharAt ⟨by omega, by omega, by omega, by omega⟩
      ⟨by rw [hs.x]; omega, by rw [hs.x]; omega, by omega, by omega⟩]
    change _ = (Function.update r.text r.row _ (r.top + j) i, _)
    by_cases hij : (i : ℤ) = c.x ∧ (j : ℤ) = c.y
    · have hi' : i = r.x := by have := hs.x; omega
      have hj' : r.top + j = r.row := by omega
      rw [if_pos hij, hj', hi', Function.update_self, Function.update_self]
    · rw [if_neg hij, hs.cell i j hi hj]
      by_cases hj' : r.top + j = r.row
      · have hi' : i ≠ r.x := fun hi' => hij ⟨by rw [hs.x, hi'], by omega⟩
        rw [hj', Function.update_self, Function.update_of_ne hi']
      · rw [Function.update_of_ne hj']

/-- One character. -/
theorem Shows.putchar (hs : c.Shows r) (hch : ch ≠ 8) : (c.putchar ch).Shows (r.putchar ch) := by
  rw [Console.putchar, Rows.putchar]
  by_cases h10 : ch = 10
  · have hcarry : carry { c with x := 0, y := c.y + 1 } = { c with x := 0, y := c.y + 1 } :=
      if_neg (show ¬VIDEO_X_SZ ≤ 0 by decide)
    rw [if_pos h10, if_pos h10, wrap, hcarry]
    exact hs.text.newline.updateCursor _ _
  rw [if_neg h10, if_neg h10]
  by_cases h9 : ch = 9
  · rw [if_pos h9, if_pos h9, hs.x, toTab_eq (by omega)]
    exact hs.text.moveTo _
  · have hsucc : c.x + 1 = ((r.x + 1 : ℕ) : ℤ) := by rw [hs.x]; push_cast; rfl
    rw [if_neg h9, if_neg h9, if_neg hch, hsucc]
    exact (hs.putcharAt ch).moveTo _

/-- The screen after `video_init`. -/
theorem shows_init (c : Console) : c.init.Shows Rows.init := by
  refine ⟨⟨by decide, fun _ _ _ => rfl⟩, rfl, rfl, fun i j hi hj => ?_⟩
  exact cell_init c ⟨by omega, by omega, by omega, by omega⟩

/-- `con_write` writes all characters of the queue. -/
theorem conWrite_spec {q : TtyQueue} {fuel : ℕ} (hq : q.Bounded) (hfuel : q.content.length ≤ fuel)
    (c : Console) : (conWrite fuel q c).1.content = [] ∧
      (conWrite fuel q c).2 = q.content.foldl Console.putchar c := by
  induction fuel generalizing q c with
  | zero =>
    have hnil := List.length_eq_zero_iff.1 (Nat.le_zero.1 hfuel)
    rw [conWrite, hnil]
    exact ⟨rfl, rfl⟩
  | succ fuel ih =>
    rw [conWrite]
    by_cases hemp : q.isEmpty
    · have hnil := (TtyQueue.isEmpty_iff hq).1 hemp
      rw [if_pos hemp, hnil]
      exact ⟨rfl, rfl⟩
    · have hne : q.content ≠ [] := fun hnil => hemp ((TtyQueue.isEmpty_iff hq).2 hnil)
      have htake := TtyQueue.content_take hq hne
      rw [if_neg hemp, htake, List.foldl_cons]
      refine ih hq.take ?_ _
      rw [htake, List.length_cons] at hfuel
      omega

/-- Calls of `con_write`, each with the characters that are in the queue. -/
def conWrites (c : Console) (l : List TtyQueue) : Console :=
  l.foldl (fun c q => (conWrite TTY_BUF_SIZE q c).2) c

/-- Every call of `con_write` empties the queue, and after any number of them the screen and
    its cursor are those of the terminal with any number of rows. -/
theorem conWrites_shows (c : Console) (l : List TtyQueue)
    (hl : ∀ q ∈ l, q.Bounded ∧ (8 : Byte) ∉ q.content) :
    (∀ q ∈ l, ∀ c, (conWrite TTY_BUF_SIZE q c).1.content = []) ∧
      (conWrites c.init l).Shows ((l.flatMap TtyQueue.content).foldl Rows.putchar Rows.init) := by
  have hwrite : ∀ q ∈ l, ∀ c, (conWrite TTY_BUF_SIZE q c).1.content = [] ∧
      (conWrite TTY_BUF_SIZE q c).2 = q.content.foldl Console.putchar c := fun q hq c =>
    conWrite_spec (hl q hq).1 (Nat.le_of_lt (TtyQueue.length_content_lt (hl q hq).1)) c
  have hchars : ∀ (s : List Byte) (c : Console) (r : Rows), c.Shows r → (8 : Byte) ∉ s →
      (s.foldl Console.putchar c).Shows (s.foldl Rows.putchar r) := by
    intro s
    induction s with
    | nil => exact fun c r hs _ => hs
    | cons ch s ih =>
      intro c r hs hs8
      rw [List.mem_cons, not_or] at hs8
      exact ih _ _ (hs.putchar (Ne.symm hs8.1)) hs8.2
  refine ⟨fun q hq c => (hwrite q hq c).1, ?_⟩
  suffices hall : ∀ (l' : List TtyQueue), (∀ q ∈ l', q ∈ l) → ∀ (c : Console) (r : Rows),
      c.Shows r → (conWrites c l').Shows ((l'.flatMap TtyQueue.content).foldl Rows.putchar r) from
    hall l (fun _ => id) _ _ (shows_init c)
  intro l'
  induction l' with
  | nil => exact fun _ c r hs => hs
  | cons q l' ih =>
    intro hmem c r hs
    have hq := hmem q List.mem_cons_self
    rw [conWrites, List.foldl_cons, (hwrite q hq c).2, List.flatMap_cons, List.foldl_append]
    exact ih (fun q hq => hmem q (List.mem_cons_of_mem _ hq)) _ _ (hchars _ _ _ hs (hl q hq).2)

/-- A queue with one `A` is written. -/
theorem conWrites_shows_char : ∃ c q, TtyQueue.content q = [65] ∧
    (conWrites c [q]).Shows (([q].flatMap TtyQueue.content).foldl Rows.putchar Rows.init) := by
  obtain ⟨q, hq⟩ : ∃ q : TtyQueue, q = ⟨fun _ => 65, 0, 1⟩ := ⟨_, rfl⟩
  have hb : q.Bounded := by rw [hq]; exact ⟨by decide, by decide⟩
  have hc : q.content = [65] := by rw [hq]; rfl
  refine ⟨_, q, hc, (conWrites_shows ⟨fun _ => 0, 0, 0, 0, 0⟩ [q] fun q' hq' => ?_).2⟩
  obtain rfl := List.mem_singleton.1 hq'
  exact ⟨hb, by rw [hc]; decide⟩

end Console

end NeuOs
