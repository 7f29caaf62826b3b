import Mathlib.Data.List.Induction
import NeuOs.Tty.Erase

/-!
# The stores of the console (kernel/chr_drv/vga_console.c)

The functions of the console once more, with a record of the offsets in `video_buffer` that are
stored to, and of the positions that `update_cursor` sends. Without the record, they are those
of `Console` (`Traced.console_putchar`).

A backspace in the first column goes to the column 80 of the row above, which is no column of
the screen, and whose cell is the first one of the next row. `Traced.safe` says that all stores
nevertheless go to the 4000 bytes of the screen.
-/

namespace NeuOs

/-- The video memory, with the offsets that have been stored to. -/
structure Video where
  mem : VideoMem
  stores : List ℤ

namespace Video

/-! ## The code -/

/-- `*(video_buffer + a) = ch` -/
def store (v : Video) (a : ℤ) (ch : Byte) : Video :=
  ⟨Function.update v.mem a ch, v.stores ++ [a]⟩

/-- `video_putchar_at` -/
def putcharAt (v : Video) (ch : Byte) (x y : ℤ) (attr : Byte) : Video :=
  let x := if 80 ≤ x then 80 else x
  let y := if 25 ≤ y then 25 else y
  (v.store (2 * (x + 80 * y)) ch).store (2 * (x + 80 * y) + 1) attr

/-- The inner loop of `memcpy`. -/
def copyBytes (v : Video) (dest src : ℤ) (n : ℕ) : Video :=
  (List.range n).foldl (fun v (j : ℕ) => v.store (dest + j) (v.mem (src + j))) v

/-- `memcpy` -/
def memcpy (v : Video) (dest src : ℤ) (count size : ℕ) : Video :=
  (List.range count).foldl (fun v (i : ℕ) => v.copyBytes (dest + i * size) (src + i * size) size) v

/-- The loop of `roll_screen` that copies the rows. -/
def rollRows (v : Video) (n : ℕ) : Video :=
  (List.range' 1 n).foldl (fun v (i : ℕ) => v.memcpy (((i : ℤ) - 1) * 80 * 2) (i * 80 * 2) 80 2) v

/-- The loop of `roll_screen` that clears the last row. -/
def clearRow (v : Video) (y : ℤ) (n : ℕ) : Video :=
  (List.range n).foldl (fun v (i : ℕ) => v.putcharAt 32 i y 0x0F) v

/-- `roll_screen` -/
def rollScreen (v : Video) : Video := (v.rollRows 24).clearRow (VIDEO_Y_SZ - 1) 80

/-- The loops of `video_clear`. -/
def clear (v : Video) : Video :=
  (List.range 80).foldl (fun v (i : ℕ) =>
    (List.range 25).foldl (fun v (j : ℕ) => v.putcharAt 32 i j 0x0F) v) v

/-- All stores have gone to the screen. -/
def Inside (v : Video) : Prop := ∀ a ∈ v.stores, 0 ≤ a ∧ a < 4000

/-! ## Without the record -/

variable {v : Video} {x y dest src : ℤ} {n : ℕ} {ch attr : Byte}

theorem mem_memcpy (v : Video) (dest src : ℤ) (count size : ℕ) :
    (v.memcpy dest src count size).mem = Console.memcpy v.mem dest src count size := by
  refine (List.foldl_hom Video.mem fun v i => ?_).symm
  exact List.foldl_hom Video.mem fun _ _ => rfl

theorem mem_rollRows (v : Video) (n : ℕ) : (v.rollRows n).mem = Console.rollRows v.mem n :=
  (List.foldl_hom Video.mem fun v _ => (mem_memcpy v _ _ _ _).symm).symm

theorem mem_clearRow (v : Video) (y : ℤ) (n : ℕ) :
    (v.clearRow y n).mem = Console.clearRow v.mem y n :=
  (List.foldl_hom Video.mem fun _ _ => rfl).symm

theorem mem_rollScreen (v : Video) : v.rollScreen.mem = Console.rollScreen v.mem := by
  rw [rollScreen, mem_clearRow, mem_rollRows, Console.rollScreen]

theorem mem_clear (v : Video) : v.clear.mem =
    (List.range 80).foldl (fun m (i : ℕ) =>
      (List.range 25).foldl (fun m (j : ℕ) => Console.putcharAt m 32 i j 0x0F) m) v.mem := by
  refine (List.foldl_hom Video.mem fun v i => ?_).symm
  exact List.foldl_hom Video.mem fun _ _ => rfl

/-! ## The offsets -/

theorem Inside.store (h : v.Inside) {a : ℤ} (h₀ : 0 ≤ a) (h₁ : a < 4000) :
    (v.store a ch).Inside := by
  intro b hb
  rcases List.mem_append.1 hb with hb | hb
  · exact h b hb
  · rw [List.mem_singleton.1 hb]
    exact ⟨h₀, h₁⟩

/-- A loop whose rounds store to the screen. -/
theorem Inside.foldl {α : Type} {f : Video → α → Video} {l : List α} (h : v.Inside)
    (hf : ∀ v i, i ∈ l → Inside v → (f v i).Inside) : (l.foldl f v).Inside := by
  induction l generalizing v with
  | nil => exact h
  | cons i l ih =>
    exact ih (hf v i List.mem_cons_self h) fun v j hj => hf v j (List.mem_cons_of_mem _ hj)

/-- The column 80 may be stored to in all rows but the last one. -/
theorem Inside.putcharAt (h : v.Inside) (hx : 0 ≤ x) (hx' : x ≤ 80) (hy : 0 ≤ y)
    (hcell : x + 80 * y < 2000) : (v.putcharAt ch x y attr).Inside := by
  have hX : (if 80 ≤ x then 80 else x) = x := by split_ifs <;> omega
  have hY : (if 25 ≤ y then 25 else y) = y := if_neg (by omega)
  rw [Video.putcharAt, hX, hY]
  exact (h.store (by omega) (by omega)).store (by omega) (by omega)

theorem Inside.copyBytes (h : v.Inside) (h₀ : 0 ≤ dest) (h₁ : dest + n ≤ 4000) :
    (v.copyBytes dest src n).Inside := by
  refine h.foldl fun v j hj hv => ?_
  have hj := List.mem_range.1 hj
  exact hv.store (by omega) (by omega)

/-- Copying a row to the row before it. -/
theorem Inside.memcpy (h : v.Inside) (h₀ : 0 ≤ dest) (h₁ : dest + 160 ≤ 4000) :
    (v.memcpy dest src 80 2).Inside := by
  refine h.foldl fun v i hi hv => ?_
  have hi := List.mem_range.1 hi
  exact hv.copyBytes (by push_cast; omega) (by push_cast; omega)

theorem Inside.rollScreen (h : v.Inside) : v.rollScreen.Inside := by
  have hY : VIDEO_Y_SZ - 1 = 24 := rfl
  have hrows : (v.rollRows 24).Inside := by
    refine h.foldl fun v i hi hv => ?_
    obtain ⟨h₁, h₂⟩ := List.mem_range'_1.1 hi
    exact hv.memcpy (by omega) (by omega)
  rw [Video.rollScreen, hY]
  refine hrows.foldl fun v i hi hv => ?_
  have hi := List.mem_range.1 hi
  exact hv.putcharAt (by omega) (by omega) (by omega) (by omega)

theorem Inside.clear (h : v.Inside) : v.clear.Inside := by
  refine h.foldl fun v i hi hv => hv.foldl fun v j hj hv => ?_
  have hi := List.mem_range.1 hi
  have hj := List.mem_range.1 hj
  exact hv.putcharAt (by omega) (by omega) (by omega) (by omega)

end Video

/-- A console with the record of its stores, and of the positions that have been sent to the
    cursor. -/
structure Traced where
  video : Video
  x : ℤ
  y : ℤ
  cursorLow : Byte
  cursorHigh : Byte
  positions : List Word

namespace Traced

/-- The console without the record. -/
def console (t : Traced) : Console := ⟨t.video.mem, t.x, t.y, t.cursorLow, t.cursorHigh⟩

/-- A console with nothing recorded. -/
def start (c : Console) : Traced := ⟨⟨c.mem, []⟩, c.x, c.y, c.cursorLow, c.cursorHigh, []⟩

/-! ## The code -/

/-- `update_cursor` -/
def updateCursor (t : Traced) (row col : ℤ) : Traced :=
  let pos := BitVec.ofInt 32 row * 80 + BitVec.ofInt 32 col
  { t with
    cursorLow := pos.setWidth 8
    cursorHigh := (pos >>> 8).setWidth 8
    positions := t.positions ++ [pos] }

/-- In `video_putchar`: after the last column, the cursor goes to the next row. -/
def carry (t : Traced) : Traced :=
  if VIDEO_X_SZ ≤ t.x then { t with x := 0, y := t.y + 1 } else t

/-- In `video_putchar`: after the last row, the screen rolls. -/
def roll (t : Traced) : Traced :=
  if VIDEO_Y_SZ ≤ t.y then { t with video := t.video.rollScreen, x := 0, y := VIDEO_Y_SZ - 1 }
  else t

/-- The end of `video_putchar`. -/
def wrap (t : Traced) : Traced :=
  let t := t.carry.roll
  t.updateCursor t.y t.x

/-- `video_putchar` -/
def putchar (t : Traced) (ch : Byte) : Traced :=
  if ch = 10 then { t with x := 0, y := t.y + 1 }.wrap
  else if ch = 9 then { t with x := Console.toTab 8 t.x }.wrap
  else if ch = 8 then
    let t := { t with x := t.x - 1 }
    let t := if t.x < 0 then
      { t with x := VIDEO_X_SZ, y := if t.y - 1 < 0 then 0 else t.y - 1 } else t
    { t with video := t.video.putcharAt 32 t.x t.y 0x0F }.wrap
  else { t with video := t.video.putcharAt ch t.x t.y 0x0F, x := t.x + 1 }.wrap

/-- `video_init` -/
def init (t : Traced) : Traced :=
  let t := { t with x := 0, y := 0, video := t.video.clear }
  t.updateCursor t.y t.x

variable {t : Traced} {ch : Byte}

/-! ## Without the record -/

theorem console_roll (t : Traced) : t.roll.console = t.console.roll := by
  rw [roll, Console.roll]
  by_cases hy : VIDEO_Y_SZ ≤ t.y
  · rw [if_pos hy, if_pos (show VIDEO_Y_SZ ≤ t.console.y from hy)]
    change (⟨t.video.rollScreen.mem, _, _, _, _⟩ : Console) = _
    rw [Video.mem_rollScreen]
    rfl
  · rw [if_neg hy, if_neg (show ¬VIDEO_Y_SZ ≤ t.console.y from hy)]

theorem console_carry (t : Traced) : t.carry.console = t.console.carry := by
  rw [carry, Console.carry]
  by_cases hx : VIDEO_X_SZ ≤ t.x
  · rw [if_pos hx, if_pos (show VIDEO_X_SZ ≤ t.console.x from hx)]
    rfl
  · rw [if_neg hx, if_neg (show ¬VIDEO_X_SZ ≤ t.console.x from hx)]

theorem console_wrap (t : Traced) : t.wrap.console = t.console.wrap := by
  have hroll : t.carry.roll.console = t.console.carry.roll := by
    rw [console_roll, console_carry]
  rw [Console.wrap, ← hroll]
  rfl

/-- The record does not change what `video_putchar` does. -/
theorem console_putchar (t : Traced) (ch : Byte) :
    (t.putchar ch).console = t.console.putchar ch := by
  rw [putchar, Console.putchar]
  by_cases h10 : ch = 10
  · rw [if_pos h10, if_pos h10, console_wrap]
    rfl
  by_cases h9 : ch = 9
  · rw [if_neg h10, if_neg h10, if_pos h9, if_pos h9, console_wrap]
    rfl
  by_cases h8 : ch = 8
  · rw [if_neg h10, if_neg h10, if_neg h9, if_neg h9, if_pos h8, if_pos h8]
    dsimp only
    rw [console_wrap]
    by_cases hx : t.x - 1 < 0
    · rw [if_pos hx, if_pos (show t.console.x - 1 < 0 from hx)]
      rfl
    · rw [if_neg hx, if_neg (show ¬t.console.x - 1 < 0 from hx)]
      rfl
  · rw [if_neg h10, if_neg h10, if_neg h9, if_neg h9, if_neg h8, if_neg h8, console_wrap]
    rfl

theorem console_init (c : Console) : (start c).init.console = c.init := by
  change (⟨(start c).video.clear.mem, _, _, _, _⟩ : Console) = _
  rw [Video.mem_clear]
  rfl

theorem console_foldl (s : List Byte) (t : Traced) :
    (s.foldl putchar t).console = s.foldl Console.putchar t.console :=
  (List.foldl_hom console fun t ch => (console_putchar t ch).symm).symm

/-! ## The stores -/

/-- What is recorded is on the screen: the stores, and the positions of the cursor. -/
structure Safe (t : Traced) : Prop where
  stores : t.video.Inside
  positions : ∀ p ∈ t.positions, p.toNat < 2000

theorem Safe.updateCursor (h : t.Safe) {x y : ℤ} (hon : Console.OnScreen x y) :
    (t.updateCursor y x).Safe := by
  refine ⟨h.stores, fun p hp => ?_⟩
  rcases List.mem_append.1 hp with hp | hp
  · exact h.positions p hp
  · obtain ⟨hx₀, hx₁, hy₀, hy₁⟩ := hon
    obtain ⟨x, rfl⟩ := Int.eq_ofNat_of_zero_le hx₀
    obtain ⟨y, rfl⟩ := Int.eq_ofNat_of_zero_le hy₀
    have h80 : (80 : Word).toNat = 80 := rfl
    have hx : x % 2 ^ 32 = x := Nat.mod_eq_of_lt (by omega)
    have hy : y % 2 ^ 32 = y := Nat.mod_eq_of_lt (by omega)
    rw [List.mem_singleton.1 hp, BitVec.ofInt_natCast, BitVec.ofInt_natCast, BitVec.toNat_add,
      BitVec.toNat_mul, BitVec.toNat_ofNat, BitVec.toNat_ofNat, h80, hx, hy,
      Nat.mod_eq_of_lt (by omega : y * 80 < 2 ^ 32),
      Nat.mod_eq_of_lt (by omega : y * 80 + x < 2 ^ 32)]
    omega

theorem Safe.wrap (h : t.Safe) (hx : 0 ≤ t.x) (hy : 0 ≤ t.y) : t.wrap.Safe := by
  have hsafe : t.carry.roll.Safe := by
    have hcarry : t.carry.Safe := by
      rw [carry]
      split_ifs
      · exact ⟨h.stores, h.positions⟩
      · exact h
    rw [roll]
    split_ifs
    · exact ⟨hcarry.stores.rollScreen, hcarry.positions⟩
    · exact hcarry
  have hplaced : t.wrap.console.Placed := by
    rw [console_wrap]
    exact Console.placed_wrap hx hy
  exact hsafe.updateCursor hplaced.onScreen

/-- A character keeps the record on the screen. -/
theorem Safe.putchar (h : t.Safe) (hon : Console.OnScreen t.x t.y) (ch : Byte) :
    (t.putchar ch).Safe := by
  obtain ⟨hx₀, hx₁, hy₀, hy₁⟩ := hon
  have hX : VIDEO_X_SZ = 80 := rfl
  rw [Traced.putchar]
  by_cases h10 : ch = 10
  · rw [if_pos h10]
    exact Safe.wrap ⟨h.stores, h.positions⟩ le_rfl (Int.le_add_one hy₀)
  by_cases h9 : ch = 9
  · rw [if_neg h10, if_pos h9]
    exact Safe.wrap ⟨h.stores, h.positions⟩ (Console.toTab_nonneg hx₀) hy₀
  by_cases h8 : ch = 8
  · rw [if_neg h10, if_neg h9, if_pos h8, hX]
    dsimp only
    by_cases hx : t.x - 1 < 0
    · -- the column 80, in a row that is not the last one
      rw [if_pos hx]
      dsimp only
      have hrow : 0 ≤ (if t.y - 1 < 0 then 0 else t.y - 1) ∧
          (if t.y - 1 < 0 then 0 else t.y - 1) < 24 := by
        split_ifs <;> omega
      exact Safe.wrap ⟨h.stores.putcharAt (by omega) le_rfl hrow.1 (by omega), h.positions⟩
        (show (0 : ℤ) ≤ 80 by decide) hrow.1
    · rw [if_neg hx]
      dsimp only
      exact Safe.wrap ⟨h.stores.putcharAt (by omega) (by omega) hy₀ (by omega), h.positions⟩
        (not_lt.1 hx) hy₀
  · rw [if_neg h10, if_neg h9, if_neg h8]
    exact Safe.wrap ⟨h.stores.putcharAt hx₀ (by omega) hy₀ (by omega), h.positions⟩
      (Int.le_add_one hx₀) hy₀

theorem safe_init (c : Console) : (start c).init.Safe := by
  have hnil : (start c).video.Inside := fun _ h => absurd h List.not_mem_nil
  have hclear : Safe ⟨(start c).video.clear, 0, 0, c.cursorLow, c.cursorHigh, []⟩ :=
    ⟨hnil.clear, fun _ h => absurd h List.not_mem_nil⟩
  have hzero : Console.OnScreen 0 0 := ⟨le_rfl, by decide, le_rfl, by decide⟩
  exact hclear.updateCursor hzero

/-- After any characters since `video_init`, the cursor is on the screen, all positions that have
    been sent are on the screen, and all stores have gone to its 4000 bytes. -/
theorem safe (c : Console) (s : List Byte) :
    (s.foldl putchar (start c).init).console = s.foldl Console.putchar c.init ∧
      Console.OnScreen (s.foldl putchar (start c).init).x (s.foldl putchar (start c).init).y ∧
      (∀ p ∈ (s.foldl putchar (start c).init).positions, p.toNat < 2000) ∧
      ∀ a ∈ (s.foldl putchar (start c).init).video.stores, 0 ≤ a ∧ a < 4000 := by
  have hconsole : ∀ s : List Byte,
      (s.foldl putchar (start c).init).console = s.foldl Console.putchar c.init := fun s => by
    rw [console_foldl, console_init]
  have hplaced : ∀ s : List Byte, (s.foldl putchar (start c).init).console.Placed := fun s => by
    rw [hconsole]
    exact Console.placed_foldl c s
  have hsafe : (s.foldl putchar (start c).init).Safe := by
    induction s using List.reverseRecOn with
    | nil => exact safe_init c
    | append_singleton s ch ih =>
      rw [List.foldl_append]
      exact ih.putchar (hplaced s).onScreen ch
  exact ⟨hconsole s, (hplaced s).onScreen, hsafe.positions, hsafe.stores⟩

end Traced

end NeuOs
