import NeuOs.Boot.Bootsect

/-!
# `setup` (boot/setup.s)

`setup` saves what the BIOS tells about the machine where the boot sector was, and moves the memory
from `0x10000` to `0x90000` down to `0`, 64 KB at a time.

So the system that the boot sector has loaded is at address 0 when the processor enters protected
mode (`boot_system`).
-/

namespace NeuOs.Boot

open Region

/-! ## The code -/

/-- What the BIOS answers. -/
structure Hardware where
  /-- Service 3 of `int $0x10`: the position of the cursor. -/
  cursor : BitVec 16
  /-- Service `0x88` of `int $0x15`: the size of extended memory. -/
  extended : BitVec 16
  /-- Service `0x0f` of `int $0x10`: the registers `bx` and `ax`. -/
  mode : BitVec 16 × BitVec 16
  /-- Service `0x12` of `int $0x10`: the registers `ax`, `bx` and `cx`. -/
  video : BitVec 16 × BitVec 16 × BitVec 16
  /-- Service `0x15` of `int $0x13`: the second disk is there. -/
  disk1 : Bool

/-- A word is stored. -/
def store16 (mem : Memory) (a : ℕ) (w : BitVec 16) : Memory :=
  Function.update (Function.update mem a (w.setWidth 8)) (a + 1) ((w >>> 8).setWidth 8)

/-- A word is loaded. -/
def load16 (mem : Memory) (a : ℕ) : ℕ := (mem a).toNat + 256 * (mem (a + 1)).toNat

/-- `rep movsb` with the direction flag clear. -/
def repMovsb (ds es : ℕ) : (cx si di : ℕ) → Memory → Memory
  | 0, _, _, mem => mem
  | cx + 1, si, di, mem =>
    repMovsb ds es cx ((si + 1) % 2 ^ 16) ((di + 1) % 2 ^ 16)
      (Function.update mem (phys es di) (mem (phys ds si)))

/-- `rep stosb` with the direction flag clear. -/
def repStosb (es : ℕ) (al : Byte) : (cx di : ℕ) → Memory → Memory
  | 0, _, mem => mem
  | cx + 1, di, mem =>
    repStosb es al cx ((di + 1) % 2 ^ 16) (Function.update mem (phys es di) al)

/-- `lds` and `rep movsb`: the table to which the vector `v` points is copied to `di`. -/
def saveTable (v di : ℕ) (mem : Memory) : Memory :=
  repMovsb (load16 mem (4 * v + 2)) initSeg 0x10 (load16 mem (4 * v)) di mem

/-- `_start`, up to the label `is_disk1`. -/
def saveParameters (hw : Hardware) (mem : Memory) : Memory :=
  let mem := store16 mem (phys initSeg 0) hw.cursor
  let mem := store16 mem (phys initSeg 2) hw.extended
  let mem := store16 mem (phys initSeg 4) hw.mode.1
  let mem := store16 mem (phys initSeg 6) hw.mode.2
  let mem := store16 mem (phys initSeg 8) hw.video.1
  let mem := store16 mem (phys initSeg 10) hw.video.2.1
  let mem := store16 mem (phys initSeg 12) hw.video.2.2
  let mem := saveTable 0x41 0x0080 mem
  let mem := saveTable 0x46 0x0090 mem
  if hw.disk1 then mem else repStosb initSeg 0 0x10 0x0090 mem

/-- `do_move`, with the segment in `ax`. -/
def doMove : (fuel : ℕ) → (ax : ℕ) → Memory → Option Memory
  | 0, _, _ => none
  | fuel + 1, ax, mem =>
    let es := ax
    let ax := (ax + 0x1000) % 2 ^ 16
    if ax = 0x9000 then some mem else doMove fuel ax (repMovsw ax es 0x8000 0 0 mem)

/-- `setup`, up to the label `end_move`. -/
def setup (hw : Hardware) (fuel : ℕ) (mem : Memory) : Option Memory :=
  doMove fuel 0 (saveParameters hw mem)

/-! ## The parameters -/

variable {hw : Hardware} {mem mem' : Memory}

theorem frame_update {a dst n : ℕ} {b : Byte} (h : Frame dst n mem mem') (ha : dst ≤ a)
    (ha' : a < dst + n) : Frame dst n mem (Function.update mem' a b) := fun c hc => by
  rw [Function.update_of_ne (by omega)]
  exact h c hc

theorem frame_store16 {a dst n : ℕ} {w : BitVec 16} (h : Frame dst n mem mem') (ha : dst ≤ a)
    (ha' : a + 1 < dst + n) : Frame dst n mem (store16 mem' a w) :=
  frame_update (frame_update h ha (by omega)) (by omega) ha'

theorem frame_repMovsb {ds es dst n : ℕ} (cx si di : ℕ) (h : Frame dst n mem mem')
    (hdi : di + cx < 2 ^ 16) (hdst : dst ≤ phys es di) (hn : phys es di + cx ≤ dst + n) :
    Frame dst n mem (repMovsb ds es cx si di mem') := by
  induction cx generalizing si di mem' with
  | zero => exact h
  | succ cx ih =>
    have hes : phys es ((di + 1) % 2 ^ 16) = phys es di + 1 := by simp only [phys]; omega
    exact ih _ _ (frame_update h hdst (by omega)) (by omega) (by omega) (by omega)

theorem frame_repStosb {es dst n : ℕ} {al : Byte} (cx di : ℕ) (h : Frame dst n mem mem')
    (hdi : di + cx < 2 ^ 16) (hdst : dst ≤ phys es di) (hn : phys es di + cx ≤ dst + n) :
    Frame dst n mem (repStosb es al cx di mem') := by
  induction cx generalizing di mem' with
  | zero => exact h
  | succ cx ih =>
    have hes : phys es ((di + 1) % 2 ^ 16) = phys es di + 1 := by simp only [phys]; omega
    exact ih _ (frame_update h hdst (by omega)) (by omega) (by omega) (by omega)

theorem phys_initSeg (i : ℕ) : phys initSeg i = 0x90000 + i := rfl

theorem frame_saveTable {v di : ℕ} (h : Frame 0x90000 0xa0 mem mem') (hdi : di ≤ 0x90) :
    Frame 0x90000 0xa0 mem (saveTable v di mem') :=
  frame_repMovsb _ _ _ h (by omega) (by rw [phys_initSeg]; omega) (by rw [phys_initSeg]; omega)

/-- The parameters take the place of the boot sector. -/
theorem frame_saveParameters (hw : Hardware) (mem : Memory) :
    Frame 0x90000 0xa0 mem (saveParameters hw mem) := by
  rw [saveParameters]
  simp only [phys_initSeg]
  have htables : ∀ {mem'}, Frame 0x90000 0xa0 mem mem' →
      Frame 0x90000 0xa0 mem (saveTable 0x46 0x0090 (saveTable 0x41 0x0080 mem')) := fun h =>
    frame_saveTable (frame_saveTable h (by omega)) (by omega)
  split_ifs
  · refine htables ?_
    iterate 7 refine frame_store16 ?_ (by omega) (by omega)
    exact .refl
  · refine frame_repStosb 0x10 0x0090 (htables ?_) (by omega) (by rw [phys_initSeg]; omega)
      (by simp only [phys_initSeg, Nat.le_refl])
    iterate 7 refine frame_store16 ?_ (by omega) (by omega)
    exact .refl

/-! ## The move -/

/-- With `n` pieces of 64 KB left, the rest of the memory below `0x90000` is moved. -/
theorem copied_doMove {q n : ℕ} (mem₀ : Memory) {mem : Memory} (hq : q + n = 8)
    (h : Copied 0 (0x10000 * q) (fun i => mem₀ (0x10000 + i)) mem₀ mem) :
    ∃ mem', doMove (n + 1) (0x1000 * q) mem = some mem' ∧
      Copied 0 0x80000 (fun i => mem₀ (0x10000 + i)) mem₀ mem' := by
  induction n generalizing q mem with
  | zero =>
    obtain rfl : q = 8 := hq
    exact ⟨mem, rfl, h⟩
  | succ n ih =>
    have hseg : (0x1000 * q + 0x1000) % 2 ^ 16 = 0x1000 * (q + 1) := by omega
    have hcopy := copied_repMovsw (0x1000 * (q + 1)) (0x1000 * q) 0x8000 0 0 mem
      (by norm_num) (by norm_num) (.inl (by simp only [phys]; omega))
    have hdst : phys (0x1000 * q) 0 = 0 + 0x10000 * q := by simp only [phys]; omega
    rw [hdst] at hcopy
    -- the piece that is moved has not been overwritten yet
    have hext := h.extend (hcopy.congr fun i hi => by
      rw [h.frame _ (by simp only [phys]; omega)]
      exact congrArg mem₀ (by simp only [phys]; omega))
    obtain ⟨mem', hmove, hcopied⟩ := ih (q := q + 1) (by omega) hext
    refine ⟨mem', ?_, hcopied⟩
    rw [doMove]
    simp only [hseg]
    rw [if_neg (by omega)]
    exact hmove

/-- `setup` moves the memory below `0x90000` down by 64 KB. -/
theorem setup_moves (hw : Hardware) (mem : Memory) :
    ∃ mem', setup hw 9 mem = some mem' ∧ (∀ a < 0x80000, mem' a = mem (0x10000 + a)) ∧
      ∀ a, 0x80000 ≤ a → a < 0x90000 ∨ 0x900a0 ≤ a → mem' a = mem a := by
  have hsave := frame_saveParameters hw mem
  obtain ⟨mem', hmove, hcopied⟩ := @copied_doMove 0 8 (saveParameters hw mem) _
    rfl .zero
  refine ⟨mem', hmove, fun a ha => ?_, fun a ha ha' => ?_⟩
  · have := hcopied.holds a ha
    rw [Nat.zero_add] at this
    exact this.trans (hsave _ (by omega))
  · exact (hcopied.frame a (by omega)).trans (hsave _ (by omega))

/-- From the start of the boot sector to protected mode: the system on the disk is in memory from
    address 0 on. -/
theorem boot_system {bios : Bios} {f : Floppy} (hb : bios.Serves f) (mem : Memory)
    (hw : Hardware) :
    ∃ n mem', (run bios mem n).label = .done ∧ setup hw 9 (run bios mem n).mem = some mem' ∧
      Holds mem' 0 (16 * sysSize) (image f) ∧
      Holds mem' 0x90200 (512 * setupLen) fun i => f.content (512 + i) := by
  obtain ⟨n, hdone, hlow, hsys⟩ := bootsect_loads hb mem
  obtain ⟨mem', hset, hmoved, hrest⟩ := setup_moves hw (run bios mem n).mem
  refine ⟨n, mem', hdone, hset, fun i hi => ?_, fun i hi => ?_⟩
  · simp only [sysSize] at hi
    rw [Nat.zero_add, hmoved i (by omega)]
    exact hsys i hi
  · simp only [setupLen] at hi
    rw [hrest _ (by omega) (by omega)]
    exact hlow i hi

theorem boot_system_flaky : ∃ n mem', (run flakyBios coldMemory n).label = .done ∧
    setup ⟨0, 0, (0, 0), (0, 0, 0), false⟩ 9 (run flakyBios coldMemory n).mem = some mem' ∧
    Holds mem' 0 (16 * sysSize) (image floppy) ∧
    Holds mem' 0x90200 (512 * setupLen) fun i => floppy.content (512 + i) :=
  boot_system flakyBios_serves coldMemory _

end NeuOs.Boot
