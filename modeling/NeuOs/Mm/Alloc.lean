import Mathlib.Order.Interval.Finset.Nat
import Mathlib.Tactic.SplitIfs
import NeuOs.Lib.Count
import NeuOs.Mm.Memory

/-!
# The page allocator

What the functions on single pages compute, in terms of frames: a frame `f`
holds the words `1024 * f, …, 1024 * f + 1023` of memory, and its counter is
`memMap (f - 256)`.

* `getFreePage_cases`: `get_free_page` returns the highest frame whose counter
  is zero, counted once and filled with zeros, or 0 if there is none
  (`freeFrames` is the number of such frames);
* `freePage_low`, `freePage_ok`: `free_page` ignores the pages below 1 MB and
  counts the others down;
* `memInit_eq`: after `mem_init`, the frames between the bounds are free and the
  others are not.

The last section turns the masks and shifts of addresses into arithmetic.
-/

namespace NeuOs.Mm

variable {m : Mm}

@[simp] theorem toNat_byte_zero : (0 : Byte).toNat = 0 := rfl

@[simp] theorem toNat_byte_one : (1 : Byte).toNat = 1 := rfl

/-! ## Stores -/

@[simp] theorem memMap_store (a : Nat) (v : Word) : (m.store a v).memMap = m.memMap := rfl

@[simp] theorem highMemory_store (a : Nat) (v : Word) :
    (m.store a v).highMemory = m.highMemory := rfl

@[simp] theorem phys_setCount (nr : Nat) (c : Byte) : (m.setCount nr c).phys = m.phys := rfl

theorem phys_store (a : Nat) (v : Word) (w : Nat) :
    (m.store a v).phys w = if w = a / 4 then v else m.phys w :=
  Function.update_apply _ _ _ _

theorem memMap_setCount (nr : Nat) (c : Byte) (i : Nat) :
    (m.setCount nr c).memMap i = if i = nr then c else m.memMap i :=
  Function.update_apply _ _ _ _

/-! ## `get_free_page` -/

/-- Memory with the frame `f` filled with zeros. -/
def zeroFrame (m : Mm) (f : Nat) : Mm :=
  { m with phys := fun w => if w / 1024 = f then 0 else m.phys w }

/-- Memory after the frame `f` has been handed out. -/
def alloc (m : Mm) (f : Nat) : Mm := (m.setCount (f - 256) 1).zeroFrame f

theorem phys_alloc (f w : Nat) :
    (m.alloc f).phys w = if w / 1024 = f then 0 else m.phys w := rfl

theorem memMap_alloc (f i : Nat) :
    (m.alloc f).memMap i = if i = f - 256 then 1 else m.memMap i := by
  change (m.setCount (f - 256) 1).memMap i = _
  rw [memMap_setCount]

/-- The frames above 1 MB. -/
@[irreducible] def frames : Finset Nat := Finset.Ico 256 4096

/-- The number of frames whose counter is zero. -/
def freeFrames (m : Mm) : Nat := (frames.filter fun f => m.memMap (f - 256) = 0).card

theorem mem_frames {f : Nat} : f ∈ frames ↔ 256 ≤ f ∧ f < 4096 := by
  unfold frames
  exact Finset.mem_Ico

theorem freeFrames_eq_zero :
    m.freeFrames = 0 ↔ ∀ f, 256 ≤ f → f < 4096 → m.memMap (f - 256) ≠ 0 := by
  rw [freeFrames, Finset.card_filter_eq_zero]
  exact ⟨fun h f h₁ h₂ => h f (mem_frames.2 ⟨h₁, h₂⟩), fun h f hf =>
    h f (mem_frames.1 hf).1 (mem_frames.1 hf).2⟩

theorem freeFrames_congr {m' : Mm} (h : m'.memMap = m.memMap) : m'.freeFrames = m.freeFrames := by
  rw [freeFrames, h, freeFrames]

/-- If the free frames stay free, there are not fewer of them. -/
theorem freeFrames_le {m' : Mm} (h : ∀ f, 256 ≤ f → f < 4096 → m.memMap (f - 256) = 0 →
    m'.memMap (f - 256) = 0) : m.freeFrames ≤ m'.freeFrames := by
  refine Finset.card_le_card fun f hf => ?_
  obtain ⟨hmem, h0⟩ := Finset.mem_filter.1 hf
  exact Finset.mem_filter.2 ⟨hmem, h f (mem_frames.1 hmem).1 (mem_frames.1 hmem).2 h0⟩

/-- Handing out a free frame leaves one less. -/
theorem freeFrames_alloc {f : Nat} (hge : 256 ≤ f) (hlt : f < 4096)
    (h0 : m.memMap (f - 256) = 0) : (m.alloc f).freeFrames + 1 = m.freeFrames := by
  have hchange := Finset.card_filter_change (p := fun g => m.memMap (g - 256) = 0)
    (q := fun g => (m.alloc f).memMap (g - 256) = 0) (mem_frames.2 ⟨hge, hlt⟩) fun g hg hne => by
      have := (mem_frames.1 hg).1
      rw [memMap_alloc, if_neg (by omega)]
  have hone : ¬(m.alloc f).memMap (f - 256) = 0 := by
    rw [memMap_alloc, if_pos rfl]
    decide
  rw [if_pos h0, if_neg hone] at hchange
  exact hchange

/-- `rep stosl` fills the `n` words up to the one `edi` points to. -/
theorem repStosl_eq (b n : Nat) : repStosl n (4 * b + 4 * n - 4) m =
    { m with phys := fun w => if b ≤ w ∧ w < b + n then 0 else m.phys w } := by
  induction n generalizing m with
  | zero =>
    have : ∀ w, ¬(b ≤ w ∧ w < b + 0) := fun w h => by omega
    simp only [repStosl, this, if_false]
  | succ n ih =>
    have hedi : 4 * b + 4 * (n + 1) - 4 - 4 = 4 * b + 4 * n - 4 := by omega
    rw [repStosl, hedi, ih]
    congr 1
    funext w
    rw [phys_store]
    by_cases hw : b ≤ w ∧ w < b + n
    · rw [if_pos hw, if_pos (by omega)]
    · rw [if_neg hw]
      by_cases he : w = (4 * b + 4 * (n + 1) - 4) / 4
      · rw [if_pos he, if_pos (by omega)]
      · rw [if_neg he, if_neg (by omega)]

/-- `repne scasb` runs through all the bytes if none is zero, and else stops at
    the last one that is, leaving its index in `ecx`. -/
theorem repneScasb_cases (map : Nat → Byte) (n : Nat) :
    ((repneScasb map n (n - 1)).2.2 = false ∧ ∀ i < n, map i ≠ 0) ∨
      ∃ i < n, map i = 0 ∧ (∀ j, i < j → j < n → map j ≠ 0) ∧
        repneScasb map n (n - 1) = (i, (i : Int) - 1, true) := by
  induction n with
  | zero => exact .inl ⟨rfl, fun i hi => absurd hi (Nat.not_lt_zero i)⟩
  | succ n ih =>
    have hedi : ((n + 1 : Nat) : Int) - 1 = n := by omega
    rw [hedi, repneScasb, Int.toNat_natCast]
    by_cases h0 : map n = 0
    · rw [if_pos h0]
      exact .inr ⟨n, n.lt_succ_self, h0, fun j h₁ h₂ => by omega, rfl⟩
    · rw [if_neg h0]
      rcases ih with ⟨hf, hall⟩ | ⟨i, hi, hi0, hmax, heq⟩
      · refine .inl ⟨hf, fun i hi => ?_⟩
        rcases Nat.lt_succ_iff_lt_or_eq.1 hi with hi | rfl
        · exact hall i hi
        · exact h0
      · refine .inr ⟨i, hi.trans n.lt_succ_self, hi0, fun j h₁ h₂ => ?_, heq⟩
        rcases Nat.lt_succ_iff_lt_or_eq.1 h₂ with h₂ | rfl
        · exact hmax j h₁ h₂
        · exact h0

/-- `get_free_page` leaves everything as it is if no counter is zero; otherwise
    it hands out the highest free frame. -/
theorem getFreePage_cases (m : Mm) :
    (m.getFreePage = (0, m) ∧ m.freeFrames = 0) ∨
      ∃ f, 256 ≤ f ∧ f < 4096 ∧ m.memMap (f - 256) = 0 ∧
        (∀ g, f < g → g < 4096 → m.memMap (g - 256) ≠ 0) ∧
        m.getFreePage = (4096 * f, m.alloc f) := by
  have hpages : pagingPages = 3840 := rfl
  rcases repneScasb_cases m.memMap pagingPages with ⟨hf, hall⟩ | ⟨i, hi, hi0, hmax, heq⟩
  · refine .inl ⟨?_, freeFrames_eq_zero.2 fun f h₁ h₂ => hall _ (by omega)⟩
    unfold getFreePage
    split <;> simp_all
  · refine .inr ⟨i + 256, by omega, by omega, by simpa using hi0, fun g h₁ h₂ => ?_, ?_⟩
    · exact hmax (g - 256) (by omega) (by omega)
    · have hpage : i <<< 12 + lowMem = 4096 * (i + 256) := by
        rw [Nat.shiftLeft_eq, lowMem]
        omega
      have hedi : 4096 * (i + 256) + 4092 = 4 * (1024 * (i + 256)) + 4 * 1024 - 4 := by omega
      unfold getFreePage
      rw [heq]
      simp only [hpage, Int.sub_add_cancel, Int.toNat_natCast]
      rw [hedi, repStosl_eq, alloc, Nat.add_sub_cancel, zeroFrame]
      congr 2
      funext w
      by_cases hw : w / 1024 = i + 256
      · rw [if_pos (by omega), if_pos hw]
      · rw [if_neg (by omega), if_neg hw]

/-! ## `free_page` -/

/-- Memory with the frame `f` counted down. -/
def decr (m : Mm) (f : Nat) : Mm := m.setCount (f - 256) (m.memMap (f - 256) - 1)

/-- Memory with the frame `f` counted up. -/
def incr (m : Mm) (f : Nat) : Mm := m.setCount (f - 256) (m.memMap (f - 256) + 1)

@[simp] theorem phys_decr (f : Nat) : (m.decr f).phys = m.phys := rfl

@[simp] theorem phys_incr (f : Nat) : (m.incr f).phys = m.phys := rfl

theorem memMap_incr (f : Nat) : (m.incr f).memMap =
    Function.update m.memMap (f - 256) (m.memMap (f - 256) + 1) := rfl

@[simp] theorem highMemory_decr (f : Nat) : (m.decr f).highMemory = m.highMemory := rfl

theorem memMap_decr (f i : Nat) : (m.decr f).memMap i =
    if i = f - 256 then m.memMap (f - 256) - 1 else m.memMap i := memMap_setCount _ _ _

theorem mapNr_frame (f : Nat) : mapNr (4096 * f) = f - 256 := by
  rw [mapNr, lowMem, Nat.shiftRight_eq_div_pow]
  omega

/-- `free_page` does not touch the pages of the kernel. -/
theorem freePage_low {f : Nat} (hf : f < 256) : m.freePage (4096 * f) = .ok m := by
  rw [freePage, if_pos (by rw [lowMem]; omega)]

/-- `free_page` counts a used page down. -/
theorem freePage_ok {f : Nat} (hlo : 256 ≤ f) (hhi : 4096 * f < m.highMemory)
    (h : m.memMap (f - 256) ≠ 0) : m.freePage (4096 * f) = .ok (m.decr f) := by
  rw [freePage, if_neg (by rw [lowMem]; omega), if_neg (by omega), mapNr_frame, if_pos h, decr]

/-! ## `mem_init` -/

theorem markUsed_eq (map : Nat → Byte) (n i : Nat) :
    markUsed n map i = if i < n then used else map i := by
  induction n with
  | zero => rw [markUsed, if_neg (Nat.not_lt_zero i)]
  | succ n ih =>
    rw [markUsed, Function.update_apply, ih]
    split_ifs <;> first | rfl | omega

theorem markFree_eq (map : Nat → Byte) (n i j : Nat) :
    markFree n i map j = if i ≤ j ∧ j < i + n then 0 else map j := by
  induction n generalizing i map with
  | zero => rw [markFree, if_neg (by omega)]
  | succ n ih =>
    rw [markFree, ih, Function.update_apply]
    split_ifs <;> first | rfl | omega

/-- After `mem_init`, the frames from `lo` up to `hi` are free, and the other
    frames above 1 MB are used. -/
theorem memMap_memInit {lo hi : Nat} (hlo : 256 ≤ lo) (h : lo ≤ hi) {f : Nat}
    (hf : 256 ≤ f) (hf' : f < 4096) : (m.memInit (4096 * lo) (4096 * hi)).memMap (f - 256) =
      if lo ≤ f ∧ f < hi then 0 else used := by
  have hcount : (4096 * hi - 4096 * lo) >>> 12 = hi - lo := by
    rw [Nat.shiftRight_eq_div_pow]
    omega
  have hpages : pagingPages = 3840 := rfl
  rw [memInit, hcount, mapNr_frame]
  simp only [markFree_eq, markUsed_eq]
  split_ifs <;> first | rfl | omega

/-! ## Addresses -/

theorem and_shiftLeft (x k i : Nat) : x &&& (k <<< i) = ((x >>> i) &&& k) <<< i := by
  refine Nat.eq_of_testBit_eq fun j => ?_
  simp only [Nat.testBit_and, Nat.testBit_shiftLeft, Nat.testBit_shiftRight]
  by_cases hj : i ≤ j
  · simp [hj]
  · simp [hj]

theorem dirEntry_eq (a : Nat) : dirEntry a = 4 * (a / 2 ^ 22 % 1024) := by
  rw [dirEntry, show (0xffc : Nat) = (2 ^ 10 - 1) <<< 2 from rfl, and_shiftLeft,
    Nat.and_two_pow_sub_one_eq_mod, ← Nat.shiftRight_add, Nat.shiftRight_eq_div_pow,
    Nat.shiftLeft_eq]
  omega

/-- `(address >> 10) & 0xffc`: the offset of an entry in its page table. -/
theorem tableOffset_eq (a : Nat) : (a >>> 10) &&& 0xffc = 4 * (a / 4096 % 1024) := by
  rw [show (0xffc : Nat) = (2 ^ 10 - 1) <<< 2 from rfl, and_shiftLeft,
    Nat.and_two_pow_sub_one_eq_mod, ← Nat.shiftRight_add, Nat.shiftRight_eq_div_pow,
    Nat.shiftLeft_eq]
  omega

theorem tableIndex_eq (a : Nat) : (a >>> 12) &&& 0x3ff = a / 4096 % 1024 := by
  rw [show (0x3ff : Nat) = 2 ^ 10 - 1 from rfl, Nat.and_two_pow_sub_one_eq_mod,
    Nat.shiftRight_eq_div_pow]

theorem pageAlign_eq {a : Nat} (h : a < 2 ^ 32) : a &&& 0xfffff000 = 4096 * (a / 4096) := by
  rw [show (0xfffff000 : Nat) = (2 ^ 20 - 1) <<< 12 from rfl, and_shiftLeft,
    Nat.and_two_pow_sub_one_eq_mod, Nat.shiftRight_eq_div_pow, Nat.shiftLeft_eq]
  omega

theorem and_alignment_eq (a : Nat) : a &&& 0x3fffff = a % 2 ^ 22 := by
  rw [show (0x3fffff : Nat) = 2 ^ 22 - 1 from rfl, Nat.and_two_pow_sub_one_eq_mod]

theorem dirCount_eq {size : Nat} (h : size ≤ 0x4000000) :
    dirCount size = (size + 0x3fffff) / 2 ^ 22 := by
  rw [dirCount, Nat.mod_eq_of_lt (by omega), Nat.shiftRight_eq_div_pow]

end NeuOs.Mm
