import Mathlib.Data.Nat.Bits
import Mathlib.Tactic.IntervalCases

/-!
# Page table entries

A 32-bit word read as an entry of the page directory or of a page table: bit 0
is the present flag, bit 1 the write flag, bit 2 the user flag, and the upper
20 bits are the address of a page. The kernel builds and takes apart entries
with masks (`| 7`, `| 2`, `& ~2`, `& 0xfffff000`); the lemmas of this module say
what each mask does to the flags and to the frame.
-/

namespace NeuOs

/-- A 32-bit machine word (`long`, `unsigned long`). -/
abbrev Word := BitVec 32

/-- `e & 1`: the page, or the page table, is present. -/
def Present (e : Word) : Prop := e &&& 1#32 ≠ 0#32

/-- `e & 2`: the page may be written in user mode. -/
def Writable (e : Word) : Prop := e &&& 2#32 ≠ 0#32

instance : DecidablePred Present := fun e => inferInstanceAs (Decidable (e &&& 1#32 ≠ 0#32))

instance : DecidablePred Writable := fun e => inferInstanceAs (Decidable (e &&& 2#32 ≠ 0#32))

/-- `0xfffff000 & e`: the physical address of the page an entry points to. -/
def pageOf (e : Word) : Nat := (0xfffff000#32 &&& e).toNat

/-- The number of the page frame an entry points to. -/
def frameOf (e : Word) : Nat := e.toNat / 4096

/-- `page | 7`: the entry of a page that is present, writable and user. -/
def entryOf (page : Nat) : Word := BitVec.ofNat 32 page ||| 7#32

/-- `e & ~2`: the entry without its write flag. -/
def readOnly (e : Word) : Word := e &&& ~~~2#32

/-- `e | 2`: the entry with its write flag. -/
def writeEnable (e : Word) : Word := e ||| 2#32

theorem present_iff {e : Word} : Present e ↔ e.getLsbD 0 = true := by
  rw [Present, show (1#32 : Word) = BitVec.twoPow 32 0 from rfl, BitVec.and_twoPow]
  have hne : BitVec.twoPow 32 0 ≠ 0#32 := by decide
  split <;> simp_all

theorem writable_iff {e : Word} : Writable e ↔ e.getLsbD 1 = true := by
  rw [Writable, show (2#32 : Word) = BitVec.twoPow 32 1 from rfl, BitVec.and_twoPow]
  have hne : BitVec.twoPow 32 1 ≠ 0#32 := by decide
  split <;> simp_all

theorem frameOf_eq_shift (e : Word) : frameOf e = (e >>> 12).toNat := by
  rw [BitVec.toNat_ushiftRight, Nat.shiftRight_eq_div_pow]
  rfl

/-- Two entries whose upper 20 bits agree point to the same frame. -/
theorem frameOf_congr {e e' : Word} (h : ∀ i, 12 ≤ i → i < 32 → e.getLsbD i = e'.getLsbD i) :
    frameOf e = frameOf e' := by
  rw [frameOf_eq_shift, frameOf_eq_shift]
  congr 1
  refine BitVec.eq_of_getLsbD_eq fun i _ => ?_
  rw [BitVec.getLsbD_ushiftRight, BitVec.getLsbD_ushiftRight]
  by_cases hi : 12 + i < 32
  · exact h _ (by omega) hi
  · rw [BitVec.getLsbD_of_ge _ _ (by omega), BitVec.getLsbD_of_ge _ _ (by omega)]

theorem frameOf_lt (e : Word) : frameOf e < 2 ^ 20 := by
  have := e.isLt
  rw [frameOf]
  omega

@[simp] theorem pageOf_eq (e : Word) : pageOf e = 4096 * frameOf e := by
  have hmask : (0xfffff000#32 &&& e) = (e >>> 12) <<< 12 := by
    refine BitVec.eq_of_getLsbD_eq fun i hi => ?_
    interval_cases i <;> simp
  have := frameOf_lt e
  rw [pageOf, hmask, BitVec.toNat_shiftLeft, ← frameOf_eq_shift, Nat.shiftLeft_eq]
  omega

@[simp] theorem frameOf_readOnly (e : Word) : frameOf (readOnly e) = frameOf e := by
  refine frameOf_congr fun i h12 h32 => ?_
  interval_cases i <;> simp [readOnly]

@[simp] theorem present_readOnly {e : Word} : Present (readOnly e) ↔ Present e := by
  simp [present_iff, readOnly]

@[simp] theorem not_writable_readOnly (e : Word) : ¬Writable (readOnly e) := by
  simp [writable_iff, readOnly]

/-- An entry without the write flag is left as it is by `& ~2`. -/
theorem readOnly_of_not_writable {e : Word} (h : ¬Writable e) : readOnly e = e := by
  rw [writable_iff] at h
  refine BitVec.eq_of_getLsbD_eq fun i hi => ?_
  interval_cases i <;> simp_all [readOnly]

@[simp] theorem frameOf_writeEnable (e : Word) : frameOf (writeEnable e) = frameOf e := by
  refine frameOf_congr fun i h12 h32 => ?_
  interval_cases i <;> simp [writeEnable]

@[simp] theorem present_writeEnable {e : Word} : Present (writeEnable e) ↔ Present e := by
  simp [present_iff, writeEnable]

@[simp] theorem writable_writeEnable (e : Word) : Writable (writeEnable e) := by
  simp [writable_iff, writeEnable]

@[simp] theorem present_entryOf (page : Nat) : Present (entryOf page) := by
  simp [present_iff, entryOf]

@[simp] theorem writable_entryOf (page : Nat) : Writable (entryOf page) := by
  simp [writable_iff, entryOf]

theorem frameOf_entryOf {f : Nat} (hf : f < 2 ^ 20) : frameOf (entryOf (4096 * f)) = f := by
  have hsame : frameOf (entryOf (4096 * f)) = frameOf (BitVec.ofNat 32 (4096 * f)) := by
    refine frameOf_congr fun i h12 h32 => ?_
    interval_cases i <;> simp [entryOf]
  rw [hsame, frameOf, BitVec.toNat_ofNat]
  omega

@[simp] theorem not_present_zero : ¬Present 0#32 := by decide

/-- `(e & 3) == 1`: present, and not writable. -/
theorem and_three_eq_one {e : Word} : e &&& 3#32 = 1#32 ↔ Present e ∧ ¬Writable e := by
  rw [present_iff, writable_iff]
  constructor
  · intro h
    have h0 := congrArg (·.getLsbD 0) h
    have h1 := congrArg (·.getLsbD 1) h
    simpa using And.intro h0 h1
  · rintro ⟨h0, h1⟩
    refine BitVec.eq_of_getLsbD_eq fun i hi => ?_
    interval_cases i <;> simp_all

/-- A present entry with a frame other than those below 1 MB lies above
    `LOW_MEM`, and conversely: the flags make it larger than the bound. -/
theorem lowMem_lt_iff {e : Word} (h : Present e) : 0x100000 < e.toNat ↔ 256 ≤ frameOf e := by
  have hodd : e.toNat % 2 = 1 := by
    rw [present_iff, BitVec.getLsbD, Nat.testBit_zero] at h
    simpa using h
  rw [frameOf]
  omega

end NeuOs
