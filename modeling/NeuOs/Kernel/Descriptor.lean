import NeuOs.Kernel.User

/-!
# Descriptors (include/asm/system.h, include/linux/sched.h)

A descriptor is 8 bytes in memory, among which its base, its limit or its offset are scattered. The
macros put them there with moves of bytes and words, and rotations of the register. What the
processor makes of the bytes is `base`, `limit` and `access` for a segment, and `offset`,
`selector`, `kind` and `dpl` for a gate.

* `set_base` and `get_base` are inverse to each other, and `set_base` leaves the limit and the
  access byte (`getBase_setBase`, `limit_setBase`);
* `set_tss_desc` and `set_ldt_desc` write the whole descriptor (`tssldt_spec`);
* a gate leads to the function it is set to (`gate_spec`).
-/

namespace NeuOs

/-- The bytes of `struct desc_struct`. -/
abbrev Descriptor := ℕ → Byte

namespace Descriptor

/-- `movw`, to the offset `n`: the low half of the register. -/
def movw (d : Descriptor) (n : ℕ) (w : Word) : Descriptor :=
  Function.update (Function.update d n (getByte w 0)) (n + 1) (getByte w 1)

/-- `movl`, to the offset `n`. -/
def movl (d : Descriptor) (n : ℕ) (w : Word) : Descriptor :=
  (d.movw n w).movw (n + 2) (w >>> 16)

/-- `movb`, to the offset `n`. -/
def movb (d : Descriptor) (n : ℕ) (b : Byte) : Descriptor := Function.update d n b

/-- `rorl $16`. -/
def rorl (w : Word) : Word := w.rotateRight 16

/-- The two words of a descriptor. -/
def ofWords (a b : Word) : Descriptor :=
  movl (movl (fun _ => 0) 0 a) 4 b

/-! ## The macros -/

/-- `_set_base`. -/
def setBase (d : Descriptor) (base : Word) : Descriptor :=
  let edx := base
  let d := d.movw 2 edx
  let edx := rorl edx
  let d := d.movb 4 (getByte edx 0)
  d.movb 7 (getByte edx 1)

/-- `_get_base`, from what is in the register. -/
def getBase (d : Descriptor) (edx : Word) : Word :=
  let edx := setByte edx 1 (d 7)
  let edx := setByte edx 0 (d 4)
  let edx := edx <<< 16
  -- `movw`
  setByte (setByte edx 0 (d 2)) 1 (d 3)

/-- `get_limit`: `lsll`, which scales the limit if it is in pages, and `incl`. -/
def getLimit (d : Descriptor) : ℕ :=
  let limit := (d 0).toNat + 2 ^ 8 * (d 1).toNat + 2 ^ 16 * ((d 6).toNat % 16)
  let limit := if (d 6).getLsbD 7 then limit * 4096 + 0xfff else limit
  (limit + 1) % 2 ^ 32

/-- `_set_tssldt_desc`. -/
def setTssldtDesc (d : Descriptor) (addr : Word) (type : Byte) : Descriptor :=
  let d := d.movw 0 104
  let eax := addr
  let d := d.movw 2 eax
  let eax := rorl eax
  let d := d.movb 4 (getByte eax 0)
  let d := d.movb 5 type
  let d := d.movb 6 0
  d.movb 7 (getByte eax 1)

/-- `set_tss_desc`. -/
def setTssDesc (d : Descriptor) (addr : Word) : Descriptor := d.setTssldtDesc addr 0x89

/-- `set_ldt_desc`. -/
def setLdtDesc (d : Descriptor) (addr : Word) : Descriptor := d.setTssldtDesc addr 0x82

/-- `_set_gate`. -/
def setGate (d : Descriptor) (type dpl : ℕ) (funaddr : Word) : Descriptor :=
  let eax : Word := 0x00080000
  let edx := funaddr
  -- `movw %dx, %ax`
  let eax := setByte (setByte eax 0 (getByte edx 0)) 1 (getByte edx 1)
  let imm : Word := BitVec.ofNat 32 (0x8000 + (dpl <<< 13) + (type <<< 8))
  let edx := setByte (setByte edx 0 (getByte imm 0)) 1 (getByte imm 1)
  (d.movl 0 eax).movl 4 edx

/-! ## What the processor makes of the bytes -/

/-- The base of a segment. -/
def base (d : Descriptor) : Word := wordOf [d 2, d 3, d 4, d 7]

/-- The limit of a segment, in units. -/
def limit (d : Descriptor) : ℕ :=
  (d 0).toNat + 2 ^ 8 * (d 1).toNat + 2 ^ 16 * ((d 6).toNat % 16)

/-- The access byte: present, privilege level, type. -/
def access (d : Descriptor) : Byte := d 5

/-- The address of the function of a gate. -/
def offset (d : Descriptor) : Word := wordOf [d 0, d 1, d 6, d 7]

/-- The selector of a gate. -/
def selector (d : Descriptor) : ℕ := (d 2).toNat + 2 ^ 8 * (d 3).toNat

/-- The type of a gate. -/
def kind (d : Descriptor) : ℕ := (d 5).toNat % 16

/-- The level from which a gate may be called. -/
def dpl (d : Descriptor) : ℕ := (d 5).toNat / 32 % 4

/-- The descriptor is there. -/
def present (d : Descriptor) : Bool := (d 5).getLsbD 7

/-! ## Bytes of words -/

variable {d : Descriptor} {w v : Word} {b : Byte} {i n : ℕ}

theorem eq_of_getByte (h : ∀ i < 4, getByte w i = getByte v i) : w = v := by
  refine BitVec.eq_of_getLsbD_eq fun j hj => ?_
  have hbit := congrArg (fun b : Byte => b.getLsbD (j % 8)) (h (j / 8) (by omega))
  simpa [getByte, Nat.mod_lt, Nat.div_add_mod] using hbit

theorem getByte_rorl (hi : i < 2) : getByte (rorl w) i = getByte w (i + 2) := by
  refine BitVec.eq_of_getLsbD_eq fun j hj => ?_
  have hlt : 8 * i + j < 16 := by omega
  simp [getByte, rorl, BitVec.getLsbD_rotateRight, hlt]
  rw [show 16 + (8 * i + j) = 8 * (i + 2) + j by omega]

theorem getByte_shiftRight : getByte (w >>> 16) i = getByte w (i + 2) := by
  refine BitVec.eq_of_getLsbD_eq fun j hj => ?_
  simp [getByte, hj]
  rw [show 16 + (8 * i + j) = 8 * (i + 2) + j by omega]

theorem getByte_shiftLeft (hi : i < 4) :
    getByte (w <<< 16) i = if i < 2 then 0 else getByte w (i - 2) := by
  refine BitVec.eq_of_getLsbD_eq fun j hj => ?_
  split_ifs with h
  · simp [getByte, show 8 * i + j < 16 by omega]
  · simp only [getByte, BitVec.getLsbD_extractLsb', BitVec.getLsbD_shiftLeft, hj, decide_true,
      Bool.true_and, show 8 * i + j < 32 by omega, show ¬8 * i + j < 16 by omega, decide_false,
      Bool.not_false, show 8 * i + j - 16 = 8 * (i - 2) + j by omega]

theorem getByte_wordOf {b₀ b₁ b₂ b₃ : Byte} :
    getByte (wordOf [b₀, b₁, b₂, b₃]) 0 = b₀ ∧ getByte (wordOf [b₀, b₁, b₂, b₃]) 1 = b₁ ∧
      getByte (wordOf [b₀, b₁, b₂, b₃]) 2 = b₂ ∧ getByte (wordOf [b₀, b₁, b₂, b₃]) 3 = b₃ := by
  refine ⟨?_, ?_, ?_, ?_⟩
  all_goals
    refine BitVec.eq_of_getLsbD_eq fun j hj => ?_
    simp [wordOf, getByte, hj]
    grind

/-- A word is made of its bytes. -/
theorem wordOf_getByte (w : Word) :
    wordOf [getByte w 0, getByte w 1, getByte w 2, getByte w 3] = w := by
  obtain ⟨h₀, h₁, h₂, h₃⟩ := @getByte_wordOf (getByte w 0) (getByte w 1) (getByte w 2) (getByte w 3)
  refine eq_of_getByte fun i hi => ?_
  rcases (by omega : i = 0 ∨ i = 1 ∨ i = 2 ∨ i = 3) with rfl | rfl | rfl | rfl
  · exact h₀
  · exact h₁
  · exact h₂
  · exact h₃

theorem movw_apply :
    d.movw n w i = if i = n then getByte w 0 else if i = n + 1 then getByte w 1 else d i := by
  rw [movw, Function.update_apply, Function.update_apply]
  split_ifs <;> first | rfl | omega

theorem movl_apply : d.movl n w i = if n ≤ i ∧ i < n + 4 then getByte w (i - n) else d i := by
  rw [movl, movw_apply, movw_apply, getByte_shiftRight, getByte_shiftRight]
  split_ifs with h₁ h₂ h₃ h₄ h₅ <;> first | omega | rfl | (subst i; congr 1; omega)

/-! ## Bases -/

/-- The bytes of the base, after `_set_base`. -/
theorem setBase_apply : d.setBase w i =
    if i = 2 then getByte w 0 else if i = 3 then getByte w 1 else if i = 4 then getByte w 2
    else if i = 7 then getByte w 3 else d i := by
  rw [setBase, movb, Function.update_apply, movb, Function.update_apply, movw_apply,
    getByte_rorl (by norm_num), getByte_rorl (by norm_num)]
  split_ifs <;> first | rfl | omega

/-- `_get_base` is the base, whatever is in the register before. -/
theorem getBase_eq (d : Descriptor) (edx : Word) : d.getBase edx = d.base := by
  obtain ⟨h₀, h₁, h₂, h₃⟩ := @getByte_wordOf (d 2) (d 3) (d 4) (d 7)
  refine eq_of_getByte fun i hi => ?_
  rw [getBase, base]
  rcases (by omega : i = 0 ∨ i = 1 ∨ i = 2 ∨ i = 3) with rfl | rfl | rfl | rfl
  · rw [h₀, getByte_setByte (by norm_num) hi, if_neg (by norm_num),
      getByte_setByte (by norm_num) hi, if_pos rfl]
  · rw [h₁, getByte_setByte (by norm_num) hi, if_pos rfl]
  · rw [h₂, getByte_setByte (by norm_num) hi, if_neg (by norm_num),
      getByte_setByte (by norm_num) hi, if_neg (by norm_num), getByte_shiftLeft hi,
      if_neg (by norm_num), getByte_setByte (by norm_num) (by norm_num), if_pos (by norm_num)]
  · rw [h₃, getByte_setByte (by norm_num) hi, if_neg (by norm_num),
      getByte_setByte (by norm_num) hi, if_neg (by norm_num), getByte_shiftLeft hi,
      if_neg (by norm_num), getByte_setByte (by norm_num) (by norm_num), if_neg (by norm_num),
      getByte_setByte (by norm_num) (by norm_num), if_pos (by norm_num)]

theorem base_setBase (d : Descriptor) (w : Word) : (d.setBase w).base = w := by
  simp only [base, setBase_apply]
  exact wordOf_getByte w

/-- `get_base` reads back what `set_base` has set, and `set_base` changes nothing else that the
    processor reads. -/
theorem getBase_setBase (d : Descriptor) (w edx : Word) :
    (d.setBase w).getBase edx = w ∧ (d.setBase w).getLimit = d.getLimit ∧
      (d.setBase w).access = d.access := by
  refine ⟨(getBase_eq _ edx).trans (base_setBase d w), ?_, ?_⟩
  · simp [getLimit, setBase_apply]
  · simp [access, setBase_apply]

/-! ## Descriptors of the GDT -/

/-- `_set_tssldt_desc` writes all bytes of the descriptor. -/
theorem setTssldtDesc_apply (hi : i < 8) : d.setTssldtDesc w b i =
    if i = 0 then 104 else if i = 1 then 0 else if i = 2 then getByte w 0
    else if i = 3 then getByte w 1 else if i = 4 then getByte w 2 else if i = 5 then b
    else if i = 6 then 0 else getByte w 3 := by
  rw [setTssldtDesc, movb, Function.update_apply, movb, Function.update_apply, movb,
    Function.update_apply, movb, Function.update_apply, movw_apply, movw_apply,
    getByte_rorl (by norm_num), getByte_rorl (by norm_num)]
  split_ifs <;> first | rfl | omega

theorem tssldt_spec (d : Descriptor) (w : Word) (b : Byte) :
    (d.setTssldtDesc w b).base = w ∧ (d.setTssldtDesc w b).limit = 104 ∧
      (d.setTssldtDesc w b).access = b := by
  refine ⟨?_, ?_, ?_⟩
  · simp only [base, setTssldtDesc_apply (show 2 < 8 by norm_num),
      setTssldtDesc_apply (show 3 < 8 by norm_num), setTssldtDesc_apply (show 4 < 8 by norm_num),
      setTssldtDesc_apply (show 7 < 8 by norm_num)]
    exact wordOf_getByte w
  · simp [limit, setTssldtDesc_apply]
  · simp [access, setTssldtDesc_apply]

/-! ## Gates -/

theorem getByte_gateWord {type level : ℕ} :
    getByte (BitVec.ofNat 32 (0x8000 + (level <<< 13) + (type <<< 8))) 0 = 0 ∧
      getByte (BitVec.ofNat 32 (0x8000 + (level <<< 13) + (type <<< 8))) 1 =
        BitVec.ofNat 8 (128 + level * 32 + type) := by
  refine ⟨BitVec.eq_of_toNat_eq ?_, BitVec.eq_of_toNat_eq ?_⟩
  · rw [getByte, BitVec.extractLsb'_toNat, BitVec.toNat_ofNat, Nat.shiftLeft_eq, Nat.shiftLeft_eq,
      Nat.shiftRight_eq_div_pow, show (0 : Byte).toNat = 0 from rfl]
    omega
  · rw [getByte, BitVec.extractLsb'_toNat, BitVec.toNat_ofNat, BitVec.toNat_ofNat,
      Nat.shiftLeft_eq, Nat.shiftLeft_eq, Nat.shiftRight_eq_div_pow]
    omega

theorem setGate_apply {type level : ℕ} (hi : i < 8) :
    d.setGate type level w i =
      if i < 2 then getByte w i else if i = 2 then 8 else if i = 3 then 0 else if i = 4 then 0
      else if i = 5 then BitVec.ofNat 8 (128 + level * 32 + type) else getByte w (i - 4) := by
  obtain ⟨hlow, hhigh⟩ := @getByte_gateWord type level
  have h2 : getByte (524288#32) 2 = 8#8 := by decide
  have h3 : getByte (524288#32) 3 = 0#8 := by decide
  simp only [setGate, movl_apply]
  rcases (by omega : i = 0 ∨ i = 1 ∨ i = 2 ∨ i = 3 ∨ i = 4 ∨ i = 5 ∨ i = 6 ∨ i = 7) with
    rfl | rfl | rfl | rfl | rfl | rfl | rfl | rfl <;>
  simp [getByte_setByte, hlow, hhigh, h2, h3]

/-- A gate leads to the function it is set to, in the code segment of the kernel, from the level
    it is set to. -/
theorem gate_spec (d : Descriptor) {type level : ℕ} (ht : type < 16) (hl : level < 4)
    (funaddr : Word) :
    (d.setGate type level funaddr).offset = funaddr ∧
      (d.setGate type level funaddr).selector = 8 ∧
      (d.setGate type level funaddr).kind = type ∧ (d.setGate type level funaddr).dpl = level ∧
      (d.setGate type level funaddr).present = true := by
  have h5 : d.setGate type level funaddr 5 = BitVec.ofNat 8 (128 + level * 32 + type) :=
    setGate_apply (by norm_num)
  have hnat : (d.setGate type level funaddr 5).toNat = 128 + level * 32 + type := by
    rw [h5, BitVec.toNat_ofNat]
    omega
  refine ⟨?_, ?_, ?_, ?_, ?_⟩
  · simp only [offset, setGate_apply (show 0 < 8 by norm_num),
      setGate_apply (show 1 < 8 by norm_num), setGate_apply (show 6 < 8 by norm_num),
      setGate_apply (show 7 < 8 by norm_num)]
    exact wordOf_getByte funaddr
  · simp [selector, setGate_apply]
  · rw [kind, hnat]
    omega
  · rw [dpl, hnat]
    omega
  · rw [present, BitVec.getLsbD, hnat, Nat.testBit_eq_decide_div_mod_eq, decide_eq_true_eq]
    omega

end Descriptor

end NeuOs
