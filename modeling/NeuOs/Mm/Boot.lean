import NeuOs.Mm.Invariant

/-!
# Paging at boot (`setup_paging` in boot/head.s, `mem_init`)

`setup_paging` clears the page directory and four page tables, and maps the
first 16 MB of memory onto themselves (`kernelMap_setupPaging`). After
`mem_init` no slot has pages, so that the invariant holds (`inv_memInit`).
-/

namespace NeuOs.Mm

/-- `cld; rep; stosl` with `eax = 0`. -/
def clearWords : (ecx : Nat) → (edi : Nat) → Mm → Mm
  | 0, _, m => m
  | ecx + 1, edi, m => clearWords ecx (edi + 4) (m.store edi 0)

/-- The loop that fills the page tables downwards, with `n` entries left: the
    entry at `edi = 0x1000 + 4 * (n - 1)` gets `eax = 0x1000 * (n - 1) + 7`. -/
def fillTables : (n : Nat) → Mm → Mm
  | 0, m => m
  | n + 1, m => fillTables n (m.store (0x1000 + 4 * n) (BitVec.ofNat 32 (0x1000 * n + 7)))

/-- `setup_paging`: the page directory is at 0, the page tables `pg0` to `pg3` at
    `0x1000` to `0x4000`. -/
def setupPaging (m : Mm) : Mm :=
  let m := clearWords (1024 * 5) 0 m
  let m := m.store 0 (BitVec.ofNat 32 (0x1000 + 7))
  let m := m.store 4 (BitVec.ofNat 32 (0x2000 + 7))
  let m := m.store 8 (BitVec.ofNat 32 (0x3000 + 7))
  let m := m.store 12 (BitVec.ofNat 32 (0x4000 + 7))
  fillTables 4096 m

variable {m : Mm}

/-- The entry `page | 7` of an aligned page is the sum. -/
theorem entryOf_eq_add {f : Nat} : entryOf (4096 * f) = BitVec.ofNat 32 (0x1000 * f + 7) := by
  refine BitVec.eq_of_toNat_eq ?_
  have hor : 4096 * f % 2 ^ 32 ||| 7 = 4096 * f % 2 ^ 32 + 7 := by
    have h := Nat.shiftLeft_add_eq_or_of_lt (b := 7) (i := 12) (by norm_num) (f % 2 ^ 20)
    rw [Nat.shiftLeft_eq] at h
    rw [show 4096 * f % 2 ^ 32 = f % 2 ^ 20 * 2 ^ 12 by omega]
    exact h.symm
  rw [entryOf, BitVec.toNat_or, BitVec.toNat_ofNat, BitVec.toNat_ofNat, BitVec.toNat_ofNat, hor]
  omega

theorem phys_clearWords (n b w : Nat) :
    (clearWords n (4 * b) m).phys w = if b ≤ w ∧ w < b + n then 0 else m.phys w := by
  induction n generalizing b m with
  | zero => rw [clearWords, if_neg (by omega)]
  | succ n ih =>
    rw [clearWords, show 4 * b + 4 = 4 * (b + 1) by omega, ih, phys_store]
    split_ifs <;> first | rfl | omega

theorem phys_fillTables (n w : Nat) :
    (fillTables n m).phys w =
      if 1024 ≤ w ∧ w < 1024 + n then entryOf (4096 * (w - 1024)) else m.phys w := by
  induction n generalizing m with
  | zero => rw [fillTables, if_neg (by omega)]
  | succ n ih =>
    have hword : (0x1000 + 4 * n) / 4 = 1024 + n := by omega
    rw [fillTables, ih, phys_store, hword]
    by_cases hw : w = 1024 + n
    · rw [if_neg (by omega), if_pos hw, if_pos (by omega), entryOf_eq_add, hw,
        Nat.add_sub_cancel_left]
    · rw [if_neg hw]
      split_ifs <;> first | rfl | omega

/-- The page directory after `setup_paging`. -/
theorem pde_setupPaging {d : Nat} (hd : d < 1024) :
    m.setupPaging.pde d = if d < 4 then entryOf (4096 * (d + 1)) else 0 := by
  rw [pde, setupPaging, phys_fillTables, if_neg (by omega), phys_store, phys_store, phys_store,
    phys_store, show (0 : Nat) = 4 * 0 from rfl, phys_clearWords]
  by_cases h4 : d < 4
  · rw [if_pos h4]
    interval_cases d <;> rfl
  · rw [if_neg h4, if_neg (by omega), if_neg (by omega), if_neg (by omega), if_neg (by omega),
      if_pos (by omega)]

/-- `setup_paging` maps the first 16 MB of memory onto themselves. -/
theorem kernelMap_setupPaging : m.setupPaging.KernelMap where
  dir d hd := by rw [pde_setupPaging (by omega), if_pos hd]
  absent d h₁ h₂ := by rw [pde_setupPaging (by omega), if_neg (by omega)]
  entry n hn := by
    rw [setupPaging, phys_fillTables, if_pos (by omega), Nat.add_sub_cancel_left]

/-- After `setup_paging` no slot has pages. -/
theorem not_present_setupPaging {d : Nat} (hd : UserDir d) : ¬Present (m.setupPaging.pde d) := by
  obtain ⟨h₁, h₂⟩ := hd
  rw [pde_setupPaging h₂, if_neg (by omega)]
  exact not_present_zero

theorem phys_memInit (a b : Nat) : (m.memInit a b).phys = m.phys := rfl

/-- `mem_init` leaves the frames between its bounds free. -/
theorem freeFrames_memInit {lo hi : Nat} (hlo : 256 ≤ lo) (hle : lo ≤ hi) (hhi : hi ≤ 4096) :
    (m.memInit (4096 * lo) (4096 * hi)).freeFrames = hi - lo := by
  have hset : (frames.filter fun f => (m.memInit (4096 * lo) (4096 * hi)).memMap (f - 256) = 0) =
      Finset.Ico lo hi := by
    ext f
    rw [Finset.mem_filter, mem_frames, Finset.mem_Ico]
    constructor
    · rintro ⟨⟨h₁, h₂⟩, h0⟩
      rw [memMap_memInit hlo hle h₁ h₂] at h0
      by_contra hf
      rw [if_neg hf] at h0
      exact absurd h0 (by decide)
    · rintro ⟨h₁, h₂⟩
      refine ⟨⟨by omega, by omega⟩, ?_⟩
      rw [memMap_memInit hlo hle (by omega) (by omega), if_pos ⟨h₁, h₂⟩]
  rw [freeFrames, hset, Nat.card_Ico]

/-- The invariant holds when memory has been initialised. -/
theorem inv_memInit {lo hi : Nat} (hlo : 256 ≤ lo) (hle : lo ≤ hi) (hhi : hi ≤ 4096) :
    Inv lo hi (fun _ => 0) (m.setupPaging.memInit (4096 * lo) (4096 * hi)) := by
  have hpde : ∀ d, (m.setupPaging.memInit (4096 * lo) (4096 * hi)).pde d = m.setupPaging.pde d :=
    fun d => by rw [pde, phys_memInit, pde]
  have hmaps : ∀ d n f, UserPage d n →
      ¬(m.setupPaging.memInit (4096 * lo) (4096 * hi)).Maps d n f := fun d n f hu hm =>
    not_present_setupPaging (m := m) hu.1 (hpde d ▸ hm.1)
  have htable : ∀ d f, UserDir d →
      ¬(m.setupPaging.memInit (4096 * lo) (4096 * hi)).Table d f := fun d f hd ht =>
    not_present_setupPaging (m := m) hd (hpde d ▸ ht.1)
  refine ⟨hlo, hhi, rfl, (kernelMap_setupPaging (m := m)).of_words fun _ _ => ?_,
    fun f h₁ h₂ hf => ?_, fun f hf => ?_, ?_, ?_, ?_, ?_, ?_⟩
  · rw [phys_memInit]
  · rw [memMap_memInit hlo hle h₁ h₂, if_neg (show ¬(lo ≤ f ∧ f < hi) from hf)]
    decide
  · have hge : 256 ≤ f := hlo.trans hf.1
    rw [memMap_memInit hlo hle hge (hf.2.trans_le hhi), if_pos ⟨hf.1, hf.2⟩,
      pteRefs_eq_zero.2 fun d n hu => hmaps d n f hu, pdeRefs_eq_zero.2 fun d hd => htable d f hd,
      toNat_byte_zero]
  · exact fun d f hd ht => absurd ht (htable d f hd)
  · exact fun f hf => absurd hf (Nat.lt_irrefl 0)
  · exact fun d n f hu hm => absurd hm (hmaps d n f hu)
  · exact fun d₁ n₁ _ _ f hu _ hm => absurd hm (hmaps d₁ n₁ f hu)
  · exact fun d n f hu hm => absurd hm (hmaps d n f hu)

/-- Memory as `main` initialises it, from memory full of zeros:
    `mem_init(0x100000, 0x300000)`. -/
def mainMem : Mm := (setupPaging ⟨fun _ => 0, fun _ => 0, 0⟩).memInit (4096 * 256) (4096 * 768)

theorem inv_mainMem : Inv 256 768 (fun _ => 0) mainMem :=
  inv_memInit (by omega) (by omega) (by omega)

theorem freeFrames_mainMem : mainMem.freeFrames = 512 :=
  freeFrames_memInit (by omega) (by omega) (by omega)

theorem not_present_mainMem {d : Nat} (hd : UserDir d) : ¬Present (mainMem.pde d) := by
  rw [mainMem, pde, phys_memInit, ← pde]
  exact not_present_setupPaging hd

end NeuOs.Mm
