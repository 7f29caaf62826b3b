import NeuOs.Kernel.User

/-!
# The translation lookaside buffer (`invalidate` in mm/memory.c)

The processor keeps translations of pages it has used (`Tlb`), and goes on using them when the page
tables change, until the kernel empties the buffer: `invalidate` does so, by loading `cr3`.

A buffer is *coherent* with the page tables if every translation it keeps is theirs (`Coherent`).
So a function must call `invalidate` after it has changed the entry of a present page, and need not
when it only maps pages that were absent (`Extends`). For each function that may change an entry
there is the effect it has on the buffer, beside its definition, and the lemma that it keeps
coherence.
-/

namespace NeuOs.Mm

/-- The translations that the processor keeps, by the number of the page. -/
abbrev Tlb := ℕ → Option Word

/-- `invalidate()`. -/
def invalidate (_ : Tlb) : Tlb := fun _ => none

/-- Every translation that is kept is one of the page tables. -/
def Coherent (m : Mm) (tlb : Tlb) : Prop :=
  ∀ p < 2 ^ 20, ∀ e, tlb p = some e → m.walk (p / 1024) (p % 1024) = some e

/-- The pages that are present stay as they are. -/
def Extends (m m' : Mm) : Prop :=
  ∀ d n e, d < 1024 → n < 1024 → m.walk d n = some e → m'.walk d n = some e

variable {lo hi i : ℕ} {ext ext' : ℕ → ℕ} {m m' m'' : Mm} {tlb : Tlb} {a : ℕ} {s : Segment}
  {addr : Word}

theorem Coherent.invalidate (m : Mm) (tlb : Tlb) : Coherent m (invalidate tlb) :=
  fun _ _ _ he => nomatch he

theorem Coherent.extends (h : Coherent m tlb) (hext : Extends m m') : Coherent m' tlb :=
  fun p hp e he => hext _ _ e (by omega) (Nat.mod_lt _ (by norm_num)) (h p hp e he)

theorem Extends.refl (m : Mm) : Extends m m := fun _ _ _ _ _ he => he

theorem Extends.trans (h : Extends m m') (h' : Extends m' m'') : Extends m m'' :=
  fun d n e hd hn he => h' d n e hd hn (h d n e hd hn he)

/-- The pages below 64 MB are the same whenever the invariant holds. -/
theorem Inv.extends (h : Inv lo hi ext m) (h' : Inv lo hi ext' m')
    (hwalk : ∀ d n e, UserPage d n → m.walk d n = some e → m'.walk d n = some e) :
    Extends m m' := by
  intro d n e hd hn he
  rcases Nat.lt_or_ge d 16 with hlow | hhigh
  · obtain ⟨hp, -, -⟩ := walk_eq_some.1 he
    have hd4 : d < 4 := by
      by_contra hge
      rw [h.kernel.absent d (by omega) hlow] at hp
      exact not_present_zero hp
    obtain ⟨-, hpte, hent⟩ := walk_eq_some.1 he
    rw [h.kernel.pte hd4 hn] at hpte hent
    refine walk_eq_some.2 ⟨?_, ?_, ?_⟩
    · rw [h'.kernel.dir d hd4]
      exact present_entryOf _
    · rw [h'.kernel.pte hd4 hn]
      exact hpte
    · rw [h'.kernel.pte hd4 hn]
      exact hent
  · exact hwalk d n e ⟨⟨hhigh, hd⟩, hn⟩ he

/-- Only one page has changed, and that was absent. -/
theorem Inv.extends_of_samePages {d₀ n₀ : ℕ} (h : Inv lo hi ext m) (h' : Inv lo hi ext' m')
    (hsame : SamePages (fun d n => (d, n) ≠ (d₀, n₀)) m m')
    (hpage : ∀ e, m.walk d₀ n₀ = some e → m'.walk d₀ n₀ = some e) : Extends m m' := by
  refine h.extends h' fun d n e hu he => ?_
  by_cases heq : (d, n) = (d₀, n₀)
  · obtain ⟨rfl, rfl⟩ := Prod.mk.inj heq
    exact hpage e he
  · exact (hsame d n hu heq).1.trans he

/-! ## Page faults -/

/-- The effect of the page faults of an access: `un_wp_page` calls `invalidate`, `put_page` does
    not. -/
def touchTlb (m : Mm) (a : ℕ) (write : Bool) (tlb : Tlb) : Tlb :=
  match m.translate a with
  | none => tlb
  | some e => if write ∧ ¬Writable e then invalidate tlb else tlb

theorem Inv.coherent_touch (h : Inv lo hi ext m) (ha : UserAddr a) (hc : Coherent m tlb)
    {write : Bool} (hok : m.touch a write = .ok m') :
    Coherent m' (m.touchTlb a write tlb) := by
  rw [Mm.touch] at hok
  rw [touchTlb]
  cases he : m.translate a with
  | none =>
    simp only [he] at hok
    rcases h.doNoPage ha.2 ha.page.1 he with ⟨herr, -⟩ | ⟨m₁, f, hok₁, hinv, -, -, hsame, -⟩
    · cases herr.symm.trans hok
    · obtain rfl := Except.ok.inj (hok₁.symm.trans hok)
      exact hc.extends (h.extends_of_samePages hinv hsame fun e he' => by cases he.symm.trans he')
  | some e =>
    simp only [he] at hok
    dsimp only
    split_ifs at hok ⊢
    · exact .invalidate _ _
    · exact Except.ok.inj hok ▸ hc

/-- The page faults of a load change no page that is present. -/
theorem Inv.extends_touch (h : Inv lo hi ext m) (ha : UserAddr a)
    (hok : m.touch a false = .ok m') : Extends m m' := by
  rw [Mm.touch] at hok
  cases he : m.translate a with
  | none =>
    simp only [he] at hok
    rcases h.doNoPage ha.2 ha.page.1 he with ⟨herr, -⟩ | ⟨m₁, f, hok₁, hinv, -, -, hsame, -⟩
    · cases herr.symm.trans hok
    · obtain rfl := Except.ok.inj (hok₁.symm.trans hok)
      exact h.extends_of_samePages hinv hsame fun e he' => by cases he.symm.trans he'
  | some e =>
    simp only [he, Bool.false_eq_true, false_and, if_false] at hok
    exact Except.ok.inj hok ▸ .refl m

/-! ## Stores -/

/-- A store to a writable page changes no entry. -/
theorem Inv.extends_poke (h : Inv lo hi ext m) {e : Word} (ha : UserAddr a)
    (he : m.translate a = some e) (hw : Writable e) (b : Byte) : Extends m (m.poke a b) := by
  obtain ⟨hinv, hself, hsame⟩ := translate_poke h ha he hw b
  exact h.extends_of_samePages hinv hsame fun e' he' => hself.trans (he.symm.trans he')

/-- A store of the process. -/
theorem Inv.coherent_userStore (h : Inv lo hi ext m) (ha : UserAddr a) (hc : Coherent m tlb)
    {b : Byte} (hok : m.userStore a b = .ok m') : Coherent m' (m.touchTlb a true tlb) := by
  obtain ⟨m₁, htouch, hok⟩ := Except.bind_eq_ok.1 hok
  obtain rfl := Except.ok.inj hok
  obtain ⟨hinv, -, e, he, hw⟩ := h.touch_store ha (.inl rfl) htouch
  exact (h.coherent_touch ha hc htouch).extends (hinv.extends_poke ha he hw b)

/-- A store of the kernel, to a page that is writable or absent. -/
theorem Inv.extends_kernelStore (h : Inv lo hi ext m) (ha : UserAddr a)
    (hw : ∀ e, m.translate a = some e → Writable e) {b : Byte}
    (hok : m.kernelStore a b = .ok m') : Extends m m' := by
  obtain ⟨m₁, htouch, hok⟩ := Except.bind_eq_ok.1 hok
  obtain rfl := Except.ok.inj hok
  obtain ⟨hinv, -, e, he, hwe⟩ := h.touch_store ha (.inr hw) htouch
  exact (h.extends_touch ha htouch).trans (hinv.extends_poke ha he hwe b)

theorem Inv.extends_getFsBytes {n : ℕ} {bs : List Byte} (h : Inv lo hi ext m)
    (hs : UserSegment i s) (hok : Mm.getFsBytes s n addr m = .ok (bs, m')) : Extends m m' := by
  induction n generalizing addr m bs with
  | zero =>
    obtain ⟨-, rfl⟩ := Prod.mk.inj (Except.ok.inj hok)
    exact .refl m
  | succ n ih =>
    obtain ⟨⟨b, m₁⟩, hget, hok⟩ := Except.bind_eq_ok.1 hok
    obtain ⟨⟨bs', m₂⟩, hrest, hok⟩ := Except.bind_eq_ok.1 hok
    obtain ⟨-, rfl⟩ := Prod.mk.inj (Except.ok.inj hok)
    -- the first byte, as a read of its own
    have hone : Mm.getFsBytes s 1 addr m = .ok ([b], m₁) := by
      simp only [Mm.getFsBytes, hget, Except.ok_bind]
    obtain ⟨hinv, -⟩ := h.getFsBytes hs hone
    rw [getFsByte] at hget
    split_ifs at hget with hlim
    obtain ⟨m₃, htouch, hget⟩ := Except.bind_eq_ok.1 hget
    obtain ⟨-, rfl⟩ := Prod.mk.inj (Except.ok.inj hget)
    exact (h.extends_touch (hs.userAddr (not_le.1 hlim)) htouch).trans (ih hinv hrest)

/-- Stores of the kernel to a range whose present pages are writable. -/
theorem Inv.extends_putFsBytes {bytes : List Byte} (h : Inv lo hi ext m) (hs : UserSegment i s)
    (hw : WritableRange m (s.base + addr.toNat) bytes.length)
    (hok : Mm.putFsBytes s bytes addr m = .ok m') : Extends m m' := by
  induction bytes generalizing addr m with
  | nil => exact Except.ok.inj hok ▸ .refl m
  | cons b bytes ih =>
    obtain ⟨hlim, m₁, hput, hinv, -, hrest, hok⟩ := h.putFsBytes_cons hs hw hok
    have hfirst := h.extends_kernelStore (hs.userAddr hlim)
      (hw _ le_rfl (by rw [List.length_cons]; omega)) hput
    exact hfirst.trans (ih hinv hrest hok)

/-! ## `verify_area` -/

/-- The effect of `write_verify`: `un_wp_page` calls `invalidate`. -/
def writeVerifyTlb (m : Mm) (address : ℕ) (tlb : Tlb) : Tlb :=
  if ¬Present (m.load (dirEntry address)) then tlb
  else
    let page := pageOf (m.load (dirEntry address)) + ((address >>> 10) &&& 0xffc)
    if m.load page &&& 3#32 = 1#32 then invalidate tlb else tlb

theorem Coherent.writeVerify (h : Coherent m tlb) (hok : m.writeVerify a = .ok m') :
    Coherent m' (m.writeVerifyTlb a tlb) := by
  rw [Mm.writeVerify] at hok
  rw [writeVerifyTlb]
  dsimp only at hok ⊢
  split_ifs at hok ⊢
  · exact .invalidate _ _
  · exact Except.ok.inj hok ▸ h
  · exact Except.ok.inj hok ▸ h

/-- The effect of the loop of `verify_area`. -/
def verifyLoopTlb (start : ℕ) (size : Int) (m : Mm) (tlb : Tlb) : Tlb :=
  if 0 < size then
    match m.writeVerify start with
    | .ok m' =>
      verifyLoopTlb ((start + 4096) % 2 ^ 32) (size - 4096) m' (m.writeVerifyTlb start tlb)
    | .error _ => tlb
  else tlb
termination_by size.toNat

/-- The effect of `verify_area`. -/
def verifyAreaTlb (m : Mm) (base addr size : ℕ) (tlb : Tlb) : Tlb :=
  verifyLoopTlb (((addr &&& 0xfffff000) + base) % 2 ^ 32)
    (BitVec.ofNat 32 (size + (addr &&& 0xfff))).toInt m tlb

theorem Coherent.verifyLoop {size : Int} (h : Coherent m tlb)
    (hok : Mm.verifyLoop a size m = .ok m') : Coherent m' (verifyLoopTlb a size m tlb) := by
  fun_induction Mm.verifyLoop a size m generalizing tlb with
  | case1 a size m hpos ih =>
    obtain ⟨m₁, hverify, hok⟩ := Except.bind_eq_ok.1 hok
    rw [verifyLoopTlb, if_pos hpos, hverify]
    exact ih m₁ (h.writeVerify hverify) hok
  | case2 a size m hpos =>
    rw [verifyLoopTlb, if_neg hpos]
    exact Except.ok.inj hok ▸ h

/-- `verify_area`, and the stores of the kernel to the range. -/
theorem Inv.coherent_put {bytes : List Byte} (h : Inv lo hi ext m) (hs : UserSegment i s)
    (hne : bytes ≠ []) (hc : Coherent m tlb)
    (hverify : m.verifyArea s.base addr.toNat bytes.length = .ok m')
    (hok : Mm.putFsBytes s bytes addr m' = .ok m'') :
    Coherent m'' (m.verifyAreaTlb s.base addr.toNat bytes.length tlb) := by
  obtain ⟨h₁, h₂, h₃, h₄⟩ := id hs
  have hlim := putFsBytes_limit (by omega) hne hok
  have hinv := h.verifyArea_inv hverify
  have hcoh : Coherent m' (m.verifyAreaTlb s.base addr.toNat bytes.length tlb) :=
    hc.verifyLoop hverify
  have hbase : s.base = 4096 * (i * 0x4000) := by omega
  refine hcoh.extends (hinv.extends_putFsBytes hs ?_ hok)
  rw [hbase] at hverify ⊢
  exact (h.verifyArea (S := OffSlot i) (by omega) (by omega) (List.length_pos_of_ne_nil hne)
    (by omega) (by
      rw [← hbase, h₃]
      exact offRange_offSlot i) hverify).2

/-! ## Page tables -/

/-- The effect of `free_page_tables`. -/
def freePageTablesTlb (tlb : Tlb) : Tlb := invalidate tlb

/-- The effect of `copy_page_tables` with the result `r`: it does not reach `invalidate` when it
    runs out of memory. -/
def copyPageTablesTlb (r : Int) (tlb : Tlb) : Tlb := if r = 0 then invalidate tlb else tlb

end NeuOs.Mm
