import NeuOs.Lib.Fallible
import NeuOs.Mm.Reads

/-!
# Stores of the kernel to user memory

The kernel's stores ignore the write flag of a page, so that `verify_area` first
gives the process pages of its own: after it, every present page of the range is
writable (`Inv.verifyArea`), and a store of the kernel to such a range, which maps
the absent pages, is like one of the process (`Inv.kernelStore`).
-/

namespace NeuOs.Mm

variable {lo hi : Nat} {ext : Nat → Nat} {m m' : Mm} {a n : Nat} {p : Panic} {S : Nat → Nat → Prop}

/-! ## The errors -/

/-- A page fault fails only for lack of memory. -/
theorem unWpPage_error {d n : Nat} (hd : d < 1024) (h : m.unWpPage (m.entryAddr d n) = .error p) :
    p = .outOfMemory := by
  rcases unWpPage_cases m hd n with ⟨-, -, hok⟩ | ⟨-, ⟨herr, -⟩ | ⟨f, -, -, -, hok⟩⟩
  · cases h.symm.trans hok
  · exact Except.error.inj (h.symm.trans herr)
  · cases h.symm.trans hok

theorem touch_error (ha : a < 2 ^ 32) {write : Bool} (h : m.touch a write = .error p) :
    p = .outOfMemory := by
  rw [touch] at h
  split at h
  · rcases doNoPage_cases m ha with ⟨herr, -⟩ | ⟨f, -, -, -, ⟨-, hok⟩ | ⟨-, g, -, -, -, hok⟩⟩
    · exact Except.error.inj (h.symm.trans herr)
    · cases h.symm.trans hok
    · cases h.symm.trans hok
  · split_ifs at h
    rw [doWpPage_eq m ha] at h
    exact unWpPage_error (by omega) h

theorem writeVerify_error (ha : a < 2 ^ 32) (h : m.writeVerify a = .error p) :
    p = .outOfMemory := by
  rw [writeVerify_eq m ha] at h
  split_ifs at h
  exact unWpPage_error (by omega) h

theorem verifyLoop_error {size : Int} (ha : a < 2 ^ 32) (h : verifyLoop a size m = .error p) :
    p = .outOfMemory := by
  fun_induction verifyLoop a size m with
  | case1 a size m hpos ih =>
    rcases Except.bind_eq_error.1 h with h | ⟨m₁, -, h⟩
    · exact writeVerify_error ha h
    · exact ih m₁ (Nat.mod_lt _ (by norm_num)) h
  | case2 => cases h

theorem verifyArea_error {base addr size : Nat} (h : m.verifyArea base addr size = .error p) :
    p = .outOfMemory := verifyLoop_error (Nat.mod_lt _ (by norm_num)) h

theorem kernelStore_error (ha : a < 2 ^ 32) {b : Byte} (h : m.kernelStore a b = .error p) :
    p = .outOfMemory := by
  rcases Except.bind_eq_error.1 h with h | ⟨_, -, h⟩
  · exact touch_error ha h
  · cases h

theorem userStore_error (ha : a < 2 ^ 32) {b : Byte} (h : m.userStore a b = .error p) :
    p = .outOfMemory := by
  rcases Except.bind_eq_error.1 h with h | ⟨_, -, h⟩
  · exact touch_error ha h
  · cases h

/-! ## `verify_area` -/

/-- The present pages from `a` on, up to `a + n`, are writable. -/
def WritableRange (m : Mm) (a n : Nat) : Prop :=
  ∀ x, a ≤ x → x < a + n → ∀ e, m.translate x = some e → Writable e

/-- The pages of the range are not in `S`. -/
def OffRange (S : Nat → Nat → Prop) (a n : Nat) : Prop :=
  ∀ x, a ≤ x → x < a + n → ¬S (x / 2 ^ 22) (x / 4096 % 1024)

theorem OffRange.mono {a' n' : Nat} (h : OffRange S a n) (ha : a ≤ a') (hn : a' + n' ≤ a + n) :
    OffRange S a' n' := fun x h₁ h₂ => h x (by omega) (by omega)

theorem OffRange.samePages (h : OffRange S a n) {x : Nat} (h₁ : a ≤ x) (h₂ : x < a + n)
    (hsame : SamePages (fun d n => (d, n) ≠ (x / 2 ^ 22, x / 4096 % 1024)) m m') :
    SamePages S m m' := by
  refine hsame.mono fun d n hS heq => h x h₁ h₂ ?_
  obtain ⟨rfl, rfl⟩ := Prod.mk.inj heq
  exact hS

/-- The loop of `verify_area` keeps the invariant. -/
theorem Inv.verifyLoop_inv (h : Inv lo hi ext m) {size : Int} (ha : a < 2 ^ 32)
    (hok : verifyLoop a size m = .ok m') : Inv lo hi ext m' := by
  fun_induction verifyLoop a size m with
  | case1 a size m hpos ih =>
    obtain ⟨m₁, hverify, hok⟩ := Except.bind_eq_ok.1 hok
    rcases h.writeVerify ha with ⟨herr, -⟩ | ⟨m₂, hok₂, hinv, -⟩
    · cases herr.symm.trans hverify
    · obtain rfl : m₂ = m₁ := Except.ok.inj (hok₂.symm.trans hverify)
      exact ih _ hinv (Nat.mod_lt _ (by norm_num)) hok
  | case2 => exact Except.ok.inj hok ▸ h

/-- The loop of `verify_area`, over `n` pages of user memory from `4096 * b` on. -/
theorem Inv.verifyLoop {b : Nat} {size : Int} (h : Inv lo hi ext m) (hb : 0x4000 ≤ b)
    (hend : b + n ≤ 2 ^ 20) (hsize : size ≤ 4096 * n) (hS : OffRange S (4096 * b) (4096 * n))
    (hok : verifyLoop (4096 * b) size m = .ok m') :
    SamePages S m m' ∧
      ∀ x, 4096 * b ≤ x → (x : Int) < 4096 * b + size → ∀ e, m'.translate x = some e →
        Writable e := by
  induction n generalizing b size m S with
  | zero =>
    rw [Mm.verifyLoop, if_neg (by omega)] at hok
    exact Except.ok.inj hok ▸ ⟨SamePages.refl _ _, fun x h₁ h₂ => by omega⟩
  | succ n ih =>
    rw [Mm.verifyLoop] at hok
    split_ifs at hok with hpos
    · obtain ⟨m₁, hverify, hok⟩ := Except.bind_eq_ok.1 hok
      rcases h.writeVerify (a := 4096 * b) (by omega) with
        ⟨herr, -⟩ | ⟨m₂, hok₂, hinv, hsame, hw⟩
      · cases herr.symm.trans hverify
      · obtain rfl : m₂ = m₁ := Except.ok.inj (hok₂.symm.trans hverify)
        by_cases hn : n = 0
        · -- The last page.
          rw [Mm.verifyLoop, if_neg (by omega)] at hok
          obtain rfl := Except.ok.inj hok
          refine ⟨hS.samePages le_rfl (by omega) hsame, fun x h₁ h₂ e he => hw e ?_ (by omega)⟩
          rw [← he, translate]
          congr 1 <;> omega
        · rw [show (4096 * b + 4096) % 2 ^ 32 = 4096 * (b + 1) by omega] at hok
          -- The rest of the loop does not change the first page either.
          obtain ⟨hsame', hw'⟩ := ih hinv (b := b + 1)
            (S := fun d k => S d k ∨ (d, k) = (4096 * b / 2 ^ 22, 4096 * b / 4096 % 1024))
            (by omega) (by omega) (by push_cast at hsize; omega)
            (fun x h₁ h₂ hx => hx.elim (hS x (by omega) (by omega)) fun heq => by
              obtain ⟨h₃, h₄⟩ := Prod.mk.inj heq
              omega) hok
          refine ⟨(hS.samePages le_rfl (by omega) hsame).trans
            (hsame'.mono fun d k hd => .inl hd), fun x h₁ h₂ e he => ?_⟩
          by_cases hx : x < 4096 * (b + 1)
          · refine hw e ?_ (by omega)
            rw [← (hsame' _ _ ⟨⟨by omega, by omega⟩, by omega⟩ (.inr rfl)).1, ← he, translate]
            congr 1 <;> omega
          · exact hw' x (by omega) (by push_cast at *; omega) e he
    · exact Except.ok.inj hok ▸ ⟨SamePages.refl _ _, fun x h₁ h₂ => by omega⟩

theorem Inv.verifyArea_inv (h : Inv lo hi ext m) {base addr size : Nat}
    (hok : m.verifyArea base addr size = .ok m') : Inv lo hi ext m' :=
  h.verifyLoop_inv (Nat.mod_lt _ (by norm_num)) hok

/-- `verify_area` goes through the pages from that of the address on. -/
theorem verifyArea_eq {c addr size : Nat} (haddr : addr < 2 ^ 32)
    (hsize : size + addr % 4096 < 2 ^ 31) : m.verifyArea (4096 * c) addr size =
      verifyLoop (4096 * ((c + addr / 4096) % 2 ^ 20)) ((size + addr % 4096 : Nat) : Int) m := by
  have hand : addr &&& 0xfff = addr % 4096 := by
    rw [show (0xfff : Nat) = 2 ^ 12 - 1 from rfl, Nat.and_two_pow_sub_one_eq_mod]
  have hint : (BitVec.ofNat 32 (size + addr % 4096)).toInt =
      ((size + addr % 4096 : Nat) : Int) := by
    have hnat : (BitVec.ofNat 32 (size + addr % 4096)).toNat = size + addr % 4096 := by
      rw [BitVec.toNat_ofNat]
      omega
    rw [BitVec.toInt_eq_toNat_of_lt (by omega), hnat]
  have hstart : (4096 * (addr / 4096) + 4096 * c) % 2 ^ 32 =
      4096 * ((c + addr / 4096) % 2 ^ 20) := by omega
  rw [Mm.verifyArea, pageAlign_eq haddr, hand, hint, hstart]

/-- After `verify_area`, on a range of the 64 MB from `4096 * c` on, the present
    pages of the range are writable. -/
theorem Inv.verifyArea {c addr size : Nat} (h : Inv lo hi ext m) (hc : 0x4000 ≤ c)
    (hend : c + 0x4000 ≤ 2 ^ 20) (hpos : 0 < size)
    (hsize : addr + size ≤ 0x4000000) (hS : OffRange S (4096 * c) 0x4000000)
    (hok : m.verifyArea (4096 * c) addr size = .ok m') :
    SamePages S m m' ∧ WritableRange m' (4096 * c + addr) size := by
  rw [verifyArea_eq (by omega) (by omega), Nat.mod_eq_of_lt (by omega)] at hok
  obtain ⟨hsame, hw⟩ := h.verifyLoop (b := c + addr / 4096)
    (n := (addr % 4096 + size + 4095) / 4096) (by omega) (by omega) (by omega)
    (hS.mono (by omega) (by omega)) hok
  exact ⟨hsame, fun x h₁ h₂ e he => hw x (by omega) (by push_cast; omega) e he⟩

/-! ## The stores -/

theorem translate_poke (h : Inv lo hi ext m) {e : Word} (ha : UserAddr a)
    (he : m.translate a = some e) (hw : Writable e) (b : Byte) :
    Inv lo hi ext (m.poke a b) ∧ (m.poke a b).translate a = some e ∧
      SamePages (fun d n => (d, n) ≠ (a / 2 ^ 22, a / 4096 % 1024)) m (m.poke a b) := by
  have hpoke : m.poke a b = m.storeByte (physAddr e a) b := by
    rw [poke, he]
    rfl
  obtain ⟨hinv, hwalk, hsame⟩ := h.storeByte ha.page.1 he hw b
  exact ⟨hpoke ▸ hinv, by rw [hpoke, translate, hwalk _ _ ha.page, ← he, translate], hpoke ▸ hsame⟩

/-- After the page faults of a store, the page is there and writable: the kernel stores to
    pages that were writable or absent only. -/
theorem Inv.touch_store (h : Inv lo hi ext m) (ha : UserAddr a) {write : Bool}
    (hw : write = true ∨ ∀ e, m.translate a = some e → Writable e)
    (hok : m.touch a write = .ok m') :
    Inv lo hi ext m' ∧ SamePages (fun d n => (d, n) ≠ (a / 2 ^ 22, a / 4096 % 1024)) m m' ∧
      ∃ e, m'.translate a = some e ∧ Writable e := by
  rcases h.touch ha.2 ha.page.1 write with
    ⟨herr, -⟩ | ⟨m₂, e, hok₂, hinv, hsame, he, hwrite, hkeep, hnew⟩
  · cases herr.symm.trans hok
  · obtain rfl := Except.ok.inj (hok₂.symm.trans hok)
    refine ⟨hinv, hsame, e, he, ?_⟩
    rcases hw with htrue | hw
    · exact hwrite htrue
    · cases he' : m.translate a with
      | none => exact hnew he'
      | some e' => exact hkeep e' he' (hw e' he')

/-- A store of a process, with its page faults. -/
theorem Inv.userStore (h : Inv lo hi ext m) (ha : UserAddr a) {b : Byte}
    (hok : m.userStore a b = .ok m') :
    Inv lo hi ext m' ∧ SamePages (fun d n => (d, n) ≠ (a / 2 ^ 22, a / 4096 % 1024)) m m' := by
  obtain ⟨m₁, htouch, hok⟩ := Except.bind_eq_ok.1 hok
  obtain rfl := Except.ok.inj hok
  obtain ⟨hinv, hsame, e, he, hw⟩ := h.touch_store ha (.inl rfl) htouch
  obtain ⟨hinv', -, hsame'⟩ := translate_poke hinv ha he hw b
  exact ⟨hinv', hsame.trans hsame'⟩

/-- A store of the kernel to a page that is writable, or absent. -/
theorem Inv.kernelStore (h : Inv lo hi ext m) (ha : UserAddr a)
    (hw : ∀ e, m.translate a = some e → Writable e) {b : Byte} (hok : m.kernelStore a b = .ok m') :
    Inv lo hi ext m' ∧ SamePages (fun d n => (d, n) ≠ (a / 2 ^ 22, a / 4096 % 1024)) m m' ∧
      ∃ e, m'.translate a = some e ∧ Writable e := by
  obtain ⟨m₁, htouch, hok⟩ := Except.bind_eq_ok.1 hok
  obtain rfl := Except.ok.inj hok
  obtain ⟨hinv, hsame, e, he, hwe⟩ := h.touch_store ha (.inr hw) htouch
  obtain ⟨hinv', he', hsame'⟩ := translate_poke hinv ha he hwe b
  exact ⟨hinv', hsame.trans hsame', e, he', hwe⟩

/-- The kernel's own memory causes no page faults. -/
theorem Inv.touch_kernel (h : Inv lo hi ext m) (ha : a < 0x1000000) (write : Bool) :
    m.touch a write = .ok m := by
  rw [Mm.touch, h.kernel.translate ha]
  exact if_neg fun hc => hc.2 (writable_entryOf _)

end NeuOs.Mm
