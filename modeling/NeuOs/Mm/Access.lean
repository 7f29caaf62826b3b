import NeuOs.Mm.Faults

/-!
# Accesses of linear addresses

A byte of a linear address is reached through the directory entry and the entry
of its page (`translate`); `view` is the byte that is there. An access of an
absent page, and a user-mode store to a read-only page, first run the page fault
handler (`touch`), and then the instruction again. A store in kernel mode ignores
the write flag, which is why `verify_area` goes through the pages before the
kernel stores to them.

After `touch` the page is present, and writable if it is to be written
(`Inv.touch`); a store to a writable page changes that byte and no other
(`Inv.storeByte`, `Inv.view_storeByte`).
-/

namespace NeuOs

/-- The byte `i` of a word. -/
def getByte (w : Word) (i : Nat) : Byte := w.extractLsb' (8 * i) 8

/-- The word with its byte `i` replaced. -/
def setByte (w : Word) (i : Nat) (b : Byte) : Word :=
  (w &&& ~~~(0xff#32 <<< (8 * i))) ||| (b.setWidth 32 <<< (8 * i))

theorem getLsbD_byteMask (x : Nat) : (0xff#32).getLsbD x = decide (x < 8) := by
  rw [show (0xff#32 : Word) = BitVec.setWidth 32 (BitVec.allOnes 8) from by decide,
    BitVec.getLsbD_setWidth, BitVec.getLsbD_allOnes]
  by_cases hx : x < 8
  · simp [hx, show x < 32 by omega]
  · simp [hx]

theorem getByte_setByte {w : Word} {i j : Nat} {b : Byte} (hi : i < 4) (hj : j < 4) :
    getByte (setByte w i b) j = if j = i then b else getByte w j := by
  refine BitVec.eq_of_getLsbD_eq fun k hk => ?_
  have hlt : 8 * j + k < 32 := by omega
  have hbit : (getByte (setByte w i b) j).getLsbD k =
      if j = i then b.getLsbD k else w.getLsbD (8 * j + k) := by
    simp only [getByte, setByte, BitVec.getLsbD_extractLsb', BitVec.getLsbD_or, BitVec.getLsbD_and,
      BitVec.getLsbD_not, BitVec.getLsbD_shiftLeft, BitVec.getLsbD_setWidth, getLsbD_byteMask, hk,
      hlt, decide_true, Bool.true_and]
    rcases Nat.lt_trichotomy j i with h | rfl | h
    · simp [show 8 * j + k < 8 * i by omega, Nat.ne_of_lt h]
    · simp [hk]
      omega
    · -- The bits above the replaced byte are not in it.
      have hout : b.getLsbD (8 * j + k - 8 * i) = false := BitVec.getLsbD_of_ge _ _ (by omega)
      simp [show ¬8 * j + k < 8 * i by omega, show ¬8 * j + k - 8 * i < 8 by omega,
        Nat.ne_of_gt h, hout]
  rw [hbit]
  split_ifs
  · rfl
  · simp [getByte, hk]

namespace Mm

/-- The byte at the physical address `p`. -/
def loadByte (m : Mm) (p : Nat) : Byte := getByte (m.phys (p / 4)) (p % 4)

/-- Storing a byte at the physical address `p`. -/
def storeByte (m : Mm) (p : Nat) (b : Byte) : Mm :=
  { m with phys := Function.update m.phys (p / 4) (setByte (m.phys (p / 4)) (p % 4) b) }

/-- The entry translating the linear address `a`. -/
def translate (m : Mm) (a : Nat) : Option Word := m.walk (a / 2 ^ 22) (a / 4096 % 1024)

/-- The physical address of the linear address `a`, translated by the entry `e`. -/
def physAddr (e : Word) (a : Nat) : Nat := 4096 * frameOf e + a % 4096

/-- The byte at the linear address `a`, if its page is present. -/
def view (m : Mm) (a : Nat) : Option Byte :=
  (m.translate a).map fun e => m.loadByte (physAddr e a)

/-- The page faults of an access of the linear address `a`: `page_fault` in
    mm/page.s calls `do_no_page` or `do_wp_page`. `write` is set for a store in
    user mode. -/
def touch (m : Mm) (a : Nat) (write : Bool) : Except Panic Mm :=
  match m.translate a with
  | none => m.doNoPage a
  | some e => if write ∧ ¬Writable e then m.doWpPage a else .ok m

/-- A load of a byte in user mode. -/
def userLoad (m : Mm) (a : Nat) : Except Panic (Option Byte × Mm) := do
  let m ← m.touch a false
  .ok (m.view a, m)

/-- The store itself, once the page is there. -/
def poke (m : Mm) (a : Nat) (b : Byte) : Mm :=
  (m.translate a).elim m fun e => m.storeByte (physAddr e a) b

/-- A store of a byte in user mode. -/
def userStore (m : Mm) (a : Nat) (b : Byte) : Except Panic Mm := do
  let m ← m.touch a true
  .ok (m.poke a b)

/-- A store of a byte in kernel mode (`put_fs_byte`). -/
def kernelStore (m : Mm) (a : Nat) (b : Byte) : Except Panic Mm := do
  let m ← m.touch a false
  .ok (m.poke a b)

/-- The loop of `verify_area`. -/
def verifyLoop (start : Nat) (size : Int) (m : Mm) : Except Panic Mm :=
  if 0 < size then do
    let m ← m.writeVerify start
    verifyLoop ((start + 4096) % 2 ^ 32) (size - 4096) m
  else .ok m
termination_by size.toNat

/-- `verify_area`, in the data segment at `base`. -/
def verifyArea (m : Mm) (base addr size : Nat) : Except Panic Mm :=
  verifyLoop (((addr &&& 0xfffff000) + base) % 2 ^ 32)
    (BitVec.ofNat 32 (size + (addr &&& 0xfff))).toInt m

variable {lo hi : Nat} {ext : Nat → Nat} {m : Mm} {d n f : Nat}

/-- The kernel's own memory is at the addresses that are its physical ones. -/
theorem KernelMap.translate {a : Nat} (h : m.KernelMap) (ha : a < 0x1000000) :
    m.translate a = some (entryOf (4096 * (a / 4096))) := by
  have hpte : m.pte (a / 2 ^ 22) (a / 4096 % 1024) = entryOf (4096 * (a / 4096)) := by
    rw [h.pte (by omega) (by omega)]
    congr 2
    omega
  refine walk_eq_some.2 ⟨?_, ?_, hpte⟩
  · rw [h.dir _ (by omega)]
    exact present_entryOf _
  · rw [hpte]
    exact present_entryOf _

theorem loadByte_storeByte {p q : Nat} {b : Byte} :
    (m.storeByte p b).loadByte q = if q = p then b else m.loadByte q := by
  rw [loadByte, storeByte]
  by_cases hw : q / 4 = p / 4
  · have hself : Function.update m.phys (p / 4) (setByte (m.phys (p / 4)) (p % 4) b) (q / 4) =
        setByte (m.phys (q / 4)) (p % 4) b := by
      rw [hw, Function.update_self]
    dsimp only
    rw [hself, getByte_setByte (by omega) (by omega)]
    by_cases heq : q = p
    · rw [if_pos (by rw [heq]), if_pos heq]
    · rw [if_neg (by omega), if_neg heq, loadByte]
  · dsimp only
    rw [Function.update_of_ne hw, if_neg (by rintro rfl; exact hw rfl), loadByte]

theorem phys_storeByte_ne {p w : Nat} {b : Byte} (h : w ≠ p / 4) :
    (m.storeByte p b).phys w = m.phys w := Function.update_of_ne h _ _

/-! ## Changes of one frame -/

/-- Changing the contents of a frame that is not a page table keeps the
    invariant, and how all pages are translated. -/
theorem Inv.changeFrame (h : Inv lo hi ext m) {phys' : Nat → Word} (hf : 256 ≤ f)
    (hfree : m.pdeRefs f = 0) (hphys : ∀ w, w / 1024 ≠ f → phys' w = m.phys w) :
    Inv lo hi ext { m with phys := phys' } ∧
      ∀ d n, UserPage d n → ({ m with phys := phys' } : Mm).walk d n = m.walk d n := by
  have hpde : ∀ d, UserDir d → ({ m with phys := phys' } : Mm).pde d = m.pde d := fun d hd => by
    obtain ⟨h₁, h₂⟩ := hd
    exact hphys d (by omega)
  have hpte : ∀ d n, UserPage d n → Present (m.pde d) →
      phys' (1024 * frameOf (m.pde d) + n) = m.phys (1024 * frameOf (m.pde d) + n) := by
    intro d n hu hp
    have hn := hu.2
    refine hphys _ fun heq => pdeRefs_eq_zero.1 hfree d hu.1 ⟨hp, ?_⟩
    omega
  refine ⟨h.changeExt rfl (fun w hw => hphys w (by omega)) hpte (fun _ _ _ => rfl)
    (fun _ _ => rfl) h.held, fun d n hu => ?_⟩
  by_cases hp : Present (m.pde d)
  · have hent : ({ m with phys := phys' } : Mm).pte d n = m.pte d n := by
      rw [pte, hpde d hu.1]
      exact hpte d n hu hp
    rw [walk, walk, hpde d hu.1, hent]
  · rw [walk_eq_none.2 fun hc => hp hc.1, walk_eq_none.2 fun hc => hp (hpde d hu.1 ▸ hc.1)]

/-! ## Faults -/

/-- After the page faults of an access, the page is present, and writable if it
    is to be written. -/
theorem Inv.touch (h : Inv lo hi ext m) {a : Nat} (ha : a < 2 ^ 32) (hd : UserDir (a / 2 ^ 22))
    (write : Bool) :
    (m.touch a write = .error .outOfMemory ∧ m.freeFrames ≤ 1) ∨
      ∃ m' e, m.touch a write = .ok m' ∧ Inv lo hi ext m' ∧
        SamePages (fun d n => (d, n) ≠ (a / 2 ^ 22, a / 4096 % 1024)) m m' ∧
        m'.translate a = some e ∧ (write = true → Writable e) ∧
        (∀ e', m.translate a = some e' → Writable e' → Writable e) ∧
        (m.translate a = none → Writable e) := by
  have hu : UserPage (a / 2 ^ 22) (a / 4096 % 1024) := ⟨hd, by omega⟩
  rw [Mm.touch]
  cases he : m.translate a with
  | none =>
    rcases h.doNoPage ha hd he with herr | ⟨m', f, hok, hinv, -, -, hsame, hwalk, -⟩
    · exact .inl herr
    · exact .inr ⟨m', _, hok, hinv, hsame, hwalk, fun _ => writable_entryOf _,
        fun _ _ _ => writable_entryOf _, fun _ => writable_entryOf _⟩
  | some e =>
    dsimp only
    split_ifs with hfault
    · rw [doWpPage_eq m ha]
      rcases h.unWpPage hu (maps_of_walk he) with ⟨herr, hzero⟩ |
        ⟨m', e', hok, hinv, hsame, hwalk, hw⟩
      · exact .inl ⟨herr, by omega⟩
      · exact .inr ⟨m', e', hok, hinv, hsame, hwalk, fun _ => hw, fun _ _ _ => hw, fun _ => hw⟩
    · refine .inr ⟨m, e, rfl, h, SamePages.refl _ _, he, fun hwrite => ?_, fun e' he' hw => ?_,
        fun hnone => by simp at hnone⟩
      · exact not_not.1 fun hw => hfault ⟨hwrite, hw⟩
      · exact Option.some.inj he' ▸ hw

/-! ## Stores -/

/-- A store to a page that is not shared keeps the invariant, how the pages are
    translated, and what the other pages show. -/
theorem Inv.storeOwn (h : Inv lo hi ext m) {a : Nat} {e : Word} (hd : UserDir (a / 2 ^ 22))
    (he : m.translate a = some e) (hge : 256 ≤ frameOf e) (hone : m.memMap (frameOf e - 256) = 1)
    (b : Byte) :
    Inv lo hi ext (m.storeByte (physAddr e a) b) ∧
      (∀ d n, UserPage d n → (m.storeByte (physAddr e a) b).walk d n = m.walk d n) ∧
      SamePages (fun d n => (d, n) ≠ (a / 2 ^ 22, a / 4096 % 1024)) m
        (m.storeByte (physAddr e a) b) := by
  have hu : UserPage (a / 2 ^ 22) (a / 4096 % 1024) := ⟨hd, by omega⟩
  have hm := maps_of_walk he
  have hfree : m.pdeRefs (frameOf e) = 0 :=
    pdeRefs_eq_zero.2 fun d hd' ht => h.not_maps_table hd' ht hu hm
  have hphys : ∀ w, w / 1024 ≠ frameOf e → (m.storeByte (physAddr e a) b).phys w = m.phys w := by
    intro w hne
    refine phys_storeByte_ne fun heq => hne ?_
    rw [heq, physAddr]
    omega
  obtain ⟨hinv, hwalk⟩ := h.changeFrame hge hfree hphys
  refine ⟨hinv, hwalk, fun d n hu' hne => ⟨hwalk d n hu', fun e' he' _ k hk => hphys _ ?_⟩⟩
  -- The page does not share its frame.
  intro heq
  have hframe : frameOf e' = frameOf e := by omega
  obtain ⟨h₁, h₂⟩ := h.maps_unique hge hone hu hm hu' (hframe ▸ maps_of_walk he')
  exact hne (by rw [h₁, h₂])

/-- A writable page is not shared. -/
theorem Inv.own_of_writable (h : Inv lo hi ext m) {a : Nat} {e : Word} (hd : UserDir (a / 2 ^ 22))
    (he : m.translate a = some e) (hw : Writable e) :
    256 ≤ frameOf e ∧ m.memMap (frameOf e - 256) = 1 := by
  have hu : UserPage (a / 2 ^ 22) (a / 4096 % 1024) := ⟨hd, by omega⟩
  exact h.writable _ _ _ hu (maps_of_walk he) ((walk_eq_some.1 he).2.2 ▸ hw)

/-- A store to a writable page. -/
theorem Inv.storeByte (h : Inv lo hi ext m) {a : Nat} {e : Word} (hd : UserDir (a / 2 ^ 22))
    (he : m.translate a = some e) (hw : Writable e) (b : Byte) :
    Inv lo hi ext (m.storeByte (physAddr e a) b) ∧
      (∀ d n, UserPage d n → (m.storeByte (physAddr e a) b).walk d n = m.walk d n) ∧
      SamePages (fun d n => (d, n) ≠ (a / 2 ^ 22, a / 4096 % 1024)) m
        (m.storeByte (physAddr e a) b) :=
  have hown := h.own_of_writable hd he hw
  h.storeOwn hd he hown.1 hown.2 b

end Mm

end NeuOs
