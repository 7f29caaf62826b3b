import NeuOs.Mm.Access

/-!
# What a process reads

A process reads, at a linear address, the byte that is there, or 0 if the page
is absent: `do_no_page` maps a page of zeros (`reads`). What an access does to
that, at the accessed address and at every other one, depends on the fault it
runs into:

* no fault, an absent page whose page table is there, or a read-only page of its
  own: nothing changes (`Inv.reads_newPage`, `Inv.reads_writeEnabled`);
* an absent page whose page table is absent too: the directory entry of the new
  page table changes. It is read by those who have frame 0, the page directory,
  among their pages (`Inv.reads_newTablePage`, `Inv.reads_dir_ne`);
* a read-only page that is shared or the kernel's: the whole page reads as zeros
  (`Inv.reads_replaced`).
-/

namespace NeuOs.Mm

variable {lo hi : Nat} {ext : Nat → Nat} {m m' : Mm} {a d n f g : Nat} {e : Word}

/-- The byte a process reads at the linear address `a`. -/
def reads (m : Mm) (a : Nat) : Byte := (m.view a).getD 0

/-- A linear address of the slots 1 to 63. -/
def UserAddr (a : Nat) : Prop := 0x4000000 ≤ a ∧ a < 2 ^ 32

/-- The linear address `a` is on the page `(d, n)`. -/
def OnPage (d n a : Nat) : Prop := (a / 2 ^ 22, a / 4096 % 1024) = (d, n)

instance (d n a : Nat) : Decidable (OnPage d n a) := inferInstanceAs (Decidable (_ = _))

theorem UserAddr.page (ha : UserAddr a) : UserPage (a / 2 ^ 22) (a / 4096 % 1024) := by
  obtain ⟨h₁, h₂⟩ := ha
  exact ⟨⟨by omega, by omega⟩, by omega⟩

theorem OnPage.translate (h : OnPage d n a) (m : Mm) : m.translate a = m.walk d n := by
  obtain ⟨rfl, rfl⟩ := Prod.mk.inj h
  rfl

theorem reads_of_none (h : m.translate a = none) : m.reads a = 0 := by
  rw [reads, view, h]
  rfl

theorem reads_of_some (h : m.translate a = some e) : m.reads a = m.loadByte (physAddr e a) := by
  rw [reads, view, h]
  rfl

theorem physAddr_div (e : Word) (a : Nat) : physAddr e a / 4 = 1024 * frameOf e + a % 4096 / 4 := by
  rw [physAddr]
  omega

/-- The bytes of a frame whose words stay the same. -/
theorem loadByte_congr (h : ∀ k < 1024, m'.phys (1024 * frameOf e + k) =
    m.phys (1024 * frameOf e + k)) (a : Nat) :
    m'.loadByte (physAddr e a) = m.loadByte (physAddr e a) := by
  rw [loadByte, loadByte, physAddr_div, h _ (by omega)]

/-- The bytes of a frame of zeros. -/
theorem loadByte_zero (h : ∀ k < 1024, m.phys (1024 * frameOf e + k) = 0) (a : Nat) :
    m.loadByte (physAddr e a) = 0 := by
  rw [loadByte, physAddr_div, h _ (by omega)]
  exact BitVec.extractLsb'_zero

/-- Pages that stay the same are translated in the same way, and show the same bytes
    unless they are the page directory. -/
theorem SamePages.view {S : Nat → Nat → Prop} (h : SamePages S m m') (ha : UserAddr a)
    (hS : S (a / 2 ^ 22) (a / 4096 % 1024)) :
    m'.translate a = m.translate a ∧
      ((∀ e, m.translate a = some e → frameOf e ≠ 0) → m'.view a = m.view a) := by
  obtain ⟨hwalk, hphys⟩ := h _ _ ha.page hS
  have htrans : m'.translate a = m.translate a := hwalk
  refine ⟨htrans, fun hne => ?_⟩
  rw [Mm.view, Mm.view, htrans]
  cases he : m.translate a with
  | none => rfl
  | some e =>
    have hbyte := loadByte_congr (hphys e he (hne e he)) a
    exact congrArg some hbyte

/-- Pages that stay the same read the same, unless they are the page directory. -/
theorem SamePages.reads_of_ne {S : Nat → Nat → Prop} (h : SamePages S m m') (ha : UserAddr a)
    (hS : S (a / 2 ^ 22) (a / 4096 % 1024))
    (hne : ∀ e, m.translate a = some e → frameOf e ≠ 0) : m'.reads a = m.reads a := by
  rw [Mm.reads, Mm.reads, (h.view ha hS).2 hne]

/-- What is read of a page that is the page directory. -/
theorem reads_dir (he : m.translate a = some e) (h0 : frameOf e = 0) :
    m.reads a = getByte (m.pde (a % 4096 / 4)) (a % 4) := by
  have hmod : physAddr e a % 4 = a % 4 := by
    rw [physAddr]
    omega
  rw [reads_of_some he, loadByte, physAddr_div, hmod, h0, Nat.mul_zero, Nat.zero_add, pde]

/-- Pages that stay the same read the same, if the page directory stays the same
    as well. -/
theorem SamePages.reads {S : Nat → Nat → Prop} (h : SamePages S m m') (ha : UserAddr a)
    (hS : S (a / 2 ^ 22) (a / 4096 % 1024)) (hdir : ∀ d < 1024, m'.pde d = m.pde d) :
    m'.reads a = m.reads a := by
  by_cases hzero : ∃ e, m.translate a = some e ∧ frameOf e = 0
  · obtain ⟨e, he, h0⟩ := hzero
    rw [reads_dir he h0, reads_dir ((h _ _ ha.page hS).1.trans he) h0, hdir _ (by omega)]
  · exact h.reads_of_ne ha hS fun e he h0 => hzero ⟨e, he, h0⟩

/-! ## The faults -/

/-- Making a page of its own writable changes nothing that is read. -/
theorem Inv.reads_writeEnabled (h : Inv lo hi ext m) (hu : UserPage d n) (hm : m.Maps d n g)
    (hge : 256 ≤ g) (hone : m.memMap (g - 256) = 1) (ha : UserAddr a) :
    (m.setPte d n (writeEnable (m.pte d n))).reads a = m.reads a := by
  obtain ⟨-, hsame, hwalk⟩ := h.writeEnabled hu hm hge hone
  by_cases hpage : OnPage d n a
  · -- The same frame is read through the changed entry.
    have hframe : frameOf (m.pte d n) ≠ frameOf (m.pde d) := fun heq =>
      h.not_maps_table hu.1 ⟨hm.1, rfl⟩ hu (heq ▸ ⟨hm.1, hm.2.1, rfl⟩)
    rw [reads_of_some ((hpage.translate m).trans hm.walk),
      reads_of_some ((hpage.translate _).trans hwalk), physAddr, frameOf_writeEnable, ← physAddr]
    refine loadByte_congr (fun k hk => phys_setPte_ne m ?_ _) a
    have hn := hu.2
    omega
  · exact hsame.reads ha hpage fun d' hd' => h.pde_setPte hu.1 hm.1 hd' _

/-- Replacing a page makes it read as zeros. -/
theorem Inv.reads_replaced (h : Inv lo hi ext m) (hge : 256 ≤ f) (hlt : f < 4096)
    (h0 : m.memMap (f - 256) = 0) (hu : UserPage d n) (hm : m.Maps d n g) (ha : UserAddr a) :
    (m.replaced d n f).reads a = if OnPage d n a then 0 else m.reads a := by
  obtain ⟨-, hsame, hwalk, hzero⟩ := h.replaced hge hlt h0 hu hm
  have hframe : frameOf (entryOf (4096 * f)) = f := frameOf_entryOf (by omega)
  split_ifs with hpage
  · rw [reads_of_some ((hpage.translate _).trans hwalk)]
    exact loadByte_zero (by rwa [hframe]) a
  · have hp : Present ((m.alloc f).pde d) := by
      rw [pde_alloc hu.1.2 hge]
      exact hm.1
    have hdir : ∀ d' < 1024, (m.replaced d n f).pde d' = m.pde d' := fun d' hd' => by
      have hset := (h.alloc hge hlt h0).pde_setPte (n := n) hu.1 hp hd' (entryOf (4096 * f))
      have hdrop : (m.replaced d n f).pde d' =
          ((m.alloc f).setPte d n (entryOf (4096 * f))).pde d' := by
        rw [Mm.replaced, dropCount_eq]
        rfl
      rw [hdrop, hset, pde_alloc hd' hge]
    exact hsame.reads ha hpage hdir

/-- Mapping a new page of zeros at an absent page changes nothing that is read,
    if its page table is there. -/
theorem Inv.reads_newPage (h : Inv lo hi ext m) (hge : 256 ≤ f) (hlt : f < 4096)
    (h0 : m.memMap (f - 256) = 0) (hu : UserPage d n) (hp : Present (m.pde d))
    (habs : ¬Present (m.pte d n)) (ha : UserAddr a) :
    (m.newPage d n f).reads a = m.reads a := by
  obtain ⟨-, hsame, hwalk, hzero⟩ := h.newPage hge hlt h0 hu hp habs
  have hframe : frameOf (entryOf (4096 * f)) = f := frameOf_entryOf (by omega)
  by_cases hpage : OnPage d n a
  · have hnone : m.walk d n = none := walk_eq_none.2 fun hc => habs hc.2
    rw [reads_of_none ((hpage.translate m).trans hnone),
      reads_of_some ((hpage.translate _).trans hwalk)]
    exact loadByte_zero (by rwa [hframe]) a
  · refine hsame.reads ha hpage fun d' hd' => ?_
    have hp' : Present ((m.alloc f).pde d) := by rwa [pde_alloc hu.1.2 hge]
    rw [Mm.newPage, (h.alloc hge hlt h0).pde_setPte hu.1 hp' hd', pde_alloc hd' hge]

/-- The page directory after a new page has been mapped through a new page table:
    one entry that was absent is present. -/
theorem Inv.pde_newTablePage (h : Inv lo hi ext m) (hge : 256 ≤ f) (hlt : f < 4096)
    (h0 : m.memMap (f - 256) = 0) (hge' : 256 ≤ g) (hlt' : g < 4096)
    (h0' : (m.alloc f).memMap (g - 256) = 0) (hu : UserPage d n) (habs : ¬Present (m.pde d))
    {d' : Nat} (hd' : d' < 1024) :
    (((m.alloc f).newTable d g).setPte d n (entryOf (4096 * f))).pde d' =
      if d' = d then entryOf (4096 * g) else m.pde d' := by
  have halloc := h.alloc hge hlt h0
  have habs' : ¬Present ((m.alloc f).pde d) := by rwa [pde_alloc hu.1.2 hge]
  obtain ⟨htab, -, hpde, -⟩ := halloc.newTable hge' hlt' h0' hu.1 habs'
  rw [htab.pde_setPte hu.1 (hpde ▸ present_entryOf _) hd', Mm.newTable, pde_setPde]
  split_ifs
  · rfl
  · rw [pde_alloc hd' hge', pde_alloc hd' hge]

/-- Mapping a new page through a new page table changes what is read at an
    address only if the address is in the entry of the page directory. -/
theorem Inv.reads_newTablePage (h : Inv lo hi ext m) (hge : 256 ≤ f) (hlt : f < 4096)
    (h0 : m.memMap (f - 256) = 0) (hge' : 256 ≤ g) (hlt' : g < 4096)
    (h0' : (m.alloc f).memMap (g - 256) = 0) (hu : UserPage d n) (habs : ¬Present (m.pde d))
    (ha : UserAddr a) (hne : ∀ e, m.translate a = some e → frameOf e = 0 → a % 4096 / 4 ≠ d) :
    (((m.alloc f).newTable d g).setPte d n (entryOf (4096 * f))).reads a = m.reads a := by
  obtain ⟨-, hsame, hwalk, hzero⟩ := h.newTablePage hge hlt h0 hge' hlt' h0' hu habs
  have hframe : frameOf (entryOf (4096 * f)) = f := frameOf_entryOf (by omega)
  by_cases hpage : OnPage d n a
  · have hnone : m.walk d n = none := walk_eq_none.2 fun hc => habs hc.1
    rw [reads_of_none ((hpage.translate m).trans hnone),
      reads_of_some ((hpage.translate _).trans hwalk)]
    exact loadByte_zero (by rwa [hframe]) a
  · by_cases hdir : ∃ e, m.translate a = some e ∧ frameOf e = 0
    · obtain ⟨e, he, he0⟩ := hdir
      rw [reads_dir he he0, reads_dir ((hsame _ _ ha.page hpage).1.trans he) he0,
        h.pde_newTablePage hge hlt h0 hge' hlt' h0' hu habs (by omega), if_neg (hne e he he0)]
    · exact hsame.reads_of_ne ha hpage fun e he he0 => hdir ⟨e, he, he0⟩

/-- The first byte of that entry is read differently. -/
theorem Inv.reads_newTablePage_ne (h : Inv lo hi ext m) (hge : 256 ≤ f) (hlt : f < 4096)
    (h0 : m.memMap (f - 256) = 0) (hge' : 256 ≤ g) (hlt' : g < 4096)
    (h0' : (m.alloc f).memMap (g - 256) = 0) (hu : UserPage d n) (habs : ¬Present (m.pde d))
    (ha : UserAddr a) (he : m.translate a = some e) (he0 : frameOf e = 0)
    (hdir : a % 4096 = 4 * d) :
    (((m.alloc f).newTable d g).setPte d n (entryOf (4096 * f))).reads a ≠ m.reads a := by
  obtain ⟨-, hsame, -, -⟩ := h.newTablePage hge hlt h0 hge' hlt' h0' hu habs
  have hpage : (a / 2 ^ 22, a / 4096 % 1024) ≠ (d, n) := fun hpage => by
    have hd := (walk_eq_some.1 (OnPage.translate hpage m ▸ he)).1
    exact habs hd
  have hword : a % 4096 / 4 = d := by omega
  have hbyte : a % 4 = 0 := by omega
  have hbit : ∀ w : Word, (getByte w 0).getLsbD 0 = w.getLsbD 0 := fun w => by simp [getByte]
  rw [reads_dir he he0, reads_dir ((hsame _ _ ha.page hpage).1.trans he) he0, hword, hbyte,
    h.pde_newTablePage hge hlt h0 hge' hlt' h0' hu habs hu.1.2, if_pos rfl]
  intro heq
  have hlsb := congrArg (·.getLsbD 0) heq
  simp only [hbit] at hlsb
  rw [present_iff, ← hlsb, ← present_iff] at habs
  exact habs (present_entryOf _)

/-! ## Loads and stores -/

/-- Storing a byte at an address whose page is not shared changes what is read there,
    and nowhere else. -/
theorem Inv.reads_pokeOwn (h : Inv lo hi ext m) {a' : Nat} (ha : UserAddr a)
    (he : m.translate a = some e) (hge : 256 ≤ frameOf e) (hone : m.memMap (frameOf e - 256) = 1)
    (b : Byte) (ha' : UserAddr a') :
    (m.poke a b).reads a' = if a' = a then b else m.reads a' := by
  obtain ⟨-, hwalk, hsame⟩ := h.storeOwn ha.page.1 he hge hone b
  have hpoke : m.poke a b = m.storeByte (physAddr e a) b := by
    rw [poke, he]
    rfl
  rw [hpoke]
  by_cases hpage : OnPage (a / 2 ^ 22) (a / 4096 % 1024) a'
  · have htr : m.translate a' = some e := (hpage.translate m).trans he
    have htr' : (m.storeByte (physAddr e a) b).translate a' = some e :=
      (hwalk _ _ ha'.page).trans htr
    have haddr : physAddr e a' = physAddr e a ↔ a' = a := by
      obtain ⟨h₁, h₂⟩ := Prod.mk.inj hpage
      rw [physAddr, physAddr]
      omega
    rw [reads_of_some htr, reads_of_some htr', loadByte_storeByte]
    simp only [haddr]
  · have hne : a' ≠ a := by
      rintro rfl
      exact hpage rfl
    rw [if_neg hne]
    refine hsame.reads ha' hpage fun d hd => phys_storeByte_ne ?_
    rw [physAddr_div]
    omega

/-- Storing a byte at a writable address. -/
theorem Inv.reads_poke (h : Inv lo hi ext m) {a' : Nat} (ha : UserAddr a)
    (he : m.translate a = some e) (hw : Writable e) (b : Byte) (ha' : UserAddr a') :
    (m.poke a b).reads a' = if a' = a then b else m.reads a' :=
  have hown := h.own_of_writable ha.page.1 he hw
  h.reads_pokeOwn ha he hown.1 hown.2 b ha'

/-- A load returns what is read at the address. -/
theorem Inv.userLoad_eq (h : Inv lo hi ext m) (ha : UserAddr a) {r : Option Byte}
    (hok : m.userLoad a = .ok (r, m')) :
    m.touch a false = .ok m' ∧ Inv lo hi ext m' ∧ r = some (m'.reads a) := by
  rw [userLoad] at hok
  rcases h.touch ha.2 ha.page.1 false with ⟨herr, -⟩ | ⟨m₁, e, htouch, hinv, -, he, -⟩
  · rw [herr] at hok
    cases hok
  · rw [htouch] at hok
    obtain ⟨rfl, rfl⟩ := Prod.mk.inj (Except.ok.inj hok)
    refine ⟨htouch, hinv, ?_⟩
    rw [reads, view, he]
    rfl

/-- A store leaves the byte at the address, after the faults of the access. -/
theorem Inv.userStore_eq (h : Inv lo hi ext m) (ha : UserAddr a) {b : Byte}
    (hok : m.userStore a b = .ok m') :
    ∃ m₁, m.touch a true = .ok m₁ ∧ Inv lo hi ext m' ∧
      ∀ a', UserAddr a' → m'.reads a' = if a' = a then b else m₁.reads a' := by
  rw [userStore] at hok
  rcases h.touch ha.2 ha.page.1 true with ⟨herr, -⟩ | ⟨m₁, e, htouch, hinv, -, he, hw, -⟩
  · rw [herr] at hok
    cases hok
  · rw [htouch] at hok
    obtain rfl : m₁.poke a b = m' := Except.ok.inj hok
    have hpoke : m₁.poke a b = m₁.storeByte (physAddr e a) b := by
      rw [poke, he]
      rfl
    exact ⟨m₁, htouch, hpoke ▸ (hinv.storeByte ha.page.1 he (hw rfl) b).1,
      fun a' ha' => hinv.reads_poke ha he (hw rfl) b ha'⟩

/-! ## What the faults of an access do to what is read -/

/-- The page faults of an access change nothing that is read, add a page table,
    or replace the page by zeros. -/
theorem Inv.touch_reads (h : Inv lo hi ext m) {a : Nat} (ha : UserAddr a) {write : Bool}
    (hok : m.touch a write = .ok m') :
    ((m.translate a = none → Present (m.pde (a / 2 ^ 22))) ∧
      (write = true → ∀ e, m.translate a = some e →
        Writable e ∨ (256 ≤ frameOf e ∧ m.memMap (frameOf e - 256) = 1)) ∧
      ∀ a', UserAddr a' → m'.reads a' = m.reads a') ∨
    (m.translate a = none ∧ ¬Present (m.pde (a / 2 ^ 22)) ∧
      (∀ a', UserAddr a' → (∀ e, m.translate a' = some e → frameOf e = 0 →
        a' % 4096 / 4 ≠ a / 2 ^ 22) → m'.reads a' = m.reads a') ∧
      ∀ a' e, UserAddr a' → m.translate a' = some e → frameOf e = 0 →
        a' % 4096 = 4 * (a / 2 ^ 22) → m'.reads a' ≠ m.reads a') ∨
    ∃ e, m.translate a = some e ∧ write = true ∧ ¬Writable e ∧
      ¬(256 ≤ frameOf e ∧ m.memMap (frameOf e - 256) = 1) ∧
      ∀ a', UserAddr a' → m'.reads a' =
        if OnPage (a / 2 ^ 22) (a / 4096 % 1024) a' then 0 else m.reads a' := by
  have hu := ha.page
  rw [Mm.touch] at hok
  cases he : m.translate a with
  | none =>
    rw [he] at hok
    -- an absent page: `do_no_page`
    have habs : ¬(Present (m.pde (a / 2 ^ 22)) ∧ Present (m.pte (a / 2 ^ 22) (a / 4096 % 1024))) :=
      walk_eq_none.1 he
    rcases doNoPage_cases m ha.2 with ⟨herr, -⟩ | ⟨f, hge, hlt, h0, hcase⟩
    · rw [herr] at hok
      cases hok
    · rcases hcase with ⟨hp, hres⟩ | ⟨hp, g, hge', hlt', h0', hres⟩
      · -- the new page is zero, as the absent one was read
        obtain rfl : m.newPage (a / 2 ^ 22) (a / 4096 % 1024) f = m' :=
          Except.ok.inj (hres.symm.trans hok)
        exact .inl ⟨fun _ => hp, fun _ e hc => by simp at hc, fun a' ha' =>
          h.reads_newPage hge hlt h0 hu hp (fun hc => habs ⟨hp, hc⟩) ha'⟩
      · obtain rfl := Except.ok.inj (hres.symm.trans hok)
        -- the new directory entry can be seen in a copy of the page directory
        refine .inr (.inl ⟨rfl, hp, fun a' ha' hne => ?_, fun a' e ha' he' h0e hdir => ?_⟩)
        · exact h.reads_newTablePage hge hlt h0 hge' hlt' h0' hu hp ha' hne
        · exact h.reads_newTablePage_ne hge hlt h0 hge' hlt' h0' hu hp ha' he' h0e hdir
  | some e =>
    rw [he] at hok
    dsimp only at hok
    -- a present page: `do_wp_page`, if it is to be written and is read-only
    have hm := maps_of_walk he
    split_ifs at hok with hfault
    · rw [doWpPage_eq m ha.2] at hok
      have hframe : frameOf (m.pte (a / 2 ^ 22) (a / 4096 % 1024)) = frameOf e := hm.2.2
      rcases unWpPage_cases m hu.1.2 (a / 4096 % 1024) with
        ⟨hge, hone, hres⟩ | ⟨hown, ⟨herr, -⟩ | ⟨f, hge, hlt, h0, hres⟩⟩
      · obtain rfl := Except.ok.inj (hres.symm.trans hok)
        rw [hframe] at hge hone
        refine .inl ⟨fun hc => by simp at hc, fun _ e' he' => ?_, fun a' ha' => ?_⟩
        · exact Option.some.inj he' ▸ .inr ⟨hge, hone⟩
        · exact h.reads_writeEnabled hu hm hge hone ha'
      · rw [herr] at hok
        cases hok
      · obtain rfl := Except.ok.inj (hres.symm.trans hok)
        rw [hframe] at hown
        exact .inr (.inr ⟨e, rfl, hfault.1, hfault.2, hown, fun a' ha' =>
          h.reads_replaced hge hlt h0 hu hm ha'⟩)
    · obtain rfl := Except.ok.inj hok
      refine .inl ⟨fun hc => by simp at hc, fun hwrite e' he' => ?_, fun _ _ => rfl⟩
      exact Option.some.inj he' ▸ .inl (not_not.1 fun hw => hfault ⟨hwrite, hw⟩)

end NeuOs.Mm
