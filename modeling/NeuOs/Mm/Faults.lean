import NeuOs.Mm.Pages

/-!
# Page faults

What `un_wp_page`, `write_verify`, `do_wp_page`, `put_page` and `do_no_page` do
to a page: either they run out of memory, or they keep the invariant, change no
other page, and leave the page present and writable. The shape of the result is
given by the `_cases` lemmas:

* `un_wp_page` makes a page of its own writable, and replaces a shared page, or
  one of the kernel, by a new page of zeros (`replaced`);
* `do_no_page` maps a new page of zeros, and a new page table if the directory
  entry is absent.
-/

namespace NeuOs.Mm

variable {lo hi : Nat} {ext : Nat → Nat} {m : Mm} {d n f g : Nat}

/-- The address of the entry `n` of the page table of the directory entry `d`. -/
def entryAddr (m : Mm) (d n : Nat) : Nat := 4096 * frameOf (m.pde d) + 4 * n

theorem load_entryAddr : m.load (m.entryAddr d n) = m.pte d n := load_table _ _ _

theorem store_entryAddr (v : Word) : m.store (m.entryAddr d n) v = m.setPte d n v :=
  store_table _ _ _ _

theorem pde_alloc (hd : d < 1024) (hf : 256 ≤ f) : (m.alloc f).pde d = m.pde d := by
  rw [pde, phys_alloc, if_neg (by omega), pde]

/-- The entry of a page of a table that is not the frame handed out. -/
theorem pte_alloc (hd : d < 1024) (hn : n < 1024) (hf : 256 ≤ f) (hne : frameOf (m.pde d) ≠ f) :
    (m.alloc f).pte d n = m.pte d n := by
  rw [pte, pde_alloc hd hf, phys_alloc, if_neg (by omega), pte]

/-! ## Write protection -/

/-- Memory after the page `(d, n)` has been replaced by the new frame `f`: the
    old frame is counted down unless it is one of the kernel's. -/
def replaced (m : Mm) (d n f : Nat) : Mm :=
  ((m.alloc f).dropCount (frameOf (m.pte d n))).setPte d n (entryOf (4096 * f))

theorem pde_dropCount (m : Mm) (g d : Nat) : (m.dropCount g).pde d = m.pde d := by
  rw [pde, phys_dropCount, pde]

/-- `un_wp_page` on a page of its own, on a shared page without memory left, and
    on a shared page. -/
theorem unWpPage_cases (m : Mm) (hd : d < 1024) (n : Nat) :
    (256 ≤ frameOf (m.pte d n) ∧ m.memMap (frameOf (m.pte d n) - 256) = 1 ∧
      m.unWpPage (m.entryAddr d n) = .ok (m.setPte d n (writeEnable (m.pte d n)))) ∨
    (¬(256 ≤ frameOf (m.pte d n) ∧ m.memMap (frameOf (m.pte d n) - 256) = 1) ∧
      (m.unWpPage (m.entryAddr d n) = .error .outOfMemory ∧ m.freeFrames = 0 ∨
      ∃ f, 256 ≤ f ∧ f < 4096 ∧ m.memMap (f - 256) = 0 ∧
        m.unWpPage (m.entryAddr d n) = .ok (m.replaced d n f))) := by
  have hpage : pageOf (m.load (m.entryAddr d n)) = 4096 * frameOf (m.pte d n) := by
    rw [load_entryAddr, pageOf_eq]
  have hlow : 4096 * frameOf (m.pte d n) ≥ lowMem ↔ 256 ≤ frameOf (m.pte d n) := by
    rw [lowMem]
    omega
  have hcond : (pageOf (m.load (m.entryAddr d n)) ≥ lowMem ∧
      m.memMap (mapNr (pageOf (m.load (m.entryAddr d n)))) = 1) ↔
      256 ≤ frameOf (m.pte d n) ∧ m.memMap (frameOf (m.pte d n) - 256) = 1 := by
    rw [hpage, mapNr_frame, hlow]
  by_cases hown : 256 ≤ frameOf (m.pte d n) ∧ m.memMap (frameOf (m.pte d n) - 256) = 1
  · refine .inl ⟨hown.1, hown.2, ?_⟩
    rw [unWpPage, if_pos (hcond.2 hown), store_entryAddr, load_entryAddr]
  · refine .inr ⟨hown, ?_⟩
    rcases getFreePage_cases m with ⟨hnone, hzero⟩ | ⟨f, hge, hlt, h0, -, hfree⟩
    · refine .inl ⟨?_, hzero⟩
      rw [unWpPage, if_neg (mt hcond.1 hown), hnone]
      rfl
    · refine .inr ⟨f, hge, hlt, h0, ?_⟩
      rw [unWpPage, if_neg (mt hcond.1 hown), hfree]
      -- the old frame is counted down only if it is not the kernel's
      have hdrop : (if 4096 * frameOf (m.pte d n) ≥ lowMem then
          (m.alloc f).setCount (mapNr (4096 * frameOf (m.pte d n)))
            ((m.alloc f).memMap (mapNr (4096 * frameOf (m.pte d n))) - 1)
          else m.alloc f) = (m.alloc f).dropCount (frameOf (m.pte d n)) := by
        simp only [hlow, mapNr_frame]
        rfl
      have haddr : m.entryAddr d n =
          ((m.alloc f).dropCount (frameOf (m.pte d n))).entryAddr d n := by
        rw [entryAddr, entryAddr, pde_dropCount, pde_alloc hd hge]
      split
      · rename_i heq
        have := congrArg Prod.fst heq
        simp only at this
        omega
      · rename_i heq
        obtain ⟨rfl, rfl⟩ := Prod.mk.inj heq
        simp only [hpage, hdrop]
        rw [haddr, store_entryAddr, replaced]

/-- A new frame is not the frame of a page, nor of a page table. -/
theorem Inv.fresh_ne (h : Inv lo hi ext m) (hge : 256 ≤ f) (hlt : f < 4096)
    (h0 : m.memMap (f - 256) = 0) {d n : Nat} (hu : UserPage d n) :
    (Present (m.pde d) → frameOf (m.pde d) ≠ f) ∧ (m.Maps d n g → g ≠ f) := by
  obtain ⟨-, hpte, hpde, -⟩ := h.frame_free hge hlt h0
  exact ⟨fun hp heq => pdeRefs_eq_zero.1 hpde d hu.1 ⟨hp, heq⟩,
    fun hm heq => pteRefs_eq_zero.1 hpte d n hu (heq ▸ hm)⟩

/-- Pages stay mapped when a free frame is handed out. -/
theorem Inv.maps_alloc (h : Inv lo hi ext m) (hge : 256 ≤ f) (hlt : f < 4096)
    (h0 : m.memMap (f - 256) = 0) (hu : UserPage d n) (hm : m.Maps d n g) :
    (m.alloc f).Maps d n g := by
  have hent := pte_alloc hu.1.2 hu.2 hge ((h.fresh_ne hge hlt h0 hu (g := g)).1 hm.1)
  rw [Maps, pde_alloc hu.1.2 hge, hent]
  exact hm

/-- Replacing a page keeps the invariant and the other pages. -/
theorem Inv.replaced (h : Inv lo hi ext m) (hge : 256 ≤ f) (hlt : f < 4096)
    (h0 : m.memMap (f - 256) = 0) (hu : UserPage d n) (hm : m.Maps d n g) :
    Inv lo hi ext (m.replaced d n f) ∧
      SamePages (fun d' n' => (d', n') ≠ (d, n)) m (m.replaced d n f) ∧
      (m.replaced d n f).walk d n = some (entryOf (4096 * f)) ∧
      ∀ k < 1024, (m.replaced d n f).phys (1024 * f + k) = 0 := by
  have halloc := h.alloc hge hlt h0
  have hm' := h.maps_alloc hge hlt h0 hu hm
  have hpde : (m.alloc f).pde d = m.pde d := pde_alloc hu.1.2 hge
  have hstate : m.replaced d n f = { (m.alloc f).setPte d n (entryOf (4096 * f)) with
      memMap := ((m.alloc f).dropCount (frameOf (m.pte d n))).memMap } := by
    rw [Mm.replaced, dropCount_eq]
    rfl
  have hinv : Inv lo hi ext (m.replaced d n f) := by
    rw [Mm.replaced, hm.2.2]
    exact halloc.replacePage hu hm'
  refine ⟨hinv, ?_, ?_, fun k hk => ?_⟩
  · rw [hstate]
    exact ((h.samePages_alloc hge hlt h0).mono fun _ _ _ => trivial).trans
      (halloc.samePages_setPte hu hm'.1 _ _)
  · have hpde' : ((m.alloc f).setPte d n (entryOf (4096 * f))).pde d = m.pde d := by
      rw [halloc.pde_setPte hu.1 hm'.1 hu.1.2, hpde]
    rw [hstate, walk_memMap, walk, pte_setPte_self (hpde'.trans hpde.symm), hpde', if_pos]
    exact ⟨hm.1, present_entryOf _⟩
  · have htab := (h.fresh_ne hge hlt h0 hu (g := g)).1 hm.1
    have hn := hu.2
    rw [hstate]
    change ((m.alloc f).setPte d n _).phys _ = 0
    rw [phys_setPte_ne _ (by rw [hpde]; omega), phys_alloc, if_pos (by omega)]

/-- Making a page of its own writable keeps the invariant and the other pages. -/
theorem Inv.writeEnabled (h : Inv lo hi ext m) (hu : UserPage d n) (hm : m.Maps d n g)
    (hge : 256 ≤ g) (hone : m.memMap (g - 256) = 1) :
    Inv lo hi ext (m.setPte d n (writeEnable (m.pte d n))) ∧
      SamePages (fun d' n' => (d', n') ≠ (d, n)) m (m.setPte d n (writeEnable (m.pte d n))) ∧
      (m.setPte d n (writeEnable (m.pte d n))).walk d n = some (writeEnable (m.pte d n)) := by
  refine ⟨h.unprotect hu hm hge hone, h.samePages_setPte hu hm.1 _ m.memMap, ?_⟩
  have hpde := h.pde_setPte (n := n) hu.1 hm.1 hu.1.2 (writeEnable (m.pte d n))
  rw [walk, pte_setPte_self hpde, hpde, if_pos ⟨hm.1, present_writeEnable.2 hm.2.1⟩]

/-- `un_wp_page` on a present page runs out of memory, or keeps the invariant
    and the other pages and leaves the page writable. -/
theorem Inv.unWpPage (h : Inv lo hi ext m) (hu : UserPage d n) (hm : m.Maps d n g) :
    (m.unWpPage (m.entryAddr d n) = .error .outOfMemory ∧ m.freeFrames = 0) ∨
      ∃ m' e, m.unWpPage (m.entryAddr d n) = .ok m' ∧ Inv lo hi ext m' ∧
        SamePages (fun d' n' => (d', n') ≠ (d, n)) m m' ∧
        m'.walk d n = some e ∧ Writable e := by
  have hg := hm.2.2
  rcases unWpPage_cases m hu.1.2 n with ⟨hge, hone, hok⟩ | ⟨-, herr | ⟨f, hge, hlt, h0, hok⟩⟩
  · rw [hg] at hge hone
    obtain ⟨hinv, hsame, hwalk⟩ := h.writeEnabled hu hm hge hone
    exact .inr ⟨_, _, hok, hinv, hsame, hwalk, writable_writeEnable _⟩
  · exact .inl herr
  · obtain ⟨hinv, hsame, hwalk, -⟩ := h.replaced hge hlt h0 hu hm
    exact .inr ⟨_, _, hok, hinv, hsame, hwalk, writable_entryOf _⟩

/-- `do_wp_page` is `un_wp_page` on the entry of the page. -/
theorem doWpPage_eq (m : Mm) {a : Nat} (ha : a < 2 ^ 32) :
    m.doWpPage a = m.unWpPage (m.entryAddr (a / 2 ^ 22) (a / 4096 % 1024)) := by
  have hd : a / 2 ^ 22 % 1024 = a / 2 ^ 22 := Nat.mod_eq_of_lt (by omega)
  rw [doWpPage, load_dirEntry, pageOf_eq, tableOffset_eq, hd, entryAddr, Nat.add_comm]

/-- `write_verify` is `un_wp_page` on a present read-only page, and nothing on
    the others. -/
theorem writeVerify_eq (m : Mm) {a : Nat} (ha : a < 2 ^ 32) :
    m.writeVerify a =
      if Present (m.pde (a / 2 ^ 22)) ∧ Present (m.pte (a / 2 ^ 22) (a / 4096 % 1024)) ∧
        ¬Writable (m.pte (a / 2 ^ 22) (a / 4096 % 1024))
      then m.unWpPage (m.entryAddr (a / 2 ^ 22) (a / 4096 % 1024)) else .ok m := by
  have hd : a / 2 ^ 22 % 1024 = a / 2 ^ 22 := Nat.mod_eq_of_lt (by omega)
  rw [writeVerify, load_dirEntry, pageOf_eq, tableOffset_eq, hd]
  change (if ¬Present (m.pde (a / 2 ^ 22)) then _
    else if m.load (m.entryAddr (a / 2 ^ 22) (a / 4096 % 1024)) &&& 3#32 = 1#32 then
      m.unWpPage (m.entryAddr (a / 2 ^ 22) (a / 4096 % 1024)) else _) = _
  rw [load_entryAddr]
  by_cases hp : Present (m.pde (a / 2 ^ 22))
  · rw [if_neg (not_not.2 hp)]
    simp only [and_three_eq_one, hp, true_and]
  · rw [if_pos hp, if_neg fun hc => hp hc.1]

/-- The pages that the kernel maps for itself are writable. -/
theorem Inv.readOnly_user (h : Inv lo hi ext m) {a : Nat} (hp : Present (m.pde (a / 2 ^ 22)))
    (hw : ¬Writable (m.pte (a / 2 ^ 22) (a / 4096 % 1024))) : 16 ≤ a / 2 ^ 22 := by
  by_contra hlt
  by_cases h4 : a / 2 ^ 22 < 4
  · rw [h.kernel.pte h4 (by omega)] at hw
    exact hw (writable_entryOf _)
  · rw [h.kernel.absent (a / 2 ^ 22) (by omega) (by omega)] at hp
    exact not_present_zero hp

/-- `write_verify` of any linear address runs out of memory, or keeps the
    invariant and the other pages. In the 64 MB of slot 0 it changes nothing. -/
theorem Inv.writeVerify (h : Inv lo hi ext m) {a : Nat} (ha : a < 2 ^ 32) :
    (m.writeVerify a = .error .outOfMemory ∧ m.freeFrames = 0) ∨
      ∃ m', m.writeVerify a = .ok m' ∧ Inv lo hi ext m' ∧
        SamePages (fun d n => (d, n) ≠ (a / 2 ^ 22, a / 4096 % 1024)) m m' ∧
        ∀ e, m'.walk (a / 2 ^ 22) (a / 4096 % 1024) = some e → 16 ≤ a / 2 ^ 22 →
          Writable e := by
  rw [writeVerify_eq m ha]
  split_ifs with hro
  · have hd := h.readOnly_user hro.1 hro.2.2
    have hu : UserPage (a / 2 ^ 22) (a / 4096 % 1024) := ⟨⟨hd, by omega⟩, by omega⟩
    rcases h.unWpPage hu ⟨hro.1, hro.2.1, rfl⟩ with herr | ⟨m', e, hok, hinv, hsame, hwalk, hw⟩
    · exact .inl herr
    · refine .inr ⟨m', hok, hinv, hsame, fun e' he' _ => ?_⟩
      rw [hwalk, Option.some.injEq] at he'
      exact he' ▸ hw
  · refine .inr ⟨m, rfl, h, SamePages.refl _ _, fun e he _ => ?_⟩
    obtain ⟨h₁, h₂, rfl⟩ := walk_eq_some.1 he
    exact not_not.1 fun hw => hro ⟨h₁, h₂, hw⟩

/-! ## Absent pages -/

/-- `put_page` on a page whose directory entry is present. -/
theorem putPage_present {a page : Nat} (ha : a < 2 ^ 32) (hp : Present (m.pde (a / 2 ^ 22))) :
    m.putPage page a = (page, m.setPte (a / 2 ^ 22) (a / 4096 % 1024) (entryOf page)) := by
  have hd : a / 2 ^ 22 % 1024 = a / 2 ^ 22 := Nat.mod_eq_of_lt (by omega)
  rw [putPage, load_dirEntry, hd, if_pos hp, pageOf_eq, tableIndex_eq, ← store_entryAddr,
    entryAddr]

/-- `put_page` on a page whose directory entry is absent: a new page table is
    installed, unless there is no memory for it. -/
theorem putPage_absent {a : Nat} (page : Nat) (ha : a < 2 ^ 32)
    (hp : ¬Present (m.pde (a / 2 ^ 22))) :
    m.putPage page a = (0, m) ∧ m.freeFrames = 0 ∨
      ∃ f, 256 ≤ f ∧ f < 4096 ∧ m.memMap (f - 256) = 0 ∧
        m.putPage page a = (page, ((m.alloc f).setPde (a / 2 ^ 22) (entryOf (4096 * f))).setPte
          (a / 2 ^ 22) (a / 4096 % 1024) (entryOf page)) := by
  have hd : a / 2 ^ 22 % 1024 = a / 2 ^ 22 := Nat.mod_eq_of_lt (by omega)
  rcases getFreePage_cases m with ⟨hnone, hzero⟩ | ⟨f, hge, hlt, h0, -, hfree⟩
  · refine .inl ⟨?_, hzero⟩
    rw [putPage, load_dirEntry, hd, if_neg hp, hnone]
    rfl
  · refine .inr ⟨f, hge, hlt, h0, ?_⟩
    have haddr : 4096 * f + 4 * (a / 4096 % 1024) =
        ((m.alloc f).setPde (a / 2 ^ 22) (entryOf (4096 * f))).entryAddr (a / 2 ^ 22)
          (a / 4096 % 1024) := by
      rw [entryAddr, pde_setPde, if_pos rfl, frameOf_entryOf (by omega)]
    rw [putPage, load_dirEntry, hd, if_neg hp, hfree]
    split
    · rename_i heq
      have := congrArg Prod.fst heq
      simp only at this
      omega
    · rename_i heq
      obtain ⟨rfl, rfl⟩ := Prod.mk.inj heq
      simp only [store_dirEntry, hd, tableIndex_eq]
      rw [haddr, store_entryAddr]

/-- Memory after a new page table in the frame `f` has been installed. -/
def newTable (m : Mm) (d f : Nat) : Mm := (m.alloc f).setPde d (entryOf (4096 * f))

/-- Memory after the new frame `f` has been mapped at the page `(d, n)`. -/
def newPage (m : Mm) (d n f : Nat) : Mm := (m.alloc f).setPte d n (entryOf (4096 * f))

/-- A new page table keeps the invariant and all the pages, and is empty. -/
theorem Inv.newTable (h : Inv lo hi ext m) (hge : 256 ≤ f) (hlt : f < 4096)
    (h0 : m.memMap (f - 256) = 0) (hd : UserDir d) (habs : ¬Present (m.pde d)) :
    Inv lo hi ext (m.newTable d f) ∧ SamePages (fun _ _ => True) m (m.newTable d f) ∧
      (m.newTable d f).pde d = entryOf (4096 * f) ∧
      ∀ n < 1024, (m.newTable d f).pte d n = 0 := by
  have halloc := h.alloc hge hlt h0
  have habs' : ¬Present ((m.alloc f).pde d) := by rwa [pde_alloc hd.2 hge]
  have hframe : frameOf (entryOf (4096 * f)) = f := frameOf_entryOf (by omega)
  have hzero : ∀ k < 1024, (m.alloc f).phys (1024 * f + k) = 0 := fun k hk => by
    rw [phys_alloc, if_pos (by omega)]
  have hpde : (m.newTable d f).pde d = entryOf (4096 * f) := by
    rw [Mm.newTable, pde_setPde, if_pos rfl]
  refine ⟨halloc.addTable hzero hd habs', ?_, hpde, fun n hn => ?_⟩
  · refine (h.samePages_alloc hge hlt h0).trans
      (halloc.samePages_setPde hd (fun n g _ hm => habs' hm.1) (fun _ => hframe.symm ▸ hge)
        (fun _ n hn => ?_) (m.alloc f).memMap)
    rw [hframe, hzero n hn]
    exact not_present_zero
  · have hd2 := hd.2
    rw [pte, hpde, hframe, Mm.newTable, phys_setPde_ne _ (by omega), hzero n hn]

/-- Mapping a new page keeps the invariant and the other pages; the page is
    writable and full of zeros. -/
theorem Inv.newPage (h : Inv lo hi ext m) (hge : 256 ≤ f) (hlt : f < 4096)
    (h0 : m.memMap (f - 256) = 0) (hu : UserPage d n) (hp : Present (m.pde d))
    (habs : ¬Present (m.pte d n)) :
    Inv lo hi ext (m.newPage d n f) ∧
      SamePages (fun d' n' => (d', n') ≠ (d, n)) m (m.newPage d n f) ∧
      (m.newPage d n f).walk d n = some (entryOf (4096 * f)) ∧
      ∀ k < 1024, (m.newPage d n f).phys (1024 * f + k) = 0 := by
  have halloc := h.alloc hge hlt h0
  have hpde : (m.alloc f).pde d = m.pde d := pde_alloc hu.1.2 hge
  have hne : frameOf (m.pde d) ≠ f := (h.fresh_ne hge hlt h0 hu (g := f)).1 hp
  have hp' : Present ((m.alloc f).pde d) := by rwa [hpde]
  have habs' : ¬Present ((m.alloc f).pte d n) := by rwa [pte_alloc hu.1.2 hu.2 hge hne]
  refine ⟨halloc.mapPage hu hp' habs', ?_, ?_, fun k hk => ?_⟩
  · exact ((h.samePages_alloc hge hlt h0).mono fun _ _ _ => trivial).trans
      (halloc.samePages_setPte hu hp' _ _)
  · have hpde' := halloc.pde_setPte (n := n) hu.1 hp' hu.1.2 (entryOf (4096 * f))
    rw [walk, Mm.newPage, pte_setPte_self hpde', hpde', if_pos ⟨hp', present_entryOf _⟩]
  · have hn := hu.2
    rw [Mm.newPage, phys_setPte_ne _ (by rw [hpde]; omega), phys_alloc, if_pos (by omega)]

/-- `free_page` on a frame just handed out gives it back. -/
theorem freePage_alloc (m : Mm) (f : Nat) : ∃ m', (m.alloc f).freePage (4096 * f) = .ok m' := by
  rw [freePage]
  split_ifs with hlow hhigh hnz
  · exact ⟨_, rfl⟩
  · exact ⟨_, rfl⟩
  · exact ⟨_, rfl⟩
  · rw [mapNr_frame, memMap_alloc, if_pos rfl] at hnz
    exact absurd (by decide) hnz

/-- `do_no_page` with a new page that `put_page` maps. -/
theorem doNoPage_put {a : Nat} (ha : a < 2 ^ 32) (hge : 256 ≤ f)
    (hfree : m.getFreePage = (4096 * f, m.alloc f))
    (hput : (m.alloc f).putPage (4096 * f) (4096 * (a / 4096)) = (4096 * f, m')) :
    m.doNoPage a = .ok m' := by
  rw [doNoPage, hfree, show a &&& 0xfffff000 = 4096 * (a / 4096) from pageAlign_eq ha]
  split
  · next heq =>
    have hzero := congrArg Prod.fst heq
    dsimp only at hzero
    omega
  · next heq =>
    obtain ⟨rfl, rfl⟩ := Prod.mk.inj heq
    rw [hput]
    split
    · next heq' =>
      have hzero := congrArg Prod.fst heq'
      dsimp only at hzero
      omega
    · next heq' => exact congrArg Except.ok (Prod.mk.inj heq').2.symm

/-- `do_no_page` without memory for the page table. -/
theorem doNoPage_fail {a : Nat} (ha : a < 2 ^ 32) (hge : 256 ≤ f)
    (hfree : m.getFreePage = (4096 * f, m.alloc f))
    (hput : (m.alloc f).putPage (4096 * f) (4096 * (a / 4096)) = (0, m.alloc f)) :
    m.doNoPage a = .error .outOfMemory := by
  obtain ⟨m', hm'⟩ := freePage_alloc m f
  rw [doNoPage, hfree, show a &&& 0xfffff000 = 4096 * (a / 4096) from pageAlign_eq ha]
  split
  · next heq =>
    have hzero := congrArg Prod.fst heq
    dsimp only at hzero
    omega
  · next heq =>
    obtain ⟨rfl, rfl⟩ := Prod.mk.inj heq
    rw [hput]
    change (do
      let _ ← (m.alloc f).freePage (4096 * f)
      (.error .outOfMemory : Except Panic Mm)) = _
    rw [hm']
    rfl

/-- `do_no_page` runs out of memory, or maps a new page through the page table of
    its directory entry, which is new as well if the entry was absent. -/
theorem doNoPage_cases (m : Mm) {a : Nat} (ha : a < 2 ^ 32) :
    m.doNoPage a = .error .outOfMemory ∧ m.freeFrames ≤ 1 ∨
      ∃ f, 256 ≤ f ∧ f < 4096 ∧ m.memMap (f - 256) = 0 ∧
        ((Present (m.pde (a / 2 ^ 22)) ∧
          m.doNoPage a = .ok (m.newPage (a / 2 ^ 22) (a / 4096 % 1024) f)) ∨
        (¬Present (m.pde (a / 2 ^ 22)) ∧
          ∃ g, 256 ≤ g ∧ g < 4096 ∧ (m.alloc f).memMap (g - 256) = 0 ∧
            m.doNoPage a = .ok (((m.alloc f).newTable (a / 2 ^ 22) g).setPte (a / 2 ^ 22)
              (a / 4096 % 1024) (entryOf (4096 * f))))) := by
  have ha' : 4096 * (a / 4096) < 2 ^ 32 := by omega
  have hdir : 4096 * (a / 4096) / 2 ^ 22 = a / 2 ^ 22 := by omega
  have hent : 4096 * (a / 4096) / 4096 % 1024 = a / 4096 % 1024 := by omega
  have hd : a / 2 ^ 22 < 1024 := by omega
  rcases getFreePage_cases m with ⟨hnone, hzero⟩ | ⟨f, hge, hlt, h0, -, hfree⟩
  · refine .inl ⟨?_, by omega⟩
    rw [doNoPage, hnone]
    rfl
  · by_cases hp : Present (m.pde (a / 2 ^ 22))
    · refine .inr ⟨f, hge, hlt, h0, .inl ⟨hp, ?_⟩⟩
      have hp' : Present ((m.alloc f).pde (4096 * (a / 4096) / 2 ^ 22)) := by
        rwa [hdir, pde_alloc hd hge]
      rw [doNoPage_put ha hge hfree (putPage_present ha' hp'), hdir, hent, newPage]
    · have hp' : ¬Present ((m.alloc f).pde (4096 * (a / 4096) / 2 ^ 22)) := by
        rwa [hdir, pde_alloc hd hge]
      rcases putPage_absent (4096 * f) ha' hp' with ⟨hfail, hzero⟩ |
        ⟨g, hge', hlt', h0', hok⟩
      · refine .inl ⟨?_, by have := freeFrames_alloc hge hlt h0; omega⟩
        exact doNoPage_fail ha hge hfree hfail
      · refine .inr ⟨f, hge, hlt, h0, .inr ⟨hp, g, hge', hlt', h0', ?_⟩⟩
        rw [doNoPage_put ha hge hfree hok, hdir, hent, newTable]

/-- Mapping a new page through a new page table keeps the invariant and the
    other pages; the page is writable and full of zeros. -/
theorem Inv.newTablePage (h : Inv lo hi ext m) (hge : 256 ≤ f) (hlt : f < 4096)
    (h0 : m.memMap (f - 256) = 0) (hge' : 256 ≤ g) (hlt' : g < 4096)
    (h0' : (m.alloc f).memMap (g - 256) = 0) (hu : UserPage d n) (habs : ¬Present (m.pde d)) :
    let m' := ((m.alloc f).newTable d g).setPte d n (entryOf (4096 * f))
    Inv lo hi ext m' ∧ SamePages (fun d' n' => (d', n') ≠ (d, n)) m m' ∧
      m'.walk d n = some (entryOf (4096 * f)) ∧ ∀ k < 1024, m'.phys (1024 * f + k) = 0 := by
  intro m'
  have halloc := h.alloc hge hlt h0
  have habs' : ¬Present ((m.alloc f).pde d) := by rwa [pde_alloc hu.1.2 hge]
  have hne : f ≠ g := by
    rintro rfl
    rw [memMap_alloc, if_pos rfl] at h0'
    exact absurd h0' (by decide)
  obtain ⟨htab, hsame, hpde, hempty⟩ := halloc.newTable hge' hlt' h0' hu.1 habs'
  have hp : Present (((m.alloc f).newTable d g).pde d) := hpde ▸ present_entryOf _
  have hzero : ¬Present (((m.alloc f).newTable d g).pte d n) := by
    rw [hempty n hu.2]
    exact not_present_zero
  refine ⟨htab.mapPage hu hp hzero, ?_, ?_, fun k hk => ?_⟩
  · exact (((h.samePages_alloc hge hlt h0).trans hsame).mono fun _ _ _ => trivial).trans
      (htab.samePages_setPte hu hp _ _)
  · have hpde' := htab.pde_setPte (n := n) hu.1 hp hu.1.2 (entryOf (4096 * f))
    rw [walk, pte_setPte_self hpde', hpde', if_pos ⟨hp, present_entryOf _⟩]
  · have hd := hu.1.2
    have hn := hu.2
    rw [phys_setPte_ne _ (by rw [hpde, frameOf_entryOf (by omega)]; omega), Mm.newTable,
      phys_setPde_ne _ (by omega), phys_alloc, if_neg (by omega), phys_alloc, if_pos (by omega)]

/-- `do_no_page` at an absent page runs out of memory, or keeps the invariant
    and the other pages and maps a new writable page, full of zeros. -/
theorem Inv.doNoPage (h : Inv lo hi ext m) {a : Nat} (ha : a < 2 ^ 32) (hd : UserDir (a / 2 ^ 22))
    (habs : m.walk (a / 2 ^ 22) (a / 4096 % 1024) = none) :
    (m.doNoPage a = .error .outOfMemory ∧ m.freeFrames ≤ 1) ∨
      ∃ m' f, m.doNoPage a = .ok m' ∧ Inv lo hi ext m' ∧ 256 ≤ f ∧ f < 4096 ∧
        SamePages (fun d n => (d, n) ≠ (a / 2 ^ 22, a / 4096 % 1024)) m m' ∧
        m'.walk (a / 2 ^ 22) (a / 4096 % 1024) = some (entryOf (4096 * f)) ∧
        ∀ k < 1024, m'.phys (1024 * f + k) = 0 := by
  have hu : UserPage (a / 2 ^ 22) (a / 4096 % 1024) := ⟨hd, by omega⟩
  have habs := walk_eq_none.1 habs
  rcases doNoPage_cases m ha with herr | ⟨f, hge, hlt, h0, hcase⟩
  · exact .inl herr
  · rcases hcase with ⟨hp, hok⟩ | ⟨hp, g, hge', hlt', h0', hok⟩
    · obtain ⟨hinv, hsame, hwalk, hzero⟩ := h.newPage hge hlt h0 hu hp fun hc => habs ⟨hp, hc⟩
      exact .inr ⟨_, f, hok, hinv, hge, hlt, hsame, hwalk, hzero⟩
    · obtain ⟨hinv, hsame, hwalk, hzero⟩ := h.newTablePage hge hlt h0 hge' hlt' h0' hu hp
      exact .inr ⟨_, f, hok, hinv, hge, hlt, hsame, hwalk, hzero⟩

end NeuOs.Mm
