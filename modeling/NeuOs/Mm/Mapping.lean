import NeuOs.Mm.Access

/-!
# Allocating and mapping a page (`mm/memory.c`)

* `getFreePage_highest`: `get_free_page` hands out the highest free frame, and changes nothing
  else.
* `putPage_mapsOne`: `put_page` maps the page at its address, and leaves the pages at all other
  addresses as they are, also if it installs a new page table. Without memory for the page table
  it changes nothing, and its callers give the page back before they panic.

The second is about all states of memory in which the page tables are frames in use, each of
them the table of one directory entry (`TablesOwned`), and not the directory itself, and in which
`free_page` takes back what can be handed out (`LaidOut`).
-/

namespace NeuOs.Mm

/-! ## The highest free frame -/

/-- `m'` is `m` with the frame of `mem_map[i]` in use, and filled with zeros. -/
structure HandedOut (i : Nat) (m m' : Mm) : Prop where
  count : m'.memMap i = 1
  counts : ∀ j, j ≠ i → m'.memMap j = m.memMap j
  zeros : ∀ p, lowMem + 4096 * i ≤ p → p < lowMem + 4096 * i + 4096 → m'.loadByte p = 0
  bytes : ∀ p, ¬(lowMem + 4096 * i ≤ p ∧ p < lowMem + 4096 * i + 4096) →
    m'.loadByte p = m.loadByte p
  highMemory : m'.highMemory = m.highMemory

theorem handedOut_alloc (m : Mm) (i : Nat) : HandedOut i m (m.alloc (i + 256)) := by
  have hlow : lowMem = 4096 * 256 := rfl
  have hbyte : ∀ p, (m.alloc (i + 256)).loadByte p =
      if p / 4 / 1024 = i + 256 then 0 else m.loadByte p := fun p => by
    rw [loadByte, phys_alloc]
    split_ifs
    · exact BitVec.extractLsb'_zero
    · rfl
  refine ⟨?_, fun j hj => ?_, fun p h₁ h₂ => ?_, fun p hp => ?_, rfl⟩
  · rw [memMap_alloc, if_pos (Nat.add_sub_cancel _ _).symm]
  · rw [memMap_alloc, if_neg (by omega)]
  · rw [hbyte, if_pos (by omega)]
  · rw [hbyte, if_neg (by omega)]

/-- `get_free_page` returns 0 and changes nothing if no counter is zero; and otherwise it hands out
    the frame of the last counter that is. -/
theorem getFreePage_highest (m : Mm) :
    ((∀ i < pagingPages, m.memMap i ≠ 0) ∧ m.getFreePage = (0, m)) ∨
      ∃ i < pagingPages, m.memMap i = 0 ∧ (∀ j, i < j → j < pagingPages → m.memMap j ≠ 0) ∧
        m.getFreePage.1 = lowMem + 4096 * i ∧ HandedOut i m m.getFreePage.2 := by
  have hpages : pagingPages = 3840 := rfl
  have hlow : lowMem = 4096 * 256 := rfl
  rcases getFreePage_cases m with ⟨hnone, hzero⟩ | ⟨f, hge, hlt, h0, hmax, hfree⟩
  · refine .inl ⟨fun i hi => ?_, hnone⟩
    have hne := freeFrames_eq_zero.1 hzero (i + 256) (by omega) (by omega)
    rwa [Nat.add_sub_cancel] at hne
  · refine .inr ⟨f - 256, by omega, h0, fun j h₁ h₂ => ?_, ?_, ?_⟩
    · have hne := hmax (j + 256) (by omega) (by omega)
      rwa [Nat.add_sub_cancel] at hne
    · rw [hfree]
      dsimp only
      omega
    · have hout := handedOut_alloc m (f - 256)
      rw [Nat.sub_add_cancel hge] at hout
      rw [hfree]
      exact hout

/-! ## The layout of the page tables -/

/-- No page table is in a free frame, and no two directory entries have the same page table. -/
structure TablesOwned (m : Mm) : Prop where
  used : ∀ d < 1024, Present (m.pde d) → 256 ≤ frameOf (m.pde d) → frameOf (m.pde d) < 4096 →
    m.memMap (frameOf (m.pde d) - 256) ≠ 0
  unshared : ∀ d d', d < 1024 → d' < 1024 → Present (m.pde d) → Present (m.pde d') →
    frameOf (m.pde d) = frameOf (m.pde d') → d = d'

/-- The directory is not a page table either. -/
structure TablesApart (m : Mm) : Prop extends TablesOwned m where
  directory : ∀ d < 1024, Present (m.pde d) → frameOf (m.pde d) ≠ 0

/-- The free frames are below `HIGH_MEMORY`, as `mem_init` leaves them. -/
structure LaidOut (m : Mm) : Prop extends TablesApart m where
  highMemory : ∀ f, 256 ≤ f → f < 4096 → m.memMap (f - 256) = 0 → 4096 * f < m.highMemory

variable {lo hi : Nat} {ext : Nat → Nat} {m m₁ : Mm} {d n d' n' f page a : Nat} {v : Word}

namespace TablesApart

/-- A free frame is not a page table. -/
theorem frame_ne (h : m.TablesApart) (hge : 256 ≤ f) (hlt : f < 4096) (h0 : m.memMap (f - 256) = 0)
    (hd : d < 1024) (hp : Present (m.pde d)) : frameOf (m.pde d) ≠ f := by
  rintro rfl
  exact h.used d hd hp hge hlt h0

/-- Handing out a frame changes no page. -/
theorem walk_alloc (h : m.TablesApart) (hge : 256 ≤ f) (hlt : f < 4096)
    (h0 : m.memMap (f - 256) = 0) (hd : d < 1024) (hn : n < 1024) :
    (m.alloc f).walk d n = m.walk d n := by
  by_cases hp : Present (m.pde d)
  · rw [walk, walk, pde_alloc hd hge, pte_alloc hd hn hge (h.frame_ne hge hlt h0 hd hp)]
  · rw [walk_eq_none.2 fun hc => hp hc.1,
      walk_eq_none.2 fun hc => hp (pde_alloc hd hge ▸ hc.1)]

theorem alloc (h : m.TablesApart) (hge : 256 ≤ f) (hlt : f < 4096)
    (h0 : m.memMap (f - 256) = 0) : (m.alloc f).TablesApart := by
  have hpde : ∀ d < 1024, (m.alloc f).pde d = m.pde d := fun d hd => pde_alloc hd hge
  refine ⟨⟨fun d hd hp h₁ h₂ => ?_, fun d d' hd hd' hp hp' heq => ?_⟩, fun d hd hp => ?_⟩
  · rw [hpde d hd] at hp h₁ h₂ ⊢
    have hne := h.frame_ne hge hlt h0 hd hp
    rw [memMap_alloc, if_neg (by omega)]
    exact h.used d hd hp h₁ h₂
  · rw [hpde d hd] at hp heq
    rw [hpde d' hd'] at hp' heq
    exact h.unshared d d' hd hd' hp hp' heq
  · rw [hpde d hd] at hp ⊢
    exact h.directory d hd hp

/-- An entry of a page table is not in the directory. -/
theorem pde_setPte (h : m.TablesApart) (hd : d < 1024) (hp : Present (m.pde d)) (hd' : d' < 1024)
    (v : Word) : (m.setPte d n v).pde d' = m.pde d' := by
  have hne := h.directory d hd hp
  exact phys_setPte_ne m (by omega) v

/-- Setting an entry of a page table changes no other entry. -/
theorem pte_setPte_ne (h : m.TablesApart) (hd : d < 1024) (hn : n < 1024) (hp : Present (m.pde d))
    (hd' : d' < 1024) (hn' : n' < 1024) (hp' : Present (m.pde d')) (hne : (d', n') ≠ (d, n))
    (v : Word) : (m.setPte d n v).pte d' n' = m.pte d' n' := by
  have hword : 1024 * frameOf (m.pde d') + n' ≠ 1024 * frameOf (m.pde d) + n := by
    intro hw
    have hframe : frameOf (m.pde d') = frameOf (m.pde d) := by omega
    exact hne (Prod.ext (h.unshared d' d hd' hd hp' hp hframe) (by dsimp only; omega))
  rw [pte, h.pde_setPte hd hp hd' v]
  exact phys_setPte_ne m hword v

/-- Setting an entry of a page table changes its page only. -/
theorem walk_setPte (h : m.TablesApart) (hd : d < 1024) (hn : n < 1024) (hp : Present (m.pde d))
    (hd' : d' < 1024) (hn' : n' < 1024) (v : Word) : (m.setPte d n v).walk d' n' =
      if (d', n') = (d, n) then if Present v then some v else none else m.walk d' n' := by
  have hpde := h.pde_setPte (n := n) hd hp hd' v
  by_cases heq : (d', n') = (d, n)
  · obtain ⟨rfl, rfl⟩ := Prod.mk.inj heq
    rw [if_pos rfl, walk, pte_setPte_self hpde, hpde]
    simp only [hp, true_and]
  · rw [if_neg heq]
    by_cases hp' : Present (m.pde d')
    · rw [walk, walk, hpde, h.pte_setPte_ne hd hn hp hd' hn' hp' heq v]
    · rw [walk_eq_none.2 fun hc => hp' hc.1, walk_eq_none.2 fun hc => hp' (hpde ▸ hc.1)]

/-- A new page table changes no page. -/
theorem walk_newTable (h : m.TablesApart) (hge : 256 ≤ f) (hlt : f < 4096)
    (h0 : m.memMap (f - 256) = 0) (hd : d < 1024) (hp : ¬Present (m.pde d)) (hd' : d' < 1024)
    (hn' : n' < 1024) : (m.newTable d f).walk d' n' = m.walk d' n' := by
  have hframe : frameOf (entryOf (4096 * f)) = f := frameOf_entryOf (by omega)
  have hpde : (m.newTable d f).pde d' = if d' = d then entryOf (4096 * f) else m.pde d' := by
    rw [newTable, pde_setPde, pde_alloc hd' hge]
  by_cases heq : d' = d
  · -- the new table is empty
    subst heq
    rw [if_pos rfl] at hpde
    have hpte : (m.newTable d' f).pte d' n' = 0#32 := by
      rw [pte, hpde, hframe, newTable, phys_setPde_ne _ (by omega), phys_alloc, if_pos (by omega)]
      rfl
    rw [walk_eq_none.2 fun hc => hp hc.1, walk_eq_none.2 fun hc => ?_]
    exact not_present_zero (hpte ▸ hc.2)
  · rw [if_neg heq] at hpde
    by_cases hp' : Present (m.pde d')
    · have hdir := h.directory d' hd' hp'
      have hne := h.frame_ne hge hlt h0 hd' hp'
      have hpte : (m.newTable d f).pte d' n' = m.pte d' n' := by
        rw [pte, hpde, newTable, phys_setPde_ne _ (by omega), phys_alloc, if_neg (by omega), pte]
      rw [walk, walk, hpde, hpte]
    · rw [walk_eq_none.2 fun hc => hp' hc.1, walk_eq_none.2 fun hc => hp' (hpde ▸ hc.1)]

end TablesApart

namespace LaidOut

theorem alloc (h : m.LaidOut) (hge : 256 ≤ f) (hlt : f < 4096) (h0 : m.memMap (f - 256) = 0) :
    (m.alloc f).LaidOut := by
  refine ⟨h.toTablesApart.alloc hge hlt h0, fun g hg hg' hzero => ?_⟩
  rw [memMap_alloc] at hzero
  split_ifs at hzero
  · cases hzero
  · exact h.highMemory g hg hg' hzero

/-- The page tables are laid out as before with one more of them. -/
theorem newTable (h : m.LaidOut) (hge : 256 ≤ f) (hlt : f < 4096)
    (h0 : m.memMap (f - 256) = 0) : (m.newTable d f).LaidOut := by
  have halloc := h.alloc hge hlt h0
  have hframe : frameOf (entryOf (4096 * f)) = f := frameOf_entryOf (by omega)
  have hpde : ∀ d', (m.newTable d f).pde d' =
      if d' = d then entryOf (4096 * f) else (m.alloc f).pde d' := fun d' => pde_setPde _ _ _ _
  have hne : ∀ d' < 1024, Present ((m.alloc f).pde d') → frameOf ((m.alloc f).pde d') ≠ f := by
    intro d' hd' hp'
    rw [pde_alloc hd' hge] at hp' ⊢
    exact h.frame_ne hge hlt h0 hd' hp'
  have hmap : (m.newTable d f).memMap = (m.alloc f).memMap := rfl
  have hhigh : (m.newTable d f).highMemory = (m.alloc f).highMemory := rfl
  refine ⟨⟨⟨fun d' hd' hp' h₁ h₂ => ?_, fun d' e hd' he hp' hpe heq => ?_⟩, fun d' hd' hp' => ?_⟩,
    by rw [hmap, hhigh]; exact halloc.highMemory⟩
  · rw [hmap]
    rw [hpde] at hp' h₁ h₂ ⊢
    split_ifs at hp' h₁ h₂ ⊢
    · rw [hframe, memMap_alloc, if_pos rfl]
      decide
    · exact halloc.used d' hd' hp' h₁ h₂
  · rw [hpde] at hp' hpe heq
    rw [hpde] at heq
    split_ifs at hp' hpe heq with h₁ h₂ h₂
    · exact h₁.trans h₂.symm
    · exact absurd (heq.symm.trans hframe) (hne e he hpe)
    · exact absurd (heq.trans hframe) (hne d' hd' hp')
    · exact halloc.unshared d' e hd' he hp' hpe heq
  · rw [hpde] at hp' ⊢
    split_ifs at hp' ⊢
    · rw [hframe]
      omega
    · exact halloc.directory d' hd' hp'

end LaidOut

/-! ## `put_page` -/

/-- The page at `a` is mapped with the flags 7, and all other pages are as before. -/
structure MapsOne (m m' : Mm) (page a : Nat) : Prop where
  page : ∃ e, m'.translate a = some e ∧ pageOf e = page ∧ e &&& 0xfff#32 = 7#32
  others : ∀ a' < 2 ^ 32, a' / 4096 ≠ a / 4096 → m'.translate a' = m.translate a'

/-- No entry of the directory, no entry of a page table and no counter has changed. -/
structure Unchanged (m m' : Mm) : Prop where
  dir : ∀ d < 1024, m'.pde d = m.pde d
  entry : ∀ d n, d < 1024 → n < 1024 → Present (m.pde d) → m'.pte d n = m.pte d n
  count : m'.memMap = m.memMap

/-- The end of `do_no_page` and `get_empty_page`, with the memory at a panic: a page that cannot be
    put is given back. -/
def putOrFree (m : Mm) (page address : Nat) : Except (Panic × Mm) Mm :=
  match m.putPage page address with
  | (0, m) => do
    let m ← (m.freePage page).mapError (·, m)
    .error (.outOfMemory, m)
  | (_, m) => .ok m

/-- `do_no_page`, with the memory at a panic. -/
def doNoPageAt (m : Mm) (address : Nat) : Except (Panic × Mm) Mm :=
  match m.getFreePage with
  | (0, m) => .error (.outOfMemory, m)
  | (page, m) => m.putOrFree page (address &&& 0xfffff000)

/-- `get_empty_page`, with the memory at a panic. -/
def getEmptyPageAt (m : Mm) (address : Nat) : Except (Panic × Mm) Mm :=
  match m.getFreePage with
  | (0, m) => do
    let m ← (m.freePage 0).mapError (·, m)
    .error (.outOfMemory, m)
  | (tmp, m) => m.putOrFree tmp address

theorem mapError_freePage (m : Mm) (page : Nat) :
    ((do
      let m ← (m.freePage page).mapError (·, m)
      .error (.outOfMemory, m) : Except (Panic × Mm) Mm)).mapError Prod.fst = (do
        let _ ← m.freePage page
        .error .outOfMemory) := by
  cases m.freePage page <;> rfl

theorem mapError_putOrFree (m : Mm) (page a : Nat) : (m.putOrFree page a).mapError Prod.fst =
    (match m.putPage page a with
    | (0, m) => do
      let _ ← m.freePage page
      .error .outOfMemory
    | (_, m) => .ok m : Except Panic Mm) := by
  rw [putOrFree]
  generalize m.putPage page a = x
  obtain ⟨q, m₂⟩ := x
  cases q with
  | zero => exact mapError_freePage _ _
  | succ q => rfl

/-- Without the memory, it is `do_no_page`. -/
theorem mapError_doNoPageAt (m : Mm) (a : Nat) :
    (m.doNoPageAt a).mapError Prod.fst = m.doNoPage a := by
  rw [doNoPageAt, doNoPage]
  generalize m.getFreePage = x
  obtain ⟨page, m₁⟩ := x
  cases page with
  | zero => rfl
  | succ page => exact mapError_putOrFree m₁ (page + 1) _

/-- Without the memory, it is `get_empty_page`. -/
theorem mapError_getEmptyPageAt (m : Mm) (a : Nat) :
    (m.getEmptyPageAt a).mapError Prod.fst = m.getEmptyPage a := by
  rw [getEmptyPageAt, getEmptyPage]
  generalize m.getFreePage = x
  obtain ⟨page, m₁⟩ := x
  cases page with
  | zero => exact mapError_freePage _ _
  | succ page => exact mapError_putOrFree m₁ (page + 1) _

theorem entryOf_flags (f : Nat) : entryOf (4096 * f) &&& 0xfff#32 = 7#32 := by
  refine BitVec.eq_of_getLsbD_eq fun i hi => ?_
  have hlow : ∀ j < 12, (BitVec.ofNat 32 (4096 * f)).getLsbD j = false := fun j hj => by
    rw [BitVec.getLsbD_ofNat, show 4096 * f = f <<< 12 by rw [Nat.shiftLeft_eq]; omega,
      Nat.testBit_shiftLeft]
    simp [show ¬12 ≤ j by omega]
  by_cases h12 : i < 12
  · rw [entryOf, BitVec.getLsbD_and, BitVec.getLsbD_or, hlow i h12]
    interval_cases i <;> rfl
  · rw [BitVec.getLsbD_and]
    interval_cases i <;> simp

/-- `put_page` at an address maps the page there, or runs out of memory for the page table, and
    then changes nothing. -/
theorem LaidOut.putPage (h : m.LaidOut) (hge : 256 ≤ f) (hlt : f < 4096) (ha : a < 2 ^ 32) :
    ((m.putPage (4096 * f) a).1 = 4096 * f ∧ MapsOne m (m.putPage (4096 * f) a).2 (4096 * f) a) ∨
      m.putPage (4096 * f) a = (0, m) ∧ m.freeFrames = 0 := by
  have hd : a / 2 ^ 22 < 1024 := by omega
  have hn : a / 4096 % 1024 < 1024 := Nat.mod_lt _ (by decide)
  have hpage : pageOf (entryOf (4096 * f)) = 4096 * f := by
    rw [pageOf_eq, frameOf_entryOf (by omega)]
  -- setting the entry, once there is a page table
  have hset : ∀ m₁ : Mm, m₁.LaidOut → Present (m₁.pde (a / 2 ^ 22)) →
      (∀ d n, d < 1024 → n < 1024 → m₁.walk d n = m.walk d n) →
      MapsOne m (m₁.setPte (a / 2 ^ 22) (a / 4096 % 1024) (entryOf (4096 * f))) (4096 * f) a := by
    intro m₁ h₁ hp hwalk
    refine ⟨⟨entryOf (4096 * f), ?_, hpage, entryOf_flags f⟩, fun a' ha' hne => ?_⟩
    · rw [translate, h₁.walk_setPte hd hn hp hd hn, if_pos rfl, if_pos (present_entryOf _)]
    · have hd' : a' / 2 ^ 22 < 1024 := by omega
      have hn' : a' / 4096 % 1024 < 1024 := Nat.mod_lt _ (by decide)
      have hpair : (a' / 2 ^ 22, a' / 4096 % 1024) ≠ (a / 2 ^ 22, a / 4096 % 1024) := by
        intro heq
        obtain ⟨h₁, h₂⟩ := Prod.mk.inj heq
        omega
      rw [translate, h₁.walk_setPte hd hn hp hd' hn', if_neg hpair, hwalk _ _ hd' hn', translate]
  by_cases hp : Present (m.pde (a / 2 ^ 22))
  · rw [putPage_present ha hp]
    exact .inl ⟨rfl, hset m h hp fun _ _ _ _ => rfl⟩
  · rcases putPage_absent (4096 * f) ha hp with hfail | ⟨g, hge', hlt', h0', hok⟩
    · exact .inr hfail
    · rw [hok]
      refine .inl ⟨rfl, hset (m.newTable (a / 2 ^ 22) g) (h.newTable hge' hlt' h0') ?_
        fun d n hd' hn' => h.walk_newTable hge' hlt' h0' hd hp hd' hn'⟩
      rw [Mm.newTable, pde_setPde, if_pos rfl]
      exact present_entryOf _

/-- `free_page` gives a frame back that has just been handed out. -/
theorem LaidOut.unchanged_freePage (h : m.LaidOut) (hge : 256 ≤ f) (hlt : f < 4096)
    (h0 : m.memMap (f - 256) = 0) :
    (m.alloc f).freePage (4096 * f) = .ok ((m.alloc f).decr f) ∧
      Unchanged m ((m.alloc f).decr f) := by
  have hone : (m.alloc f).memMap (f - 256) = 1 := by rw [memMap_alloc, if_pos rfl]
  refine ⟨freePage_ok hge (h.highMemory f hge hlt h0) (by rw [hone]; decide),
    fun d hd => pde_alloc hd hge, fun d n hd hn hp => ?_, funext fun i => ?_⟩
  · exact pte_alloc hd hn hge (h.frame_ne hge hlt h0 hd hp)
  · rw [memMap_decr, hone, memMap_alloc]
    split_ifs with hi
    · rw [hi, h0]
      rfl
    · rfl

theorem Unchanged.refl (m : Mm) : Unchanged m m := ⟨fun _ _ => rfl, fun _ _ _ _ _ => rfl, rfl⟩

/-- A page that has been handed out, and cannot be put, is given back. -/
theorem LaidOut.putOrFree (h : m.LaidOut) (hge : 256 ≤ f) (hlt : f < 4096)
    (h0 : m.memMap (f - 256) = 0) (ha : a < 2 ^ 32) {p : Panic} {m' : Mm}
    (herr : (m.alloc f).putOrFree (4096 * f) a = .error (p, m')) :
    p = .outOfMemory ∧ Unchanged m m' := by
  obtain ⟨hback, hsame⟩ := h.unchanged_freePage hge hlt h0
  rw [Mm.putOrFree] at herr
  rcases (h.alloc hge hlt h0).putPage hge hlt ha with ⟨hok, -⟩ | ⟨hfail, -⟩
  · split at herr
    · next heq =>
      rw [heq] at hok
      dsimp only at hok
      omega
    · cases herr
  · rw [hfail] at herr
    change (do
      let m ← ((m.alloc f).freePage (4096 * f)).mapError (·, m.alloc f)
      .error (.outOfMemory, m) : Except (Panic × Mm) Mm) = _ at herr
    rw [hback] at herr
    obtain ⟨rfl, rfl⟩ := Prod.mk.inj (Except.error.inj herr)
    exact ⟨rfl, hsame⟩

/-- When `do_no_page` panics, it has given its page back. -/
theorem LaidOut.doNoPageAt (h : m.LaidOut) (ha : a < 2 ^ 32) {p : Panic} {m' : Mm}
    (herr : m.doNoPageAt a = .error (p, m')) : p = .outOfMemory ∧ Unchanged m m' := by
  rw [Mm.doNoPageAt, pageAlign_eq ha] at herr
  rcases getFreePage_cases m with ⟨hnone, -⟩ | ⟨f, hge, hlt, h0, -, hfree⟩
  · rw [hnone] at herr
    obtain ⟨rfl, rfl⟩ := Prod.mk.inj (Except.error.inj herr)
    exact ⟨rfl, .refl _⟩
  · rw [hfree] at herr
    split at herr
    · next heq =>
      have hzero := congrArg Prod.fst heq
      dsimp only at hzero
      omega
    · next heq =>
      obtain ⟨rfl, rfl⟩ := Prod.mk.inj heq
      exact h.putOrFree hge hlt h0 (by omega) herr

/-- When `get_empty_page` panics, it has given its page back. -/
theorem LaidOut.getEmptyPageAt (h : m.LaidOut) (ha : a < 2 ^ 32) {p : Panic} {m' : Mm}
    (herr : m.getEmptyPageAt a = .error (p, m')) : p = .outOfMemory ∧ Unchanged m m' := by
  rw [Mm.getEmptyPageAt] at herr
  rcases getFreePage_cases m with ⟨hnone, -⟩ | ⟨f, hge, hlt, h0, -, hfree⟩
  · have hzero : m.freePage 0 = .ok m := freePage_low (f := 0) (by decide)
    rw [hnone] at herr
    change (do
      let m ← (m.freePage 0).mapError (·, m)
      .error (.outOfMemory, m) : Except (Panic × Mm) Mm) = _ at herr
    rw [hzero] at herr
    obtain ⟨rfl, rfl⟩ := Prod.mk.inj (Except.error.inj herr)
    exact ⟨rfl, .refl _⟩
  · rw [hfree] at herr
    split at herr
    · next heq =>
      have hzero := congrArg Prod.fst heq
      dsimp only at hzero
      omega
    · next heq =>
      obtain ⟨rfl, rfl⟩ := Prod.mk.inj heq
      exact h.putOrFree hge hlt h0 ha herr

/-- The page tables of every reachable state are laid out like this. -/
theorem Inv.laidOut (h : Inv lo hi ext m) : m.LaidOut := by
  have hkernel : ∀ d < 16, Present (m.pde d) → d < 4 ∧ frameOf (m.pde d) = d + 1 := by
    intro d hd hp
    by_cases h4 : d < 4
    · rw [h.kernel.dir d h4, frameOf_entryOf (by omega)]
      exact ⟨h4, rfl⟩
    · rw [h.kernel.absent d (by omega) hd] at hp
      exact absurd hp not_present_zero
  have huser : ∀ d < 1024, 16 ≤ d → Present (m.pde d) → Managed lo hi (frameOf (m.pde d)) ∧
      m.memMap (frameOf (m.pde d) - 256) = 1 := fun d hd hge hp => h.table d _ ⟨hge, hd⟩ ⟨hp, rfl⟩
  have hge : ∀ d < 1024, 16 ≤ d → Present (m.pde d) → 256 ≤ frameOf (m.pde d) :=
    fun d hd hd' hp => h.managed_ge (huser d hd hd' hp).1
  refine ⟨⟨⟨fun d hd hp h₁ h₂ => ?_, fun d d' hd hd' hp hp' heq => ?_⟩, fun d hd hp => ?_⟩,
    fun f h₁ h₂ h0 => ?_⟩
  · by_cases h16 : d < 16
    · have := hkernel d h16 hp
      omega
    · rw [(huser d hd (by omega) hp).2]
      decide
  · by_cases h16 : d < 16
    · have hk := hkernel d h16 hp
      by_cases h16' : d' < 16
      · have hk' := hkernel d' h16' hp'
        omega
      · have := hge d' hd' (by omega) hp'
        omega
    · by_cases h16' : d' < 16
      · have hk' := hkernel d' h16' hp'
        have := hge d hd (by omega) hp
        omega
      · exact h.table_inj ⟨by omega, hd⟩ ⟨by omega, hd'⟩ ⟨hp, rfl⟩ ⟨hp', heq.symm⟩
  · by_cases h16 : d < 16
    · have := hkernel d h16 hp
      omega
    · have := hge d hd (by omega) hp
      omega
  · have hf := (h.frame_free h₁ h₂ h0).1
    rw [h.highMemory]
    have := hf.2
    omega

/-- `put_page` with a page from `get_free_page` maps that page and changes no other, or it changes
    nothing; and when `do_no_page` and `get_empty_page` panic, the page has been given back. -/
theorem putPage_mapsOne (h : m.LaidOut) (ha : a < 2 ^ 32) :
    (∀ page m₁, m.getFreePage = (page, m₁) → page ≠ 0 →
      ((m₁.putPage page a).1 = page ∧ MapsOne m₁ (m₁.putPage page a).2 page a ∧
        MapsOne m (m₁.putPage page a).2 page a) ∨ m₁.putPage page a = (0, m₁)) ∧
    (∀ p m', m.doNoPageAt a = .error (p, m') → p = .outOfMemory ∧ Unchanged m m') ∧
    (∀ p m', m.getEmptyPageAt a = .error (p, m') → p = .outOfMemory ∧ Unchanged m m') := by
  refine ⟨fun page m₁ hget hpage => ?_, fun p m' => h.doNoPageAt ha, fun p m' =>
    h.getEmptyPageAt ha⟩
  rcases getFreePage_cases m with ⟨hnone, -⟩ | ⟨f, hge, hlt, h0, -, hfree⟩
  · exact absurd (congrArg Prod.fst (hget.symm.trans hnone)) hpage
  · obtain ⟨rfl, rfl⟩ := Prod.mk.inj (hget.symm.trans hfree)
    rcases (h.alloc hge hlt h0).putPage hge hlt ha with ⟨hok, hmaps⟩ | ⟨hfail, -⟩
    · refine .inl ⟨hok, hmaps, hmaps.page, fun a' ha' hne => (hmaps.others a' ha' hne).trans ?_⟩
      exact h.walk_alloc hge hlt h0 (by omega) (Nat.mod_lt _ (by decide))
    · exact .inr hfail

/-- Memory with all frames free, and no page tables. -/
def emptyMm : Mm := ⟨fun _ => 0, fun _ => 0, 4096 * 4096⟩

theorem laidOut_emptyMm : emptyMm.LaidOut := by
  have habsent : ∀ d, ¬Present (emptyMm.pde d) := fun _ => not_present_zero
  refine ⟨⟨⟨fun d _ hp => absurd hp (habsent d), fun d _ _ _ hp => absurd hp (habsent d)⟩,
    fun d _ hp => absurd hp (habsent d)⟩, fun f _ hf _ => ?_⟩
  have hhigh : emptyMm.highMemory = 4096 * 4096 := rfl
  rw [hhigh]
  omega

/-- The first address of slot 1, without any page tables. -/
theorem putPage_mapsOne_empty : ∃ page m₁, emptyMm.getFreePage = (page, m₁) ∧ page ≠ 0 ∧
    (((m₁.putPage page 0x4000000).1 = page ∧
      MapsOne m₁ (m₁.putPage page 0x4000000).2 page 0x4000000 ∧
        MapsOne emptyMm (m₁.putPage page 0x4000000).2 page 0x4000000) ∨
      m₁.putPage page 0x4000000 = (0, m₁)) := by
  obtain ⟨hmaps, -, -⟩ := @putPage_mapsOne emptyMm 0x4000000 laidOut_emptyMm (by decide)
  rcases getFreePage_cases emptyMm with ⟨-, hzero⟩ | ⟨f, hge, -, -, -, hfree⟩
  · exact absurd rfl (freeFrames_eq_zero.1 hzero 256 le_rfl (by decide))
  · have hpage : 4096 * f ≠ 0 := by omega
    exact ⟨_, _, hfree, hpage, hmaps _ _ hfree hpage⟩

/-! ## Other states -/

/-- Memory with all frames free, where the directory is the page table of its last entry. -/
def recursiveMm : Mm := ⟨fun w => if w = 1023 then 1 else 0, fun _ => 0, 4096 * 4096⟩

theorem tablesOwned_recursiveMm : recursiveMm.TablesOwned := by
  have hpde : ∀ d, Present (recursiveMm.pde d) → d = 1023 ∧ frameOf (recursiveMm.pde d) = 0 := by
    intro d hp
    by_cases hd : d = 1023
    · rw [hd]
      exact ⟨rfl, rfl⟩
    · have hzero : recursiveMm.pde d = 0 := if_neg hd
      rw [hzero] at hp
      exact absurd hp not_present_zero
  refine ⟨fun d _ hp hge _ => ?_, fun d d' _ _ hp hp' _ => ?_⟩
  · have := (hpde d hp).2
    omega
  · exact (hpde d hp).1.trans (hpde d' hp').1.symm

/-- A new page table appears as a page where the directory is a page table. -/
theorem recursiveMm_changes : ∃ page m₁, recursiveMm.getFreePage = (page, m₁) ∧ page ≠ 0 ∧
    (m₁.putPage page 0x4000000).1 = page ∧
      ¬MapsOne m₁ (m₁.putPage page 0x4000000).2 page 0x4000000 := by
  rcases getFreePage_cases recursiveMm with ⟨-, hzero⟩ | ⟨f, hge, hlt, h0, -, hfree⟩
  · exact absurd rfl (freeFrames_eq_zero.1 hzero 256 le_rfl (by decide))
  have hpde : ∀ d < 1024, (recursiveMm.alloc f).pde d = if d = 1023 then 1 else 0 :=
    fun d hd => pde_alloc hd hge
  have hp : ¬Present ((recursiveMm.alloc f).pde (0x4000000 / 2 ^ 22)) := by
    rw [hpde _ (by decide), if_neg (by decide)]
    exact not_present_zero
  refine ⟨_, _, hfree, by omega, ?_⟩
  rcases putPage_absent (4096 * f) (by decide) hp with ⟨-, hzero⟩ | ⟨g, hge', hlt', -, hok⟩
  · -- there is a second frame
    obtain ⟨e, he, he', hne⟩ : ∃ e, 256 ≤ e ∧ e < 4096 ∧ e ≠ f := by
      by_cases hf : f = 256
      · exact ⟨257, by omega, by omega, by omega⟩
      · exact ⟨256, by omega, by omega, by omega⟩
    refine absurd ?_ (freeFrames_eq_zero.1 hzero e he he')
    rw [memMap_alloc, if_neg (by omega)]
    rfl
  · rw [hok]
    refine ⟨rfl, fun hmaps => ?_⟩
    have hsame := hmaps.others (1023 * 2 ^ 22 + 16 * 4096) (by decide) (by decide)
    have hentry : (recursiveMm.alloc f).pte 1023 16 = 0 := by
      rw [pte, hpde _ (by decide), if_pos rfl]
      exact hpde 16 (by decide)
    have hbefore : (recursiveMm.alloc f).walk 1023 16 = none := by
      refine walk_eq_none.2 fun hc => ?_
      rw [hentry] at hc
      exact not_present_zero hc.2
    -- the words of the directory after `put_page`
    have hword : ∀ w < 1024, (((recursiveMm.alloc f).newTable 16 g).setPte 16 0
        (entryOf (4096 * f))).phys w = if w = 16 then entryOf (4096 * g) else if w = 1023 then 1
          else 0 := by
      intro w hw
      have hdir : ((recursiveMm.alloc f).newTable 16 g).pde 16 = entryOf (4096 * g) :=
        (pde_setPde _ _ _ _).trans (if_pos rfl)
      rw [phys_setPte_ne _ (by rw [hdir, frameOf_entryOf (by omega)]; omega)]
      by_cases h16 : w = 16
      · rw [if_pos h16, h16]
        exact hdir
      · rw [if_neg h16, newTable, phys_setPde_ne _ h16]
        exact (pde_alloc hw hge').trans (hpde w hw)
    have hafter : (((recursiveMm.alloc f).newTable 16 g).setPte 16 0
        (entryOf (4096 * f))).walk 1023 16 = some (entryOf (4096 * g)) := by
      have hdir : (((recursiveMm.alloc f).newTable 16 g).setPte 16 0
          (entryOf (4096 * f))).pde 1023 = 1 := hword 1023 (by decide)
      have hent : (((recursiveMm.alloc f).newTable 16 g).setPte 16 0
          (entryOf (4096 * f))).pte 1023 16 = entryOf (4096 * g) := by
        rw [pte, hdir]
        exact hword 16 (by decide)
      refine walk_eq_some.2 ?_
      rw [hdir, hent]
      exact ⟨by decide, present_entryOf _, rfl⟩
    cases (hafter.symm.trans hsame).trans hbefore

/-- Memory before `mem_init`, with one free frame. -/
def uninitialised : Mm := ⟨fun _ => 0, fun i => if i = 3839 then 0 else 1, 0⟩

/-- `free_page` does not take back a page above `HIGH_MEMORY`. -/
theorem uninitialised_keeps : ∃ m', uninitialised.doNoPageAt 0x4000000 = .error (.outOfMemory, m') ∧
    m'.memMap ≠ uninitialised.memMap := by
  have hmap : ∀ i, uninitialised.memMap i = if i = 3839 then 0 else 1 := fun _ => rfl
  rcases getFreePage_cases uninitialised with ⟨-, hzero⟩ | ⟨f, hge, hlt, h0, -, hfree⟩
  · exact absurd rfl (freeFrames_eq_zero.1 hzero 4095 (by decide) (by decide))
  have hf : f = 4095 := by
    by_contra hne
    rw [hmap, if_neg (by omega)] at h0
    cases h0
  have hp : ¬Present ((uninitialised.alloc f).pde (0x4000000 / 2 ^ 22)) := by
    rw [pde_alloc (by decide) hge]
    exact not_present_zero
  have hput : (uninitialised.alloc f).putPage (4096 * f) 0x4000000 =
      (0, uninitialised.alloc f) := by
    rcases putPage_absent (4096 * f) (by decide) hp with ⟨hfail, -⟩ | ⟨g, hge', hlt', h0', -⟩
    · exact hfail
    · -- no other frame is free
      exfalso
      rw [memMap_alloc] at h0'
      split_ifs at h0' with hg
      · cases h0'
      · rw [hmap, if_neg (by omega)] at h0'
        cases h0'
  have hkeep : (uninitialised.alloc f).freePage (4096 * f) = .ok (uninitialised.alloc f) := by
    rw [freePage, if_neg (by rw [lowMem]; omega)]
    exact if_pos (Nat.zero_le _)
  refine ⟨uninitialised.alloc f, ?_, fun heq => ?_⟩
  · rw [doNoPageAt, hfree]
    split
    · next heq =>
      have hzero := congrArg Prod.fst heq
      dsimp only at hzero
      omega
    · next heq =>
      obtain ⟨rfl, rfl⟩ := Prod.mk.inj heq
      have hand : 0x4000000 &&& 0xfffff000 = 0x4000000 := rfl
      rw [putOrFree, hand, hput]
      change (do
        let m ← ((uninitialised.alloc f).freePage (4096 * f)).mapError (·, uninitialised.alloc f)
        .error (.outOfMemory, m) : Except (Panic × Mm) Mm) = _
      rw [hkeep]
      rfl
  · have hone := congrFun heq (f - 256)
    rw [memMap_alloc, if_pos rfl, h0] at hone
    cases hone

/-- If the directory is a page table, `put_page` changes other pages; and before `mem_init`,
    `do_no_page` does not give its page back. -/
theorem not_mapsOne :
    (∃ m page m₁, TablesOwned m ∧ m.getFreePage = (page, m₁) ∧ page ≠ 0 ∧
      (m₁.putPage page 0x4000000).1 = page ∧
        ¬MapsOne m₁ (m₁.putPage page 0x4000000).2 page 0x4000000) ∧
    ∃ m m', TablesOwned m ∧ m.doNoPageAt 0x4000000 = .error (.outOfMemory, m') ∧
      m'.memMap ≠ m.memMap := by
  obtain ⟨page, m₁, hget, hpage, hput, hnot⟩ := recursiveMm_changes
  obtain ⟨m', herr, hne⟩ := uninitialised_keeps
  refine ⟨⟨_, page, m₁, tablesOwned_recursiveMm, hget, hpage, hput, hnot⟩, _, m', ?_, herr, hne⟩
  have habsent : ∀ d, ¬Present (uninitialised.pde d) := fun _ => not_present_zero
  exact ⟨fun d _ hp => absurd hp (habsent d), fun d _ _ _ hp => absurd hp (habsent d)⟩

end NeuOs.Mm
