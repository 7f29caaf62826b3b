import NeuOs.Mm.Copy
import NeuOs.Mm.Verify

/-!
# What stays clean

Absent entries of the page directory are zero, only the first 4 MB of a slot have a
page table, and the counters of the frames that `mem_init` has left out stay `USED`
(`Clean`). Every operation of the memory manager keeps this (`Tidy`): a directory
entry is only ever set to a new page table or to zero, and only counters of managed
frames change. Copying and freeing page tables touches the pages of one slot only, but
for the write flags of the pages that are copied (`Spares`).
-/

namespace NeuOs.Mm

variable {lo hi : Nat} {ext : Nat → Nat} {m m' m'' : Mm} {a d d₀ n f g : Nat} {e : Word}
  {N N' P P' : Nat → Prop}

/-- From `m` to `m'`, directory entries in `N` are set to new page tables or to zero,
    and counters of managed frames change. -/
structure Tidy (lo hi : Nat) (N : Nat → Prop) (m m' : Mm) : Prop where
  dir : ∀ d, UserDir d →
    m'.pde d = m.pde d ∨ N d ∧ (Present (m'.pde d) ∨ m'.pde d = 0)
  reserved : ∀ f, 256 ≤ f → ¬Managed lo hi f → m'.memMap (f - 256) = m.memMap (f - 256)

/-- Absent directory entries are zero, page tables are the first ones of their slots,
    and frames that are not managed are used. -/
structure Clean (lo hi : Nat) (m : Mm) : Prop where
  dir : ∀ d, UserDir d → (d % 16 = 0 ∧ Present (m.pde d)) ∨ m.pde d = 0
  reserved : ∀ f, 256 ≤ f → f < 4096 → ¬Managed lo hi f → m.memMap (f - 256) = used

namespace Tidy

theorem refl (lo hi : Nat) (N : Nat → Prop) (m : Mm) : Tidy lo hi N m m :=
  ⟨fun _ _ => .inl rfl, fun _ _ _ => rfl⟩

theorem trans (h : Tidy lo hi N m m') (h' : Tidy lo hi N m' m'') : Tidy lo hi N m m'' := by
  refine ⟨fun d hd => ?_, fun f hf hman => (h'.reserved f hf hman).trans (h.reserved f hf hman)⟩
  rcases h'.dir d hd with heq | hset
  · rw [heq]
    exact h.dir d hd
  · exact .inr hset

theorem mono (h : Tidy lo hi N m m') (hN : ∀ d, N d → N' d) : Tidy lo hi N' m m' :=
  ⟨fun d hd => (h.dir d hd).imp_right fun hset => ⟨hN d hset.1, hset.2⟩, h.reserved⟩

theorem clean (h : Tidy lo hi N m m') (hN : ∀ d, N d → d % 16 = 0) (hm : Clean lo hi m) :
    Clean lo hi m' := by
  refine ⟨fun d hd => ?_, fun f h₁ h₂ hman =>
    (h.reserved f h₁ hman).trans (hm.reserved f h₁ h₂ hman)⟩
  rcases h.dir d hd with heq | ⟨hd', hset⟩
  · rw [heq]
    exact hm.dir d hd
  · exact hset.imp_left fun hp => ⟨hN d hd', hp⟩

/-- Page tables outside `N` stay. -/
theorem keeps (h : Tidy lo hi N m m') (hd : UserDir d) (hN : N d ∨ Present (m.pde d)) :
    N d ∨ Present (m'.pde d) := by
  rcases h.dir d hd with heq | hset
  · rwa [heq]
  · exact .inl hset.1

/-- The directory does not change. -/
theorem of_pde (hdir : ∀ d, UserDir d → m'.pde d = m.pde d)
    (hmap : ∀ f, 256 ≤ f → ¬Managed lo hi f → m'.memMap (f - 256) = m.memMap (f - 256)) :
    Tidy lo hi N m m' :=
  ⟨fun d hd => .inl (hdir d hd), hmap⟩

/-- Only counters change. -/
theorem of_phys (hphys : m'.phys = m.phys)
    (hmap : ∀ f, 256 ≤ f → ¬Managed lo hi f → m'.memMap (f - 256) = m.memMap (f - 256)) :
    Tidy lo hi N m m' :=
  .of_pde (fun d _ => by rw [pde, hphys, pde]) hmap

end Tidy

/-! ## Single changes -/

/-- Handing out a free frame. -/
theorem Inv.tidy_alloc (h : Inv lo hi ext m) (hge : 256 ≤ f) (hlt : f < 4096)
    (h0 : m.memMap (f - 256) = 0) : Tidy lo hi N m (m.alloc f) := by
  refine .of_pde (fun d hd => pde_alloc hd.2 hge) fun g hg hman => ?_
  have hne : g ≠ f := fun heq => hman (heq ▸ (h.frame_free hge hlt h0).1)
  rw [memMap_alloc, if_neg (by omega)]

/-- Setting an entry of a page table. -/
theorem tidy_setPte (hge : 256 ≤ frameOf (m.pde d)) (v : Word) :
    Tidy lo hi N m (m.setPte d n v) := by
  refine .of_pde (fun d' hd' => phys_setPte_ne _ ?_ _) fun _ _ _ => by rw [memMap_setPte]
  have hd2 := hd'.2
  omega

/-- Counting a managed frame. -/
theorem tidy_setCount {c : Byte} (hge : 256 ≤ g) (hman : Managed lo hi g) :
    Tidy lo hi N m (m.setCount (g - 256) c) := by
  refine .of_phys (phys_setCount _ _) fun f hf hf' => ?_
  have hne : f ≠ g := fun heq => hf' (heq ▸ hman)
  rw [memMap_setCount, if_neg (by omega)]

theorem Inv.tidy_dropCount (h : Inv lo hi ext m) (hu : UserPage d n) (hm : m.Maps d n g) :
    Tidy lo hi N m (m.dropCount g) := by
  rw [dropCount]
  split_ifs with hge
  · exact tidy_setCount hge ((h.mapped d n g hu hm).resolve_left (by omega))
  · exact .refl _ _ _ _

/-- A new page table. -/
theorem Inv.tidy_newTable (h : Inv lo hi ext m) (hge : 256 ≤ f) (hlt : f < 4096)
    (h0 : m.memMap (f - 256) = 0) (hN : N d) : Tidy lo hi N m (m.newTable d f) := by
  have hp : Present (entryOf (4096 * f)) := present_entryOf _
  rw [Mm.newTable]
  generalize entryOf (4096 * f) = v at hp
  refine (h.tidy_alloc hge hlt h0).trans ⟨fun d' hd' => ?_, fun _ _ _ => by rw [memMap_setPde]⟩
  by_cases heq : d' = d
  · rw [heq]
    exact .inr ⟨hN, .inl (by rw [pde_setPde, if_pos rfl]; exact hp)⟩
  · exact .inl (by rw [pde_setPde, if_neg heq])

/-! ## Faults -/

theorem Inv.tidy_replaced (h : Inv lo hi ext m) (hge : 256 ≤ f) (hlt : f < 4096)
    (h0 : m.memMap (f - 256) = 0) (hu : UserPage d n) (hm : m.Maps d n g) :
    Tidy lo hi N m (m.replaced d n f) := by
  have halloc := h.alloc hge hlt h0
  have hm' := h.maps_alloc hge hlt h0 hu hm
  rw [Mm.replaced, hm.2.2]
  refine ((h.tidy_alloc hge hlt h0).trans (halloc.tidy_dropCount hu hm')).trans (tidy_setPte ?_ _)
  rw [pde_dropCount, pde_alloc hu.1.2 hge]
  exact (h.table_ge hu.1 hm.1).1

theorem Inv.tidy_unWpPage (h : Inv lo hi ext m) (hu : UserPage d n) (hm : m.Maps d n g)
    (hok : m.unWpPage (m.entryAddr d n) = .ok m') : Tidy lo hi N m m' := by
  rcases unWpPage_cases m hu.1.2 n with ⟨-, -, heq⟩ | ⟨-, ⟨herr, -⟩ | ⟨f, hge, hlt, h0, heq⟩⟩
  · exact Except.ok.inj (heq.symm.trans hok) ▸ tidy_setPte (h.table_ge hu.1 hm.1).1 _
  · cases herr.symm.trans hok
  · exact Except.ok.inj (heq.symm.trans hok) ▸ h.tidy_replaced hge hlt h0 hu hm

theorem Inv.tidy_touch (h : Inv lo hi ext m) (ha : UserAddr a)
    (hN : N (a / 2 ^ 22) ∨ Present (m.pde (a / 2 ^ 22))) {write : Bool}
    (hok : m.touch a write = .ok m') : Tidy lo hi N m m' := by
  have hu := ha.page
  rw [Mm.touch] at hok
  cases he : m.translate a with
  | none =>
    rw [he] at hok
    have habs := walk_eq_none.1 he
    rcases doNoPage_cases m ha.2 with ⟨herr, -⟩ |
      ⟨f, hge, hlt, h0, ⟨hp, heq⟩ | ⟨hp, g, hge', hlt', h0', heq⟩⟩
    · cases herr.symm.trans hok
    · rw [← Except.ok.inj (heq.symm.trans hok), Mm.newPage]
      refine (h.tidy_alloc hge hlt h0).trans (tidy_setPte ?_ _)
      rw [pde_alloc hu.1.2 hge]
      exact (h.table_ge hu.1 hp).1
    · rw [← Except.ok.inj (heq.symm.trans hok)]
      have halloc := h.alloc hge hlt h0
      have hp' : ¬Present ((m.alloc f).pde (a / 2 ^ 22)) := by rwa [pde_alloc hu.1.2 hge]
      obtain ⟨htab, -, hpde, -⟩ := halloc.newTable hge' hlt' h0' hu.1 hp'
      exact ((h.tidy_alloc hge hlt h0).trans (halloc.tidy_newTable hge' hlt' h0'
        (hN.resolve_right hp))).trans
        (tidy_setPte (htab.table_ge hu.1 (hpde ▸ present_entryOf _)).1 _)
  | some e =>
    rw [he] at hok
    dsimp only at hok
    split_ifs at hok
    · rw [doWpPage_eq m ha.2] at hok
      exact h.tidy_unWpPage hu (maps_of_walk he) hok
    · exact Except.ok.inj hok ▸ .refl _ _ _ _

/-- A store to a writable page. -/
theorem Inv.tidy_poke (h : Inv lo hi ext m) (ha : UserAddr a) (he : m.translate a = some e)
    (hw : Writable e) (b : Byte) : Tidy lo hi N m (m.poke a b) := by
  have hpoke : m.poke a b = m.storeByte (physAddr e a) b := by
    rw [poke, he]
    rfl
  have hwe : Writable (m.pte (a / 2 ^ 22) (a / 4096 % 1024)) := (walk_eq_some.1 he).2.2 ▸ hw
  have hge := (h.writable _ _ _ ha.page (maps_of_walk he) hwe).1
  rw [hpoke]
  refine .of_pde (fun d hd => phys_storeByte_ne ?_) fun _ _ _ => rfl
  have hd2 := hd.2
  rw [physAddr]
  omega

theorem Inv.tidy_writeVerify (h : Inv lo hi ext m) (ha : a < 2 ^ 32)
    (hok : m.writeVerify a = .ok m') : Tidy lo hi N m m' := by
  rw [writeVerify_eq m ha] at hok
  split_ifs at hok with hro
  · have hu : UserPage (a / 2 ^ 22) (a / 4096 % 1024) :=
      ⟨⟨h.readOnly_user hro.1 hro.2.2, by omega⟩, by omega⟩
    exact h.tidy_unWpPage hu ⟨hro.1, hro.2.1, rfl⟩ hok
  · exact Except.ok.inj hok ▸ .refl _ _ _ _

theorem Inv.tidy_verifyLoop (h : Inv lo hi ext m) {size : Int} (ha : a < 2 ^ 32)
    (hok : Mm.verifyLoop a size m = .ok m') : Tidy lo hi N m m' := by
  fun_induction Mm.verifyLoop a size m with
  | case1 a size m hpos ih =>
    obtain ⟨m₁, hverify, hok⟩ := Except.bind_eq_ok.1 hok
    have hinv : Inv lo hi ext m₁ := by
      rcases h.writeVerify ha with ⟨herr, -⟩ | ⟨m₂, hok₂, hinv, -⟩
      · cases herr.symm.trans hverify
      · exact Except.ok.inj (hok₂.symm.trans hverify) ▸ hinv
    exact (h.tidy_writeVerify ha hverify).trans (ih _ hinv (Nat.mod_lt _ (by norm_num)) hok)
  | case2 => exact Except.ok.inj hok ▸ .refl _ _ _ _

/-! ## Tables -/

/-- From `m` to `m'`, only the page tables in `N` change, but for the write flags of
    present pages in `P`. -/
structure Spares (lo hi : Nat) (N P : Nat → Prop) (m m' : Mm) : Prop extends Tidy lo hi N m m' where
  pte : ∀ d n, UserPage d n → ¬N d → Present (m.pde d) → m'.pte d n = m.pte d n ∨
    P d ∧ Present (m.pte d n) ∧ m'.pte d n = readOnly (m.pte d n)

theorem readOnly_readOnly (e : Word) : readOnly (readOnly e) = readOnly e :=
  readOnly_of_not_writable (not_writable_readOnly e)

namespace Spares

theorem refl (lo hi : Nat) (N P : Nat → Prop) (m : Mm) : Spares lo hi N P m m :=
  ⟨.refl lo hi N m, fun _ _ _ _ _ => .inl rfl⟩

/-- The directory outside `N`. -/
theorem pde (h : Spares lo hi N P m m') (hd : UserDir d) (hN : ¬N d) : m'.pde d = m.pde d :=
  (h.dir d hd).resolve_right fun hset => hN hset.1

theorem trans (h : Spares lo hi N P m m') (h' : Spares lo hi N P m' m'') :
    Spares lo hi N P m m'' := by
  refine ⟨h.toTidy.trans h'.toTidy, fun d n hu hN hp => ?_⟩
  have hp' : Present (m'.pde d) := by rwa [h.pde hu.1 hN]
  rcases h.pte d n hu hN hp with heq | ⟨hP, hpte, heq⟩
  · have hnext := h'.pte d n hu hN hp'
    rwa [heq] at hnext
  · refine .inr ⟨hP, hpte, ?_⟩
    rcases h'.pte d n hu hN hp' with heq' | ⟨-, -, heq'⟩
    · rw [heq', heq]
    · rw [heq', heq, readOnly_readOnly]

/-- Only counters of managed frames change. -/
theorem of_phys (hphys : m'.phys = m.phys)
    (hmap : ∀ f, 256 ≤ f → ¬Managed lo hi f → m'.memMap (f - 256) = m.memMap (f - 256)) :
    Spares lo hi N P m m' :=
  ⟨.of_phys hphys hmap, fun d n _ _ _ => .inl (by rw [Mm.pte, Mm.pde, hphys, Mm.pte, Mm.pde])⟩

end Spares

/-- Counting a managed frame up and down. -/
theorem spares_counts {map' : Nat → Byte} {c : Byte} (hge : 256 ≤ g) (hman : Managed lo hi g)
    (hmap : map' = Function.update m.memMap (g - 256) c) :
    Spares lo hi N P m { m with memMap := map' } := by
  refine .of_phys rfl fun f hf hf' => ?_
  have hne : f ≠ g := fun heq => hf' (heq ▸ hman)
  have hidx : f - 256 ≠ g - 256 := by omega
  change map' (f - 256) = _
  rw [hmap, Function.update_of_ne hidx]

theorem update_decr (m : Mm) (f : Nat) : (m.decr f).memMap =
    Function.update m.memMap (f - 256) (m.memMap (f - 256) - 1) := rfl

/-- Setting an entry of a page table in `N`. -/
theorem Inv.spares_setPte (h : Inv lo hi ext m) (hu : UserPage d n) (hp : Present (m.pde d))
    (hN : N d) (v : Word) : Spares lo hi N P m (m.setPte d n v) := by
  refine ⟨tidy_setPte (h.table_ge hu.1 hp).1 v, fun d' n' hu' hd' hp' => .inl ?_⟩
  exact h.pte_setPte_ne hu hp hu' hp' (fun heq => hd' ((Prod.mk.inj heq).1 ▸ hN)) v

/-- Making a present page in `P` read-only. -/
theorem Inv.spares_protect (h : Inv lo hi ext m) (hu : UserPage d n) (hm : m.Maps d n g)
    (hP : P d) :
    Spares lo hi N P m (m.setPte d n (readOnly (m.pte d n))) := by
  refine ⟨tidy_setPte (h.table_ge hu.1 hm.1).1 _, fun d' n' hu' _ hp' => ?_⟩
  by_cases heq : (d', n') = (d, n)
  · obtain ⟨rfl, rfl⟩ := Prod.mk.inj heq
    exact .inr ⟨hP, hm.2.1, pte_setPte_self (h.pde_setPte hu.1 hm.1 hu.1.2 _)⟩
  · exact .inl (h.pte_setPte_ne hu hm.1 hu' hp' heq _)

/-- Handing out a free frame. -/
theorem Inv.spares_alloc (h : Inv lo hi ext m) (hge : 256 ≤ f) (hlt : f < 4096)
    (h0 : m.memMap (f - 256) = 0) : Spares lo hi N P m (m.alloc f) :=
  ⟨h.tidy_alloc hge hlt h0, fun _ _ hu _ hp =>
    .inl (pte_alloc hu.1.2 hu.2 hge ((h.fresh_ne hge hlt h0 hu (g := f)).1 hp))⟩

/-- Setting a directory entry in `N`. -/
theorem Inv.spares_setPde (h : Inv lo hi ext m) {v : Word} (hd : UserDir d) (hN : N d)
    (hv : Present v ∨ v = 0) : Spares lo hi N P m (m.setPde d v) := by
  refine ⟨⟨fun d' hd' => ?_, fun _ _ _ => by rw [memMap_setPde]⟩, fun d' n hu hd' hp => .inl ?_⟩
  · by_cases heq : d' = d
    · exact .inr ⟨heq ▸ hN, by rwa [heq, pde_setPde, if_pos rfl]⟩
    · exact .inl (by rw [pde_setPde, if_neg heq])
  · have hne : d' ≠ d := fun heq => hd' (heq ▸ hN)
    have hge := h.table_ge hu.1 hp
    have hd2 := hd.2
    rw [Mm.pte, pde_setPde, if_neg hne, phys_setPde_ne _ (by omega), Mm.pte]

/-- A new page table. -/
theorem Inv.spares_newTable (h : Inv lo hi ext m) (hge : 256 ≤ f) (hlt : f < 4096)
    (h0 : m.memMap (f - 256) = 0) (hd : UserDir d) (hN : N d) :
    Spares lo hi N P m (m.newTable d f) :=
  (h.spares_alloc hge hlt h0).trans
    ((h.alloc hge hlt h0).spares_setPde hd hN (.inl (present_entryOf _)))

/-! ## Freeing page tables -/

theorem Inv.spares_freeEntry (h : Inv lo hi ext m) (hu : UserPage d n) (hp : Present (m.pde d))
    (hN : N d)
    (hok : (if Present (m.load (m.entryAddr d n))
      then m.freePage (pageOf (m.load (m.entryAddr d n))) else .ok m) = .ok m') :
    Spares lo hi N P m (m'.store (m.entryAddr d n) 0) := by
  rw [load_entryAddr, pageOf_eq] at hok
  have hset := h.spares_setPte (P := P) hu hp hN 0
  split_ifs at hok with hpte
  · have hm : m.Maps d n (frameOf (m.pte d n)) := ⟨hp, hpte, rfl⟩
    obtain rfl := Except.ok.inj ((h.freePage_mapped hu hm).symm.trans hok)
    have haddr : m.entryAddr d n = (m.dropCount (frameOf (m.pte d n))).entryAddr d n := by
      rw [entryAddr, entryAddr, pde_dropCount]
    rw [haddr, store_entryAddr, dropCount_eq]
    exact hset.trans (.of_phys rfl (h.tidy_dropCount (N := N) hu hm).reserved)
  · obtain rfl := Except.ok.inj hok
    rw [store_entryAddr]
    exact hset

theorem Inv.spares_freeEntries {nr k : Nat} (h : Inv lo hi ext m) (hd : UserDir d)
    (hp : Present (m.pde d)) (hN : N d) (hk : k + nr = 1024)
    (hok : Mm.freeEntries nr (m.entryAddr d k) m = .ok m') : Spares lo hi N P m m' := by
  induction nr generalizing k m with
  | zero => exact Except.ok.inj hok ▸ .refl _ _ _ _ _
  | succ nr ih =>
    have hu : UserPage d k := ⟨hd, by omega⟩
    obtain ⟨m₁, hfree, m₂, hstore, hinv, hpde, -⟩ := h.freeEntry hu hp
    have hnext : m.entryAddr d k + 4 = m₂.entryAddr d (k + 1) := by
      rw [entryAddr, entryAddr, hpde d hd.2]
      omega
    have hspares := h.spares_freeEntry (P := P) hu hp hN hfree
    rw [freeEntries_succ, hfree, Except.ok_bind, hstore, hnext] at hok
    rw [hstore] at hspares
    exact hspares.trans (ih hinv (by rwa [hpde d hd.2]) (by omega) hok)

/-- The pages of a directory entry and its page table are freed, and the entry
    becomes zero. -/
theorem Inv.spares_freeDir (h : Inv lo hi ext m) (hd : UserDir d) (hp : Present (m.pde d))
    (hN : N d) {m₁ m₂ : Mm} (hok₁ : Mm.freeEntries 1024 (pageOf (m.load (4 * d))) m = .ok m₁)
    (hok₂ : m₁.freePage (pageOf (m₁.load (4 * d))) = .ok m₂) :
    Spares lo hi N P m (m₂.store (4 * d) 0) := by
  rw [pageOf_load_dir] at hok₁
  obtain ⟨m', hok, hinv, hpde, -⟩ := h.freeEntries (k := 0) hd hp (Nat.zero_add _)
  obtain rfl := Except.ok.inj (hok.symm.trans hok₁)
  have ht : m'.Table d (frameOf (m'.pde d)) := ⟨by rwa [hpde d hd.2], rfl⟩
  obtain ⟨hman, -⟩ := hinv.table d _ hd ht
  have hpage :
    pageOf (m'.load (4 * d)) = 4096 * frameOf (m'.pde d) := by rw [load_word, pageOf_eq, pde]
  rw [hpage, hinv.freePage_table hd ht] at hok₂
  obtain rfl := Except.ok.inj hok₂
  have hstate : (m'.decr (frameOf (m'.pde d))).store (4 * d) 0 =
      { m'.setPde d 0 with memMap := (m'.decr (frameOf (m'.pde d))).memMap } := store_word _ _ _
  rw [hstate]
  exact ((h.spares_freeEntries hd hp hN (Nat.zero_add _) hok₁).trans
    (hinv.spares_setPde hd hN (.inr rfl))).trans
      (spares_counts (hinv.managed_ge hman) hman (update_decr _ _))

/-- The directory entries from `d` on, up to `d + size`. -/
def DirRange (d size d' : Nat) : Prop := d ≤ d' ∧ d' < d + size

theorem Inv.spares_freeDirs {size : Nat} (h : Inv lo hi ext m) (hd : 16 ≤ d) (hd' : d + size ≤ 1024)
    (hN : ∀ d', DirRange d size d' → N d') (hok : Mm.freeDirs size (4 * d) m = .ok m') :
    Spares lo hi N P m m' ∧
      ∀ d', DirRange d size d' → m'.pde d' = if Present (m.pde d') then 0 else m.pde d' := by
  induction size generalizing d m N P with
  | zero =>
    obtain rfl := Except.ok.inj hok
    exact ⟨.refl _ _ _ _ _, fun d' hr => absurd hr.2 (by have := hr.1; omega)⟩
  | succ size ih =>
    have hnext : 4 * d + 4 = 4 * (d + 1) := by omega
    have hload : Present (m.load (4 * d)) ↔ Present (m.pde d) := by rw [load_word, pde]
    have hself : N d := hN d ⟨le_rfl, by omega⟩
    have hrest : ∀ d', DirRange (d + 1) size d' → N d' := fun d' hr =>
      hN d' ⟨by have := hr.1; omega, by have := hr.2; omega⟩
    rw [Mm.freeDirs, hnext] at hok
    by_cases hp : Present (m.pde d)
    · rw [if_pos (hload.2 hp)] at hok
      obtain ⟨m₁, m₂, m₃, hok₁, hok₂, hstore, hinv, hpde, -⟩ := h.freeDir ⟨hd, by omega⟩ hp
      have hspares := h.spares_freeDir (N := N) (P := P) ⟨hd, by omega⟩ hp hself hok₁ hok₂
      rw [hok₁, Except.ok_bind, hok₂, Except.ok_bind, hstore] at hok
      rw [hstore] at hspares
      obtain ⟨hspares', hzero⟩ := ih hinv (by omega) (by omega) hrest hok
      refine ⟨hspares.trans hspares', fun d' hr => ?_⟩
      obtain ⟨h₁, h₂⟩ := hr
      by_cases heq : d' = d
      · -- The rest of the loop does not come back to the entry.
        obtain ⟨hlast, -⟩ := ih (N := DirRange (d + 1) size) (P := fun _ => False) hinv
          (by omega) (by omega) (fun _ hr => hr) hok
        rw [heq, hlast.pde ⟨hd, by omega⟩ (fun hr => by have := hr.1; omega), hpde d (by omega),
          if_pos rfl, if_pos hp]
      · rw [hzero d' ⟨by omega, by omega⟩, hpde d' (by omega), if_neg heq]
    · rw [if_neg (mt hload.1 hp)] at hok
      obtain ⟨hspares, hzero⟩ := ih h (by omega) (by omega) hrest hok
      refine ⟨hspares, fun d' hr => ?_⟩
      obtain ⟨h₁, h₂⟩ := hr
      by_cases heq : d' = d
      · obtain ⟨hlast, -⟩ := ih (N := DirRange (d + 1) size) (P := fun _ => False) h
          (by omega) (by omega) (fun _ hr => hr) hok
        rw [heq, hlast.pde ⟨hd, by omega⟩ (fun hr => by have := hr.1; omega), if_neg hp]
      · exact hzero d' ⟨by omega, by omega⟩

/-! ## Copying page tables -/

/-- One round of the inner loop on a page of a user slot. -/
theorem Inv.spares_copyEntry (h : Inv lo hi ext m) (hu₀ : UserPage d₀ n) (hp₀ : Present (m.pde d₀))
    (hu : UserPage d n) (hp : Present (m.pde d)) (hne : d ≠ d₀) (hN : N d) (hP : P d₀) :
    Spares lo hi N P m (m.copyEntry (m.entryAddr d₀ n) (m.entryAddr d n)) := by
  by_cases hpte : Present (m.pte d₀ n)
  · have hm₀ : m.Maps d₀ n (frameOf (m.pte d₀ n)) := ⟨hp₀, hpte, rfl⟩
    by_cases hge : 256 ≤ frameOf (m.pte d₀ n)
    · have hprot := h.protect hu₀ hm₀
      have hp' : Present ((m.setPte d₀ n (readOnly (m.pte d₀ n))).pde d) := by
        rwa [h.pde_setPte hu₀.1 hp₀ hu.1.2]
      have hman := (h.mapped d₀ n _ hu₀ hm₀).resolve_left (by omega)
      have hstate : ((m.setPte d₀ n (readOnly (m.pte d₀ n))).incr (frameOf (m.pte d₀ n))).setPte d n
          (readOnly (m.pte d₀ n)) = { (m.setPte d₀ n (readOnly (m.pte d₀ n))).setPte d n
            (readOnly (m.pte d₀ n)) with memMap :=
              ((m.setPte d₀ n (readOnly (m.pte d₀ n))).incr (frameOf (m.pte d₀ n))).memMap } := rfl
      rw [copyEntry_high hpte hge, h.copyEntry_comm hu₀ hp₀ hu hp hne, hstate]
      exact ((h.spares_protect hu₀ hm₀ hP).trans (hprot.spares_setPte hu hp' hN _)).trans
        (spares_counts hge hman (memMap_incr _))
    · rw [copyEntry_low hpte (by omega)]
      exact h.spares_setPte hu hp hN _
  · rw [copyEntry_absent hpte]
    exact .refl _ _ _ _ _

theorem Inv.spares_copyEntries {nr k : Nat} (h : Inv lo hi ext m) (hd₀ : UserDir d₀)
    (hp₀ : Present (m.pde d₀)) (hd : UserDir d) (hp : Present (m.pde d)) (hne : d ≠ d₀)
    (hoff : d % 16 = d₀ % 16) (hN : N d) (hP : P d₀) (hk : k + nr = 1024)
    (habs : ∀ n, k ≤ n → n < 1024 → ¬Present (m.pte d n)) :
    Spares lo hi N P m (Mm.copyEntries nr (m.entryAddr d₀ k) (m.entryAddr d k) m) := by
  induction nr generalizing k m with
  | zero => exact .refl _ _ _ _ _
  | succ nr ih =>
    have hu₀ : UserPage d₀ k := ⟨hd₀, by omega⟩
    have hu : UserPage d k := ⟨hd, by omega⟩
    obtain ⟨m₁, hstep, hinv, -, hdirs, -, hwalk⟩ :=
      h.copyEntry hu₀ hp₀ hu hp (habs k le_rfl (by omega)) hne hoff
    have hspares := h.spares_copyEntry (N := N) (P := P) hu₀ hp₀ hu hp hne hN hP
    have hnext : ∀ d' k, m₁.pde d' = m.pde d' →
        m.entryAddr d' k + 4 = m₁.entryAddr d' (k + 1) := fun d' k heq => by
      rw [entryAddr, entryAddr, heq]
      omega
    have habs' : ∀ n, k + 1 ≤ n → n < 1024 → ¬Present (m₁.pte d n) := by
      intro n hkn hn hc
      have hw := hwalk d n ⟨hd, hn⟩
      rw [if_neg (by omega), walk_eq_none.2 fun hc => habs n (by omega) hn hc.2] at hw
      exact walk_eq_none.1 hw ⟨by rwa [hdirs d hd.2], hc⟩
    rw [Mm.copyEntries, hstep, hnext d₀ k (hdirs d₀ hd₀.2), hnext d k (hdirs d hd.2)]
    rw [hstep] at hspares
    exact hspares.trans (ih hinv (by rwa [hdirs d₀ hd₀.2]) (by rwa [hdirs d hd.2]) (by omega) habs')

/-- One round of the outer loop on a page table of a user slot. -/
theorem Inv.spares_copyDir (h : Inv lo hi ext m) (hge : 256 ≤ f) (hlt : f < 4096)
    (h0 : m.memMap (f - 256) = 0) (hd₀ : UserDir d₀) (hp₀ : Present (m.pde d₀)) (hd : UserDir d)
    (habs : ¬Present (m.pde d)) (hne : d ≠ d₀) (hoff : d % 16 = d₀ % 16) (hN : N d) (hP : P d₀) :
    Spares lo hi N P m
      (Mm.copyEntries 1024 (pageOf (m.load (4 * d₀))) (4096 * f) (m.newTable d f)) := by
  obtain ⟨hinv, -⟩ := h.newTable hge hlt h0 hd habs
  obtain ⟨hpde, -, hp, haddr, hempty⟩ := h.newTable_frame hge hlt h0 hd habs
  have hpde₀ := hpde d₀ hd₀.2 (Ne.symm hne)
  have hfrom : pageOf (m.load (4 * d₀)) = (m.newTable d f).entryAddr d₀ 0 := by
    rw [pageOf_load_dir, entryAddr, entryAddr, hpde₀]
  rw [hfrom, ← haddr]
  exact (h.spares_newTable hge hlt h0 hd hN).trans (hinv.spares_copyEntries hd₀
    (by rwa [hpde₀]) hd hp hne hoff hN hP (Nat.zero_add 1024) fun n _ hn => hempty n hn)

/-- The outer loop in the region of a user slot. -/
theorem Inv.spares_copyDirs (h : Inv lo hi ext m) (frm size d₀ d : Nat) (hfrm : frm ≠ 0)
    (hd₀ : 16 ≤ d₀) (hd₀' : d₀ + size ≤ 1024) (hd : 16 ≤ d) (hd' : d + size ≤ 1024)
    (hdisj : d + size ≤ d₀ ∨ d₀ + size ≤ d) (hoff : d % 16 = d₀ % 16)
    (hN : ∀ d', DirRange d size d' → N d') (hP : ∀ d', DirRange d₀ size d' → P d') {r : Int}
    (hok : Mm.copyDirs frm size (4 * d₀) (4 * d) m = .ok (r, m')) : Spares lo hi N P m m' := by
  induction size generalizing d d₀ m with
  | zero =>
    obtain ⟨-, rfl⟩ := Prod.mk.inj (Except.ok.inj hok)
    exact .refl _ _ _ _ _
  | succ size ih =>
    have hnext : ∀ {m₁ : Mm}, Inv lo hi ext m₁ →
        Mm.copyDirs frm size (4 * (d₀ + 1)) (4 * (d + 1)) m₁ = .ok (r, m') →
        Spares lo hi N P m₁ m' := fun hinv hok =>
      ih hinv (d₀ + 1) (d + 1) (by omega) (by omega) (by omega) (by omega) (by omega)
        (by omega) (fun d' hr => hN d' ⟨by have := hr.1; omega, by have := hr.2; omega⟩)
        (fun d' hr => hP d' ⟨by have := hr.1; omega, by have := hr.2; omega⟩) hok
    have hud₀ : UserDir d₀ := ⟨hd₀, by omega⟩
    have hud : UserDir d := ⟨hd, by omega⟩
    have hne : d ≠ d₀ := by omega
    by_cases hp : Present (m.pde d)
    · cases (copyDirs_exists hp).symm.trans hok
    · by_cases hp₀ : Present (m.pde d₀)
      · rcases copyDirs_step frm size hp hp₀ with ⟨hfail, -⟩ | ⟨f, hge, hlt, h0, hstep⟩
        · obtain ⟨-, rfl⟩ := Prod.mk.inj (Except.ok.inj (hfail.symm.trans hok))
          exact .refl _ _ _ _ _
        · obtain ⟨m₁, hcopy, hinv, -⟩ := h.copyDir hge hlt h0 hud₀ hp₀ hud hp hne hoff
          have hspares := h.spares_copyDir (N := N) (P := P) hge hlt h0 hud₀ hp₀ hud hp hne hoff
            (hN d ⟨le_rfl, by omega⟩) (hP d₀ ⟨le_rfl, by omega⟩)
          rw [hstep, if_neg hfrm, hcopy] at hok
          rw [hcopy] at hspares
          exact hspares.trans (hnext hinv hok)
      · rw [copyDirs_skip hp hp₀] at hok
        exact hnext h hok

/-- The inner loop on the first pages of the kernel. -/
theorem Inv.spares_copyKernelEntries {nr k : Nat} (h : Inv lo hi ext m) (hd : UserDir d)
    (hp : Present (m.pde d)) (hN : N d) (hk : k + nr = 0xA0)
    (habs : ∀ n, k ≤ n → n < 1024 → ¬Present (m.pte d n)) :
    Spares lo hi N P m (Mm.copyEntries nr (m.entryAddr 0 k) (m.entryAddr d k) m) ∧
      (Mm.copyEntries nr (m.entryAddr 0 k) (m.entryAddr d k) m).memMap = m.memMap := by
  induction nr generalizing k m with
  | zero => exact ⟨.refl _ _ _ _ _, rfl⟩
  | succ nr ih =>
    have hu : UserPage d k := ⟨hd, by omega⟩
    obtain ⟨hstep, hinv, hdirs, hnext⟩ :=
      h.copyKernelEntry hu hp (by omega) (habs k le_rfl (by omega))
    rw [Mm.copyEntries, hstep, hnext 0 (by omega), hnext d hd.2]
    obtain ⟨hspares, hmap⟩ :=
      ih hinv (by rwa [hdirs d hd.2]) (k := k + 1) (by omega) fun n hkn hn => by
      rw [h.pte_setPte_ne hu hp ⟨hd, hn⟩ hp fun heq => by have := (Prod.mk.inj heq).2; omega]
      exact habs n (by omega) hn
    exact ⟨(h.spares_setPte hu hp hN _).trans hspares, hmap.trans (memMap_setPte _ _ _ _)⟩

/-- One round of the outer loop on the first page table of the kernel. -/
theorem Inv.spares_copyKernelDir (h : Inv lo hi ext m) (hge : 256 ≤ f) (hlt : f < 4096)
    (h0 : m.memMap (f - 256) = 0) (hd : UserDir d) (habs : ¬Present (m.pde d)) (hN : N d) :
    Spares lo hi N P m
      (Mm.copyEntries 0xA0 (pageOf (m.load (4 * 0))) (4096 * f) (m.newTable d f)) ∧
    (Mm.copyEntries 0xA0 (pageOf (m.load (4 * 0))) (4096 * f) (m.newTable d f)).memMap =
      (m.alloc f).memMap := by
  obtain ⟨hinv, -⟩ := h.newTable hge hlt h0 hd habs
  obtain ⟨hpde, -, hp, haddr, hempty⟩ := h.newTable_frame hge hlt h0 hd habs
  have hd1 := hd.1
  have hfrom : pageOf (m.load (4 * 0)) = (m.newTable d f).entryAddr 0 0 := by
    rw [pageOf_load_dir, entryAddr, entryAddr, hpde 0 (by omega) (by omega)]
  rw [hfrom, ← haddr]
  obtain ⟨hspares, hmap⟩ := hinv.spares_copyKernelEntries (P := P) hd hp hN (Nat.zero_add 0xA0)
    fun n _ hn => hempty n hn
  refine ⟨(h.spares_newTable hge hlt h0 hd hN).trans hspares, ?_⟩
  rw [hmap, Mm.newTable, memMap_setPde]

/-- The directory entry of the new page table. -/
theorem Inv.pde_copyKernelDir (h : Inv lo hi ext m) (hge : 256 ≤ f) (hlt : f < 4096)
    (h0 : m.memMap (f - 256) = 0) (hd : UserDir d) (habs : ¬Present (m.pde d)) :
    (Mm.copyEntries 0xA0 (pageOf (m.load (4 * 0))) (4096 * f) (m.newTable d f)).pde d =
      entryOf (4096 * f) := by
  obtain ⟨hinv, -, hnew, -⟩ := h.newTable hge hlt h0 hd habs
  obtain ⟨hpde, -, hp, haddr, hempty⟩ := h.newTable_frame hge hlt h0 hd habs
  have hd1 := hd.1
  have hfrom : pageOf (m.load (4 * 0)) = (m.newTable d f).entryAddr 0 0 := by
    rw [pageOf_load_dir, entryAddr, entryAddr, hpde 0 (by omega) (by omega)]
  obtain ⟨m', hrun, -, -, hdirs, -⟩ := hinv.copyKernelEntries hd hp (Nat.zero_add 0xA0)
    fun n _ hn => hempty n hn
  rw [← hnew, hfrom, ← haddr, hrun, hdirs d hd.2]

/-- The outer loop on the page tables of the kernel, if memory is left for one page
    table at most. -/
theorem Inv.spares_copyKernelDirs (h : Inv lo hi ext m) {size : Nat} (hd : 16 ≤ d)
    (hd' : d + size ≤ 1024) (hN : ∀ d', DirRange d size d' → N d') {r : Int}
    (hfree : size ≤ 1 ∨ m.freeFrames ≤ 1)
    (hok : Mm.copyDirs 0 size (4 * 0) (4 * d) m = .ok (r, m')) :
    Spares lo hi N P m m' ∧ Inv lo hi ext m' := by
  have hp₀ : ∀ {m : Mm}, Inv lo hi ext m → ∀ d < 4, Present (m.pde d) := fun h d hd =>
    h.kernel.dir d hd ▸ present_entryOf _
  cases size with
  | zero =>
    obtain ⟨-, rfl⟩ := Prod.mk.inj (Except.ok.inj hok)
    exact ⟨.refl _ _ _ _ _, h⟩
  | succ size =>
    have hud : UserDir d := ⟨hd, by omega⟩
    by_cases hp : Present (m.pde d)
    · cases (copyDirs_exists hp).symm.trans hok
    · rcases copyDirs_step 0 size hp (hp₀ h 0 (by omega)) with ⟨hfail, -⟩ | ⟨f, hge, hlt, h0, hstep⟩
      · obtain ⟨-, rfl⟩ := Prod.mk.inj (Except.ok.inj (hfail.symm.trans hok))
        exact ⟨.refl _ _ _ _ _, h⟩
      · obtain ⟨hspares, hmap⟩ := h.spares_copyKernelDir (N := N) (P := P) hge hlt h0 hud hp
          (hN d ⟨le_rfl, by omega⟩)
        have hframes :=
          (congrArg (· + 1) (freeFrames_congr hmap)).trans (freeFrames_alloc hge hlt h0)
        obtain ⟨m₁, hcopy, hinv, -, hdirs, -, -⟩ := h.copyKernelDir hge hlt h0 hud hp
        rw [hstep, if_pos rfl, hcopy] at hok
        rw [hcopy] at hspares hframes
        cases size with
        | zero =>
          obtain ⟨-, rfl⟩ := Prod.mk.inj (Except.ok.inj hok)
          exact ⟨hspares, hinv⟩
        | succ size =>
          -- No frame is left for the second page table.
          have hzero : m₁.freeFrames = 0 := by omega
          by_cases hp₁ : Present (m₁.pde (d + 1))
          · cases (copyDirs_exists hp₁).symm.trans hok
          · rcases copyDirs_step 0 size hp₁ (hp₀ hinv 1 (by omega)) with
              ⟨hfail, -⟩ | ⟨f', hge', hlt', h0', -⟩
            · obtain ⟨-, rfl⟩ := Prod.mk.inj (Except.ok.inj (hfail.symm.trans hok))
              exact ⟨hspares, hinv⟩
            · exact absurd h0' (freeFrames_eq_zero.1 hzero f' hge' hlt')

end NeuOs.Mm
