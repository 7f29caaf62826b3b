import NeuOs.Mm.Free

/-!
# Copying page tables

`copy_page_tables` gives the region of an empty slot the pages of another slot.
Its inner loop goes through one page table (`copyEntry` is one round of it):

* a page of a user slot is shared: both sides map its frame read-only
  (`Inv.copyEntries`);
* a page of the kernel, in the region of slot 0, is mapped read-only by the
  child only (`Inv.copyKernelEntries`).

The outer loop adds a page table for each of the parent's. If it runs out of
memory it leaves the child with some of the pages, and `free_page_tables` frees
them. In both cases only page tables change (`Grows`), and the pages of the
other slots stay as they are.
-/

namespace NeuOs.Mm

variable {lo hi : Nat} {ext : Nat → Nat} {m m' m'' : Mm} {d d₀ n f g : Nat}

/-- From `m` to `m'`, page tables are added, and nothing changes but page tables
    and the directory. -/
structure Grows (m m' : Mm) : Prop where
  pde : ∀ d < 1024, Present (m.pde d) → m'.pde d = m.pde d
  phys : ∀ w, 1024 ≤ w → (∀ d, UserDir d → ¬m'.Table d (w / 1024)) → m'.phys w = m.phys w

theorem Grows.refl (m : Mm) : Grows m m := ⟨fun _ _ _ => rfl, fun _ _ _ => rfl⟩

theorem Grows.trans (h : Grows m m') (h' : Grows m' m'') : Grows m m'' where
  pde d hd hp := (h'.pde d hd (by rwa [h.pde d hd hp])).trans (h.pde d hd hp)
  phys w hw hfree := by
    refine (h'.phys w hw hfree).trans (h.phys w hw fun d hd ht => hfree d hd ?_)
    rwa [Table, h'.pde d hd.2 ht.1]

/-- Setting an entry of a page table changes only that table. -/
theorem Inv.grows_setPte (h : Inv lo hi ext m) (hu : UserPage d n) (hp : Present (m.pde d))
    (v : Word) (map' : Nat → Byte) : Grows m { m.setPte d n v with memMap := map' } where
  pde d' hd' _ := h.pde_setPte hu.1 hp hd' v
  phys w _ hfree := by
    refine phys_setPte_ne m (fun heq => hfree d hu.1 ?_) v
    have hn := hu.2
    have hpde : (m.setPte d n v).pde d = m.pde d := h.pde_setPte hu.1 hp hu.1.2 v
    change Present ((m.setPte d n v).pde d) ∧ frameOf ((m.setPte d n v).pde d) = _
    rw [hpde]
    exact ⟨hp, by omega⟩

/-! ## One round of the inner loop -/

/-- `MAP_NR` of an entry, flags included. -/
theorem mapNr_toNat (e : Word) : mapNr e.toNat = frameOf e - 256 := by
  rw [mapNr, lowMem, Nat.shiftRight_eq_div_pow, frameOf]
  omega

theorem copyEntry_absent {b : Nat} (hp : ¬Present (m.pte d₀ n)) :
    m.copyEntry (m.entryAddr d₀ n) b = m := by
  rw [Mm.copyEntry, load_entryAddr, if_neg hp]

/-- One round of the inner loop on a page of the kernel. -/
theorem copyEntry_low (hp : Present (m.pte d₀ n)) (hlow : frameOf (m.pte d₀ n) < 256) :
    m.copyEntry (m.entryAddr d₀ n) (m.entryAddr d n) =
      m.setPte d n (readOnly (m.pte d₀ n)) := by
  have hgt : ¬(readOnly (m.pte d₀ n)).toNat > lowMem := fun hgt => by
    have hge := (lowMem_lt_iff (present_readOnly.2 hp)).1 hgt
    rw [frameOf_readOnly] at hge
    omega
  rw [Mm.copyEntry, load_entryAddr, if_pos hp]
  change (if (readOnly (m.pte d₀ n)).toNat > lowMem then _
    else m.store (m.entryAddr d n) (readOnly (m.pte d₀ n))) = _
  rw [if_neg hgt, store_entryAddr]

/-- One round of the inner loop on a page above 1 MB. -/
theorem copyEntry_high (hp : Present (m.pte d₀ n)) (hge : 256 ≤ frameOf (m.pte d₀ n)) :
    m.copyEntry (m.entryAddr d₀ n) (m.entryAddr d n) =
      ((m.setPte d n (readOnly (m.pte d₀ n))).store (m.entryAddr d₀ n)
        (readOnly (m.pte d₀ n))).incr (frameOf (m.pte d₀ n)) := by
  have hgt : (readOnly (m.pte d₀ n)).toNat > lowMem :=
    (lowMem_lt_iff (present_readOnly.2 hp)).2 (by rwa [frameOf_readOnly])
  rw [Mm.copyEntry, load_entryAddr, if_pos hp]
  change (if (readOnly (m.pte d₀ n)).toNat > lowMem then
    ((m.store (m.entryAddr d n) (readOnly (m.pte d₀ n))).store (m.entryAddr d₀ n)
      (readOnly (m.pte d₀ n))).setCount (mapNr (readOnly (m.pte d₀ n)).toNat) _ else _) = _
  rw [if_pos hgt, store_entryAddr, mapNr_toNat, frameOf_readOnly]
  rfl

/-- The two entries of a round are different words, so that the order of the
    stores does not matter. -/
theorem Inv.copyEntry_comm (h : Inv lo hi ext m) (hu₀ : UserPage d₀ n)
    (hp₀ : Present (m.pde d₀)) (hu : UserPage d n) (hp : Present (m.pde d)) (hne : d ≠ d₀)
    (v : Word) (g : Nat) :
    ((m.setPte d n v).store (m.entryAddr d₀ n) v).incr g =
      ((m.setPte d₀ n v).incr g).setPte d n v := by
  have hframe : frameOf (m.pde d) ≠ frameOf (m.pde d₀) := fun heq =>
    hne (h.table_inj hu.1 hu₀.1 ⟨hp, heq⟩ ⟨hp₀, rfl⟩)
  have haddr : m.entryAddr d₀ n / 4 = 1024 * frameOf (m.pde d₀) + n := by
    rw [entryAddr]
    omega
  have hpde : ((m.setPte d₀ n v).incr g).pde d = m.pde d := h.pde_setPte hu₀.1 hp₀ hu.1.2 v
  refine Mm.ext (funext fun w => ?_) ?_ rfl
  · rw [phys_incr, phys_store, haddr, phys_setPte, phys_setPte, hpde, phys_incr, phys_setPte]
    split_ifs <;> rfl
  · rw [memMap_setPte, memMap_incr, memMap_incr, memMap_store, memMap_setPte, memMap_setPte]

/-- One round of the inner loop on a page above 1 MB: the page of the parent is protected
    first, and counted then. -/
theorem Inv.copyEntry_counted (h : Inv lo hi ext m) (hu₀ : UserPage d₀ n)
    (hm₀ : m.Maps d₀ n (frameOf (m.pte d₀ n))) (hge : 256 ≤ frameOf (m.pte d₀ n))
    (hu : UserPage d n) (hp : Present (m.pde d)) (habs : ¬Present (m.pte d n)) (hne : d ≠ d₀)
    (hoff : d % 16 = d₀ % 16) :
    ∃ m', m.copyEntry (m.entryAddr d₀ n) (m.entryAddr d n) = m' ∧ Inv lo hi ext m' ∧
      Grows m m' ∧ (∀ d' < 1024, m'.pde d' = m.pde d') ∧ m.freeFrames ≤ m'.freeFrames ∧
      ∀ d' n', UserPage d' n' → m'.walk d' n' =
        if n' = n ∧ (d' = d ∨ d' = d₀) then some (readOnly (m.pte d₀ n)) else m.walk d' n' := by
  obtain ⟨hp₀, hpte, -⟩ := id hm₀
  have hro := present_readOnly.2 hpte
  have hprot := h.protect hu₀ hm₀
  have hpde : ∀ d' < 1024, (m.setPte d₀ n (readOnly (m.pte d₀ n))).pde d' = m.pde d' :=
    fun d' hd' => h.pde_setPte hu₀.1 hp₀ hd' _
  have hself : (m.setPte d₀ n (readOnly (m.pte d₀ n))).pte d₀ n = readOnly (m.pte d₀ n) :=
    pte_setPte_self (hpde d₀ hu₀.1.2)
  have hother : (m.setPte d₀ n (readOnly (m.pte d₀ n))).pte d n = m.pte d n :=
    h.pte_setPte_ne hu₀ hp₀ hu hp (fun heq => hne (Prod.mk.inj heq).1) _
  have hp' : Present ((m.setPte d₀ n (readOnly (m.pte d₀ n))).pde d) := by
    rwa [hpde d hu.1.2]
  have hm' : (m.setPte d₀ n (readOnly (m.pte d₀ n))).Maps d₀ n (frameOf (m.pte d₀ n)) := by
    rw [Maps, hpde d₀ hu₀.1.2, hself, frameOf_readOnly]
    exact ⟨hp₀, hro, rfl⟩
  rw [copyEntry_high hpte hge, h.copyEntry_comm hu₀ hp₀ hu hp hne]
  refine ⟨_, rfl, hprot.share hu₀ hm' ?_ hu hp' ?_ hoff (frameOf_readOnly _) hge hro
    (not_writable_readOnly _), ?_, fun d' hd' => ?_, freeFrames_le fun f h₁ _ h0 => ?_,
    fun d' n' hu' => ?_⟩
  · rw [hself]
    exact not_writable_readOnly _
  · rwa [hother]
  · exact (h.grows_setPte hu₀ hp₀ _ m.memMap).trans (hprot.grows_setPte hu hp' _ _)
  · exact (hprot.pde_setPte hu.1 hp' hd' _).trans (hpde d' hd')
  · -- the frame that is counted has not been free
    have hne : f ≠ frameOf (m.pte d₀ n) := fun heq =>
      h.count_ne_zero hu₀ hm₀ hge (heq ▸ h0)
    rw [memMap_setPte, memMap_incr, Function.update_of_ne (by omega), memMap_setPte, h0]
  · have hstep := hprot.walk_setPte hu hp' hu' (readOnly (m.pte d₀ n))
    rw [h.walk_setPte hu₀ hp₀ hu', if_pos hro] at hstep
    refine hstep.trans ?_
    by_cases hn' : n' = n
    · subst hn'
      by_cases h₁ : d' = d
      · rw [if_pos (by rw [h₁]), if_pos ⟨rfl, .inl h₁⟩]
      · by_cases h₂ : d' = d₀
        · rw [if_neg fun heq => h₁ (Prod.mk.inj heq).1, if_pos (by rw [h₂]),
            if_pos ⟨rfl, .inr h₂⟩]
        · rw [if_neg fun heq => h₁ (Prod.mk.inj heq).1,
            if_neg fun heq => h₂ (Prod.mk.inj heq).1, if_neg fun hc => hc.2.elim h₁ h₂]
    · rw [if_neg fun heq => hn' (Prod.mk.inj heq).2, if_neg fun heq => hn' (Prod.mk.inj heq).2,
        if_neg fun hc => hn' hc.1]

/-- One round of the inner loop on a page of a user slot: parent and child map
    it read-only. -/
theorem Inv.copyEntry (h : Inv lo hi ext m) (hu₀ : UserPage d₀ n) (hp₀ : Present (m.pde d₀))
    (hu : UserPage d n) (hp : Present (m.pde d)) (habs : ¬Present (m.pte d n)) (hne : d ≠ d₀)
    (hoff : d % 16 = d₀ % 16) :
    ∃ m', m.copyEntry (m.entryAddr d₀ n) (m.entryAddr d n) = m' ∧ Inv lo hi ext m' ∧
      Grows m m' ∧ (∀ d' < 1024, m'.pde d' = m.pde d') ∧ m.freeFrames ≤ m'.freeFrames ∧
      ∀ d' n', UserPage d' n' → m'.walk d' n' =
        if n' = n ∧ (d' = d ∨ d' = d₀) then (m.walk d₀ n).map readOnly else m.walk d' n' := by
  by_cases hpte : Present (m.pte d₀ n)
  · have hm₀ : m.Maps d₀ n (frameOf (m.pte d₀ n)) := ⟨hp₀, hpte, rfl⟩
    have hro := present_readOnly.2 hpte
    have hwalk : (m.walk d₀ n).map readOnly = some (readOnly (m.pte d₀ n)) := by
      rw [hm₀.walk, Option.map_some]
    rw [hwalk]
    by_cases hge : 256 ≤ frameOf (m.pte d₀ n)
    · exact h.copyEntry_counted hu₀ hm₀ hge hu hp habs hne hoff
    · -- below 1 MB, nothing is counted, and the page of the parent is read-only as it is
      have hkeep : readOnly (m.pte d₀ n) = m.pte d₀ n :=
        readOnly_of_not_writable fun hw => hge (h.writable d₀ n _ hu₀ hm₀ hw).1
      rw [copyEntry_low hpte (by omega)]
      refine ⟨_, rfl, h.shareLow hu hp habs (by rw [frameOf_readOnly]; omega)
        (not_writable_readOnly _), h.grows_setPte hu hp _ m.memMap,
        fun d' hd' => h.pde_setPte hu.1 hp hd' _, le_rfl, fun d' n' hu' => ?_⟩
      rw [h.walk_setPte hu hp hu', if_pos hro]
      split_ifs with h₁ h₂ h₃
      · rfl
      · exact absurd ⟨(Prod.mk.inj h₁).2, .inl (Prod.mk.inj h₁).1⟩ h₂
      · obtain ⟨rfl, rfl | rfl⟩ := h₃
        · exact absurd rfl h₁
        · rw [hm₀.walk, hkeep]
      · rfl
  · -- the parent has no page there, and the child has none either
    refine ⟨m, copyEntry_absent hpte, h, Grows.refl m, fun _ _ => rfl, le_rfl, fun d' n' _ => ?_⟩
    rw [walk_eq_none.2 fun hc : Present (m.pde d₀) ∧ Present (m.pte d₀ n) => hpte hc.2,
      Option.map_none]
    split_ifs with heq
    · obtain ⟨rfl, rfl | rfl⟩ := heq
      · exact walk_eq_none.2 fun hc => habs hc.2
      · exact walk_eq_none.2 fun hc => hpte hc.2
    · rfl

/-! ## The inner loop -/

/-- The inner loop on the pages of a user slot, from the entry `k` on: parent and
    child map them read-only. -/
theorem Inv.copyEntries {nr k : Nat} (h : Inv lo hi ext m) (hd₀ : UserDir d₀)
    (hp₀ : Present (m.pde d₀)) (hd : UserDir d) (hp : Present (m.pde d)) (hne : d ≠ d₀)
    (hoff : d % 16 = d₀ % 16) (hk : k + nr = 1024)
    (habs : ∀ n, k ≤ n → n < 1024 → ¬Present (m.pte d n)) :
    ∃ m', copyEntries nr (m.entryAddr d₀ k) (m.entryAddr d k) m = m' ∧ Inv lo hi ext m' ∧
      Grows m m' ∧ (∀ d' < 1024, m'.pde d' = m.pde d') ∧ m.freeFrames ≤ m'.freeFrames ∧
      ∀ d' n', UserPage d' n' → m'.walk d' n' =
        if k ≤ n' ∧ (d' = d ∨ d' = d₀) then (m.walk d₀ n').map readOnly else m.walk d' n' := by
  induction nr generalizing k m with
  | zero =>
    refine ⟨m, rfl, h, Grows.refl m, fun _ _ => rfl, le_rfl,
      fun d' n' hu => (if_neg fun hc => ?_).symm⟩
    have := hu.2
    omega
  | succ nr ih =>
    have hu₀ : UserPage d₀ k := ⟨hd₀, by omega⟩
    have hu : UserPage d k := ⟨hd, by omega⟩
    obtain ⟨m₁, hstep, hinv, hgrow, hdirs, hfree, hwalk⟩ :=
      h.copyEntry hu₀ hp₀ hu hp (habs k le_rfl (by omega)) hne hoff
    have hpde₀ := hdirs d₀ hd₀.2
    have hpde := hdirs d hd.2
    have hnext : ∀ d' k, m₁.pde d' = m.pde d' →
        m.entryAddr d' k + 4 = m₁.entryAddr d' (k + 1) := fun d' k heq => by
      rw [entryAddr, entryAddr, heq]
      omega
    -- the child has no pages yet after this entry
    have habs' : ∀ n, k + 1 ≤ n → n < 1024 → ¬Present (m₁.pte d n) := by
      intro n hkn hn hc
      have hw := hwalk d n ⟨hd, hn⟩
      rw [if_neg (by omega), walk_eq_none.2 fun hc => habs n (by omega) hn hc.2] at hw
      exact walk_eq_none.1 hw ⟨by rwa [hpde], hc⟩
    obtain ⟨m', hrun, hinv', hgrow', hdirs', hfree', hwalk'⟩ :=
      ih hinv (by rwa [hpde₀]) (by rwa [hpde]) (k := k + 1) (by omega) habs'
    refine ⟨m', ?_, hinv', hgrow.trans hgrow', fun d' hd' => (hdirs' d' hd').trans (hdirs d' hd'),
      hfree.trans hfree', fun d' n' hu' => ?_⟩
    · rw [Mm.copyEntries, hstep, hnext d₀ k hpde₀, hnext d k hpde, hrun]
    · rw [hwalk' d' n' hu', hwalk d' n' hu', hwalk d₀ n' ⟨hd₀, hu'.2⟩]
      -- an entry is before the one of this round, it, or after it
      by_cases hdir : d' = d ∨ d' = d₀
      · rcases Nat.lt_trichotomy n' k with hlt | rfl | hgt
        · rw [if_neg (by omega), if_neg (by omega), if_neg (by omega)]
        · rw [if_neg (by omega), if_pos ⟨rfl, hdir⟩, if_pos ⟨le_rfl, hdir⟩]
        · rw [if_pos ⟨hgt, hdir⟩, if_neg (by omega), if_pos ⟨hgt.le, hdir⟩]
      · rw [if_neg fun hc => hdir hc.2, if_neg fun hc => hdir hc.2, if_neg fun hc => hdir hc.2]

/-- One round of the inner loop on a page of the kernel, which maps the page onto
    itself: its frame is below 1 MB and is not counted. -/
theorem Inv.copyKernelEntry {k : Nat} (h : Inv lo hi ext m) (hu : UserPage d k)
    (hp : Present (m.pde d)) (hk : k < 0xA0) (habs : ¬Present (m.pte d k)) :
    m.copyEntry (m.entryAddr 0 k) (m.entryAddr d k) = m.setPte d k (readOnly (entryOf (4096 * k))) ∧
      Inv lo hi ext (m.setPte d k (readOnly (entryOf (4096 * k)))) ∧
      (∀ d' < 1024, (m.setPte d k (readOnly (entryOf (4096 * k)))).pde d' = m.pde d') ∧
      ∀ d' < 1024, m.entryAddr d' k + 4 =
        (m.setPte d k (readOnly (entryOf (4096 * k)))).entryAddr d' (k + 1) := by
  have hpte : m.pte 0 k = entryOf (4096 * k) := by
    rw [h.kernel.pte (by omega) (by omega), Nat.mul_zero, Nat.zero_add]
  have hframe : frameOf (entryOf (4096 * k)) = k := frameOf_entryOf (by omega)
  have hdirs : ∀ d' < 1024, (m.setPte d k (readOnly (entryOf (4096 * k)))).pde d' = m.pde d' :=
    fun d' hd' => h.pde_setPte hu.1 hp hd' _
  refine ⟨?_, ?_, hdirs, fun d' hd' => ?_⟩
  · rw [copyEntry_low (by rw [hpte]; exact present_entryOf _) (by rw [hpte, hframe]; omega), hpte]
  · exact h.shareLow hu hp habs (by rw [frameOf_readOnly, hframe]; omega) (not_writable_readOnly _)
  · rw [entryAddr, entryAddr, hdirs d' hd']
    omega

/-- The inner loop on the pages of the kernel, from the entry `k` on: the child
    maps the first 640 KB read-only. -/
theorem Inv.copyKernelEntries {nr k : Nat} (h : Inv lo hi ext m) (hd : UserDir d)
    (hp : Present (m.pde d)) (hk : k + nr = 0xA0)
    (habs : ∀ n, k ≤ n → n < 1024 → ¬Present (m.pte d n)) :
    ∃ m', Mm.copyEntries nr (m.entryAddr 0 k) (m.entryAddr d k) m = m' ∧ Inv lo hi ext m' ∧
      Grows m m' ∧ (∀ d' < 1024, m'.pde d' = m.pde d') ∧ m.freeFrames ≤ m'.freeFrames ∧
      ∀ d' n', UserPage d' n' → m'.walk d' n' =
        if d' = d ∧ k ≤ n' ∧ n' < 0xA0 then some (readOnly (entryOf (4096 * n')))
        else m.walk d' n' := by
  induction nr generalizing k m with
  | zero =>
    exact ⟨m, rfl, h, Grows.refl m, fun _ _ => rfl, le_rfl,
      fun d' n' hu => (if_neg (by omega)).symm⟩
  | succ nr ih =>
    have hu : UserPage d k := ⟨hd, by omega⟩
    obtain ⟨hstep, hinv, hdirs, hnext⟩ :=
      h.copyKernelEntry hu hp (by omega) (habs k le_rfl (by omega))
    have hro : Present (readOnly (entryOf (4096 * k))) := present_readOnly.2 (present_entryOf _)
    have hgrow := h.grows_setPte hu hp (readOnly (entryOf (4096 * k))) m.memMap
    have hwalk : ∀ d' n', UserPage d' n' →
        (m.setPte d k (readOnly (entryOf (4096 * k)))).walk d' n' =
          if (d', n') = (d, k) then some (readOnly (entryOf (4096 * k))) else m.walk d' n' :=
      fun d' n' hu' => by rw [h.walk_setPte hu hp hu', if_pos hro]
    have hpde := hdirs d hd.2
    have habs' : ∀ n, k + 1 ≤ n → n < 1024 →
        ¬Present ((m.setPte d k (readOnly (entryOf (4096 * k)))).pte d n) := by
      intro n hkn hn
      rw [h.pte_setPte_ne hu hp ⟨hd, hn⟩ hp fun heq => by have := (Prod.mk.inj heq).2; omega]
      exact habs n (by omega) hn
    obtain ⟨m', hrun, hinv', hgrow', hdirs', hfree, hwalk'⟩ :=
      ih hinv (by rwa [hpde]) (k := k + 1) (by omega) habs'
    refine ⟨m', ?_, hinv', hgrow.trans hgrow', fun d' hd' => (hdirs' d' hd').trans (hdirs d' hd'),
      hfree, fun d' n' hu' => ?_⟩
    · rw [Mm.copyEntries, hstep, hnext 0 (by omega), hnext d hd.2, hrun]
    · rw [hwalk' d' n' hu', hwalk d' n' hu']
      -- as before, by the place of the entry
      by_cases hdir : d' = d
      · subst hdir
        rcases Nat.lt_trichotomy n' k with hlt | rfl | hgt
        · rw [if_neg (by omega), if_neg (fun heq => by have := (Prod.mk.inj heq).2; omega),
            if_neg (by omega)]
        · rw [if_neg (by omega), if_pos rfl, if_pos ⟨rfl, le_rfl, by omega⟩]
        · by_cases hlt : n' < 0xA0
          · rw [if_pos ⟨rfl, hgt, hlt⟩, if_pos ⟨rfl, hgt.le, hlt⟩]
          · rw [if_neg (by omega), if_neg (fun heq => by have := (Prod.mk.inj heq).2; omega),
              if_neg (by omega)]
      · rw [if_neg fun hc => hdir hc.1, if_neg fun heq => hdir (Prod.mk.inj heq).1,
          if_neg fun hc => hdir hc.1]

/-! ## The outer loop -/

/-- Installing a page table adds to the page tables. -/
theorem grows_newTable (hge : 256 ≤ f) (hlt : f < 4096) (hd : UserDir d)
    (habs : ¬Present (m.pde d)) : Grows m (m.newTable d f) where
  pde d' hd' hp := by
    have hne : d' ≠ d := fun heq => habs (heq ▸ hp)
    rw [newTable, pde_setPde, if_neg hne, pde_alloc hd' hge]
  phys w hw hfree := by
    have hd2 := hd.2
    have hne : w / 1024 ≠ f := fun heq => by
      refine hfree d hd ?_
      rw [newTable, table_setPde, if_pos rfl, frameOf_entryOf (by omega)]
      exact ⟨present_entryOf _, heq.symm⟩
    rw [newTable, phys_setPde_ne _ (by omega), phys_alloc, if_neg hne]

theorem pageOf_load_dir (m : Mm) (d : Nat) : pageOf (m.load (4 * d)) = m.entryAddr d 0 := by
  rw [load_word, pageOf_eq, entryAddr, pde, Nat.mul_zero, Nat.add_zero]

/-- What a new page table of the child leaves of the rest. -/
theorem Inv.newTable_frame (h : Inv lo hi ext m) (hge : 256 ≤ f) (hlt : f < 4096)
    (h0 : m.memMap (f - 256) = 0) (hd : UserDir d) (habs : ¬Present (m.pde d)) :
    (∀ d' < 1024, d' ≠ d → (m.newTable d f).pde d' = m.pde d') ∧
      (∀ d' n, UserPage d' n → (m.newTable d f).walk d' n = m.walk d' n) ∧
      Present ((m.newTable d f).pde d) ∧ (m.newTable d f).entryAddr d 0 = 4096 * f ∧
      ∀ n < 1024, ¬Present ((m.newTable d f).pte d n) := by
  obtain ⟨-, hsame, hpde, hzero⟩ := h.newTable hge hlt h0 hd habs
  refine ⟨fun d' hd' hne => ?_, fun d' n hu => (hsame d' n hu trivial).1,
    hpde ▸ present_entryOf _, ?_, fun n hn => ?_⟩
  · rw [Mm.newTable, pde_setPde, if_neg hne, pde_alloc hd' hge]
  · rw [entryAddr, hpde, frameOf_entryOf (by omega), Nat.mul_zero, Nat.add_zero]
  · rw [hzero n hn]
    exact not_present_zero

/-- One round of the outer loop on a page table of a user slot, once the child
    has its page table in the new frame `f`. -/
theorem Inv.copyDir (h : Inv lo hi ext m) (hge : 256 ≤ f) (hlt : f < 4096)
    (h0 : m.memMap (f - 256) = 0) (hd₀ : UserDir d₀) (hp₀ : Present (m.pde d₀))
    (hd : UserDir d) (habs : ¬Present (m.pde d)) (hne : d ≠ d₀) (hoff : d % 16 = d₀ % 16) :
    ∃ m', Mm.copyEntries 1024 (pageOf (m.load (4 * d₀))) (4096 * f) (m.newTable d f) = m' ∧
      Inv lo hi ext m' ∧ Grows m m' ∧ (∀ d' < 1024, d' ≠ d → m'.pde d' = m.pde d') ∧
      m.freeFrames ≤ m'.freeFrames + 1 ∧ ∀ d' n', UserPage d' n' → m'.walk d' n' =
        if d' = d ∨ d' = d₀ then (m.walk d₀ n').map readOnly else m.walk d' n' := by
  obtain ⟨hinv, -⟩ := h.newTable hge hlt h0 hd habs
  obtain ⟨hpde, hwalk, hp, haddr, hempty⟩ := h.newTable_frame hge hlt h0 hd habs
  have hpde₀ := hpde d₀ hd₀.2 (Ne.symm hne)
  obtain ⟨m', hrun, hinv', hgrow, hdirs, hfree, hwalk'⟩ := hinv.copyEntries hd₀ (by rwa [hpde₀]) hd
    hp hne hoff (Nat.zero_add 1024) fun n _ hn => hempty n hn
  have hless := freeFrames_alloc hge hlt h0
  rw [← freeFrames_congr (memMap_setPde _ d (entryOf (4096 * f))), ← Mm.newTable] at hless
  refine ⟨m', ?_, hinv', (grows_newTable hge hlt hd habs).trans hgrow, fun d' hd' hne' => ?_,
    by omega, fun d' n' hu => ?_⟩
  · rw [← hrun, pageOf_load_dir, ← haddr, entryAddr, entryAddr, entryAddr, hpde₀]
  · rw [hdirs d' hd', hpde d' hd' hne']
  · rw [hwalk' d' n' hu, hwalk d₀ n' ⟨hd₀, hu.2⟩, hwalk d' n' hu]
    simp only [Nat.zero_le, true_and]

/-- One round of the outer loop on the first page table of the kernel. -/
theorem Inv.copyKernelDir (h : Inv lo hi ext m) (hge : 256 ≤ f) (hlt : f < 4096)
    (h0 : m.memMap (f - 256) = 0) (hd : UserDir d) (habs : ¬Present (m.pde d)) :
    ∃ m', Mm.copyEntries 0xA0 (pageOf (m.load (4 * 0))) (4096 * f) (m.newTable d f) = m' ∧
      Inv lo hi ext m' ∧ Grows m m' ∧ (∀ d' < 1024, d' ≠ d → m'.pde d' = m.pde d') ∧
      m.freeFrames ≤ m'.freeFrames + 1 ∧ ∀ d' n', UserPage d' n' → m'.walk d' n' =
        if d' = d ∧ n' < 0xA0 then some (readOnly (entryOf (4096 * n'))) else m.walk d' n' := by
  obtain ⟨hinv, -⟩ := h.newTable hge hlt h0 hd habs
  obtain ⟨hpde, hwalk, hp, haddr, hempty⟩ := h.newTable_frame hge hlt h0 hd habs
  have hpde₀ : (m.newTable d f).pde 0 = m.pde 0 := by
    have := hd.1
    exact hpde 0 (by omega) (by omega)
  obtain ⟨m', hrun, hinv', hgrow, hdirs, hfree, hwalk'⟩ := hinv.copyKernelEntries hd hp
    (Nat.zero_add 0xA0) fun n _ hn => hempty n hn
  have hless := freeFrames_alloc hge hlt h0
  rw [← freeFrames_congr (memMap_setPde _ d (entryOf (4096 * f))), ← Mm.newTable] at hless
  refine ⟨m', ?_, hinv', (grows_newTable hge hlt hd habs).trans hgrow, fun d' hd' hne' => ?_,
    by omega, fun d' n' hu => ?_⟩
  · rw [← hrun, pageOf_load_dir, ← haddr, entryAddr, entryAddr, entryAddr, hpde₀]
  · rw [hdirs d' hd', hpde d' hd' hne']
  · rw [hwalk' d' n' hu, hwalk d' n' hu]
    simp only [Nat.zero_le, true_and]

/-- The outer loop stops at a directory entry of the child that is present. -/
theorem copyDirs_exists {frm size : Nat} (hp : Present (m.pde d)) :
    copyDirs frm (size + 1) (4 * d₀) (4 * d) m = .error .alreadyExists := by
  rw [copyDirs, load_word, if_pos (by rwa [pde] at hp)]

/-- The outer loop skips an absent directory entry of the parent. -/
theorem copyDirs_skip {frm size : Nat} (habs : ¬Present (m.pde d)) (hp₀ : ¬Present (m.pde d₀)) :
    copyDirs frm (size + 1) (4 * d₀) (4 * d) m =
      copyDirs frm size (4 * (d₀ + 1)) (4 * (d + 1)) m := by
  rw [pde] at habs hp₀
  rw [copyDirs, load_word, load_word, if_neg habs, if_neg hp₀]
  rfl

/-- The outer loop on a present directory entry of the parent. -/
theorem copyDirs_step (frm size : Nat) (habs : ¬Present (m.pde d)) (hp₀ : Present (m.pde d₀)) :
    copyDirs frm (size + 1) (4 * d₀) (4 * d) m = .ok (-1, m) ∧ m.freeFrames = 0 ∨
      ∃ f, 256 ≤ f ∧ f < 4096 ∧ m.memMap (f - 256) = 0 ∧
        copyDirs frm (size + 1) (4 * d₀) (4 * d) m =
          copyDirs frm size (4 * (d₀ + 1)) (4 * (d + 1))
            (copyEntries (if frm = 0 then 0xA0 else 1024) (pageOf (m.load (4 * d₀))) (4096 * f)
              (m.newTable d f)) := by
  rw [pde] at habs hp₀
  rcases getFreePage_cases m with ⟨hnone, hzero⟩ | ⟨f, hge, hlt, h0, -, hfree⟩
  · refine .inl ⟨?_, hzero⟩
    rw [copyDirs, load_word, load_word, if_neg habs, if_pos hp₀, hnone]
    rfl
  · refine .inr ⟨f, hge, hlt, h0, ?_⟩
    have hstore : (m.alloc f).store (4 * d) (entryOf (4096 * f)) = m.newTable d f :=
      store_word _ _ _
    rw [copyDirs, load_word, load_word, if_neg habs, if_pos hp₀, hfree]
    split
    · rename_i heq
      have := congrArg Prod.fst heq
      simp only at this
      omega
    · rename_i heq
      obtain ⟨rfl, rfl⟩ := Prod.mk.inj heq
      rw [hstore]
      rfl

/-- What `copy_page_tables` does to the pages, from the directory entries from
    `d₀` on to those from `d` on: parent and child map them read-only. -/
def Copied (d₀ d size : Nat) (m m' : Mm) : Prop :=
  ∀ d' n, UserPage d' n → m'.walk d' n =
    if d ≤ d' ∧ d' < d + size then (m.walk (d' - d + d₀) n).map readOnly
    else if d₀ ≤ d' ∧ d' < d₀ + size then (m.walk d' n).map readOnly
    else m.walk d' n

/-- Copying one directory entry and then the ones after it. -/
theorem Copied.cons {size : Nat} (h : Copied (d₀ + 1) (d + 1) size m' m'') (hd₀ : 16 ≤ d₀)
    (hd₀' : d₀ + (size + 1) ≤ 1024) (hdisj : d + (size + 1) ≤ d₀ ∨ d₀ + (size + 1) ≤ d)
    (hwalk : ∀ d' n', UserPage d' n' → m'.walk d' n' =
      if d' = d ∨ d' = d₀ then (m.walk d₀ n').map readOnly else m.walk d' n') :
    Copied d₀ d (size + 1) m m'' := by
  intro d' n hu
  rw [h d' n hu]
  -- the entry is one of the later targets, of the later sources, one of this round, or none
  by_cases h₁ : d + 1 ≤ d' ∧ d' < d + 1 + size
  · have hindex : d' - (d + 1) + (d₀ + 1) = d' - d + d₀ := by omega
    rw [if_pos h₁, if_pos (by omega), hindex, hwalk _ n ⟨⟨by omega, by omega⟩, hu.2⟩,
      if_neg (by omega)]
  · rw [if_neg h₁, hwalk d' n hu]
    by_cases h₂ : d₀ + 1 ≤ d' ∧ d' < d₀ + 1 + size
    · rw [if_pos h₂, if_neg (by omega), if_neg (by omega), if_pos (by omega)]
    · rw [if_neg h₂]
      by_cases hd : d' = d
      · rw [if_pos (.inl hd), if_pos (by omega), hd, Nat.sub_self, Nat.zero_add]
      · by_cases hd₀' : d' = d₀
        · rw [if_pos (.inr hd₀'), if_neg (by omega), if_pos (by omega), hd₀']
        · rw [if_neg (not_or.2 ⟨hd, hd₀'⟩), if_neg (by omega), if_neg (by omega)]

/-- One round of the outer loop in the region of a user slot: it stops, runs out
    of memory, or goes on with the pages of one directory entry copied. -/
theorem Inv.copyDirs_round {frm : Nat} (h : Inv lo hi ext m) (size : Nat) (hfrm : frm ≠ 0)
    (hd₀ : UserDir d₀) (hd : UserDir d) (hne : d ≠ d₀) (hoff : d % 16 = d₀ % 16) :
    (Mm.copyDirs frm (size + 1) (4 * d₀) (4 * d) m = .error .alreadyExists ∧ Present (m.pde d)) ∨
    (Mm.copyDirs frm (size + 1) (4 * d₀) (4 * d) m = .ok (-1, m) ∧ m.freeFrames = 0) ∨
    ∃ m', Mm.copyDirs frm (size + 1) (4 * d₀) (4 * d) m =
        Mm.copyDirs frm size (4 * (d₀ + 1)) (4 * (d + 1)) m' ∧
      Inv lo hi ext m' ∧ Grows m m' ∧ (∀ d' < 1024, d' ≠ d → m'.pde d' = m.pde d') ∧
      m.freeFrames ≤ m'.freeFrames + 1 ∧ ∀ d' n', UserPage d' n' → m'.walk d' n' =
        if d' = d ∨ d' = d₀ then (m.walk d₀ n').map readOnly else m.walk d' n' := by
  by_cases hp : Present (m.pde d)
  · exact .inl ⟨copyDirs_exists hp, hp⟩
  · by_cases hp₀ : Present (m.pde d₀)
    · rcases copyDirs_step frm size hp hp₀ with hfail | ⟨f, hge, hlt, h0, hstep⟩
      · exact .inr (.inl hfail)
      · obtain ⟨m', hcopy, hrest⟩ := h.copyDir hge hlt h0 hd₀ hp₀ hd hp hne hoff
        rw [if_neg hfrm, hcopy] at hstep
        exact .inr (.inr ⟨m', hstep, hrest⟩)
    · -- the parent has no page table here, so there are no pages to copy
      refine .inr (.inr ⟨m, copyDirs_skip hp hp₀, h, Grows.refl m, fun _ _ _ => rfl, by omega, ?_⟩)
      intro d' n' _
      rw [walk_eq_none.2 fun hc : Present (m.pde d₀) ∧ Present (m.pte d₀ n') => hp₀ hc.1,
        Option.map_none]
      split_ifs with heq
      · rcases heq with rfl | rfl
        · exact walk_eq_none.2 fun hc => hp hc.1
        · exact walk_eq_none.2 fun hc => hp₀ hc.1
      · rfl

/-- The outer loop in the region of a user slot: it stops at a page table that
    exists already, or keeps the invariant and the pages of the other slots; if
    it returns 0, the pages are copied. -/
theorem Inv.copyDirs (h : Inv lo hi ext m) (frm size d₀ d : Nat) (hfrm : frm ≠ 0) (hd₀ : 16 ≤ d₀)
    (hd₀' : d₀ + size ≤ 1024) (hd : 16 ≤ d) (hd' : d + size ≤ 1024)
    (hdisj : d + size ≤ d₀ ∨ d₀ + size ≤ d) (hoff : d % 16 = d₀ % 16) :
    (Mm.copyDirs frm size (4 * d₀) (4 * d) m = .error .alreadyExists ∧
      ∃ d', d ≤ d' ∧ d' < d + size ∧ Present (m.pde d')) ∨
    ∃ r m', Mm.copyDirs frm size (4 * d₀) (4 * d) m = .ok (r, m') ∧ Inv lo hi ext m' ∧
      Grows m m' ∧ (∀ d' < 1024, ¬(d ≤ d' ∧ d' < d + size) → m'.pde d' = m.pde d') ∧
      (∀ d' n, UserPage d' n → ¬(d ≤ d' ∧ d' < d + size) → ¬(d₀ ≤ d' ∧ d' < d₀ + size) →
        m'.walk d' n = m.walk d' n) ∧ m.freeFrames ≤ m'.freeFrames + size ∧
      (r ≠ 0 → m'.freeFrames = 0) ∧ (r = 0 → Copied d₀ d size m m') := by
  induction size generalizing d d₀ m with
  | zero =>
    refine .inr ⟨0, m, rfl, h, Grows.refl m, fun _ _ _ => rfl, fun _ _ _ _ _ => rfl, le_rfl,
      fun hne => absurd rfl hne, ?_⟩
    intro _ d' n _
    rw [if_neg (by omega), if_neg (by omega)]
  | succ size ih =>
    rcases h.copyDirs_round size hfrm ⟨hd₀, by omega⟩ ⟨hd, by omega⟩
      (by omega) hoff with ⟨herr, hp⟩ | ⟨hfail, hzero⟩ |
        ⟨m₁, hstep, hinv, hgrow, hdirs, hfree, hwalk⟩
    · exact .inl ⟨herr, d, le_rfl, by omega, hp⟩
    · exact .inr ⟨-1, m, hfail, h, Grows.refl m, fun _ _ _ => rfl, fun _ _ _ _ _ => rfl,
        by omega, fun _ => hzero, fun h0 => absurd h0 (by decide)⟩
    · rw [hstep]
      rcases ih hinv (d₀ + 1) (d + 1) (by omega) (by omega) (by omega) (by omega)
        (by omega) (by omega) with ⟨herr, d', h₁, h₂, hp⟩ |
          ⟨r, m', hok, hinv', hgrow', hdirs', hwalk', hfree', hfail, hcopied⟩
      · exact .inl ⟨herr, d', by omega, by omega, hdirs d' (by omega) (by omega) ▸ hp⟩
      · refine .inr ⟨r, m', hok, hinv', hgrow.trans hgrow', fun d' hlt hout => ?_,
          fun d' n hu hout hout₀ => ?_, by omega, hfail,
          fun h0 => (hcopied h0).cons hd₀ hd₀' hdisj hwalk⟩
        · rw [hdirs' d' hlt (by omega), hdirs d' hlt (by omega)]
        · rw [hwalk' d' n hu (by omega) (by omega), hwalk d' n hu, if_neg (by omega)]

/-- The outer loop on the first page table of the kernel: it stops at a page
    table that exists already, or keeps the invariant and the pages of all other
    directory entries; if it returns 0, the child maps the first 640 KB. -/
theorem Inv.copyKernelDirs (h : Inv lo hi ext m) (hd : UserDir d) :
    (Mm.copyDirs 0 1 (4 * 0) (4 * d) m = .error .alreadyExists ∧ Present (m.pde d)) ∨
    ∃ r m', Mm.copyDirs 0 1 (4 * 0) (4 * d) m = .ok (r, m') ∧ Inv lo hi ext m' ∧ Grows m m' ∧
      (∀ d' < 1024, d' ≠ d → m'.pde d' = m.pde d') ∧
      (∀ d' n, UserPage d' n → d' ≠ d → m'.walk d' n = m.walk d' n) ∧
      m.freeFrames ≤ m'.freeFrames + 1 ∧ (r ≠ 0 → m'.freeFrames = 0) ∧
      (r = 0 → ∀ n < 1024, m'.walk d n =
        if n < 0xA0 then some (readOnly (entryOf (4096 * n))) else none) := by
  have hp₀ : Present (m.pde 0) := h.kernel.dir 0 (by omega) ▸ present_entryOf _
  by_cases hp : Present (m.pde d)
  · exact .inl ⟨copyDirs_exists hp, hp⟩
  · rcases copyDirs_step 0 0 hp hp₀ with ⟨hfail, hzero⟩ |
      ⟨f, hge, hlt, h0, hstep⟩
    · exact .inr ⟨-1, m, hfail, h, Grows.refl m, fun _ _ _ => rfl, fun _ _ _ _ => rfl,
        by omega, fun _ => hzero, fun h0 => absurd h0 (by decide)⟩
    · obtain ⟨m', hcopy, hinv, hgrow, hdirs, hfree, hwalk⟩ := h.copyKernelDir hge hlt h0 hd hp
      rw [if_pos rfl, hcopy] at hstep
      refine .inr ⟨0, m', hstep, hinv, hgrow, hdirs, fun d' n hu hne => ?_, hfree,
        fun hne => absurd rfl hne, fun _ n hn => ?_⟩
      · rw [hwalk d' n hu, if_neg fun hc => hne hc.1]
      · rw [hwalk d n ⟨hd, hn⟩, walk_eq_none.2 fun hc : Present (m.pde d) ∧ _ => hp hc.1]
        simp only [true_and]

/-! ## The whole function -/

/-- `copy_page_tables` from the region of slot `i` to that of slot `j`. -/
theorem copyPageTables_eq {i j size : Nat} (hi : i < 64) (hj : j < 64) (hsize : size ≤ 0x4000000) :
    m.copyPageTables (i * 0x4000000) (j * 0x4000000) size =
      Mm.copyDirs (i * 0x4000000) ((size + 0x3fffff) / 2 ^ 22) (4 * (16 * i)) (4 * (16 * j)) m := by
  have hdir : ∀ i < 64, i * 0x4000000 / 2 ^ 22 % 1024 = 16 * i := fun i hi => by omega
  have haligned : ∀ i : Nat, i * 0x4000000 &&& 0x3fffff = 0 := fun i => by
    rw [and_alignment_eq]
    omega
  rw [copyPageTables, if_neg (by rw [haligned, haligned]; omega), dirCount_eq hsize, dirEntry_eq,
    dirEntry_eq, hdir i hi, hdir j hj]

/-- `copy_page_tables` from the region of slot `i` to that of another slot `j`
    stops at a page table that exists already, or keeps the invariant and the
    pages of the other slots. -/
theorem Inv.copyPageTables {i j size : Nat} (h : Inv lo hi ext m) (hi64 : i < 64) (hj1 : 1 ≤ j)
    (hj64 : j < 64) (hne : i ≠ j) (hsize : size ≤ 0x4000000)
    (hkernel : i = 0 → 0 < size ∧ size ≤ 0x400000) :
    (m.copyPageTables (i * 0x4000000) (j * 0x4000000) size = .error .alreadyExists ∧
      ∃ d, 16 * j ≤ d ∧ d < 16 * j + (size + 0x3fffff) / 2 ^ 22 ∧ Present (m.pde d)) ∨
    ∃ r m', m.copyPageTables (i * 0x4000000) (j * 0x4000000) size = .ok (r, m') ∧
      Inv lo hi ext m' ∧ Grows m m' ∧
      (∀ d < 1024, ¬(16 * j ≤ d ∧ d < 16 * j + (size + 0x3fffff) / 2 ^ 22) →
        m'.pde d = m.pde d) ∧
      (∀ d n, UserPage d n → d / 16 ≠ i → d / 16 ≠ j → m'.walk d n = m.walk d n) ∧
      m.freeFrames ≤ m'.freeFrames + (size + 0x3fffff) / 2 ^ 22 ∧
      (r ≠ 0 → m'.freeFrames = 0) ∧
      (r = 0 → if i = 0 then ∀ n < 1024, m'.walk (16 * j) n =
          if n < 0xA0 then some (readOnly (entryOf (4096 * n))) else none
        else Copied (16 * i) (16 * j) ((size + 0x3fffff) / 2 ^ 22) m m') := by
  rw [copyPageTables_eq hi64 hj64 hsize]
  rcases Nat.eq_zero_or_pos i with rfl | hpos
  · obtain ⟨hpos, hle⟩ := hkernel rfl
    have hone : (size + 0x3fffff) / 2 ^ 22 = 1 := by omega
    rw [hone, Nat.zero_mul]
    rcases h.copyKernelDirs (d := 16 * j) ⟨by omega, by omega⟩ with
      ⟨herr, hp⟩ | ⟨r, m', hok, hinv, hgrow, hdirs, hwalk, hfree, hfail, hcopied⟩
    · exact .inl ⟨herr, _, le_rfl, by omega, hp⟩
    · refine .inr ⟨r, m', hok, hinv, hgrow, fun d hd hout => hdirs d hd (by omega),
        fun d n hu _ hdj => hwalk d n hu (by omega), hfree, hfail, fun h0 => ?_⟩
      rw [if_pos rfl]
      exact hcopied h0
  · rcases h.copyDirs (i * 0x4000000) ((size + 0x3fffff) / 2 ^ 22) (16 * i) (16 * j)
      (by omega) (by omega) (by omega) (by omega) (by omega) (by omega)
      (by omega) with ⟨herr, d, h₁, h₂, hp⟩ |
        ⟨r, m', hok, hinv, hgrow, hdirs, hwalk, hfree, hfail, hcopied⟩
    · exact .inl ⟨herr, d, h₁, h₂, hp⟩
    · refine .inr ⟨r, m', hok, hinv, hgrow, hdirs,
        fun d n hu hdi hdj => hwalk d n hu (by omega) (by omega), hfree, hfail, fun h0 => ?_⟩
      rw [if_neg (by omega)]
      exact hcopied h0

/-- Pages whose translation is the same before and after a copy of page tables
    have the same contents. -/
theorem Inv.samePages_of_grows {S : Nat → Nat → Prop} (h : Inv lo hi ext m') (hgrow : Grows m m')
    (hwalk : ∀ d n, UserPage d n → S d n → m'.walk d n = m.walk d n) : SamePages S m m' := by
  intro d n hu hS
  refine ⟨hwalk d n hu hS, fun e he h0 k hk => hgrow.phys _ (by omega) fun d' hd' ht => ?_⟩
  have hmaps := maps_of_walk ((hwalk d n hu hS).trans he)
  have hframe : (1024 * frameOf e + k) / 1024 = frameOf e := by omega
  exact h.not_maps_table hd' (hframe ▸ ht) hu hmaps

end NeuOs.Mm
