import NeuOs.Mm.Faults

/-!
# Freeing page tables

`free_page_tables` on a range of user directory entries never meets a page that
is free already (`Inv.freeDirs`, `Inv.freePageTables`): every page it frees is
counted. It leaves the directory entries of the range absent, and the pages of
all the other directory entries as they are.
-/

namespace NeuOs.Mm

variable {lo hi : Nat} {ext : Nat → Nat} {m : Mm} {d n f g : Nat}

/-- `free_page` on the frame of a user page counts it down, unless it is one of
    the kernel's. -/
theorem Inv.freePage_mapped (h : Inv lo hi ext m) (hu : UserPage d n) (hm : m.Maps d n g) :
    m.freePage (4096 * g) = .ok (m.dropCount g) := by
  rw [dropCount]
  split_ifs with hge
  · have hman := (h.mapped d n g hu hm).resolve_left (by omega)
    refine freePage_ok hge ?_ (h.count_ne_zero hu hm hge)
    rw [h.highMemory]
    have := hman.2
    omega
  · exact freePage_low (by omega)

/-- `free_page` on a page table counts it down. -/
theorem Inv.freePage_table (h : Inv lo hi ext m) (hd : UserDir d) (ht : m.Table d f) :
    m.freePage (4096 * f) = .ok (m.decr f) := by
  obtain ⟨hman, hone⟩ := h.table d f hd ht
  refine freePage_ok (h.managed_ge hman) ?_ (by rw [hone]; decide)
  rw [h.highMemory]
  have := hman.2
  omega

/-- One round of the inner loop of `free_page_tables`: the entry `n` is cleared,
    and nothing else changes. -/
theorem Inv.freeEntry (h : Inv lo hi ext m) (hu : UserPage d n) (hp : Present (m.pde d)) :
    ∃ m₁, (if Present (m.load (m.entryAddr d n)) then
        m.freePage (pageOf (m.load (m.entryAddr d n))) else .ok m) = .ok m₁ ∧
      ∃ m', m₁.store (m.entryAddr d n) 0 = m' ∧ Inv lo hi ext m' ∧
      (∀ d' < 1024, m'.pde d' = m.pde d') ∧ m'.pte d n = 0 ∧
      (∀ n' < 1024, n' ≠ n → m'.pte d n' = m.pte d n') ∧
      SamePages (fun d' _ => d' ≠ d) m m' := by
  rw [load_entryAddr, pageOf_eq]
  -- In both cases, only the counters differ from those of the cleared entry.
  have rest : ∀ map' : Nat → Byte, ∀ m' : Mm, m' = { m.setPte d n 0 with memMap := map' } →
      (∀ d' < 1024, m'.pde d' = m.pde d') ∧ m'.pte d n = 0 ∧
      (∀ n' < 1024, n' ≠ n → m'.pte d n' = m.pte d n') ∧
      SamePages (fun d' _ => d' ≠ d) m m' := by
    rintro map' _ rfl
    refine ⟨fun d' hd' => h.pde_setPte hu.1 hp hd' 0,
      pte_setPte_self (h.pde_setPte hu.1 hp hu.1.2 0), fun n' hn' hne => ?_, ?_⟩
    · exact h.pte_setPte_ne hu hp ⟨hu.1, hn'⟩ hp (fun heq => hne (Prod.mk.inj heq).2) 0
    · exact (h.samePages_setPte hu hp 0 map').mono fun d' n' hne heq => hne (Prod.mk.inj heq).1
  split_ifs with hpte
  · have hm : m.Maps d n (frameOf (m.pte d n)) := ⟨hp, hpte, rfl⟩
    refine ⟨_, h.freePage_mapped hu hm, _, ?_, h.dropPage hu hm,
      rest (m.dropCount (frameOf (m.pte d n))).memMap _ ?_⟩
    · rw [← store_entryAddr, entryAddr, entryAddr, pde_dropCount]
    · rw [dropCount_eq]
      rfl
  · exact ⟨m, rfl, _, store_entryAddr 0, h.clearEntry hu hp hpte, rest m.memMap _ rfl⟩

theorem freeEntries_succ (nr a : Nat) (m : Mm) :
    freeEntries (nr + 1) a m =
      (if Present (m.load a) then m.freePage (pageOf (m.load a)) else .ok m) >>= fun m =>
        freeEntries nr (a + 4) (m.store a 0) := by
  rw [freeEntries]
  split_ifs <;> rfl

/-- The inner loop of `free_page_tables` clears the entries of a page table from
    `k` on. -/
theorem Inv.freeEntries {nr k : Nat} (h : Inv lo hi ext m) (hd : UserDir d)
    (hp : Present (m.pde d)) (hk : k + nr = 1024) :
    ∃ m', freeEntries nr (m.entryAddr d k) m = .ok m' ∧ Inv lo hi ext m' ∧
      (∀ d' < 1024, m'.pde d' = m.pde d') ∧
      (∀ n < 1024, m'.pte d n = if k ≤ n then 0 else m.pte d n) ∧
      SamePages (fun d' _ => d' ≠ d) m m' := by
  induction nr generalizing k m with
  | zero =>
    exact ⟨m, rfl, h, fun _ _ => rfl, fun n hn => (if_neg (by omega)).symm, SamePages.refl _ _⟩
  | succ nr ih =>
    obtain ⟨m₁, hfree, m₂, hstore, hinv, hpde, hself, hothers, hsame⟩ :=
      h.freeEntry (n := k) ⟨hd, by omega⟩ hp
    have hnext : m.entryAddr d k + 4 = m₂.entryAddr d (k + 1) := by
      rw [entryAddr, entryAddr, hpde d hd.2]
      omega
    obtain ⟨m', hok, hinv', hpde', hpte', hsame'⟩ :=
      ih hinv (by rwa [hpde d hd.2]) (k := k + 1) (by omega)
    refine ⟨m', ?_, hinv', fun d' hd' => (hpde' d' hd').trans (hpde d' hd'), fun n hn => ?_,
      hsame.trans hsame'⟩
    · rw [freeEntries_succ, hfree]
      change Mm.freeEntries nr (m.entryAddr d k + 4) (m₁.store (m.entryAddr d k) 0) = _
      rw [hstore, hnext, hok]
    · rw [hpte' n hn]
      rcases Nat.lt_trichotomy n k with hlt | rfl | hgt
      · rw [if_neg (by omega), if_neg (by omega), hothers n hn (by omega)]
      · rw [if_neg (by omega), if_pos le_rfl, hself]
      · rw [if_pos (by omega), if_pos (by omega)]

/-- One round of the outer loop of `free_page_tables`: the pages of the directory
    entry `d` and its page table are freed. -/
theorem Inv.freeDir (h : Inv lo hi ext m) (hd : UserDir d) (hp : Present (m.pde d)) :
    ∃ m₁ m₂ m₃, Mm.freeEntries 1024 (pageOf (m.load (4 * d))) m = .ok m₁ ∧
      m₁.freePage (pageOf (m₁.load (4 * d))) = .ok m₂ ∧ m₂.store (4 * d) 0 = m₃ ∧
      Inv lo hi ext m₃ ∧ (∀ d' < 1024, m₃.pde d' = if d' = d then 0 else m.pde d') ∧
      SamePages (fun d' _ => d' ≠ d) m m₃ := by
  have haddr : pageOf (m.load (4 * d)) = m.entryAddr d 0 := by
    rw [load_word, pageOf_eq, entryAddr, pde, Nat.mul_zero, Nat.add_zero]
  obtain ⟨m₁, hok, hinv, hpde, hpte, hsame⟩ := h.freeEntries (k := 0) hd hp (Nat.zero_add _)
  have ht : m₁.Table d (frameOf (m₁.pde d)) := ⟨by rwa [hpde d hd.2], rfl⟩
  -- the page table has been cleared
  have hempty : ∀ n f', n < 1024 → ¬m₁.Maps d n f' := by
    intro n f' hn hm
    have hzero := hm.2.1
    rw [hpte n hn, if_pos (Nat.zero_le n)] at hzero
    exact not_present_zero hzero
  refine ⟨m₁, m₁.decr (frameOf (m₁.pde d)), _, haddr ▸ hok, ?_, rfl, ?_, fun d' hd' => ?_, ?_⟩
  · rw [load_word, pageOf_eq]
    exact hinv.freePage_table hd ht
  · rw [store_word]
    exact hinv.dropTable hd ht hempty
  · rw [store_word]
    refine (Function.update_apply _ _ _ _).trans ?_
    split_ifs
    · rfl
    · exact hpde d' hd'
  · rw [store_word]
    exact hsame.trans ((hinv.samePages_setPde hd hempty (fun hp => absurd hp not_present_zero)
      (fun hp => absurd hp not_present_zero) _).mono fun _ _ _ => trivial)

/-- The outer loop of `free_page_tables` over the user directory entries from `d`
    up to `d + size`. -/
theorem Inv.freeDirs {size : Nat} (h : Inv lo hi ext m) (hd : 16 ≤ d) (hd' : d + size ≤ 1024) :
    ∃ m', freeDirs size (4 * d) m = .ok m' ∧ Inv lo hi ext m' ∧
      (∀ d' < 1024, Present (m'.pde d') ↔ Present (m.pde d') ∧ ¬(d ≤ d' ∧ d' < d + size)) ∧
      SamePages (fun d' _ => ¬(d ≤ d' ∧ d' < d + size)) m m' := by
  induction size generalizing d m with
  | zero =>
    exact ⟨m, rfl, h, fun d' _ => ⟨fun hp => ⟨hp, by omega⟩, And.left⟩, SamePages.refl _ _⟩
  | succ size ih =>
    have hnext : 4 * d + 4 = 4 * (d + 1) := by omega
    have hload : Present (m.load (4 * d)) ↔ Present (m.pde d) := by rw [load_word, pde]
    rw [Mm.freeDirs, hnext]
    by_cases hp : Present (m.pde d)
    · obtain ⟨m₁, m₂, m₃, hok₁, hok₂, hstore, hinv, hpde, hsame⟩ := h.freeDir ⟨hd, by omega⟩ hp
      obtain ⟨m', hok, hinv', hpde', hsame'⟩ := ih hinv (d := d + 1) (by omega) (by omega)
      refine ⟨m', ?_, hinv', fun d' hlt => ?_, ?_⟩
      · rw [if_pos (hload.2 hp), hok₁]
        change (m₁.freePage (pageOf (m₁.load (4 * d))) >>= fun m =>
          Mm.freeDirs size (4 * (d + 1)) (m.store (4 * d) 0)) = _
        rw [hok₂]
        change Mm.freeDirs size (4 * (d + 1)) (m₂.store (4 * d) 0) = _
        rw [hstore, hok]
      · rw [hpde' d' hlt, hpde d' hlt]
        split_ifs with heq
        · exact iff_of_false (fun hc => not_present_zero hc.1) fun hc => hc.2 (by omega)
        · exact and_congr_right fun _ => not_congr (by omega)
      · exact (hsame.mono fun d' _ hne heq => hne (by omega)).trans
          (hsame'.mono fun d' _ hne heq => hne (by omega))
    · obtain ⟨m', hok, hinv', hpde', hsame'⟩ := ih h (d := d + 1) (by omega) (by omega)
      refine ⟨m', ?_, hinv', fun d' hlt => ?_, hsame'.mono fun d' _ hne heq => hne (by omega)⟩
      · rw [if_neg (mt hload.1 hp), hok]
      · rw [hpde' d' hlt]
        refine and_congr_right fun hp' => not_congr ?_
        have hne : d' ≠ d := fun heq => hp (heq ▸ hp')
        omega

/-- `free_page_tables` on the region of slot `i` never frees a free page, and
    leaves the pages of the other slots as they are. -/
theorem Inv.freePageTables {i size : Nat} (h : Inv lo hi ext m) (h1 : 1 ≤ i) (h64 : i < 64)
    (hsize : size ≤ 0x4000000) :
    ∃ m', m.freePageTables (i * 0x4000000) size = .ok m' ∧ Inv lo hi ext m' ∧
      (∀ d < 1024, Present (m'.pde d) ↔
        Present (m.pde d) ∧ ¬(16 * i ≤ d ∧ d < 16 * i + (size + 0x3fffff) / 2 ^ 22)) ∧
      SamePages (fun d _ => ¬(16 * i ≤ d ∧ d < 16 * i + (size + 0x3fffff) / 2 ^ 22)) m m' := by
  have hdir : i * 0x4000000 / 2 ^ 22 % 1024 = 16 * i := by omega
  rw [Mm.freePageTables, if_neg (by rw [and_alignment_eq]; omega), if_neg (by omega),
    dirCount_eq hsize, dirEntry_eq, hdir]
  exact h.freeDirs (d := 16 * i) (by omega) (by omega)

end NeuOs.Mm
