import NeuOs.Kernel.Exhaust

/-!
# Forks that fail (`kernel/fork.c`)

A fork that fails for lack of memory has to take back the page tables that it has
copied so far (`NoTrace`). It does so, unless the process is the task 0 and at least
three frames were free (`failedFork_iff`): then a second page table of the kernel has
been copied, whose pages lie above the memory that `mem_init` was given, and
`copy_page_tables` counts those pages, while `free_page` leaves them alone.
-/

namespace NeuOs

/-- The memory, the directory and the tasks are as they were before a fork of the
    process in the slot `i`, and so are the page tables, but for the write flags of pages
    of the process. -/
structure NoTrace (i : Slot) (k k' : Kernel) : Prop where
  task : k'.task = k.task
  memMap : ∀ x < pagingPages, k'.mm.memMap x = k.mm.memMap x
  pde : ∀ d < 1024, k'.mm.pde d = k.mm.pde d
  pte : ∀ d < 1024, ∀ n < 1024, Present (k.mm.pde d) → k'.mm.pte d n = k.mm.pte d n ∨
    d / 16 = i.1 ∧ Present (k.mm.pte d n) ∧ k'.mm.pte d n = readOnly (k.mm.pte d n)

/-- The task with its segments up to the limit. -/
def Task.withLimit (t : Task) (limit : Nat) : Task :=
  { t with code := { t.code with limit := limit }, data := { t.data with limit := limit } }

variable {lo hi : Nat} {ext : Nat → Nat} {m m' : Mm} {i nr : Slot} {k k' k₁ : Kernel} {t : Task}

theorem NoTrace.refl (i : Slot) (k : Kernel) : NoTrace i k k :=
  ⟨rfl, fun _ _ => rfl, fun _ _ => rfl, fun _ _ _ _ _ => .inl rfl⟩

/-! ## What is taken back -/

namespace Mm

/-- The same directory, with entries that map the same frames: the counters of the
    managed frames are the same. -/
theorem Inv.memMap_eq (h : Inv lo hi ext m) (h' : Inv lo hi ext m')
    (hdir : ∀ d, UserDir d → m'.pde d = m.pde d)
    (hpte : ∀ d n, UserPage d n → Present (m.pde d) →
      m'.pte d n = m.pte d n ∨ m'.pte d n = readOnly (m.pte d n)) {f : Nat} (hf : Managed lo hi f) :
    m'.memMap (f - 256) = m.memMap (f - 256) := by
  have hpages : m'.pteRefs f = m.pteRefs f := pteRefs_congr fun d n hu => by
    rw [Maps, Maps, hdir d hu.1]
    refine and_congr_right fun hp => ?_
    rcases hpte d n hu hp with heq | heq
    · rw [heq]
    · rw [heq, present_readOnly, frameOf_readOnly]
  have htables : m'.pdeRefs f = m.pdeRefs f := pdeRefs_congr fun d hd => by
    rw [Table, Table, hdir d hd]
  refine BitVec.eq_of_toNat_eq ?_
  rw [h'.exact f hf, h.exact f hf, hpages, htables]

end Mm

namespace Kernel

/-- A failed fork leaves no trace, if the new page tables are those of the slot `nr`,
    and they are gone. -/
theorem noTrace_of_spares {size : Nat} (h : k.Inv lo hi) (h' : k'.mm.Inv lo hi k.taskRefs)
    (hclean : k.mm.Clean lo hi) (hsize : size ≤ 16) (htask : k'.task = k.task)
    (hspares : Mm.Spares lo hi (Mm.DirRange (16 * nr) size) (Mm.DirRange (16 * i) size) k.mm k'.mm)
    (habs : 0 < size → ¬Present (k.mm.pde (16 * nr))) (hnr : nr ≠ 0) {m₁ : Mm}
    (htidy : Mm.Tidy lo hi (Mm.DirRange (16 * nr) size) k.mm m₁)
    (hback : ∀ d, Mm.DirRange (16 * nr) size d →
      k'.mm.pde d = if Present (m₁.pde d) then 0 else m₁.pde d) : NoTrace i k k' := by
  have hnr1 : 1 ≤ nr.1 := Slot.pos hnr
  -- The slot has no page table before.
  have hzero : ∀ d, Mm.DirRange (16 * nr) size d → k.mm.pde d = 0 := fun d hd => by
    obtain ⟨h₁, h₂⟩ := hd
    have hnr2 := nr.2
    refine (hclean.dir d ⟨by omega, by omega⟩).resolve_left fun hp => ?_
    obtain ⟨hmod, hp⟩ := hp
    have heq : d = 16 * nr := by omega
    exact habs (by omega) (heq ▸ hp)
  have hdir : ∀ d, Mm.UserDir d → k'.mm.pde d = k.mm.pde d := fun d hd => by
    by_cases hN : Mm.DirRange (16 * nr) size d
    · rw [hback d hN, hzero d hN]
      rcases htidy.dir d hd with heq | ⟨-, hp | heq⟩
      · rw [heq, hzero d hN]
        exact ite_self _
      · exact if_pos hp
      · rw [heq]
        exact ite_self _
    · exact hspares.pde hd hN
  have hpte : ∀ d n, Mm.UserPage d n → Present (k.mm.pde d) → k'.mm.pte d n = k.mm.pte d n ∨
      d / 16 = i.1 ∧ Present (k.mm.pte d n) ∧ k'.mm.pte d n = readOnly (k.mm.pte d n) := by
    intro d n hu hp
    have hN : ¬Mm.DirRange (16 * nr) size d := fun hN =>
      not_present_zero (by rwa [hzero d hN] at hp)
    refine (hspares.pte d n hu hN hp).imp_right fun hro => ⟨?_, hro.2⟩
    obtain ⟨h₁, h₂⟩ := hro.1
    omega
  refine ⟨htask, fun x hx => ?_, fun d hd => ?_, fun d hd n hn hp => ?_⟩
  · have hpages : pagingPages = 3840 := rfl
    have hx' : x = x + 256 - 256 := by omega
    rw [hx']
    by_cases hman : Mm.Managed lo hi (x + 256)
    · exact h.mm.memMap_eq h' hdir (fun d n hu hp => (hpte d n hu hp).imp_right fun hro => hro.2.2)
        hman
    · exact hspares.reserved _ (by omega) hman
  · by_cases h16 : d < 16
    · by_cases h4 : d < 4
      · rw [h'.kernel.dir d h4, h.mm.kernel.dir d h4]
      · rw [h'.kernel.absent d (by omega) h16, h.mm.kernel.absent d (by omega) h16]
    · exact hdir d ⟨by omega, hd⟩
  · by_cases h4 : d < 4
    · refine .inl ?_
      have hword := h.mm.kernel.entry (1024 * d + n) (by omega)
      have hword' := h'.kernel.entry (1024 * d + n) (by omega)
      rw [Mm.pte, Mm.pte, h'.kernel.dir d h4, h.mm.kernel.dir d h4, frameOf_entryOf (by omega),
        show 1024 * (d + 1) + n = 1024 + (1024 * d + n) by omega, hword, hword']
    · have h16 : ¬d < 16 := fun h16 =>
        not_present_zero (by rwa [h.mm.kernel.absent d (by omega) h16] at hp)
      exact hpte d n ⟨⟨by omega, hd⟩, hn⟩ hp

/-- A failed fork of a process but the task 0, or with at most two free frames. -/
theorem Inv.noTrace {current : Task} {r : Regs} {pid : Word} (h : k.Inv lo hi)
    (hclean : k.mm.Clean lo hi) (hnr : nr ≠ 0) (hnone : k.task nr = none) (hne : i ≠ nr)
    (hbase : current.data.base = slotBase i) (hlim : current.data.limit ≤ 0x4000000)
    (hkernel : i ≠ 0 ∨ k.mm.freeFrames ≤ 2) (hpid : pid ≠ k.lastPid)
    (hok : k.copyProcess current nr r = .ok (pid, k')) : NoTrace i k k' := by
  obtain ⟨hspares, hfail⟩ := h.spares_copyProcess hnr hnone hne hbase hlim
    (hkernel.imp_right .inr) hok
  obtain ⟨htask, hinv, rfl | ⟨habs, m₁, htidy, hback⟩⟩ := hfail hpid
  · exact .refl _ _
  · exact noTrace_of_spares h hinv hclean (by omega) htask hspares habs hnr htidy hback

end Kernel

/-! ## What stays -/

namespace Mm

/-- One round of the inner loop on the word `s` of a table of the kernel, which maps
    the frame `g`. -/
theorem copyEntry_kernel {s t g : Nat} (hsrc : m.phys s = entryOf (4096 * g)) (hge : 256 ≤ g)
    (hlt : g < 4096) (hst : s < t) :
    (m.copyEntry (4 * s) (4 * t)).memMap =
        Function.update m.memMap (g - 256) (m.memMap (g - 256) + 1) ∧
      (m.copyEntry (4 * s) (4 * t)).highMemory = m.highMemory ∧
      (m.copyEntry (4 * s) (4 * t)).phys t = readOnly (entryOf (4096 * g)) ∧
      ∀ w, w ≠ s → w ≠ t → (m.copyEntry (4 * s) (4 * t)).phys w = m.phys w := by
  have hp : Present (m.phys s) := hsrc ▸ present_entryOf _
  have hframe : frameOf (m.phys s) = g := by rw [hsrc, frameOf_entryOf (by omega)]
  have hgt : (readOnly (m.phys s)).toNat > lowMem :=
    (lowMem_lt_iff (present_readOnly.2 hp)).2 (by rwa [frameOf_readOnly, hframe])
  have heq : m.copyEntry (4 * s) (4 * t) =
      ((m.store (4 * t) (readOnly (m.phys s))).store (4 * s) (readOnly (m.phys s))).setCount
        (g - 256) (m.memMap (g - 256) + 1) := by
    rw [Mm.copyEntry, load_word, if_pos hp]
    dsimp only
    rw [if_pos hgt, mapNr_toNat, frameOf_readOnly, hframe, memMap_store, memMap_store]
  rw [heq, ← hsrc]
  refine ⟨rfl, rfl, ?_, fun w hs ht => ?_⟩
  · rw [phys_setCount, phys_store, phys_store, if_neg (by omega), if_pos (by omega)]
  · rw [phys_setCount, phys_store, phys_store, if_neg (by omega), if_neg (by omega)]

/-- The inner loop on a table of the kernel counts the frames that it maps. -/
theorem copyEntries_kernel {s t g k : Nat} (nr : Nat) (hge : 256 ≤ g) (hlt : g + (k + nr) ≤ 4096)
    (hdisj : s + (k + nr) ≤ t)
    (hsrc : ∀ n, k ≤ n → n < k + nr → m.phys (s + n) = entryOf (4096 * (g + n))) :
    (∀ x, (Mm.copyEntries nr (4 * (s + k)) (4 * (t + k)) m).memMap x =
        if g + k ≤ x + 256 ∧ x + 256 < g + (k + nr) then m.memMap x + 1 else m.memMap x) ∧
      (Mm.copyEntries nr (4 * (s + k)) (4 * (t + k)) m).highMemory = m.highMemory ∧
      (∀ n, k ≤ n → n < k + nr → (Mm.copyEntries nr (4 * (s + k)) (4 * (t + k)) m).phys (t + n) =
        readOnly (entryOf (4096 * (g + n)))) ∧
      ∀ w, ¬(s + k ≤ w ∧ w < s + (k + nr)) → ¬(t + k ≤ w ∧ w < t + (k + nr)) →
        (Mm.copyEntries nr (4 * (s + k)) (4 * (t + k)) m).phys w = m.phys w := by
  induction nr generalizing k m with
  | zero =>
    exact ⟨fun x => (if_neg (by omega)).symm, rfl, fun _ _ _ => absurd ‹_› (by omega),
      fun _ _ _ => rfl⟩
  | succ nr ih =>
    obtain ⟨hmap, hhigh, hdst, hphys⟩ := copyEntry_kernel (t := t + k) (hsrc k le_rfl (by omega))
      (by omega) (by omega) (by omega)
    -- the entries still to come are not changed by this round
    obtain ⟨hmap', hhigh', hdst', hphys'⟩ :=
      ih (m := m.copyEntry (4 * (s + k)) (4 * (t + k))) (k := k + 1)
      (by omega) (by omega) fun n h₁ h₂ => by
        rw [hphys _ (by omega) (by omega), hsrc n (by omega) (by omega)]
    have hs : 4 * (s + k) + 4 = 4 * (s + (k + 1)) := by omega
    have ht : 4 * (t + k) + 4 = 4 * (t + (k + 1)) := by omega
    rw [Mm.copyEntries, hs, ht]
    refine ⟨fun x => ?_, hhigh'.trans hhigh, fun n h₁ h₂ => ?_, fun w h₁ h₂ => ?_⟩
    · rw [hmap' x, hmap, Function.update_apply]
      by_cases hx : x = g + k - 256
      · rw [if_neg (by omega), if_pos hx, if_pos (by omega), hx]
      · rw [if_neg hx]
        exact if_congr (by omega) rfl rfl
    · by_cases hn : n = k
      · rw [hn, hphys' _ (by omega) (by omega), hdst]
      · exact hdst' n (by omega) (by omega)
    · rw [hphys' w (by omega) (by omega), hphys w (by omega) (by omega)]

/-- The kernel's tables from the directory entry `d₀` on are as they were set up. -/
structure KernelFrom (d₀ : Nat) (m : Mm) : Prop where
  dir : ∀ d < 4, m.pde d = entryOf (4096 * (d + 1))
  absent : ∀ d, 4 ≤ d → d < 16 → m.pde d = 0
  entry : ∀ n, 1024 * d₀ ≤ n → n < 4096 → m.phys (1024 + n) = entryOf (4096 * n)

/-- One round of the outer loop on a table of the kernel above 4 MB. -/
theorem KernelFrom.copyDir {d₀ d f : Nat} (h : KernelFrom d₀ m) (h1 : 1 ≤ d₀) (h4 : d₀ < 4)
    (hd : UserDir d) (hge : 256 ≤ f) :
    KernelFrom (d₀ + 1)
        (Mm.copyEntries 0xA0 (pageOf (m.load (4 * d₀))) (4096 * f) (m.newTable d f)) ∧
      (Mm.copyEntries 0xA0 (pageOf (m.load (4 * d₀))) (4096 * f) (m.newTable d f)).highMemory =
        m.highMemory ∧
      (∀ x, (Mm.copyEntries 0xA0 (pageOf (m.load (4 * d₀))) (4096 * f) (m.newTable d f)).memMap x =
        if 1024 * d₀ ≤ x + 256 ∧ x + 256 < 1024 * d₀ + 0xA0 then (m.alloc f).memMap x + 1
        else (m.alloc f).memMap x) ∧
      (∀ n < 0xA0, (Mm.copyEntries 0xA0 (pageOf (m.load (4 * d₀))) (4096 * f)
        (m.newTable d f)).phys (1024 * f + n) = readOnly (entryOf (4096 * (1024 * d₀ + n)))) ∧
      ∀ w, w < 1024 * (d₀ + 1) ∨ 1024 * (d₀ + 2) ≤ w → ¬(1024 * f ≤ w ∧ w < 1024 * f + 0xA0) →
        (Mm.copyEntries 0xA0 (pageOf (m.load (4 * d₀))) (4096 * f) (m.newTable d f)).phys w =
          (m.newTable d f).phys w := by
  obtain ⟨hd1, hd2⟩ := hd
  have hold : ∀ w, w < 1024 * 256 → w ≠ d → (m.newTable d f).phys w = m.phys w := fun w hw hwd => by
    rw [Mm.newTable, phys_setPde_ne _ hwd, phys_alloc, if_neg (by omega)]
  -- the source table is the one of the kernel, right after its directory
  have hfrom : pageOf (m.load (4 * d₀)) = 4 * (1024 * (d₀ + 1) + 0) := by
    rw [pageOf_eq, load_word, ← Mm.pde, h.dir d₀ h4, frameOf_entryOf (by omega)]
    omega
  have hto : 4096 * f = 4 * (1024 * f + 0) := by omega
  obtain ⟨hmap, hhigh, hdst, hphys⟩ :=
    copyEntries_kernel (m := m.newTable d f) (s := 1024 * (d₀ + 1))
    (t := 1024 * f) (g := 1024 * d₀) (k := 0) 0xA0 (by omega) (by omega) (by omega)
    fun n h₁ h₂ => by
      rw [hold _ (by omega) (by omega), show 1024 * (d₀ + 1) + n = 1024 + (1024 * d₀ + n) by omega,
        h.entry _ (by omega) (by omega)]
  rw [← hfrom, ← hto] at hmap hhigh hdst hphys
  -- the entries of the other tables of the kernel stay
  have hword : ∀ w, w ≠ d → w < 1024 * (d₀ + 1) ∨ (1024 * (d₀ + 2) ≤ w ∧ w < 1024 * 256) →
      (Mm.copyEntries 0xA0 (pageOf (m.load (4 * d₀))) (4096 * f) (m.newTable d f)).phys w =
        m.phys w := fun w hwd hw => by
    rw [hphys w (by omega) (by omega), hold w (by omega) hwd]
  refine ⟨⟨fun d' hd' => ?_, fun d' h₁ h₂ => ?_, fun n h₁ h₂ => ?_⟩, hhigh, fun x => ?_,
    fun n hn => hdst n (Nat.zero_le n) (by omega), fun w h₁ h₂ => hphys w (by omega) (by omega)⟩
  · exact (hword d' (by omega) (by omega)).trans (h.dir d' hd')
  · exact (hword d' (by omega) (by omega)).trans (h.absent d' h₁ h₂)
  · exact (hword _ (by omega) (by omega)).trans (h.entry n (by omega) h₂)
  · rw [hmap x, Mm.newTable, memMap_setPde]
    exact if_congr (by omega) rfl rfl

/-- The outer loop on the tables of the kernel above 8 MB does not count the frame at
    4 MB. -/
theorem KernelFrom.copyDirs {d₀ d size : Nat} {r : Int} (h : KernelFrom d₀ m) (h2 : 2 ≤ d₀)
    (h16 : d₀ + size ≤ 16) (hd : 16 ≤ d) (hd' : d + size ≤ 1024) (hused : m.memMap 768 ≠ 0)
    (hok : Mm.copyDirs 0 size (4 * d₀) (4 * d) m = .ok (r, m')) :
    m'.highMemory = m.highMemory ∧ m'.memMap 768 = m.memMap 768 := by
  induction size generalizing d₀ d m with
  | zero =>
    obtain ⟨-, rfl⟩ := Prod.mk.inj (Except.ok.inj hok)
    exact ⟨rfl, rfl⟩
  | succ size ih =>
    -- a target entry that exists is a panic, so the loop has not returned
    by_cases hp : Present (m.pde d)
    · cases (copyDirs_exists hp).symm.trans hok
    · by_cases h4 : d₀ < 4
      · have hp₀ : Present (m.pde d₀) := h.dir d₀ h4 ▸ present_entryOf _
        rcases copyDirs_step 0 size hp hp₀ with ⟨hfail, -⟩ | ⟨f, hge, hlt, h0, hstep⟩
        · obtain ⟨-, rfl⟩ := Prod.mk.inj (Except.ok.inj (hfail.symm.trans hok))
          exact ⟨rfl, rfl⟩
        · obtain ⟨hnext, hhigh, hmap, -⟩ := h.copyDir (d := d) (by omega) h4 ⟨hd, by omega⟩ hge
          rw [hstep, if_pos rfl] at hok
          -- the frame at 4 MB is in use, so it is not the one allocated
          have hne : 768 ≠ f - 256 := fun heq => hused (heq ▸ h0)
          have hkeep := hmap 768
          rw [if_neg (by omega), memMap_alloc, if_neg hne] at hkeep
          obtain ⟨hhigh', hmap'⟩ := ih hnext (by omega) (by omega) (by omega) (by omega)
            (hkeep ▸ hused) hok
          exact ⟨hhigh'.trans hhigh, hmap'.trans hkeep⟩
      · have habs : ¬Present (m.pde d₀) := by
          rw [h.absent d₀ (by omega) (by omega)]
          exact not_present_zero
        rw [copyDirs_skip hp habs] at hok
        exact ih ⟨h.dir, h.absent, fun n h₁ h₂ => h.entry n (by omega) h₂⟩ (by omega) (by omega)
          (by omega) (by omega) hused hok

/-- The outer loop on the tables of the kernel counts the frame at 4 MB, if there is
    memory for two page tables. -/
theorem Inv.copyDirs_counts {d size : Nat} {r : Int} (h : Inv lo hi ext m) (hhi : hi ≤ 1024)
    (hused : m.memMap 768 = used) (h2 : 2 ≤ size) (h16 : size ≤ 16) (hd : 16 ≤ d)
    (hd' : d + size ≤ 1024) (hfree : 2 ≤ m.freeFrames)
    (hok : Mm.copyDirs 0 size (4 * 0) (4 * d) m = .ok (r, m')) :
    m'.highMemory = m.highMemory ∧ m'.memMap 768 = used + 1 := by
  obtain ⟨size, rfl⟩ : ∃ s, size = s + 2 := ⟨size - 2, by omega⟩
  have hp₀ : ∀ {m : Mm}, Inv lo hi ext m → ∀ d < 4, Present (m.pde d) := fun h d hd =>
    h.kernel.dir d hd ▸ present_entryOf _
  have hunman : ¬Managed lo hi 1024 := fun hc => by
    have := hc.2
    omega
  by_cases hp : Present (m.pde d)
  · cases (copyDirs_exists hp).symm.trans hok
  · rcases copyDirs_step 0 (size + 1) hp (hp₀ h 0 (by omega)) with
      ⟨-, hzero⟩ | ⟨f, hge, hlt, h0, hstep⟩
    · omega
    · -- round 0 copies the frames below 1 MB, which are not counted
      obtain ⟨hspares, hmap₁⟩ := h.spares_copyKernelDir (N := fun _ => True) (P := fun _ => True)
        hge hlt h0 ⟨hd, by omega⟩ hp trivial
      have hframes :=
        (congrArg (· + 1) (freeFrames_congr hmap₁)).trans (freeFrames_alloc hge hlt h0)
      obtain ⟨m₁, hcopy, hinv, -⟩ := h.copyKernelDir hge hlt h0 ⟨hd, by omega⟩ hp
      rw [hstep, if_pos rfl, hcopy] at hok
      rw [hcopy] at hspares hframes
      have hused₁ : m₁.memMap 768 = used := (hspares.reserved 1024 (by omega) hunman).trans hused
      by_cases hp₁ : Present (m₁.pde (d + 1))
      · cases (copyDirs_exists hp₁).symm.trans hok
      · rcases copyDirs_step 0 size hp₁ (hp₀ hinv 1 (by omega)) with
          ⟨-, hzero⟩ | ⟨g, hge', hlt', h0', hstep'⟩
        · omega
        · -- round 1 counts the frames from 4 MB on
          have hkernel : KernelFrom 1 m₁ :=
            ⟨hinv.kernel.dir, hinv.kernel.absent, fun n _ hn => hinv.kernel.entry n hn⟩
          obtain ⟨hnext, hhigh, hmap, -⟩ := hkernel.copyDir (d := d + 1) le_rfl (by omega)
            ⟨by omega, by omega⟩ hge'
          have hne : 768 ≠ g - 256 := fun heq => by
            rw [← heq, hused₁] at h0'
            exact absurd h0' (by decide)
          have hcount := hmap 768
          rw [if_pos (by omega), memMap_alloc, if_neg hne, hused₁] at hcount
          rw [hstep', if_pos rfl] at hok
          obtain ⟨hhigh', hmap'⟩ := hnext.copyDirs (by omega) (by omega) (by omega) (by omega)
            (by rw [hcount]; decide) hok
          exact ⟨hhigh'.trans (hhigh.trans (hinv.highMemory.trans h.highMemory.symm)),
            hmap'.trans hcount⟩

/-- The counters of the frames at and above the end of memory stay. -/
structure SameAbove (m m' : Mm) : Prop where
  highMemory : m'.highMemory = m.highMemory
  memMap : ∀ x, m.highMemory ≤ 4096 * (x + 256) → m'.memMap x = m.memMap x

theorem SameAbove.trans {m'' : Mm} (h : SameAbove m m') (h' : SameAbove m' m'') : SameAbove m m'' :=
  ⟨h'.highMemory.trans h.highMemory, fun x hx =>
    (h'.memMap x (by rwa [h.highMemory])).trans (h.memMap x hx)⟩

/-- `free_page` leaves them alone. -/
theorem freePage_above {a : Nat} (hok : m.freePage a = .ok m') : SameAbove m m' := by
  rw [freePage] at hok
  split_ifs at hok with hlow hhigh hne
  · exact Except.ok.inj hok ▸ ⟨rfl, fun _ _ => rfl⟩
  · exact Except.ok.inj hok ▸ ⟨rfl, fun _ _ => rfl⟩
  · obtain rfl := Except.ok.inj hok
    refine ⟨rfl, fun x hx => ?_⟩
    have hidx : x ≠ mapNr a := by
      rw [mapNr, lowMem, Nat.shiftRight_eq_div_pow]
      rw [lowMem] at hlow
      omega
    rw [memMap_setCount, if_neg hidx]

theorem freeEntries_above {nr a : Nat} (hok : Mm.freeEntries nr a m = .ok m') : SameAbove m m' := by
  induction nr generalizing a m with
  | zero => exact Except.ok.inj hok ▸ ⟨rfl, fun _ _ => rfl⟩
  | succ nr ih =>
    rw [freeEntries_succ] at hok
    obtain ⟨m₁, hfree, hok⟩ := Except.bind_eq_ok.1 hok
    have hrest := ih hok
    have hstore : SameAbove m₁ (m₁.store a 0) := ⟨rfl, fun _ _ => rfl⟩
    refine SameAbove.trans ?_ (hstore.trans hrest)
    split_ifs at hfree
    · exact freePage_above hfree
    · exact Except.ok.inj hfree ▸ ⟨rfl, fun _ _ => rfl⟩

theorem freeDirs_above {size a : Nat} (hok : Mm.freeDirs size a m = .ok m') : SameAbove m m' := by
  induction size generalizing a m with
  | zero => exact Except.ok.inj hok ▸ ⟨rfl, fun _ _ => rfl⟩
  | succ size ih =>
    rw [Mm.freeDirs] at hok
    split_ifs at hok
    · obtain ⟨m₁, hentries, hok⟩ := Except.bind_eq_ok.1 hok
      obtain ⟨m₂, hpage, hok⟩ := Except.bind_eq_ok.1 hok
      have hstore : SameAbove m₂ (m₂.store a 0) := ⟨rfl, fun _ _ => rfl⟩
      exact ((freeEntries_above hentries).trans (freePage_above hpage)).trans
        (hstore.trans (ih hok))
    · exact ih hok

end Mm

namespace Kernel

/-- A failed fork of the task 0, with memory for its page and two page tables, leaves
    the frame at 4 MB counted. -/
theorem Inv.memMap_failed {current : Task} {r : Regs} {pid : Word} (h : k.Inv lo hi)
    (hhi : hi ≤ 1024) (hclean : k.mm.Clean lo hi) (hnr : nr ≠ 0)
    (hbase : current.data.base = slotBase 0) (hlim : current.data.limit ≤ 0x4000000)
    (hfree : 3 ≤ k.mm.freeFrames) (hpid : pid ≠ k.lastPid)
    (hok : k.copyProcess current nr r = .ok (pid, k')) :
    k.mm.memMap 768 = used ∧ k'.mm.memMap 768 = used + 1 := by
  have hnr1 : 1 ≤ nr.1 := Slot.pos hnr
  have hnr2 := nr.2
  have hunman : ¬Mm.Managed lo hi 1024 := fun hc => by
    have := hc.2
    omega
  have hused : k.mm.memMap 768 = used := hclean.reserved 1024 (by omega) (by omega) hunman
  refine ⟨hused, ?_⟩
  rcases copyProcess_ok hok with ⟨hzero, -⟩ | ⟨f, hge, hlt, h0, err, child, m, hmem, hrest⟩
  · omega
  · rcases hrest with ⟨herr, m', hfreed, rfl⟩ | ⟨-, heq, -⟩
    · have halloc := h.mm.alloc hge hlt h0
      have hframes := Mm.freeFrames_alloc hge hlt h0
      have hused' : (k.mm.alloc f).memMap 768 = used :=
        ((h.mm.tidy_alloc (N := fun _ => True) hge hlt h0).reserved 1024 (by omega) hunman).trans
        hused
      obtain ⟨r₁, m₁, hcopy, ⟨hz, -⟩ | ⟨-, hr, hback⟩⟩ := copyMem_ok hmem
      · exact absurd hz herr
      · rw [hbase, slotBase, slotBase] at hcopy
        rw [slotBase] at hback
        -- the copy fails only if there are two tables or more to copy
        have hsize := halloc.two_tables hnr hlim (by omega) hr hcopy
        obtain ⟨hhigh, hcount⟩ : m₁.highMemory = (k.mm.alloc f).highMemory ∧
            m₁.memMap 768 = used + 1 := by
          rw [Mm.copyPageTables_eq (Fin.is_lt 0) hnr2 hlim, Fin.val_zero, Nat.zero_mul] at hcopy
          exact halloc.copyDirs_counts hhi hused' hsize (by omega) (by omega) (by omega) (by omega)
            hcopy
        have habove : m₁.highMemory ≤ 4096 * (768 + 256) := by
          rw [hhigh, halloc.highMemory]
          omega
        -- `free_page_tables` and `free_page` do not count it down again
        have htables : Mm.SameAbove m₁ m := by
          rw [Mm.freePageTables] at hback
          split_ifs at hback
          exact Mm.freeDirs_above hback
        have hsame := htables.trans (Mm.freePage_above hfreed)
        exact (hsame.memMap 768 habove).trans hcount
    · exact absurd heq hpid

end Kernel

/-! ## A copy of the kernel's pages that fails -/

namespace Mm

/-- Clearing a page table whose pages `free_page` leaves alone. -/
theorem freeEntries_outside {s nr : Nat} (hout : ∀ n < nr, Present (m.phys (s + n)) →
      frameOf (m.phys (s + n)) < 256 ∨ m.highMemory ≤ 4096 * frameOf (m.phys (s + n))) :
    ∃ m', Mm.freeEntries nr (4 * s) m = .ok m' ∧ m'.memMap = m.memMap ∧
      m'.highMemory = m.highMemory ∧ ∀ w, ¬(s ≤ w ∧ w < s + nr) → m'.phys w = m.phys w := by
  induction nr generalizing s m with
  | zero => exact ⟨m, rfl, rfl, rfl, fun _ _ => rfl⟩
  | succ nr ih =>
    -- `free_page` returns at once for a frame outside the main memory
    have hfirst :
        (if Present (m.load (4 * s)) then m.freePage (pageOf (m.load (4 * s))) else .ok m) =
        .ok m := by
      rw [load_word]
      split_ifs with hp
      · rw [pageOf_eq]
        rcases hout 0 (by omega) hp with hlow | hhigh
        · exact freePage_low hlow
        · rw [Nat.add_zero] at hhigh
          rw [freePage, if_pos (show 4096 * frameOf (m.phys s) ≥ m.highMemory from hhigh), ite_self]
      · rfl
    have hstore : ∀ n, (m.store (4 * s) 0).phys (s + 1 + n) = m.phys (s + (n + 1)) := fun n => by
      rw [phys_store, if_neg (by omega)]
      congr 1
      omega
    obtain ⟨m', hok, hmap, hhigh, hphys⟩ := ih (s := s + 1) (m := m.store (4 * s) 0)
      fun n hn hp => by
        rw [hstore] at hp ⊢
        exact hout (n + 1) (by omega) hp
    refine ⟨m', ?_, hmap, hhigh, fun w hw => ?_⟩
    · rw [freeEntries_succ, hfirst, Except.ok_bind, show 4 * s + 4 = 4 * (s + 1) by omega]
      exact hok
    · rw [hphys w (by omega), phys_store, if_neg (by omega)]

/-- Freeing a page table whose pages `free_page` leaves alone. -/
theorem freeDirs_outside {d f : Nat} (size : Nat) (hp : Present (m.pde d))
    (hf : frameOf (m.pde d) = f) (hd : d < 1024) (hge : 256 ≤ f) (hhigh : 4096 * f < m.highMemory)
    (hone : m.memMap (f - 256) = 1)
    (hout : ∀ n < 1024, Present (m.phys (1024 * f + n)) →
      frameOf (m.phys (1024 * f + n)) < 256 ∨
      m.highMemory ≤ 4096 * frameOf (m.phys (1024 * f + n))) :
    ∃ m', Mm.freeDirs (size + 1) (4 * d) m = Mm.freeDirs size (4 * (d + 1)) m' ∧
      (∀ x, x ≠ f - 256 → m'.memMap x = m.memMap x) ∧ m'.highMemory = m.highMemory ∧
      ∀ w, w ≠ d → ¬(1024 * f ≤ w ∧ w < 1024 * f + 1024) → m'.phys w = m.phys w := by
  obtain ⟨m₁, hok, hmap, hhigh₁, hphys⟩ := freeEntries_outside hout
  have htable : pageOf (m.load (4 * d)) = 4096 * f := by
    rw [pageOf_eq, load_word, ← pde, hf]
  have hfree : m₁.freePage (4096 * f) = .ok (m₁.decr f) :=
    freePage_ok hge (by rw [hhigh₁]; exact hhigh) (by rw [hmap, hone]; decide)
  have htable₁ : m₁.load (4 * d) = m.load (4 * d) := by
    rw [load_word, load_word, hphys d (by omega)]
  have hp' : Present (m.load (4 * d)) := by rwa [load_word, ← pde]
  refine ⟨(m₁.decr f).store (4 * d) 0, ?_, fun x hx => ?_, ?_, fun w hw hw' => ?_⟩
  · rw [Mm.freeDirs, if_pos hp', htable, show 4096 * f = 4 * (1024 * f) by omega, hok,
      Except.ok_bind, htable₁, htable, hfree]
    rfl
  · rw [memMap_store, update_decr, Function.update_of_ne hx, hmap]
  · rw [highMemory_store, highMemory_decr, hhigh₁]
  · rw [phys_store, if_neg (by omega), phys_decr, hphys w hw']

theorem freeDirs_absent {d size : Nat} (habs : ¬Present (m.pde d)) :
    Mm.freeDirs (size + 1) (4 * d) m = Mm.freeDirs size (4 * (d + 1)) m := by
  rw [Mm.freeDirs, load_word, if_neg (show ¬Present (m.phys d) from habs)]
  rfl

/-- No frame is left for the next page table of the kernel. -/
theorem KernelFrom.copyDirs_full {d₀ d : Nat} (h : KernelFrom d₀ m) (h4 : d₀ < 4)
    (habs : ¬Present (m.pde d)) (hnone : ∀ f, 256 ≤ f → f < 4096 → m.memMap (f - 256) ≠ 0) :
    Mm.copyDirs 0 1 (4 * d₀) (4 * d) m = .ok (-1, m) := by
  have hp : Present (m.pde d₀) := h.dir d₀ h4 ▸ present_entryOf _
  rcases copyDirs_step 0 0 habs hp with ⟨hfail, -⟩ | ⟨f, hge, hlt, h0, -⟩
  · exact hfail
  · exact absurd h0 (hnone f hge hlt)

/-- The first page table of a copy of the kernel: it maps the first 160 pages, none of
    which is in the main memory, so that clearing it leaves the counters. -/
theorem Inv.freeDirs_kernel {d f : Nat} (size : Nat) (h : Inv lo hi ext m) (hud : UserDir d)
    (hp : Present (m.pde d)) (hf : frameOf (m.pde d) = f)
    (hwalk : ∀ n < 1024, m.walk d n =
      if n < 0xA0 then some (readOnly (entryOf (4096 * n))) else none)
    (hdir : m'.pde d = m.pde d)
    (htable : ∀ n < 1024, m'.phys (1024 * f + n) = m.phys (1024 * f + n))
    (hhigh : m'.highMemory = m.highMemory) (hone : m'.memMap (f - 256) = m.memMap (f - 256)) :
    ∃ m₁, Mm.freeDirs (size + 1) (4 * d) m' = Mm.freeDirs size (4 * (d + 1)) m₁ ∧
      (∀ x, x ≠ f - 256 → m₁.memMap x = m'.memMap x) ∧ m₁.highMemory = m'.highMemory ∧
      ∀ w, w ≠ d → ¬(1024 * f ≤ w ∧ w < 1024 * f + 1024) → m₁.phys w = m'.phys w := by
  obtain ⟨hman, hcount⟩ := h.table d f hud ⟨hp, hf⟩
  have hlt := hman.2
  refine freeDirs_outside size (hdir ▸ hp) (by rw [hdir, hf]) hud.2 (h.managed_ge hman)
    (by rw [hhigh, h.highMemory]; omega) (hone.trans hcount) fun n hn hpn => ?_
  have hpte : m.phys (1024 * f + n) = m.pte d n := by rw [pte, hf]
  rw [htable n hn, hpte] at hpn ⊢
  have hpage := hwalk n hn
  rw [walk_eq_some.2 ⟨hp, hpn, rfl⟩] at hpage
  split_ifs at hpage with hn'
  rw [Option.some.inj hpage, frameOf_readOnly, frameOf_entryOf (by omega)]
  exact .inl (by omega)

/-- After the last free frame, no frame is free when the pages of the kernel from 4 MB on
    are counted: they are above the end of memory. -/
theorem Inv.full_of_counted (h : Inv lo hi ext m) (hhi : hi ≤ 1024)
    (hused : ∀ f, 256 ≤ f → f < 4096 → ¬Managed lo hi f → m.memMap (f - 256) = used) {g : Nat}
    (hge : 256 ≤ g) (hlt : g < 4096) (h0 : m.memMap (g - 256) = 0) (hone : m.freeFrames = 1)
    (hmap : ∀ x, m'.memMap x =
      if 1024 * 1 ≤ x + 256 ∧ x + 256 < 1024 * 1 + 0xA0 then (m.alloc g).memMap x + 1
      else (m.alloc g).memMap x) {f : Nat} (hf : 256 ≤ f) (hf' : f < 4096) :
    m'.memMap (f - 256) ≠ 0 := by
  have hghi := (h.frame_free hge hlt h0).1.2
  have hzero : (m.alloc g).freeFrames = 0 := by
    have := freeFrames_alloc hge hlt h0
    omega
  rw [hmap]
  split_ifs with hrange
  · have hunman : ¬Managed lo hi f := fun hc => by
      have := hc.2
      omega
    rw [memMap_alloc, if_neg (by omega), hused f hf hf' hunman]
    decide
  · exact freeFrames_eq_zero.1 hzero f hf hf'

/-- With memory for two page tables, the copy of the first 12 MB of the kernel fails at
    the third, and is taken back. -/
theorem Inv.exists_failed_copy {d : Nat} (h : Inv lo hi ext m) (hhi : hi ≤ 1024)
    (hclean : m.Clean lo hi) (hd : 16 ≤ d) (hd' : d + 3 ≤ 1024)
    (habs : ∀ e, d ≤ e → e < d + 3 → ¬Present (m.pde e)) (hfree : m.freeFrames = 2) :
    ∃ m₂ m₃, Mm.copyDirs 0 3 (4 * 0) (4 * d) m = .ok (-1, m₂) ∧
      Mm.freeDirs 3 (4 * d) m₂ = .ok m₃ ∧ m₃.highMemory = m.highMemory ∧
      ∀ x < 768, m.memMap x ≠ 0 → m₃.memMap x = m.memMap x := by
  have hp₀ : ∀ {m : Mm}, Inv lo hi ext m → ∀ d < 4, Present (m.pde d) := fun h d hd =>
    h.kernel.dir d hd ▸ present_entryOf _
  -- The first page table.
  obtain ⟨f, hge, hlt, h0, hstep⟩ :=
    (copyDirs_step 0 2 (habs d le_rfl (by omega)) (hp₀ h 0 (by omega))).resolve_left fun hc => by
      have := hc.2
      omega
  have hud : UserDir d := ⟨hd, by omega⟩
  obtain ⟨hspares, hmap₁⟩ := h.spares_copyKernelDir (N := fun _ => True) (P := fun _ => True)
    hge hlt h0 hud (habs d le_rfl (by omega)) trivial
  obtain ⟨m₁, hcopy, hinv, -, hdirs, -, hwalk⟩ := h.copyKernelDir hge hlt h0 hud
    (habs d le_rfl (by omega))
  have hpde₁ := h.pde_copyKernelDir hge hlt h0 hud (habs d le_rfl (by omega))
  rw [if_pos rfl, hcopy] at hstep
  rw [hcopy] at hspares hmap₁ hpde₁
  have hframes := (congrArg (· + 1) (freeFrames_congr hmap₁)).trans (freeFrames_alloc hge hlt h0)
  have hf : frameOf (m₁.pde d) = f := by rw [hpde₁, frameOf_entryOf (by omega)]
  have hp₁ : Present (m₁.pde d) := hpde₁ ▸ present_entryOf _
  -- The second page table, whose pages are counted.
  have habs₁ : ∀ e, d < e → e < d + 3 → ¬Present (m₁.pde e) := fun e h₁ h₂ => by
    rw [hdirs e (by omega) (by omega)]
    exact habs e (by omega) h₂
  obtain ⟨g, hge', hlt', h0', hstep'⟩ :=
    (copyDirs_step 0 1 (habs₁ (d + 1) (by omega) (by omega)) (hp₀ hinv 1 (by omega))).resolve_left
      fun hc => by
        have := hc.2
        omega
  have hghi := (hinv.frame_free hge' hlt' h0').1.2
  have hkernel : KernelFrom 1 m₁ :=
    ⟨hinv.kernel.dir, hinv.kernel.absent, fun n _ hn => hinv.kernel.entry n hn⟩
  obtain ⟨hkernel₂, hhigh₂, hmap₂, hdst, hphys₂⟩ :=
    hkernel.copyDir (d := d + 1) le_rfl (by omega) ⟨by omega, by omega⟩ hge'
  rw [if_pos rfl] at hstep'
  generalize Mm.copyEntries 0xA0 (pageOf (m₁.load (4 * 1))) (4096 * g) (m₁.newTable (d + 1) g) =
    m₂ at *
  have hold : ∀ w, w ≠ d + 1 → w / 1024 ≠ g → w < 2048 ∨ 3072 ≤ w → m₂.phys w = m₁.phys w :=
    fun w h₁ h₂ h₃ => by
      rw [hphys₂ w (by omega) (by omega), Mm.newTable, phys_setPde_ne _ h₁, phys_alloc, if_neg h₂]
  have hcount : ∀ x < 768, m₂.memMap x = (m₁.alloc g).memMap x := fun x hx => by
    rw [hmap₂ x, if_neg (by omega)]
  have hnone : ∀ f', 256 ≤ f' → f' < 4096 → m₂.memMap (f' - 256) ≠ 0 := by
    intro f' h₁ h₂
    refine hinv.full_of_counted hhi (fun x hx hx' hman => ?_) hge' hlt' h0' (by omega) hmap₂ h₁ h₂
    exact (hspares.reserved x hx hman).trans (hclean.reserved x hx hx' hman)
  have habs₂ : ¬Present (m₂.pde (d + 2)) := by
    rw [pde, hold _ (by omega) (by omega) (by omega)]
    exact habs₁ (d + 2) (by omega) (by omega)
  have hfull := hkernel₂.copyDirs_full (by omega) habs₂ hnone
  -- The third finds no frame, and the first page table is freed.
  have hfg : f ≠ g := fun heq => by
    have hone := (hinv.table d f hud ⟨hp₁, hf⟩).2
    rw [heq, h0'] at hone
    exact absurd hone (by decide)
  have hfhi := (hinv.table d f hud ⟨hp₁, hf⟩).1.2
  obtain ⟨m₃, hfree₃, hmap₃, hhigh₃, hphys₃⟩ := hinv.freeDirs_kernel 2 hud hp₁ hf
    (fun n hn => by
      rw [hwalk d n ⟨hud, hn⟩, walk_eq_none.2 fun hc => habs d le_rfl (by omega) hc.1]
      exact if_congr (and_iff_right rfl) rfl rfl)
    (hold d (by omega) (by omega) (by omega))
    (fun n hn => hold _ (by omega) (by omega) (by omega)) hhigh₂
    (by rw [hcount _ (by omega), memMap_alloc, if_neg (by omega)])
  -- The second one as well, but its pages stay counted.
  have hpde₃ : m₃.pde (d + 1) = entryOf (4096 * g) := by
    rw [pde, hphys₃ _ (by omega) (by omega), hphys₂ _ (by omega) (by omega), Mm.newTable, ← pde,
      pde_setPde, if_pos rfl]
  have hframe : frameOf (m₃.pde (d + 1)) = g := by rw [hpde₃, frameOf_entryOf (by omega)]
  have hhigh : m₃.highMemory = 4096 * hi := hhigh₃.trans (hhigh₂.trans hinv.highMemory)
  obtain ⟨m₄, hfree₄, hmap₄, hhigh₄, hphys₄⟩ := freeDirs_outside (m := m₃) (f := g)
    (d := d + 1) 1 (hpde₃ ▸ present_entryOf _) hframe (by omega) hge' (by rw [hhigh]; omega)
    (by rw [hmap₃ _ (by omega), hcount _ (by omega), memMap_alloc, if_pos rfl]) fun n hn hp => by
      rw [hphys₃ _ (by omega) (by omega)] at hp ⊢
      by_cases hn' : n < 0xA0
      · rw [hdst n hn', frameOf_readOnly, frameOf_entryOf (by omega), hhigh]
        exact .inr (by omega)
      · rw [hphys₂ _ (by omega) (by omega), Mm.newTable, phys_setPde_ne _ (by omega), phys_alloc,
          if_pos (by omega)] at hp
        exact absurd hp not_present_zero
  have habs₄ : ¬Present (m₄.pde (d + 2)) := by
    rw [pde, hphys₄ _ (by omega) (by omega), hphys₃ _ (by omega) (by omega)]
    exact habs₂
  refine ⟨m₂, m₄, ?_, ?_, ?_, fun x hx hne => ?_⟩
  · exact hstep.trans (hstep'.trans hfull)
  · rw [hfree₃, hfree₄, freeDirs_absent habs₄]
    rfl
  · rw [hhigh₄, hhigh, h.highMemory]
  · -- the two frames were free, so their counters are not meant
    have hxf : x ≠ f - 256 := fun heq => hne (heq ▸ h0)
    have hxm : m₁.memMap x = m.memMap x := by rw [hmap₁, memMap_alloc, if_neg hxf]
    have hxg : x ≠ g - 256 := fun heq => by
      rw [← heq, hxm] at h0'
      exact hne h0'
    rw [hmap₄ x hxg, hmap₃ x hxf, hcount x hx, memMap_alloc, if_neg hxg, hxm]

end Mm

namespace Kernel

/-- A failed copy that is taken back. -/
theorem copyMem_failed {m₁ m₂ : Mm} {current p : Task} {r : Int}
    (hbase : current.code.base = current.data.base)
    (hlim : current.code.limit ≤ current.data.limit) (hr : r ≠ 0)
    (hcopy : m.copyPageTables current.data.base (slotBase nr) current.data.limit = .ok (r, m₁))
    (hback : m₁.freePageTables (slotBase nr) current.data.limit = .ok m₂) :
    copyMem m current nr p = .ok (-1, setBase p nr, m₂) := by
  rw [copyMem, if_neg (not_not.2 hbase), if_neg (not_lt.2 hlim)]
  dsimp only
  rw [hcopy, Except.ok_bind]
  dsimp only
  rw [if_pos hr, hback]
  rfl

/-- With three frames left, a fork of the task 0 with 12 MB fails at the third page
    table. -/
theorem exists_failed (r : Regs) : ∃ k t nr k₁ k', Reachable 256 768 k ∧ k.task 0 = some t ∧
    k.mm.freeFrames = 3 ∧ k.findEmptyProcess = some (some nr, k₁) ∧
    k₁.copyProcess (t.withLimit 0xC00000) nr r = .ok (-1, k') := by
  obtain ⟨s, k, hs, h, hfree⟩ := exists_full
  obtain ⟨t, ht, -⟩ := h.init
  obtain ⟨nr, hslot⟩ := h.exists_empty hs
  obtain ⟨hnr, hnone⟩ := emptySlot_some hslot
  have hinv := h.reach.inv (by omega) (by omega) (by omega)
  have hclean := h.reach.clean (by omega) (by omega) (by omega)
  obtain ⟨pid, -, -, -, hfind⟩ := (h.reach.pidInv (by omega) (by omega) (by omega)).findEmptyProcess
  rw [hslot] at hfind
  have hnr1 : 1 ≤ nr.1 := Slot.pos hnr
  have hnr2 := nr.2
  rcases Mm.getFreePage_cases k.mm with ⟨-, hzero⟩ | ⟨f, hge, hlt, h0, -, hpage⟩
  · omega
  have halloc := hinv.mm.alloc hge hlt h0
  have hman := halloc.held_frame.1
  have hlow := hman.2
  obtain ⟨m₂, m₃, hcopy, hback, hhigh, hkeep⟩ := halloc.exists_failed_copy (d := 16 * nr) (by omega)
    ((hinv.mm.tidy_alloc (N := FirstDir) hge hlt h0).clean (fun _ hd => hd) hclean) (by omega)
    (by omega)
    (fun d h₁ h₂ => by
      rw [Mm.pde_alloc (by omega) hge]
      exact h.absent nr hnone d (by omega) (by omega))
    (by have := Mm.freeFrames_alloc hge hlt h0; omega)
  have hsize : (0xC00000 : Nat) ≤ 0x4000000 := by decide
  have hdirs : (0xC00000 + 0x3fffff) / 2 ^ 22 = 3 := rfl
  have hcode : t.code.base = slotBase 0 := by
    rw [hinv.code 0 t ht]
    rfl
  have hdata : t.data.base = slotBase 0 := by
    rw [hinv.data 0 t ht]
    rfl
  have hmem : copyMem (k.mm.alloc f) (t.withLimit 0xC00000) nr
      (childTask (t.withLimit 0xC00000) nr (4096 * f) pid k.jiffies r) = .ok (-1, setBase
        (childTask (t.withLimit 0xC00000) nr (4096 * f) pid k.jiffies r) nr, m₃) := by
    refine copyMem_failed (hcode.trans hdata.symm) le_rfl (show (-1 : Int) ≠ 0 by decide)
      (show _ = Except.ok (-1, m₂) from ?_) ?_
    · change (k.mm.alloc f).copyPageTables t.data.base (slotBase nr) 0xC00000 = _
      rw [hdata, slotBase, slotBase, Mm.copyPageTables_eq (Fin.is_lt 0) hnr2 hsize, hdirs]
      exact hcopy
    · change m₂.freePageTables (slotBase nr) 0xC00000 = _
      have hdir : nr * 0x4000000 / 2 ^ 22 % 1024 = 16 * nr.1 := by omega
      rw [slotBase, Mm.freePageTables, if_neg (by rw [Mm.and_alignment_eq]; omega),
        if_neg (by omega), Mm.dirCount_eq hsize, Mm.dirEntry_eq, hdir, hdirs]
      exact hback
  have hone : m₃.memMap (f - 256) ≠ 0 := by
    have hcount := halloc.held_frame.2.1
    rw [hkeep _ (by omega) (by rw [hcount]; decide), hcount]
    decide
  have hfreed : m₃.freePage (4096 * f) = .ok (m₃.decr f) :=
    Mm.freePage_ok hge (by rw [hhigh, halloc.highMemory]; omega) hone
  refine ⟨k, t, nr, { k with lastPid := pid },
    { k with lastPid := pid, mm := m₃.decr f }.setTask nr none,
    h.reach, ht, hfree, hfind, ?_⟩
  rw [copyProcess_eq (k := { k with lastPid := pid }) _ nr hge hpage, hmem, Except.ok_bind]
  dsimp only
  rw [if_pos (by decide), hfreed]
  rfl

/-- A fork that fails leaves no trace if and only if the process is not the task 0, or
    less than three frames are free. The memory ends below 4 MB (`main` calls `mem_init`
    with 3 MB), and the limit of the segments is any up to 64 MB. -/
theorem failedFork_iff (hlo : 256 ≤ lo) (hle : lo ≤ hi) (hhi : hi ≤ 1024) (h : Reachable lo hi k)
    (ht : k.task i = some t) {limit : Nat} (hlim : limit ≤ 0x4000000)
    (hfind : k.findEmptyProcess = some (some nr, k₁)) {r : Regs}
    (hok : k₁.copyProcess (t.withLimit limit) nr r = .ok (-1, k')) :
    NoTrace i k₁ k' ↔ i ≠ 0 ∨ k.mm.freeFrames < 3 := by
  have hinv := h.inv hlo hle (by omega)
  have hclean := h.clean hlo hle (by omega)
  obtain ⟨pid, -, -, hlt, hfind'⟩ := (h.pidInv hlo hle (by omega)).findEmptyProcess
  obtain ⟨hslot, rfl⟩ := Prod.mk.inj (Option.some.inj (hfind'.symm.trans hfind))
  obtain ⟨hnr, hnone⟩ := emptySlot_some hslot
  have hinv₁ : Inv lo hi { k with lastPid := pid } := hinv.counters _ _
  have hbase : (t.withLimit limit).data.base = slotBase i := by
    change t.data.base = _
    rw [hinv.data i t ht]
    rfl
  have hpid : (-1 : Word) ≠ pid := fun heq => by
    rw [← heq] at hlt
    exact absurd hlt (by decide)
  have hne : i ≠ nr := by
    rintro rfl
    rw [hnone] at ht
    cases ht
  constructor
  · intro hno
    by_contra hc
    push Not at hc
    obtain ⟨rfl, hfree⟩ := hc
    obtain ⟨hused, hmore⟩ := hinv₁.memMap_failed hhi hclean hnr hbase hlim hfree hpid hok
    have hsame := hno.memMap 768 (by decide)
    rw [hmore, hused] at hsame
    exact absurd hsame (by decide)
  · intro hc
    exact hinv₁.noTrace hclean hnr hnone hne hbase hlim
      (hc.imp_right fun hlt => Nat.le_of_lt_succ hlt)
      hpid hok

/-- The task 0, with 12 MB and three free frames. -/
theorem failedFork_iff_full : ∃ k t nr k₁ k', Reachable 256 768 k ∧ k.task 0 = some t ∧
    k.findEmptyProcess = some (some nr, k₁) ∧
    k₁.copyProcess (t.withLimit 0xC00000) nr default = .ok (-1, k') ∧
    (NoTrace 0 k₁ k' ↔ (0 : Slot) ≠ 0 ∨ k.mm.freeFrames < 3) := by
  obtain ⟨k, t, nr, k₁, k', h, ht, -, hfind, hok⟩ := exists_failed default
  exact ⟨k, t, nr, k₁, k', h, ht, hfind, hok,
    failedFork_iff (by omega) (by omega) (by omega) h ht (by decide) hfind hok⟩

/-- There, a failed fork leaves a trace: a frame above the memory stays counted. -/
theorem failedFork_counts : ∃ k t nr k₁ k', Reachable 256 768 k ∧ k.task 0 = some t ∧
    k.mm.freeFrames = 3 ∧ k.findEmptyProcess = some (some nr, k₁) ∧
    k₁.copyProcess (t.withLimit 0xC00000) nr default = .ok (-1, k') ∧
    k₁.mm.memMap 768 = 100 ∧ k'.mm.memMap 768 = 101 ∧ ¬NoTrace 0 k₁ k' := by
  obtain ⟨k, t, nr, k₁, k', h, ht, hfree, hfind, hok⟩ := exists_failed default
  have hinv := h.inv (by omega) (by omega) (by omega)
  obtain ⟨pid, -, -, hlt, hfind'⟩ := (h.pidInv (by omega) (by omega) (by omega)).findEmptyProcess
  obtain ⟨hslot, rfl⟩ := Prod.mk.inj (Option.some.inj (hfind'.symm.trans hfind))
  obtain ⟨hnr, -⟩ := emptySlot_some hslot
  have hinv₁ : Inv 256 768 { k with lastPid := pid } := hinv.counters _ _
  have hbase : (t.withLimit 0xC00000).data.base = slotBase 0 := by
    change t.data.base = _
    rw [hinv.data 0 t ht]
    rfl
  have hpid : (-1 : Word) ≠ pid := fun heq => by
    rw [← heq] at hlt
    exact absurd hlt (by decide)
  have hclean := h.clean (by omega) (by omega) (by omega)
  obtain ⟨hused, hmore⟩ := hinv₁.memMap_failed (by omega) hclean hnr hbase
    (show 0xC00000 ≤ 0x4000000 by decide) hfree.ge hpid hok
  refine ⟨k, t, nr, _, k', h, ht, hfree, hfind, hok, hused, hmore, fun hno => ?_⟩
  have hsame := hno.memMap 768 (by decide)
  rw [hmore, hused] at hsame
  exact absurd hsame (by decide)

end Kernel

end NeuOs
