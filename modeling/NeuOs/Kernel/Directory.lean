import NeuOs.Kernel.Pid
import NeuOs.Mm.Directory

/-!
# The page directory in every reachable state

A step sets directory entries to new page tables or to zero, and only those of the
first 4 MB of a slot (`Inv.step_tidy`), because the segments of all tasks have
`INIT_TASK`'s limit. So in every reachable state the absent entries are zero, and an
empty slot can only have a page table for its first 4 MB (`Reachable.clean`).
-/

namespace NeuOs

/-- The directory entries of the first 4 MB of the slots. -/
def FirstDir (d : Nat) : Prop := d % 16 = 0

namespace Mm

variable {lo hi i a : Nat} {ext : Nat → Nat} {m m' : Mm} {s : Segment} {addr : Word} {b : Byte}
  {N : Nat → Prop}

theorem Inv.tidy_userStore (h : Inv lo hi ext m) (ha : UserAddr a)
    (hN : N (a / 2 ^ 22) ∨ Present (m.pde (a / 2 ^ 22)))
    (hok : m.userStore a b = .ok m') : Tidy lo hi N m m' := by
  obtain ⟨m₁, htouch, hok⟩ := Except.bind_eq_ok.1 hok
  obtain rfl := Except.ok.inj hok
  obtain ⟨hinv, -, e, he, hw⟩ := h.touch_store ha (.inl rfl) htouch
  exact (h.tidy_touch ha hN htouch).trans (hinv.tidy_poke ha he hw b)

theorem Inv.tidy_kernelStore (h : Inv lo hi ext m) (ha : UserAddr a)
    (hN : N (a / 2 ^ 22) ∨ Present (m.pde (a / 2 ^ 22)))
    (hw : ∀ e, m.translate a = some e → Writable e) (hok : m.kernelStore a b = .ok m') :
    Tidy lo hi N m m' := by
  obtain ⟨m₁, htouch, hok⟩ := Except.bind_eq_ok.1 hok
  obtain rfl := Except.ok.inj hok
  obtain ⟨hinv, -, e, he, hwe⟩ := h.touch_store ha (.inr hw) htouch
  exact (h.tidy_touch ha hN htouch).trans (hinv.tidy_poke ha he hwe b)

/-- An address within the first 4 MB of a segment. -/
theorem UserSegment.firstDir {off : Nat} (hs : UserSegment i s) (hlim : s.limit ≤ 0x400000)
    (hoff : off < s.limit) : FirstDir ((s.base + off) / 2 ^ 22) := by
  obtain ⟨h₁, h₂, h₃, h₄⟩ := hs
  rw [FirstDir]
  omega

/-- The directory entries of the segment are in `N`, or there. -/
def Covered (N : Nat → Prop) (s : Segment) (m : Mm) : Prop :=
  ∀ off < s.limit, N ((s.base + off) / 2 ^ 22) ∨ Present (m.pde ((s.base + off) / 2 ^ 22))

theorem UserSegment.covered (hs : UserSegment i s) (hlim : s.limit ≤ 0x400000) :
    Covered FirstDir s m := fun _ hoff => .inl (hs.firstDir hlim hoff)

theorem Covered.tidy (h : Covered N s m) (hs : UserSegment i s) (htidy : Tidy lo hi N m m') :
    Covered N s m' := fun off hoff => htidy.keeps (hs.userAddr hoff).page.1 (h off hoff)

theorem Inv.tidy_getFsBytes {n : Nat} {bs : List Byte} (h : Inv lo hi ext m) (hs : UserSegment i s)
    (hN : Covered N s m) (hok : Mm.getFsBytes s n addr m = .ok (bs, m')) :
    Tidy lo hi N m m' := by
  induction n generalizing addr m bs with
  | zero =>
    obtain ⟨-, rfl⟩ := Prod.mk.inj (Except.ok.inj hok)
    exact .refl _ _ _ _
  | succ n ih =>
    obtain ⟨⟨b, m₁⟩, hget, hok⟩ := Except.bind_eq_ok.1 hok
    obtain ⟨⟨bs', m₂⟩, hrest, hok⟩ := Except.bind_eq_ok.1 hok
    obtain ⟨-, rfl⟩ := Prod.mk.inj (Except.ok.inj hok)
    rw [getFsByte] at hget
    split_ifs at hget with hge
    obtain ⟨m₃, htouch, hget⟩ := Except.bind_eq_ok.1 hget
    obtain ⟨-, rfl⟩ := Prod.mk.inj (Except.ok.inj hget)
    have ha := hs.userAddr (not_le.1 hge)
    rcases h.touch ha.2 ha.page.1 false with ⟨herr, -⟩ | ⟨m₄, e, hok₄, hinv, -⟩
    · cases herr.symm.trans htouch
    · obtain rfl : m₄ = m₃ := Except.ok.inj (hok₄.symm.trans htouch)
      have htidy := h.tidy_touch ha (hN _ (not_le.1 hge)) htouch
      exact htidy.trans (ih hinv (hN.tidy hs htidy) hrest)

theorem Inv.tidy_putFsBytes {bytes : List Byte} (h : Inv lo hi ext m) (hs : UserSegment i s)
    (hN : Covered N s m) (hw : WritableRange m (s.base + addr.toNat) bytes.length)
    (hok : Mm.putFsBytes s bytes addr m = .ok m') : Tidy lo hi N m m' := by
  induction bytes generalizing addr m with
  | nil => exact Except.ok.inj hok ▸ .refl _ _ _ _
  | cons b bytes ih =>
    obtain ⟨hoff, m₁, hput, hinv, -, hrest, hok⟩ := h.putFsBytes_cons hs hw hok
    have htidy := h.tidy_kernelStore (hs.userAddr hoff) (hN _ hoff)
      (hw _ le_rfl (by rw [List.length_cons]; omega)) hput
    exact htidy.trans (ih hinv (hN.tidy hs htidy) hrest hok)

/-- `verify_area`, and stores of the kernel to the range. -/
theorem Inv.tidy_verifyArea_putFsBytes {bytes : List Byte} (h : Inv lo hi ext m)
    (hs : UserSegment i s) (hN : Covered N s m) (hne : bytes ≠ []) {m₁ : Mm}
    (hverify : m.verifyArea s.base addr.toNat bytes.length = .ok m₁)
    (hok : Mm.putFsBytes s bytes addr m₁ = .ok m') : Tidy lo hi N m m' := by
  obtain ⟨h₁, h₂, h₃, h₄⟩ := id hs
  have hend := putFsBytes_limit (by omega) hne hok
  have hbase : s.base = 4096 * (i * 0x4000) := by omega
  have hinv := h.verifyArea_inv hverify
  have htidy := h.tidy_verifyLoop (N := N) (Nat.mod_lt _ (by norm_num)) hverify
  rw [hbase] at hverify
  obtain ⟨-, hw⟩ := h.verifyArea (S := OffSlot i) (by omega) (by omega)
    (List.length_pos_of_ne_nil hne) (by omega) (by
      rw [← hbase, h₃]
      exact offRange_offSlot i) hverify
  exact htidy.trans (hinv.tidy_putFsBytes hs (hN.tidy hs htidy) (by rwa [hbase]) hok)

/-- Freeing a frame that is held outside the page tables. -/
theorem Inv.spares_decr {P : Nat → Prop} {f : Nat} (h : Inv lo hi (addRef ext f) m) :
    Spares lo hi N P m (m.decr f) :=
  have hman := h.held_frame.1
  spares_counts (h.managed_ge hman) hman (update_decr m f)

theorem Inv.spares_freePageTables {size : Nat} {P : Nat → Prop} (h : Inv lo hi ext m) (h1 : 1 ≤ i)
    (h64 : i < 64) (hsize : size ≤ 0x4000000)
    (hok : m.freePageTables (i * 0x4000000) size = .ok m') :
    Spares lo hi (DirRange (16 * i) ((size + 0x3fffff) / 2 ^ 22)) P m m' ∧
      ∀ d, DirRange (16 * i) ((size + 0x3fffff) / 2 ^ 22) d →
        m'.pde d = if Present (m.pde d) then 0 else m.pde d := by
  have hdir : i * 0x4000000 / 2 ^ 22 % 1024 = 16 * i := by omega
  rw [Mm.freePageTables, if_neg (by rw [and_alignment_eq]; omega), if_neg (by omega),
    dirCount_eq hsize, dirEntry_eq, hdir] at hok
  exact h.spares_freeDirs (by omega) (by omega) (fun _ hd => hd) hok

/-- A copy from the region of slot `i`, where the kernel's own pages are copied only
    if there is memory for one page table at most. -/
theorem Inv.spares_copyPageTables {j size : Nat} {r : Int} (h : Inv lo hi ext m) (hi64 : i < 64)
    (hj1 : 1 ≤ j) (hj64 : j < 64) (hne : i ≠ j) (hsize : size ≤ 0x4000000)
    (hkernel : i ≠ 0 ∨ (size + 0x3fffff) / 2 ^ 22 ≤ 1 ∨ m.freeFrames ≤ 1)
    (hok : m.copyPageTables (i * 0x4000000) (j * 0x4000000) size = .ok (r, m')) :
    Spares lo hi (DirRange (16 * j) ((size + 0x3fffff) / 2 ^ 22))
      (DirRange (16 * i) ((size + 0x3fffff) / 2 ^ 22)) m m' ∧ Inv lo hi ext m' := by
  by_cases hi0 : i = 0
  · rw [copyPageTables_eq hi64 hj64 hsize, hi0, Nat.zero_mul] at hok
    exact h.spares_copyKernelDirs (by omega) (by omega) (fun _ hd => hd)
      (hkernel.resolve_left (not_not.2 hi0)) hok
  · have hinv : Inv lo hi ext m' := by
      rcases h.copyPageTables hi64 hj1 hj64 hne hsize (fun h0 => absurd h0 hi0) with
        ⟨herr, -⟩ | ⟨r', m₁, hok₁, hinv, -⟩
      · cases herr.symm.trans hok
      · obtain ⟨-, rfl⟩ := Prod.mk.inj (Except.ok.inj (hok₁.symm.trans hok))
        exact hinv
    rw [copyPageTables_eq hi64 hj64 hsize] at hok
    exact ⟨h.spares_copyDirs _ _ _ _ (by omega) (by omega) (by omega) (by omega) (by omega)
      (by omega)
      (by omega) (fun _ hd => hd) (fun _ hd => hd) hok, hinv⟩

end Mm

/-! ## Forks -/

variable {lo hi : Nat} {ext : Nat → Nat} {m m' : Mm} {i nr : Slot} {current child p : Task}
  {k k' : Kernel} {t : Task} {N : Nat → Prop}

/-- What `copy_mem` does when it returns: it copies, and takes a failed copy back. -/
theorem copyMem_ok {r : Int} (hok : copyMem m current nr p = .ok (r, child, m')) :
    ∃ r₁ m₁, m.copyPageTables current.data.base (slotBase nr) current.data.limit = .ok (r₁, m₁) ∧
      ((r = 0 ∧ r₁ = 0 ∧ m' = m₁) ∨
        r = -1 ∧ r₁ ≠ 0 ∧ m₁.freePageTables (slotBase nr) current.data.limit = .ok m') := by
  rw [copyMem] at hok
  split_ifs at hok
  obtain ⟨⟨r₁, m₁⟩, hcopy, hok⟩ := Except.bind_eq_ok.1 hok
  refine ⟨r₁, m₁, hcopy, ?_⟩
  dsimp only at hok
  split_ifs at hok with hr
  · obtain ⟨m₂, hfree, hok⟩ := Except.bind_eq_ok.1 hok
    obtain ⟨rfl, -, rfl⟩ := by simpa using Except.ok.inj hok
    exact .inr ⟨rfl, hr, hfree⟩
  · obtain ⟨rfl, -, rfl⟩ := by simpa using Except.ok.inj hok
    exact .inl ⟨rfl, not_not.1 hr, rfl⟩

/-- What `copy_process` does when it returns: there is no page for the task, or
    `copy_mem` fails and the page is freed, or there is a child. -/
theorem Kernel.copyProcess_ok {r : Regs} {pid : Word}
    (hok : k.copyProcess current nr r = .ok (pid, k')) :
    (k.mm.freeFrames = 0 ∧ k' = k) ∨
    ∃ f, 256 ≤ f ∧ f < 4096 ∧ k.mm.memMap (f - 256) = 0 ∧ ∃ err child m,
      copyMem (k.mm.alloc f) current nr (childTask current nr (4096 * f) k.lastPid k.jiffies r) =
        .ok (err, child, m) ∧
      ((err ≠ 0 ∧ ∃ m', m.freePage (4096 * f) = .ok m' ∧ k' = { k with mm := m' }.setTask nr none) ∨
        (err = 0 ∧ pid = k.lastPid ∧ k'.mm = m)) := by
  rw [copyProcess] at hok
  rcases Mm.getFreePage_cases k.mm with ⟨hnone, hzero⟩ | ⟨f, hge, hlt, h0, -, hfree⟩
  · rw [hnone] at hok
    obtain ⟨-, rfl⟩ := Prod.mk.inj (Except.ok.inj hok)
    exact .inl ⟨hzero, rfl⟩
  · rw [hfree] at hok
    refine .inr ⟨f, hge, hlt, h0, ?_⟩
    split at hok
    · next heq =>
      have := congrArg Prod.fst heq
      omega
    · next heq =>
      obtain ⟨rfl, rfl⟩ := Prod.mk.inj heq
      obtain ⟨⟨err, child, m⟩, hmem, hok⟩ := Except.bind_eq_ok.1 hok
      refine ⟨err, child, m, hmem, ?_⟩
      dsimp only at hok
      split_ifs at hok with herr
      · obtain ⟨m', hm', hok⟩ := Except.bind_eq_ok.1 hok
        obtain ⟨-, rfl⟩ := Prod.mk.inj (Except.ok.inj hok)
        exact .inl ⟨herr, m', hm', rfl⟩
      · obtain ⟨rfl, rfl⟩ := Prod.mk.inj (Except.ok.inj hok)
        exact .inr ⟨not_not.1 herr, rfl, rfl⟩

/-- A copy that returns has found no page table for the first 4 MB. -/
theorem Mm.copyPageTables_absent {i j size : Nat} {r : Int} (hi64 : i < 64) (hj64 : j < 64)
    (hsize : size ≤ 0x4000000) (hpos : 0 < (size + 0x3fffff) / 2 ^ 22)
    (hok : m.copyPageTables (i * 0x4000000) (j * 0x4000000) size = .ok (r, m')) :
    ¬Present (m.pde (16 * j)) := fun hp => by
  rw [copyPageTables_eq hi64 hj64 hsize, ← Nat.sub_add_cancel hpos] at hok
  cases (copyDirs_exists hp).symm.trans hok

/-- `copy_mem` of a process in the slot `i`. A failed copy leaves the kernel as it was,
    but for the new page tables of the slot `nr`, which are gone. -/
theorem Mm.Inv.spares_copyMem {r : Int} (h : m.Inv lo hi ext) (hnr : nr ≠ 0) (hne : i ≠ nr)
    (hbase : current.data.base = slotBase i) (hlim : current.data.limit ≤ 0x4000000)
    (hkernel : i ≠ 0 ∨ (current.data.limit + 0x3fffff) / 2 ^ 22 ≤ 1 ∨ m.freeFrames ≤ 1)
    (hok : copyMem m current nr p = .ok (r, child, m')) :
    Mm.Spares lo hi (Mm.DirRange (16 * nr) ((current.data.limit + 0x3fffff) / 2 ^ 22))
      (Mm.DirRange (16 * i) ((current.data.limit + 0x3fffff) / 2 ^ 22)) m m' ∧ m'.Inv lo hi ext ∧
      (0 < (current.data.limit + 0x3fffff) / 2 ^ 22 → ¬Present (m.pde (16 * nr))) ∧
      (r ≠ 0 → ∃ m₁ : Mm, Mm.Tidy lo hi (Mm.DirRange (16 * nr)
          ((current.data.limit + 0x3fffff) / 2 ^ 22)) m m₁ ∧
        ∀ d, Mm.DirRange (16 * nr) ((current.data.limit + 0x3fffff) / 2 ^ 22) d →
          m'.pde d = if Present (m₁.pde d) then 0 else m₁.pde d) := by
  have hnr1 : 1 ≤ nr.1 := Slot.pos hnr
  have hne' : i.1 ≠ nr.1 := fun heq => hne (Fin.ext heq)
  have hi0 : i.1 ≠ 0 ∨ (current.data.limit + 0x3fffff) / 2 ^ 22 ≤ 1 ∨ m.freeFrames ≤ 1 :=
    hkernel.imp_left fun h0 heq => h0 (Fin.ext heq)
  obtain ⟨r₁, m₁, hcopy, hrest⟩ := copyMem_ok hok
  rw [hbase, slotBase, slotBase] at hcopy
  have habs : 0 < (current.data.limit + 0x3fffff) / 2 ^ 22 → ¬Present (m.pde (16 * nr)) :=
    fun hpos => Mm.copyPageTables_absent i.2 nr.2 hlim hpos hcopy
  obtain ⟨hspares, hinv⟩ := h.spares_copyPageTables i.2 hnr1 nr.2 hne' hlim hi0 hcopy
  rcases hrest with ⟨rfl, -, rfl⟩ | ⟨rfl, -, hfree⟩
  · exact ⟨hspares, hinv, habs, fun h0 => absurd rfl h0⟩
  · rw [slotBase] at hfree
    obtain ⟨m₂, hfree₂, hinv₂, -⟩ := hinv.freePageTables hnr1 nr.2 hlim
    obtain rfl := Except.ok.inj (hfree₂.symm.trans hfree)
    obtain ⟨hback, hpde⟩ := hinv.spares_freePageTables hnr1 nr.2 hlim hfree
    exact ⟨hspares.trans hback, hinv₂, habs, fun _ => ⟨m₁, hspares.toTidy, hpde⟩⟩

/-- A copy of the kernel's pages that fails needs two page tables, if there is memory
    for one. -/
theorem Mm.Inv.two_tables {size : Nat} {r : Int} (h : m.Inv lo hi ext) (hnr : nr ≠ 0)
    (hsize : size ≤ 0x4000000) (hfree : 2 ≤ m.freeFrames) (hr : r ≠ 0)
    (hok : m.copyPageTables ((0 : Slot) * 0x4000000) (nr * 0x4000000) size = .ok (r, m')) :
    2 ≤ (size + 0x3fffff) / 2 ^ 22 := by
  have hnr1 : 1 ≤ nr.1 := Slot.pos hnr
  by_contra hfew
  by_cases hpos : size = 0
  · rw [Mm.copyPageTables_eq (Fin.is_lt 0) nr.2 hsize, hpos] at hok
    exact hr (Prod.mk.inj (Except.ok.inj hok)).1.symm
  · rcases h.copyPageTables (i := (0 : Slot)) (Fin.is_lt 0) hnr1 nr.2
      (fun heq => hnr (Fin.ext heq.symm)) hsize (fun _ => by omega) with
      ⟨herr, -⟩ | ⟨r', m₁, hok', -, -, -, -, hframes, hfail, -⟩
    · cases herr.symm.trans hok
    · obtain ⟨rfl, rfl⟩ := Prod.mk.inj (Except.ok.inj (hok'.symm.trans hok))
      have hzero := hfail hr
      omega

namespace Kernel

/-- `copy_process` of a process in the slot `i`. A failed one leaves the tasks as they
    were. -/
theorem Inv.spares_copyProcess {r : Regs} {pid : Word} (h : k.Inv lo hi) (hnr : nr ≠ 0)
    (hnone : k.task nr = none) (hne : i ≠ nr) (hbase : current.data.base = slotBase i)
    (hlim : current.data.limit ≤ 0x4000000)
    (hkernel : i ≠ 0 ∨ (current.data.limit + 0x3fffff) / 2 ^ 22 ≤ 1 ∨ k.mm.freeFrames ≤ 2)
    (hok : k.copyProcess current nr r = .ok (pid, k')) :
    Mm.Spares lo hi (Mm.DirRange (16 * nr) ((current.data.limit + 0x3fffff) / 2 ^ 22))
      (Mm.DirRange (16 * i) ((current.data.limit + 0x3fffff) / 2 ^ 22)) k.mm k'.mm ∧
      (pid ≠ k.lastPid → k'.task = k.task ∧ k'.mm.Inv lo hi k.taskRefs ∧
        (k' = k ∨ (0 < (current.data.limit + 0x3fffff) / 2 ^ 22 → ¬Present (k.mm.pde (16 * nr))) ∧
          ∃ m₁ : Mm, Mm.Tidy lo hi (Mm.DirRange (16 * nr)
            ((current.data.limit + 0x3fffff) / 2 ^ 22)) k.mm m₁ ∧
          ∀ d, Mm.DirRange (16 * nr) ((current.data.limit + 0x3fffff) / 2 ^ 22) d →
            k'.mm.pde d = if Present (m₁.pde d) then 0 else m₁.pde d)) := by
  rcases copyProcess_ok hok with ⟨-, rfl⟩ | ⟨f, hge, hlt, h0, err, child, m, hmem, hrest⟩
  · exact ⟨.refl _ _ _ _ _, fun _ => ⟨rfl, h.mm, .inl rfl⟩⟩
  · have halloc := h.mm.alloc hge hlt h0
    have hframes := Mm.freeFrames_alloc hge hlt h0
    obtain ⟨hspares, hinv, habs, hfail⟩ := halloc.spares_copyMem hnr hne hbase hlim
      (hkernel.imp_right fun hc => hc.imp_right fun hc => by omega) hmem
    have hspares := (h.mm.spares_alloc hge hlt h0).trans hspares
    rcases hrest with ⟨herr, m', hfree, rfl⟩ | ⟨-, hpid, rfl⟩
    · obtain rfl := Except.ok.inj (hinv.freePage_held.symm.trans hfree)
      refine ⟨hspares.trans hinv.spares_decr, fun _ =>
        ⟨?_, hinv.release, .inr ⟨fun hpos => ?_, ?_⟩⟩⟩
      · have hempty : ({ k with mm := m.decr f } : Kernel).task nr = none := hnone
        rw [setTask_empty hempty]
      · have hnr := nr.2
        have hpde := Mm.pde_alloc (m := k.mm) (d := 16 * nr) (by omega) hge
        exact hpde ▸ habs hpos
      · obtain ⟨m₁, htidy, hpde⟩ := hfail herr
        refine ⟨m₁, (h.mm.tidy_alloc hge hlt h0).trans htidy, fun d hd => ?_⟩
        rw [← hpde d hd]
        rfl
    · exact ⟨hspares, fun hne' => absurd hpid hne'⟩

/-- A process has one page table, for the first 4 MB of its segment. -/
theorem Inv.dirCount (h : k.Inv lo hi) (ht : k.task i = some t) :
    (t.data.limit + 0x3fffff) / 2 ^ 22 = 1 := by
  rw [h.data i t ht, slotSegment_limit]
  rfl

/-- A fork to an empty slot changes the directory entry of its first page table. -/
theorem Inv.spares_fork (h : k.Inv lo hi) (ht : k.task i = some t) (hnr : nr ≠ 0)
    (hnone : k.task nr = none) {lastPid : Word} {r : Regs} {pid : Word}
    (hok : Kernel.copyProcess { k with lastPid := lastPid } t nr r = .ok (pid, k')) :
    Mm.Spares lo hi (Mm.DirRange (16 * nr) 1) (Mm.DirRange (16 * i) 1) k.mm k'.mm := by
  have hne : i ≠ nr := by
    rintro rfl
    rw [hnone] at ht
    cases ht
  have h' : Inv lo hi { k with lastPid := lastPid } := h.counters _ _
  have hone := h.dirCount ht
  have hdata := h.data i t ht
  obtain ⟨hspares, -⟩ := h'.spares_copyProcess hnr hnone hne (by rw [hdata]; rfl)
    (by rw [hdata, slotSegment_limit]; decide) (.inr (.inl hone.le)) hok
  rwa [hone] at hspares

/-! ## Every step -/

theorem Inv.tidy_fork (h : k.Inv lo hi) (ht : k.task i = some t) {r : Regs} {pid : Word}
    (hx : k.sysFork t r = some (.ok (pid, k'))) : Mm.Tidy lo hi FirstDir k.mm k'.mm := by
  obtain ⟨pid', ⟨hx, -⟩ | ⟨nr, hnr, hnone, hx⟩⟩ := sysFork_cases hx
  · obtain ⟨-, rfl⟩ := Prod.mk.inj (Except.ok.inj hx)
    exact .refl _ _ _ _
  · refine (h.spares_fork ht hnr hnone hx.symm).toTidy.mono fun d hd => ?_
    obtain ⟨h₁, h₂⟩ := hd
    rw [FirstDir]
    omega

/-- `release` takes the frame of the task from its counter. -/
theorem Inv.tidy_release {j : Slot} (h : k.Inv lo hi) (hj : j ≠ 0) (ht : k.task j = some t)
    (hok : k.release t.page = .ok k') : Mm.Tidy lo hi N k.mm k'.mm := by
  obtain ⟨f, hf, hok', -⟩ := h.release_eq hj ht
  obtain rfl := Except.ok.inj (hok'.symm.trans hok)
  have hman := (h.mm.held f (taskRefs_pos hj ht hf)).1
  exact (Mm.spares_counts (N := N) (P := fun _ => False) (h.mm.managed_ge hman) hman
    (Mm.update_decr k.mm f)).toTidy

theorem Inv.tidy_exit (h : k.Inv lo hi) (ht : k.task i = some t) {errorCode : Word}
    (hok : k.sysExit i t errorCode = .ok k') : Mm.Tidy lo hi FirstDir k.mm k'.mm := by
  by_cases hi0 : i = 0
  · cases (h.exit_zero hi0 ht errorCode).symm.trans hok
  · have hi1 : 1 ≤ i.1 := Slot.pos hi0
    have hlim : initLimit ≤ 0x4000000 := by decide
    rw [sysExit, doExit, h.code i t ht, h.data i t ht, slotSegment_base, slotSegment_limit] at hok
    obtain ⟨m₁, hok₁, hok⟩ := Except.bind_eq_ok.1 hok
    obtain ⟨m₂, hok₂, hok⟩ := Except.bind_eq_ok.1 hok
    obtain ⟨m₁', hok₁', hinv₁, -⟩ := h.mm.freePageTables hi1 i.2 hlim
    obtain rfl := Except.ok.inj (hok₁'.symm.trans hok₁)
    obtain ⟨m₂', hok₂', hinv₂, -⟩ := hinv₁.freePageTables hi1 i.2 hlim
    obtain rfl := Except.ok.inj (hok₂'.symm.trans hok₂)
    have hdir : ∀ d, Mm.DirRange (16 * i) ((initLimit + 0x3fffff) / 2 ^ 22) d → FirstDir d :=
      fun d hd => by
        obtain ⟨h₁, h₂⟩ := hd
        rw [show (initLimit + 0x3fffff) / 2 ^ 22 = 1 from rfl] at h₂
        rw [FirstDir]
        omega
    have htidy : Mm.Tidy lo hi FirstDir k.mm m₂' :=
      ((h.mm.spares_freePageTables (P := fun _ => False) hi1 i.2 hlim hok₁).1.toTidy.trans
        (hinv₁.spares_freePageTables (P := fun _ => False) hi1 i.2 hlim hok₂).1.toTidy).mono hdir
    obtain ⟨k₁, hsame, hfin | hfin⟩ := finishExit_cases (φ := Task.place) (fun _ _ => rfl)
      (fun _ _ => rfl) (fun _ _ => rfl) { k with mm := m₂' } i t ((errorCode &&& 0xff) <<< 8)
    · obtain rfl := Except.ok.inj (hfin.symm.trans hok)
      rwa [hsame.mm]
    · -- Without a father, the task is released.
      have hi' := hsame.task i
      rw [show ({ k with mm := m₂' } : Kernel).task i = some t from ht, Option.map_some] at hi'
      obtain ⟨t₁, ht₁, hplace⟩ := Option.map_eq_some_iff.1 hi'
      rw [hfin, ← show t₁.page = t.page from congrArg Prod.fst hplace] at hok
      have hinv := (h.withMm hinv₂).of_sameTasks hsame
      refine htidy.trans ?_
      have hrel := hinv.tidy_release (N := FirstDir) hi0 ht₁ hok
      rwa [hsame.mm] at hrel

theorem slotSegment_first (i : Slot) : (slotSegment i).limit ≤ 0x400000 := by
  rw [slotSegment_limit]
  decide

theorem Inv.tidy_getNew {action : Word} {new : Sigaction} (h : k.Inv lo hi)
    (hN : i ≠ 0 → Mm.Covered N (slotSegment i) k.mm)
    (hok : getNew k.mm (slotSegment i) action = .ok (new, m)) : Mm.Tidy lo hi N k.mm m := by
  obtain ⟨⟨bs, m'⟩, hget, heq⟩ := Except.bind_eq_ok.1 hok
  obtain ⟨-, rfl⟩ := Prod.mk.inj (Except.ok.inj heq)
  by_cases hi0 : i = 0
  · rw [hi0] at hget
    exact getFsBytes_kernel h.mm hget ▸ .refl _ _ _ _
  · exact h.mm.tidy_getFsBytes (slotSegment_user hi0) (hN hi0) hget

theorem Inv.tidy_sigaction (h : k.Inv lo hi) (ht : k.task i = some t) {signum : Int}
    {action oldAction res : Word} (hold : i = 0 → oldAction = 0)
    (hN : i ≠ 0 → Mm.Covered N (slotSegment i) k.mm)
    (hok : k.sysSigaction i t signum action oldAction = .ok (res, k')) :
    Mm.Tidy lo hi N k.mm k'.mm := by
  rw [sysSigaction, h.data i t ht] at hok
  split_ifs at hok with href hz
  · obtain ⟨-, rfl⟩ := Prod.mk.inj (Except.ok.inj hok)
    exact .refl _ _ _ _
  all_goals
    obtain ⟨⟨new, m₁⟩, hnew, hok⟩ := Except.bind_eq_ok.1 hok
    have htidy := h.tidy_getNew hN hnew
    obtain ⟨m₂, hsave, hok⟩ := Except.bind_eq_ok.1 hok
    obtain ⟨-, rfl⟩ := Prod.mk.inj (Except.ok.inj hok)
  · obtain ⟨m₃, hverify, hput⟩ := Except.bind_eq_ok.1 hsave
    have hs := slotSegment_user fun hi0 => hz (hold hi0)
    exact htidy.trans ((h.getNew_keeps hnew).1.tidy_verifyArea_putFsBytes hs
      ((hN fun hi0 => hz (hold hi0)).tidy hs htidy)
      (List.ne_nil_of_length_pos (by rw [Sigaction.length_bytes]; omega)) hverify hput)
  · exact Except.ok.inj hsave ▸ htidy

theorem Inv.tidy_deliver (h : k.Inv lo hi) (ht : k.task i = some t) {r r' : Regs}
    (hN : i ≠ 0 → Mm.Covered N (slotSegment i) k.mm)
    (hok : k.deliver i t r = .ok (r', k')) : Mm.Tidy lo hi N k.mm k'.mm := by
  rw [deliver] at hok
  cases hnext : nextSignal i t r with
  | none =>
    rw [hnext] at hok
    obtain ⟨-, rfl⟩ := Prod.mk.inj (Except.ok.inj hok)
    exact .refl _ _ _ _
  | some signr =>
    have hi0 := nextSignal_ne_zero hnext
    rw [hnext] at hok
    dsimp only at hok
    cases hsig : (t.take signr).doSignal signr r with
    | none =>
      rw [hsig] at hok
      obtain ⟨-, rfl⟩ := Prod.mk.inj (Except.ok.inj hok)
      exact .refl _ _ _ _
    | some x =>
      obtain ⟨t', r₁, longs⟩ := x
      obtain ⟨-, -, hlongs⟩ := Task.doSignal_some hsig
      have hlen : 4 * longs.length = (longs.flatMap bytesOf).length :=
        (length_flatMap_bytesOf longs).symm
      have hdata : (t.take signr).data = slotSegment i := h.data i t ht
      rw [hsig] at hok
      dsimp only at hok
      rw [hdata, hlen] at hok
      obtain ⟨m₁, hverify, hok⟩ := Except.bind_eq_ok.1 hok
      obtain ⟨m₂, hput, hok⟩ := Except.bind_eq_ok.1 hok
      obtain ⟨-, rfl⟩ := Prod.mk.inj (Except.ok.inj hok)
      refine h.mm.tidy_verifyArea_putFsBytes (slotSegment_user hi0) (hN hi0) ?_ hverify
        (Mm.putFsBytes_of_longs hput)
      refine List.ne_nil_of_length_pos ?_
      rw [← hlen, hlongs, Task.signalFrame]
      simp

/-- A step that is no fork and no exit leaves the page tables that are there, and
    new ones are those of the segment of the process. -/
theorem Inv.exec_tidy (h : k.Inv lo hi) {a : Action} (hst : Step k a k')
    (hfork : ∀ i r, a ≠ .fork i r) (hexit : ∀ i e, a ≠ .exit i e)
    (hN : ∀ i, a.slot = some i → i ≠ 0 → Mm.Covered N (slotSegment i) k.mm) :
    Mm.Tidy lo hi N k.mm k'.mm := by
  cases a with
  | fork i r => exact absurd rfl (hfork i r)
  | exit i e => exact absurd rfl (hexit i e)
  | writeVerify a =>
    obtain ⟨m, ha, hm, rfl⟩ := hst.writeVerify
    exact h.mm.tidy_writeVerify ha hm
  | tick => exact hst.tick ▸ .refl _ _ _ _
  | release i j =>
    obtain ⟨u, hj, hu, hx⟩ := hst.release
    exact h.tidy_release hj hu hx
  | fault i off write =>
    obtain ⟨t, m, hi0, ht, -, hoff, hm, rfl⟩ := hst.fault
    rw [h.data i t ht] at hm hoff
    have hs := slotSegment_user hi0
    exact h.mm.tidy_touch (hs.userAddr hoff) (hN i rfl hi0 off hoff) hm
  | store i off b =>
    obtain ⟨t, m, hi0, ht, -, hoff, hm, rfl⟩ := hst.store
    rw [h.data i t ht] at hm hoff
    have hs := slotSegment_user hi0
    exact h.mm.tidy_userStore (hs.userAddr hoff) (hN i rfl hi0 off hoff) hm
  | put i addr bytes =>
    obtain ⟨t, m₁, m, hi0, hbytes, ht, -, hverify, hput, rfl⟩ := hst.put
    rw [h.data i t ht] at hverify hput
    exact h.mm.tidy_verifyArea_putFsBytes (slotSegment_user hi0) (hN i rfl hi0) hbytes hverify hput
  | taskWord i w v =>
    obtain ⟨t, hi0, hw, ht, -, rfl⟩ := hst.taskWord
    -- the page of a task is above the directory
    obtain ⟨f, hge, hf⟩ := h.page i t hi0 ht
    refine .of_pde (fun d hd => ?_) fun _ _ _ => rfl
    have hd2 := hd.2
    rw [Mm.pde, Mm.phys_store, if_neg (by omega), Mm.pde]
  | kill i pid sig =>
    obtain ⟨t, ht, -, rfl⟩ := hst.kill
    rw [(sameTasks_sysKill (φ := Task.place) (fun _ _ => rfl) pid sig).mm]
    exact .refl _ _ _ _
  | ssetmask i newmask =>
    obtain ⟨t, ht, -, rfl⟩ := hst.ssetmask
    exact .refl _ _ _ _
  | signal i signum handler restorer =>
    obtain ⟨t, ht, -, rfl⟩ := hst.signal
    rw [(sameTasks_sysSignal (φ := Task.place) ht (fun _ _ => rfl) signum handler restorer).mm]
    exact .refl _ _ _ _
  | sigaction i signum action oldAction =>
    obtain ⟨t, w, ht, -, hold, hok⟩ := hst.sigaction
    exact h.tidy_sigaction ht hold (hN i rfl) hok
  | deliver i r =>
    obtain ⟨t, r', ht, -, hok⟩ := hst.deliver
    exact h.tidy_deliver ht (hN i rfl) hok

/-- A step sets entries of the first 4 MB of the slots to new page tables, or to zero. -/
theorem Inv.step_tidy (h : k.Inv lo hi) {a : Action} (hst : Step k a k') :
    Mm.Tidy lo hi FirstDir k.mm k'.mm := by
  have hrest : (∀ i r, a ≠ .fork i r) → (∀ i e, a ≠ .exit i e) →
      Mm.Tidy lo hi FirstDir k.mm k'.mm := fun hfork hexit =>
    h.exec_tidy hst hfork hexit fun i _ hi0 => (slotSegment_user hi0).covered (slotSegment_first i)
  cases a with
  | fork i r =>
    obtain ⟨t, pid, ht, -, hy⟩ := hst.fork
    exact h.tidy_fork ht hy
  | exit i errorCode =>
    obtain ⟨t, ht, -, hx⟩ := hst.exit
    exact h.tidy_exit ht hx
  | _ => exact hrest (fun _ _ heq => by cases heq) (fun _ _ heq => by cases heq)

/-- The absent entries of the slots are zero at boot. -/
theorem Booted.clean (hlo : 256 ≤ lo) (hle : lo ≤ hi) (h : Booted lo hi k) : k.mm.Clean lo hi := by
  obtain ⟨m, page, -, rfl⟩ := h
  refine ⟨fun d hd => .inr ?_, fun f h₁ h₂ hman => ?_⟩
  · have hpde := Mm.pde_setupPaging (m := m) hd.2
    have hd1 := hd.1
    rw [if_neg (by omega), Mm.pde] at hpde
    rw [boot, Mm.pde, Mm.phys_memInit, hpde]
  · have hmap := Mm.memMap_memInit (m := m.setupPaging) hlo hle h₁ h₂
    rw [if_neg (show ¬(lo ≤ f ∧ f < hi) from hman)] at hmap
    exact hmap

theorem Reachable.clean (hlo : 256 ≤ lo) (hle : lo ≤ hi) (hhi : hi ≤ 4096)
    (h : Reachable lo hi k) : k.mm.Clean lo hi :=
  (h.invariant (P := fun k => k.Inv lo hi ∧ k.mm.Clean lo hi)
    (fun _ hb => ⟨hb.inv hlo hle hhi, hb.clean hlo hle⟩) fun _ _ _ hk hst =>
      ⟨hk.1.step hst, (hk.1.step_tidy hst).clean (fun _ hd => hd) hk.2⟩).2

end Kernel

end NeuOs
