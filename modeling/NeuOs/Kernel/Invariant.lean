import NeuOs.Kernel.Step
import NeuOs.Lib.Count
import NeuOs.Mm.Boot
import NeuOs.Mm.Copy

/-!
# The invariant of the kernel

The invariant of the page tables (`Mm.Inv`) holds when the frames held outside
of them are those of the tasks in the slots 1 to 63 (`taskRefs`), and the
segments of the task in slot `i` are those of its region.

Every action keeps the invariant (`Inv.step`), and so it holds in every reachable
state (`Reachable.inv`). What an action does to the pages is the subject of
`Inv.step` as well: those of the other slots stay the same.
-/

namespace NeuOs

/-- Where a task and its memory are. -/
def Task.place (t : Task) : Nat × Segment × Segment := (t.page, t.code, t.data)

namespace Kernel

/-- How many of the slots 1 to 63 have their task in the frame `f`. -/
def taskRefs (k : Kernel) (f : Nat) : Nat :=
  (Finset.univ.filter fun j : Slot => j ≠ 0 ∧ (k.task j).any fun t => t.page = 4096 * f).card

/-- The segment of a slot: `INIT_TASK`'s limit is inherited by all tasks. -/
def slotSegment (j : Slot) : Segment := ⟨slotBase j, initLimit⟩

theorem slotSegment_base (j : Slot) : (slotSegment j).base = j * 0x4000000 := rfl

theorem slotSegment_limit (j : Slot) : (slotSegment j).limit = initLimit := rfl

/-- The invariant of the kernel. -/
structure Inv (lo hi : Nat) (k : Kernel) : Prop where
  mm : k.mm.Inv lo hi k.taskRefs
  init : ∃ t, k.task 0 = some t ∧ t.page < lowMem
  page : ∀ j t, j ≠ 0 → k.task j = some t → ∃ f, 256 ≤ f ∧ t.page = 4096 * f
  code : ∀ j t, k.task j = some t → t.code = slotSegment j
  data : ∀ j t, k.task j = some t → t.data = slotSegment j

variable {lo hi : Nat} {k k' : Kernel} {i j nr : Slot} {t : Task} {m : Mm} {f : Nat}

/-- The counters `last_pid` and `jiffies` do not matter. -/
theorem Inv.counters (h : k.Inv lo hi) (lastPid jiffies : Word) :
    Inv lo hi { k with lastPid := lastPid, jiffies := jiffies } :=
  ⟨h.mm, h.init, h.page, h.code, h.data⟩

/-! ## Tasks and frames -/

theorem taskRefs_congr (h : ∀ j, (k'.task j).map Task.place = (k.task j).map Task.place) :
    k'.taskRefs = k.taskRefs := by
  funext f
  rw [taskRefs, taskRefs]
  congr 1
  refine Finset.filter_congr fun j _ => and_congr_right fun _ => ?_
  have hj :=
    congrArg (fun o : Option (Nat × Segment × Segment) => o.any fun x => x.1 = 4096 * f) (h j)
  simp only [Option.any_map] at hj
  exact iff_of_eq (congrArg (· = true) hj)

theorem taskRefs_pos (hj : j ≠ 0) (ht : k.task j = some t) (hp : t.page = 4096 * f) :
    0 < k.taskRefs f :=
  Finset.card_pos.2 ⟨j, Finset.mem_filter.2 ⟨Finset.mem_univ _, hj, by simp [ht, hp]⟩⟩

/-- A task in an empty slot adds a reference to its frame. -/
theorem taskRefs_setTask (hj : j ≠ 0) (hnone : k.task j = none) (hp : t.page = 4096 * f) :
    (k.setTask j (some t)).taskRefs = Mm.addRef k.taskRefs f := by
  funext g
  have hchange := Finset.card_filter_change (s := Finset.univ) (a := j)
    (p := fun x => x ≠ 0 ∧ (k.task x).any fun t => t.page = 4096 * g)
    (q := fun x => x ≠ 0 ∧ ((k.setTask j (some t)).task x).any fun t => t.page = 4096 * g)
    (Finset.mem_univ j) fun x _ hx => by rw [task_setTask, if_neg hx]
  rw [if_neg (by simp [hnone])] at hchange
  rw [Mm.addRef, taskRefs, taskRefs]
  rw [Nat.add_zero] at hchange
  rw [hchange]
  congr 1
  refine if_congr ?_ rfl rfl
  rw [task_setTask, if_pos rfl, Option.any_some, decide_eq_true_eq, hp]
  exact ⟨fun h => by omega, fun h => ⟨hj, by rw [h]⟩⟩

/-- Clearing a slot takes the reference away. -/
theorem taskRefs_clear (hj : j ≠ 0) (ht : k.task j = some t) (hp : t.page = 4096 * f) :
    k.taskRefs = Mm.addRef (k.setTask j none).taskRefs f := by
  have hback : k = (k.setTask j none).setTask j (some t) := by
    rw [setTask, setTask, Function.update_idem, ← ht, Function.update_eq_self]
  conv_lhs => rw [hback]
  exact taskRefs_setTask hj (by rw [task_setTask, if_pos rfl]) hp

namespace Inv

/-- The invariant depends on the memory, and on the places of the tasks. -/
theorem of_sameTasks (h : k.Inv lo hi) (hsame : SameTasks Task.place k k') : k'.Inv lo hi := by
  have hplace : ∀ j t', k'.task j = some t' → ∃ t, k.task j = some t ∧ t.place = t'.place :=
    fun j t' => hsame.task_some
  refine ⟨?_, ?_, fun j t' hj ht' => ?_, fun j t' ht' => ?_, fun j t' ht' => ?_⟩
  · rw [hsame.mm, taskRefs_congr hsame.task]
    exact h.mm
  · obtain ⟨t, ht, hlow⟩ := h.init
    have h0 := hsame.task 0
    rw [ht, Option.map_some] at h0
    obtain ⟨t', ht', hp⟩ := Option.map_eq_some_iff.1 h0
    exact ⟨t', ht', by rwa [show t'.page = t.page from congrArg Prod.fst hp]⟩
  · obtain ⟨t, ht, hp⟩ := hplace j t' ht'
    obtain ⟨f, hge, hf⟩ := h.page j t hj ht
    exact ⟨f, hge, (congrArg Prod.fst hp).symm.trans hf⟩
  · obtain ⟨t, ht, hp⟩ := hplace j t' ht'
    exact (congrArg (fun x => x.2.1) hp).symm.trans (h.code j t ht)
  · obtain ⟨t, ht, hp⟩ := hplace j t' ht'
    exact (congrArg (fun x => x.2.2) hp).symm.trans (h.data j t ht)

/-- Changing the memory. -/
theorem withMm (h : k.Inv lo hi) (hm : m.Inv lo hi k.taskRefs) : Inv lo hi { k with mm := m } :=
  ⟨hm, h.init, h.page, h.code, h.data⟩

/-- Different slots have their tasks in different frames. -/
theorem page_inj (h : k.Inv lo hi) (hi0 : i ≠ 0) (hj0 : j ≠ 0) {t' : Task} (ht : k.task i = some t)
    (ht' : k.task j = some t') (hp : t.page = t'.page) : i = j := by
  obtain ⟨f, -, hf⟩ := h.page i t hi0 ht
  have hone := (h.mm.held_refs (taskRefs_pos hi0 ht hf)).2.2
  refine Finset.eq_of_card_filter_le_one hone.le (Finset.mem_univ i) ⟨hi0, ?_⟩ (Finset.mem_univ j)
    ⟨hj0, ?_⟩
  · simp [ht, hf]
  · simp [ht', ← hp, hf]

/-- A new task in an empty slot, with its page in a frame held for it. -/
theorem addTask (h : k.Inv lo hi) (hj : j ≠ 0) (hnone : k.task j = none) (hge : 256 ≤ f)
    (hpage : t.page = 4096 * f) (hcode : t.code = slotSegment j) (hdata : t.data = slotSegment j)
    (hm : m.Inv lo hi (Mm.addRef k.taskRefs f)) :
    Inv lo hi ({ k with mm := m }.setTask j (some t)) := by
  have htask : ∀ i t', ({ k with mm := m }.setTask j (some t)).task i = some t' →
      (i = j ∧ t' = t) ∨ k.task i = some t' := by
    intro i t' ht'
    rw [task_setTask] at ht'
    split_ifs at ht' with hij
    · exact .inl ⟨hij, (Option.some.inj ht').symm⟩
    · exact .inr ht'
  refine ⟨?_, ?_, fun i t' hi0 ht' => ?_, fun i t' ht' => ?_, fun i t' ht' => ?_⟩
  · rw [taskRefs_setTask (k := { k with mm := m }) hj hnone hpage]
    exact hm
  · obtain ⟨t₀, ht₀, hlow⟩ := h.init
    exact ⟨t₀, by rw [task_setTask, if_neg hj.symm, ← ht₀], hlow⟩
  · rcases htask i t' ht' with ⟨rfl, rfl⟩ | ht'
    · exact ⟨f, hge, hpage⟩
    · exact h.page i t' hi0 ht'
  · rcases htask i t' ht' with ⟨rfl, rfl⟩ | ht'
    · exact hcode
    · exact h.code i t' ht'
  · rcases htask i t' ht' with ⟨rfl, rfl⟩ | ht'
    · exact hdata
    · exact h.data i t' ht'

/-- `release` clears the slot of the task and frees its page. -/
theorem release_eq (h : k.Inv lo hi) (hj : j ≠ 0) (ht : k.task j = some t) :
    ∃ f, t.page = 4096 * f ∧ k.release t.page = .ok { k.setTask j none with mm := k.mm.decr f } ∧
      Inv lo hi { k.setTask j none with mm := k.mm.decr f } := by
  obtain ⟨f, hge, hf⟩ := h.page j t hj ht
  have hmm := h.mm
  rw [taskRefs_clear hj ht hf] at hmm
  have hfind : k.findTask (fun x => x.page = t.page) = some j := by
    rcases k.findTask_cases fun x => x.page = t.page with ⟨-, hall⟩ | ⟨i, t', hi', ht', hp⟩
    · exact absurd (by simp) (hall j t ht)
    · have hp : t'.page = t.page := by simpa using hp
      by_cases h0 : i = 0
      · -- The page of the task 0 is below 1 MB.
        obtain ⟨t₀, ht₀, hlow⟩ := h.init
        rw [h0, ht₀, Option.some.injEq] at ht'
        rw [lowMem, ht', hp, hf] at hlow
        omega
      · rw [hi', h.page_inj h0 hj ht' ht hp]
  refine ⟨f, hf, ?_, ?_⟩
  · rw [release, if_neg (by omega), hfind, hf]
    change (k.mm.freePage (4096 * f) >>= fun m => _) = _
    rw [hmm.freePage_held]
    rfl
  · refine ⟨hmm.release, ?_, fun i t' hi0 ht' => ?_, fun i t' ht' => ?_, fun i t' ht' => ?_⟩
    · obtain ⟨t₀, ht₀, hlow⟩ := h.init
      exact ⟨t₀, by rw [← ht₀]; exact (task_setTask none).trans (if_neg hj.symm), hlow⟩
    all_goals
      have hi' : k.task i = some t' := by
        change (k.setTask j none).task i = some t' at ht'
        rw [task_setTask] at ht'
        split_ifs at ht'
        exact ht'
    · exact h.page i t' hi0 hi'
    · exact h.code i t' hi'
    · exact h.data i t' hi'

end Inv

/-! ## Forks -/

/-- The pages of the slots but `i` and `j`. -/
def OffSlots (i j d n : Nat) : Prop := Mm.OffSlot i d n ∧ Mm.OffSlot j d n

/-- What the copy of the page tables of the slot `i` for the slot `nr` leaves. -/
structure CopiedSlot (i nr : Nat) (m m' : Mm) : Prop where
  pde : ∀ d < 1024, d / 16 ≠ nr → m'.pde d = m.pde d
  free : m.freeFrames ≤ m'.freeFrames + 1
  kernel : i = 0 → ∀ n < 1024, m'.walk (16 * nr) n =
    if n < 0xA0 then some (readOnly (entryOf (4096 * n))) else none

/-- `copy_mem` of a task with the segments of the slot `i`. -/
theorem copyMem_eq (m : Mm) (nr : Slot) {current : Task} (hcode : current.code = slotSegment i)
    (hdata : current.data = slotSegment i) (p : Task) : copyMem m current nr p = (do
      let (r, m) ← m.copyPageTables (i * 0x4000000) (nr * 0x4000000) initLimit
      if r ≠ 0 then do
        let m ← m.freePageTables (nr * 0x4000000) initLimit
        .ok (-1, setBase p nr, m)
      else .ok (0, setBase p nr, m)) := by
  rw [copyMem, hcode, hdata, if_neg (by simp), if_neg (lt_irrefl _)]
  simp only [slotSegment_base, slotSegment_limit, slotBase]

/-- `copy_mem` stops at a page table that is there, or it keeps the invariant and
    the pages of the other slots. It fails only if there is no memory. -/
theorem copyMem_cases {ext : Nat → Nat} (h : m.Inv lo hi ext) {current : Task}
    (hcode : current.code = slotSegment i) (hdata : current.data = slotSegment i) (hnr : nr ≠ 0)
    (hne : i ≠ nr) (p : Task) :
    (copyMem m current nr p = .error .alreadyExists ∧
      ∃ d : Nat, d / 16 = nr.1 ∧ Present (m.pde d)) ∨
    ∃ r m', copyMem m current nr p = .ok (r, setBase p nr, m') ∧ m'.Inv lo hi ext ∧
      Mm.SamePages (OffSlots i nr) m m' ∧ (r ≠ 0 → m.freeFrames ≤ 1) ∧
      (r = 0 → CopiedSlot i nr m m') := by
  have hone : (initLimit + 0x3fffff) / 2 ^ 22 = 1 := rfl
  have hnr1 : 1 ≤ nr.1 := Slot.pos hnr
  have hne' : i.1 ≠ nr.1 := fun heq => hne (Fin.ext heq)
  have hstart := copyMem_eq m nr hcode hdata p
  rcases h.copyPageTables i.2 hnr1 nr.2 hne' (show initLimit ≤ 0x4000000 by decide)
    (fun _ => by decide) with ⟨herr, d, h₁, h₂, hp⟩ |
      ⟨r, m₁, hcopy, hinv, hgrow, hdirs, hwalk, hfree, hfail, hcopied⟩
  · -- a page table is there: the panic of `copy_page_tables`
    refine .inl ⟨?_, d, ?_, hp⟩
    · rw [hstart, herr]
      rfl
    · rw [hone] at h₂
      omega
  · have hsame : Mm.SamePages (OffSlots i nr) m m₁ :=
      hinv.samePages_of_grows hgrow fun d n hu hS => hwalk d n hu hS.1 hS.2
    rw [hone] at hdirs hfree
    rw [hcopy] at hstart
    -- a copy that failed is taken back by `free_page_tables`
    by_cases hr : r = 0
    · refine .inr ⟨0, m₁, ?_, hinv, hsame, fun h0 => absurd rfl h0, fun _ => ⟨fun d hd hdn => ?_,
        hfree, fun h0 n hn => ?_⟩⟩
      · rw [hstart]
        exact if_neg (not_not.2 hr)
      · exact hdirs d hd (by omega)
      · have hcopied := hcopied hr
        rw [if_pos h0] at hcopied
        exact hcopied n hn
    · obtain ⟨m₂, hok, hinv', -, hsame'⟩ :=
        hinv.freePageTables hnr1 nr.2 (show initLimit ≤ 0x4000000 by decide)
      refine .inr ⟨-1, m₂, ?_, hinv', hsame.trans (hsame'.mono fun d n hS hd => hS.2 ?_),
        fun _ => ?_, fun h0 => absurd h0 (by decide)⟩
      · rw [hstart]
        change (if r ≠ 0 then _ else _) = _
        rw [if_pos hr, hok]
        rfl
      · rw [hone] at hd
        omega
      · have := hfail hr
        omega

theorem emptySlot_some (h : k.emptySlot = some nr) : nr ≠ 0 ∧ k.task nr = none := by
  refine ⟨fun h0 => ?_,
    Option.isNone_iff_eq_none.1 (List.find?_some (p := fun i => (k.task i).isNone) h)⟩
  have hmem := List.mem_of_find?_eq_some h
  rw [h0] at hmem
  exact absurd hmem (by decide)

theorem emptySlot_ne_none (hj : j ≠ 0) (hnone : k.task j = none) : k.emptySlot ≠ none := by
  intro h
  have hmem : j ∈ (List.finRange 64).tail := by
    rw [List.finRange_succ, List.tail_cons, List.mem_map]
    exact ⟨j.pred hj, List.mem_finRange _, Fin.succ_pred j hj⟩
  exact List.find?_eq_none.1 h j hmem (by rw [hnone]; rfl)

/-- The child that `copy_process` leaves in the slot `nr`, with its page in the
    frame `f`. -/
def spawned (k : Kernel) (current : Task) (nr : Slot) (f : Nat) (r : Regs) : Task :=
  { setBase (childTask current nr (4096 * f) k.lastPid k.jiffies r) nr with state := .running }

theorem setTask_empty (h : k.task j = none) : k.setTask j none = k := by
  rw [setTask, ← h, Function.update_eq_self]

/-- `copy_process` with a page for the task. -/
theorem copyProcess_eq (current : Task) (nr : Slot) (hge : 256 ≤ f)
    (hfree : k.mm.getFreePage = (4096 * f, k.mm.alloc f)) (r : Regs) :
    k.copyProcess current nr r = (do
      let (err, child, m) ← copyMem (k.mm.alloc f) current nr
        (childTask current nr (4096 * f) k.lastPid k.jiffies r)
      if err ≠ 0 then do
        let m ← m.freePage (4096 * f)
        .ok (-1, { k with mm := m }.setTask nr none)
      else .ok (k.lastPid,
        { k with mm := m }.setTask nr (some { child with state := .running }))) := by
  rw [copyProcess, hfree]
  split
  · next heq =>
    have := congrArg Prod.fst heq
    omega
  · next heq =>
    obtain ⟨rfl, rfl⟩ := Prod.mk.inj heq
    rfl

/-- `copy_process` stops at a page table that is there, or it fails and leaves the
    tasks as they are, or it makes the child. -/
theorem Inv.copyProcess_cases (h : k.Inv lo hi) {current : Task} (hcur : k.task i = some current)
    (hnr : nr ≠ 0) (hempty : k.task nr = none) (r : Regs) :
    (k.copyProcess current nr r = .error .alreadyExists ∧
      ∃ d : Nat, d / 16 = nr.1 ∧ d < 1024 ∧ Present (k.mm.pde d)) ∨
    (∃ m, k.copyProcess current nr r = .ok (-1, { k with mm := m }) ∧ m.Inv lo hi k.taskRefs ∧
      Mm.SamePages (OffSlots i nr) k.mm m ∧ k.mm.freeFrames ≤ 2) ∨
    ∃ m m₁ f, k.copyProcess current nr r =
        .ok (k.lastPid, { k with mm := m }.setTask nr (some (k.spawned current nr f r))) ∧
      Inv lo hi ({ k with mm := m }.setTask nr (some (k.spawned current nr f r))) ∧
      Mm.SamePages (OffSlots i nr) k.mm m ∧ k.mm.freeFrames = m₁.freeFrames + 1 ∧
      (∀ d < 1024, m₁.pde d = k.mm.pde d) ∧ CopiedSlot i nr m₁ m := by
  have hne : i ≠ nr := by
    rintro rfl
    rw [hempty] at hcur
    cases hcur
  rcases Mm.getFreePage_cases k.mm with ⟨hnone, hzero⟩ | ⟨f, hge, hlt, h0, -, hfree⟩
  · -- no page for the task
    refine .inr (.inl ⟨k.mm, ?_, h.mm, .refl _ _, by omega⟩)
    rw [copyProcess, hnone]
    rfl
  · have halloc := h.mm.alloc hge hlt h0
    have hframes := Mm.freeFrames_alloc hge hlt h0
    have hpde : ∀ d < 1024, (k.mm.alloc f).pde d = k.mm.pde d := fun d hd => Mm.pde_alloc hd hge
    have hpages : Mm.SamePages (OffSlots i nr) k.mm (k.mm.alloc f) :=
      (h.mm.samePages_alloc hge hlt h0).mono fun _ _ _ => trivial
    have hstart := copyProcess_eq current nr hge hfree r
    rcases copyMem_cases halloc (h.code i _ hcur) (h.data i _ hcur) hnr hne
      (childTask current nr (4096 * f) k.lastPid k.jiffies r) with ⟨herr, d, hd, hp⟩ |
        ⟨err, m, hok, hinv, hsame, hfail, hcopied⟩
    · have hd' : d < 1024 := by omega
      refine .inl ⟨?_, d, hd, hd', hpde d hd' ▸ hp⟩
      rw [hstart, herr]
      rfl
    · rw [hok] at hstart
      by_cases hz : err = 0
      · -- the child takes over the frame that was held for it
        refine .inr (.inr ⟨m, k.mm.alloc f, f, ?_, ?_, hpages.trans hsame,
          hframes.symm, hpde, hcopied hz⟩)
        · rw [hstart]
          exact if_neg (not_not.2 hz)
        · refine h.addTask hnr hempty hge rfl ?_ ?_ hinv
          · rw [spawned, setBase, childTask, h.code i _ hcur]
            rfl
          · rw [spawned, setBase, childTask, h.data i _ hcur]
            rfl
      · -- the page of the task is freed, and the slot emptied again
        refine .inr (.inl ⟨m.decr f, ?_, hinv.release,
          (hpages.trans hsame).trans (Mm.samePages_decr _ _ _), ?_⟩)
        · rw [hstart]
          change (if err ≠ 0 then _ else _) = _
          rw [if_pos hz, hinv.freePage_held]
          change Except.ok ((-1 : Word), ({ k with mm := m.decr f } : Kernel).setTask nr none) = _
          rw [setTask_empty (show ({ k with mm := m.decr f } : Kernel).task nr = none from hempty)]
        · have := hfail hz
          omega

/-- `sys_fork` is `find_empty_process`, which only changes `last_pid`, and then
    `copy_process` into the slot found. -/
theorem sysFork_search {current : Task} {r : Regs} {x : Except Panic (Word × Kernel)}
    (h : k.sysFork current r = some x) :
    ∃ s, k.pidSearch = some s ∧
      ((k.emptySlot = none ∧ x = .ok (-1, { k with lastPid := s.pid })) ∨
        ∃ nr, k.emptySlot = some nr ∧
          x = ({ k with lastPid := s.pid } : Kernel).copyProcess current nr r) := by
  obtain ⟨⟨slot, k₁⟩, hfind, hx⟩ := Option.map_eq_some_iff.1 h
  obtain ⟨s, hsearch, hs⟩ := Option.map_eq_some_iff.1 hfind
  obtain ⟨rfl, rfl⟩ := Prod.mk.inj hs
  refine ⟨s, hsearch, ?_⟩
  cases hslot : k.emptySlot with
  | none =>
    rw [hslot] at hx
    exact .inl ⟨rfl, hx.symm⟩
  | some nr =>
    rw [hslot] at hx
    exact .inr ⟨nr, rfl, hx.symm⟩

/-- The slot that a fork takes is an empty one; it fails if there is none. -/
theorem sysFork_cases {current : Task} {r : Regs} {x : Except Panic (Word × Kernel)}
    (h : k.sysFork current r = some x) :
    ∃ pid, (x = .ok (-1, { k with lastPid := pid }) ∧ ∀ j, j ≠ 0 → k.task j ≠ none) ∨
      ∃ nr, nr ≠ 0 ∧ k.task nr = none ∧
        x = ({ k with lastPid := pid } : Kernel).copyProcess current nr r := by
  obtain ⟨s, -, ⟨hslot, hx⟩ | ⟨nr, hslot, hx⟩⟩ := sysFork_search h
  · exact ⟨s.pid, .inl ⟨hx, fun j hj hnone => absurd hslot (emptySlot_ne_none hj hnone)⟩⟩
  · obtain ⟨hnr, hnone⟩ := emptySlot_some hslot
    exact ⟨s.pid, .inr ⟨nr, hnr, hnone, hx⟩⟩

/-- A fork leaves the tasks, or adds a child in an empty slot. -/
theorem Inv.fork_tasks (h : k.Inv lo hi) {current : Task} (hcur : k.task i = some current)
    {r : Regs} {w : Word} (hx : k.sysFork current r = some (.ok (w, k'))) :
    (∀ j, k'.task j = k.task j) ∨ ∃ k₀ nr f, nr ≠ 0 ∧ k.task nr = none ∧
      ∀ j, k'.task j = if j = nr then some (spawned k₀ current nr f r) else k.task j := by
  obtain ⟨pid, ⟨heq, -⟩ | ⟨nr, hnr, hnone, heq⟩⟩ := sysFork_cases hx
  · obtain ⟨-, rfl⟩ := Prod.mk.inj (Except.ok.inj heq)
    exact .inl fun _ => rfl
  · have h' : Inv lo hi { k with lastPid := pid } := h.counters _ _
    rcases h'.copyProcess_cases hcur hnr hnone r with
      ⟨herr, -⟩ | ⟨m, hok, -⟩ | ⟨m, m₁, f, hok, -⟩
    · cases heq.trans herr
    · obtain ⟨-, rfl⟩ := Prod.mk.inj (Except.ok.inj (heq.trans hok))
      exact .inl fun _ => rfl
    · obtain ⟨-, rfl⟩ := Prod.mk.inj (Except.ok.inj (heq.trans hok))
      exact .inr ⟨_, nr, f, hnr, hnone, fun j => task_setTask _⟩

/-! ## Exits -/

/-- `do_exit` of a task in the slots 1 to 63 succeeds. It frees the pages of the
    slot, and keeps the `φ` of the tasks, but for the task itself if that is
    released. -/
theorem Inv.doExit_ok {β : Type*} {φ : Task → β} (hsig : ∀ t s, φ { t with signal := s } = φ t)
    (hfather : ∀ t x, φ { t with father := x } = φ t)
    (hzombie : ∀ t c, φ { t with state := .zombie, exitCode := c } = φ t) (h : k.Inv lo hi)
    (hi0 : i ≠ 0) (ht : k.task i = some t) (code : Word) :
    ∃ k', k.doExit i t code = .ok k' ∧ k'.Inv lo hi ∧
      Mm.SamePages (Mm.OffSlot i) k.mm k'.mm ∧
      (∀ d < 1024, Present (k'.mm.pde d) ↔ Present (k.mm.pde d) ∧ d ≠ 16 * i) ∧
      k'.lastPid = k.lastPid ∧
      ∀ j, (k'.task j).map φ = (k.task j).map φ ∨ j = i ∧ k'.task j = none := by
  have hi1 : 1 ≤ i.1 := Slot.pos hi0
  have hone : (initLimit + 0x3fffff) / 2 ^ 22 = 1 := rfl
  -- the code and the data segment are the same, so nothing is left for the second call
  obtain ⟨m₁, hok₁, hinv₁, hpde₁, hsame₁⟩ :=
    h.mm.freePageTables hi1 i.2 (show initLimit ≤ 0x4000000 by decide)
  obtain ⟨m₂, hok₂, hinv₂, hpde₂, hsame₂⟩ :=
    hinv₁.freePageTables hi1 i.2 (show initLimit ≤ 0x4000000 by decide)
  rw [hone] at hpde₁ hpde₂ hsame₁ hsame₂
  have hsame : Mm.SamePages (Mm.OffSlot i) k.mm m₂ :=
    (hsame₁.trans hsame₂).mono fun d _ hS hd => hS (by omega)
  have hpde : ∀ d < 1024, Present (m₂.pde d) ↔ Present (k.mm.pde d) ∧ d ≠ 16 * i := by
    intro d hd
    rw [hpde₂ d hd, hpde₁ d hd]
    constructor
    · rintro ⟨⟨hp, h₁⟩, -⟩
      exact ⟨hp, by omega⟩
    · rintro ⟨hp, hne⟩
      exact ⟨⟨hp, by omega⟩, by omega⟩
  have hstart : k.doExit i t code = finishExit { k with mm := m₂ } i t code := by
    rw [doExit, h.code i t ht, h.data i t ht]
    rw [slotSegment_base, slotSegment_limit, hok₁, Except.ok_bind, hok₂, Except.ok_bind]
  obtain ⟨k₁, hboth, hfin⟩ := finishExit_cases (φ := fun t => (t.place, φ t))
    (fun t s => Prod.ext rfl (hsig t s)) (fun t x => Prod.ext rfl (hfather t x))
    (fun t c => Prod.ext rfl (hzombie t c)) { k with mm := m₂ } i t code
  have htasks : SameTasks Task.place { k with mm := m₂ } k₁ := hboth.comp Prod.fst
  have hφ : SameTasks φ { k with mm := m₂ } k₁ := hboth.comp Prod.snd
  have hinv := (h.withMm hinv₂).of_sameTasks htasks
  rw [hstart]
  rcases hfin with hfin | hfin
  · exact ⟨k₁, hfin, hinv, htasks.mm ▸ hsame, htasks.mm ▸ hpde, hφ.lastPid,
      fun j => .inl (hφ.task j)⟩
  · -- there is no father to be told, and the task releases itself
    have hi' := htasks.task i
    rw [show ({ k with mm := m₂ } : Kernel).task i = some t from ht, Option.map_some] at hi'
    obtain ⟨t₁, ht₁, hplace⟩ := Option.map_eq_some_iff.1 hi'
    have hpage : t₁.page = t.page := congrArg Prod.fst hplace
    obtain ⟨f, -, hok, hinv'⟩ := hinv.release_eq hi0 ht₁
    rw [hfin, ← hpage, hok]
    refine ⟨_, rfl, hinv', htasks.mm ▸ hsame.trans (Mm.samePages_decr _ _ _), htasks.mm ▸ hpde,
      hφ.lastPid, fun j => ?_⟩
    change ((k₁.setTask i none).task j).map φ = _ ∨ j = i ∧ (k₁.setTask i none).task j = none
    rw [task_setTask]
    split_ifs with hj
    · exact .inr ⟨hj, rfl⟩
    · exact .inl (hφ.task j)

end Kernel

end NeuOs
