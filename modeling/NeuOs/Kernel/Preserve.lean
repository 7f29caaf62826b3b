import NeuOs.Kernel.Invariant

/-!
# Every action keeps the invariant

An action of the process in slot `i` either stops the kernel, but never because a
frame is freed twice, or it keeps the invariant and the pages of the tasks in the
other slots (`Keeps`). There is a lemma for each action, and `Inv.exec` puts them
together; `write_verify`, which belongs to no slot, is `Inv.writeVerify`. By
induction, the invariant holds in every reachable state (`Reachable.inv`).
-/

namespace NeuOs.Kernel

/-- The pages of the tasks in other slots than `i`. -/
def OtherTasks (k : Kernel) (i : Slot) (d _n : Nat) : Prop :=
  ∀ j : Slot, d / 16 = j → j ≠ i ∧ k.task j ≠ none

/-- What an action of the process in the slot `i` may lead to. -/
def Keeps (lo hi : Nat) (k : Kernel) (i : Slot) : Except Panic Kernel → Prop
  | .ok k' => k'.Inv lo hi ∧ Mm.SamePages (k.OtherTasks i) k.mm k'.mm
  | .error p => p ≠ .freeFreePage

variable {β : Type*} {lo hi : Nat} {k k' : Kernel} {i j nr : Slot} {t : Task} {m m' : Mm}
  {f d n : Nat}

theorem OtherTasks.offSlot (hd : d < 1024) (h : k.OtherTasks i d n) : Mm.OffSlot i d n :=
  fun heq => (h ⟨d / 16, Nat.div_lt_of_lt_mul (show d < 16 * 64 from hd)⟩ rfl).1 (Fin.ext heq)

theorem OtherTasks.offSlots (hd : d < 1024) (hempty : k.task nr = none) (h : k.OtherTasks i d n) :
    OffSlots i nr d n :=
  ⟨h.offSlot hd, fun heq => (h nr heq).2 hempty⟩

theorem samePages_otherTasks {S : Nat → Nat → Prop} (h : Mm.SamePages S m m')
    (hS : ∀ d n, d < 1024 → k.OtherTasks i d n → S d n) : Mm.SamePages (k.OtherTasks i) m m' :=
  fun d n hu ho => h d n hu (hS d n hu.1.2 ho)

theorem slotSegment_user (hi0 : i ≠ 0) : Mm.UserSegment i (slotSegment i) :=
  ⟨Slot.pos hi0, i.2, rfl,
    show initLimit ≤ 0x4000000 by decide⟩

theorem slotSegment_limit_le (i : Slot) :
    (slotSegment i).base + (slotSegment i).limit ≤ 2 ^ 32 := by
  have := i.2
  rw [slotSegment_base, slotSegment_limit, initLimit]
  omega

theorem fsError_ne {p : Panic} (h : Mm.FsError p) : p ≠ .freeFreePage := by
  rcases h with rfl | rfl <;> decide

/-! ## Changes of the memory, or of the tasks -/

/-- An action that only changes memory, and leaves the pages of the other slots. -/
theorem Inv.keeps_withMm (h : k.Inv lo hi) {x : Except Panic Mm}
    (herr : ∀ p, x = .error p → p ≠ .freeFreePage)
    (hok : ∀ m, x = .ok m → m.Inv lo hi k.taskRefs ∧ Mm.SamePages (Mm.OffSlot i) k.mm m) :
    Keeps lo hi k i (k.withMm x) := by
  cases x with
  | error p => exact herr p rfl
  | ok m =>
    obtain ⟨hinv, hsame⟩ := hok m rfl
    exact ⟨h.withMm hinv, samePages_otherTasks hsame fun d n hd => OtherTasks.offSlot hd⟩

/-- An action that leaves the tasks in their places, after a change of memory. -/
theorem Inv.keeps_sameTasks (h : k.Inv lo hi) (hinv : m.Inv lo hi k.taskRefs)
    (hsame : Mm.SamePages (Mm.OffSlot i) k.mm m)
    (htasks : SameTasks Task.place { k with mm := m } k') : Keeps lo hi k i (.ok k') := by
  refine ⟨(h.withMm hinv).of_sameTasks htasks, ?_⟩
  rw [htasks.mm]
  exact samePages_otherTasks hsame fun d n hd => OtherTasks.offSlot hd

/-! ## The actions -/

theorem Inv.keeps_fork (h : k.Inv lo hi) (ht : k.task i = some t) {r : Regs}
    {x : Except Panic (Word × Kernel)} (hx : k.sysFork t r = some x) :
    Keeps lo hi k i (x.map (·.2)) := by
  obtain ⟨pid, ⟨rfl, -⟩ | ⟨nr, hnr, hnone, rfl⟩⟩ := sysFork_cases hx
  · exact ⟨h.counters _ _, .refl _ _⟩
  · have h' : Inv lo hi { k with lastPid := pid } := h.counters _ _
    rcases h'.copyProcess_cases ht hnr hnone r with
      ⟨herr, -⟩ | ⟨m, hok, hinv, hsame, -⟩ | ⟨m, m₁, f, hok, hinv, hsame, -⟩
    · rw [herr]
      exact show Panic.alreadyExists ≠ .freeFreePage by decide
    · rw [hok]
      exact ⟨h'.withMm hinv, samePages_otherTasks hsame fun d n hd => OtherTasks.offSlots hd hnone⟩
    · rw [hok]
      exact ⟨hinv, samePages_otherTasks hsame fun d n hd => OtherTasks.offSlots hd hnone⟩

/-- The task 0 has no pages that can be freed. -/
theorem Inv.exit_zero (h : k.Inv lo hi) (hi0 : i = 0) (ht : k.task i = some t) (errorCode : Word) :
    k.sysExit i t errorCode = .error .freeSwapper := by
  have hswap : k.mm.freePageTables 0 initLimit = .error .freeSwapper := by
    rw [Mm.freePageTables, if_neg (by decide), if_pos rfl]
  rw [sysExit, doExit, h.code i t ht, slotSegment_base, slotSegment_limit, hi0, Fin.val_zero,
    Nat.zero_mul, hswap]
  rfl

theorem Inv.keeps_exit (h : k.Inv lo hi) (ht : k.task i = some t) (errorCode : Word) :
    Keeps lo hi k i (k.sysExit i t errorCode) := by
  by_cases hi0 : i = 0
  · rw [h.exit_zero hi0 ht]
    exact show Panic.freeSwapper ≠ .freeFreePage by decide
  · rw [sysExit]
    obtain ⟨k', hok, hinv, hsame, -⟩ := h.doExit_ok (φ := Task.place) (fun _ _ => rfl)
      (fun _ _ => rfl) (fun _ _ => rfl) hi0 ht ((errorCode &&& 0xff) <<< 8)
    rw [hok]
    exact ⟨hinv, samePages_otherTasks hsame fun d n hd => OtherTasks.offSlot hd⟩

theorem Inv.keeps_release (h : k.Inv lo hi) (hj : j ≠ 0) (ht : k.task j = some t) :
    Keeps lo hi k i (k.release t.page) := by
  obtain ⟨f, -, hok, hinv⟩ := h.release_eq hj ht
  rw [hok]
  exact ⟨hinv, Mm.samePages_decr _ _ _⟩

theorem Inv.keeps_fault (h : k.Inv lo hi) (hi0 : i ≠ 0) (ht : k.task i = some t) {off : Nat}
    (hoff : off < t.data.limit) (write : Bool) :
    Keeps lo hi k i (k.withMm (k.mm.touch (t.data.base + off) write)) := by
  rw [h.data i t ht] at hoff ⊢
  have hs := slotSegment_user hi0
  have ha := hs.userAddr hoff
  refine h.keeps_withMm (fun p hp => fsError_ne (.inl (Mm.touch_error ha.2 hp))) fun m hm => ?_
  rcases h.mm.touch ha.2 ha.page.1 write with ⟨herr, -⟩ | ⟨m', e, hok, hinv, hsame, -⟩
  · cases herr.symm.trans hm
  · obtain rfl := Except.ok.inj (hok.symm.trans hm)
    exact ⟨hinv, hs.samePages hoff hsame⟩

theorem Inv.keeps_store (h : k.Inv lo hi) (hi0 : i ≠ 0) (ht : k.task i = some t) {off : Nat}
    (hoff : off < t.data.limit) (b : Byte) :
    Keeps lo hi k i (k.withMm (k.mm.userStore (t.data.base + off) b)) := by
  rw [h.data i t ht] at hoff ⊢
  have hs := slotSegment_user hi0
  have ha := hs.userAddr hoff
  refine h.keeps_withMm (fun p hp => fsError_ne (.inl (Mm.userStore_error ha.2 hp))) fun m hm => ?_
  obtain ⟨hinv, hsame⟩ := h.mm.userStore ha hm
  exact ⟨hinv, hs.samePages hoff hsame⟩

theorem Inv.keeps_put (h : k.Inv lo hi) (hi0 : i ≠ 0) (ht : k.task i = some t) (addr : Word)
    {bytes : List Byte} (hne : bytes ≠ []) :
    Keeps lo hi k i (k.withMm do
      let m ← k.mm.verifyArea t.data.base addr.toNat bytes.length
      Mm.putFsBytes t.data bytes addr m) := by
  rw [h.data i t ht]
  refine h.keeps_withMm (fun p hp => ?_) fun m hm => ?_
  · rcases Except.bind_eq_error.1 hp with hp | ⟨m₁, -, hp⟩
    · exact fsError_ne (.inl (Mm.verifyArea_error hp))
    · exact fsError_ne (Mm.putFsBytes_error (slotSegment_limit_le i) hp)
  · obtain ⟨m₁, hverify, hput⟩ := Except.bind_eq_ok.1 hm
    exact h.mm.verifyArea_putFsBytes (slotSegment_user hi0) hne hverify hput

theorem Inv.keeps_taskWord (h : k.Inv lo hi) (hi0 : i ≠ 0) (ht : k.task i = some t) {w : Nat}
    (hw : w < 1024) (v : Word) :
    Keeps lo hi k i (.ok { k with mm := k.mm.store (t.page + 4 * w) v }) := by
  obtain ⟨f, hge, hf⟩ := h.page i t hi0 ht
  obtain ⟨hpte, hpde, -⟩ := h.mm.held_refs (taskRefs_pos hi0 ht hf)
  have hphys : ∀ x, x / 1024 ≠ f → (k.mm.store (t.page + 4 * w) v).phys x = k.mm.phys x := by
    intro x hx
    rw [Mm.phys_store, if_neg (by omega)]
  obtain ⟨hinv, hwalk⟩ := h.mm.changeFrame hge hpde hphys
  refine h.keeps_sameTasks hinv (fun d n hu _ => ⟨hwalk d n hu, fun e he _ x hx => hphys _ ?_⟩)
    (.refl _ _)
  -- No page maps the frame of a task.
  intro heq
  have hframe : frameOf e = f := by omega
  exact Mm.pteRefs_eq_zero.1 hpte d n hu (hframe ▸ Mm.maps_of_walk he)

theorem Inv.keeps_task (h : k.Inv lo hi) (htasks : SameTasks Task.place k k') :
    Keeps lo hi k i (.ok k') :=
  h.keeps_sameTasks h.mm (.refl _ _) htasks

/-- The task 0 reads memory that causes no page faults. -/
theorem getFsBytes_kernel {ext : Nat → Nat} {n : Nat} {addr : Word} {bs : List Byte}
    (h : m.Inv lo hi ext) (hok : Mm.getFsBytes (slotSegment 0) n addr m = .ok (bs, m')) :
    m' = m := by
  induction n generalizing addr bs with
  | zero => exact (Prod.mk.inj (Except.ok.inj hok)).2.symm
  | succ n ih =>
    obtain ⟨⟨b, m₁⟩, hget, hok⟩ := Except.bind_eq_ok.1 hok
    obtain ⟨⟨bs', m₂⟩, hrest, hok⟩ := Except.bind_eq_ok.1 hok
    obtain ⟨-, rfl⟩ := Prod.mk.inj (Except.ok.inj hok)
    rw [Mm.getFsByte] at hget
    split_ifs at hget with hlim
    have hlim' : addr.toNat < initLimit := not_le.1 hlim
    rw [slotSegment_base, Fin.val_zero, Nat.zero_mul, Nat.zero_add,
      h.touch_kernel (by rw [initLimit] at hlim'; omega) false] at hget
    obtain ⟨-, rfl⟩ := Prod.mk.inj (Except.ok.inj hget)
    exact ih hrest

theorem saveOld_error {s : Segment} {old : Sigaction} {addr : Word} {p : Panic}
    (hs : s.base + s.limit ≤ 2 ^ 32) (h : saveOld m s old addr = .error p) : Mm.FsError p := by
  rcases Except.bind_eq_error.1 h with h | ⟨m₁, -, h⟩
  · exact .inl (Mm.verifyArea_error h)
  · exact Mm.putFsBytes_error hs h

theorem getNew_error {s : Segment} {addr : Word} {p : Panic} (hs : s.base + s.limit ≤ 2 ^ 32)
    (h : getNew m s addr = .error p) : Mm.FsError p := by
  rcases Except.bind_eq_error.1 h with h | ⟨_, -, h⟩
  · exact Mm.getFsBytes_error hs h
  · cases h

theorem Inv.getNew_keeps (h : k.Inv lo hi) {action : Word} {new : Sigaction}
    (hok : getNew k.mm (slotSegment i) action = .ok (new, m)) :
    m.Inv lo hi k.taskRefs ∧ Mm.SamePages (Mm.OffSlot i) k.mm m := by
  obtain ⟨⟨bs, m'⟩, hget, heq⟩ := Except.bind_eq_ok.1 hok
  obtain ⟨-, rfl⟩ := Prod.mk.inj (Except.ok.inj heq)
  by_cases hi0 : i = 0
  · rw [hi0] at hget
    obtain rfl := getFsBytes_kernel h.mm hget
    exact ⟨h.mm, .refl _ _⟩
  · exact h.mm.getFsBytes (slotSegment_user hi0) hget

theorem Inv.keeps_sigaction (h : k.Inv lo hi) (ht : k.task i = some t) (signum : Int)
    (action : Word) {oldAction : Word} (hold : i = 0 → oldAction = 0) :
    Keeps lo hi k i ((k.sysSigaction i t signum action oldAction).map (·.2)) := by
  rw [sysSigaction, h.data i t ht]
  split_ifs with href hz
  · exact h.keeps_task (.refl _ _)
  all_goals
    cases hnew : getNew k.mm (slotSegment i) action with
    | error p => exact fsError_ne (getNew_error (slotSegment_limit_le i) hnew)
    | ok x => _
    obtain ⟨new, m₁⟩ := x
    obtain ⟨hinv₁, hsame₁⟩ := h.getNew_keeps hnew
    rw [Except.ok_bind]
    dsimp only
  · cases hsave : saveOld m₁ (slotSegment i) (t.action signum.toNat) oldAction with
    | error p => exact fsError_ne (saveOld_error (slotSegment_limit_le i) hsave)
    | ok m₂ =>
      obtain ⟨m₃, hverify, hput⟩ := Except.bind_eq_ok.1 hsave
      -- the task 0 asks for no old action
      have hs := slotSegment_user fun hi0 => hz (hold hi0)
      obtain ⟨hinv, hsame⟩ := hinv₁.verifyArea_putFsBytes hs
        (List.ne_nil_of_length_pos (by rw [Sigaction.length_bytes]; omega)) hverify hput
      exact h.keeps_sameTasks hinv (hsame₁.trans hsame)
        (.setTask (k := { k with mm := m₂ }) ht rfl)
  · exact h.keeps_sameTasks hinv₁ hsame₁ (.setTask (k := { k with mm := m₁ }) ht rfl)

theorem Inv.keeps_deliver (h : k.Inv lo hi) (ht : k.task i = some t) (r : Regs) :
    Keeps lo hi k i ((k.deliver i t r).map (·.2)) := by
  rw [deliver]
  cases hnext : nextSignal i t r with
  | none => exact h.keeps_task (.refl _ _)
  | some signr =>
    have hi0 := nextSignal_ne_zero hnext
    dsimp only
    cases hsig : (t.take signr).doSignal signr r with
    | none => exact h.keeps_task (.setTask ht rfl)
    | some x =>
      obtain ⟨t', r', longs⟩ := x
      obtain ⟨ht', -, hlongs⟩ := Task.doSignal_some hsig
      have hplace : t'.place = t.place := by
        rw [ht']
        rfl
      have hlen : 4 * longs.length = (longs.flatMap bytesOf).length :=
        (length_flatMap_bytesOf longs).symm
      have hdata : (t.take signr).data = slotSegment i := h.data i t ht
      dsimp only
      rw [hdata, hlen]
      cases hverify : k.mm.verifyArea (slotSegment i).base r'.esp.toNat
          (longs.flatMap bytesOf).length with
      | error p => exact fsError_ne (.inl (Mm.verifyArea_error hverify))
      | ok m₁ =>
        rw [Except.ok_bind]
        cases hput : Mm.putFsLongs (slotSegment i) longs r'.esp m₁ with
        | error p => exact fsError_ne (Mm.putFsLongs_error (slotSegment_limit_le i) hput)
        | ok m₂ =>
          have hne : longs.flatMap bytesOf ≠ [] := by
            refine List.ne_nil_of_length_pos ?_
            rw [← hlen, hlongs, Task.signalFrame]
            simp
          obtain ⟨hinv, hsame⟩ := h.mm.verifyArea_putFsBytes (slotSegment_user hi0) hne hverify
            (Mm.putFsBytes_of_longs hput)
          exact h.keeps_sameTasks hinv hsame (.setTask (k := { k with mm := m₂ }) ht hplace)

/-! ## Every action, and every run -/

/-- An action of the process in the slot `i`. -/
theorem Inv.exec (h : k.Inv lo hi) {a : Action} (ha : k.Enabled a) (hslot : a.slot = some i)
    {x : Except Panic Kernel} (hx : k.exec a = some x) : Keeps lo hi k i x := by
  obtain ⟨t, ht, -⟩ := ha.1 i hslot
  have hallow := ha.2
  cases a with
  | writeVerify a => cases hslot
  | tick => cases hslot
  | fork i' r =>
    obtain rfl := Option.some.inj hslot
    simp only [Kernel.exec, ht, Option.bind_some] at hx
    obtain ⟨y, hy, rfl⟩ := Option.map_eq_some_iff.1 hx
    exact h.keeps_fork ht hy
  | release i' j =>
    obtain ⟨hj, hne⟩ := hallow
    obtain ⟨u, hu⟩ := Option.ne_none_iff_exists'.1 hne
    simp only [Kernel.exec, hu, Option.map_some, Option.some.injEq] at hx
    exact hx ▸ h.keeps_release hj hu
  | _ =>
    obtain rfl := Option.some.inj hslot
    simp only [Kernel.exec, ht, Option.map_some, Option.some.injEq] at hx
    subst hx
    first
    | exact h.keeps_exit ht _
    | exact h.keeps_fault hallow.1 ht (hallow.2 t ht) _
    | exact h.keeps_store hallow.1 ht (hallow.2 t ht) _
    | exact h.keeps_put hallow.1 ht _ hallow.2
    | exact h.keeps_taskWord hallow.1 ht hallow.2 _
    | exact h.keeps_task (sameTasks_sysKill (fun _ _ => rfl) _ _)
    | exact h.keeps_task (sameTasks_sysSsetmask ht (fun _ _ => rfl) _)
    | exact h.keeps_task (sameTasks_sysSignal ht (fun _ _ => rfl) _ _ _)
    | exact h.keeps_sigaction ht _ _ hallow
    | exact h.keeps_deliver ht _

/-- An action of no process: `write_verify`, which may only change the page of its
    address, or a tick. -/
theorem Inv.exec_none (h : k.Inv lo hi) {a : Action} (ha : k.Enabled a) (hslot : a.slot = none)
    {x : Except Panic Kernel} (hx : k.exec a = some x) :
    (∀ k', x = .ok k' → k'.Inv lo hi) ∧ x ≠ .error .freeFreePage := by
  have hallow := ha.2
  cases a with
  | writeVerify a =>
    obtain rfl := Option.some.inj hx
    rcases h.mm.writeVerify hallow with ⟨herr, -⟩ | ⟨m, hok, hinv, -⟩
    · rw [herr]
      exact ⟨nofun, nofun⟩
    · rw [hok]
      exact ⟨fun k' hk => Except.ok.inj hk ▸ h.withMm hinv, nofun⟩
  | tick =>
    obtain rfl := Option.some.inj hx
    exact ⟨fun k' hk => Except.ok.inj hk ▸ h.counters _ _, nofun⟩
  | _ => cases hslot

/-- A step keeps the invariant. -/
theorem Inv.step (h : k.Inv lo hi) {a : Action} (hst : Step k a k') : k'.Inv lo hi := by
  cases hslot : a.slot with
  | none => exact (h.exec_none hst.1 hslot hst.2).1 k' rfl
  | some i => exact (h.exec hst.1 hslot hst.2).1

/-- The tasks of `k'` are tasks of `k` with the same `φ`, in the same slots. -/
structure KeepsTasks (φ : Task → β) (k k' : Kernel) : Prop where
  lastPid : k'.lastPid = k.lastPid
  task : ∀ j, (k'.task j).map φ = (k.task j).map φ ∨ j ≠ 0 ∧ k'.task j = none

/-- The task before, of a task after. -/
theorem KeepsTasks.task_some {φ : Task → β} (h : KeepsTasks φ k k') {t' : Task}
    (ht : k'.task j = some t') : ∃ t, k.task j = some t ∧ φ t = φ t' := by
  rcases h.task j with hj | ⟨-, hj⟩
  · rw [ht, Option.map_some] at hj
    exact Option.map_eq_some_iff.1 hj.symm
  · rw [ht] at hj
    cases hj

theorem SameTasks.keepsTasks {φ : Task → β} (h : SameTasks φ { k with mm := m } k') :
    KeepsTasks φ k k' :=
  ⟨h.lastPid, fun j => .inl (h.task j)⟩

/-- A step that is no fork, and sets no actions and blocked signals of tasks. -/
theorem Inv.step_tasks {φ : Task → β} (hsig : ∀ t s, φ { t with signal := s } = φ t)
    (hfather : ∀ t x, φ { t with father := x } = φ t)
    (hzombie : ∀ t c, φ { t with state := .zombie, exitCode := c } = φ t) (h : k.Inv lo hi)
    {a : Action} (hst : Step k a k') (ha : a.Plain) : KeepsTasks φ k k' := by
  cases a with
  | fork => exact ha.elim
  | ssetmask => exact ha.elim
  | signal => exact ha.elim
  | sigaction => exact ha.elim
  | deliver => exact ha.elim
  | tick => exact hst.tick ▸ ⟨rfl, fun _ => .inl rfl⟩
  | release i j =>
    obtain ⟨u, hj, hu, hok'⟩ := hst.release
    obtain ⟨f, -, hok, -⟩ := h.release_eq hj hu
    obtain rfl := Except.ok.inj (hok.symm.trans hok')
    refine ⟨rfl, fun l => ?_⟩
    change ((k.setTask j none).task l).map φ = _ ∨ l ≠ 0 ∧ (k.setTask j none).task l = none
    rw [task_setTask]
    split_ifs with hl
    · exact .inr ⟨hl ▸ hj, rfl⟩
    · exact .inl rfl
  | exit i errorCode =>
    obtain ⟨t, ht, -, hx⟩ := hst.exit
    by_cases hi0 : i = 0
    · cases (h.exit_zero hi0 ht errorCode).symm.trans hx
    · obtain ⟨k₁, hok, -, -, -, hpid, htask⟩ := h.doExit_ok hsig hfather hzombie hi0 ht
        ((errorCode &&& 0xff) <<< 8)
      obtain rfl := Except.ok.inj (hok.symm.trans hx)
      exact ⟨hpid, fun j => (htask j).imp_right fun ⟨hj, hnone⟩ => ⟨hj ▸ hi0, hnone⟩⟩
  | kill i pid sig =>
    obtain ⟨t, -, -, rfl⟩ := hst.kill
    exact SameTasks.keepsTasks (m := k.mm) (sameTasks_sysKill hsig pid sig)
  | _ =>
    -- the other actions change memory only
    obtain ⟨m, rfl⟩ := hst.memory trivial
    exact ⟨rfl, fun _ => .inl rfl⟩

/-- The invariant holds at boot. -/
theorem Booted.inv (hlo : 256 ≤ lo) (hle : lo ≤ hi) (hhi : hi ≤ 4096) (h : Booted lo hi k) :
    k.Inv lo hi := by
  obtain ⟨m, page, hpage, rfl⟩ := h
  have htask : ∀ j, j ≠ 0 → (boot m (4096 * lo) (4096 * hi) page).task j = none := fun j hj =>
    if_neg hj
  have hzero : ∀ j t, (boot m (4096 * lo) (4096 * hi) page).task j = some t →
      j = 0 ∧ t = initTask page := by
    intro j t ht
    by_cases hj : j = 0
    · rw [hj] at ht
      exact ⟨hj, (Option.some.inj ht).symm⟩
    · rw [htask j hj] at ht
      cases ht
  -- no task has a page yet
  have hrefs : (boot m (4096 * lo) (4096 * hi) page).taskRefs = fun _ => 0 := by
    funext f
    refine Finset.card_filter_eq_zero.2 fun j _ hj => ?_
    rw [htask j hj.1] at hj
    exact absurd hj.2 (by simp)
  refine ⟨hrefs ▸ Mm.inv_memInit hlo hle hhi, ⟨_, rfl, hpage⟩, fun j t hj ht => ?_,
    fun j t ht => ?_, fun j t ht => ?_⟩
  · exact absurd (hzero j t ht).1 hj
  · obtain ⟨rfl, rfl⟩ := hzero j t ht
    rfl
  · obtain ⟨rfl, rfl⟩ := hzero j t ht
    rfl

/-- The kernel that `main` boots, from memory full of zeros, with `INIT_TASK` at
    the address 0x8000. -/
def mainKernel : Kernel := boot ⟨fun _ => 0, fun _ => 0, 0⟩ (4096 * 256) (4096 * 768) 0x8000

theorem mm_mainKernel : mainKernel.mm = Mm.mainMem := rfl

theorem booted_mainKernel : Booted 256 768 mainKernel := ⟨_, _, by decide, rfl⟩

theorem reachable_mainKernel : Reachable 256 768 mainKernel := .init booted_mainKernel

/-- The invariant holds in every reachable state. -/
theorem Reachable.inv (hlo : 256 ≤ lo) (hle : lo ≤ hi) (hhi : hi ≤ 4096)
    (h : Reachable lo hi k) : k.Inv lo hi :=
  h.invariant (fun _ hb => hb.inv hlo hle hhi) fun _ _ _ hk hst => hk.step hst

end NeuOs.Kernel
