import NeuOs.Kernel.Sched

/-!
# What `schedule` selects (kernel/sched.c)

The second loop of `schedule` ends in its second round at the latest, if the tasks have
positive priorities, and no counter is negative (`Kernel.Timed`). It selects a running task
with the largest counter, and of those the one in the highest slot, or the slot 0 if no
task in the other slots is running (`Kernel.Best`).

* `Kernel.scan_best`: one round of the loop.
* `Kernel.Timed.select_spec`: the loop, which gives new counters exactly if the running tasks
  have used up theirs (`Kernel.UsedUp`). Their new counters are their priorities.
* `Kernel.schedule_spec`: the whole function, and what it does not change.
-/

namespace NeuOs

/-- A task has a positive priority, and its counter is not negative. -/
def Task.Timed (t : Task) : Prop := 1 ≤ t.priority.toInt ∧ 0 ≤ t.counter.toInt

/-- A task without what `schedule` changes. -/
def Task.fixed (t : Task) : Task :=
  { t with counter := 0, alarm := 0, signal := 0, state := .running }

namespace Kernel

/-- All tasks in the slots 1 to 63 have a positive priority, and no counter is negative. -/
def Timed (k : Kernel) : Prop := ∀ j t, j ≠ 0 → k.task j = some t → t.Timed

/-- A task in the slots 1 to 63 is running. -/
def Runs (k : Kernel) (j : Slot) (t : Task) : Prop := j ≠ 0 ∧ k.task j = some t ∧ t.state = .running

/-- There are running tasks, and they all have used up their counters. -/
def UsedUp (k : Kernel) : Prop := (∃ j t, k.Runs j t) ∧ ∀ j t, k.Runs j t → t.counter = 0

/-- `next` is the running task with the largest counter, and of those the one in the highest
    slot; or it is 0, exactly if no task is running. -/
structure Best (k : Kernel) (next : Slot) : Prop where
  zero : next = 0 ↔ ∀ j t, ¬k.Runs j t
  best : next ≠ 0 → ∃ t, k.Runs next t ∧ ∀ j u, k.Runs j u →
    u.counter.toInt ≤ t.counter.toInt ∧ (u.counter = t.counter → j ≤ next)

variable {β : Type*} {k k' : Kernel} {j next : Slot} {t : Task}

/-- The loops over the slots keep what the function keeps. -/
theorem SameTasks.everyTask {φ : Task → β} {f : Task → Task} (hf : ∀ t, φ (f t) = φ t)
    (l : List Slot) (k : Kernel) : SameTasks φ k (k.everyTask f l) := by
  induction l generalizing k with
  | nil => exact .refl _ k
  | cons i l ih => exact (SameTasks.modifyTask hf).trans (ih _)

/-- The second loop of `schedule` keeps what does not depend on the counters. -/
theorem SameTasks.select {φ : Task → β} (hcounter : ∀ t c, φ { t with counter := c } = φ t)
    {fuel : Nat} {x : Kernel × Slot} (hx : k.select fuel = some x) : SameTasks φ k x.1 := by
  induction fuel generalizing k with
  | zero => cases hx
  | succ fuel ih =>
    rw [Kernel.select] at hx
    split_ifs at hx
    · exact Option.some.inj hx ▸ .refl _ k
    · exact (SameTasks.everyTask (f := Task.refill) (fun t => hcounter t _) _ k).trans (ih hx)

/-- `do_timer` changes the counter and the times of a task. -/
theorem SameTasks.doTimer {φ : Task → β} (hcounter : ∀ t c, φ { t with counter := c } = φ t)
    (hstime : ∀ t x, φ { t with stime := x } = φ t) (hutime : ∀ t x, φ { t with utime := x } = φ t)
    (k : Kernel) (current : Slot) (cpl : Word) : SameTasks φ k (k.doTimer current cpl).1 := by
  have htime : SameTasks φ k (k.modifyTask current fun t =>
      if cpl = 0 then { t with stime := t.stime + 1 } else { t with utime := t.utime + 1 }) :=
    .modifyTask fun t => by
      split_ifs
      · exact hstime t _
      · exact hutime t _
  have hless := htime.trans (.modifyTask (i := current) fun t => hcounter t (t.counter - 1))
  have hite : ∀ {c : Prop} [Decidable c] {x y : Kernel × Bool},
      SameTasks φ k x.1 → SameTasks φ k y.1 → SameTasks φ k (if c then x else y).1 := by
    intro c _ x y hx hy
    split_ifs
    · exact hx
    · exact hy
  rw [Kernel.doTimer]
  exact hite hless (hless.trans (.modifyTask fun t => hcounter t 0))

/-- And it leaves the other tasks, and the clock. -/
theorem task_doTimer {current : Slot} (hj : j ≠ current) (cpl : Word) :
    (k.doTimer current cpl).1.task j = k.task j := by
  rw [Kernel.doTimer]
  dsimp only
  split_ifs <;> simp only [task_modifyTask, if_neg hj]

theorem jiffies_doTimer (k : Kernel) (current : Slot) (cpl : Word) :
    (k.doTimer current cpl).1.jiffies = k.jiffies := by
  rw [Kernel.doTimer]
  dsimp only
  split_ifs <;> rfl

/-! ## One round -/

/-- The loop passes a slot, or takes its task, which is running and has a larger counter. -/
theorem scanTasks_cons (k : Kernel) (p : Slot) (l : List Slot) (c : Word) (next : Slot) :
    (k.scanTasks (p :: l) c next = k.scanTasks l c next ∧
      ∀ t, k.task p = some t → t.state = .running → t.counter.toInt ≤ c.toInt) ∨
    ∃ t, k.task p = some t ∧ t.state = .running ∧ c.toInt < t.counter.toInt ∧
      k.scanTasks (p :: l) c next = k.scanTasks l t.counter p := by
  rw [scanTasks]
  cases hp : k.task p with
  | none => exact .inl ⟨rfl, fun t ht => by cases ht⟩
  | some u =>
    dsimp only
    split_ifs with hbest
    · exact .inr ⟨u, rfl, hbest.1, BitVec.slt_iff_toInt_lt.1 hbest.2, rfl⟩
    · refine .inl ⟨rfl, fun t ht hr => ?_⟩
      obtain rfl := Option.some.inj ht
      exact not_lt.1 fun hlt => hbest ⟨hr, BitVec.slt_iff_toInt_lt.2 hlt⟩

/-- The loop finds the largest counter of the running tasks. -/
theorem scanTasks_spec (k : Kernel) (l : List Slot) (c : Word) (next : Slot) :
    c.toInt ≤ (k.scanTasks l c next).1.toInt ∧
    (∀ i ∈ l, ∀ t, k.task i = some t → t.state = .running →
      t.counter.toInt ≤ (k.scanTasks l c next).1.toInt) ∧
    ((k.scanTasks l c next).1 = c ∨ ∃ i ∈ l, ∃ t, k.task i = some t ∧ t.state = .running ∧
      t.counter = (k.scanTasks l c next).1) := by
  induction l generalizing c next with
  | nil => exact ⟨le_rfl, fun i hi => absurd hi List.not_mem_nil, .inl rfl⟩
  | cons p l ih =>
    rcases scanTasks_cons k p l c next with ⟨heq, hp⟩ | ⟨u, hp, hr, hlt, heq⟩
    · -- the slot is passed
      obtain ⟨hge, hall, hfound⟩ := ih c next
      rw [heq]
      refine ⟨hge, fun i hi t ht hr => ?_, hfound.imp_right fun ⟨i, hi, t, ht⟩ =>
        ⟨i, List.mem_cons_of_mem _ hi, t, ht⟩⟩
      rcases List.mem_cons.1 hi with rfl | hi
      · exact (hp t ht hr).trans hge
      · exact hall i hi t ht hr
    · -- its task is taken
      obtain ⟨hge, hall, hfound⟩ := ih u.counter p
      rw [heq]
      refine ⟨hlt.le.trans hge, fun i hi t ht hrun => ?_, .inr ?_⟩
      · rcases List.mem_cons.1 hi with rfl | hi
        · rwa [← Option.some.inj (hp.symm.trans ht)]
        · exact hall i hi t ht hrun
      · rcases hfound with heq' | ⟨i, hi, t, ht⟩
        · exact ⟨p, List.mem_cons_self, u, hp, hr, heq'.symm⟩
        · exact ⟨i, List.mem_cons_of_mem _ hi, t, ht⟩

/-- Of the running tasks with the largest counter, the loop finds the one in the highest slot,
    which it comes to first. -/
theorem scanTasks_highest (k : Kernel) {l : List Slot} (hl : l.Pairwise (· > ·)) (c : Word)
    (next : Slot) : k.scanTasks l c next = (c, next) ∨
      ∃ i ∈ l, ∃ t, k.task i = some t ∧ t.state = .running ∧
        k.scanTasks l c next = (t.counter, i) ∧ c.toInt < t.counter.toInt ∧
        ∀ j ∈ l, ∀ u, k.task j = some u → u.state = .running → u.counter = t.counter → j ≤ i := by
  induction l generalizing c next with
  | nil => exact .inl rfl
  | cons p l ih =>
    obtain ⟨hbelow, hl⟩ := List.pairwise_cons.1 hl
    rcases scanTasks_cons k p l c next with ⟨heq, hp⟩ | ⟨v, hp, hr, hlt, heq⟩
    · rw [heq]
      refine (ih hl c next).imp_right ?_
      rintro ⟨i, hi, t, ht, hr, hscan, hlt, hhigh⟩
      refine ⟨i, List.mem_cons_of_mem p hi, t, ht, hr, hscan, hlt, fun j hj u hu hur hcount => ?_⟩
      rcases List.mem_cons.1 hj with rfl | hj
      · -- a slot that is passed does not have a larger counter
        have hle := hp u hu hur
        rw [hcount] at hle
        exact absurd hlt (not_lt.2 hle)
      · exact hhigh j hj u hu hur hcount
    · rw [heq]
      refine .inr ?_
      rcases ih hl v.counter p with hscan | ⟨i, hi, t, ht, hrun, hscan, hlt', hhigh⟩
      · refine ⟨p, List.mem_cons_self, v, hp, hr, hscan, hlt, fun j hj u _ _ _ => ?_⟩
        rcases List.mem_cons.1 hj with rfl | hj
        · exact le_refl j
        · exact (hbelow j hj).le
      · refine ⟨i, List.mem_cons_of_mem p hi, t, ht, hrun, hscan, hlt.trans hlt',
          fun j hj u hu hur hcount => ?_⟩
        rcases List.mem_cons.1 hj with rfl | hj
        · -- a task with a larger counter has been found after this one
          obtain rfl := Option.some.inj (hp.symm.trans hu)
          rw [hcount] at hlt'
          exact absurd hlt' (lt_irrefl _)
        · exact hhigh j hj u hu hur hcount

theorem pairwise_userSlots : userSlots.Pairwise (· > ·) := by decide

/-- One round of the second loop finds the task to run. -/
theorem scan_best (h : ∀ j t, k.Runs j t → 0 ≤ t.counter.toInt) : k.Best k.scan.2 ∧
    (k.scan.1 = 0 ↔ k.UsedUp) := by
  obtain ⟨-, hall, -⟩ := scanTasks_spec k userSlots (-1) 0
  have hle : ∀ j t, k.Runs j t → t.counter.toInt ≤ k.scan.1.toInt := fun j t hj =>
    hall j (mem_userSlots.2 hj.1) t hj.2.1 hj.2.2
  have hneg : (-1 : Word).toInt = -1 := rfl
  rcases scanTasks_highest k pairwise_userSlots (-1) 0 with heq | ⟨i, hi, t, ht, hr, heq, -, hhigh⟩
  · -- no task is running
    rw [← scan] at heq
    rw [heq] at hle ⊢
    have hnone : ∀ j t, ¬k.Runs j t := fun j t hj => by
      have h0 := h j t hj
      have h1 : t.counter.toInt ≤ (-1 : Word).toInt := hle j t hj
      omega
    refine ⟨⟨iff_of_true rfl hnone, fun hne => absurd rfl hne⟩, iff_of_false (by decide) ?_⟩
    rintro ⟨⟨j, t, hj⟩, -⟩
    exact hnone j t hj
  · rw [← scan] at heq
    rw [heq] at hle ⊢
    have hrun : k.Runs i t := ⟨mem_userSlots.1 hi, ht, hr⟩
    refine ⟨⟨iff_of_false hrun.1 fun hnone => hnone i t hrun, fun _ => ⟨t, hrun, fun j u hj =>
      ⟨hle j u hj, hhigh j (mem_userSlots.2 hj.1) u hj.2.1 hj.2.2⟩⟩⟩, ?_⟩
    constructor
    · intro hz
      refine ⟨⟨i, t, hrun⟩, fun j u hj => BitVec.eq_of_toInt_eq ?_⟩
      have h0 := h j u hj
      have h1 := hle j u hj
      dsimp only at hz
      rw [hz] at h1
      exact le_antisymm h1 h0
    · exact fun hused => hused.2 i t hrun

/-! ## The second loop -/

theorem Timed.nonneg (h : k.Timed) (j : Slot) (t : Task) (hj : k.Runs j t) : 0 ≤ t.counter.toInt :=
  (h j t hj.1 hj.2.1).2

theorem Timed.scan_eq_zero (h : k.Timed) (hz : k.scan.1 = 0) : (∃ j t, k.Runs j t) ∧
    ∀ j t, k.Runs j t → t.counter = 0 := (scan_best h.nonneg).2.1 hz

/-- The running tasks have their priorities as new counters if they have used up the old ones. -/
theorem runs_refill (hused : k.UsedUp) {t' : Task} (ht : k.refill.Runs j t') :
    ∃ t, k.Runs j t ∧ t' = t.refill ∧ t'.counter = t.priority := by
  obtain ⟨hj, ht, hr⟩ := ht
  rw [task_refill hj] at ht
  obtain ⟨t, ht', rfl⟩ := Option.map_eq_some_iff.1 ht
  have hrun : k.Runs j t := ⟨hj, ht', hr⟩
  refine ⟨t, hrun, rfl, ?_⟩
  rw [Task.refill, hused.2 j t hrun]
  exact BitVec.zero_add _

/-- A task that the second loop selects is running. -/
theorem select_running {fuel : Nat} (hnext : next ≠ 0) (h : k.select fuel = some (k', next)) :
    ∃ t, k'.task next = some t ∧ t.state = .running := by
  induction fuel generalizing k with
  | zero => cases h
  | succ fuel ih =>
    rw [select] at h
    split_ifs at h with hz
    · obtain ⟨rfl, hscan⟩ := Prod.mk.inj (Option.some.inj h)
      rcases scanTasks_highest k pairwise_userSlots (-1) 0 with heq | ⟨i, -, t, ht, hr, heq, -⟩
      · exact absurd (hscan.symm.trans (congrArg Prod.snd heq)) hnext
      · obtain rfl : i = next := (congrArg Prod.snd heq).symm.trans hscan
        exact ⟨t, ht, hr⟩
    · exact ih h

/-- The second loop of `schedule` ends in its second round at the latest. -/
theorem Timed.select_spec (h : k.Timed) : ∃ k' next, (∀ n, k.select (n + 2) = some (k', next)) ∧
    k'.Best next ∧ (k.UsedUp → k' = k.refill) ∧ (¬k.UsedUp → k' = k) := by
  obtain ⟨hbest, hzero⟩ := scan_best h.nonneg
  by_cases hused : k.UsedUp
  · have hpos : ∀ j t, k.refill.Runs j t → 1 ≤ t.counter.toInt := by
      intro j t' ht'
      obtain ⟨t, ht, -, hcount⟩ := runs_refill hused ht'
      rw [hcount]
      exact (h j t ht.1 ht.2.1).1
    obtain ⟨hbest', hzero'⟩ := scan_best fun j t hj => Int.le_trans (by decide) (hpos j t hj)
    have hne : k.refill.scan.1 ≠ 0 := fun hz => by
      obtain ⟨⟨j, t, hj⟩, hall⟩ := hzero'.1 hz
      have hone := hpos j t hj
      rw [hall j t hj] at hone
      exact absurd hone (by decide)
    refine ⟨k.refill, k.refill.scan.2, fun n => ?_, hbest', fun _ => rfl, fun hn => absurd hused hn⟩
    rw [select, if_neg (not_not.2 (hzero.2 hused)), select, if_pos hne]
  · refine ⟨k, k.scan.2, fun n => ?_, hbest, fun hn => absurd hn hused, fun _ => rfl⟩
    rw [select, if_pos fun hz => hused (hzero.1 hz)]

/-- If only one of the tasks in the slots 1 to 63 is there, and it is running, it is selected. -/
theorem Timed.select_only (h : k.Timed) (hj : k.Runs j t)
    (honly : ∀ i, i ≠ 0 → i ≠ j → k.task i = none) :
    ∃ k', ∀ n, k.select (n + 2) = some (k', j) := by
  obtain ⟨k', next, hselect, hbest, -⟩ := h.select_spec
  have hstate : SameTasks (fun t => t.state) k k' := .select (fun _ _ => rfl) (hselect 0)
  obtain ⟨t', ht', heq⟩ := hstate.task_after hj.2.1
  have hnext : next = j := by
    by_contra hne
    have h0 : next ≠ 0 := fun h0 => hbest.zero.1 h0 j t' ⟨hj.1, ht', heq.trans hj.2.2⟩
    obtain ⟨u, ⟨-, hu, -⟩, -⟩ := hbest.best h0
    cases (hstate.task_none.2 (honly next h0 hne)).symm.trans hu
  exact ⟨k', hnext ▸ hselect⟩

/-! ## The whole function -/

theorem Timed.signalPass (h : k.Timed) : k.signalPass.Timed := by
  intro j t hj ht
  rw [task_signalPass hj] at ht
  obtain ⟨u, hu, rfl⟩ := Option.map_eq_some_iff.1 ht
  have hu := h j u hj hu
  rw [Task.wake, Task.ring]
  split_ifs <;> exact hu

theorem jiffies_everyTask (f : Task → Task) (l : List Slot) (k : Kernel) :
    (k.everyTask f l).jiffies = k.jiffies := by
  induction l generalizing k with
  | nil => rfl
  | cons i l ih => exact ih _

/-- `schedule` ends. After the signals, and after new counters if the running tasks have used up
    theirs, it has selected the task to run; and it changes nothing but the counters, then, and
    the alarms, signals and states of the tasks in the slots 1 to 63. -/
theorem schedule_spec (k : Kernel) (h : ∀ j t, k.task j = some t → t.Timed) :
    ∃ k' next, (∀ n, k.schedule (n + 2) = some (k', next)) ∧ k'.Best next ∧
      (k.signalPass.UsedUp → k' = k.signalPass.refill) ∧
      (¬k.signalPass.UsedUp → k' = k.signalPass) ∧
      (¬k.signalPass.UsedUp → SameTasks (fun t => t.counter) k k') ∧
      SameTasks Task.fixed k k' ∧ k'.task 0 = k.task 0 ∧ k'.jiffies = k.jiffies := by
  have htimed : k.Timed := fun j t _ ht => h j t ht
  obtain ⟨k', next, hselect, hbest, hused, hnot⟩ := htimed.signalPass.select_spec
  have hcounter : SameTasks (fun t => t.counter) k k.signalPass :=
    .everyTask (fun t => by rw [Task.wake, Task.ring]; split_ifs <;> rfl) _ k
  have hfixed : SameTasks Task.fixed k k.signalPass :=
    .everyTask (fun t => by rw [Task.wake, Task.ring]; split_ifs <;> rfl) _ k
  have hzero : ∀ (f : Task → Task) (k : Kernel), (k.everyTask f userSlots).task 0 = k.task 0 :=
    fun f k => (task_everyTask f nodup_userSlots k).trans (if_neg fun h0 => mem_userSlots.1 h0 rfl)
  refine ⟨k', next, hselect, hbest, hused, hnot, fun hn => hnot hn ▸ hcounter, ?_⟩
  by_cases hu : k.signalPass.UsedUp
  · rw [hused hu]
    have hrefill : SameTasks Task.fixed k.signalPass k.signalPass.refill :=
      .everyTask (fun t => by rw [Task.refill, Task.fixed, Task.fixed]) _ _
    exact ⟨hfixed.trans hrefill, (hzero Task.refill k.signalPass).trans (hzero _ k),
      (jiffies_everyTask Task.refill _ k.signalPass).trans (jiffies_everyTask _ _ k)⟩
  · rw [hnot hu]
    exact ⟨hfixed, hzero _ _, jiffies_everyTask _ _ _⟩

/-- The kernel after the boot, with a running task in slot 1. -/
def oneTask : Kernel :=
  (boot ⟨fun _ => 0, fun _ => 0, 0⟩ (4096 * 256) (4096 * 768) 0x8000).setTask 1
    (some { initTask 0x3ff000 with pid := 1 })

/-- Its running task is selected. -/
theorem schedule_spec_one : ∃ k' next, (∀ n, oneTask.schedule (n + 2) = some (k', next)) ∧
    k'.Best next := by
  have htimed : ∀ j t, oneTask.task j = some t → t.Timed := by
    intro j t ht
    rw [oneTask, task_setTask] at ht
    split_ifs at ht with h1
    · rw [← Option.some.inj ht]
      exact ⟨by decide, by decide⟩
    · obtain ⟨-, ht⟩ := Option.ite_none_right_eq_some.1 ht
      rw [← Option.some.inj ht]
      exact ⟨by decide, by decide⟩
  obtain ⟨k', next, hselect, hbest, -⟩ := schedule_spec oneTask htimed
  exact ⟨k', next, hselect, hbest⟩

end Kernel

end NeuOs
