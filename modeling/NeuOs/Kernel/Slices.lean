import NeuOs.Kernel.Family
import NeuOs.Kernel.Select

/-!
# Time slices

A system that runs tasks: ticks of the clock, calls of `schedule`, sleeps and
wake-ups, and the steps of the kernel (`Sched`). In every state it reaches, the
counter of a task is at most twice its priority (`timeSlices_bounded`), and new
counters are given only when all running tasks have used up theirs.
-/

namespace NeuOs

/-- A task has a time slice: its counter is not negative, and less than twice its
    priority. The bound on the priority keeps the sums in 32 bits. -/
def Task.Slice (t : Task) : Prop :=
  1 ≤ t.priority.toInt ∧ t.priority.toInt < 2 ^ 30 ∧ 0 ≤ t.counter.toInt ∧
    t.counter.toInt ≤ 2 * t.priority.toInt - 1

namespace Kernel

variable {lo hi : Nat} {k k' : Kernel} {i j : Slot} {t : Task} {a : Action}

/-- All tasks have a time slice. -/
def Slices (k : Kernel) : Prop := ∀ j t, k.task j = some t → t.Slice

/-! ## The counters -/

theorem toInt_refill (h : t.Slice) :
    t.refill.counter.toInt = t.counter.toInt / 2 + t.priority.toInt := by
  obtain ⟨h₁, h₂, h₃, h₄⟩ := h
  have hshift : (t.counter.sshiftRight 1).toInt = t.counter.toInt / 2 := by
    rw [BitVec.toInt_sshiftRight, Int.shiftRight_eq_div_pow]
    rfl
  change (t.counter.sshiftRight 1 + t.priority).toInt = _
  rw [BitVec.toInt_add, hshift, Int.bmod_def]
  split_ifs <;> omega

/-- A refilled counter is at most half of the old bound and the priority. -/
theorem slice_refill (h : t.Slice) : t.refill.Slice := by
  have hrefill := toInt_refill h
  obtain ⟨h₁, h₂, h₃, h₄⟩ := h
  refine ⟨h₁, h₂, ?_, ?_⟩
  · rw [hrefill]
    omega
  · rw [hrefill]
    change _ ≤ 2 * t.priority.toInt - 1
    omega

/-- The counter after a tick: one less, or 0. -/
theorem slice_tick (h : t.Slice) :
    ((0 : Word).slt (t.counter - 1) = true → Task.Slice { t with counter := t.counter - 1 }) ∧
      Task.Slice { t with counter := 0 } := by
  obtain ⟨h₁, h₂, h₃, h₄⟩ := h
  refine ⟨fun hpos => ?_, h₁, h₂, le_rfl, ?_⟩
  · have hsub : (t.counter - 1).toInt = t.counter.toInt - 1 := by
      rw [BitVec.toInt_sub, show (1 : Word).toInt = 1 from rfl, Int.bmod_def]
      split_ifs <;> omega
    have hpos : 0 < (t.counter - 1).toInt := by
      rw [BitVec.slt_iff_toInt_lt] at hpos
      exact hpos
    refine ⟨h₁, h₂, hpos.le, ?_⟩
    change (t.counter - 1).toInt ≤ 2 * t.priority.toInt - 1
    omega
  · change (0 : Int) ≤ 2 * t.priority.toInt - 1
    omega

theorem Slices.timed (h : k.Slices) : k.Timed := fun j t _ ht => ⟨(h j t ht).1, (h j t ht).2.2.1⟩

/-! ## The slices in the steps of the kernel -/

/-- A loop over the slots keeps what `f` keeps. -/
theorem Slices.everyTask (h : k.Slices) {f : Task → Task} (hf : ∀ t : Task, t.Slice → (f t).Slice) :
    (k.everyTask f userSlots).Slices := by
  intro j t ht
  rw [task_everyTask f nodup_userSlots] at ht
  split_ifs at ht
  · obtain ⟨u, hu, rfl⟩ := Option.map_eq_some_iff.1 ht
    exact hf u (h j u hu)
  · exact h j t ht

theorem Slices.signalPass (h : k.Slices) : k.signalPass.Slices := by
  refine h.everyTask fun t ht => ?_
  rw [Task.wake, Task.ring]
  split_ifs <;> exact ht

theorem Slices.refill (h : k.Slices) : k.refill.Slices := h.everyTask fun _ => slice_refill

theorem Slices.select {fuel : Nat} {x : Kernel × Slot} (h : k.Slices)
    (hx : k.select fuel = some x) : x.1.Slices := by
  induction fuel generalizing k with
  | zero => cases hx
  | succ fuel ih =>
    rw [Kernel.select] at hx
    split_ifs at hx
    · exact Option.some.inj hx ▸ h
    · exact ih h.refill hx

theorem Slices.modifyTask (h : k.Slices) {f : Task → Task}
    (hf : ∀ t, k.task i = some t → (f t).Slice) : (k.modifyTask i f).Slices := by
  intro j t ht
  rw [task_modifyTask] at ht
  split_ifs at ht
  · obtain ⟨u, hu, rfl⟩ := Option.map_eq_some_iff.1 ht
    exact hf u hu
  · exact h j t ht

theorem Slices.doTimer (h : k.Slices) (current : Slot) (cpl : Word) :
    (k.doTimer current cpl).1.Slices := by
  obtain ⟨k₁, hk₁⟩ : ∃ k₁, k₁ = k.modifyTask current fun t =>
      if cpl = 0 then { t with stime := t.stime + 1 } else { t with utime := t.utime + 1 } :=
    ⟨_, rfl⟩
  have h₁ : k₁.Slices := hk₁ ▸ h.modifyTask fun t ht => by
    split_ifs <;> exact h current t ht
  have hsecond : ∀ t, (k₁.modifyTask current fun t => { t with counter := t.counter - 1 }).task
      current = some t →
      ∃ u, k₁.task current = some u ∧ t = { u with counter := u.counter - 1 } := by
    intro t ht
    rw [task_modifyTask, if_pos rfl] at ht
    obtain ⟨u, hu, rfl⟩ := Option.map_eq_some_iff.1 ht
    exact ⟨u, hu, rfl⟩
  -- the counter goes down, and is set to 0 if it is below
  rw [Kernel.doTimer, ← hk₁]
  dsimp only
  split_ifs with hpos
  · refine h₁.modifyTask fun u hu => (slice_tick (h₁ current u hu)).1 ?_
    rw [task_modifyTask, if_pos rfl, hu, Option.map_some, Option.any_some] at hpos
    exact hpos
  · intro j t ht
    rw [task_modifyTask, task_modifyTask, task_modifyTask, if_pos rfl] at ht
    split_ifs at ht with hj
    · obtain ⟨u, hu, rfl⟩ := Option.map_eq_some_iff.1 ht
      obtain ⟨v, hv, rfl⟩ := Option.map_eq_some_iff.1 hu
      exact (slice_tick (h₁ current v hv)).2
    · exact h₁ j t ht

/-- Every task after a step is a task before it, but for its signals, its father and
    its state; or it is the child of one. -/
theorem Inv.step_origin {β : Type*} {φ : Task → β} (hsig : ∀ t s, φ { t with signal := s } = φ t)
    (hfather : ∀ t x, φ { t with father := x } = φ t)
    (hzombie : ∀ t c, φ { t with state := .zombie, exitCode := c } = φ t)
    (hset : ∀ t s b act, φ { t with signal := s, blocked := b, sigaction := act } = φ t)
    (hk : k.Inv lo hi) (hst : Step k a k') {t' : Task} (ht' : k'.task j = some t') :
    (∃ i t, k.task i = some t ∧ φ t' = φ t) ∨
      ∃ i t k₀ nr f r, k.task i = some t ∧ t' = spawned k₀ t nr f r := by
  by_cases ha : a.Plain
  · obtain ⟨t, ht, hφ⟩ := (hk.step_tasks hsig hfather hzombie hst ha).task_some ht'
    exact .inl ⟨j, t, ht, hφ.symm⟩
  -- Replacing a task by one with the same `φ`.
  have hone : ∀ {k' : Kernel} {i : Slot} {t u : Task}, k.task i = some t → φ u = φ t →
      (∀ l, k'.task l = if l = i then some u else k.task l) → k'.task j = some t' →
      (∃ i t, k.task i = some t ∧ φ t' = φ t) ∨
        ∃ i t k₀ nr f r, k.task i = some t ∧ t' = spawned k₀ t nr f r := by
    intro k' i t u ht hφ htask ht'
    rw [htask] at ht'
    split_ifs at ht'
    · exact .inl ⟨i, t, ht, Option.some.inj ht' ▸ hφ⟩
    · exact .inl ⟨j, t', ht', rfl⟩
  cases a with
  | fork i r =>
    obtain ⟨t, w, ht, -, hy⟩ := hst.fork
    rcases hk.fork_tasks ht hy with hsame | ⟨k₀, nr, f, -, -, htask⟩
    · exact .inl ⟨j, t', (hsame j).symm.trans ht', rfl⟩
    · rw [htask] at ht'
      split_ifs at ht'
      · exact .inr ⟨i, t, k₀, nr, f, r, ht, (Option.some.inj ht').symm⟩
      · exact .inl ⟨j, t', ht', rfl⟩
  | ssetmask i newmask =>
    obtain ⟨t, ht, -, rfl⟩ := hst.ssetmask
    exact hone ht (hset t t.signal _ t.sigaction) (fun l => task_setTask _) ht'
  | signal i signum handler restorer =>
    obtain ⟨t, ht, -, rfl⟩ := hst.signal
    rw [sysSignal] at ht'
    split_ifs at ht'
    · exact .inl ⟨j, t', ht', rfl⟩
    · exact hone ht (hset t t.signal t.blocked _) (fun l => task_setTask _) ht'
  | sigaction i signum action oldAction =>
    obtain ⟨t, w, ht, -, -, hok⟩ := hst.sigaction
    rcases sysSigaction_cases hok with rfl | ⟨-, m, sa, rfl⟩
    · exact .inl ⟨j, t', ht', rfl⟩
    · exact hone ht (hset t t.signal t.blocked _) (fun l => task_setTask _) ht'
  | deliver i r =>
    obtain ⟨t, w, ht, -, hok⟩ := hst.deliver
    rcases deliver_cases hok with ⟨-, -, rfl⟩ | ⟨signr, -, ⟨-, -, rfl⟩ | ⟨-, -, m, rfl⟩⟩
    · exact .inl ⟨j, t', ht', rfl⟩
    · exact hone ht (hset t _ t.blocked t.sigaction) (fun l => task_setTask _) ht'
    · exact hone ht (hset t _ _ _) (fun l => task_setTask _) ht'
  | _ => exact absurd trivial ha

/-- A step that is no fork, no exit and no release has the same tasks, but for their signals. -/
theorem Step.sameTasks {β : Type*} {φ : Task → β} (hsig : ∀ t s, φ { t with signal := s } = φ t)
    (hset : ∀ t s b act, φ { t with signal := s, blocked := b, sigaction := act } = φ t)
    (hst : Step k a k') (hfork : ∀ i r, a ≠ .fork i r) (hexit : ∀ i e, a ≠ .exit i e)
    (hrelease : ∀ i j, a ≠ .release i j) : ∃ m, SameTasks φ { k with mm := m } k' := by
  have hone : ∀ {m : Mm} {i : Slot} {t u : Task}, k.task i = some t → φ u = φ t →
      SameTasks φ { k with mm := m } ({ k with mm := m }.setTask i (some u)) :=
    fun {m} _ _ _ ht hφ => SameTasks.setTask (k := { k with mm := m }) ht hφ
  cases a with
  | fork i r => exact absurd rfl (hfork i r)
  | exit i e => exact absurd rfl (hexit i e)
  | release i l => exact absurd rfl (hrelease i l)
  | tick => exact ⟨k.mm, hst.tick ▸ ⟨rfl, rfl, fun _ => rfl⟩⟩
  | kill i pid sig =>
    obtain ⟨t, -, -, rfl⟩ := hst.kill
    exact ⟨k.mm, sameTasks_sysKill hsig pid sig⟩
  | ssetmask i newmask =>
    obtain ⟨t, ht, -, rfl⟩ := hst.ssetmask
    exact ⟨k.mm, hone ht (hset t t.signal _ t.sigaction)⟩
  | signal i signum handler restorer =>
    obtain ⟨t, ht, -, rfl⟩ := hst.signal
    rw [sysSignal]
    split_ifs
    · exact ⟨k.mm, .refl φ k⟩
    · exact ⟨k.mm, hone ht (hset t t.signal t.blocked _)⟩
  | sigaction i signum action oldAction =>
    obtain ⟨t, w, ht, -, -, hok⟩ := hst.sigaction
    rcases sysSigaction_cases hok with rfl | ⟨-, m, sa, rfl⟩
    · exact ⟨k'.mm, .refl φ k'⟩
    · exact ⟨m, hone ht (hset t t.signal t.blocked _)⟩
  | deliver i r =>
    obtain ⟨t, w, ht, -, hok⟩ := hst.deliver
    rcases deliver_cases hok with ⟨-, -, rfl⟩ | ⟨signr, -, ⟨-, -, rfl⟩ | ⟨-, -, m, rfl⟩⟩
    · exact ⟨k'.mm, .refl φ k'⟩
    · exact ⟨k.mm, hone ht (hset t _ t.blocked t.sigaction)⟩
    · exact ⟨m, hone ht (hset t _ _ _)⟩
  | _ =>
    obtain ⟨m, rfl⟩ := hst.memory trivial
    exact ⟨m, .refl φ _⟩

/-- A step that is no fork keeps the tasks, but for their signals, their father and their state. -/
theorem Inv.step_keepsTasks {β : Type*} {φ : Task → β}
    (hsig : ∀ t s, φ { t with signal := s } = φ t)
    (hfather : ∀ t x, φ { t with father := x } = φ t)
    (hzombie : ∀ t c, φ { t with state := .zombie, exitCode := c } = φ t)
    (hset : ∀ t s b act, φ { t with signal := s, blocked := b, sigaction := act } = φ t)
    (hk : k.Inv lo hi) (hst : Step k a k') (hfork : ∀ i r, a ≠ .fork i r) : KeepsTasks φ k k' := by
  by_cases ha : a.Plain
  · exact hk.step_tasks hsig hfather hzombie hst ha
  · obtain ⟨m, hsame⟩ := hst.sameTasks hsig hset hfork
      (fun i e heq => ha (heq ▸ trivial)) fun i j heq => ha (heq ▸ trivial)
    exact hsame.keepsTasks

/-- The steps of the kernel: a child has its father's priority as its counter. -/
theorem Slices.step (h : k.Slices) (hk : k.Inv lo hi) (hst : Step k a k') : k'.Slices := by
  intro j t' ht'
  rcases hk.step_origin (φ := fun t => (t.counter, t.priority)) (fun _ _ => rfl) (fun _ _ => rfl)
    (fun _ _ => rfl) (fun _ _ _ _ => rfl) hst ht' with
    ⟨i, t, ht, hφ⟩ | ⟨i, t, k₀, nr, f, r, ht, rfl⟩
  · obtain ⟨hc, hp⟩ := Prod.mk.inj hφ
    have hs := h i t ht
    rw [Task.Slice] at hs ⊢
    rwa [hc, hp]
  · obtain ⟨h₁, h₂, -, -⟩ := h i t ht
    refine ⟨h₁, h₂, ?_, ?_⟩
    · change 0 ≤ t.priority.toInt
      omega
    · change t.priority.toInt ≤ 2 * t.priority.toInt - 1
      omega

end Kernel

/-! ## The system -/

/-- The kernel, and the slot of the task that runs. -/
structure System where
  kernel : Kernel
  current : Slot

inductive SystemAction
  /-- A step of the kernel, of the task that runs or of an interrupt. -/
  | kernel (a : Action)
  /-- A tick of the clock, with the privilege level that it interrupts. -/
  | timer (cpl : Word)
  /-- A call of `schedule`. -/
  | schedule
  /-- The task that runs goes to sleep. -/
  | sleep (interruptible : Bool)
  /-- A task is woken. -/
  | wakeUp (j : Slot)

namespace System

open Kernel (Booted)

/-- Whether a step of the kernel ends with a call of `schedule`. -/
def callsSchedule : Action → Bool
  | .exit .. | .release .. => true
  | _ => false

/-- The state of the kernel after an action, up to the call of `schedule`, and
    whether it calls `schedule`. -/
def Acts (s : System) : SystemAction → Kernel → Bool → Prop
  | .kernel a, k, calls => Kernel.Step s.kernel a k ∧ (∀ i, a.slot = some i → i = s.current) ∧
      calls = callsSchedule a
  | .timer cpl, k, calls =>
      (k, calls) = { s.kernel with jiffies := s.kernel.jiffies + 1 }.doTimer s.current cpl
  | .schedule, k, calls => k = s.kernel ∧ calls = true
  | .sleep interruptible, k, calls =>
      k = s.kernel.modifyTask s.current (fun t =>
        { t with state := if interruptible then .interruptible else .uninterruptible }) ∧
      calls = true
  | .wakeUp j, k, calls => k = s.kernel.modifyTask j (fun t => { t with state := .running }) ∧
      calls = false

/-- A step of the system. -/
def Step (s : System) (a : SystemAction) (s' : System) : Prop :=
  ∃ k calls, s.Acts a k calls ∧
    if calls then ∃ fuel, k.schedule fuel = some (s'.kernel, s'.current)
    else s'.kernel = k ∧ s'.current = s.current

/-- The states that the system reaches when the task 0 is the first that runs. -/
abbrev Reachable (lo hi : Nat) : System → Prop :=
  Transition.Reachable (fun s => Booted lo hi s.kernel ∧ s.current = 0) Step

variable {lo hi : Nat} {s s' : System} {a : SystemAction} {k : Kernel} {calls : Bool}

/-- The loops over the slots keep the places of the tasks. -/
theorem sameTasks_signalPass (k : Kernel) : Kernel.SameTasks Task.place k k.signalPass :=
  .everyTask (fun t => by rw [Task.wake, Task.ring]; split_ifs <;> rfl) _ k

/-- The slot that `schedule` chooses has a task. -/
theorem exists_scheduled {k' : Kernel} {fuel : ℕ} {next : Slot} (h : k.Inv lo hi)
    (hx : k.schedule fuel = some (k', next)) : ∃ t, k'.task next = some t := by
  by_cases hnext : next = 0
  · rw [hnext]
    have hsame := (sameTasks_signalPass k).trans (.select (fun _ _ => rfl) hx)
    obtain ⟨t, ht, -⟩ := h.init
    by_contra hnone
    have hnone : k'.task 0 = none := Option.eq_none_iff_forall_ne_some.2 fun t ht => hnone ⟨t, ht⟩
    cases ht.symm.trans (hsame.task_none.1 hnone)
  · obtain ⟨t, ht, -⟩ := Kernel.select_running hnext hx
    exact ⟨t, ht⟩

/-- What holds of the kernel in every state of the system. -/
def Good (lo hi : Nat) (k : Kernel) : Prop := k.Inv lo hi ∧ k.Slices

theorem Good.acts (h : Good lo hi s.kernel) (ha : s.Acts a k calls) : Good lo hi k := by
  cases a with
  | kernel a => exact ⟨h.1.step ha.1, h.2.step h.1 ha.1⟩
  | timer cpl =>
    have hk : Good lo hi { s.kernel with jiffies := s.kernel.jiffies + 1 } :=
      ⟨h.1.counters _ _, h.2⟩
    obtain rfl := (Prod.mk.inj ha).1
    exact ⟨hk.1.of_sameTasks (.doTimer (fun _ _ => rfl) (fun _ _ => rfl) (fun _ _ => rfl) _ _ _),
      hk.2.doTimer _ _⟩
  | schedule => exact ha.1 ▸ h
  | sleep interruptible =>
    obtain ⟨rfl, -⟩ := ha
    exact ⟨h.1.of_sameTasks (.modifyTask fun _ => rfl), h.2.modifyTask fun t ht => h.2 _ t ht⟩
  | wakeUp j =>
    obtain ⟨rfl, -⟩ := ha
    exact ⟨h.1.of_sameTasks (.modifyTask fun _ => rfl), h.2.modifyTask fun t ht => h.2 _ t ht⟩

/-- If the action can be performed, there is a step: a call of `schedule` ends. -/
theorem Good.exists_step (h : Good lo hi s.kernel) (ha : s.Acts a k calls) : ∃ s', Step s a s' := by
  cases calls with
  | true =>
    obtain ⟨k', next, hselect, -⟩ := (h.acts ha).2.signalPass.timed.select_spec
    exact ⟨⟨k', next⟩, k, true, ha, 2, hselect 0⟩
  | false => exact ⟨⟨k, s.current⟩, k, false, ha, rfl, rfl⟩

theorem Good.step (h : Good lo hi s.kernel) (hst : Step s a s') : Good lo hi s'.kernel := by
  obtain ⟨k, calls, ha, hend⟩ := hst
  have hk := h.acts ha
  split_ifs at hend
  · obtain ⟨fuel, hx⟩ := hend
    refine ⟨?_, hk.2.signalPass.select hx⟩
    exact hk.1.of_sameTasks ((sameTasks_signalPass k).trans (.select (fun _ _ => rfl) hx))
  · exact hend.1 ▸ hk

theorem Good.boot (hlo : 256 ≤ lo) (hle : lo ≤ hi) (hhi : hi ≤ 4096) (h : Booted lo hi k) :
    Good lo hi k := by
  refine ⟨h.inv hlo hle hhi, ?_⟩
  obtain ⟨m, page, -, rfl⟩ := h
  intro j t ht
  by_cases hj : j = 0
  · rw [hj] at ht
    obtain rfl := Option.some.inj ht
    exact show 1 ≤ (15 : Word).toInt ∧ (15 : Word).toInt < 2 ^ 30 ∧ 0 ≤ (15 : Word).toInt ∧
      (15 : Word).toInt ≤ 2 * (15 : Word).toInt - 1 by decide
  · cases (if_neg hj).symm.trans ht

theorem Reachable.good (hlo : 256 ≤ lo) (hle : lo ≤ hi) (hhi : hi ≤ 4096) (h : Reachable lo hi s) :
    Good lo hi s.kernel :=
  h.invariant (P := fun s => Good lo hi s.kernel) (fun _ hs => Good.boot hlo hle hhi hs.1)
    fun _ _ _ hs hst => hs.step hst

theorem reachable_mainKernel : Reachable 256 768 ⟨Kernel.mainKernel, 0⟩ :=
  .init ⟨Kernel.booted_mainKernel, rfl⟩

/-- The first task forks. -/
theorem exists_child : ∃ k t, Step ⟨Kernel.mainKernel, 0⟩ (.kernel (.fork 0 default)) ⟨k, 0⟩ ∧
    k.task 1 = some t ∧ k.task 0 = some (initTask 0x8000) ∧
    (∀ j, j ≠ 0 → j ≠ 1 → k.task j = none) ∧ t.state = .running ∧
    t.priority = (initTask 0x8000).priority := by
  obtain ⟨k, t, hfork, ⟨hrun, hpriority, -⟩, htask, -⟩ := Kernel.exists_child default
  exact ⟨k, t, ⟨k, false, ⟨hfork, fun i hi => (Option.some.inj hi).symm, rfl⟩, rfl, rfl⟩,
    (htask 1).trans (if_pos rfl), (htask 0).trans (if_neg (by decide)),
    fun j h0 h1 => (htask j).trans ((if_neg h1).trans (if_neg h0)), hrun, hpriority⟩

/-- The first task forks and goes to sleep, and the child runs. -/
theorem exists_switch : ∃ k k' t, Step ⟨Kernel.mainKernel, 0⟩ (.kernel (.fork 0 default)) ⟨k, 0⟩ ∧
    Step ⟨k, 0⟩ (.sleep true) ⟨k', 1⟩ ∧ k'.task 1 = some t ∧ t.state = .running := by
  obtain ⟨k, t, hfork, hchild, -, hnone, hrun, -⟩ := exists_child
  have hreach : Reachable 256 768 ⟨k, 0⟩ := reachable_mainKernel.step hfork
  have hslices := (hreach.good (by norm_num) (by norm_num) (by norm_num)).2
  obtain ⟨k₁, hk₁⟩ : ∃ k₁, k₁ = k.modifyTask 0 fun t => { t with state := .interruptible } :=
    ⟨_, rfl⟩
  have hslices₁ : k₁.Slices := hk₁ ▸ hslices.modifyTask fun t ht => hslices 0 t ht
  -- `schedule` leaves the child running
  have hpass : k₁.signalPass.task 1 = some (t.ring k₁.jiffies).wake := by
    rw [Kernel.task_signalPass (by decide), hk₁, Kernel.task_modifyTask, if_neg (by decide), hchild]
    rfl
  have hstate : (t.ring k₁.jiffies).wake.state = .running := by
    rw [Task.wake]
    split_ifs
    · rfl
    · exact (Kernel.state_ring _ t).trans hrun
  obtain ⟨k', hselect⟩ := hslices₁.signalPass.timed.select_only ⟨by decide, hpass, hstate⟩
    fun j h0 h1 => by
      rw [Kernel.task_signalPass h0, hk₁, Kernel.task_modifyTask, if_neg h0, hnone j h0 h1]
      rfl
  have hsame : Kernel.SameTasks (fun t => t.state) k₁.signalPass k' :=
    .select (fun _ _ => rfl) (hselect 0)
  obtain ⟨t', ht', heq⟩ := hsame.task_after hpass
  exact ⟨k, k', t', hfork, ⟨k₁, true, ⟨hk₁, rfl⟩, 2, hselect 0⟩, ht', heq.trans hstate⟩

/-- The states in which `schedule` looks for a task to run: after the first loop, and
    after each time that it has given new counters. -/
inductive Selecting (k : Kernel) : Kernel → Prop
  | first : Selecting k k.signalPass
  | again {k' : Kernel} : Selecting k k' → k'.scan.1 = 0 → Selecting k k'.refill

/-- These are the states of the second loop of `schedule`: it comes to each of them after
    some rounds. -/
theorem Selecting.schedule_eq (h : Selecting k k') :
    ∃ rounds, ∀ fuel, k.schedule (rounds + fuel) = k'.select fuel := by
  induction h with
  | first => exact ⟨0, fun fuel => by rw [Nat.zero_add, Kernel.schedule]⟩
  | @again k' _ hz ih =>
    obtain ⟨rounds, hrounds⟩ := ih
    refine ⟨rounds + 1, fun fuel => ?_⟩
    rw [Nat.add_right_comm, Nat.add_assoc, hrounds, Kernel.select, if_neg (not_not.2 hz)]

theorem Selecting.select (h : Selecting k k') {fuel : ℕ} {x : Kernel × Slot}
    (hx : k'.select fuel = some x) : Selecting k x.1 := by
  induction fuel generalizing k' with
  | zero => cases hx
  | succ fuel ih =>
    rw [Kernel.select] at hx
    split_ifs at hx with hz
    · exact Option.some.inj hx ▸ h
    · exact ih (.again h (not_not.1 hz)) hx

/-- And it ends in one of them. -/
theorem selecting_of_schedule {fuel : ℕ} {x : Kernel × Slot} (hx : k.schedule fuel = some x) :
    Selecting k x.1 :=
  Selecting.first.select hx

/-- The counter of every task in the slots 1 to 63 is at least 0, and less than twice
    its priority. When `schedule` gives new counters, there are running tasks in these
    slots, and all of them have the counter 0; and it always ends, in one of its states. -/
theorem timeSlices_bounded (hlo : 256 ≤ lo) (hle : lo ≤ hi) (hhi : hi ≤ 4096)
    (h : Reachable lo hi s) :
    (∀ j t, j ≠ 0 → s.kernel.task j = some t → 1 ≤ t.priority.toInt →
      0 ≤ t.counter.toInt ∧ t.counter.toInt ≤ 2 * t.priority.toInt - 1) ∧
    ∀ a k, s.Acts a k true →
      (∀ k', Selecting k k' → k'.scan.1 = 0 →
        (∀ j t, j ≠ 0 → k'.task j = some t → t.state = .running → t.counter = 0) ∧
          ∃ j t, j ≠ 0 ∧ k'.task j = some t ∧ t.state = .running) ∧
      ∃ fuel x, k.schedule fuel = some x ∧ Selecting k x.1 := by
  have hs := h.good hlo hle hhi
  refine ⟨fun j t _ ht _ => ⟨(hs.2 j t ht).2.2.1, (hs.2 j t ht).2.2.2⟩, fun a k ha => ?_⟩
  have hk := (hs.acts ha).2
  -- the bounds hold in every round of the loop of `schedule`
  have hall : ∀ k', Selecting k k' → k'.Slices := by
    intro k' hk'
    induction hk' with
    | first => exact hk.signalPass
    | again _ _ ih => exact ih.refill
  constructor
  · intro k' hk' hz
    obtain ⟨⟨j, t, hj⟩, hcounter⟩ := (hall k' hk').timed.scan_eq_zero hz
    exact ⟨fun i u hi hu hr => hcounter i u ⟨hi, hu, hr⟩, j, t, hj.1, hj.2⟩
  · obtain ⟨k', next, hselect, -⟩ := hk.signalPass.timed.select_spec
    exact ⟨2, _, hselect 0, selecting_of_schedule (hselect 0)⟩

/-- The first child after its fork, and the call of `schedule` when the first task sleeps. -/
theorem timeSlices_bounded_child : ∃ (s : System) (t : Task) (k : Kernel), Reachable 256 768 s ∧
    s.kernel.task 1 = some t ∧ t.counter.toInt ≤ 2 * t.priority.toInt - 1 ∧
    s.Acts (.sleep true) k true ∧ ∃ fuel x, k.schedule fuel = some x ∧ Selecting k x.1 := by
  obtain ⟨k, t, hst, hchild, -, -, -, hpriority⟩ := exists_child
  have hreach : Reachable 256 768 ⟨k, 0⟩ := reachable_mainKernel.step hst
  obtain ⟨hbound, hselect⟩ :=
    timeSlices_bounded (by norm_num) (by norm_num) (by norm_num) hreach
  have hsleep : (⟨k, 0⟩ : System).Acts (.sleep true) _ true := ⟨rfl, rfl⟩
  refine ⟨_, t, _, hreach, hchild, (hbound 1 t (by decide) hchild ?_).2, hsleep,
    (hselect _ _ hsleep).2⟩
  rw [hpriority]
  decide

end System

end NeuOs
