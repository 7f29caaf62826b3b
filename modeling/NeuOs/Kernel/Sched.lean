import NeuOs.Kernel.Signal

/-!
# The scheduler (`schedule` and `do_timer` in kernel/sched.c)

`schedule` first goes over the tasks for their alarms, and wakes those that have a
signal (`signalPass`). Then it selects the running task with the largest counter;
when they all have used up their time, it gives all tasks new counters, and selects
again.

The test for a signal that wakes a task leaves SIGKILL and SIGSTOP out, while
`ret_from_syscall` delivers them: `wakeTest_agrees_iff` says for which tables of
tasks the two agree.
-/

namespace NeuOs

def SIGALRM : Nat := 14

def SIGSTOP : Nat := 19

/-- `_BLOCKABLE`. -/
def blockable : Word := ~~~(sigBit SIGKILL ||| sigBit SIGSTOP)

namespace Task

/-- The alarm of a task, at the time `jiffies`. -/
def ring (jiffies : Word) (t : Task) : Task :=
  if t.alarm ≠ 0 ∧ t.alarm.slt jiffies then
    { t with signal := t.signal ||| sigBit SIGALRM, alarm := 0 }
  else t

/-- Waking a task that has a signal. -/
def wake (t : Task) : Task :=
  if t.signal &&& (blockable &&& ~~~t.blocked) ≠ 0 ∧ t.state = .interruptible then
    { t with state := .running }
  else t

/-- The new counter of a task. -/
def refill (t : Task) : Task := { t with counter := t.counter.sshiftRight 1 + t.priority }

end Task

/-- The slots 63 down to 1, in the order of the loops of `schedule`. -/
def userSlots : List Slot := (List.finRange 64).tail.reverse

namespace Kernel

/-- A loop over the slots `l`, changing each task. -/
def everyTask (f : Task → Task) : (l : List Slot) → Kernel → Kernel
  | [], k => k
  | i :: l, k => everyTask f l (k.modifyTask i f)

/-- The first loop of `schedule`: alarms and signals. -/
def signalPass (k : Kernel) : Kernel := k.everyTask (fun t => (t.ring k.jiffies).wake) userSlots

/-- The loop over the slots `l` that looks for the largest counter, with the largest
    one so far and its slot. -/
def scanTasks (k : Kernel) : (l : List Slot) → (c : Word) → (next : Slot) → Word × Slot
  | [], c, next => (c, next)
  | i :: l, c, next =>
    match k.task i with
    | none => scanTasks k l c next
    | some t =>
      if t.state = .running ∧ c.slt t.counter then scanTasks k l t.counter i
      else scanTasks k l c next

/-- The largest counter of the running tasks, and the slot, or -1 and 0. -/
def scan (k : Kernel) : Word × Slot := k.scanTasks userSlots (-1) 0

/-- New counters for all tasks. -/
def refill (k : Kernel) : Kernel := k.everyTask Task.refill userSlots

/-- The second loop of `schedule`, at most `fuel` rounds of it: the tasks, and the
    slot to switch to. -/
def select : (fuel : Nat) → Kernel → Option (Kernel × Slot)
  | 0, _ => none
  | fuel + 1, k => if k.scan.1 ≠ 0 then some (k, k.scan.2) else select fuel k.refill

/-- `schedule`, with at most `fuel` rounds of its second loop. -/
def schedule (fuel : Nat) (k : Kernel) : Option (Kernel × Slot) := k.signalPass.select fuel

/-- `do_timer` of the task in the slot `current`, up to the call of `schedule`, and
    whether it calls it. -/
def doTimer (k : Kernel) (current : Slot) (cpl : Word) : Kernel × Bool :=
  let k := k.modifyTask current fun t =>
    if cpl = 0 then { t with stime := t.stime + 1 } else { t with utime := t.utime + 1 }
  let k := k.modifyTask current fun t => { t with counter := t.counter - 1 }
  if (k.task current).any fun t => (0 : Word).slt t.counter then (k, false)
  else
    let k := k.modifyTask current fun t => { t with counter := 0 }
    (k, decide (cpl ≠ 0))

variable {k : Kernel} {j : Slot} {t : Task}

/-! ## Loops over the slots -/

theorem task_everyTask (f : Task → Task) {l : List Slot} (hl : l.Nodup) (k : Kernel) :
    (k.everyTask f l).task j = if j ∈ l then (k.task j).map f else k.task j := by
  induction l generalizing k with
  | nil => rw [if_neg List.not_mem_nil]; rfl
  | cons i l ih =>
    obtain ⟨hi, hl⟩ := List.nodup_cons.1 hl
    rw [everyTask, ih hl, task_modifyTask]
    by_cases hj : j = i
    · rw [if_neg (hj ▸ hi), if_pos hj, if_pos (by rw [hj]; exact List.mem_cons_self), hj]
    · simp only [List.mem_cons, hj, false_or, if_false]

theorem nodup_userSlots : userSlots.Nodup := by decide

theorem mem_userSlots : j ∈ userSlots ↔ j ≠ 0 := by
  revert j
  decide

theorem task_signalPass (hj : j ≠ 0) :
    k.signalPass.task j = (k.task j).map fun t => (t.ring k.jiffies).wake := by
  rw [signalPass, task_everyTask _ nodup_userSlots, if_pos (mem_userSlots.2 hj)]

theorem task_refill (hj : j ≠ 0) : k.refill.task j = (k.task j).map Task.refill := by
  rw [refill, task_everyTask _ nodup_userSlots, if_pos (mem_userSlots.2 hj)]

/-! ## The test for signals -/

theorem state_ring (jiffies : Word) (t : Task) : (t.ring jiffies).state = t.state := by
  rw [Task.ring]
  split_ifs <;> rfl

theorem deliverable_wake (t : Task) : t.wake.deliverable = t.deliverable := by
  rw [Task.wake]
  split_ifs <;> rfl

/-- The signals that wake a task are those that would be delivered, but for SIGKILL
    and SIGSTOP. -/
theorem wake_signals (t : Task) :
    t.signal &&& (blockable &&& ~~~t.blocked) = t.deliverable &&& blockable := by
  rw [Task.deliverable, BitVec.and_comm blockable, BitVec.and_assoc]

/-- The test of `schedule` for signals agrees with that of `ret_from_syscall`: no
    task in the slots 1 to 63 is left asleep with a signal that would be delivered,
    none is woken without one, and the others keep their state. -/
def WakeAgrees (k : Kernel) : Prop :=
  ∀ j t, j ≠ 0 → k.task j = some t → ∃ t', k.signalPass.task j = some t' ∧
    (t'.state = .interruptible → t'.deliverable = 0) ∧
    (t.state = .interruptible → t'.state ≠ .interruptible →
      t'.state = .running ∧ t'.deliverable ≠ 0) ∧
    (t.state ≠ .interruptible → t'.state = t.state)

/-- The two tests agree exactly if every task that sleeps, and has signals that would
    be delivered once the alarms have rung, has others among them than SIGKILL and
    SIGSTOP. -/
theorem wakeTest_agrees_iff (k : Kernel) :
    k.WakeAgrees ↔ ∀ j t, j ≠ 0 → k.task j = some t → t.state = .interruptible →
      (t.ring k.jiffies).deliverable &&& blockable = 0 → (t.ring k.jiffies).deliverable = 0 := by
  constructor
  · intro h j t hj ht hstate hnone
    obtain ⟨t', ht', hleft, -⟩ := h j t hj ht
    have hpass : k.signalPass.task j = some (t.ring k.jiffies).wake := by
      rw [task_signalPass hj, ht]
      rfl
    obtain rfl := Option.some.inj (hpass.symm.trans ht')
    rw [deliverable_wake] at hleft
    refine hleft ?_
    rw [Task.wake, wake_signals, if_neg fun hc => hc.1 hnone, state_ring, hstate]
  · intro h j t hj ht
    refine ⟨(t.ring k.jiffies).wake, by rw [task_signalPass hj, ht]; rfl, ?_⟩
    rw [deliverable_wake, Task.wake, wake_signals, state_ring]
    split_ifs with hwake
    · refine ⟨nofun, fun _ _ => ⟨rfl, fun h0 => hwake.1 ?_⟩, fun hne => absurd hwake.2 hne⟩
      rw [h0]
      exact BitVec.zero_and
    · rw [state_ring]
      refine ⟨fun hstate => h j t hj ht hstate ?_, fun hstate hne => absurd hstate hne,
        fun _ => rfl⟩
      exact not_not.1 fun hne => hwake ⟨hne, hstate⟩

/-- A process that sleeps, with a SIGKILL pending. -/
def killedSleeper : Kernel :=
  (boot ⟨fun _ => 0, fun _ => 0, 0⟩ (4096 * 256) (4096 * 768) 0x8000).setTask 1
    (some { initTask 0x3ff000 with state := .interruptible, signal := sigBit SIGKILL, pid := 1 })

/-- SIGKILL does not wake a process that sleeps. -/
theorem killedSleeper_sleeps : ¬killedSleeper.WakeAgrees := by
  intro h
  have ht : killedSleeper.task 1 = some { initTask 0x3ff000 with
      state := .interruptible
      signal := sigBit SIGKILL
      pid := 1 } := by
    rw [killedSleeper, task_setTask, if_pos rfl]
  obtain ⟨t', ht', hleft, -⟩ := h 1 _ (by decide) ht
  rw [task_signalPass (by decide), ht] at ht'
  obtain rfl := Option.some.inj ht'
  exact absurd (hleft (by decide)) (by decide)

end Kernel

end NeuOs
