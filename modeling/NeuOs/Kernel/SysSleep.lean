import NeuOs.Kernel.Select
import NeuOs.Lib.Run

/-!
# Sleeping for some time (`sys_sleep` in kernel/sys.c, `sys_alarm` in kernel/sched.c)

`sys_sleep` sets the alarm of the process to a deadline, and sleeps until it is selected
again. When the alarm has expired, `schedule` sends a SIGALRM to the process, which wakes it;
`sys_sleep` takes the signal back at the end.

A sleep is meant to end on time and to leave nothing behind (`Nap.OnTime`). But a blocked
SIGALRM does not wake the process, and a process that is woken by another signal keeps its
alarm. `sleep_iff` says exactly in which runs this does not happen.
-/

namespace NeuOs

open Transition

abbrev HZ : Word := 100

namespace Task

/-- `sys_alarm`, with the return value. -/
def sysAlarm (jiffies seconds : Word) (t : Task) : Word × Task :=
  let old := if t.alarm ≠ 0 then (t.alarm - jiffies).sdiv HZ else t.alarm
  (old, { t with alarm := if (0 : Word).slt seconds then jiffies + HZ * seconds else 0 })

end Task

namespace Kernel

/-- `sys_sleep` of the task in the slot `i`, up to the call of `schedule`. -/
def sleepBegin (k : Kernel) (i : Slot) (seconds : Word) : Kernel :=
  k.modifyTask i fun t => { (t.sysAlarm k.jiffies seconds).2 with state := .interruptible }

/-- The end of `sys_sleep`, after the call of `schedule`. -/
def sleepEnd (k : Kernel) (i : Slot) : Kernel := k.modifyTask i (·.take SIGALRM)

end Kernel

/-- A kernel while a task sleeps in `sys_sleep`; whether `schedule` has been executed after the
    deadline, and whether `sys_sleep` has returned. -/
structure Nap where
  kernel : Kernel
  expired : Bool
  returned : Bool

/-- What happens while the task sleeps: ticks of the clock, calls of `schedule` that select other
    tasks, and calls of `sys_kill`; and the call of `schedule` that selects the task. -/
inductive NapAction
  | tick (current : Slot) (cpl : Word)
  | kill (current : Task) (pid : Word) (sig : ℤ)
  | schedule
  | resume

namespace Nap

/-- The steps until `sys_sleep` of the task in the slot `i` returns. -/
def Step (i : Slot) (deadline : Word) (s : Nap) (a : NapAction) (s' : Nap) : Prop :=
  s.returned = false ∧
  match a with
  | .tick current cpl => s' = { s with
      kernel := ({ s.kernel with jiffies := s.kernel.jiffies + 1 }.doTimer current cpl).1 }
  | .kill current pid sig => s' = { s with kernel := (s.kernel.sysKill current pid sig).2 }
  | .schedule => ∃ fuel k next, s.kernel.schedule fuel = some (k, next) ∧ next ≠ i ∧
      s' = ⟨k, s.expired || deadline.slt s.kernel.jiffies, false⟩
  | .resume => ∃ fuel k, s.kernel.schedule fuel = some (k, i) ∧
      s' = ⟨k.sleepEnd i, s.expired || deadline.slt s.kernel.jiffies, true⟩

/-- Once `schedule` has been executed after the deadline, the task is running. When `sys_sleep` has
    returned, the task has no alarm, and no SIGALRM is pending. -/
def OnTime (i : Slot) (s : Nap) : Prop :=
  ∀ t, s.kernel.task i = some t → (s.expired → t.state = .running) ∧
    (s.returned → t.alarm = 0 ∧ t.signal.getLsbD (SIGALRM - 1) = false)

/-- If the first call of `schedule` after the deadline finds the task asleep, SIGALRM is not
    blocked, or another signal wakes the task; and the task is not selected before there has been
    such a call. A deadline of 0 would be no alarm. -/
def Heeds (i : Slot) (deadline : Word) (s : Nap) : NapAction → Prop
  | .schedule => ∀ t, s.kernel.task i = some t → s.expired = false →
      deadline.slt s.kernel.jiffies → t.state = .interruptible →
        (deadline ≠ 0 ∧ t.blocked.getLsbD (SIGALRM - 1) = false) ∨
          t.signal &&& (blockable &&& ~~~t.blocked) ≠ 0
  | .resume => deadline = 0 ∨ s.expired ∨ deadline.slt s.kernel.jiffies
  | _ => True

/-- What holds while the task sleeps: it has the alarm until `schedule` has been executed after the
    deadline. -/
def Inv (i : Slot) (deadline : Word) (s : Nap) : Prop :=
  s.returned = false → ∃ t, s.kernel.task i = some t ∧
    (t.state = .interruptible ∨ t.state = .running) ∧ t.alarm = if s.expired then 0 else deadline

variable {i : Slot} {deadline jiffies : Word} {s s' : Nap} {a : NapAction} {k : Kernel} {t : Task}

/-! ## The first loop of `schedule` -/

/-- The alarm goes when the deadline is over. -/
theorem alarm_wake_ring {expired : Bool} (h : t.alarm = if expired then 0 else deadline) :
    (t.ring jiffies).wake.alarm = if expired || deadline.slt jiffies then 0 else deadline := by
  have hwake : ∀ t : Task, t.wake.alarm = t.alarm := fun t => by
    rw [Task.wake]
    split_ifs <;> rfl
  rw [hwake, Task.ring]
  cases expired with
  | true =>
    have h0 : t.alarm = 0 := h
    rw [if_neg fun hc => hc.1 h0]
    exact h0
  | false =>
    have hd : t.alarm = deadline := h
    rw [hd, Bool.false_or]
    by_cases hlate : deadline.slt jiffies
    · rw [if_pos hlate]
      by_cases h0 : deadline = 0
      · rw [if_neg fun hc => hc.1 h0, hd, h0]
      · rw [if_pos ⟨h0, hlate⟩]
    · rw [if_neg hlate, if_neg fun hc => hlate hc.2, hd]

/-- A task that sleeps or runs does so after the first loop. -/
theorem state_wake_ring (h : t.state = .interruptible ∨ t.state = .running) :
    ((t.ring jiffies).wake.state = .interruptible ∨ (t.ring jiffies).wake.state = .running) ∧
      (t.state = .running → (t.ring jiffies).wake.state = .running) := by
  have hring := Kernel.state_ring jiffies t
  rw [Task.wake]
  split_ifs with hwake
  · exact ⟨.inr rfl, fun _ => rfl⟩
  · rw [hring]
    exact ⟨h, id⟩

theorem sigalrm_and (w : Word) : sigBit SIGALRM &&& w ≠ 0 ↔ w.getLsbD (SIGALRM - 1) = true := by
  have hbit : sigBit SIGALRM = BitVec.twoPow 32 (SIGALRM - 1) := rfl
  rw [hbit, BitVec.twoPow_and]
  split_ifs with h
  · exact iff_of_true (by decide) h
  · exact iff_of_false (not_not.2 rfl) h

/-- Once the deadline is over, the alarm wakes a task that sleeps unless it blocks SIGALRM; and so
    do other signals. -/
theorem wakes_iff (ha : t.alarm = deadline) (hs : t.state = .interruptible)
    (hlate : deadline.slt jiffies) : (t.ring jiffies).wake.state = .running ↔
      (deadline ≠ 0 ∧ t.blocked.getLsbD (SIGALRM - 1) = false) ∨
        t.signal &&& (blockable &&& ~~~t.blocked) ≠ 0 := by
  have hwake : ∀ t : Task, t.state = .interruptible → (t.wake.state = .running ↔
      t.signal &&& (blockable &&& ~~~t.blocked) ≠ 0) := by
    intro t hs
    rw [Task.wake]
    by_cases hsig : t.signal &&& (blockable &&& ~~~t.blocked) ≠ 0
    · rw [if_pos ⟨hsig, hs⟩]
      exact iff_of_true rfl hsig
    · rw [if_neg fun hc => hsig hc.1, hs]
      exact iff_of_false (fun h => by cases h) hsig
  -- the first loop raises SIGALRM, if there is an alarm and it is over
  rw [hwake _ ((Kernel.state_ring jiffies t).trans hs), Task.ring, ha]
  by_cases h0 : deadline = 0
  · rw [if_neg fun hc => hc.1 h0]
    exact ⟨.inr, fun h => h.resolve_left fun hc => hc.1 h0⟩
  · rw [if_pos ⟨h0, hlate⟩]
    -- SIGALRM is blockable
    have hblock : (blockable &&& ~~~t.blocked).getLsbD (SIGALRM - 1) = true ↔
        t.blocked.getLsbD (SIGALRM - 1) = false := by
      have hmask : blockable.getLsbD (SIGALRM - 1) = true := by decide
      rw [BitVec.getLsbD_and, BitVec.getLsbD_not, hmask, Bool.true_and]
      generalize t.blocked.getLsbD (SIGALRM - 1) = b
      revert b
      decide
    have hor : ∀ x y : Word, x ||| y ≠ 0 ↔ y ≠ 0 ∨ x ≠ 0 := fun x y =>
      BitVec.or_eq_zero_iff.not.trans (not_and_or.trans or_comm)
    dsimp only
    rw [BitVec.and_or_distrib_right, hor]
    exact or_congr ((sigalrm_and _).trans (hblock.trans (and_iff_right h0).symm)) Iff.rfl

/-! ## The steps -/

/-- What `OnTime` and the invariant are about. -/
def view (t : Task) : TaskState × Word × Word := (t.state, t.alarm, t.signal)

/-- `schedule` leaves a task as its first loop does, but for the counter; and the task that is
    selected is running. -/
theorem task_schedule {k₀ : Kernel} {fuel : ℕ} {next : Slot} (hi : i ≠ 0) (ht : k₀.task i = some t)
    (h : k₀.schedule fuel = some (k, next)) :
    ∃ t', k.task i = some t' ∧ view t' = view (t.ring k₀.jiffies).wake ∧
      (next = i → t'.state = .running) := by
  have hsame := Kernel.SameTasks.select (φ := view) (fun _ _ => rfl) h
  have htask := hsame.task i
  rw [Kernel.task_signalPass hi, ht] at htask
  obtain ⟨t', ht', hview⟩ := Option.map_eq_some_iff.1 htask
  refine ⟨t', ht', hview, ?_⟩
  rintro rfl
  obtain ⟨u, hu, hrun⟩ := Kernel.select_running hi h
  rwa [Option.some.inj (ht'.symm.trans hu)]

/-- Ticks and signals leave the state and the alarm of the task. -/
theorem Step.kept (hst : Step i deadline s a s') (ha : a ≠ .schedule) (ha' : a ≠ .resume) :
    s'.expired = s.expired ∧ s'.returned = s.returned ∧
      Kernel.SameTasks (fun t => (t.state, t.alarm)) s.kernel s'.kernel := by
  obtain ⟨-, hst⟩ := hst
  cases a with
  | tick current cpl =>
    obtain rfl := hst
    have htimer := Kernel.SameTasks.doTimer (φ := fun t => (t.state, t.alarm)) (fun _ _ => rfl)
      (fun _ _ => rfl) (fun _ _ => rfl) { s.kernel with jiffies := s.kernel.jiffies + 1 }
      current cpl
    exact ⟨rfl, rfl, htimer.mm, htimer.lastPid, htimer.task⟩
  | kill current pid sig =>
    obtain rfl := hst
    exact ⟨rfl, rfl, Kernel.sameTasks_sysKill (fun _ _ => rfl) pid sig⟩
  | schedule => exact absurd rfl ha
  | resume => exact absurd rfl ha'

theorem Inv.kept (h : s.Inv i deadline) (hst : Step i deadline s a s') (ha : a ≠ .schedule)
    (ha' : a ≠ .resume) : s'.Inv i deadline := by
  obtain ⟨hexp, hret, hsame⟩ := hst.kept ha ha'
  obtain ⟨t, ht, hstate, halarm⟩ := h hst.1
  have htask := hsame.task i
  rw [ht] at htask
  obtain ⟨t', ht', heq⟩ := Option.map_eq_some_iff.1 htask
  obtain ⟨hs', ha'⟩ := Prod.mk.inj heq
  refine fun _ => ⟨t', ht', ?_, ?_⟩
  · rw [hs']
    exact hstate
  · rw [ha', hexp]
    exact halarm

theorem OnTime.kept (h : s.OnTime i) (hst : Step i deadline s a s') (ha : a ≠ .schedule)
    (ha' : a ≠ .resume) : s'.OnTime i := by
  obtain ⟨hexp, hret, hsame⟩ := hst.kept ha ha'
  intro t' ht'
  obtain ⟨t, ht, heq⟩ := hsame.task_some ht'
  have hs' := congrArg Prod.fst heq
  refine ⟨fun he => ?_, fun hr => ?_⟩
  · exact hs'.symm.trans ((h t ht).1 (hexp ▸ he))
  · rw [hret, hst.1] at hr
    cases hr

/-- The task after a call of `schedule` that selects another one. -/
theorem Step.schedule (hi : i ≠ 0) (ht : s.kernel.task i = some t)
    (hst : Step i deadline s .schedule s') :
    s'.expired = (s.expired || deadline.slt s.kernel.jiffies) ∧ s'.returned = false ∧
      ∃ t', s'.kernel.task i = some t' ∧ view t' = view (t.ring s.kernel.jiffies).wake := by
  obtain ⟨-, fuel, k, next, hsched, -, rfl⟩ := hst
  obtain ⟨t', ht', hview, -⟩ := task_schedule hi ht hsched
  exact ⟨rfl, rfl, t', ht', hview⟩

/-- The task when `sys_sleep` has returned. -/
theorem Step.resume (hi : i ≠ 0) (ht : s.kernel.task i = some t)
    (hst : Step i deadline s .resume s') : s'.returned = true ∧ ∃ t', s'.kernel.task i = some t' ∧
      t'.state = .running ∧ t'.alarm = (t.ring s.kernel.jiffies).wake.alarm ∧
        t'.signal.getLsbD (SIGALRM - 1) = false := by
  obtain ⟨-, fuel, k, hsched, rfl⟩ := hst
  obtain ⟨t', ht', hview, hrun⟩ := task_schedule hi ht hsched
  refine ⟨rfl, t'.take SIGALRM, ?_, hrun rfl, congrArg (fun v => v.2.1) hview, ?_⟩
  · rw [Kernel.sleepEnd, Kernel.task_modifyTask, if_pos rfl, ht']
    rfl
  · have hbit : (~~~sigBit SIGALRM).getLsbD (SIGALRM - 1) = false := by decide
    rw [Task.take, BitVec.getLsbD_and, hbit, Bool.and_false]

theorem Inv.step (hi : i ≠ 0) (h : s.Inv i deadline) (hst : Step i deadline s a s') :
    s'.Inv i deadline := by
  obtain ⟨t, ht, hstate, halarm⟩ := h hst.1
  cases a with
  | tick current cpl => exact h.kept hst (fun h => by cases h) fun h => by cases h
  | kill current pid sig => exact h.kept hst (fun h => by cases h) fun h => by cases h
  | schedule =>
    obtain ⟨hexp, -, t', ht', hview⟩ := hst.schedule hi ht
    have hs' : t'.state = _ := congrArg Prod.fst hview
    have ha' : t'.alarm = _ := congrArg (fun v => v.2.1) hview
    refine fun _ => ⟨t', ht', ?_, ?_⟩
    · rw [hs']
      exact (state_wake_ring hstate).1
    · rw [ha', hexp]
      exact alarm_wake_ring halarm
  | resume =>
    intro hfalse
    rw [(hst.resume hi ht).1] at hfalse
    cases hfalse

/-- A call of `schedule` wakes the task in time exactly if SIGALRM or another signal does. -/
theorem OnTime.schedule_iff (hi : i ≠ 0) (hinv : s.Inv i deadline) (h : s.OnTime i)
    (hst : Step i deadline s .schedule s') : s'.OnTime i ↔ Heeds i deadline s .schedule := by
  obtain ⟨t, ht, hstate, halarm⟩ := hinv hst.1
  obtain ⟨hexp, hret, t', ht', hview⟩ := hst.schedule hi ht
  have hs' : t'.state = _ := congrArg Prod.fst hview
  -- the task is still in `sys_sleep`
  have hontime : s'.OnTime i ↔ (s'.expired → t'.state = .running) := by
    constructor
    · exact fun hon => (hon t' ht').1
    · intro hrun u hu
      obtain rfl := Option.some.inj (ht'.symm.trans hu)
      refine ⟨hrun, fun hr => ?_⟩
      rw [hret] at hr
      cases hr
  rw [hontime, hexp, hs']
  constructor
  · intro hrun u hu hnot hlate hasleep
    obtain rfl := Option.some.inj (ht.symm.trans hu)
    rw [hnot] at halarm
    refine (wakes_iff halarm hasleep hlate).1 (hrun ?_)
    rw [hlate, Bool.or_true]
  · intro hheeds hlate
    rcases hstate with hasleep | hrun
    · -- a task that was woken once after the deadline stays awake
      cases hnot : s.expired with
      | true => exact (state_wake_ring (.inl hasleep)).2 ((h t ht).1 hnot)
      | false =>
        rw [hnot] at halarm hlate
        exact (wakes_iff halarm hasleep hlate).2 (hheeds t ht hnot hlate hasleep)
    · exact (state_wake_ring (.inr hrun)).2 hrun

/-- `sys_sleep` leaves nothing behind exactly if the alarm is over. -/
theorem OnTime.resume_iff (hi : i ≠ 0) (hinv : s.Inv i deadline)
    (hst : Step i deadline s .resume s') : s'.OnTime i ↔ Heeds i deadline s .resume := by
  obtain ⟨t, ht, -, halarm⟩ := hinv hst.1
  obtain ⟨hret, t', ht', hrun, ha', hsig⟩ := hst.resume hi ht
  have hontime : s'.OnTime i ↔ t'.alarm = 0 := by
    constructor
    · exact fun hon => ((hon t' ht').2 hret).1
    · intro h0 u hu
      obtain rfl := Option.some.inj (ht'.symm.trans hu)
      exact ⟨fun _ => hrun, fun _ => ⟨h0, hsig⟩⟩
  rw [hontime, ha', alarm_wake_ring halarm, Heeds, ← Bool.or_eq_true]
  split_ifs with hover
  · exact iff_of_true rfl (.inr hover)
  · exact ⟨.inl, fun h => h.resolve_right hover⟩

/-- A step keeps the sleep on time exactly if it heeds the alarm. -/
theorem OnTime.step_iff (hi : i ≠ 0) (hinv : s.Inv i deadline) (h : s.OnTime i)
    (hst : Step i deadline s a s') : s'.OnTime i ↔ Heeds i deadline s a := by
  cases a with
  | tick current cpl =>
    exact iff_of_true (h.kept hst (fun h => by cases h) fun h => by cases h) trivial
  | kill current pid sig =>
    exact iff_of_true (h.kept hst (fun h => by cases h) fun h => by cases h) trivial
  | schedule => exact h.schedule_iff hi hinv hst
  | resume => exact OnTime.resume_iff hi hinv hst

/-- The alarm is set, and the process sleeps. -/
theorem inv_sleepBegin {seconds : Word} (ht : k.task i = some t) (hpos : (0 : Word).slt seconds) :
    Inv i (k.jiffies + HZ * seconds) ⟨k.sleepBegin i seconds, false, false⟩ := by
  refine fun _ =>
    ⟨{ (t.sysAlarm k.jiffies seconds).2 with state := .interruptible }, ?_, .inl rfl, ?_⟩
  · dsimp only
    rw [Kernel.sleepBegin, Kernel.task_modifyTask, if_pos rfl, ht]
    rfl
  · exact if_pos hpos

/-- In every run from a call of `sys_sleep` to its return, the first call of `schedule` after the
    deadline wakes the process, and nothing is left of the alarm after the return, exactly as long
    as the steps heed the alarm. -/
theorem sleep_iff (k : Kernel) (i : Slot) (hi : i ≠ 0) (ht : (k.task i).isSome) (seconds : Word)
    (hpos : (0 : Word).slt seconds) (l : List (NapAction × Nap))
    (hrun : Run (Step i (k.jiffies + HZ * seconds)) ⟨k.sleepBegin i seconds, false, false⟩ l) :
    (∀ x ∈ l, x.2.OnTime i) ↔
      Along (Heeds i (k.jiffies + HZ * seconds)) ⟨k.sleepBegin i seconds, false, false⟩ l := by
  obtain ⟨t, ht⟩ := Option.isSome_iff_exists.1 ht
  refine hrun.forall_iff_along (J := Inv i (k.jiffies + HZ * seconds)) ?_ (inv_sleepBegin ht hpos)
    (fun _ _ _ hinv hst => hinv.step hi hst) fun _ _ _ hinv h hst => h.step_iff hi hinv hst
  exact fun _ _ => ⟨fun h => (by cases h), fun h => (by cases h)⟩

/-- The clock ticks, and a run goes on. -/
theorem exists_ticks (n : ℕ) (h : s.returned = false) : ∃ s', s'.returned = false ∧
    s'.kernel.jiffies = s.kernel.jiffies + BitVec.ofNat 32 n ∧
    (∀ j, j ≠ 0 → s'.kernel.task j = s.kernel.task j) ∧
    ∀ l', Run (Step i deadline) s' l' → Along (Heeds i deadline) s' l' →
      ∃ l, Run (Step i deadline) s l ∧ Along (Heeds i deadline) s l ∧
        l.map Prod.fst = List.replicate n (.tick 0 0) ++ l'.map Prod.fst := by
  induction n generalizing s with
  | zero =>
    exact ⟨s, h, (BitVec.add_zero _).symm, fun _ _ => rfl, fun l' hl hc => ⟨l', hl, hc, rfl⟩⟩
  | succ n ih =>
    obtain ⟨s₁, hs₁⟩ : ∃ s₁ : Nap, s₁ = { s with
      kernel := ({ s.kernel with jiffies := s.kernel.jiffies + 1 }.doTimer 0 0).1 } := ⟨_, rfl⟩
    have hst : Step i deadline s (.tick 0 0) s₁ := ⟨h, hs₁⟩
    obtain ⟨s', h', hjiffies, htask, hrest⟩ := @ih s₁ (by rw [hs₁]; exact h)
    refine ⟨s', h', ?_, fun j hj => ?_, fun l' hl hc => ?_⟩
    · rw [hjiffies, hs₁, Kernel.jiffies_doTimer, BitVec.add_assoc, Nat.add_comm n 1,
        BitVec.ofNat_add]
      rfl
    · rw [htask j hj, hs₁, Kernel.task_doTimer hj]
    · obtain ⟨l, hrun, halong, hl⟩ := hrest l' hl hc
      exact ⟨(.tick 0 0, s₁) :: l, .cons hst hrun, ⟨trivial, halong⟩, congrArg _ hl⟩

/-- The task in slot 1 sleeps for a second, and returns after it. -/
theorem sleep_iff_second : ∃ l, Run (Step 1 (Kernel.oneTask.jiffies + HZ * 1))
    ⟨Kernel.oneTask.sleepBegin 1 1, false, false⟩ l ∧
    l.map Prod.fst = List.replicate 101 (.tick 0 0) ++ [.resume] ∧ ∀ x ∈ l, x.2.OnTime 1 := by
  obtain ⟨t, ht⟩ : ∃ t, t = { (Task.sysAlarm 0 1 { initTask 0x3ff000 with pid := 1 }).2 with
    state := .interruptible } := ⟨_, rfl⟩
  have htask : ∀ j, j ≠ 0 →
      (Kernel.oneTask.sleepBegin 1 1).task j = if j = 1 then some t else none := fun j hj => by
    rw [Kernel.sleepBegin, Kernel.task_modifyTask, ht]
    split_ifs with h1
    · rfl
    · exact (Kernel.task_setTask _).trans ((if_neg h1).trans (if_neg hj))
  obtain ⟨s, hret, hjiffies, hsame, hrest⟩ := @exists_ticks 1 (Kernel.oneTask.jiffies + HZ * 1)
    ⟨Kernel.oneTask.sleepBegin 1 1, false, false⟩ 101 rfl
  have hlate : (Kernel.oneTask.jiffies + HZ * 1).slt s.kernel.jiffies := by
    rw [hjiffies]
    decide
  have htimed : s.kernel.Timed := fun j u hj hu => by
    rw [hsame j hj, htask j hj] at hu
    obtain ⟨-, hu⟩ := Option.ite_none_right_eq_some.1 hu
    rw [← Option.some.inj hu, ht]
    exact ⟨by decide, by decide⟩
  -- the alarm wakes the task, which is then selected
  have hrun : s.kernel.signalPass.Runs 1 (t.ring s.kernel.jiffies).wake := by
    refine ⟨by decide, ?_, ?_⟩
    · rw [Kernel.task_signalPass (by decide), hsame 1 (by decide), htask 1 (by decide), if_pos rfl]
      rfl
    · have halarm : t.alarm = Kernel.oneTask.jiffies + HZ * 1 := by
        rw [ht]
        rfl
      exact (wakes_iff halarm (by rw [ht]) hlate).2 (.inl ⟨by decide, by rw [ht]; rfl⟩)
  obtain ⟨k', hselect⟩ := htimed.signalPass.select_only hrun fun j h0 h1 => by
    rw [Kernel.task_signalPass h0, hsame j h0, htask j h0, if_neg h1]
    rfl
  obtain ⟨l, hl, halong, hactions⟩ := hrest [(.resume, _)]
    (.cons ⟨hret, 2, k', hselect 0, rfl⟩ (.nil _)) ⟨.inr (.inr hlate), trivial⟩
  exact ⟨l, hl, hactions, (sleep_iff Kernel.oneTask 1 (by decide) rfl 1 (by decide) l hl).2 halong⟩

/-- The kernel after the boot, with a process in slot 1 for which a signal is pending. -/
def signalled : Kernel :=
  (Kernel.boot ⟨fun _ => 0, fun _ => 0, 0⟩ (4096 * 256) (4096 * 768) 0x8000).setTask 1
    (some { initTask 0x3ff000 with pid := 1, signal := 2 })

/-- A pending signal wakes the process at once, and the alarm is left when `sys_sleep` returns. -/
theorem alarm_left : ∃ l, Run (Step 1 (signalled.jiffies + HZ * 1))
    ⟨signalled.sleepBegin 1 1, false, false⟩ l ∧ ∃ x ∈ l, ¬x.2.OnTime 1 := by
  have hnext : ((signalled.sleepBegin 1 1).schedule 1).map Prod.snd = some 1 := by decide +kernel
  obtain ⟨⟨k, next⟩, hsched, rfl⟩ := Option.map_eq_some_iff.1 hnext
  obtain ⟨s, hst⟩ : ∃ s, Step 1 (signalled.jiffies + HZ * 1)
      ⟨signalled.sleepBegin 1 1, false, false⟩ .resume s := ⟨_, rfl, 1, k, hsched, rfl⟩
  refine ⟨[(.resume, s)], .cons hst (.nil s), _, List.mem_cons_self, fun hon => ?_⟩
  have hinv := inv_sleepBegin (k := signalled) (i := 1) rfl (by decide : (0 : Word).slt 1)
  rcases (OnTime.resume_iff (by decide) hinv hst).1 hon with h | h | h
  · exact absurd h (by decide)
  · cases h
  · exact absurd h (by decide)

end Nap

end NeuOs
