import Mathlib.Algebra.Order.BigOperators.Group.Finset
import NeuOs.Kernel.Account
import NeuOs.Lib.Measure

/-!
# Every running task gets its turn

A task in the slots 1 to 63 that is running is selected after a bounded number of ticks that
interrupt user programs (`turn_comes`), however the other tasks sleep, wake up, exit and are
interrupted, if none of them forks in the meantime. (The task 0 is not scanned by `schedule`, which
takes it if no other task is running, so it can wait for ever.)

The measure is what the tasks have left of their counters: a tick uses up a part of it, and
`schedule` gives new counters only if the task that waits has used up its own, once. (The child of a
fork has a new counter.)
-/

namespace NeuOs

open Transition

/-- The counter and the priority. -/
def Task.rates (t : Task) : ℤ × ℤ := (t.counter.toInt, t.priority.toInt)

namespace Kernel

variable {lo hi : ℕ} {k k' : Kernel} {i j current next : Slot} {t : Task} {a : Action} {cpl : Word}

/-- The counter and the priority of the task in a slot. -/
def rates (k : Kernel) (j : Slot) : ℤ × ℤ := ((k.task j).map Task.rates).getD 0

/-- What the tasks have left of their counters. -/
def credit (k : Kernel) : ℤ := ∑ j, (k.rates j).1

/-- What they can have left of new counters. -/
def newCredit (k : Kernel) : ℤ := ∑ j, 2 * (k.rates j).2

theorem rates_none (h : k.task j = none) : k.rates j = 0 := by
  rw [rates, h]
  rfl

theorem rates_some (h : k.task j = some t) : k.rates j = t.rates := by
  rw [rates, h]
  rfl

theorem Slices.rates (h : k.Slices) (j : Slot) :
    0 ≤ (k.rates j).1 ∧ 0 ≤ (k.rates j).2 ∧ (k.rates j).1 ≤ 2 * (k.rates j).2 := by
  cases ht : k.task j with
  | none => rw [rates_none ht]; exact ⟨le_rfl, le_rfl, le_rfl⟩
  | some t =>
    obtain ⟨h₁, h₂, h₃, h₄⟩ := h j t ht
    rw [rates_some ht]
    refine ⟨h₃, ?_, ?_⟩ <;> dsimp only [Task.rates] <;> omega

/-- Tasks that go leave nothing, and the others keep their counters. -/
theorem KeepsTasks.rates_le (h : KeepsTasks Task.rates k k') (hk : k.Slices) (j : Slot) :
    (k'.rates j).1 ≤ (k.rates j).1 ∧ (k'.rates j).2 ≤ (k.rates j).2 := by
  rcases h.task j with hj | ⟨-, hj⟩
  · rw [Kernel.rates, hj]
    exact ⟨le_rfl, le_rfl⟩
  · rw [rates_none hj]
    exact ⟨(hk.rates j).1, (hk.rates j).2.1⟩

theorem SameTasks.rates (h : SameTasks Task.rates k k') (j : Slot) : k'.rates j = k.rates j := by
  rw [Kernel.rates, h.task j, Kernel.rates]

theorem credit_le (h : ∀ i, (k'.rates i).1 ≤ (k.rates i).1) : k'.credit ≤ k.credit :=
  Finset.sum_le_sum fun i _ => h i

theorem newCredit_le (h : ∀ i, (k'.rates i).2 ≤ (k.rates i).2) : k'.newCredit ≤ k.newCredit :=
  Finset.sum_le_sum fun i _ => mul_le_mul_of_nonneg_left (h i) zero_le_two

theorem Slices.credit (h : k.Slices) : 0 ≤ k.credit ∧ k.credit ≤ k.newCredit :=
  ⟨Finset.sum_nonneg fun i _ => (h.rates i).1, Finset.sum_le_sum fun i _ => (h.rates i).2.2⟩

/-! ## Ticks -/

theorem modifyTask_setTask (k : Kernel) (i : Slot) (t : Task) (f : Task → Task) :
    (k.setTask i (some t)).modifyTask i f = k.setTask i (some (f t)) := by
  rw [modifyTask, task_setTask, if_pos rfl, Option.map_some, setTask, setTask, setTask]
  dsimp only
  rw [Function.update_idem]

theorem rates_setTask (k : Kernel) (i j : Slot) (t : Task) :
    (k.setTask i (some t)).rates j = if j = i then t.rates else k.rates j := by
  rw [rates, task_setTask]
  split_ifs <;> rfl

/-- The counter of the task that runs, after a tick. -/
theorem counter_tick (h : t.Slice) : ((t.counter - 1).toInt = t.counter.toInt - 1) ∧
    ((0 : Word).slt (t.counter - 1) = true ↔ 1 < t.counter.toInt) := by
  obtain ⟨h₁, h₂, h₃, h₄⟩ := h
  have hsub : (t.counter - 1).toInt = t.counter.toInt - 1 := by
    rw [BitVec.toInt_sub, show (1 : Word).toInt = 1 from rfl, Int.bmod_def]
    split_ifs <;> omega
  refine ⟨hsub, ?_⟩
  rw [BitVec.slt_iff_toInt_lt, hsub, show (0 : Word).toInt = 0 from rfl]
  omega

/-- A tick takes one from the counter of the task that runs, if there is something left; it calls
    `schedule` if nothing is left, unless it has interrupted the kernel. -/
theorem rates_doTimer (hk : k.Slices) (ht : k.task current = some t) (cpl : Word) :
    (∀ j, (k.doTimer current cpl).1.rates j =
      if j = current then (max ((k.rates j).1 - 1) 0, (k.rates j).2) else k.rates j) ∧
    ((k.doTimer current cpl).2 = true ↔ (k.rates current).1 ≤ 1 ∧ cpl ≠ 0) := by
  obtain ⟨hsub, hslt⟩ := counter_tick (hk current t ht)
  have hnonneg := (hk current t ht).2.2.1
  obtain ⟨t₁, ht₁, hcounter, hpriority⟩ : ∃ t₁ : Task, (t₁ = if cpl = 0 then
      { t with stime := t.stime + 1 } else { t with utime := t.utime + 1 }) ∧
      t₁.counter = t.counter ∧ t₁.priority = t.priority := by
    refine ⟨_, rfl, ?_, ?_⟩ <;> split_ifs <;> rfl
  have hone : k.modifyTask current (fun t => if cpl = 0 then { t with stime := t.stime + 1 }
      else { t with utime := t.utime + 1 }) = k.setTask current (some t₁) := by
    rw [modifyTask, ht, ht₁]
    rfl
  rw [doTimer, hone]
  dsimp only
  rw [modifyTask_setTask, modifyTask_setTask, task_setTask, if_pos rfl, Option.any_some, hcounter]
  split_ifs with hpos
  · have hlt := hslt.1 hpos
    refine ⟨fun j => ?_, ?_⟩
    · rw [rates_setTask]
      split_ifs with hj
      · rw [hj, rates_some ht, Task.rates, Task.rates, hsub, hpriority]
        dsimp only
        rw [max_eq_left (by omega)]
      · rfl
    · rw [rates_some ht]
      exact ⟨fun h => (by cases h), fun h => absurd h.1 (by dsimp only [Task.rates]; omega)⟩
  · have hle : ¬1 < t.counter.toInt := fun h => hpos (hslt.2 h)
    refine ⟨fun j => ?_, ?_⟩
    · rw [rates_setTask]
      split_ifs with hj
      · rw [hj, rates_some ht, Task.rates, Task.rates, hpriority]
        dsimp only
        rw [max_eq_right (by omega)]
        rfl
      · rfl
    · rw [rates_some ht, decide_eq_true_iff]
      exact ⟨fun h => ⟨by dsimp only [Task.rates]; omega, h⟩, fun h => h.2⟩

/-- A tick takes what it uses up from the credit. -/
theorem credit_doTimer (hk : k.Slices) (ht : k.task current = some t) (cpl : Word) :
    (k.doTimer current cpl).1.credit + (if (k.rates current).1 = 0 then 0 else 1) = k.credit := by
  have hslot : ∀ i, ((k.doTimer current cpl).1.rates i).1 +
      (if i = current then if (k.rates current).1 = 0 then 0 else 1 else 0) = (k.rates i).1 := by
    intro i
    have hnonneg := (hk.rates i).1
    rw [(rates_doTimer hk ht cpl).1 i]
    by_cases hi : i = current
    · rw [if_pos hi, if_pos hi, ← hi]
      dsimp only
      split_ifs <;> omega
    · rw [if_neg hi, if_neg hi, add_zero]
  rw [credit, credit, ← Finset.sum_congr rfl fun i _ => hslot i, Finset.sum_add_distrib,
    Finset.sum_ite_eq' Finset.univ, if_pos (Finset.mem_univ _)]

/-! ## `schedule` -/

theorem select_add {x : Kernel × Slot} {fuel : ℕ} (hx : k.select fuel = some x) (n : ℕ) :
    k.select (fuel + n) = some x := by
  induction fuel generalizing k with
  | zero => cases hx
  | succ fuel ih =>
    rw [Nat.add_right_comm]
    rw [select] at hx ⊢
    split_ifs at hx ⊢
    · exact hx
    · exact ih hx

/-- What the second loop of `schedule` has done when it ends. -/
theorem Timed.of_select (h : k.Timed) {fuel : ℕ} (hx : k.select fuel = some (k', next)) :
    k'.Best next ∧ (k.UsedUp → k' = k.refill) ∧ (¬k.UsedUp → k' = k) := by
  obtain ⟨k₁, next₁, hselect, hspec⟩ := h.select_spec
  obtain ⟨rfl, rfl⟩ := Prod.mk.inj (Option.some.inj ((hselect fuel).symm.trans (select_add hx 2)))
  exact hspec

theorem rates_snd (k : Kernel) (j : Slot) :
    (k.rates j).2 = ((k.task j).map fun t => t.priority.toInt).getD 0 := by
  rw [rates]
  cases k.task j <;> rfl

/-- While a task is running, `schedule` selects one that has something left of its counter. It
    changes no counters, or the task has used up its own and gets a new one. -/
theorem rates_schedule (hk : k.Slices) {fuel : ℕ} (hx : k.schedule fuel = some (k', next))
    (hj : j ≠ 0) (ht : k'.task j = some t) (hr : t.state = .running) :
    0 < (k'.rates next).1 ∧ ((∀ i, k'.rates i = k.rates i) ∨
      (k.rates j).1 = 0 ∧ 0 < (k'.rates j).1 ∧ ∀ i, (k'.rates i).2 = (k.rates i).2) := by
  have hpass : SameTasks Task.rates k k.signalPass :=
    .everyTask (fun t => by rw [Task.wake, Task.ring]; split_ifs <;> rfl) _ k
  have hslices := hk.signalPass
  obtain ⟨hbest, hused, hnot⟩ := hslices.timed.of_select hx
  have hnext : next ≠ 0 := fun hz => hbest.zero.1 hz j t ⟨hj, ht, hr⟩
  obtain ⟨u, hu, hmax⟩ := hbest.best hnext
  rw [rates_some hu.2.1]
  by_cases hup : k.signalPass.UsedUp
  · -- the running tasks get new counters
    obtain rfl := hused hup
    have hnew : ∀ i v, k.signalPass.refill.Runs i v → 0 < v.counter.toInt := by
      intro i v hv
      obtain ⟨v₀, hv₀, -, hcounter⟩ := runs_refill hup hv
      rw [hcounter]
      exact (hslices.timed i v₀ hv₀.1 hv₀.2.1).1
    have hpriority : SameTasks (fun t => t.priority.toInt) k.signalPass k.signalPass.refill :=
      SameTasks.everyTask (f := Task.refill) (fun _ => rfl) userSlots k.signalPass
    have hrun : k.signalPass.refill.Runs j t := ⟨hj, ht, hr⟩
    obtain ⟨t₀, ht₀, -, -⟩ := runs_refill hup hrun
    refine ⟨hnew _ _ hu, .inr ⟨?_, ?_, fun i => ?_⟩⟩
    · rw [← hpass.rates, rates_some ht₀.2.1, Task.rates, hup.2 j t₀ ht₀]
      rfl
    · rw [rates_some ht]
      exact hnew j t ⟨hj, ht, hr⟩
    · rw [← hpass.rates, rates_snd, hpriority.task i, ← rates_snd]
  · obtain rfl := hnot hup
    refine ⟨?_, .inl hpass.rates⟩
    -- a running task has something left
    by_contra hle
    refine hup ⟨⟨j, t, hj, ht, hr⟩, fun i v hv => ?_⟩
    have hvle := (hmax i v hv).1
    have hvnonneg := (hslices i v hv.2.1).2.2.1
    have hu0 : u.counter.toInt ≤ 0 := not_lt.1 hle
    exact BitVec.eq_of_toInt_eq (show v.counter.toInt = 0 by omega)

end Kernel

namespace System

variable {lo hi : ℕ} {s s' : System} {a : SystemAction} {k : Kernel} {calls : Bool} {j : Slot}

/-- No task forks. -/
def NoFork (a : SystemAction) : Prop := ∀ i r, a ≠ .kernel (.fork i r)

/-- The tick of the clock interrupts a user program. -/
def userTick : SystemAction → Bool
  | .timer cpl => cpl ≠ 0
  | _ => false

/-- The task in the slot is running, but it is not the one that runs. -/
def Waits (j : Slot) (s : System) : Prop :=
  s.current ≠ j ∧ ∃ t, s.kernel.task j = some t ∧ t.state = .running

/-- The ticks that the task in the slot can still have to wait for. -/
def patience (j : Slot) (s : System) : ℤ :=
  2 * s.kernel.credit + (if (s.kernel.rates s.current).1 = 0 then 1 else 0) +
    if (s.kernel.rates j).1 = 0 then 2 * s.kernel.newCredit + 1 else 0

/-- The counters after an action that is no tick, up to the call of `schedule`. -/
theorem Good.rates_acts (h : Good lo hi s.kernel) (ha : s.Acts a k calls) (hfork : NoFork a)
    (htimer : ∀ cpl, a ≠ .timer cpl) : Kernel.KeepsTasks Task.rates s.kernel k ∧
      (calls = false → k.rates s.current = s.kernel.rates s.current) := by
  have hsame : ∀ {k' : Kernel} {m : Mm}, Kernel.SameTasks Task.rates { s.kernel with mm := m } k' →
      Kernel.KeepsTasks Task.rates s.kernel k' ∧
        (calls = false → k'.rates s.current = s.kernel.rates s.current) := fun hsame =>
    ⟨hsame.keepsTasks, fun _ => hsame.rates s.current⟩
  cases a with
  | kernel a =>
    obtain ⟨hst, -, hcalls⟩ := ha
    have hfork' : ∀ i r, a ≠ .fork i r := fun i r heq => hfork i r (heq ▸ rfl)
    refine ⟨h.1.step_keepsTasks (fun _ _ => rfl) (fun _ _ => rfl) (fun _ _ => rfl)
      (fun _ _ _ _ => rfl) hst hfork', fun hfalse => ?_⟩
    have hcalls' : callsSchedule a = false := hcalls.symm.trans hfalse
    obtain ⟨m, hsame'⟩ := hst.sameTasks (φ := Task.rates) (fun _ _ => rfl) (fun _ _ _ _ => rfl)
      hfork' (fun i e heq => by cases heq ▸ hcalls') fun i l heq => by cases heq ▸ hcalls'
    exact (hsame hsame').2 hfalse
  | timer cpl => exact absurd rfl (htimer cpl)
  | schedule => exact hsame (m := s.kernel.mm) (ha.1 ▸ .refl _ _)
  | sleep interruptible => exact hsame (m := s.kernel.mm) (ha.1 ▸ .modifyTask fun _ => rfl)
  | wakeUp l => exact hsame (m := s.kernel.mm) (ha.1 ▸ .modifyTask fun _ => rfl)

/-- `schedule` keeps the patience, if the task that waits has kept its counter before. -/
theorem patience_schedule (hk : k.Slices) (hs : s.kernel.Slices) (hj : j ≠ 0) {fuel : ℕ}
    (hx : k.schedule fuel = some (s'.kernel, s'.current)) (hs' : s'.kernel.Slices)
    (hw : Waits j s') (hkeep : (k.rates j).1 = (s.kernel.rates j).1)
    (hnew : k.newCredit ≤ s.kernel.newCredit) {d : ℤ} (hd : d ≤ 1)
    (hcredit : 2 * k.credit + d ≤
      2 * s.kernel.credit + if (s.kernel.rates s.current).1 = 0 then 1 else 0) :
    patience j s' + d ≤ patience j s := by
  obtain ⟨-, t, ht, hr⟩ := hw
  have hflag : (0 : ℤ) ≤ if (s.kernel.rates s.current).1 = 0 then 1 else 0 := by
    split_ifs <;> decide
  have hcredits := hs.credit.1
  have hcredits' := hs'.credit
  obtain ⟨hpos, hsame | ⟨hzero, hposj, hpriority⟩⟩ := Kernel.rates_schedule hk hx hj ht hr
  · have hc : s'.kernel.credit ≤ k.credit := Kernel.credit_le fun i => by rw [hsame i]
    have hn : s'.kernel.newCredit ≤ k.newCredit := Kernel.newCredit_le fun i => by rw [hsame i]
    rw [patience, patience, if_neg hpos.ne', hsame j, hkeep]
    split_ifs at hcredit ⊢ <;> omega
  · have hn : s'.kernel.newCredit ≤ k.newCredit := Kernel.newCredit_le fun i => by
      rw [hpriority i]
    rw [patience, patience, if_neg hpos.ne', if_neg hposj.ne', if_pos (hkeep.symm.trans hzero)]
    omega

/-- A tick does not raise the patience of a task that waits, and one that interrupts a user program
    lowers it. -/
theorem Good.patience_timer (h : Good lo hi s.kernel) (hcur : s.Occupied) (hj : j ≠ 0)
    (hw : Waits j s) {cpl : Word} (hst : Step s (.timer cpl) s') (hw' : Waits j s') :
    patience j s' + (if cpl ≠ 0 then 1 else 0) ≤ patience j s := by
  have hgood' := h.step hst
  obtain ⟨k, calls, ha, hend⟩ := hst
  have hk := h.acts ha
  obtain ⟨t, ht⟩ := hcur
  obtain ⟨k₀, hk₀⟩ : ∃ k₀, k₀ = { s.kernel with jiffies := s.kernel.jiffies + 1 } := ⟨_, rfl⟩
  have hslices₀ : k₀.Slices := hk₀ ▸ h.2
  have ht₀ : k₀.task s.current = some t := hk₀ ▸ ht
  have hsame : ∀ i, k₀.rates i = s.kernel.rates i := fun i => hk₀ ▸ rfl
  have hcredit₀ : k₀.credit = s.kernel.credit := hk₀ ▸ rfl
  obtain ⟨hrates, hcalls⟩ := Kernel.rates_doTimer hslices₀ ht₀ cpl
  have hcredit := Kernel.credit_doTimer hslices₀ ht₀ cpl
  have hacts : (k, calls) = k₀.doTimer s.current cpl := hk₀ ▸ ha
  have hk₁ : (k₀.doTimer s.current cpl).1 = k := (congrArg Prod.fst hacts).symm
  have hk₂ : (k₀.doTimer s.current cpl).2 = calls := (congrArg Prod.snd hacts).symm
  rw [hk₁, hcredit₀, hsame] at hcredit
  rw [hk₁] at hrates
  rw [hk₂, hsame] at hcalls
  have hkeep : (k.rates j).1 = (s.kernel.rates j).1 := by
    rw [hrates j, if_neg hw.1.symm, hsame]
  have hnew : k.newCredit ≤ s.kernel.newCredit := Kernel.newCredit_le fun i => by
    rw [hrates i, hsame]
    split_ifs <;> exact le_rfl
  cases calls with
  | true =>
    obtain ⟨fuel, hx⟩ := hend
    refine patience_schedule hk.2 h.2 hj hx hgood'.2 hw' hkeep hnew ?_ ?_
    · split_ifs <;> decide
    · split_ifs at hcredit ⊢ <;> omega
  | false =>
    obtain ⟨hkernel, hcurrent⟩ := hend
    have hleft := hrates s.current
    rw [if_pos rfl, hsame] at hleft
    have hnonneg := (h.2.rates s.current).1
    have hcalls' : ¬((s.kernel.rates s.current).1 ≤ 1 ∧ cpl ≠ 0) := fun h => by
      cases hcalls.2 h
    rw [patience, patience, hkernel, hcurrent, hleft, hkeep]
    dsimp only
    rcases le_or_gt (s.kernel.rates s.current).1 1 with hc | hc
    · rw [max_eq_right (by omega)]
      have hnot : ¬cpl ≠ 0 := fun h => hcalls' ⟨hc, h⟩
      split_ifs at hcredit ⊢ <;> omega
    · rw [max_eq_left (by omega)]
      split_ifs at hcredit ⊢ <;> omega

/-- A task that waits after the step is there when `schedule` is called. -/
theorem Waits.task_ne_none (hw : Waits j s') (h : if calls then ∃ fuel,
    k.schedule fuel = some (s'.kernel, s'.current) else s'.kernel = k ∧ s'.current = s.current) :
    k.task j ≠ none := by
  intro hnone
  obtain ⟨-, t, ht, -⟩ := hw
  cases calls with
  | true =>
    obtain ⟨fuel, hx⟩ := h
    have hsame := (sameTasks_signalPass k).trans (.select (fun _ _ => rfl) hx)
    cases ht.symm.trans (hsame.task_none.2 hnone)
  | false =>
    rw [h.1] at ht
    cases ht.symm.trans hnone

/-- A step that is no tick and no fork does not raise the patience of a task that waits. -/
theorem Good.patience_acts (h : Good lo hi s.kernel) (hj : j ≠ 0) (hst : Step s a s')
    (hfork : NoFork a) (htimer : ∀ cpl, a ≠ .timer cpl) (hw' : Waits j s') :
    patience j s' ≤ patience j s := by
  have hgood' := h.step hst
  obtain ⟨k, calls, ha, hend⟩ := hst
  have hk := h.acts ha
  obtain ⟨hkeeps, hstay⟩ := h.rates_acts ha hfork htimer
  have hle := hkeeps.rates_le h.2
  have hkeep : k.rates j = s.kernel.rates j := by
    rcases hkeeps.task j with hj' | ⟨-, hj'⟩
    · rw [Kernel.rates, hj', Kernel.rates]
    · exact absurd hj' (hw'.task_ne_none hend)
  have hcredit : k.credit ≤ s.kernel.credit := Kernel.credit_le fun i => (hle i).1
  have hnew : k.newCredit ≤ s.kernel.newCredit := Kernel.newCredit_le fun i => (hle i).2
  cases calls with
  | true =>
    obtain ⟨fuel, hx⟩ := hend
    rw [← add_zero (patience j s')]
    refine patience_schedule hk.2 h.2 hj hx hgood'.2 hw' (by rw [hkeep]) hnew zero_le_one ?_
    split_ifs <;> omega
  | false =>
    obtain ⟨hkernel, hcurrent⟩ := hend
    rw [patience, patience, hkernel, hcurrent, hstay rfl, hkeep]
    split_ifs <;> omega

/-- A step that is no fork does not raise the patience of a task that waits, and a tick that
    interrupts a user program lowers it. -/
theorem Good.patience_step (h : Good lo hi s.kernel) (hcur : s.Occupied) (hj : j ≠ 0)
    (hw : Waits j s) (hst : Step s a s') (hfork : NoFork a) (hw' : Waits j s') :
    patience j s' + (if userTick a then 1 else 0) ≤ patience j s := by
  by_cases htimer : ∃ cpl, a = .timer cpl
  · obtain ⟨cpl, rfl⟩ := htimer
    have htick : userTick (.timer cpl) = true ↔ cpl ≠ 0 := decide_eq_true_iff
    simp only [htick]
    exact h.patience_timer hcur hj hw hst hw'
  · have htimer' : ∀ cpl, a ≠ .timer cpl := fun cpl heq => htimer ⟨cpl, heq⟩
    have htick : userTick a = false := by
      cases a with
      | timer cpl => exact absurd rfl (htimer' cpl)
      | _ => rfl
    rw [htick, if_neg Bool.false_ne_true, add_zero]
    exact h.patience_acts hj hst hfork htimer' hw'

/-- In every reachable state, there is a task that runs. -/
theorem Reachable.occupied (hlo : 256 ≤ lo) (hle : lo ≤ hi) (hhi : hi ≤ 4096)
    (h : Reachable lo hi s) : s.Occupied := by
  refine (h.invariant (P := fun s => Good lo hi s.kernel ∧ s.Occupied) (fun s hs => ?_)
    fun s a s' hs hst => ⟨hs.1.step hst, (hs.1.step_charges hs.2 hst).2⟩).2
  have hgood := Good.boot hlo hle hhi hs.1
  obtain ⟨t, ht, -⟩ := hgood.1.init
  exact ⟨hgood, t, hs.2 ▸ ht⟩

/-- The patience in terms of the priorities. -/
theorem patience_le (h : s.kernel.Slices) : patience j s ≤ 4 * s.kernel.newCredit + 2 := by
  have hcredit := h.credit
  rw [patience]
  split_ifs <;> omega

/-- While a task in the slots 1 to 63 is running, and is not the one that runs, and no task forks,
    there are at most as many ticks that interrupt user programs as the priorities of the tasks
    allow. -/
theorem turn_comes (hlo : 256 ≤ lo) (hle : lo ≤ hi) (hhi : hi ≤ 4096) (h : Reachable lo hi s)
    (hj : j ≠ 0) (hw : Waits j s) {l : List (SystemAction × System)} (hrun : Run Step s l)
    (hl : ∀ x ∈ l, NoFork x.1 ∧ Waits j x.2) :
    (l.countP fun x => userTick x.1 : ℕ) ≤ 4 * s.kernel.newCredit + 2 := by
  have hgood := h.good hlo hle hhi
  refine le_trans ?_ (@patience_le s j hgood.2)
  refine hrun.countP_le (J := fun s => Good lo hi s.kernel ∧ s.Occupied ∧ Waits j s)
    (Q := fun a s' => NoFork a ∧ Waits j s') ⟨hgood, h.occupied hlo hle hhi, hw⟩ hl ?_ ?_
  · rintro s ⟨hs, -, -⟩
    have hcredit := hs.2.credit
    rw [patience]
    split_ifs <;> omega
  · rintro s a s' ⟨hs, hcur, hw⟩ hst ⟨hfork, hw'⟩
    exact ⟨⟨hs.step hst, (hs.step_charges hcur hst).2, hw'⟩,
      hs.patience_step hcur hj hw hst hfork hw'⟩

/-- A child waits while a tick interrupts the first task. -/
theorem turn_comes_child : ∃ s s' : System, Reachable 256 768 s ∧ Waits 1 s ∧ Waits 1 s' ∧
    s.Step (.timer 3) s' ∧
    (([(.timer 3, s')] : List (SystemAction × System)).countP fun x => userTick x.1 : ℕ) ≤
      4 * s.kernel.newCredit + 2 := by
  obtain ⟨k, t, hfork, hchild, hfirst, -, hrun, -⟩ := exists_child
  have hreach : Reachable 256 768 ⟨k, 0⟩ := reachable_mainKernel.step hfork
  obtain ⟨k₀, hk₀⟩ : ∃ k₀ : Kernel, k₀ = { k with jiffies := k.jiffies + 1 } := ⟨_, rfl⟩
  have hzero : k₀.task 0 = some (initTask 0x8000) := hk₀ ▸ hfirst
  have hslices : k₀.Slices :=
    hk₀ ▸ (hreach.good (by norm_num) (by norm_num) (by norm_num)).2
  -- the first task has a part of its time slice left
  have hcalls : (k₀.doTimer 0 3).2 = false := by
    by_contra htrue
    have hle := ((Kernel.rates_doTimer hslices hzero 3).2.1 (by simpa using htrue)).1
    rw [Kernel.rates_some hzero] at hle
    exact absurd hle (by decide)
  have hst : Step ⟨k, 0⟩ (.timer 3) ⟨(k₀.doTimer 0 3).1, 0⟩ := by
    refine ⟨_, _, show ((k₀.doTimer 0 3).1, (k₀.doTimer 0 3).2) = _ from hk₀ ▸ rfl, ?_⟩
    rw [hcalls]
    exact ⟨rfl, rfl⟩
  have hsame : Kernel.SameTasks (fun t => t.state) k₀ (k₀.doTimer 0 3).1 :=
    .doTimer (fun _ _ => rfl) (fun _ _ => rfl) (fun _ _ => rfl) _ _ _
  have hwait : Waits 1 ⟨k, 0⟩ := ⟨(by decide : (0 : Slot) ≠ 1), t, hchild, hrun⟩
  have hwait' : Waits 1 ⟨(k₀.doTimer 0 3).1, 0⟩ := by
    have hchild₀ : k₀.task 1 = some t := hk₀ ▸ hchild
    obtain ⟨t', ht', heq⟩ := hsame.task_after hchild₀
    exact ⟨(by decide : (0 : Slot) ≠ 1), t', ht', heq.trans hrun⟩
  refine ⟨_, _, hreach, hwait, hwait', hst, turn_comes (by norm_num) (by norm_num) (by norm_num)
    hreach (by decide) hwait (.cons hst (.nil _)) fun x hx => ?_⟩
  rw [List.mem_singleton.1 hx]
  exact ⟨fun i r heq => (by cases heq), hwait'⟩

end System

end NeuOs
