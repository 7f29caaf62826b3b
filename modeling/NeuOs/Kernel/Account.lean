import Mathlib.Algebra.BigOperators.Pi
import Mathlib.Data.BitVec
import NeuOs.Kernel.Slices

/-!
# The times of the tasks

`do_timer` charges a tick of the clock to the task that runs: to its `stime` if the tick has
interrupted the kernel, and else to its `utime`. A child begins without time, and the times of a
task are gone with its slot.

In every run there is a task that runs, and the ticks are the times of the tasks and of those that
are gone: none is lost, and none is charged twice (`ticks_charged`).
-/

namespace NeuOs

/-- The times of a task, in user mode and in kernel mode. -/
def Task.times (t : Task) : Word × Word := (t.utime, t.stime)

/-- What a tick adds to the times of a task, with the privilege level that it interrupts. -/
def tick (cpl : Word) : Word × Word := if cpl = 0 then (0, 1) else (1, 0)

namespace Kernel

variable {lo hi : ℕ} {k k' k'' : Kernel} {i j current : Slot} {t : Task} {a : Action} {cpl : Word}

/-- The times of the task in a slot. -/
def slotTimes (k : Kernel) (j : Slot) : Word × Word := ((k.task j).map Task.times).getD 0

/-- The times of all tasks. -/
def charged (k : Kernel) : Word × Word := ∑ j, k.slotTimes j

/-- The times of a slot that is empty in `k'`. -/
def lost (k k' : Kernel) (j : Slot) : Word × Word :=
  if (k'.task j).isNone then k.slotTimes j else 0

/-- The times of the tasks that are gone in `k'`. -/
def gone (k k' : Kernel) : Word × Word := ∑ j, k.lost k' j

/-! ## The slots -/

@[simp] theorem slotTimes_none (h : k.task j = none) : k.slotTimes j = 0 := by
  rw [slotTimes, h]
  rfl

@[simp] theorem slotTimes_some (h : k.task j = some t) : k.slotTimes j = t.times := by
  rw [slotTimes, h]
  rfl

@[simp] theorem lost_none (h : k'.task j = none) : k.lost k' j = k.slotTimes j := by
  rw [lost, h]
  rfl

@[simp] theorem lost_some (h : k'.task j = some t) : k.lost k' j = 0 := by
  rw [lost, h]
  rfl

/-- A slot that is empty before loses nothing. -/
theorem lost_empty (h : k.task j = none) : k.lost k' j = 0 := by
  rw [lost, slotTimes_none h, ite_self]

/-- A slot keeps its times, or they are gone. -/
theorem slotTimes_keep
    (h : (k'.task j).map Task.times = (k.task j).map Task.times ∨ k'.task j = none) :
    k'.slotTimes j + k.lost k' j = k.slotTimes j := by
  cases ht : k'.task j with
  | none => rw [slotTimes_none ht, lost_none ht, zero_add]
  | some t =>
    rcases h with hj | hj
    · rw [lost_some ht, add_zero, slotTimes, hj, slotTimes]
    · cases ht.symm.trans hj

/-- A fork takes no times: those of the child are 0. -/
theorem Inv.slotTimes_fork (h : k.Inv lo hi) {r : Regs} (hst : Step k (.fork i r) k') (j : Slot) :
    k'.slotTimes j + k.lost k' j = k.slotTimes j := by
  obtain ⟨t, pid, ht, -, hx⟩ := hst.fork
  rcases h.fork_tasks ht hx with heq | ⟨k₀, nr, f, -, hnone, htask⟩
  · exact slotTimes_keep (.inl (congrArg _ (heq j)))
  · by_cases hj : j = nr
    · have hchild := htask j
      rw [if_pos hj] at hchild
      rw [lost_some hchild, slotTimes_some hchild, hj, slotTimes_none hnone]
      rfl
    · exact slotTimes_keep (.inl (congrArg _ ((htask j).trans (if_neg hj))))

/-- A step of the kernel charges nothing. -/
theorem Inv.slotTimes_step (h : k.Inv lo hi) (hst : Step k a k') (j : Slot) :
    k'.slotTimes j + k.lost k' j = k.slotTimes j := by
  by_cases hfork : ∃ i r, a = .fork i r
  · obtain ⟨i, r, rfl⟩ := hfork
    exact h.slotTimes_fork hst j
  · have hkeeps : KeepsTasks Task.times k k' := h.step_keepsTasks (fun _ _ => rfl) (fun _ _ => rfl)
      (fun _ _ => rfl) (fun _ _ _ _ => rfl) hst fun i r heq => hfork ⟨i, r, heq⟩
    exact slotTimes_keep ((hkeeps.task j).imp_right And.right)

/-- `do_timer` charges the task that runs, and empties no slot. -/
theorem slotTimes_doTimer (ht : k.task current = some t) (cpl : Word) (j : Slot) :
    (k.doTimer current cpl).1.slotTimes j + k.lost (k.doTimer current cpl).1 j =
      k.slotTimes j + if j = current then tick cpl else 0 := by
  have hsome : ∀ {k' : Kernel}, SameTasks (fun _ => ()) k k' → k.lost k' j = 0 := by
    intro k' hsame
    cases hj : k.task j with
    | none => exact lost_empty hj
    | some u =>
      obtain ⟨u', hu', -⟩ := hsame.task_after hj
      exact lost_some hu'
  rw [hsome (.doTimer (fun _ _ => rfl) (fun _ _ => rfl) (fun _ _ => rfl) k current cpl), add_zero]
  -- after the first statement, only counters change
  obtain ⟨k₁, hk₁⟩ : ∃ k₁, k₁ = k.modifyTask current fun t =>
      if cpl = 0 then { t with stime := t.stime + 1 } else { t with utime := t.utime + 1 } :=
    ⟨_, rfl⟩
  have htimes : SameTasks Task.times k₁ (k.doTimer current cpl).1 := by
    have hless : SameTasks Task.times k₁
        (k₁.modifyTask current fun t => { t with counter := t.counter - 1 }) :=
      .modifyTask fun _ => rfl
    rw [doTimer, ← hk₁]
    dsimp only
    split_ifs
    · exact hless
    · exact hless.trans (.modifyTask fun _ => rfl)
  rw [slotTimes, htimes.task j, hk₁, task_modifyTask]
  by_cases hj : j = current
  · rw [if_pos hj, if_pos hj, ht, hj, slotTimes_some ht]
    dsimp only [Option.map_some, Option.getD_some]
    rw [tick]
    split_ifs with hcpl
    · exact Prod.ext (add_zero _).symm rfl
    · exact Prod.ext rfl (add_zero _).symm
  · rw [if_neg hj, if_neg hj, add_zero, slotTimes]

/-! ## The sums -/

/-- What holds of the slots holds of the sums. -/
theorem charged_eq {x : Slot → Word × Word}
    (h : ∀ j, k'.slotTimes j + k.lost k' j = k.slotTimes j + x j) :
    k'.charged + k.gone k' = k.charged + ∑ j, x j := by
  rw [charged, gone, charged, ← Finset.sum_add_distrib, ← Finset.sum_add_distrib]
  exact Finset.sum_congr rfl fun j _ => h j

/-- The loops of `schedule` change no times. -/
theorem SameTasks.slotTimes (h : SameTasks Task.times k' k'') (j : Slot) :
    k''.slotTimes j + k.lost k'' j = k'.slotTimes j + k.lost k' j := by
  cases ht : k'.task j with
  | none =>
    have ht' := h.task_none.2 ht
    rw [slotTimes_none ht, slotTimes_none ht', lost_none ht, lost_none ht']
  | some t =>
    obtain ⟨t', ht', heq⟩ := h.task_after ht
    rw [slotTimes_some ht, slotTimes_some ht', lost_some ht, lost_some ht', heq]

end Kernel

/-! ## The ledger -/

namespace System

open Kernel (Booted)

variable {lo hi : ℕ} {s s' : System} {a : SystemAction} {k : Kernel} {calls : Bool}

/-- What an action adds to the times. -/
def charge : SystemAction → Word × Word
  | .timer cpl => tick cpl
  | _ => 0

/-- There is a task that runs. -/
def Occupied (s : System) : Prop := ∃ t, s.kernel.task s.current = some t

/-- The times after an action, up to the call of `schedule`. -/
theorem Good.slotTimes_acts (h : Good lo hi s.kernel) (hcur : s.Occupied) (ha : s.Acts a k calls)
    (j : Slot) : k.slotTimes j + s.kernel.lost k j =
      s.kernel.slotTimes j + if j = s.current then charge a else 0 := by
  have hplain : ∀ {k' : Kernel}, k'.slotTimes j + s.kernel.lost k' j = s.kernel.slotTimes j →
      k'.slotTimes j + s.kernel.lost k' j =
        s.kernel.slotTimes j + if j = s.current then (0 : Word × Word) else 0 := fun heq => by
    rw [heq, ite_self, add_zero]
  cases a with
  | kernel a => exact hplain (h.1.slotTimes_step ha.1 j)
  | timer cpl =>
    obtain ⟨t, ht⟩ := hcur
    obtain rfl := (Prod.mk.inj ha).1
    exact Kernel.slotTimes_doTimer (k := { s.kernel with jiffies := s.kernel.jiffies + 1 }) ht cpl j
  | schedule => exact hplain (Kernel.slotTimes_keep (.inl (ha.1 ▸ rfl)))
  | sleep interruptible =>
    have hsame : Kernel.SameTasks Task.times s.kernel k := ha.1 ▸ .modifyTask fun _ => rfl
    exact hplain (Kernel.slotTimes_keep (.inl (hsame.task j)))
  | wakeUp l =>
    have hsame : Kernel.SameTasks Task.times s.kernel k := ha.1 ▸ .modifyTask fun _ => rfl
    exact hplain (Kernel.slotTimes_keep (.inl (hsame.task j)))

/-- A step that does not call `schedule` leaves the task that runs. -/
theorem Good.occupied_acts (h : Good lo hi s.kernel) (hcur : s.Occupied)
    (ha : s.Acts a k false) : ∃ t, k.task s.current = some t := by
  obtain ⟨t, ht⟩ := hcur
  have hsome : ∀ {k₁ k₂ : Kernel}, Kernel.SameTasks (fun _ => ()) k₁ k₂ →
      k₁.task s.current = some t → ∃ t, k₂.task s.current = some t := fun hsame hj => by
    obtain ⟨t', ht', -⟩ := hsame.task_after hj
    exact ⟨t', ht'⟩
  cases a with
  | kernel a =>
    obtain ⟨hst, -, hcalls⟩ := ha
    by_cases hfork : ∃ i r, a = .fork i r
    · obtain ⟨i, r, rfl⟩ := hfork
      obtain ⟨u, pid, hu, -, hx⟩ := hst.fork
      rcases h.1.fork_tasks hu hx with heq | ⟨k₀, nr, f, -, hnone, htask⟩
      · exact ⟨t, (heq _).trans ht⟩
      · refine ⟨t, (htask _).trans ((if_neg fun heq => ?_).trans ht)⟩
        rw [heq] at ht
        cases hnone.symm.trans ht
    · have hcalls' : callsSchedule a = false := hcalls.symm
      obtain ⟨m, hsame⟩ := hst.sameTasks (φ := fun _ => ()) (fun _ _ => rfl)
        (fun _ _ _ _ => rfl) (fun i r heq => hfork ⟨i, r, heq⟩)
        (fun i e heq => by cases heq ▸ hcalls') fun i l heq => by cases heq ▸ hcalls'
      exact hsome hsame ht
  | timer cpl =>
    have hsame := Kernel.SameTasks.doTimer (φ := fun _ => ()) (fun _ _ => rfl) (fun _ _ => rfl)
      (fun _ _ => rfl) { s.kernel with jiffies := s.kernel.jiffies + 1 } s.current cpl
    obtain rfl := (Prod.mk.inj ha).1
    exact hsome hsame ht
  | schedule => cases ha.2
  | sleep interruptible => cases ha.2
  | wakeUp l => exact hsome (ha.1 ▸ .modifyTask fun _ => rfl) ht

/-- A step charges its tick, and leaves a task that runs. -/
theorem Good.step_charges (h : Good lo hi s.kernel) (hcur : s.Occupied) (hst : Step s a s') :
    s'.kernel.charged + s.kernel.gone s'.kernel = s.kernel.charged + charge a ∧ s'.Occupied := by
  obtain ⟨k, calls, ha, hend⟩ := hst
  have hslot := h.slotTimes_acts hcur ha
  have hsum : ∀ {k' : Kernel}, (∀ j, k'.slotTimes j + s.kernel.lost k' j =
      k.slotTimes j + s.kernel.lost k j) →
      k'.charged + s.kernel.gone k' = s.kernel.charged + charge a := fun heq => by
    rw [Kernel.charged_eq fun j => (heq j).trans (hslot j), Finset.sum_ite_eq' Finset.univ,
      if_pos (Finset.mem_univ _)]
  cases calls with
  | true =>
    obtain ⟨fuel, hx⟩ := hend
    have hpass : Kernel.SameTasks Task.times k k.signalPass :=
      .everyTask (fun t => by rw [Task.wake, Task.ring]; split_ifs <;> rfl) _ k
    have hsame : Kernel.SameTasks Task.times k s'.kernel :=
      hpass.trans (.select (fun _ _ => rfl) hx)
    exact ⟨hsum hsame.slotTimes, exists_scheduled (h.acts ha).1 hx⟩
  | false =>
    obtain ⟨hkernel, hcurrent⟩ := hend
    refine ⟨hsum fun j => by rw [hkernel], ?_⟩
    rw [Occupied, hkernel, hcurrent]
    exact h.occupied_acts hcur ha

/-- A system with the ticks of the clock, and the times of the tasks that are gone. -/
structure Ledger where
  system : System
  ticks : Word × Word
  released : Word × Word

namespace Ledger

/-- Nothing has been charged. -/
def Init (lo hi : ℕ) (l : Ledger) : Prop :=
  Booted lo hi l.system.kernel ∧ l.system.current = 0 ∧ l.ticks = 0 ∧ l.released = 0

/-- A step of the system, that is written down. -/
def Step (l : Ledger) (a : SystemAction) (l' : Ledger) : Prop :=
  l.system.Step a l'.system ∧ l'.ticks = l.ticks + charge a ∧
    l'.released = l.released + l.system.kernel.gone l'.system.kernel

abbrev Reachable (lo hi : ℕ) : Ledger → Prop := Transition.Reachable (Init lo hi) Step

/-- In every state, there is a task that runs; and the ticks are the times of the tasks, and of
    those that are gone. -/
theorem ticks_charged {l : Ledger} (hlo : 256 ≤ lo) (hle : lo ≤ hi) (hhi : hi ≤ 4096)
    (h : Reachable lo hi l) :
    l.system.Occupied ∧ l.system.kernel.charged + l.released = l.ticks := by
  refine (h.invariant (P := fun l => Good lo hi l.system.kernel ∧ l.system.Occupied ∧
    l.system.kernel.charged + l.released = l.ticks) ?_ ?_).2
  · rintro l ⟨hboot, hcur, hticks, hrel⟩
    have hgood := Good.boot hlo hle hhi hboot
    have htask : ∃ page, l.system.kernel.task =
        fun i => if i = 0 then some (initTask page) else none := by
      obtain ⟨m, page, -, heq⟩ := hboot
      exact ⟨page, heq ▸ rfl⟩
    obtain ⟨page, htask⟩ := htask
    refine ⟨hgood, ?_, ?_⟩
    · rw [Occupied, hcur]
      obtain ⟨t, ht, -⟩ := hgood.1.init
      exact ⟨t, ht⟩
    · rw [hticks, hrel, add_zero, Kernel.charged]
      refine Finset.sum_eq_zero fun j _ => ?_
      by_cases hj : j = 0
      · exact Kernel.slotTimes_some ((congrFun htask j).trans (if_pos hj))
      · exact Kernel.slotTimes_none ((congrFun htask j).trans (if_neg hj))
  · rintro l a l' ⟨hgood, hcur, hsum⟩ ⟨hst, hticks, hrel⟩
    obtain ⟨hstep, hcur'⟩ := hgood.step_charges hcur hst
    refine ⟨hgood.step hst, hcur', ?_⟩
    calc l'.system.kernel.charged + l'.released
        = l'.system.kernel.charged + l.system.kernel.gone l'.system.kernel + l.released := by
          rw [hrel, add_comm l.released, add_assoc]
      _ = l.system.kernel.charged + l.released + charge a := by rw [hstep, add_right_comm]
      _ = l'.ticks := by rw [hsum, hticks]

/-- Every step of the system can be written down. -/
theorem exists_step {l : Ledger} {s' : System} (h : l.system.Step a s') :
    ∃ l', l.Step a l' ∧ l'.system = s' ∧ l'.ticks = l.ticks + charge a :=
  ⟨⟨s', l.ticks + charge a, l.released + l.system.kernel.gone s'.kernel⟩, ⟨h, rfl, rfl⟩, rfl, rfl⟩

/-- The first task forks and goes to sleep, and a tick interrupts the child in user mode. -/
theorem ticks_charged_child : ∃ l l', Reachable 256 768 l ∧ l.system.current = 1 ∧
    l.Step (.timer 3) l' ∧ l'.ticks = (1, 0) ∧ l'.system.Occupied ∧
    l'.system.kernel.charged + l'.released = (1, 0) := by
  obtain ⟨k, k', t, hfork, hsleep, ht, -⟩ := exists_switch
  have hfirst : Reachable 256 768 ⟨⟨Kernel.mainKernel, 0⟩, 0, 0⟩ :=
    .init ⟨Kernel.booted_mainKernel, rfl, rfl, rfl⟩
  obtain ⟨l₁, hst₁, hsystem₁, hticks₁⟩ := @exists_step _ ⟨⟨Kernel.mainKernel, 0⟩, 0, 0⟩ _ hfork
  obtain ⟨l₂, hst₂, hsystem₂, hticks₂⟩ := exists_step (hsystem₁ ▸ hsleep)
  have hreach : Reachable 256 768 l₂ := (hfirst.step hst₁).step hst₂
  have hswitch : System.Reachable 256 768 ⟨k', 1⟩ :=
    (System.reachable_mainKernel.step hfork).step hsleep
  have hgood : Good 256 768 l₂.system.kernel :=
    hsystem₂ ▸ hswitch.good (by norm_num) (by norm_num) (by norm_num)
  obtain ⟨s', hst⟩ := hgood.exists_step (a := .timer 3) rfl
  obtain ⟨l₃, hst₃, -, hticks₃⟩ := exists_step hst
  obtain ⟨hocc, hsum⟩ := ticks_charged (by norm_num) (by norm_num) (by norm_num)
    (hreach.step hst₃)
  have hticks : l₃.ticks = (1, 0) := by
    rw [hticks₃, hticks₂, hticks₁]
    rfl
  exact ⟨l₂, l₃, hreach, by rw [hsystem₂], hst₃, hticks, hocc, hsum.trans hticks⟩

end Ledger

end System

end NeuOs
