import NeuOs.Kernel.Exit
import NeuOs.Kernel.Select

/-!
# Waiting for a child (`sys_waitpid` in kernel/exit.c)

`sys_waitpid` looks for a child of the process, from the last slot on, that has ended or been
stopped (`WaitRound.Correct`).

The test that is meant to skip empty slots and the process itself skips all slots that have a
task, and not the others: there, the fields are read through a null pointer. `waitpid_iff` says
that this goes well exactly if all slots have a task, and no one of them is a child to wait for.
-/

namespace NeuOs

def ECHILD : Word := 10

def EINTR : Word := 4

def WNOHANG : Word := 1

def WUNTRACED : Word := 2

/-- What the loop does with a task: it goes on, it goes on and remembers that there is a child, or
    it reports a child that is stopped, or a zombie. -/
inductive Look
  | skip
  | child
  | stopped
  | zombie

/-- The tests of the loop for a task. The last one is also made if `pid` is not negative. -/
def look (current : Task) (pid options : Word) (t : Task) : Look :=
  if t.father ≠ current.pid then .skip
  else if (0 : Word).slt pid ∧ t.pid ≠ pid then .skip
  else if pid = 0 ∧ t.pgrp ≠ current.pgrp then .skip
  else if pid ≠ -1 ∧ t.pgrp ≠ -pid then .skip
  else
    match t.state with
    | .stopped => if options &&& WUNTRACED = 0 then .skip else .stopped
    | .zombie => .zombie
    | _ => .child

/-- How a scan of the slots ends: it returns, with the word for the user if there is one, or the
    process sleeps. -/
inductive Waited
  | returns (ret : Word) (k : Kernel) (stat : Option Word)
  | sleeps (k : Kernel)

/-- A scan of the slots: those whose tasks have been looked at, and how it ends. -/
structure WaitRound where
  looked : List Slot
  result : Except Panic Waited

/-- A call of `sys_waitpid`: its scans, each with the kernel before it, and how the last of them
    ends, if the call is not cut off. -/
structure WaitCall where
  scans : List (Kernel × WaitRound)
  result : Option (Except Panic Waited)

namespace Kernel

/-- The times of a child are added to those of the process in the slot `i`. -/
def addTimes (k : Kernel) (i : Slot) (t : Task) : Kernel :=
  k.modifyTask i fun c => { c with cutime := c.cutime + t.utime, cstime := c.cstime + t.stime }

/-- What `sys_waitpid` does with a zombie whose `task_struct` is in the page `p`, or nowhere. -/
def reap (k : Kernel) (i : Slot) (p : Nat) (t : Task) : Except Panic Waited := do
  let k ← (k.addTimes i t).release p
  .ok (.returns t.pid k (some t.exitCode))

/-- The end of a scan that has reported no child. -/
def endScan (k : Kernel) (i : Slot) (options : Word) (flag : Bool) : Waited :=
  if flag then
    if options &&& WNOHANG ≠ 0 then .returns 0 k none
    else .sleeps (k.modifyTask i fun t => { t with state := .interruptible })
  else .returns (-ECHILD) k none

/-- The loop over the slots. `null` is what a null pointer to a task reads. -/
def waitScan (null : Task) (k : Kernel) (i : Slot) (current : Task) (pid options : Word) :
    List Slot → Bool → WaitRound
  | [], flag => ⟨[], .ok (k.endScan i options flag)⟩
  | j :: l, flag =>
    if (k.task j).isSome || j == i then waitScan null k i current pid options l flag
    else
      let t := (k.task j).getD null
      let page := ((k.task j).map fun t => t.page).getD 0
      match look current pid options t with
      | .skip =>
        let r := waitScan null k i current pid options l flag
        { r with looked := j :: r.looked }
      | .child =>
        let r := waitScan null k i current pid options l true
        { r with looked := j :: r.looked }
      | .stopped => ⟨[j], .ok (.returns t.pid k (some 0x7f))⟩
      | .zombie => ⟨[j], k.reap i page t⟩

/-- The scan of `sys_waitpid` by the process in the slot `i`. -/
def waitRound (null : Task) (k : Kernel) (i : Slot) (pid options : Word) : WaitRound :=
  waitScan null k i ((k.task i).getD null) pid options userSlots false

/-- `sys_waitpid` after `verify_area`, in at most `fuel` scans. When the process runs again after
    its sleep number `n`, the kernel is `woken n`; with another signal than SIGCHLD, the result is
    `-EINTR` then. -/
def waitpid (null : Task) (woken : Nat → Kernel) (i : Slot) (pid options : Word) :
    Nat → Nat → Kernel → WaitCall
  | 0, _, _ => ⟨[], none⟩
  | fuel + 1, n, k =>
    let r := waitRound null k i pid options
    match r.result with
    | .ok (.sleeps _) =>
      if ((woken n).task i).any fun t => t.signal &&& ~~~sigBit SIGCHLD ≠ 0 then
        ⟨[(k, r)], some (.ok (.returns (-EINTR) (woken n) none))⟩
      else
        let c := waitpid null woken i pid options fuel (n + 1) (woken n)
        { c with scans := (k, r) :: c.scans }
    | result => ⟨[(k, r)], some result⟩

/-! ## What it is meant to do -/

/-- The task in the slot `j` is a child for which the process in the slot `i` waits. -/
def Candidate (k : Kernel) (i : Slot) (pid : Word) (j : Slot) (t : Task) : Prop :=
  j ≠ 0 ∧ j ≠ i ∧ k.task j = some t ∧ ∃ current, k.task i = some current ∧
    t.father = current.pid ∧
    if (0 : Word).slt pid then t.pid = pid
    else if pid = 0 then t.pgrp = current.pgrp
    else pid = -1 ∨ t.pgrp = -pid

/-- A child that is reported. -/
def Reported (options : Word) (t : Task) : Prop :=
  t.state = .zombie ∨ (t.state = .stopped ∧ options &&& WUNTRACED ≠ 0)

/-- The first child that is reported. -/
def FirstReported (k : Kernel) (i : Slot) (pid options : Word) (j : Slot) (t : Task) : Prop :=
  k.Candidate i pid j t ∧ Reported options t ∧
    ∀ j' t', k.Candidate i pid j' t' → Reported options t' → j' ≤ j

end Kernel

/-- What a scan is meant to do. Only tasks in slots are looked at, and not the process itself. The
    first child that is reported decides: of a zombie, the times are added, and its slot and its
    page are released. Without one, the process sleeps, or the result is 0; and without any child,
    nothing changes, and the result is `-ECHILD`. -/
structure WaitRound.Correct (r : WaitRound) (k : Kernel) (i : Slot) (pid options : Word) :
    Prop where
  looked : ∀ j ∈ r.looked, (k.task j).isSome ∧ j ≠ i
  zombie : ∀ j t, k.FirstReported i pid options j t → t.state = .zombie → ∃ m,
    k.mm.freePage t.page = .ok m ∧ r.result =
      .ok (.returns t.pid { (k.addTimes i t).setTask j none with mm := m } (some t.exitCode))
  stopped : ∀ j t, k.FirstReported i pid options j t → t.state = .stopped →
    r.result = .ok (.returns t.pid k (some 0x7f))
  hang : (∃ j t, k.Candidate i pid j t) → (¬∃ j t, k.FirstReported i pid options j t) →
    options &&& WNOHANG ≠ 0 → r.result = .ok (.returns 0 k none)
  sleeps : (∃ j t, k.Candidate i pid j t) → (¬∃ j t, k.FirstReported i pid options j t) →
    options &&& WNOHANG = 0 →
      r.result = .ok (.sleeps (k.modifyTask i fun t => { t with state := .interruptible }))
  none : r.result = .ok (.returns (-ECHILD) k none) ↔ ¬∃ j t, k.Candidate i pid j t

namespace Kernel

variable {null : Task} {k : Kernel} {i : Slot} {current : Task} {pid options : Word} {flag : Bool}
  {l : List Slot}

/-! ## The scan -/

/-- If all slots have a task, the scan looks at none of them. -/
theorem waitScan_of_full (h : ∀ j ∈ l, (k.task j).isSome) :
    waitScan null k i current pid options l flag = ⟨[], .ok (k.endScan i options flag)⟩ := by
  induction l with
  | nil => rfl
  | cons j l ih =>
    rw [waitScan, h j List.mem_cons_self, Bool.true_or, if_pos rfl]
    exact ih fun j hj => h j (List.mem_cons_of_mem _ hj)

/-- The scan looks at the first empty slot. -/
theorem exists_looked (hi : (k.task i).isSome) (h : ∃ j ∈ l, k.task j = none) :
    ∃ j ∈ (waitScan null k i current pid options l flag).looked, k.task j = none := by
  induction l with
  | nil =>
    obtain ⟨j, hj, -⟩ := h
    exact absurd hj List.not_mem_nil
  | cons j l ih =>
    cases hj : k.task j with
    | some t =>
      have hrest : ∃ j ∈ l, k.task j = none := by
        obtain ⟨j', hj', hnone⟩ := h
        rcases List.mem_cons.1 hj' with rfl | hj'
        · cases hj.symm.trans hnone
        · exact ⟨j', hj', hnone⟩
      rw [waitScan, hj, Option.isSome_some, Bool.true_or, if_pos rfl]
      exact ih hrest
    | none =>
      have hne : j ≠ i := by
        rintro rfl
        rw [hj] at hi
        cases hi
      have htest : ¬((none : Option Task).isSome || j == i) = true := by
        rw [Option.isSome_none, Bool.false_or, beq_iff_eq]
        exact hne
      refine ⟨j, ?_, hj⟩
      rw [waitScan, hj, if_neg htest]
      -- whatever the loop makes of the null pointer, it has read through it
      rw [Option.getD_none]
      dsimp only
      cases look current pid options null with
      | skip => exact List.mem_cons_self
      | child => exact List.mem_cons_self
      | stopped => exact List.mem_cons_self
      | zombie => exact List.mem_cons_self

/-- A scan does what it is meant to do exactly if all slots have a task, and there is no child to
    wait for. -/
theorem waitRound_correct_iff (null : Task) (hi : (k.task i).isSome) (pid options : Word) :
    (waitRound null k i pid options).Correct k i pid options ↔
      (∀ j, j ≠ 0 → (k.task j).isSome) ∧ ¬∃ j t, k.Candidate i pid j t := by
  by_cases hfull : ∀ j, j ≠ 0 → (k.task j).isSome
  · have hround : waitRound null k i pid options = ⟨[], .ok (.returns (-ECHILD) k none)⟩ :=
      waitScan_of_full fun j hj => hfull j (mem_userSlots.1 hj)
    rw [hround]
    constructor
    · exact fun h => ⟨hfull, h.none.1 rfl⟩
    · rintro ⟨-, hnone⟩
      refine ⟨fun j hj => absurd hj List.not_mem_nil, fun j t hj => absurd ⟨j, t, hj.1⟩ hnone,
        fun j t hj => absurd ⟨j, t, hj.1⟩ hnone, fun h => absurd h hnone, fun h => absurd h hnone,
        iff_of_true rfl hnone⟩
  · refine iff_of_false (fun h => ?_) fun h => hfull h.1
    obtain ⟨j, hj⟩ := not_forall.1 hfull
    obtain ⟨hj0, hempty⟩ := Classical.not_imp.1 hj
    have hlooked : ∃ j ∈ (waitRound null k i pid options).looked, k.task j = none :=
      exists_looked hi ⟨j, mem_userSlots.2 hj0, Option.not_isSome_iff_eq_none.1 hempty⟩
    obtain ⟨j', hj', hnone⟩ := hlooked
    have hsome := (h.looked j' hj').1
    rw [hnone] at hsome
    cases hsome

/-- A call begins with a scan. -/
theorem mem_scans (woken : Nat → Kernel) (fuel n : Nat) :
    (k, waitRound null k i pid options) ∈
      (waitpid null woken i pid options (fuel + 1) n k).scans := by
  rw [waitpid]
  rcases waitRound null k i pid options with ⟨looked, result⟩
  cases result with
  | error e => exact List.mem_cons_self
  | ok w =>
    cases w with
    | returns ret k' stat => exact List.mem_cons_self
    | sleeps k' =>
      dsimp only
      split_ifs
      · exact List.mem_cons_self
      · exact List.mem_cons_self

/-- If the first scan returns, it is the only one. -/
theorem waitpid_of_returns (woken : Nat → Kernel) (fuel n : Nat) {ret : Word} {k' : Kernel}
    {stat : Option Word}
    (h : (waitRound null k i pid options).result = .ok (.returns ret k' stat)) :
    waitpid null woken i pid options (fuel + 1) n k =
      ⟨[(k, waitRound null k i pid options)], some (.ok (.returns ret k' stat))⟩ := by
  rw [waitpid, h]

/-- Every scan of a call of `sys_waitpid` does what it is meant to do exactly if, at first, all
    slots have a task, and there is no child to wait for. -/
theorem waitpid_iff (null : Task) (woken : Nat → Kernel) (k : Kernel) (i : Slot)
    (hi : (k.task i).isSome) (pid options : Word) (fuel : Nat) :
    (∀ x ∈ (waitpid null woken i pid options (fuel + 1) 0 k).scans,
      x.2.Correct x.1 i pid options) ↔
      (∀ j, j ≠ 0 → (k.task j).isSome) ∧ ¬∃ j t, k.Candidate i pid j t := by
  rw [← waitRound_correct_iff null hi pid options]
  constructor
  · exact fun h => h _ (mem_scans woken fuel 0)
  · intro h x hx
    have hnone : ¬∃ j t, k.Candidate i pid j t :=
      ((waitRound_correct_iff null hi pid options).1 h).2
    rw [waitpid_of_returns woken fuel 0 (h.none.2 hnone)] at hx
    rw [List.eq_of_mem_singleton hx]
    exact h

/-- A kernel with a task in each slot, where no process is the child of another. -/
def childless : Kernel :=
  { boot ⟨fun _ => 0, fun _ => 0, 0⟩ (4096 * 256) (4096 * 768) 0x8000 with
    task := fun _ => some (initTask 0x8000) }

/-- There is no child to wait for. -/
theorem waitpid_iff_childless : childless.task 1 = some (initTask 0x8000) ∧
    ∀ x ∈ (waitpid (initTask 0) (fun _ => childless) 1 (-1) 0 1 0 childless).scans,
      x.2.Correct x.1 1 (-1) 0 := by
  refine ⟨rfl, (waitpid_iff (initTask 0) (fun _ => childless) childless 1 rfl (-1) 0 0).2
    ⟨fun j _ => rfl, ?_⟩⟩
  rintro ⟨j, t, -, -, ht, current, hcurrent, hfather, -⟩
  have ht' : initTask 0x8000 = t := Option.some.inj ht
  have hc' : initTask 0x8000 = current := Option.some.inj hcurrent
  rw [← ht', ← hc'] at hfather
  exact absurd hfather (by decide)

/-- A zombie, the child of the process with the pid 1. -/
def zombie : Task :=
  { initTask 0x3fe000 with pid := 2, father := 1, state := .zombie }

/-- The process in slot 1 waits, and its child, a zombie, is in slot 2. The first scan already goes
    wrong: it begins with a null pointer, in the last slot. -/
theorem zombie_not_reported :
    (oneTask.setTask 2 (some zombie)).FirstReported 1 (-1) 0 2 zombie ∧
      ¬∀ x ∈ (waitpid (initTask 0) (fun _ => oneTask) 1 (-1) 0 1 0
          (oneTask.setTask 2 (some zombie))).scans, x.2.Correct x.1 1 (-1) 0 := by
  have hone : (oneTask.setTask 2 (some zombie)).task 1 =
      some { initTask 0x3ff000 with pid := 1 } := by
    rw [task_setTask, if_neg (by decide), oneTask, task_setTask, if_pos rfl]
  refine ⟨⟨⟨by decide, by decide, rfl, _, hone, rfl, Or.inl rfl⟩, Or.inl rfl, ?_⟩, fun h => ?_⟩
  · rintro j' t' ⟨hj0, hj1, ht, -⟩ -
    rw [task_setTask] at ht
    split_ifs at ht with h2
    · exact h2.le
    · rw [oneTask, task_setTask, if_neg hj1] at ht
      exact absurd (Option.ite_none_right_eq_some.1 ht).1 hj0
  · have hround : (waitRound (initTask 0) (oneTask.setTask 2 (some zombie)) 1 (-1) 0).Correct
        (oneTask.setTask 2 (some zombie)) 1 (-1) 0 := h _ (mem_scans _ 0 0)
    have hfull :=
      ((waitRound_correct_iff (initTask 0) (Option.isSome_of_eq_some hone) (-1) 0).1 hround).1
    have hthree : (oneTask.setTask 2 (some zombie)).task 3 = none := by
      rw [task_setTask, if_neg (by decide), oneTask, task_setTask, if_neg (by decide)]
      rfl
    have hsome := hfull 3 (by decide)
    rw [hthree] at hsome
    cases hsome

end Kernel

end NeuOs
