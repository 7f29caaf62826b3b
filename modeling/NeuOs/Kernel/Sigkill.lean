import NeuOs.Kernel.Handler

/-!
# SIGKILL

`sys_ssetmask` leaves SIGKILL out of the mask ("We cannot mask SIGKILL"), and
`sys_signal` and `sys_sigaction` refuse to set its handler. But `do_signal` blocks
the whole mask of the action it delivers, which comes from user memory. In a run,
SIGKILL stays unblocked and without a handler exactly as long as no handler runs
whose mask has the bit of SIGKILL (`sigkill_free_iff`).
-/

namespace NeuOs.Kernel

open Transition (Run Along)

variable {lo hi : Nat} {k k' : Kernel} {i : Slot} {t t' : Task} {a : Action}

/-- No task has SIGKILL blocked, or a handler for it. -/
def SigkillFree (k : Kernel) : Prop :=
  ∀ j t, k.task j = some t →
    t.blocked.getLsbD (SIGKILL - 1) = false ∧ (t.action SIGKILL).saHandler = 0

/-- If the action is a return to user mode that runs a handler, the mask of the
    handler's action has not the bit of SIGKILL. -/
def MaskClear (k : Kernel) : Action → Prop
  | .deliver i r => ∀ t signr, k.task i = some t → nextSignal i t r = some signr →
      (t.action signr).saHandler ≠ 0 → (t.action signr).saHandler ≠ 1 →
      (t.action signr).saMask.getLsbD (SIGKILL - 1) = false
  | _ => True

/-- The blocked signals and the actions of a task. -/
def signals (t : Task) : Word × (Nat → Sigaction) := (t.blocked, t.sigaction)

/-- `SigkillFree` depends on the blocked signals and the actions. -/
theorem SigkillFree.of_task (h : k.SigkillFree)
    (htask : ∀ j t', k'.task j = some t' → ∃ j' t, k.task j' = some t ∧ signals t' = signals t) :
    k'.SigkillFree := by
  intro j t' ht'
  obtain ⟨j', t, ht, hs⟩ := htask j t' ht'
  obtain ⟨hblocked, hact⟩ := Prod.mk.inj hs
  rw [Task.action, hblocked, hact]
  exact h j' t ht

theorem SigkillFree.of_keepsTasks (h : k.SigkillFree) (hk : KeepsTasks signals k k') :
    k'.SigkillFree :=
  h.of_task fun j _ ht' => by
    obtain ⟨t, ht, hs⟩ := hk.task_some ht'
    exact ⟨j, t, ht, hs.symm⟩

/-- Replacing a task. -/
theorem SigkillFree.setTask_iff (h : k.SigkillFree) {k' : Kernel}
    (htask : ∀ j, k'.task j = if j = i then some t' else k.task j) :
    k'.SigkillFree ↔
      t'.blocked.getLsbD (SIGKILL - 1) = false ∧ (t'.action SIGKILL).saHandler = 0 := by
  constructor
  · intro h'
    exact h' i t' (by rw [htask, if_pos rfl])
  · intro ht' j u hu
    rw [htask] at hu
    split_ifs at hu
    · exact Option.some.inj hu ▸ ht'
    · exact h j u hu

/-- A fork: the child inherits the blocked signals and the actions. -/
theorem SigkillFree.fork (h : k.SigkillFree) (hk : k.Inv lo hi) (ht : k.task i = some t) {r : Regs}
    {w : Word} (hx : k.sysFork t r = some (.ok (w, k'))) : k'.SigkillFree := by
  rcases hk.fork_tasks ht hx with hsame | ⟨k₀, nr, f, -, -, htask⟩
  · exact fun j t' ht' => h j t' ((hsame j).symm.trans ht')
  · exact (h.setTask_iff htask).2 (h i t ht)

theorem getLsbD_sigBit : (sigBit SIGKILL).getLsbD (SIGKILL - 1) = true := by decide

/-- Setting the action of another signal. -/
theorem action_setAction {signum : Int} (hs : ¬refused signum) (sa : Sigaction) :
    (t.setAction signum.toNat sa).action SIGKILL = t.action SIGKILL := by
  have hne : SIGKILL - 1 ≠ signum.toNat - 1 := by
    rw [refused, SIGKILL] at hs
    rw [SIGKILL]
    omega
  exact Function.update_of_ne hne _ _

theorem handler_usedActions (h : (t.action SIGKILL).saHandler = 0) (signr : Nat) :
    (t.usedActions signr (SIGKILL - 1)).saHandler = 0 := by
  rw [Task.usedActions]
  split_ifs
  · rw [Function.update_apply]
    split_ifs
    · rfl
    · exact h
  · exact h

/-- What a return to user mode does to SIGKILL. -/
theorem SigkillFree.deliver_iff (h : k.SigkillFree) (ht : k.task i = some t) {r r' : Regs}
    (hok : k.deliver i t r = .ok (r', k')) :
    k'.SigkillFree ↔ k.MaskClear (.deliver i r) := by
  obtain ⟨hblocked, hhandler⟩ := h i t ht
  rcases deliver_cases hok with
    ⟨hnext, -, rfl⟩ | ⟨signr, hnext, ⟨hdefault, -, rfl⟩ | ⟨h₁, h₀, m, rfl⟩⟩
  · refine ⟨fun _ t' signr ht' hnext' => ?_, fun _ => h⟩
    rw [← Option.some.inj (ht.symm.trans ht'), hnext] at hnext'
    cases hnext'
  · refine ⟨fun _ t' signr' ht' hnext' h₀ h₁ => ?_, fun _ => ?_⟩
    · obtain rfl := Option.some.inj (ht.symm.trans ht')
      obtain rfl := Option.some.inj (hnext.symm.trans hnext')
      exact (hdefault.elim h₁ h₀).elim
    · exact (h.setTask_iff fun j => task_setTask _).2 ⟨hblocked, hhandler⟩
  · -- the mask of the action is added to the blocked signals
    refine Iff.trans (h.setTask_iff fun j => task_setTask _) ?_
    have hmask : (t.blocked ||| (t.action signr).saMask).getLsbD (SIGKILL - 1) =
        (t.action signr).saMask.getLsbD (SIGKILL - 1) := by
      rw [BitVec.getLsbD_or, hblocked, Bool.false_or]
    constructor
    · rintro ⟨hfree, -⟩ t' signr' ht' hnext' - -
      obtain rfl := Option.some.inj (ht.symm.trans ht')
      obtain rfl := Option.some.inj (hnext.symm.trans hnext')
      exact hmask.symm.trans hfree
    · intro hclear
      exact ⟨hmask.trans (hclear t signr ht hnext h₀ h₁), handler_usedActions hhandler signr⟩

/-- A step keeps SIGKILL free exactly if it runs no handler whose mask has it. -/
theorem SigkillFree.step_iff (hk : k.Inv lo hi) (h : k.SigkillFree) (hst : Step k a k') :
    k'.SigkillFree ↔ k.MaskClear a := by
  by_cases ha : a.Plain
  · have hkeep : k'.SigkillFree := h.of_keepsTasks
      (hk.step_tasks (fun _ _ => rfl) (fun _ _ => rfl) (fun _ _ => rfl) hst ha)
    refine ⟨fun _ => ?_, fun _ => hkeep⟩
    cases a <;> trivial
  · cases a with
    | fork i r =>
      obtain ⟨t, w, ht, -, hy⟩ := hst.fork
      exact ⟨fun _ => trivial, fun _ => h.fork hk ht hy⟩
    | ssetmask i newmask =>
      obtain ⟨t, ht, -, rfl⟩ := hst.ssetmask
      refine ⟨fun _ => trivial, fun _ =>
        (h.setTask_iff fun j => task_setTask _).2 ⟨?_, (h i t ht).2⟩⟩
      rw [BitVec.getLsbD_and, BitVec.getLsbD_not, getLsbD_sigBit]
      simp
    | signal i signum handler restorer =>
      obtain ⟨t, ht, -, rfl⟩ := hst.signal
      refine ⟨fun _ => trivial, fun _ => ?_⟩
      rw [sysSignal]
      split_ifs with href
      · exact h
      · -- the signal is not SIGKILL
        exact (h.setTask_iff fun j => task_setTask _).2
          ⟨(h i t ht).1, (action_setAction href _).symm ▸ (h i t ht).2⟩
    | sigaction i signum action oldAction =>
      obtain ⟨t, w, ht, -, -, hok⟩ := hst.sigaction
      refine ⟨fun _ => trivial, fun _ => ?_⟩
      rcases sysSigaction_cases hok with rfl | ⟨href, m, sa, rfl⟩
      · exact h
      · exact (h.setTask_iff fun j => task_setTask _).2
          ⟨(h i t ht).1, (action_setAction href _).symm ▸ (h i t ht).2⟩
    | deliver i r =>
      obtain ⟨t, w, ht, -, hok⟩ := hst.deliver
      exact h.deliver_iff ht hok
    | _ => exact absurd trivial ha

/-- At boot no signal is blocked and no handler set. -/
theorem Booted.sigkillFree (h : Booted lo hi k) : k.SigkillFree := by
  obtain ⟨m, page, -, rfl⟩ := h
  intro j t ht
  by_cases hj : j = 0
  · rw [hj] at ht
    obtain rfl := Option.some.inj ht
    exact ⟨show (0 : Word).getLsbD (SIGKILL - 1) = false by decide, rfl⟩
  · rw [show (boot m (4096 * lo) (4096 * hi) page).task j = none from if_neg hj] at ht
    cases ht

/-- In every run from boot, SIGKILL stays unblocked and without a handler in all
    tasks exactly if no handler runs whose mask has the bit of SIGKILL. -/
theorem sigkill_free_iff (hlo : 256 ≤ lo) (hle : lo ≤ hi) (hhi : hi ≤ 4096) (hb : Booted lo hi k)
    {l : List (Action × Kernel)} (hrun : Run Step k l) :
    k.SigkillFree ∧ ((∀ x ∈ l, x.2.SigkillFree) ↔ Along MaskClear k l) :=
  ⟨hb.sigkillFree, hrun.forall_iff_along hb.sigkillFree (hb.inv hlo hle hhi)
    (fun _ _ _ hk hst => hk.step hst) fun _ _ _ hk h hst => h.step_iff hk hst⟩

/-- SIGKILL does not stay unblocked: a process blocks it when it handles another
    signal, with the mask of an action that has the bit. -/
theorem sigkill_can_be_blocked :
    ∃ k t, Reachable 256 768 k ∧ k.task 1 = some t ∧ t.blocked.getLsbD (SIGKILL - 1) = true := by
  obtain ⟨k, k', t, hreach, ht, hst, hnext, hblocked, hact⟩ := exists_handler
  have hk' : Reachable 256 768 k' := .step hreach hst
  obtain ⟨u, r', hu, -, hok⟩ := hst.deliver
  obtain rfl := Option.some.inj (ht.symm.trans hu)
  obtain ⟨t', ht', hblocked'⟩ :=
    deliver_handler hok hnext (by rw [hact]; decide) (by rw [hact]; decide)
  refine ⟨k', t', hk', ht', ?_⟩
  rw [hblocked', hblocked, hact]
  decide

/-- The first task forks, and its child sets a handler, gets the signal, and the handler starts. -/
theorem exists_handled : ∃ pid l, Run Step mainKernel l ∧
    l.map Prod.fst = [.fork 0 default, .signal 1 10 0x100 0, .kill 0 pid 10, .deliver 1 userRegs] ∧
    Along MaskClear mainKernel l := by
  obtain ⟨k₁, t, hfork, ⟨hrun, -, -, hblocked, hsignal⟩, htask, -, hfree, hwalk⟩ :=
    exists_child default
  have ht : k₁.task 1 = some t := (htask 1).trans (if_pos rfl)
  obtain ⟨u, hu⟩ : ∃ u, u = t.setAction 10 ⟨0x100, 0, SA_ONESHOT ||| SA_NOMASK, 0⟩ := ⟨_, rfl⟩
  have hset : Step k₁ (.signal 1 10 0x100 0) (k₁.setTask 1 (some u)) := by
    refine ⟨⟨fun i hi => ?_, trivial⟩, ?_⟩
    · obtain rfl := Option.some.inj hi
      exact ⟨t, ht, hrun ▸ nofun⟩
    · rw [Kernel.exec, ht, hu]
      rfl
  have hzero : (k₁.setTask 1 (some u)).task 0 = some (initTask 0x8000) := by
    rw [task_setTask, if_neg (by decide), htask, if_neg (by decide)]
    rfl
  have hone : (k₁.setTask 1 (some u)).task 1 = some u := by rw [task_setTask, if_pos rfl]
  have hreach : Reachable 256 768 (k₁.setTask 1 (some u)) :=
    (Transition.Reachable.step reachable_mainKernel hfork).step hset
  obtain ⟨k₃, hkill, hmm, ht₃⟩ := exists_kill hreach (by omega) (by omega) (by omega) hzero
    (by decide) (by decide) hone (show (1 : ℤ) ≤ 10 by omega) (by omega)
  have hinv₃ : k₃.Inv 256 768 := (hreach.inv (by omega) (by omega) (by omega)).step hkill
  obtain ⟨v, hv⟩ : ∃ v : Task, v = { u with signal := u.signal ||| sigBit (10 : ℤ).toNat } :=
    ⟨_, rfl⟩
  rw [← hv] at ht₃
  have hact : v.action 10 = ⟨0x100, 0, SA_ONESHOT ||| SA_NOMASK, 0⟩ := by
    rw [hv, hu]
    rfl
  have hnext : nextSignal 1 v userRegs = some 10 := by
    have hdeliver : v.deliverable = (t.signal ||| sigBit 10) &&& ~~~t.blocked := by
      rw [hv, hu]
      rfl
    rw [nextSignal, hdeliver, hsignal, hblocked]
    decide
  have hlen : (v.signalFrame 10 userRegs).length = 7 := by
    rw [Task.signalFrame, hact]
    rfl
  have hpage : k₃.mm.translate (slotBase 1 + 0x1004) = some (readOnly (entryOf (4096 * 1))) := by
    rw [hmm]
    exact (hwalk 1 (by omega)).trans (if_pos (by omega))
  obtain ⟨⟨r', k₄⟩, hok⟩ := exists_deliver hinv₃ ht₃ hnext (by rw [hact]; decide)
    (by rw [hact]; decide) (by rw [hlen]; decide) (by rw [hlen]; decide) (by rw [hlen]; decide)
    hpage (by rw [hmm, mm_setTask]; omega)
  have hdeliver : Step k₃ (.deliver 1 userRegs) k₄ := by
    refine ⟨⟨fun i hi => ?_, trivial⟩, ?_⟩
    · obtain rfl := Option.some.inj hi
      refine ⟨v, ht₃, ?_⟩
      rw [hv, hu]
      exact hrun ▸ nofun
    · rw [Kernel.exec, ht₃, Option.map_some, hok]
      rfl
  refine ⟨u.pid, _, .cons hfork (.cons hset (.cons hkill (.cons hdeliver (.nil _)))), rfl, trivial,
    trivial, trivial, fun w signr hw hsig _ _ => ?_, trivial⟩
  obtain rfl := Option.some.inj (ht₃.symm.trans hw)
  obtain rfl := Option.some.inj (hnext.symm.trans hsig)
  rw [hact]
  decide

/-- In that run, SIGKILL stays free. -/
theorem sigkill_free_handled : ∃ pid l, Run Step mainKernel l ∧
    l.map Prod.fst = [.fork 0 default, .signal 1 10 0x100 0, .kill 0 pid 10, .deliver 1 userRegs] ∧
    ∀ x ∈ l, x.2.SigkillFree := by
  obtain ⟨pid, l, hrun, hactions, hclear⟩ := exists_handled
  exact ⟨pid, l, hrun, hactions, (sigkill_free_iff (by norm_num) (by norm_num) (by norm_num)
    booted_mainKernel hrun).2.2 hclear⟩

end NeuOs.Kernel
