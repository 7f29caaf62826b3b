import NeuOs.Kernel.Family
import NeuOs.Kernel.Sigkill

/-!
# Handlers that block their signal

`sys_sigaction` adds the signal to the mask of an action that has not `SA_NOMASK`
(`Task.Masked`), and `do_signal` blocks the whole mask. The signal is delivered no
more while it is blocked, and only `sys_ssetmask` unblocks signals: so the handler of
such an action is not entered again while it runs (`handler_not_reentered`). A
handler returns through a restorer, which runs in user mode and unblocks nothing.
-/

namespace NeuOs

variable {t : Task} {sa : Sigaction} {signum : Int}

/-- The actions that have a handler and not `SA_NOMASK` have their signal in their
    mask. -/
def Task.Masked (t : Task) : Prop :=
  ∀ n, 1 ≤ n → n ≤ 32 → (t.action n).saHandler ≠ 0 → (t.action n).saFlags &&& SA_NOMASK = 0 →
    (t.action n).saMask.getLsbD (n - 1) = true

theorem getLsbD_sigBit_self {n : Nat} (h₁ : 1 ≤ n) (h₂ : n ≤ 32) :
    (sigBit n).getLsbD (n - 1) = true := by
  rw [sigBit, BitVec.getLsbD_shiftLeft]
  simp
  omega

theorem Task.Masked.setAction (h : t.Masked) (hs : ¬Kernel.refused signum)
    (hsa : sa.saHandler ≠ 0 → sa.saFlags &&& SA_NOMASK = 0 →
      sa.saMask.getLsbD (signum.toNat - 1) = true) : (t.setAction signum.toNat sa).Masked := by
  rw [Kernel.refused] at hs
  intro n h₁ h₂
  by_cases hn : n = signum.toNat
  · have hself : (t.setAction signum.toNat sa).action n = sa := by
      rw [hn]
      exact Function.update_self _ _ _
    rw [hself, hn]
    exact hsa
  · have hne : (t.setAction signum.toNat sa).action n = t.action n :=
      Function.update_of_ne (show n - 1 ≠ signum.toNat - 1 by omega) _ _
    rw [hne]
    exact h n h₁ h₂

/-- The action that `sys_signal` sets has `SA_NOMASK`. -/
theorem Task.Masked.signal (h : t.Masked) (hs : ¬Kernel.refused signum) (handler restorer : Word) :
    (t.setAction signum.toNat ⟨handler, 0, SA_ONESHOT ||| SA_NOMASK, restorer⟩).Masked :=
  h.setAction hs fun _ hflag =>
    absurd hflag (show ¬(SA_ONESHOT ||| SA_NOMASK) &&& SA_NOMASK = 0 by decide)

/-- The action that `sys_sigaction` sets has its signal in its mask. -/
theorem Task.Masked.sigaction (h : t.Masked) (hs : ¬Kernel.refused signum) (sa : Sigaction) :
    (t.setAction signum.toNat (Kernel.maskAction signum.toNat sa)).Masked := by
  refine h.setAction hs fun _ hflag => ?_
  rw [Kernel.refused] at hs
  rw [Kernel.maskAction] at hflag ⊢
  split_ifs at hflag ⊢ with hnomask
  · exact absurd hflag hnomask
  · rw [BitVec.getLsbD_or, getLsbD_sigBit_self (by omega) (by omega), Bool.or_true]

/-- A handler that runs once is gone. -/
theorem Task.Masked.usedActions (h : t.Masked) (signr : Nat) {u : Task}
    (hu : u.sigaction = t.usedActions signr) : u.Masked := by
  intro n h₁ h₂
  rw [Task.action, hu, Task.usedActions]
  split_ifs
  · rw [Function.update_apply]
    split_ifs
    · exact fun hc => absurd rfl hc
    · exact h n h₁ h₂
  · exact h n h₁ h₂

namespace Kernel

open Transition (Run)

variable {lo hi n : Nat} {k k' : Kernel} {i j : Slot} {a : Action}

/-- The actions of all tasks are as `sys_sigaction` leaves them. -/
def MaskedActions (k : Kernel) : Prop := ∀ j t, k.task j = some t → t.Masked

theorem MaskedActions.of_task (h : k.MaskedActions)
    (htask : ∀ j t', k'.task j = some t' →
      ∃ j' t, k.task j' = some t ∧ t'.sigaction = t.sigaction) : k'.MaskedActions := by
  intro j t' ht'
  obtain ⟨j', t, ht, hact⟩ := htask j t' ht'
  have hm := h j' t ht
  rw [Task.Masked] at hm ⊢
  simp only [Task.action, hact] at hm ⊢
  exact hm

theorem MaskedActions.setTask (h : k.MaskedActions) {k' : Kernel}
    (htask : ∀ j, k'.task j = if j = i then some t else k.task j) (hm : t.Masked) :
    k'.MaskedActions := by
  intro j u hu
  rw [htask] at hu
  split_ifs at hu
  · exact Option.some.inj hu ▸ hm
  · exact h j u hu

theorem Booted.maskedActions (h : Booted lo hi k) : k.MaskedActions := by
  obtain ⟨m, page, -, rfl⟩ := h
  intro j t ht n _ _ h₀
  by_cases hj : j = 0
  · rw [hj] at ht
    obtain rfl := Option.some.inj ht
    exact absurd rfl h₀
  · cases (if_neg hj).symm.trans ht

/-- Every step keeps the actions so. -/
theorem MaskedActions.step (h : k.MaskedActions) (hk : k.Inv lo hi) (hst : Step k a k') :
    k'.MaskedActions := by
  by_cases ha : a.Plain
  · refine h.of_task fun j t' ht' => ?_
    obtain ⟨t, ht, hs⟩ :=
      (hk.step_tasks (φ := fun t => t.sigaction) (fun _ _ => rfl) (fun _ _ => rfl)
      (fun _ _ => rfl) hst ha).task_some ht'
    exact ⟨j, t, ht, hs.symm⟩
  · cases a with
    | fork i r =>
      obtain ⟨t, w, ht, -, hy⟩ := hst.fork
      rcases hk.fork_tasks ht hy with hsame | ⟨k₀, nr, f, -, -, htask⟩
      · exact h.of_task fun j t' ht' => ⟨j, t', (hsame j).symm.trans ht', rfl⟩
      · -- the child has the actions of its father
        exact h.setTask htask (h i t ht)
    | ssetmask i newmask =>
      obtain ⟨t, ht, -, rfl⟩ := hst.ssetmask
      exact h.setTask (fun j => task_setTask _) (h i t ht)
    | signal i signum handler restorer =>
      obtain ⟨t, ht, -, rfl⟩ := hst.signal
      rw [sysSignal]
      split_ifs with href
      · exact h
      · exact h.setTask (fun j => task_setTask _) ((h i t ht).signal href handler restorer)
    | sigaction i signum action oldAction =>
      obtain ⟨t, w, ht, -, -, hok⟩ := hst.sigaction
      rcases sysSigaction_cases hok with rfl | ⟨href, m, sa, rfl⟩
      · exact h
      · exact h.setTask (fun j => task_setTask _) ((h i t ht).sigaction href sa)
    | deliver i r =>
      obtain ⟨t, w, ht, -, hok⟩ := hst.deliver
      rcases deliver_cases hok with ⟨-, -, rfl⟩ | ⟨signr, -, ⟨-, -, rfl⟩ | ⟨-, -, m, rfl⟩⟩
      · exact h
      · exact h.setTask (fun j => task_setTask _) (h i t ht)
      · exact h.setTask (fun j => task_setTask _) ((h i t ht).usedActions signr rfl)
    | _ => exact absurd trivial ha

theorem Reachable.maskedActions (hlo : 256 ≤ lo) (hle : lo ≤ hi) (hhi : hi ≤ 4096)
    (h : Reachable lo hi k) : k.MaskedActions :=
  (h.invariant (P := fun k => k.Inv lo hi ∧ k.MaskedActions)
    (fun _ hb => ⟨hb.inv hlo hle hhi, hb.maskedActions⟩) fun _ _ _ hk hst =>
      ⟨hk.1.step hst, hk.2.step hk.1 hst⟩).2

/-! ## What the other processes do to a process -/

/-- The signal `n + 1` is blocked in the task in the slot `i`. -/
def Blocked (k : Kernel) (i : Slot) (n : Nat) : Prop :=
  ∃ t, k.task i = some t ∧ t.blocked.getLsbD n = true

/-- The signal `n + 1` is pending in the task in the slot `i`. -/
def Pending (k : Kernel) (i : Slot) (n : Nat) : Prop :=
  ∃ t, k.task i = some t ∧ t.signal.getLsbD n = true

/-- The action neither changes the blocked signals of the process in the slot `i`
    with `sys_ssetmask`, nor ends the process. -/
def Stays (i : Slot) : Action → Prop
  | .ssetmask j _ | .exit j _ | .release _ j => j ≠ i
  | _ => True

/-- `send_sig` raises a signal in the task of the slot `p`, if any. -/
theorem task_sendSig_raise (current : Task) {t : Task} (sig : Int) (p : Slot)
    (ht : k.task j = some t) : ∃ s, (k.sendSig current sig p true).2.task j = some (raise t s) := by
  rw [sendSig]
  split
  · exact ⟨0, by rw [raise_zero, ht]⟩
  · split_ifs
    · exact ⟨0, by rw [raise_zero, ht]⟩
    · by_cases hj : j = p
      · refine ⟨sigBit sig.toNat, ?_⟩
        rw [task_modifyTask, if_pos hj, ← hj, ht]
        rfl
      · exact ⟨0, by rw [raise_zero, task_modifyTask, if_neg hj, ht]⟩
    · exact ⟨0, by rw [raise_zero, ht]⟩

theorem task_killSlots_raise (current : Task) {t : Task} (pid : Word) (sig : Int) (ps : List Slot)
    (retval : Int) (ht : k.task j = some t) :
    ∃ s, (killSlots current pid sig ps retval k).2.task j = some (raise t s) := by
  induction ps generalizing retval k t with
  | nil => exact ⟨0, by rw [raise_zero]; exact ht⟩
  | cons p ps ih =>
    rw [killSlots]
    split_ifs
    · obtain ⟨s, hs⟩ := task_sendSig_raise current sig p ht
      obtain ⟨s', hs'⟩ := ih _ hs
      exact ⟨s ||| s', by rw [raise_raise] at hs'; exact hs'⟩
    · exact ih retval ht

/-- `sys_kill` raises signals. -/
theorem task_sysKill (current : Task) {t : Task} (ht : k.task j = some t) (pid : Word) (sig : Int) :
    ∃ s, (k.sysKill current pid sig).2.task j = some (raise t s) := by
  rw [sysKill]
  split_ifs
  · exact task_killSlots_raise current pid sig _ 0 ht
  · exact ⟨0, by rw [raise_zero, ht]⟩

/-- An exit leaves the other processes, but for their father and signals raised. -/
theorem Inv.task_doExit (hk : k.Inv lo hi) {current t : Task} (hi : k.task i = some current)
    (hi0 : i ≠ 0) (hj0 : j ≠ 0) (hj : j ≠ i) (ht : k.task j = some t) {code : Word}
    (hx : k.doExit i current code = .ok k') :
    ∃ s, k'.task j = some (raise (adopt current.pid t) s) := by
  obtain ⟨m₁, -, hx⟩ := Except.bind_eq_ok.1 hx
  obtain ⟨m₂, -, hx⟩ := Except.bind_eq_ok.1 hx
  obtain ⟨s, hs⟩ := task_orphan (k := { k with mm := m₂ }) current (List.finRange 64) ht
  rw [if_pos (List.mem_finRange j)] at hs
  obtain ⟨k₂, hk₂⟩ : ∃ k₂, k₂ = (orphan current (List.finRange 64) { k with mm := m₂ }).modifyTask i
      fun t => { t with state := .zombie, exitCode := code } := ⟨_, rfl⟩
  have htask : k₂.task j = some (raise (adopt current.pid t) s) := by
    rw [hk₂, task_modifyTask, if_neg hj, hs]
  -- the father gets a SIGCHLD, or the process releases itself
  have htell : k₂.tellFather current (((k₂.task i).map fun t => t.father).getD current.father) =
      .ok k' := by
    rw [hk₂]
    exact hx
  rw [tellFather] at htell
  split at htell
  · next f _ =>
    rw [← Except.ok.inj htell]
    by_cases hf : j = f
    · refine ⟨s ||| sigBit SIGCHLD, ?_⟩
      rw [task_modifyTask, if_pos hf, ← hf, htask, Option.map_some, ← raise_raise]
      rfl
    · exact ⟨s, by rw [task_modifyTask, if_neg hf, htask]⟩
  · rw [release] at htell
    split_ifs at htell
    · exact ⟨s, Except.ok.inj htell ▸ htask⟩
    · rcases k₂.findTask_cases fun t => t.page = current.page with ⟨hnone, -⟩ | ⟨f, u, hf, hu, hp⟩
      · rw [hnone] at htell
        cases htell
      · rw [hf] at htell
        obtain ⟨m₃, -, htell⟩ := Except.bind_eq_ok.1 htell
        rw [← Except.ok.inj htell]
        -- The task that is released has the page of the one that exits.
        have hne : j ≠ f := by
          rintro rfl
          rw [← Option.some.inj (htask.symm.trans hu)] at hp
          have hpage : t.page = current.page :=
            (page_adopt current.pid t).symm.trans (of_decide_eq_true hp)
          exact hj (hk.page_inj hj0 hi0 ht hi hpage)
        exact ⟨s, (task_setTask (k := k₂) none).trans ((if_neg hne).trans htask)⟩

theorem bsf_eq_some {w : Word} {n : Nat} (h : bsf w = some n) : w.getLsbD n = true :=
  List.find?_some (p := fun i => w.getLsbD i) h

/-- The signal that is delivered is pending and not blocked. -/
theorem nextSignal_eq_some {t : Task} {r : Regs} {signr : Nat} (h : nextSignal i t r = some signr) :
    ∃ n, signr = n + 1 ∧ t.signal.getLsbD n = true ∧ t.blocked.getLsbD n = false := by
  rw [nextSignal] at h
  split_ifs at h
  obtain ⟨n, hn, rfl⟩ := Option.map_eq_some_iff.1 h
  have hbit := bsf_eq_some hn
  rw [Task.deliverable, BitVec.getLsbD_and, BitVec.getLsbD_not] at hbit
  simp only [Bool.and_eq_true, Bool.not_eq_eq_eq_not, Bool.not_true] at hbit
  exact ⟨n, rfl, hbit.1, hbit.2.2⟩

/-- Another signal stays pending when one is taken. -/
theorem signal_take {t : Task} {n m : Nat} (hm : m < 32) (hne : m ≠ n)
    (h : t.signal.getLsbD m = true) : (t.take (n + 1)).signal.getLsbD m = true := by
  rw [Task.take, BitVec.getLsbD_and, h, BitVec.getLsbD_not, sigBit, BitVec.getLsbD_shiftLeft]
  simp [hm]
  omega

/-- The task after a step keeps its blocked signals blocked, and of these the pending
    ones pending. -/
def KeepsSignals (t t' : Task) : Prop :=
  (∀ n, t.blocked.getLsbD n = true → t'.blocked.getLsbD n = true) ∧
    ∀ n, t.signal.getLsbD n = true → t.blocked.getLsbD n = true → t'.signal.getLsbD n = true

theorem KeepsSignals.refl (t : Task) : KeepsSignals t t := ⟨fun _ hb => hb, fun _ hs _ => hs⟩

theorem keepsSignals_raise (t : Task) (s : Word) : KeepsSignals t (raise t s) :=
  ⟨fun _ hb => hb, fun _ hs _ => pending_raise hs s⟩

theorem keepsSignals_adopt (pid : Word) (t : Task) (s : Word) :
    KeepsSignals t (raise (adopt pid t) s) := by
  refine ⟨fun n hb => ?_, fun n hs _ => pending_raise (by rwa [signal_adopt]) s⟩
  rw [raise, adopt]
  split_ifs <;> exact hb

/-- A return to user mode. -/
theorem keepsSignals_deliver {t : Task} (ht : k.task i = some t) {r : Regs} {x : Regs × Kernel}
    (hok : k.deliver i t r = .ok x) :
    ∃ t', (∀ j, x.2.task j = if j = i then some t' else k.task j) ∧ KeepsSignals t t' := by
  rcases deliver_cases hok with ⟨-, -, hk⟩ | ⟨signr, hnext, hcase⟩
  · refine ⟨t, fun j => ?_, .refl t⟩
    rw [hk]
    split_ifs with hj
    · rw [hj, ht]
    · rfl
  · obtain ⟨n, rfl, hn, hfree⟩ := nextSignal_eq_some hnext
    have hpend : ∀ m, t.signal.getLsbD m = true → t.blocked.getLsbD m = true →
        (t.take (n + 1)).signal.getLsbD m = true := by
      intro m hm hb
      refine signal_take (BitVec.lt_of_getLsbD hm) (fun heq => ?_) hm
      rw [heq, hfree] at hb
      cases hb
    rcases hcase with ⟨-, -, hk⟩ | ⟨-, -, m, hk⟩
    · exact ⟨t.take (n + 1), fun j => hk ▸ task_setTask _, fun _ hb => hb, hpend⟩
    · refine ⟨{ t.take (n + 1) with
        sigaction := t.usedActions (n + 1)
        blocked := t.blocked ||| (t.action (n + 1)).saMask }, fun j => hk ▸ task_setTask _,
        fun m hb => ?_, hpend⟩
      rw [BitVec.getLsbD_or, hb, Bool.true_or]

/-- What a step leaves of the signals of a process that stays. -/
theorem Inv.step_signals (hk : k.Inv lo hi) (hst : Step k a k') (hi0 : i ≠ 0) (ha : Stays i a)
    (ht : k.task i = some t) : ∃ t', k'.task i = some t' ∧ KeepsSignals t t' := by
  -- Setting the task in some slot, with the same signals.
  have hset : ∀ {k' : Kernel} {j : Slot} {u u' : Task}, k.task j = some u →
      (∀ l, k'.task l = if l = j then some u' else k.task l) → (j = i → KeepsSignals u u') →
      ∃ t', k'.task i = some t' ∧ KeepsSignals t t' := by
    intro k' j u u' hu htask hkeep
    by_cases hj : i = j
    · obtain rfl : u = t := Option.some.inj (hu.symm.trans (hj ▸ ht))
      exact ⟨u', by rw [htask, if_pos hj], hkeep hj.symm⟩
    · exact ⟨t, by rw [htask, if_neg hj, ht], .refl t⟩
  cases a with
  | tick => exact hst.tick ▸ ⟨t, ht, .refl t⟩
  | release i' j =>
    obtain ⟨u, hj, hu, hok'⟩ := hst.release
    obtain ⟨f, -, hok, -⟩ := hk.release_eq hj hu
    obtain rfl := Except.ok.inj (hok.symm.trans hok')
    exact ⟨t, (task_setTask (k := k) none).trans ((if_neg fun heq => ha heq.symm).trans ht),
      .refl t⟩
  | fork i' r =>
    obtain ⟨u, pid, hu, -, hx⟩ := hst.fork
    exact ⟨t, task_sysFork hk hu hx ht, .refl t⟩
  | exit i' errorCode =>
    obtain ⟨u, hu, -, hx⟩ := hst.exit
    by_cases h0 : i' = 0
    · cases (hk.exit_zero h0 hu errorCode).symm.trans hx
    · -- the exit of another process
      obtain ⟨s, hs⟩ := hk.task_doExit hu h0 hi0 (fun heq => ha heq.symm) ht hx
      exact ⟨_, hs, keepsSignals_adopt u.pid t s⟩
  | kill i' pid sig =>
    obtain ⟨u, hu, -, rfl⟩ := hst.kill
    obtain ⟨s, hs⟩ := task_sysKill u ht pid sig
    exact ⟨_, hs, keepsSignals_raise t s⟩
  | ssetmask i' newmask =>
    obtain ⟨u, hu, -, rfl⟩ := hst.ssetmask
    exact hset hu (fun l => task_setTask _) fun heq => absurd heq ha
  | signal i' signum handler restorer =>
    obtain ⟨u, hu, -, rfl⟩ := hst.signal
    rw [sysSignal]
    split_ifs
    · exact ⟨t, ht, .refl t⟩
    · exact hset hu (fun l => task_setTask _) fun _ => .refl u
  | sigaction i' signum action oldAction =>
    obtain ⟨u, w, hu, -, -, hok⟩ := hst.sigaction
    rcases sysSigaction_cases hok with rfl | ⟨-, m, sa, rfl⟩
    · exact ⟨t, ht, .refl t⟩
    · exact hset hu (fun l => task_setTask _) fun _ => .refl u
  | deliver i' r =>
    obtain ⟨u, r', hu, -, hok⟩ := hst.deliver
    obtain ⟨u', htask, hkeep⟩ := keepsSignals_deliver hu hok
    exact hset hu htask fun _ => hkeep
  | _ =>
    obtain ⟨m, rfl⟩ := hst.memory trivial
    exact ⟨t, ht, .refl t⟩

/-! ## The theorem -/

theorem Blocked.step (h : k.Blocked i n) (hk : k.Inv lo hi) (hst : Step k a k') (hi0 : i ≠ 0)
    (ha : Stays i a) : k'.Blocked i n ∧ (k.Pending i n → k'.Pending i n) := by
  obtain ⟨t, ht, hb⟩ := h
  obtain ⟨t', ht', hblocked, hsignal⟩ := hk.step_signals hst hi0 ha ht
  refine ⟨⟨t', ht', hblocked n hb⟩, fun ⟨u, hu, hs⟩ => ⟨t', ht', hsignal n ?_ hb⟩⟩
  obtain rfl := Option.some.inj (ht.symm.trans hu)
  exact hs

/-- In a run in which a process stays, a blocked signal stays blocked, and stays
    pending once it is. -/
theorem Blocked.run {l : List (Action × Kernel)} (hrun : Run Step k l) (h : k.Blocked i n)
    (hk : k.Inv lo hi) (hi0 : i ≠ 0) (hl : ∀ x ∈ l, Stays i x.1) :
    (∀ k' ∈ k :: l.map Prod.snd, k'.Blocked i n) ∧
      (k :: l.map Prod.snd).Pairwise fun k₁ k₂ => k₁.Pending i n → k₂.Pending i n := by
  induction hrun with
  | nil => exact ⟨fun k' hk' => List.mem_singleton.1 hk' ▸ h, List.pairwise_singleton _ _⟩
  | cons hst _ ih =>
    obtain ⟨hb, hpend⟩ := h.step hk hst hi0 (hl _ List.mem_cons_self)
    obtain ⟨hall, hpair⟩ := ih hb (hk.step hst) fun x hx => hl x (List.mem_cons_of_mem _ hx)
    rw [List.map_cons]
    refine ⟨fun k' hk' => ?_, List.pairwise_cons.2 ⟨fun k' hk' hp => ?_, hpair⟩⟩
    · rcases List.mem_cons.1 hk' with rfl | hk'
      · exact h
      · exact hall k' hk'
    · rcases List.mem_cons.1 hk' with rfl | hk'
      · exact hpend hp
      · exact (List.pairwise_cons.1 hpair).1 k' hk' (hpend hp)

/-- Once the handler of a signal starts whose action has not `SA_NOMASK`, the signal
    is not delivered to the process again, as long as this does not call
    `sys_ssetmask`, or end; and it stays pending once it is raised. -/
theorem handler_not_reentered (hlo : 256 ≤ lo) (hle : lo ≤ hi) (hhi : hi ≤ 4096)
    (h : Reachable lo hi k) {t : Task} (ht : k.task i = some t) {r : Regs} {signr : Nat}
    (hnext : nextSignal i t r = some signr) (h₀ : (t.action signr).saHandler ≠ 0)
    (h₁ : (t.action signr).saHandler ≠ 1) (hmask : (t.action signr).saFlags &&& SA_NOMASK = 0)
    (hst : Step k (.deliver i r) k') {l : List (Action × Kernel)} (hrun : Run Step k' l)
    (hl : ∀ x ∈ l, Stays i x.1) :
    (∀ k₁ ∈ k' :: l.map Prod.snd, ∃ t₁, k₁.task i = some t₁ ∧
      ∀ r₁, nextSignal i t₁ r₁ ≠ some signr) ∧
    (k' :: l.map Prod.snd).Pairwise fun k₁ k₂ =>
      k₁.Pending i (signr - 1) → k₂.Pending i (signr - 1) := by
  have hk := h.inv hlo hle hhi
  obtain ⟨n, rfl, hn, -⟩ := nextSignal_eq_some hnext
  have hn32 : n < 32 := BitVec.lt_of_getLsbD hn
  -- without `SA_NOMASK`, `sys_sigaction` has put the signal into the mask
  have hbit := h.maskedActions hlo hle hhi i t ht (n + 1) (by omega) (by omega) h₀ hmask
  have hblocked : k'.Blocked i n := by
    obtain ⟨u, r', hu, -, hok⟩ := hst.deliver
    obtain rfl := Option.some.inj (ht.symm.trans hu)
    obtain ⟨t', ht', hblocked⟩ := deliver_handler hok hnext h₀ h₁
    refine ⟨t', ht', ?_⟩
    rw [hblocked, BitVec.getLsbD_or]
    exact Bool.or_eq_true_iff.2 (.inr hbit)
  obtain ⟨hall, hpair⟩ := hblocked.run hrun (hk.step hst) (nextSignal_ne_zero hnext) hl
  refine ⟨fun k₁ hk₁ => ?_, hpair⟩
  obtain ⟨t₁, ht₁, hb⟩ := hall k₁ hk₁
  refine ⟨t₁, ht₁, fun r₁ hc => ?_⟩
  obtain ⟨m, hm, -, hfree⟩ := nextSignal_eq_some hc
  rw [← Nat.succ.inj hm, hb] at hfree
  cases hfree

theorem exists_tick (k : Kernel) : ∃ k', Step k .tick k' := ⟨_, ⟨nofun, trivial⟩, rfl⟩

/-- The handler of the process in slot 1 is not entered again after a tick. -/
theorem handler_not_reentered_tick :
    ∃ k : Kernel, ∃ t, k.task 1 = some t ∧ ∀ r, nextSignal 1 t r ≠ some 10 := by
  obtain ⟨k, k', t, hreach, ht, hst, hnext, -, hact⟩ := exists_handler
  obtain ⟨k₂, htick⟩ := exists_tick k'
  obtain ⟨t₂, ht₂, hnot⟩ :=
    (handler_not_reentered (by norm_num) (by norm_num) (by norm_num) hreach ht
    hnext (by rw [hact]; decide) (by rw [hact]; decide) (by rw [hact]; decide) hst
    (.cons htick (.nil _)) fun x hx => by rw [List.mem_singleton.1 hx]; trivial).1 k₂ (by simp)
  exact ⟨k₂, t₂, ht₂, hnot⟩

end Kernel

end NeuOs
