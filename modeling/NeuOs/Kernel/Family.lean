import NeuOs.Kernel.Isolation

/-!
# Parents and children

The process 1, in slot 1, inherits the children of those that exit. In a run of
forks, exits and releases of zombies by their fathers, in which neither the task 0
nor the process 1 exits, every task in the slots 1 to 63 has a father that has not
exited (`fathers_living`), so that `tell_father` always finds it.
-/

namespace NeuOs

namespace Kernel

open Transition (Run)

variable {lo hi : Nat} {k k' : Kernel} {i j : Slot} {t current : Task}

/-! ## What an exit does to the tasks -/

/-- The task with more signals pending. -/
def raise (t : Task) (s : Word) : Task := { t with signal := t.signal ||| s }

/-- The task, with the father 1 if it is a child of the process with the pid. -/
def adopt (pid : Word) (t : Task) : Task := if t.father = pid then { t with father := 1 } else t

/-- A child of the process with the pid, that has exited. -/
def ZombieChild (pid : Word) (t : Task) : Prop := t.father = pid ∧ t.state = .zombie

@[simp] theorem raise_zero (t : Task) : raise t 0 = t := by
  rw [raise, show t.signal ||| 0 = t.signal from BitVec.or_zero]

@[simp] theorem raise_raise (t : Task) (s s' : Word) :
    raise (raise t s) s' = raise t (s ||| s') := by
  rw [raise, raise, raise, BitVec.or_assoc]

@[simp] theorem adopt_raise (pid : Word) (t : Task) (s : Word) :
    adopt pid (raise t s) = raise (adopt pid t) s := by
  rw [adopt, adopt, raise]
  split_ifs <;> rfl

@[simp] theorem adopt_adopt (pid : Word) (t : Task) : adopt pid (adopt pid t) = adopt pid t := by
  rw [adopt, adopt]
  split_ifs <;> rfl

theorem state_adopt (pid : Word) (t : Task) : (adopt pid t).state = t.state := by
  rw [adopt]
  split_ifs <;> rfl

theorem pid_adopt (pid : Word) (t : Task) : (adopt pid t).pid = t.pid := by
  rw [adopt]
  split_ifs <;> rfl

theorem page_adopt (pid : Word) (t : Task) : (adopt pid t).page = t.page := by
  rw [adopt]
  split_ifs <;> rfl

theorem father_adopt (pid : Word) (t : Task) :
    (adopt pid t).father = if t.father = pid then 1 else t.father := by
  rw [adopt]
  split_ifs <;> rfl

/-- The SIGCHLD to the task in slot 1. -/
theorem task_sendSig_sigchld (ht : k.task j = some t) :
    (k.sendSig current SIGCHLD 1 true).2.task j =
      some (raise t (if j = 1 then sigBit SIGCHLD else 0)) := by
  rw [sendSig]
  by_cases hj : j = 1
  · rw [← hj, ht]
    dsimp only
    rw [if_neg (by decide), if_pos (.inl rfl), task_modifyTask, if_pos rfl, ht, if_pos rfl]
    rfl
  · rw [if_neg hj, raise_zero]
    cases h1 : k.task 1 with
    | none => exact ht
    | some u =>
      dsimp only
      rw [if_neg (by decide), if_pos (.inl rfl), task_modifyTask, if_neg hj, ht]

theorem signal_adopt (pid : Word) (t : Task) : (adopt pid t).signal = t.signal := by
  rw [adopt]
  split_ifs <;> rfl

/-- The pending signals stay pending. -/
theorem pending_raise {n : Nat} (h : t.signal.getLsbD n = true) (s : Word) :
    (raise t s).signal.getLsbD n = true := by
  rw [raise, BitVec.getLsbD_or, h, Bool.true_or]

/-- A round of the loop of `do_exit` over the slots gives the task in the slot `p`
    to the process 1, if it is a child. The task in slot 1 gets a SIGCHLD if that is
    a zombie. -/
theorem orphan_round (current : Task) (p : Slot) (l : List Slot) (k : Kernel) :
    ∃ k', orphan current (p :: l) k = orphan current l k' ∧
      (∀ i x, k.task i = some x → ∃ s, k'.task i =
        some (raise (if i = p then adopt current.pid x else x) s)) ∧
      ∀ t u, k.task p = some t → ZombieChild current.pid t → k.task 1 = some u →
        ∃ u', k'.task 1 = some u' ∧ u'.signal.getLsbD (SIGCHLD - 1) = true := by
  rw [orphan]
  split
  · next hp =>
    -- an empty slot is skipped
    refine ⟨k, rfl, fun i x hx => ⟨0, ?_⟩, fun t u ht => ?_⟩
    · have hi : i ≠ p := fun heq => by rw [heq, hp] at hx; cases hx
      rw [if_neg hi, raise_zero, hx]
    · rw [hp] at ht
      cases ht
  · next v hp =>
    dsimp only
    have hself : ∀ {i x}, k.task i = some x → i = p → v = x := fun hx hi =>
      Option.some.inj (hp.symm.trans (hi ▸ hx))
    by_cases hfather : v.father = current.pid
    · rw [if_pos hfather]
      -- a child gets a new father, and a zombie is reported to it
      have hset : ∀ i x, k.task i = some x →
          (k.modifyTask p fun t => { t with father := 1 }).task i =
            some (if i = p then adopt current.pid x else x) := by
        intro i x hx
        rw [task_modifyTask]
        split_ifs with hi
        · rw [hp, ← hself hx hi, adopt, if_pos hfather]
          rfl
        · exact hx
      by_cases hzombie : v.state = .zombie
      · rw [if_pos hzombie]
        refine ⟨_, rfl, fun i x hx => ⟨_, task_sendSig_sigchld (hset i x hx)⟩,
          fun _ u _ _ hu => ⟨_, task_sendSig_sigchld (hset 1 u hu), ?_⟩⟩
        rw [if_pos rfl, raise, BitVec.getLsbD_or]
        simp [show (sigBit SIGCHLD).getLsbD (SIGCHLD - 1) = true by decide]
      · rw [if_neg hzombie]
        refine ⟨_, rfl, fun i x hx => ⟨0, by rw [raise_zero]; exact hset i x hx⟩,
          fun t _ ht hz => ?_⟩
        exact absurd (hself ht rfl ▸ hz.2) hzombie
    · rw [if_neg hfather]
      -- the task of another father stays
      refine ⟨_, rfl, fun i x hx => ⟨0, ?_⟩, fun t _ ht hz => ?_⟩
      · rw [raise_zero, hx]
        split_ifs with hi
        · rw [adopt, if_neg (hself hx hi ▸ hfather)]
        · rfl
      · exact absurd (hself ht rfl ▸ hz.1) hfather

/-- The loop of `do_exit` over the slots gives the children to the process 1. -/
theorem task_orphan (current : Task) (l : List Slot) (ht : k.task j = some t) :
    ∃ s, (orphan current l k).task j =
      some (raise (if j ∈ l then adopt current.pid t else t) s) := by
  induction l generalizing k t with
  | nil => exact ⟨0, by rw [if_neg List.not_mem_nil, raise_zero]; exact ht⟩
  | cons p l ih =>
    obtain ⟨k', hround, htask, -⟩ := orphan_round current p l k
    obtain ⟨s, hs⟩ := htask j t ht
    obtain ⟨s', hs'⟩ := ih hs
    refine ⟨s ||| s', hround ▸ hs'.trans (congrArg some ?_)⟩
    by_cases hj : j = p
    · rw [if_pos hj, if_pos (c := j ∈ p :: l) (hj ▸ List.mem_cons_self), adopt_raise, adopt_adopt,
        ite_self, raise_raise]
    · rw [if_neg hj, adopt_raise]
      simp only [List.mem_cons, hj, false_or]
      split_ifs <;> rw [raise_raise]

/-- For a zombie child, the task in slot 1 gets a SIGCHLD. -/
theorem orphan_sigchld (l : List Slot) (hj : j ∈ l) (ht : k.task j = some t)
    (hz : ZombieChild current.pid t) {u : Task} (hu : k.task 1 = some u) :
    ∃ u', (orphan current l k).task 1 = some u' ∧ u'.signal.getLsbD (SIGCHLD - 1) = true := by
  induction l generalizing k t u with
  | nil => exact absurd hj List.not_mem_nil
  | cons p l ih =>
    obtain ⟨k', hround, htask, hchild⟩ := orphan_round current p l k
    rw [hround]
    by_cases hjp : j = p
    · obtain ⟨u', hu', hbit⟩ := hchild t u (hjp ▸ ht) hz hu
      obtain ⟨s, hs⟩ := task_orphan _ l hu'
      refine ⟨_, hs, pending_raise ?_ s⟩
      split_ifs
      · rwa [signal_adopt]
      · exact hbit
    · obtain ⟨s, hs⟩ := htask j t ht
      obtain ⟨s', hs'⟩ := htask 1 u hu
      rw [if_neg hjp] at hs
      exact ih ((List.mem_cons.1 hj).resolve_left hjp) hs hz hs'

/-- The task that has exited with the code. -/
def exited (code : Word) (t : Task) : Task := { t with state := .zombie, exitCode := code }

/-- The tasks when `do_exit` comes to the father. -/
theorem task_exiting (current : Task) (i : Slot) (code : Word) {x : Task} (hx : k.task j = some x) :
    ∃ s, ((orphan current (List.finRange 64) k).modifyTask i (exited code)).task j =
      some (raise (if j = i then exited code (adopt current.pid x)
        else adopt current.pid x) s) := by
  obtain ⟨s, hs⟩ := task_orphan current (List.finRange 64) hx
  rw [if_pos (List.mem_finRange j)] at hs
  refine ⟨s, ?_⟩
  rw [task_modifyTask]
  split_ifs with hj
  · rw [← hj, hs]
    rfl
  · exact hs

/-- The same slots are empty then. -/
theorem task_exiting_none (current : Task) (i j : Slot) (code : Word) :
    ((orphan current (List.finRange 64) k).modifyTask i (exited code)).task j = none ↔
      k.task j = none :=
  ((sameTasks_orphan (φ := fun _ => ()) (fun _ _ => rfl) (fun _ _ => rfl) _).trans
    (.modifyTask fun _ => rfl)).task_none

/-- The pids are those from before. -/
theorem pid_exiting {code : Word} {y : Task}
    (hy : ((orphan current (List.finRange 64) k).modifyTask i (exited code)).task j = some y) :
    ∃ x, k.task j = some x ∧ y.pid = x.pid := by
  cases hx : k.task j with
  | none => rw [(task_exiting_none current i j code).2 hx] at hy; cases hy
  | some x =>
    obtain ⟨s, hs⟩ := task_exiting current i code hx
    refine ⟨x, rfl, ?_⟩
    rw [← Option.some.inj (hs.symm.trans hy)]
    split_ifs <;> exact pid_adopt current.pid x

/-- `do_exit` tells the father, if it is there, and is the only task with its pid. -/
theorem finishExit_eq (ht : k.task i = some t) {f : Slot} {u : Task} (hf : k.task f = some u)
    (hu : u.pid = (adopt t.pid t).father)
    (hunique : ∀ j x, k.task j = some x → x.pid = u.pid → j = f) (code : Word) :
    k.finishExit i t code = .ok (((orphan t (List.finRange 64) k).modifyTask i
      (exited code)).modifyTask f fun t => raise t (sigBit SIGCHLD)) := by
  generalize hk₂ : (orphan t (List.finRange 64) k).modifyTask i (exited code) = k₂
  have hsome : ∀ j x, k.task j = some x → ∃ s, k₂.task j =
      some (raise (if j = i then exited code (adopt t.pid x) else adopt t.pid x) s) :=
    fun j x hx => hk₂ ▸ task_exiting t i code hx
  have hfather : ((k₂.task i).map fun t => t.father).getD t.father = u.pid := by
    obtain ⟨s, hs⟩ := hsome i t ht
    rw [hs, if_pos rfl, hu]
    rfl
  have hfind : k₂.findTask (fun x => x.pid = u.pid) = some f := by
    rcases k₂.findTask_cases fun x => x.pid = u.pid with ⟨-, hall⟩ | ⟨j, y, hj, hy, hp⟩
    · obtain ⟨s, hs⟩ := hsome f u hf
      refine absurd ?_ (hall f _ hs)
      split_ifs <;> simp [raise, exited, pid_adopt]
    · obtain ⟨x, hx, hxp⟩ := pid_exiting (hk₂ ▸ hy)
      rw [hj, hunique j x hx (hxp.symm.trans (of_decide_eq_true hp))]
  have hstart : k.finishExit i t code =
      k₂.tellFather t (((k₂.task i).map fun t => t.father).getD t.father) := by
    rw [← hk₂]
    rfl
  rw [hstart, hfather, tellFather, hfind]
  rfl

/-- `do_exit` once the pages are freed: if the father of the process is there, it is
    told, and all tasks stay. The children have the father 1. -/
theorem finishExit_ok (ht : k.task i = some t) {f : Slot} {u : Task} (hf : k.task f = some u)
    (hu : u.pid = (adopt t.pid t).father)
    (hunique : ∀ j x, k.task j = some x → x.pid = u.pid → j = f) (code : Word) :
    ∃ k', k.finishExit i t code = .ok k' ∧
      (∀ j x, k.task j = some x → ∃ s, k'.task j =
        some (raise (if j = i then exited code (adopt t.pid x) else adopt t.pid x) s)) ∧
      (∀ j, k.task j = none → k'.task j = none) ∧
      (∃ v, k'.task f = some v ∧ v.signal.getLsbD (SIGCHLD - 1) = true) ∧
      ∀ j x w, k.task j = some x → ZombieChild t.pid x → k.task 1 = some w →
        ∃ w', k'.task 1 = some w' ∧ w'.signal.getLsbD (SIGCHLD - 1) = true := by
  obtain ⟨k₂, hk₂⟩ : ∃ k₂, k₂ = (orphan t (List.finRange 64) k).modifyTask i (exited code) :=
    ⟨_, rfl⟩
  have hsome : ∀ j x, k.task j = some x → ∃ s, k₂.task j =
      some (raise (if j = i then exited code (adopt t.pid x) else adopt t.pid x) s) :=
    fun j x hx => hk₂ ▸ task_exiting t i code hx
  have hok : k.finishExit i t code = .ok (k₂.modifyTask f fun t => raise t (sigBit SIGCHLD)) :=
    hk₂ ▸ finishExit_eq ht hf hu hunique code
  have hend : ∀ j y, k₂.task j = some y →
      (k₂.modifyTask f fun t => raise t (sigBit SIGCHLD)).task j =
        some (raise y (if j = f then sigBit SIGCHLD else 0)) := by
    intro j y hy
    rw [task_modifyTask]
    split_ifs with hj
    · rw [← hj, hy]
      rfl
    · rw [raise_zero, hy]
  refine ⟨_, hok, fun j x hx => ?_, fun j hj => ?_, ?_, fun j x w hx hz hw => ?_⟩
  · obtain ⟨s, hs⟩ := hsome j x hx
    exact ⟨_, (hend j _ hs).trans (by rw [raise_raise])⟩
  · rw [task_modifyTask]
    split_ifs with hjf
    · rw [hjf] at hj
      cases hf.symm.trans hj
    · rw [hk₂]
      exact (task_exiting_none t i j code).2 hj
  · obtain ⟨s, hs⟩ := hsome f u hf
    refine ⟨_, hend f _ hs, ?_⟩
    rw [if_pos rfl, raise, BitVec.getLsbD_or]
    simp [show (sigBit SIGCHLD).getLsbD (SIGCHLD - 1) = true by decide]
  · obtain ⟨w₁, hw₁, hbit⟩ := orphan_sigchld (List.finRange 64) (List.mem_finRange j) hx hz hw
    have hw₂ : ∃ w₂, k₂.task 1 = some w₂ ∧ w₂.signal.getLsbD (SIGCHLD - 1) = true := by
      rw [hk₂, task_modifyTask]
      split_ifs with h1
      · exact ⟨exited code w₁, by rw [← h1, hw₁]; rfl, hbit⟩
      · exact ⟨w₁, hw₁, hbit⟩
    obtain ⟨w₂, hw₂, hbit₂⟩ := hw₂
    exact ⟨_, hend 1 _ hw₂, pending_raise hbit₂ _⟩

/-! ## The invariant -/

/-- The task in slot 1 is the process 1, and has not exited. -/
def InitRuns (k : Kernel) : Prop := ∃ t, k.task 1 = some t ∧ t.pid = 1 ∧ t.state ≠ .zombie

/-- What holds of fathers in a run of forks, exits and releases. -/
structure FamilyInv (k : Kernel) : Prop where
  zero : ∃ t, k.task 0 = some t ∧ t.pid = 0 ∧ t.state ≠ .zombie
  first : (∀ j, j ≠ 0 → k.task j = none) ∧ (k.lastPid = 0 ∨ k.lastPid = 1) ∨ k.InitRuns
  father : ∀ j t, j ≠ 0 → k.task j = some t →
    ∃ f u, k.task f = some u ∧ u.pid = t.father ∧ u.state ≠ .zombie

/-- The forks, the exits but of the task 0 and the process 1, and the releases of
    zombies by their fathers. -/
def FamilyAction (k : Kernel) : Action → Prop
  | .fork _ _ => True
  | .exit i _ => i ≠ 0 ∧ ∀ t, k.task i = some t → t.pid ≠ 1
  | .release i j => ∀ t u, k.task i = some t → k.task j = some u →
      u.state = .zombie ∧ u.father = t.pid
  | _ => False

/-- A step of such a run. -/
def FamilyStep (k : Kernel) (a : Action) (k' : Kernel) : Prop := k.FamilyAction a ∧ Step k a k'

/-- The states that such runs reach from boot. -/
abbrev FamilyReachable (lo hi : Nat) : Kernel → Prop :=
  Transition.Reachable (Booted lo hi) FamilyStep

theorem FamilyReachable.reachable (h : FamilyReachable lo hi k) : Reachable lo hi k := by
  induction h with
  | init hs => exact .init hs
  | step _ hst ih => exact .step ih hst.2

theorem Booted.familyInv (h : Booted lo hi k) : k.FamilyInv := by
  obtain ⟨m, page, -, rfl⟩ := h
  exact ⟨⟨initTask page, rfl, rfl, show TaskState.running ≠ .zombie by decide⟩,
    .inl ⟨fun j hj => if_neg hj, .inl rfl⟩, fun j t hj ht => by cases (if_neg hj).symm.trans ht⟩

/-- The first pid is 1. -/
theorem pidSearch_first (hzero : ∃ t, k.task 0 = some t ∧ t.pid = 0)
    (hnone : ∀ j, j ≠ 0 → k.task j = none) (hlast : k.lastPid = 0 ∨ k.lastPid = 1) :
    k.pidSearch = some (.unused 1) := by
  -- the task 0 is the only task
  have huse : ∀ pid, k.pidInUse pid ↔ pid = 0 := by
    intro pid
    obtain ⟨t, ht, hp⟩ := hzero
    rw [pidInUse_iff]
    constructor
    · rintro ⟨i, u, hu, rfl⟩
      by_cases hi : i = 0
      · rw [hi, ht] at hu
        rw [← Option.some.inj hu, hp]
      · rw [hnone i hi] at hu
        cases hu
    · rintro rfl
      exact ⟨0, t, ht, hp⟩
  rw [pidSearch]
  rcases hlast with hlast | hlast
  · obtain ⟨m, hm, hsearch, hfree⟩ := searchPid_unused (p := k.lastPid) k.lastPid (2 ^ 32)
      (show ¬k.pidInUse (nextPid^[1] k.lastPid) by rw [hlast, huse]; decide) (by omega)
      fun m hm => by
        rw [hlast, show m = 0 by omega]
        decide
    have hm1 : m = 1 := by
      by_contra hne
      rw [show m = 0 by omega, hlast, huse] at hfree
      exact hfree rfl
    rw [hsearch, hm1, hlast]
    rfl
  · obtain ⟨m, hm, hsearch, -⟩ := searchPid_unused (p := k.lastPid) k.lastPid (2 ^ 32)
      (show ¬k.pidInUse (nextPid^[0] k.lastPid) by rw [hlast, huse]; decide)
      (by omega) fun m hm => by omega
    rw [hsearch, show m = 0 by omega, hlast]
    rfl

theorem emptySlot_first (hzero : k.task 0 ≠ none) (hnone : ∀ j, j ≠ 0 → k.task j = none) :
    k.emptySlot = some 1 := by
  have hempty : (fun i => (k.task i).isNone) = fun i => decide (i ≠ 0) := by
    funext i
    by_cases h0 : i = 0
    · rw [h0, decide_eq_false (by simp)]
      exact Option.isNone_eq_false_iff.2 (Option.isSome_iff_ne_none.2 hzero)
    · rw [hnone i h0, decide_eq_true h0]
      rfl
  rw [emptySlot, hempty]
  rfl

theorem FamilyInv.initRuns (h : k.FamilyInv) (hj : j ≠ 0) (ht : k.task j = some t) :
    k.InitRuns :=
  h.first.resolve_left fun hc => by
    rw [hc.1 j hj] at ht
    cases ht

/-- A new task, whose father is living. -/
theorem FamilyInv.addTask (h : k.FamilyInv) (hj : j ≠ 0) (hnone : k.task j = none)
    (htask : ∀ i, k'.task i = if i = j then some t else k.task i) (hstate : t.state ≠ .zombie)
    (hfather : ∃ f u, k.task f = some u ∧ u.pid = t.father ∧ u.state ≠ .zombie)
    (hfirst : (∀ j, j ≠ 0 → k.task j = none) ∧ (k.lastPid = 0 ∨ k.lastPid = 1) →
      j = 1 ∧ t.pid = 1) : k'.FamilyInv := by
  have hkeep : ∀ i u, k.task i = some u → k'.task i = some u := by
    intro i u hu
    rw [htask, if_neg fun heq => by rw [heq, hnone] at hu; cases hu]
    exact hu
  refine ⟨?_, .inr ?_, fun i u hi hu => ?_⟩
  · obtain ⟨t₀, ht₀, hp, hs⟩ := h.zero
    exact ⟨t₀, hkeep 0 t₀ ht₀, hp, hs⟩
  · rcases h.first with hc | ⟨t₁, ht₁, hp, hs⟩
    · obtain ⟨rfl, hp⟩ := hfirst hc
      exact ⟨t, by rw [htask, if_pos rfl], hp, hstate⟩
    · exact ⟨t₁, hkeep 1 t₁ ht₁, hp, hs⟩
  · rw [htask] at hu
    split_ifs at hu with hij
    · obtain rfl := Option.some.inj hu
      obtain ⟨f, v, hv, hp, hs⟩ := hfather
      exact ⟨f, v, hkeep f v hv, hp, hs⟩
    · obtain ⟨f, v, hv, hp, hs⟩ := h.father i u hi hu
      exact ⟨f, v, hkeep f v hv, hp, hs⟩

/-- A fork: the child has a living father, and the first child is the process 1. -/
theorem FamilyInv.fork (h : k.FamilyInv) (hk : k.Inv lo hi) (ht : k.task i = some t)
    (hlive : t.state ≠ .zombie) {r : Regs} {w : Word}
    (hx : k.sysFork t r = some (.ok (w, k'))) : k'.FamilyInv := by
  obtain ⟨t₀, ht₀, hp₀, hs₀⟩ := h.zero
  -- as long as there are no other processes, the next one is in slot 1 with the pid 1
  have hfirst : (∀ j, j ≠ 0 → k.task j = none) ∧ (k.lastPid = 0 ∨ k.lastPid = 1) →
      k.pidSearch = some (.unused 1) ∧ k.emptySlot = some 1 := fun hc =>
    ⟨pidSearch_first ⟨t₀, ht₀, hp₀⟩ hc.1 hc.2, emptySlot_first (by rw [ht₀]; nofun) hc.1⟩
  obtain ⟨s, hsearch, hcase⟩ := sysFork_search hx
  have hpid : (∀ j, j ≠ 0 → k.task j = none) ∧ (k.lastPid = 0 ∨ k.lastPid = 1) → s.pid = 1 := by
    intro hc
    rw [Option.some.inj (hsearch.symm.trans (hfirst hc).1)]
    rfl
  rcases hcase with ⟨hslot, heq⟩ | ⟨nr, hslot, heq⟩
  · obtain ⟨-, rfl⟩ := Prod.mk.inj (Except.ok.inj heq)
    refine ⟨h.zero, .inr (h.first.resolve_left fun hc => ?_), h.father⟩
    cases (hfirst hc).2.symm.trans hslot
  · obtain ⟨hnr, hnone⟩ := emptySlot_some hslot
    have hk' : Inv lo hi { k with lastPid := s.pid } := hk.counters _ _
    rcases hk'.copyProcess_cases ht hnr hnone r with
      ⟨herr, -⟩ | ⟨m, hok, -⟩ | ⟨m, m₁, f, hok, -⟩
    · cases heq.trans herr
    · obtain ⟨-, rfl⟩ := Prod.mk.inj (Except.ok.inj (heq.trans hok))
      exact ⟨h.zero, h.first.imp_left fun hc => ⟨hc.1, .inr (hpid hc)⟩, h.father⟩
    · obtain ⟨-, rfl⟩ := Prod.mk.inj (Except.ok.inj (heq.trans hok))
      refine h.addTask hnr hnone (fun i => task_setTask _)
        (show TaskState.running ≠ .zombie by decide)
        ⟨i, t, ht, rfl, hlive⟩ fun hc => ⟨?_, hpid hc⟩
      exact Option.some.inj (hslot.symm.trans (hfirst hc).2)

/-- The father that a task has once its old one has exited is living. -/
theorem FamilyInv.exists_father (h : k.FamilyInv) (hi0 : i ≠ 0) (ht : k.task i = some t)
    (hp : t.pid ≠ 1) {x : Task} (hj : j ≠ 0) (hx : k.task j = some x) :
    ∃ f u, k.task f = some u ∧ u.pid = (adopt t.pid x).father ∧ u.state ≠ .zombie ∧ f ≠ i := by
  rw [father_adopt]
  split_ifs with hchild
  · obtain ⟨u, hu, hp₁, hs⟩ := h.initRuns hi0 ht
    refine ⟨1, u, hu, hp₁, hs, fun heq => hp ?_⟩
    rw [← heq, hu] at ht
    rw [← Option.some.inj ht, hp₁]
  · obtain ⟨f, u, hu, hp', hs⟩ := h.father j x hj hx
    refine ⟨f, u, hu, hp', hs, fun heq => hchild ?_⟩
    rw [heq, ht] at hu
    rw [← hp', Option.some.inj hu]

/-- An exit: what it does to the tasks, its father and its children. -/
theorem FamilyInv.exit_ok (h : k.FamilyInv) (hpids : k.PidInv) (hi0 : i ≠ 0)
    (ht : k.task i = some t) (hp : t.pid ≠ 1) {code : Word} (hx : k.doExit i t code = .ok k') :
    (∀ j x, k.task j = some x → ∃ s, k'.task j =
      some (raise (if j = i then exited code (adopt t.pid x) else adopt t.pid x) s)) ∧
    (∀ j, k.task j = none → k'.task j = none) ∧
    (∃ f u v, k.task f = some u ∧ u.pid = (adopt t.pid t).father ∧ u.state ≠ .zombie ∧ f ≠ i ∧
      k'.task f = some v ∧ v.signal.getLsbD (SIGCHLD - 1) = true) ∧
    ∀ j x, k.task j = some x → ZombieChild t.pid x →
      ∃ w, k'.task 1 = some w ∧ w.signal.getLsbD (SIGCHLD - 1) = true := by
  obtain ⟨f, u, hu, hup, hus, hfi⟩ := h.exists_father hi0 ht hp hi0 ht
  obtain ⟨m₁, -, hx⟩ := Except.bind_eq_ok.1 hx
  obtain ⟨m₂, -, hx⟩ := Except.bind_eq_ok.1 hx
  obtain ⟨k₁, hok, hsome, hnone, ⟨v, hv, hbit⟩, hchild⟩ :=
    finishExit_ok (k := { k with mm := m₂ }) ht hu hup
      (fun j y hy hpy => hpids.unique j f y u hy hu hpy) code
  obtain rfl := Except.ok.inj (hok.symm.trans hx)
  obtain ⟨w, hw, -⟩ := h.initRuns hi0 ht
  exact ⟨hsome, hnone, ⟨f, u, v, hu, hup, hus, hfi, hv, hbit⟩, fun j y hy hz =>
    hchild j y w hy hz hw⟩

theorem FamilyInv.exit (h : k.FamilyInv) (hpids : k.PidInv) (hi0 : i ≠ 0) (ht : k.task i = some t)
    (hp : t.pid ≠ 1) {code : Word} (hx : k.doExit i t code = .ok k') : k'.FamilyInv := by
  obtain ⟨hsome, hnone, -, -⟩ := h.exit_ok hpids hi0 ht hp hx
  -- The other tasks keep their pids and states.
  have hkeep : ∀ j x, k.task j = some x → j ≠ i →
      ∃ y, k'.task j = some y ∧ y.pid = x.pid ∧ y.state = x.state := by
    intro j x hx hj
    obtain ⟨s, hs⟩ := hsome j x hx
    rw [if_neg hj] at hs
    exact ⟨_, hs, pid_adopt t.pid x, state_adopt t.pid x⟩
  refine ⟨?_, .inr ?_, fun j y hj hy => ?_⟩
  · obtain ⟨t₀, ht₀, hp₀, hs₀⟩ := h.zero
    obtain ⟨y, hy, hyp, hys⟩ := hkeep 0 t₀ ht₀ hi0.symm
    exact ⟨y, hy, hyp.trans hp₀, hys ▸ hs₀⟩
  · obtain ⟨t₁, ht₁, hp₁, hs₁⟩ := h.initRuns hi0 ht
    obtain ⟨y, hy, hyp, hys⟩ := hkeep 1 t₁ ht₁ fun heq => hp (by
      rw [← heq, ht₁] at ht
      rw [← Option.some.inj ht, hp₁])
    exact ⟨y, hy, hyp.trans hp₁, hys ▸ hs₁⟩
  · cases hx : k.task j with
    | none => rw [hnone j hx] at hy; cases hy
    | some x =>
      obtain ⟨s, hs⟩ := hsome j x hx
      obtain ⟨f, u, hu, hup, hus, hfi⟩ := h.exists_father hi0 ht hp hj hx
      obtain ⟨v, hv, hvp, hvs⟩ := hkeep f u hu hfi
      refine ⟨f, v, hv, hvp.trans (hup.trans ?_), hvs ▸ hus⟩
      rw [← Option.some.inj (hs.symm.trans hy)]
      split_ifs <;> rfl

/-- The release of a zombie. -/
theorem FamilyInv.release (h : k.FamilyInv) (hj : j ≠ 0) (ht : k.task j = some t)
    (hz : t.state = .zombie) (htask : ∀ i, k'.task i = if i = j then none else k.task i) :
    k'.FamilyInv := by
  have hkeep : ∀ i u, k.task i = some u → u.state ≠ .zombie → k'.task i = some u := by
    intro i u hu hs
    rw [htask, if_neg fun heq => hs ?_]
    · exact hu
    · rw [heq, ht] at hu
      exact Option.some.inj hu ▸ hz
  refine ⟨?_, .inr ?_, fun i u hi hu => ?_⟩
  · obtain ⟨t₀, ht₀, hp, hs⟩ := h.zero
    exact ⟨t₀, hkeep 0 t₀ ht₀ hs, hp, hs⟩
  · obtain ⟨t₁, ht₁, hp, hs⟩ := h.initRuns hj ht
    exact ⟨t₁, hkeep 1 t₁ ht₁ hs, hp, hs⟩
  · rw [htask] at hu
    split_ifs at hu
    obtain ⟨f, v, hv, hp, hs⟩ := h.father i u hi hu
    exact ⟨f, v, hkeep f v hv hs, hp, hs⟩

theorem FamilyInv.step (h : k.FamilyInv) (hk : k.Inv lo hi) (hpids : k.PidInv) {a : Action}
    (hst : FamilyStep k a k') : k'.FamilyInv := by
  obtain ⟨ha, hst⟩ := hst
  cases a with
  | fork i r =>
    obtain ⟨t, w, ht, hlive, hy⟩ := hst.fork
    exact h.fork hk ht hlive hy
  | exit i errorCode =>
    obtain ⟨t, ht, -, hx⟩ := hst.exit
    exact h.exit hpids ha.1 ht (ha.2 t ht) hx
  | release i j =>
    obtain ⟨t, ht, -⟩ := hst.1.1 i rfl
    obtain ⟨u, hj, hu, hok'⟩ := hst.release
    obtain ⟨f, -, hok, -⟩ := hk.release_eq hj hu
    obtain rfl := Except.ok.inj (hok.symm.trans hok')
    exact h.release hj hu (ha t u ht hu).1 fun i => task_setTask (k := k) none
  | _ => exact ha.elim

theorem FamilyReachable.familyInv (hlo : 256 ≤ lo) (hle : lo ≤ hi) (hhi : hi ≤ 4096)
    (h : FamilyReachable lo hi k) : k.FamilyInv := by
  induction h with
  | init hs => exact hs.familyInv
  | step hr hst ih =>
    have hreach := FamilyReachable.reachable hr
    exact ih.step (hreach.inv hlo hle hhi) (hreach.pidInv hlo hle hhi) hst

/-- A fork keeps the tasks that are there. -/
theorem task_sysFork (hk : k.Inv lo hi) (ht : k.task i = some t) {r : Regs} {w : Word}
    (hx : k.sysFork t r = some (.ok (w, k'))) {u : Task} (hu : k.task j = some u) :
    k'.task j = some u := by
  rcases hk.fork_tasks ht hx with hsame | ⟨k₀, nr, f, -, hnone, htask⟩
  · exact (hsame j).trans hu
  · refine (htask j).trans ((if_neg fun hj => ?_).trans hu)
    rw [hj, hnone] at hu
    cases hu

/-- The process 1 goes on running. -/
theorem InitRuns.step (h : k.InitRuns) (hfamily : k.FamilyInv) (hk : k.Inv lo hi)
    (hpids : k.PidInv) {a : Action} (hst : FamilyStep k a k') : k'.InitRuns := by
  obtain ⟨t₁, ht₁, hp₁, hs₁⟩ := h
  suffices hocc : ∃ u, k'.task 1 = some u by
    obtain ⟨u, hu⟩ := hocc
    exact (hfamily.step hk hpids hst).initRuns (by decide) hu
  obtain ⟨ha, hst⟩ := hst
  cases a with
  | fork i r =>
    obtain ⟨t, w, ht, -, hy⟩ := hst.fork
    exact ⟨t₁, task_sysFork hk ht hy ht₁⟩
  | exit i errorCode =>
    obtain ⟨t, ht, -, hx⟩ := hst.exit
    obtain ⟨s, hs⟩ := (hfamily.exit_ok hpids ha.1 ht (ha.2 t ht) hx).1 1 t₁ ht₁
    exact ⟨_, hs⟩
  | release i j =>
    obtain ⟨t, ht, -⟩ := hst.1.1 i rfl
    obtain ⟨u, hj, hu, hok'⟩ := hst.release
    obtain ⟨f, -, hok, -⟩ := hk.release_eq hj hu
    obtain rfl := Except.ok.inj (hok.symm.trans hok')
    -- a zombie is released, which the process 1 is not
    refine ⟨t₁, (task_setTask (k := k) none).trans ((if_neg fun h1 => hs₁ ?_).trans ht₁)⟩
    rw [h1] at ht₁
    exact Option.some.inj (hu.symm.trans ht₁) ▸ (ha t u ht hu).1
  | _ => exact ha.elim

/-- Every task in the slots 1 to 63 has one father that is there and has not exited.
    An exit tells it, so that the process stays as a zombie; its children have the
    process 1 as their father, which gets a SIGCHLD if one of them is a zombie. -/
theorem fathers_living (hlo : 256 ≤ lo) (hle : lo ≤ hi) (hhi : hi ≤ 4096)
    (h : FamilyReachable lo hi k) :
    ((∃ j t, j ≠ 0 ∧ k.task j = some t) → k.InitRuns) ∧
    (∀ a k', FamilyStep k a k' → k.InitRuns → k'.InitRuns) ∧
    (∀ j t, j ≠ 0 → k.task j = some t →
      ∃ f u, k.task f = some u ∧ u.pid = t.father ∧ u.state ≠ .zombie ∧
        ∀ f' u', k.task f' = some u' → u'.pid = t.father → f' = f) ∧
    ∀ i code k' t, FamilyStep k (.exit i code) k' → k.task i = some t →
      (∃ t', k'.task i = some t' ∧ t'.state = .zombie) ∧
      (∃ f u v, k.task f = some u ∧ u.pid = (adopt t.pid t).father ∧ u.state ≠ .zombie ∧
        k'.task f = some v ∧ v.signal.getLsbD (SIGCHLD - 1) = true) ∧
      ∀ j x, k.task j = some x → ZombieChild t.pid x →
        ∃ x' w, k'.task j = some x' ∧ k'.task 1 = some w ∧ w.pid = x'.father ∧
          w.signal.getLsbD (SIGCHLD - 1) = true := by
  have hk := h.reachable.inv hlo hle hhi
  have hpids := h.reachable.pidInv hlo hle hhi
  have hfamily := h.familyInv hlo hle hhi
  refine ⟨fun ⟨j, t, hj, ht⟩ => hfamily.initRuns hj ht,
    fun a k' hst hinit => hinit.step hfamily hk hpids hst, fun j t hj ht => ?_,
    fun i code k' t hst ht => ?_⟩
  · obtain ⟨f, u, hu, hp, hs⟩ := hfamily.father j t hj ht
    exact ⟨f, u, hu, hp, hs, fun f' u' hu' hp' => hpids.unique f' f u' u hu' hu (hp'.trans hp.symm)⟩
  · obtain ⟨ha, hexit⟩ := id hst
    obtain ⟨x, hx', -, hx⟩ := hexit.exit
    obtain rfl := Option.some.inj (ht.symm.trans hx')
    have hinit := (hfamily.initRuns ha.1 ht).step hfamily hk hpids hst
    obtain ⟨hsome, -, ⟨f, u, v, hu, hp, hs, -, hv, hbit⟩, hchild⟩ :=
      hfamily.exit_ok hpids ha.1 ht (ha.2 t ht) hx
    refine ⟨?_, ⟨f, u, v, hu, hp, hs, hv, hbit⟩, fun j x hx' hz => ?_⟩
    · obtain ⟨s, hs'⟩ := hsome i t ht
      rw [if_pos rfl] at hs'
      exact ⟨_, hs', rfl⟩
    · -- the new father of the children is the process 1, which runs
      obtain ⟨w, hw, hwbit⟩ := hchild j x hx' hz
      obtain ⟨w', hw', hp₁, -⟩ := hinit
      obtain rfl : w' = w := Option.some.inj (hw'.symm.trans hw)
      obtain ⟨s, hs'⟩ := hsome j x hx'
      refine ⟨_, w', hs', hw, hp₁.trans ?_, hwbit⟩
      have hone : (adopt t.pid x).father = 1 := by rw [father_adopt, if_pos hz.1]
      split_ifs <;> exact hone.symm

/-- The first child has a living father. -/
theorem fathers_living_child :
    ∃ k : Kernel, ∃ t f u, k.task 1 = some t ∧ k.task f = some u ∧ u.pid = t.father ∧
      u.state ≠ .zombie := by
  obtain ⟨k, t, hst, -, htask, -⟩ := exists_child default
  have hreach : FamilyReachable 256 768 k := .step (.init booted_mainKernel)
    ⟨show FamilyAction _ (.fork 0 default) from trivial, hst⟩
  have ht : k.task 1 = some t := by rw [htask, if_pos rfl]
  obtain ⟨f, u, hu, hp, hs, -⟩ := (fathers_living (by norm_num) (by norm_num) (by norm_num)
    hreach).2.2.1 1 t (by decide) ht
  exact ⟨k, t, f, u, ht, hu, hp, hs⟩

end Kernel

end NeuOs
