import NeuOs.Kernel.Task
import NeuOs.Lib.Chain
import NeuOs.Lib.Run

/-!
# Wait queues (`sleep_on`, `interruptible_sleep_on` and `wake_up` in kernel/sched.c)

A wait queue is a pointer to the task that went to sleep last. The tasks before it are
found from the local variables `tmp` of the calls in which the tasks sleep: each is the
value that the pointer had before. When a task runs again, it writes its `tmp` back to
the pointer.

A sleeper is lost when no pointers lead to it, neither from the queue nor from a sleeper
that will run again (`NoneLost`). This happens when another task goes to sleep between
the wake up of a task and the time it runs again: `sleepOn_iff` and
`interruptibleSleepOn_iff` say exactly in which steps.
-/

namespace NeuOs

open Chain Transition

/-- A wait queue of any tasks: the pointer of the queue, the states of the tasks, and for a
    task inside of `sleep_on` its variable `tmp`. -/
structure WaitQueue (τ : Type*) where
  p : Option τ
  state : τ → TaskState
  tmp : τ → Option (Option τ)

namespace WaitQueue

variable {τ : Type*} [DecidableEq τ]

/-! ## The code -/

/-- `sleep_on` and `interruptible_sleep_on`, up to the call of `schedule`. -/
def sleep (s : WaitQueue τ) (current : τ) (state : TaskState) : WaitQueue τ where
  p := some current
  state := Function.update s.state current state
  tmp := Function.update s.tmp current (some s.p)

/-- `wake_up` -/
def wakeUp (s : WaitQueue τ) : WaitQueue τ :=
  match s.p with
  | none => s
  | some t => { s with p := none, state := Function.update s.state t .running }

/-- The end of `sleep_on`, after the call of `schedule`. -/
def leave (s : WaitQueue τ) (current : τ) (tmp : Option τ) : WaitQueue τ :=
  let s := { s with p := tmp, tmp := Function.update s.tmp current none }
  match tmp with
  | none => s
  | some t => { s with state := Function.update s.state t .running }

/-- `interruptible_sleep_on` after the call of `schedule`: if the queue points to another
    task, this one is woken, and the current task goes back to sleep. -/
def retry (s : WaitQueue τ) (current : τ) (tmp : Option τ) : WaitQueue τ :=
  match s.p with
  | none => s.leave current tmp
  | some t =>
    if t ≠ current then
      { s with
        state := Function.update (Function.update s.state t .running) current .interruptible }
    else s.leave current tmp

/-! ## Steps -/

inductive Action (τ : Type*)
  /-- A task goes to sleep. -/
  | sleep (t : τ)
  /-- A task or an interrupt wakes the queue up. -/
  | wakeUp
  /-- A task that sleeps interruptibly gets a signal. -/
  | signal (t : τ)
  /-- A task that has been woken runs again. -/
  | resume (t : τ)
  /-- A task that is not in the queue changes its state. -/
  | other (t : τ) (state : TaskState)

/-- The steps of tasks that sleep with `interruptible_sleep_on`, or with `sleep_on`. -/
def Step (interruptible : Bool) (s : WaitQueue τ) (a : Action τ) (s' : WaitQueue τ) : Prop :=
  match a with
  | .sleep t => s.tmp t = none ∧
      s' = s.sleep t (if interruptible then .interruptible else .uninterruptible)
  | .wakeUp => s' = s.wakeUp
  | .signal t => s.tmp t ≠ none ∧ s.state t = .interruptible ∧
      s' = { s with state := Function.update s.state t .running }
  | .resume t => ∃ tmp, s.tmp t = some tmp ∧ s.state t = .running ∧
      s' = if interruptible then s.retry t tmp else s.leave t tmp
  | .other t state => s.tmp t = none ∧ s' = { s with state := Function.update s.state t state }

/-- A task that is in the queue, and has been woken. -/
def Woken (s : WaitQueue τ) (t : τ) : Prop := s.tmp t ≠ none ∧ s.state t = .running

/-- The pointers lead to a task from the queue, or from a woken task. -/
def Found (s : WaitQueue τ) (u : τ) : Prop :=
  Reaches s.tmp s.p u ∨ ∃ r, s.Woken r ∧ Reaches s.tmp (some r) u

/-- A task that is in the queue and sleeps. -/
def Asleep (s : WaitQueue τ) (state : TaskState) (u : τ) : Prop :=
  s.tmp u ≠ none ∧ s.state u = state

/-- No sleeper is lost. -/
def NoneLost (state : TaskState) (s : WaitQueue τ) : Prop := ∀ u, s.Asleep state u → s.Found u

/-- The empty queue. -/
def Empty (s : WaitQueue τ) : Prop := s.p = none ∧ ∀ t, s.tmp t = none

/-- When a task leaves `sleep_on`, the first task in the queue does not sleep, or the
    pointers lead to it from the `tmp` of the task that leaves, or from another one that
    has been woken. -/
def SleepOnKeeps (s : WaitQueue τ) : Action τ → Prop
  | .resume t => ∀ h, s.p = some h → s.Asleep .uninterruptible h →
      (∃ tmp, s.tmp t = some tmp ∧ Reaches s.tmp tmp h) ∨
        ∃ r, r ≠ t ∧ s.Woken r ∧ Reaches s.tmp (some r) h
  | _ => True

/-- When a task goes back to sleep in `interruptible_sleep_on`, the pointers lead to it from
    the queue, or from another task that has been woken. -/
def RetryKeeps (s : WaitQueue τ) : Action τ → Prop
  | .resume t => ∀ h, s.p = some h → h ≠ t →
      Reaches s.tmp s.p t ∨ ∃ r, r ≠ t ∧ s.Woken r ∧ Reaches s.tmp (some r) t
  | _ => True

variable {s s' : WaitQueue τ} {a : Action τ} {t u : τ} {tmp : Option τ} {st : TaskState}

/-! ## Steps that lose no sleeper -/

/-- Going to sleep, at the head of the queue. -/
theorem NoneLost.sleep (h : s.NoneLost st) (ht : s.tmp t = none) : (s.sleep t st).NoneLost st := by
  have hmono : ∀ u q, s.tmp u = some q → (s.sleep t st).tmp u = some q := by
    intro u q hu
    have hne : u ≠ t := by
      rintro rfl
      cases ht.symm.trans hu
    exact (Function.update_of_ne hne _ _).trans hu
  intro u hu
  by_cases hut : u = t
  · subst hut
    exact Or.inl (.here u)
  have hu' : s.Asleep st u :=
    ⟨(Function.update_of_ne hut _ _).symm.trans_ne hu.1,
      (Function.update_of_ne hut _ _).symm.trans hu.2⟩
  rcases h u hu' with hp | ⟨r, ⟨hr, hrun⟩, hreach⟩
  · exact Or.inl (.there (Function.update_self _ _ _) (hp.mono hmono))
  · have hrt : r ≠ t := fun hrt => hr (hrt ▸ ht)
    refine Or.inr ⟨r, ⟨?_, ?_⟩, hreach.mono hmono⟩
    · exact (Function.update_of_ne hrt _ _).trans_ne hr
    · exact (Function.update_of_ne hrt _ _).trans hrun

/-- Making tasks run that are not the ones that sleep. -/
theorem NoneLost.setState (h : s.NoneLost st) (hst : st ≠ .running) :
    NoneLost st { s with state := Function.update s.state t .running } := by
  intro u ⟨hu, hsleep⟩
  have hut : u ≠ t := by
    rintro rfl
    exact hst ((Function.update_self _ _ _).symm.trans hsleep).symm
  have hsleep : s.state u = st := (Function.update_of_ne hut _ _).symm.trans hsleep
  refine (h u ⟨hu, hsleep⟩).imp_right fun ⟨r, ⟨hr, hrun⟩, hreach⟩ => ⟨r, ⟨hr, ?_⟩, hreach⟩
  by_cases hrt : r = t
  · exact hrt ▸ Function.update_self _ _ _
  · exact (Function.update_of_ne hrt _ _).trans hrun

/-- The task at the head of the queue is woken, and leads to the others. -/
theorem NoneLost.wakeUp (h : s.NoneLost st) (hst : st ≠ .running) : s.wakeUp.NoneLost st := by
  rw [WaitQueue.wakeUp]
  split
  · exact h
  · rename_i t hp
    intro u hu
    have hfound := h.setState (t := t) hst u hu
    rcases hfound with hreach | hreach
    · refine Or.inr ⟨t, ⟨fun ht => ?_, Function.update_self _ _ _⟩, hp ▸ hreach⟩
      -- a task outside of the queue leads to no sleeper
      obtain rfl : u = t := Reaches.eq_of_leaf (hp ▸ hreach) ht
      exact hu.1 ht
    · exact Or.inr hreach

theorem NoneLost.other (h : s.NoneLost st) (ht : s.tmp t = none) (state : TaskState) :
    NoneLost st { s with state := Function.update s.state t state } := by
  intro u ⟨hu, hsleep⟩
  have hne : ∀ r, s.tmp r ≠ none → r ≠ t := fun r hr hrt => hr (hrt ▸ ht)
  have hsleep : s.state u = st := (Function.update_of_ne (hne u hu) _ _).symm.trans hsleep
  refine (h u ⟨hu, hsleep⟩).imp_right fun ⟨r, ⟨hr, hrun⟩, hreach⟩ => ⟨r, ⟨hr, ?_⟩, hreach⟩
  exact (Function.update_of_ne (hne r hr) _ _).trans hrun

/-! ## Steps that may lose one -/

/-- The tasks in the queue sleep, or have been woken. -/
def Inv (st : TaskState) (s : WaitQueue τ) : Prop :=
  ∀ t, s.tmp t ≠ none → s.state t = st ∨ s.state t = .running

theorem leave_p : (s.leave t tmp).p = tmp := by cases tmp <;> rfl

theorem leave_tmp : (s.leave t tmp).tmp = Function.update s.tmp t none := by cases tmp <;> rfl

/-- A task that leaves wakes the task that its `tmp` points to. -/
theorem leave_state (u : τ) :
    (s.leave t tmp).state u = if tmp = some u then .running else s.state u := by
  cases tmp with
  | none => rfl
  | some v =>
    by_cases huv : u = v
    · rw [if_pos (congrArg some huv.symm), huv]
      exact Function.update_self _ _ _
    · rw [if_neg fun h => huv (Option.some.inj h).symm]
      exact Function.update_of_ne huv _ _

theorem woken_leave {r : τ} (hr : s.Woken r) (hrt : r ≠ t) : (s.leave t tmp).Woken r := by
  refine ⟨?_, ?_⟩
  · rw [leave_tmp, Function.update_of_ne hrt]
    exact hr.1
  · rw [leave_state, hr.2, ite_self]

/-- What woken tasks lead to is found after a task has left. -/
theorem found_leave (ht : s.tmp t = some tmp) (hut : u ≠ t) {r : τ} (hr : s.Woken r)
    (hreach : Reaches s.tmp (some r) u) : (s.leave t tmp).Found u := by
  rw [Found, leave_tmp, leave_p]
  rcases hreach.cut tmp ht with hcut | hcut
  · by_cases hrt : r = t
    · subst hrt
      exact absurd (hcut.eq_of_leaf (Function.update_self _ _ _)) hut
    · exact Or.inr ⟨r, woken_leave hr hrt, hcut⟩
  · exact Or.inl hcut

/-- Leaving loses no sleeper exactly if it does not lose the head of the queue. -/
theorem NoneLost.leave_iff (h : s.NoneLost st) (hinv : s.Inv st) (hst : st ≠ .running)
    (ht : s.tmp t = some tmp) (hrun : s.state t = .running) :
    (s.leave t tmp).NoneLost st ↔ ∀ v, s.p = some v → s.Asleep st v →
      Reaches s.tmp tmp v ∨ ∃ r, r ≠ t ∧ s.Woken r ∧ Reaches s.tmp (some r) v := by
  constructor
  · intro hlost v _ ⟨hv, hsleep⟩
    have hvt : v ≠ t := fun hvt => hst (hsleep.symm.trans (hvt ▸ hrun))
    by_cases htv : tmp = some v
    · exact Or.inl (htv ▸ .here v)
    have hv' : (s.leave t tmp).Asleep st v := by
      rw [Asleep, leave_tmp, leave_state, if_neg htv, Function.update_of_ne hvt]
      exact ⟨hv, hsleep⟩
    -- the head of the queue is the only task that can get lost
    have hfound := hlost v hv'
    rw [Found, leave_tmp, leave_p] at hfound
    rcases hfound with hreach | ⟨r, ⟨hr, hrun'⟩, hreach⟩
    · exact Or.inl hreach.of_cut
    · rw [leave_state] at hrun'
      have hrt : r ≠ t := by
        rintro rfl
        exact hr (by rw [leave_tmp, Function.update_self])
      rw [leave_tmp, Function.update_of_ne hrt] at hr
      -- the task that is woken here is the one that `tmp` points to
      by_cases htr : tmp = some r
      · exact Or.inl (htr ▸ hreach.of_cut)
      · rw [if_neg htr] at hrun'
        exact Or.inr ⟨r, hrt, ⟨hr, hrun'⟩, hreach.of_cut⟩
  · rintro hkeep u ⟨hu, hsleep⟩
    have hut : u ≠ t := by
      rintro rfl
      exact hu (by rw [leave_tmp, Function.update_self])
    rw [leave_tmp, Function.update_of_ne hut] at hu
    have hsleep' : s.state u = st := by
      rw [leave_state] at hsleep
      split_ifs at hsleep
      · exact absurd hsleep.symm hst
      · exact hsleep
    have htwoken : s.Woken t := ⟨ht ▸ Option.some_ne_none _, hrun⟩
    rcases h u ⟨hu, hsleep'⟩ with hreach | ⟨r, hr, hreach⟩
    · -- the way from the head of the queue
      cases hp : s.p with
      | none => exact absurd (hp ▸ hreach) Reaches.not_none
      | some v =>
        rw [hp] at hreach
        by_cases hv : s.tmp v = none
        · exact absurd (hreach.eq_of_leaf hv ▸ hv) hu
        rcases hinv v hv with hvs | hvr
        · rcases hkeep v hp ⟨hv, hvs⟩ with hkeep | ⟨r, -, hr, hkeep⟩
          · exact found_leave ht hut htwoken (.there ht (hkeep.trans hreach))
          · exact found_leave ht hut hr (hkeep.trans hreach)
        · exact found_leave ht hut ⟨hv, hvr⟩ hreach
    · exact found_leave ht hut hr hreach

/-- A task that is not at the head of the queue wakes the head, and goes back to sleep. -/
theorem retry_eq {v : τ} (hp : s.p = some v) (hvt : v ≠ t) : s.retry t tmp = { s with
    state := Function.update (Function.update s.state v .running) t .interruptible } := by
  rw [retry]
  split
  · rename_i hnone
    cases hnone.symm.trans hp
  · rename_i w hw
    obtain rfl := Option.some.inj (hw.symm.trans hp)
    rw [if_pos hvt]

theorem retry_state {v : τ} (hp : s.p = some v) (hvt : v ≠ t) (u : τ) : (s.retry t tmp).state u =
    if u = t then .interruptible else if u = v then .running else s.state u := by
  rw [retry_eq hp hvt]
  exact (Function.update_apply _ _ _ _).trans (by rw [Function.update_apply])

theorem woken_retry {r v : τ} (hp : s.p = some v) (hvt : v ≠ t) (hrt : r ≠ t) (hr : s.Woken r) :
    (s.retry t tmp).Woken r := by
  refine ⟨?_, ?_⟩
  · rw [retry_eq hp hvt]
    exact hr.1
  · rw [retry_state hp hvt, if_neg hrt, hr.2, ite_self]

/-- Going back to sleep loses no sleeper exactly if it does not lose the task itself. -/
theorem NoneLost.retry_iff (h : s.NoneLost .interruptible) (ht : s.tmp t = some tmp) {v : τ}
    (hp : s.p = some v) (hvt : v ≠ t) :
    (s.retry t tmp).NoneLost .interruptible ↔
      Reaches s.tmp s.p t ∨ ∃ r, r ≠ t ∧ s.Woken r ∧ Reaches s.tmp (some r) t := by
  have htmp : (s.retry t tmp).tmp = s.tmp := by rw [retry_eq hp hvt]
  have hps : (s.retry t tmp).p = s.p := by rw [retry_eq hp hvt]
  have hstate : ∀ u, (s.retry t tmp).state u =
      if u = t then .interruptible else if u = v then .running else s.state u := retry_state hp hvt
  have hself : (s.retry t tmp).state t = .interruptible := (hstate t).trans (if_pos rfl)
  constructor
  · intro hlost
    have hfound := hlost t ⟨by rw [htmp, ht]; exact Option.some_ne_none _, hself⟩
    rw [Found, htmp, hps] at hfound
    refine hfound.elim Or.inl fun ⟨r, ⟨hr, hrun⟩, hreach⟩ => ?_
    have hrt : r ≠ t := by
      rintro rfl
      cases hself.symm.trans hrun
    -- the head is woken by this step; the others have been woken before
    by_cases hrv : r = v
    · exact Or.inl (hp ▸ hrv ▸ hreach)
    · rw [htmp] at hr
      rw [hstate, if_neg hrt, if_neg hrv] at hrun
      exact Or.inr ⟨r, hrt, ⟨hr, hrun⟩, hreach⟩
  · intro hkeep u ⟨hu, hsleep⟩
    have hfound : ∀ w, Reaches s.tmp s.p w ∨ (∃ r, r ≠ t ∧ s.Woken r ∧ Reaches s.tmp (some r) w) →
        (s.retry t tmp).Found w := by
      intro w
      rw [Found, htmp, hps]
      exact Or.imp_right fun ⟨r, hrt, hr, hreach⟩ => ⟨r, woken_retry hp hvt hrt hr, hreach⟩
    refine hfound u ?_
    by_cases hut : u = t
    · exact hut ▸ hkeep
    have hsleep : s.state u = .interruptible := by
      rw [hstate, if_neg hut] at hsleep
      split_ifs at hsleep
      exact hsleep
    rw [htmp] at hu
    rcases h u ⟨hu, hsleep⟩ with hreach | ⟨r, hr, hreach⟩
    · exact Or.inl hreach
    · by_cases hrt : r = t
      · -- what the task leads to is found where the task itself is found
        rw [hrt] at hreach
        exact hkeep.imp (fun hk => hk.trans hreach) fun ⟨r', hr't, hr', hk⟩ =>
          ⟨r', hr't, hr', hk.trans hreach⟩
      · exact Or.inr ⟨r, hrt, hr, hreach⟩

/-! ## Runs -/

theorem Inv.setState (h : s.Inv st) (t : τ) :
    Inv st { s with state := Function.update s.state t .running } := by
  intro u hu
  by_cases hut : u = t
  · exact Or.inr (hut ▸ Function.update_self _ _ _)
  · exact (h u hu).imp (Function.update_of_ne hut _ _).trans (Function.update_of_ne hut _ _).trans

theorem Inv.leave (h : s.Inv st) : (s.leave t tmp).Inv st := by
  intro u hu
  rw [leave_state]
  split_ifs
  · exact Or.inr rfl
  · refine h u fun hnone => hu ?_
    rw [leave_tmp, Function.update_apply, hnone, ite_self]

theorem Inv.sleep (h : s.Inv st) : (s.sleep t st).Inv st := by
  intro u hu
  by_cases hut : u = t
  · exact Or.inl (hut ▸ Function.update_self _ _ _)
  · have hu := (Function.update_of_ne hut _ _).symm.trans_ne hu
    exact (h u hu).imp (Function.update_of_ne hut _ _).trans (Function.update_of_ne hut _ _).trans

theorem Inv.wakeUp (h : s.Inv st) : s.wakeUp.Inv st := by
  rw [WaitQueue.wakeUp]
  split
  · exact h
  · exact h.setState _

theorem Inv.retry (h : s.Inv .interruptible) : (s.retry t tmp).Inv .interruptible := by
  rw [WaitQueue.retry]
  split
  · exact h.leave
  · rename_i v hv
    split_ifs
    · intro u hu
      by_cases hut : u = t
      · exact Or.inl (hut ▸ Function.update_self _ _ _)
      · exact (h.setState v u hu).imp (Function.update_of_ne hut _ _).trans
          (Function.update_of_ne hut _ _).trans
    · exact h.leave

/-- The state in which tasks sleep. -/
def sleepState (interruptible : Bool) : TaskState :=
  if interruptible then .interruptible else .uninterruptible

theorem sleepState_ne (b : Bool) : sleepState b ≠ .running := by cases b <;> nofun

theorem Inv.step {b : Bool} (h : s.Inv (sleepState b)) (hst : Step b s a s') :
    s'.Inv (sleepState b) := by
  cases a with
  | sleep t =>
    obtain ⟨-, rfl⟩ := hst
    exact h.sleep
  | wakeUp =>
    obtain rfl := hst
    exact h.wakeUp
  | signal t =>
    obtain ⟨-, -, rfl⟩ := hst
    exact h.setState t
  | resume t =>
    obtain ⟨tmp, -, -, rfl⟩ := hst
    cases b with
    | false => exact h.leave
    | true => exact h.retry
  | other t state =>
    obtain ⟨ht, rfl⟩ := hst
    intro u hu
    have hut : u ≠ t := by
      rintro rfl
      exact hu ht
    exact (h u hu).imp (Function.update_of_ne hut _ _).trans (Function.update_of_ne hut _ _).trans

/-- A step other than that of a woken task loses no sleeper. -/
theorem NoneLost.step {b : Bool} (h : s.NoneLost (sleepState b)) (hst : Step b s a s')
    (ha : ∀ t, a ≠ .resume t) : s'.NoneLost (sleepState b) := by
  cases a with
  | sleep t =>
    obtain ⟨ht, rfl⟩ := hst
    exact h.sleep ht
  | wakeUp =>
    obtain rfl := hst
    exact h.wakeUp (sleepState_ne b)
  | signal t =>
    obtain ⟨-, -, rfl⟩ := hst
    exact h.setState (sleepState_ne b)
  | resume t => exact absurd rfl (ha t)
  | other t state =>
    obtain ⟨ht, rfl⟩ := hst
    exact h.other ht state

theorem NoneLost.step_sleepOn (h : s.NoneLost .uninterruptible) (hinv : s.Inv .uninterruptible)
    (hst : Step false s a s') : s'.NoneLost .uninterruptible ↔ s.SleepOnKeeps a := by
  cases a with
  | resume t =>
    obtain ⟨tmp, ht, hrun, rfl⟩ := hst
    refine (h.leave_iff hinv nofun ht hrun).trans ?_
    rw [SleepOnKeeps, ht]
    simp only [Option.some.injEq, exists_eq_left']
  | _ => exact ⟨fun _ => trivial, fun _ => NoneLost.step (b := false) h hst nofun⟩

theorem NoneLost.step_interruptible (h : s.NoneLost .interruptible)
    (hinv : s.Inv .interruptible) (hst : Step true s a s') :
    s'.NoneLost .interruptible ↔ s.RetryKeeps a := by
  cases a with
  | resume t =>
    obtain ⟨tmp, ht, hrun, rfl⟩ := hst
    rw [RetryKeeps]
    by_cases hp : ∃ v, s.p = some v ∧ v ≠ t
    · obtain ⟨v, hp, hvt⟩ := hp
      refine (h.retry_iff ht hp hvt).trans ⟨fun hk _ _ _ => hk, fun hk => hk v hp hvt⟩
    · have hleave : s.retry t tmp = s.leave t tmp := by
        rw [retry]
        split
        · rfl
        · rename_i v hv
          exact if_neg fun hvt => hp ⟨v, hv, hvt⟩
      rw [if_pos rfl, hleave, h.leave_iff hinv nofun ht hrun]
      refine ⟨fun _ v hv hvt => absurd ⟨v, hv, hvt⟩ hp, fun _ v hv hsleep => ?_⟩
      -- the head of the queue is the task itself, which does not sleep
      have hvt : v = t := not_not.1 fun hvt => hp ⟨v, hv, hvt⟩
      cases hsleep.2.symm.trans (hvt ▸ hrun)
  | _ => exact ⟨fun _ => trivial, fun _ => NoneLost.step (b := true) h hst nofun⟩

omit [DecidableEq τ] in
theorem Empty.inv (h : s.Empty) : s.Inv st := fun t ht => absurd (h.2 t) ht

omit [DecidableEq τ] in
theorem Empty.noneLost (h : s.Empty) : s.NoneLost st := fun t ht => absurd (h.2 t) ht.1

/-- In every run of `sleep_on` and `wake_up` on an empty queue, no sleeper is lost exactly as
    long as no task that leaves loses the head of the queue. -/
theorem sleepOn_iff (s : WaitQueue τ) (l : List (Action τ × WaitQueue τ)) (hs : s.Empty)
    (h : Run (Step false) s l) :
    (∀ x ∈ l, x.2.NoneLost .uninterruptible) ↔ Along SleepOnKeeps s l :=
  h.forall_iff_along (P := NoneLost .uninterruptible) (J := Inv .uninterruptible) hs.noneLost hs.inv
    (fun _ _ _ hs hst => Inv.step (b := false) hs hst)
    fun _ _ _ hinv hs hst => hs.step_sleepOn hinv hst

/-- In every run of `interruptible_sleep_on` and `wake_up`, with signals, on an empty queue,
    no sleeper is lost exactly as long as no task that goes back to sleep loses itself. -/
theorem interruptibleSleepOn_iff (s : WaitQueue τ) (l : List (Action τ × WaitQueue τ))
    (hs : s.Empty) (h : Run (Step true) s l) :
    (∀ x ∈ l, x.2.NoneLost .interruptible) ↔ Along RetryKeeps s l :=
  h.forall_iff_along (P := NoneLost .interruptible) (J := Inv .interruptible) hs.noneLost hs.inv
    (fun _ _ _ hs hst => Inv.step (b := true) hs hst)
    fun _ _ _ hinv hs hst => hs.step_interruptible hinv hst

/-! ## Lost sleepers -/

/-- An empty queue. -/
def init : WaitQueue ℕ := ⟨none, fun _ => .running, fun _ => none⟩

theorem empty_init : init.Empty := ⟨rfl, fun _ => rfl⟩

/-- Two tasks go to sleep; the queue is woken up, and they leave one after the other. -/
theorem sleepOn_iff_wakeUp : ∃ l, Run (Step false) init l ∧
    l.map Prod.fst = [.sleep 1, .sleep 2, .wakeUp, .resume 2, .resume 1] ∧
    ∀ x ∈ l, x.2.NoneLost .uninterruptible := by
  have hrun : Run (Step false) init [(.sleep 1, _), (.sleep 2, _), (.wakeUp, _), (.resume 2, _),
      (.resume 1, _)] := .cons ⟨rfl, rfl⟩ (.cons ⟨rfl, rfl⟩ (.cons rfl
    (.cons ⟨some 1, rfl, rfl, rfl⟩ (.cons ⟨none, rfl, rfl, rfl⟩ (.nil _)))))
  refine ⟨_, hrun, rfl, (sleepOn_iff init _ empty_init hrun).2 ⟨trivial, trivial, trivial, ?_, ?_,
    trivial⟩⟩
  · -- the queue is empty when task 2 leaves
    intro h hp
    cases hp
  · -- it points to task 1 when this one leaves
    intro h hp hsleep
    obtain rfl := Option.some.inj hp
    cases hsleep.2

/-- Two tasks go to sleep, and the first one gets a signal: it finds the second one at the head
    of the queue, goes back to sleep, and leaves after it. -/
theorem interruptibleSleepOn_iff_signal : ∃ l, Run (Step true) init l ∧
    l.map Prod.fst = [.sleep 1, .sleep 2, .signal 1, .resume 1, .resume 2, .resume 1] ∧
    ∀ x ∈ l, x.2.NoneLost .interruptible := by
  have hrun : Run (Step true) init [(.sleep 1, _), (.sleep 2, _), (.signal 1, _), (.resume 1, _),
      (.resume 2, _), (.resume 1, _)] := .cons ⟨rfl, rfl⟩ (.cons ⟨rfl, rfl⟩
    (.cons ⟨nofun, rfl, rfl⟩ (.cons ⟨none, rfl, rfl, rfl⟩ (.cons ⟨some 1, rfl, rfl, rfl⟩
      (.cons ⟨none, rfl, rfl, rfl⟩ (.nil _))))))
  refine ⟨_, hrun, rfl, (interruptibleSleepOn_iff init _ empty_init hrun).2 ⟨trivial, trivial,
    trivial, ?_, ?_, ?_, trivial⟩⟩
  · -- task 2 leads to task 1
    intro h hp hne
    exact .inl (@Reaches.there _ _ 2 _ (some 1) rfl (.here 1))
  · intro h hp hne
    exact absurd (Option.some.inj hp).symm hne
  · intro h hp hne
    exact absurd (Option.some.inj hp).symm hne

/-- The queue after the tasks 1 and 2 went to sleep, task 2 was woken, and task 3 went to
    sleep. -/
def late (state : TaskState) : WaitQueue ℕ :=
  (((init.sleep 1 state).sleep 2 state).wakeUp).sleep 3 state

/-- The pointers of the tasks 1 and 3 are null. -/
theorem reaches_of_null {next : ℕ → Option (Option ℕ)} {t u : ℕ} (ht : next t = some none)
    (h : Reaches next (some t) u) : u = t := by
  cases h with
  | here => rfl
  | there hp h =>
    obtain rfl := Option.some.inj (ht.symm.trans hp)
    exact absurd h Reaches.not_none

/-- Task 2 leaves, and the queue then points to task 1: task 3 is lost. -/
theorem sleepOn_loses : ∃ l, Run (Step false) init l ∧
    ∃ x ∈ l, ¬x.2.NoneLost .uninterruptible := by
  refine ⟨[(.sleep 1, _), (.sleep 2, _), (.wakeUp, _), (.sleep 3, late .uninterruptible),
    (.resume 2, (late .uninterruptible).leave 2 (some 1))], .cons ⟨rfl, rfl⟩ (.cons ⟨rfl, rfl⟩
    (.cons rfl (.cons ⟨rfl, rfl⟩ (.cons ⟨some 1, rfl, rfl, rfl⟩ (.nil _))))), _,
    List.mem_cons_of_mem _ (List.mem_cons_of_mem _ (List.mem_cons_of_mem _
      (List.mem_cons_of_mem _ List.mem_cons_self))), fun h => ?_⟩
  have hnull : ((late .uninterruptible).leave 2 (some 1)).tmp 1 = some none := rfl
  rcases h 3 ⟨nofun, rfl⟩ with hreach | ⟨r, ⟨hr, hrun⟩, hreach⟩
  · cases reaches_of_null hnull hreach
  · have hr' : r = 1 := by
      by_contra hr1
      by_cases hr3 : r = 3
      · subst hr3
        cases hrun
      · refine hr ?_
        simp [leave_tmp, late, WaitQueue.sleep, WaitQueue.wakeUp, init, Function.update_apply, hr1,
          hr3]
    subst hr'
    cases reaches_of_null hnull hreach

/-- Task 2 finds task 3 at the head of the queue, wakes it, and goes back to sleep: it is
    lost. -/
theorem interruptibleSleepOn_loses : ∃ l, Run (Step true) init l ∧
    ∃ x ∈ l, ¬x.2.NoneLost .interruptible := by
  refine ⟨[(.sleep 1, _), (.sleep 2, _), (.wakeUp, _), (.sleep 3, late .interruptible),
    (.resume 2, (late .interruptible).retry 2 (some 1))], .cons ⟨rfl, rfl⟩ (.cons ⟨rfl, rfl⟩
    (.cons rfl (.cons ⟨rfl, rfl⟩ (.cons ⟨some 1, rfl, rfl, rfl⟩ (.nil _))))), _,
    List.mem_cons_of_mem _ (List.mem_cons_of_mem _ (List.mem_cons_of_mem _
      (List.mem_cons_of_mem _ List.mem_cons_self))), fun h => ?_⟩
  have hnull : ((late .interruptible).retry 2 (some 1)).tmp 3 = some none := rfl
  rcases h 2 ⟨nofun, rfl⟩ with hreach | ⟨r, ⟨hr, hrun⟩, hreach⟩
  · cases reaches_of_null hnull hreach
  · have hr' : r = 3 := by
      by_contra hr3
      by_cases hr1 : r = 1
      · subst hr1
        cases hrun
      by_cases hr2 : r = 2
      · subst hr2
        cases hrun
      · refine hr ?_
        simp [retry, late, WaitQueue.sleep, WaitQueue.wakeUp, init, hr1, hr2, hr3]
    subst hr'
    cases reaches_of_null hnull hreach

end WaitQueue

end NeuOs
