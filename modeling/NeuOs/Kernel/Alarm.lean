import NeuOs.Kernel.SysSleep

/-!
# The alarm of a process (`sys_alarm` and `schedule` in kernel/sched.c)

`sys_alarm` sets the alarm of a process to a deadline, 100 ticks of the clock for each second. A
call of `schedule` after the deadline is meant to raise SIGALRM, once, and none before it; and a
further call of `sys_alarm` is meant to return the seconds that have been left
(`Watch.OnTime`, where the ticks are counted without an overflow).

The deadline is a signed 32-bit word, and a deadline of 0 is no alarm. `alarm_iff` says for which
seconds the alarm is on time.
-/

namespace NeuOs

open Transition

namespace Kernel

/-- The test of `schedule` for the alarm of the task in the slot `i`. -/
def alarmOver (k : Kernel) (i : Slot) : Bool :=
  (k.task i).any fun t => t.alarm ≠ 0 ∧ t.alarm.slt k.jiffies

/-- From `k` to `k'`, the alarm of the task in the slot `i` has expired: it is gone, and SIGALRM is
    pending. -/
def raises (k : Kernel) (i : Slot) (k' : Kernel) : Bool :=
  ((k.task i).any fun t => t.alarm ≠ 0) &&
    (k'.task i).any fun t => t.alarm = 0 ∧ t.signal.getLsbD (SIGALRM - 1)

/-- `sys_alarm` of the task in the slot `i`. -/
def setAlarm (k : Kernel) (i : Slot) (seconds : Word) : Kernel :=
  k.modifyTask i fun t => (t.sysAlarm k.jiffies seconds).2

end Kernel

/-- A kernel after a call of `sys_alarm`, with the ticks of the clock since then, and the calls of
    `schedule` since then: the ticks at the time, and whether the alarm has raised SIGALRM. -/
structure Watch where
  kernel : Kernel
  ticks : ℕ
  calls : List (ℕ × Bool)

/-- Ticks of the clock, and calls of `schedule`. -/
inductive WatchAction
  | tick (current : Slot) (cpl : Word)
  | schedule

namespace Watch

/-- The steps until the next call of `sys_alarm`. -/
def Step (i : Slot) (s : Watch) (a : WatchAction) (s' : Watch) : Prop :=
  match a with
  | .tick current cpl => s' = { s with
      kernel := ({ s.kernel with jiffies := s.kernel.jiffies + 1 }.doTimer current cpl).1
      ticks := s.ticks + 1 }
  | .schedule => ∃ fuel k next, s.kernel.schedule fuel = some (k, next) ∧
      s' = ⟨k, s.ticks, s.calls ++ [(s.ticks, s.kernel.raises i k)]⟩

/-- The state after `sys_alarm`. -/
def start (k : Kernel) (i : Slot) (seconds : Word) : Watch := ⟨k.setAlarm i seconds, 0, []⟩

/-- No call of `schedule` raises SIGALRM before the time is over, the first call after it does,
    unless `jiffies` has overflowed, and only one does; and before the time is over, `sys_alarm`
    returns a number of seconds from 0 to those asked for. -/
structure OnTime (t₀ seconds : Word) (i : Slot) (s : Watch) : Prop where
  notEarly : ∀ n, (n, true) ∈ s.calls → 100 * seconds.toInt < n
  first : ∀ n b, (s.calls.find? fun c => 100 * seconds.toInt < c.1) = some (n, b) →
    t₀.toInt + n < 2 ^ 31 → b = true
  once : (s.calls.filter fun c => c.2).length ≤ 1
  remaining : s.ticks ≤ 100 * seconds.toInt → ∀ t, s.kernel.task i = some t → ∀ next : Word,
    0 ≤ (t.sysAlarm s.kernel.jiffies next).1.toInt ∧
      (t.sysAlarm s.kernel.jiffies next).1.toInt ≤ seconds.toInt

/-- The deadline is a positive `long`, or it is 0 in 32 bits. -/
def Fits (t₀ seconds : Word) : Prop :=
  t₀.toInt + 100 * seconds.toInt < 2 ^ 31 ∨ (t₀.toInt + 100 * seconds.toInt) % 2 ^ 32 = 0

/-- What holds until the next call of `sys_alarm`: the clock, and the alarm, which goes when it
    raises SIGALRM. -/
structure Inv (t₀ seconds : Word) (i : Slot) (s : Watch) : Prop where
  jiffies : s.kernel.jiffies = t₀ + BitVec.ofNat 32 s.ticks
  alarm : ∃ t, s.kernel.task i = some t ∧
    t.alarm = if s.calls.any (·.2) then 0 else t₀ + HZ * seconds
  ticks : ∀ c ∈ s.calls, c.1 ≤ s.ticks

variable {i : Slot} {t₀ seconds jiffies : Word} {s s' : Watch} {a : WatchAction} {k k' : Kernel}
  {t : Task} {n : ℕ}

/-! ## The steps -/

theorem jiffies_schedule {fuel : ℕ} {next : Slot} (h : k.schedule fuel = some (k', next)) :
    k'.jiffies = k.jiffies := by
  have hselect : ∀ (fuel : ℕ) (k : Kernel), k.select fuel = some (k', next) →
      k'.jiffies = k.jiffies := by
    intro fuel
    induction fuel with
    | zero => exact fun _ h => by cases h
    | succ fuel ih =>
      intro k h
      rw [Kernel.select] at h
      split_ifs at h
      · rw [(Prod.mk.inj (Option.some.inj h)).1]
      · exact (ih _ h).trans (Kernel.jiffies_everyTask _ _ k)
  exact (hselect fuel _ h).trans (Kernel.jiffies_everyTask _ _ k)

theorem alarmOver_eq (ht : k.task i = some t) :
    k.alarmOver i = true ↔ t.alarm ≠ 0 ∧ t.alarm.slt k.jiffies := by
  rw [Kernel.alarmOver, ht]
  exact decide_eq_true_iff

/-- The first loop of `schedule` raises SIGALRM and takes the alarm away, if it is over. -/
theorem wake_ring_cases (jiffies : Word) (t : Task) :
    (t.ring jiffies).wake.alarm = (if t.alarm ≠ 0 ∧ t.alarm.slt jiffies then 0 else t.alarm) ∧
      (t.alarm ≠ 0 ∧ t.alarm.slt jiffies →
        (t.ring jiffies).wake.signal.getLsbD (SIGALRM - 1) = true) := by
  have hwake : ∀ t : Task, t.wake.alarm = t.alarm ∧ t.wake.signal = t.signal := fun t => by
    rw [Task.wake]
    split_ifs <;> exact ⟨rfl, rfl⟩
  rw [(hwake _).1, (hwake _).2, Task.ring]
  by_cases hover : t.alarm ≠ 0 ∧ t.alarm.slt jiffies
  · have hbit : (sigBit SIGALRM).getLsbD (SIGALRM - 1) = true := by decide
    rw [if_pos hover, if_pos hover, BitVec.getLsbD_or, hbit, Bool.or_true]
    exact ⟨rfl, fun _ => rfl⟩
  · rw [if_neg hover, if_neg hover]
    exact ⟨rfl, fun h => absurd h hover⟩

/-- What a call of `schedule` does to the task and its alarm. -/
theorem schedule_alarm {fuel : ℕ} {next : Slot} (hi : i ≠ 0) (ht : k.task i = some t)
    (h : k.schedule fuel = some (k', next)) : k.raises i k' = k.alarmOver i ∧
      ∃ t', k'.task i = some t' ∧ t'.alarm = if k.alarmOver i then 0 else t.alarm := by
  obtain ⟨t', ht', hview, -⟩ := Nap.task_schedule hi ht h
  have halarm : t'.alarm = _ := congrArg (fun v => v.2.1) hview
  have hsignal : t'.signal = _ := congrArg (fun v => v.2.2) hview
  obtain ⟨hring, hraise⟩ := wake_ring_cases k.jiffies t
  have hover := alarmOver_eq ht
  have hafter : t'.alarm = if k.alarmOver i then 0 else t.alarm := by
    refine (halarm.trans hring).trans ?_
    simp only [hover]
  refine ⟨?_, t', ht', hafter⟩
  rw [Kernel.raises, ht, ht', Option.any_some, Option.any_some]
  cases ho : k.alarmOver i with
  | false =>
    -- the alarm is the one from before
    rw [ho, if_neg nofun] at hafter
    rw [hafter, Bool.and_eq_false_iff]
    by_cases h0 : t.alarm = 0
    · exact .inl (decide_eq_false (not_not.2 h0))
    · exact .inr (decide_eq_false fun hc => h0 hc.1)
  | true =>
    rw [ho, if_pos rfl] at hafter
    have hbit : t'.signal.getLsbD (SIGALRM - 1) = true := hsignal ▸ hraise (hover.1 ho)
    rw [Bool.and_eq_true]
    exact ⟨decide_eq_true (hover.1 ho).1, decide_eq_true ⟨hafter, hbit⟩⟩

/-- The clock and the alarm after a step. -/
theorem Inv.step (hi : i ≠ 0) (h : s.Inv t₀ seconds i) (hst : Step i s a s') :
    s'.Inv t₀ seconds i := by
  obtain ⟨t, ht, halarm⟩ := h.alarm
  cases a with
  | tick current cpl =>
    obtain rfl := hst
    have htimer := (Kernel.SameTasks.doTimer (φ := fun t => t.alarm) (fun _ _ => rfl)
      (fun _ _ => rfl) (fun _ _ => rfl) { s.kernel with jiffies := s.kernel.jiffies + 1 } current
      cpl).task i
    rw [show ({ s.kernel with jiffies := s.kernel.jiffies + 1 } : Kernel).task i = some t from ht]
      at htimer
    obtain ⟨t', ht', heq⟩ := Option.map_eq_some_iff.1 htimer
    refine ⟨?_, ⟨t', ht', heq.trans halarm⟩, fun c hc => Nat.le_succ_of_le (h.ticks c hc)⟩
    rw [Kernel.jiffies_doTimer]
    dsimp only
    rw [h.jiffies, BitVec.ofNat_add, BitVec.add_assoc]
    rfl
  | schedule =>
    obtain ⟨fuel, k, next, hsched, rfl⟩ := hst
    obtain ⟨hraises, t', ht', halarm'⟩ := schedule_alarm hi ht hsched
    refine ⟨(jiffies_schedule hsched).trans h.jiffies, ⟨t', ht', ?_⟩, fun c hc => ?_⟩
    · rw [halarm', halarm, List.any_append, hraises]
      cases hany : s.calls.any (·.2) <;> cases hover : s.kernel.alarmOver i <;> rfl
    · rcases List.mem_append.1 hc with hc | hc
      · exact h.ticks c hc
      · rw [List.mem_singleton.1 hc]

theorem inv_start (hk : k.jiffies = t₀) (ht : (k.task i).isSome) (hpos : 0 < seconds.toInt) :
    (start k i seconds).Inv t₀ seconds i := by
  obtain ⟨t, ht⟩ := Option.isSome_iff_exists.1 ht
  refine ⟨?_, ⟨(t.sysAlarm k.jiffies seconds).2, ?_, ?_⟩, fun _ hc => absurd hc List.not_mem_nil⟩
  · exact hk.trans (BitVec.add_zero _).symm
  · rw [start, Kernel.setAlarm, Kernel.task_modifyTask, if_pos rfl, ht]
    rfl
  · have hslt : (0 : Word).slt seconds := BitVec.slt_iff_toInt_lt.2 hpos
    rw [Task.sysAlarm, hk]
    exact if_pos hslt

/-! ## The deadline -/

/-- The numbers of a call: neither `jiffies` nor the seconds are negative. -/
theorem toNat_spec (h : 0 ≤ t₀.toInt) : (t₀.toNat : ℤ) = t₀.toInt ∧ t₀.toNat < 2 ^ 31 := by
  have hlt := t₀.isLt
  rw [BitVec.toInt_eq_toNat_cond] at h ⊢
  split_ifs at h ⊢
  · exact ⟨rfl, by omega⟩
  · omega

theorem toNat_deadline (t₀ seconds : Word) :
    (t₀ + HZ * seconds).toNat = (t₀.toNat + 100 * seconds.toNat) % 2 ^ 32 := by
  have hHZ : HZ.toNat = 100 := rfl
  rw [BitVec.toNat_add, BitVec.toNat_mul, hHZ]
  omega

theorem toNat_jiffies (t₀ : Word) (n : ℕ) :
    (t₀ + BitVec.ofNat 32 n).toNat = (t₀.toNat + n) % 2 ^ 32 := by
  rw [BitVec.toNat_add, BitVec.toNat_ofNat]
  omega

theorem toInt_of_lt {w : Word} {m : ℕ} (hw : w.toNat = m) (hm : m < 2 ^ 31) : w.toInt = m := by
  rw [BitVec.toInt_eq_toNat_of_lt (by omega), hw]

/-- With a deadline that is a positive `long`, the alarm is over after the time, unless `jiffies`
    overflows, and not before. -/
theorem over_iff (h₀ : 0 ≤ t₀.toInt) (hpos : 0 < seconds.toInt)
    (hfits : t₀.toInt + 100 * seconds.toInt < 2 ^ 31) (hn : t₀.toInt + n < 2 ^ 31) :
    (t₀ + HZ * seconds ≠ 0 ∧ (t₀ + HZ * seconds).slt (t₀ + BitVec.ofNat 32 n)) ↔
      100 * seconds.toInt < n := by
  obtain ⟨ht, ht'⟩ := toNat_spec h₀
  obtain ⟨hs, hs'⟩ := toNat_spec (Int.le_of_lt hpos)
  have hd : (t₀ + HZ * seconds).toInt = (t₀.toNat + 100 * seconds.toNat : ℕ) :=
    toInt_of_lt ((toNat_deadline _ _).trans (Nat.mod_eq_of_lt (by omega))) (by omega)
  have hj : (t₀ + BitVec.ofNat 32 n).toInt = (t₀.toNat + n : ℕ) :=
    toInt_of_lt ((toNat_jiffies _ _).trans (Nat.mod_eq_of_lt (by omega))) (by omega)
  have hne : t₀ + HZ * seconds ≠ 0 := fun h0 => by
    rw [h0] at hd
    have hzero : (0 : Word).toInt = 0 := rfl
    omega
  rw [BitVec.slt_iff_toInt_lt, hd, hj]
  exact ⟨fun h => by have := h.2; omega, fun h => ⟨hne, by omega⟩⟩

/-- Before the time is over, the seconds that are left are returned. -/
theorem remaining_bounds (h₀ : 0 ≤ t₀.toInt) (hpos : 0 < seconds.toInt)
    (hfits : t₀.toInt + 100 * seconds.toInt < 2 ^ 31) (hn : n ≤ 100 * seconds.toInt) :
    0 ≤ ((t₀ + HZ * seconds - (t₀ + BitVec.ofNat 32 n)).sdiv HZ).toInt ∧
      ((t₀ + HZ * seconds - (t₀ + BitVec.ofNat 32 n)).sdiv HZ).toInt ≤ seconds.toInt := by
  obtain ⟨ht, ht'⟩ := toNat_spec h₀
  obtain ⟨hs, hs'⟩ := toNat_spec (Int.le_of_lt hpos)
  have hHZ : HZ.toInt = 100 := rfl
  have hone : HZ ≠ -1#32 := by decide
  have hsub : (t₀ + HZ * seconds - (t₀ + BitVec.ofNat 32 n)).toInt =
      (100 * seconds.toNat - n : ℕ) := by
    refine toInt_of_lt ?_ (by omega)
    rw [BitVec.toNat_sub, toNat_deadline, toNat_jiffies]
    omega
  rw [BitVec.toInt_sdiv_of_ne_or_ne _ _ (.inr hone), hsub, hHZ,
    Int.tdiv_eq_ediv_of_nonneg (Int.natCast_nonneg _)]
  omega

/-! ## Alarms on time -/

/-- The alarm of a call of `schedule` is the deadline until SIGALRM has been raised. -/
theorem Inv.alarmOver_iff (h : s.Inv t₀ seconds i) (hnone : s.calls.any (·.2) = false) :
    s.kernel.alarmOver i = true ↔
      t₀ + HZ * seconds ≠ 0 ∧ (t₀ + HZ * seconds).slt (t₀ + BitVec.ofNat 32 s.ticks) := by
  obtain ⟨t, ht, halarm⟩ := h.alarm
  rw [hnone] at halarm
  rw [alarmOver_eq ht, h.jiffies, halarm]
  rfl

theorem Inv.not_alarmOver (h : s.Inv t₀ seconds i) (hany : s.calls.any (·.2) = true) :
    s.kernel.alarmOver i = false := by
  obtain ⟨t, ht, halarm⟩ := h.alarm
  rw [hany] at halarm
  exact Bool.eq_false_iff.2 fun hover => ((alarmOver_eq ht).1 hover).1 halarm

theorem deadline_eq_zero (h₀ : 0 ≤ t₀.toInt) (hpos : 0 < seconds.toInt)
    (hwrap : (t₀.toInt + 100 * seconds.toInt) % 2 ^ 32 = 0) : t₀ + HZ * seconds = 0 := by
  obtain ⟨ht, ht'⟩ := toNat_spec h₀
  obtain ⟨hs, hs'⟩ := toNat_spec (Int.le_of_lt hpos)
  refine BitVec.eq_of_toNat_eq ?_
  rw [toNat_deadline]
  change _ = 0
  omega

/-- The remaining seconds, if the deadline fits, or there is no alarm. -/
theorem Inv.remaining (h : s.Inv t₀ seconds i) (h₀ : 0 ≤ t₀.toInt) (hpos : 0 < seconds.toInt)
    (hfits : Fits t₀ seconds) (hn : s.ticks ≤ 100 * seconds.toInt) (ht : s.kernel.task i = some t)
    (next : Word) : 0 ≤ (t.sysAlarm s.kernel.jiffies next).1.toInt ∧
      (t.sysAlarm s.kernel.jiffies next).1.toInt ≤ seconds.toInt := by
  have hzero : ∀ w : Word, w = 0 → 0 ≤ w.toInt ∧ w.toInt ≤ seconds.toInt := by
    rintro w rfl
    exact ⟨le_refl (0 : ℤ), Int.le_of_lt hpos⟩
  obtain ⟨u, hu, halarm⟩ := h.alarm
  obtain rfl := Option.some.inj (ht.symm.trans hu)
  rw [Task.sysAlarm]
  dsimp only
  by_cases h0 : t.alarm = 0
  · rw [if_neg (not_not.2 h0)]
    exact hzero _ h0
  · rw [if_pos h0]
    split_ifs at halarm with hany
    · exact absurd halarm h0
    · rw [halarm, h.jiffies]
      rcases hfits with hfits | hwrap
      · exact remaining_bounds h₀ hpos hfits hn
      · exact absurd (deadline_eq_zero h₀ hpos hwrap) (halarm ▸ h0)

/-- The alarm is over exactly after the time, as long as `jiffies` does not overflow. -/
theorem Inv.alarmOver_iff_late (h : s.Inv t₀ seconds i) (h₀ : 0 ≤ t₀.toInt)
    (hpos : 0 < seconds.toInt) (hfits : Fits t₀ seconds) (hnone : s.calls.any (·.2) = false)
    (hlt : t₀.toInt + s.ticks < 2 ^ 31) : s.kernel.alarmOver i = true ↔
      100 * seconds.toInt < s.ticks ∧ t₀.toInt + 100 * seconds.toInt < 2 ^ 31 := by
  rw [h.alarmOver_iff hnone]
  rcases hfits with hfits | hwrap
  · rw [over_iff h₀ hpos hfits hlt]
    exact ⟨fun h => ⟨h, hfits⟩, fun h => h.1⟩
  · have hs : seconds.toInt < 2 ^ 31 := BitVec.toInt_lt
    exact iff_of_false (fun h => h.1 (deadline_eq_zero h₀ hpos hwrap)) fun h => by omega

/-- The alarm is not over early, also if `jiffies` overflows. -/
theorem Inv.late (h : s.Inv t₀ seconds i) (h₀ : 0 ≤ t₀.toInt) (hpos : 0 < seconds.toInt)
    (hfits : Fits t₀ seconds) (hover : s.kernel.alarmOver i = true) :
    100 * seconds.toInt < s.ticks := by
  cases hany : s.calls.any (·.2) with
  | true =>
    rw [h.not_alarmOver hany] at hover
    cases hover
  | false =>
    by_contra hle
    rcases id hfits with hfits' | hwrap
    · exact hle ((h.alarmOver_iff_late h₀ hpos hfits hany (by omega)).1 hover).1
    · exact ((h.alarmOver_iff hany).1 hover).1 (deadline_eq_zero h₀ hpos hwrap)

/-- A call of `schedule` keeps the alarm on time if the deadline fits. -/
theorem OnTime.schedule (hi : i ≠ 0) (h₀ : 0 ≤ t₀.toInt) (hpos : 0 < seconds.toInt)
    (hfits : Fits t₀ seconds) (hinv : s.Inv t₀ seconds i) (hon : s.OnTime t₀ seconds i)
    (hst : Step i s .schedule s') : s'.OnTime t₀ seconds i := by
  have hinv' := hinv.step hi hst
  have hraised : ∀ fuel k next, s.kernel.schedule fuel = some (k, next) →
      s.kernel.raises i k = s.kernel.alarmOver i := fun fuel k next hsched => by
    obtain ⟨t, ht, -⟩ := hinv.alarm
    exact (schedule_alarm hi ht hsched).1
  have hremaining := fun hn t ht => hinv'.remaining h₀ hpos hfits (t := t) hn ht
  obtain ⟨fuel, k, next, hsched, rfl⟩ := hst
  have hraised := hraised fuel k next hsched
  refine ⟨fun n hn => ?_, fun n b hfind hlt => ?_, ?_, hremaining⟩
  · rcases List.mem_append.1 hn with hn | hn
    · exact hon.notEarly n hn
    · obtain ⟨rfl, hr⟩ := Prod.mk.inj (List.mem_singleton.1 hn)
      exact hinv.late h₀ hpos hfits (hraised.symm.trans hr.symm)
  · rw [List.find?_append] at hfind
    rcases Option.or_eq_some_iff.1 hfind with hold | ⟨hnone, hnew⟩
    · exact hon.first n b hold hlt
    · -- this is the first call after the time: SIGALRM has not been raised before
      have hmem := List.mem_singleton.1 (List.mem_of_find?_eq_some hnew)
      have hfound := List.find?_some hnew
      have hlate : 100 * seconds.toInt < n := of_decide_eq_true hfound
      obtain ⟨rfl, rfl⟩ := Prod.mk.inj hmem
      have hany : s.calls.any (·.2) = false := by
        refine List.any_eq_false.2 fun c hc hraise => ?_
        have hlater := List.find?_eq_none.1 hnone c hc
        refine hlater (decide_eq_true (hon.notEarly c.1 ?_))
        rwa [← hraise]
      have hs : seconds.toInt < 2 ^ 31 := BitVec.toInt_lt
      rw [hraised, hinv.alarmOver_iff_late h₀ hpos hfits hany hlt]
      refine ⟨hlate, ?_⟩
      rcases hfits with hfits | hwrap
      · exact hfits
      · omega
  · rw [List.filter_append, List.length_append, hraised]
    cases hany : s.calls.any (·.2) with
    | true =>
      rw [hinv.not_alarmOver hany]
      exact hon.once
    | false =>
      have hnil : s.calls.filter (fun c => c.2) = [] :=
        List.filter_eq_nil_iff.2 fun c hc => List.any_eq_false.1 hany c hc
      rw [hnil, List.length_nil, Nat.zero_add]
      exact List.length_filter_le _ _

theorem onTime_step (hi : i ≠ 0) (h₀ : 0 ≤ t₀.toInt) (hpos : 0 < seconds.toInt)
    (hfits : Fits t₀ seconds) (hinv : s.Inv t₀ seconds i) (hon : s.OnTime t₀ seconds i)
    (hst : Step i s a s') : s'.OnTime t₀ seconds i := by
  cases a with
  | tick current cpl =>
    have hinv' := hinv.step hi hst
    have hremaining := fun hn t ht => hinv'.remaining h₀ hpos hfits (t := t) hn ht
    obtain rfl := hst
    exact ⟨hon.notEarly, hon.first, hon.once, hremaining⟩
  | schedule => exact hon.schedule hi h₀ hpos hfits hinv hst

theorem onTime_start (h₀ : 0 ≤ t₀.toInt) (hpos : 0 < seconds.toInt) (hfits : Fits t₀ seconds)
    (hinv : (start k i seconds).Inv t₀ seconds i) : (start k i seconds).OnTime t₀ seconds i :=
  ⟨fun _ hn => absurd hn List.not_mem_nil, fun _ _ hfind => (nomatch hfind), Nat.zero_le 1,
    fun hn _ ht => hinv.remaining h₀ hpos hfits hn ht⟩

/-! ## Alarms that are not on time -/

/-- Without a call of `schedule`, the clock ticks. -/
theorem exists_ticks (k : Kernel) (i : Slot) (seconds : Word) (n : ℕ) :
    ∃ s, Reachable (· = start k i seconds) (Step i) s ∧ s.ticks = n ∧ s.calls = [] ∧
      ∀ j, j ≠ 0 → s.kernel.task j = (k.setAlarm i seconds).task j := by
  induction n with
  | zero => exact ⟨_, .init rfl, rfl, rfl, fun _ _ => rfl⟩
  | succ n ih =>
    obtain ⟨s, hs, hn, hnil, htask⟩ := ih
    exact ⟨_, .step (a := .tick 0 0) hs rfl, congrArg (· + 1) hn, hnil, fun j hj =>
      (Kernel.task_doTimer hj 0).trans (htask j hj)⟩

/-- A deadline before now is over at once. -/
theorem exists_early (hi : i ≠ 0) (htimed : (k.setAlarm i seconds).Timed) (hk : k.jiffies = t₀)
    (ht : (k.task i).isSome) (hpos : 0 < seconds.toInt) (hne : t₀ + HZ * seconds ≠ 0)
    (hlt : (t₀ + HZ * seconds).toInt < t₀.toInt) :
    ∃ s, Reachable (· = start k i seconds) (Step i) s ∧ ¬s.OnTime t₀ seconds i := by
  have hinv := inv_start (i := i) hk ht hpos
  obtain ⟨k', next, hselect, -⟩ := htimed.signalPass.select_spec
  have hsched : (start k i seconds).kernel.schedule 2 = some (k', next) := hselect 0
  obtain ⟨t, ht, -⟩ := hinv.alarm
  have hraises := (schedule_alarm hi ht hsched).1
  have hover : (start k i seconds).kernel.alarmOver i = true := by
    refine (hinv.alarmOver_iff rfl).2 ⟨hne, ?_⟩
    have hzero : t₀ + BitVec.ofNat 32 0 = t₀ := BitVec.add_zero _
    exact BitVec.slt_iff_toInt_lt.2 (hzero.symm ▸ hlt)
  have hst : Step i (start k i seconds) .schedule ⟨k', 0, [(0, true)]⟩ :=
    ⟨2, k', next, hsched, by rw [hraises, hover]; rfl⟩
  refine ⟨_, .step (.init rfl) hst, fun hon => ?_⟩
  have hearly := hon.notEarly 0 List.mem_cons_self
  omega

/-- If the ticks for the seconds do not fit into 32 bits, a further call of `sys_alarm` finds the
    time that is left negative. -/
theorem exists_negative (hi : i ≠ 0) (hk : k.jiffies = t₀) (ht : (k.task i).isSome)
    (hpos : 0 < seconds.toInt) (hne : t₀ + HZ * seconds ≠ 0)
    (hwrap : 2 ^ 32 ≤ 100 * seconds.toInt) :
    ∃ s, Reachable (· = start k i seconds) (Step i) s ∧ ¬s.OnTime t₀ seconds i := by
  obtain ⟨hs, hs'⟩ := toNat_spec (Int.le_of_lt hpos)
  -- 101 ticks after the 32-bit deadline
  obtain ⟨s, hreach, hn, hnil, -⟩ := exists_ticks k i seconds (100 * seconds.toNat % 2 ^ 32 + 101)
  have hinv : s.Inv t₀ seconds i := by
    refine hreach.invariant (fun s hs => ?_) fun _ _ _ h hst => h.step hi hst
    exact hs ▸ inv_start hk ht hpos
  obtain ⟨t, ht, halarm⟩ := hinv.alarm
  rw [hnil] at halarm
  have halarm : t.alarm = t₀ + HZ * seconds := halarm
  refine ⟨s, hreach, fun hon => ?_⟩
  have hleft := (hon.remaining (by omega) t ht 0).1
  have hsub : t₀ + HZ * seconds - (t₀ + BitVec.ofNat 32 s.ticks) = -101 := by
    refine BitVec.eq_of_toNat_eq ?_
    have hneg : (-101 : Word).toNat = 2 ^ 32 - 101 := rfl
    have hlt := t₀.isLt
    rw [BitVec.toNat_sub, toNat_deadline, toNat_jiffies, hneg, hn]
    omega
  rw [Task.sysAlarm, if_pos (halarm ▸ hne), halarm, hinv.jiffies, hsub] at hleft
  have hneg : ((-101 : Word).sdiv HZ).toInt < 0 := by decide
  exact absurd hleft (not_le.2 hneg)

/-- The kernel after the boot at the time `t₀`, with a running task in slot 1. -/
def oneTaskAt (t₀ : Word) : Kernel := { Kernel.oneTask with jiffies := t₀ }

theorem timed_oneTaskAt (t₀ seconds : Word) : ((oneTaskAt t₀).setAlarm 1 seconds).Timed := by
  intro j t hj ht
  rw [Kernel.setAlarm, Kernel.task_modifyTask] at ht
  have htask : ∀ j, j ≠ 0 → (oneTaskAt t₀).task j =
      if j = 1 then some { initTask 0x3ff000 with pid := 1 } else none := fun j hj => by
    refine (Kernel.task_setTask _).trans ?_
    split_ifs
    · rfl
    · exact if_neg hj
  split_ifs at ht with h1
  · rw [htask 1 (by decide), if_pos rfl] at ht
    rw [← Option.some.inj ht]
    exact (by decide : (1 : ℤ) ≤ (15 : Word).toInt ∧ (0 : ℤ) ≤ (15 : Word).toInt)
  · rw [htask j hj, if_neg h1] at ht
    cases ht

/-- In every state up to the next call of `sys_alarm`, the alarm is on time, exactly if the deadline
    fits into a `long`, or is 0 in 32 bits. -/
theorem alarm_iff (t₀ seconds : Word) (h₀ : 0 ≤ t₀.toInt) (hpos : 0 < seconds.toInt) :
    (∀ (k : Kernel) (i : Slot), k.jiffies = t₀ → i ≠ 0 → (k.task i).isSome →
      ∀ s, Reachable (· = start k i seconds) (Step i) s → s.OnTime t₀ seconds i) ↔
      Fits t₀ seconds := by
  constructor
  · intro hall
    by_contra hfits
    obtain ⟨hlate, hmod⟩ := not_or.1 hfits
    obtain ⟨ht, ht'⟩ := toNat_spec h₀
    obtain ⟨hs, hs'⟩ := toNat_spec (Int.le_of_lt hpos)
    have hne : t₀ + HZ * seconds ≠ 0 := fun h0 => by
      have hnat := congrArg BitVec.toNat h0
      rw [toNat_deadline] at hnat
      have hzero : (0 : Word).toNat = 0 := rfl
      omega
    obtain ⟨s, hreach, hnot⟩ : ∃ s, Reachable (· = start (oneTaskAt t₀) 1 seconds) (Step 1) s ∧
        ¬s.OnTime t₀ seconds 1 := by
      by_cases hwrap : 2 ^ 32 ≤ 100 * seconds.toInt
      · exact exists_negative (by decide) rfl rfl hpos hne hwrap
      · refine exists_early (by decide) (timed_oneTaskAt t₀ seconds) rfl rfl hpos hne ?_
        have hnat := toNat_deadline t₀ seconds
        rw [BitVec.toInt_eq_toNat_cond]
        split_ifs <;> omega
    exact hnot (hall (oneTaskAt t₀) 1 rfl (by decide) rfl s hreach)
  · intro hfits k i hk hi ht s hreach
    have hinv := inv_start (i := i) hk ht hpos
    have hboth : s.Inv t₀ seconds i ∧ s.OnTime t₀ seconds i := by
      refine hreach.invariant (P := fun s => s.Inv t₀ seconds i ∧ s.OnTime t₀ seconds i)
        (fun s hs => ?_) fun _ _ _ h hst =>
          ⟨h.1.step hi hst, onTime_step hi h₀ hpos hfits h.1 h.2 hst⟩
      exact hs ▸ ⟨hinv, onTime_start h₀ hpos hfits hinv⟩
    exact hboth.2

/-- An alarm of one second after the boot raises SIGALRM when 101 ticks are over. -/
theorem alarm_iff_second : ∃ s, Reachable (· = start (oneTaskAt 0) 1 1) (Step 1) s ∧
    s.calls = [(101, true)] ∧ s.OnTime 0 1 1 := by
  obtain ⟨s, hreach, hticks, hcalls, htask⟩ := exists_ticks (oneTaskAt 0) 1 1 101
  have hinv : s.Inv 0 1 1 := hreach.invariant (P := Inv 0 1 1)
    (fun s hs => hs ▸ inv_start rfl rfl (by decide)) fun _ _ _ h hst => h.step (by decide) hst
  have htimed : s.kernel.Timed := fun j t hj ht =>
    timed_oneTaskAt 0 1 j t hj ((htask j hj).symm.trans ht)
  obtain ⟨k', next, hselect, -⟩ := htimed.signalPass.select_spec
  have hover : s.kernel.alarmOver 1 = true := by
    refine (hinv.alarmOver_iff (by rw [hcalls]; rfl)).2 ⟨by decide, ?_⟩
    rw [hticks]
    decide
  obtain ⟨t, ht, -⟩ := hinv.alarm
  have hraises : s.kernel.raises 1 k' = true :=
    (schedule_alarm (by decide) ht (hselect 0)).1.trans hover
  have hreach' : Reachable (· = start (oneTaskAt 0) 1 1) (Step 1)
      ⟨k', s.ticks, s.calls ++ [(s.ticks, s.kernel.raises 1 k')]⟩ :=
    .step (a := .schedule) hreach ⟨2, k', next, hselect 0, rfl⟩
  refine ⟨_, hreach', ?_, (alarm_iff 0 1 (by decide) (by decide)).2 (.inl (by decide)) (oneTaskAt 0)
    1 rfl (by decide) rfl _ hreach'⟩
  rw [hcalls, hticks, hraises]
  rfl

/-- With 21474837 seconds, the deadline is negative, and the alarm is over at once. -/
theorem alarm_early : ∃ s, Reachable (· = start (oneTaskAt 0) 1 21474837) (Step 1) s ∧
    ¬s.OnTime 0 21474837 1 :=
  exists_early (by decide) (timed_oneTaskAt 0 _) rfl rfl (by decide) (by decide) (by decide)

end Watch

end NeuOs
