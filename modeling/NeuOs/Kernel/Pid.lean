import Mathlib.Data.Fintype.Pigeonhole
import NeuOs.Kernel.Preserve

/-!
# Process identifiers

In every reachable state, different tasks have different pids, which are positive
but for the pid 0 of the task 0 (`PidInv`). The search of `find_empty_process`
therefore meets an unused pid in one of its first 65 rounds: the pids it tries are
different, and there are at most 64 tasks (`exists_unused`).
-/

namespace NeuOs

variable {p : Word} {inUse : Word → Bool} {n : Nat}

/-! ## The search -/

theorem toNat_nextPid (hp : p.toNat < 2 ^ 31) :
    (nextPid p).toNat = if p.toNat + 1 = 2 ^ 31 then 1 else p.toNat + 1 := by
  have hadd : (p + 1).toNat = p.toNat + 1 := by
    rw [BitVec.toNat_add, show (1 : Word).toNat = 1 from rfl]
    omega
  have hslt : (p + 1).slt 0 = true ↔ p.toNat + 1 = 2 ^ 31 := by
    rw [BitVec.slt_iff_toInt_lt, BitVec.toInt_eq_toNat_cond, hadd,
      show (0 : Word).toInt = 0 from rfl]
    split_ifs with h
    · constructor <;> omega
    · constructor <;> omega
  rw [nextPid]
  by_cases h : p.toNat + 1 = 2 ^ 31
  · rw [if_pos (hslt.2 h), if_pos h]
    rfl
  · rw [if_neg fun hc => h (hslt.1 hc), if_neg h, hadd]

/-- The pids that the search tries: after 2^31 - 1 comes 1. -/
theorem toNat_iterate_nextPid (hp : p.toNat < 2 ^ 31) (hn : n < 2 ^ 31) :
    (nextPid^[n] p).toNat =
      if p.toNat + n < 2 ^ 31 then p.toNat + n else p.toNat + n - (2 ^ 31 - 1) := by
  induction n with
  | zero => rw [Function.iterate_zero_apply, if_pos (by omega), Nat.add_zero]
  | succ n ih =>
    have ih := ih (by omega)
    have hlt : (nextPid^[n] p).toNat < 2 ^ 31 := by
      rw [ih]
      split_ifs <;> omega
    rw [Function.iterate_succ_apply', toNat_nextPid hlt, ih]
    split_ifs <;> omega

/-- If the search meets an unused pid, before it is back at its start, it ends
    with an unused pid. -/
theorem searchPid_unused (tmp : Word) (fuel : Nat) (hn : ¬inUse (nextPid^[n] p)) (hfuel : n < fuel)
    (hne : ∀ m < n, nextPid^[m] p + 1 ≠ tmp) :
    ∃ m ≤ n, searchPid inUse tmp fuel p = some (.unused (nextPid^[m] p)) ∧
      ¬inUse (nextPid^[m] p) := by
  induction n generalizing p fuel with
  | zero =>
    obtain ⟨fuel, rfl⟩ : ∃ f, fuel = f + 1 := ⟨fuel - 1, by omega⟩
    have hp : ¬inUse p := hn
    refine ⟨0, le_rfl, ?_, hn⟩
    rw [searchPid, if_pos hp]
    rfl
  | succ n ih =>
    obtain ⟨fuel, rfl⟩ : ∃ f, fuel = f + 1 := ⟨fuel - 1, by omega⟩
    rw [searchPid]
    by_cases hp : inUse p
    · have hstart : p + 1 ≠ tmp := hne 0 (by omega)
      rw [if_neg (not_not.2 hp), if_neg hstart]
      obtain ⟨m, hm, hsearch, hfree⟩ :=
        ih (p := nextPid p) fuel (by rwa [← Function.iterate_succ_apply])
        (by omega) fun m hm => by
          rw [← Function.iterate_succ_apply]
          exact hne (m + 1) (by omega)
      exact ⟨m + 1, by omega, hsearch, hfree⟩
    · exact ⟨0, by omega, by rw [if_pos hp]; rfl, hp⟩

namespace Kernel

variable {lo hi : Nat} {k k' : Kernel} {i j : Slot} {t u : Task}

/-! ## The invariant of the pids -/

/-- What holds of the pids of a reachable state. -/
structure PidInv (k : Kernel) : Prop where
  unique : ∀ i j t u, k.task i = some t → k.task j = some u → t.pid = u.pid → i = j
  zero : ∃ t, k.task 0 = some t ∧ t.pid = 0
  range : ∀ i t, i ≠ 0 → k.task i = some t → 0 < t.pid.toNat ∧ t.pid.toNat < 2 ^ 31
  last : k.lastPid.toNat < 2 ^ 31

theorem pidInUse_iff {pid : Word} : k.pidInUse pid ↔ ∃ i t, k.task i = some t ∧ t.pid = pid := by
  rw [pidInUse]
  rcases k.findTask_cases fun t => t.pid = pid with ⟨hfind, hall⟩ | ⟨i, t, hfind, ht, hp⟩
  · rw [hfind]
    refine ⟨nofun, fun ⟨i, t, ht, hp⟩ => absurd ?_ (hall i t ht)⟩
    exact decide_eq_true hp
  · rw [hfind]
    exact ⟨fun _ => ⟨i, t, ht, of_decide_eq_true hp⟩, fun _ => rfl⟩

namespace PidInv

/-- One of the first 65 pids that the search tries is unused. -/
theorem exists_unused (h : k.PidInv) : ∃ n ≤ 64, ¬k.pidInUse (nextPid^[n] k.lastPid) := by
  by_contra hall
  push Not at hall
  have htask : ∀ n : Fin 65, ∃ i t, k.task i = some t ∧ t.pid = nextPid^[n] k.lastPid := fun n =>
    pidInUse_iff.1 (hall n (by omega))
  choose slot task htask hpid using htask
  obtain ⟨m, n, hne, heq⟩ := Fintype.exists_ne_map_eq_of_card_lt slot (by simp)
  have hsame : task m = task n := Option.some.inj ((htask m).symm.trans (heq ▸ htask n))
  have hpids : (nextPid^[m.1] k.lastPid).toNat = (nextPid^[n.1] k.lastPid).toNat := by
    rw [← hpid, ← hpid, hsame]
  rw [toNat_iterate_nextPid h.last (by omega), toNat_iterate_nextPid h.last (by omega)] at hpids
  have hlast := h.last
  refine hne (Fin.ext ?_)
  split_ifs at hpids <;> omega

/-- The search ends with a pid that no task has. -/
theorem pidSearch (h : k.PidInv) :
    ∃ pid, k.pidSearch = some (.unused pid) ∧ ¬k.pidInUse pid ∧ pid.toNat < 2 ^ 31 := by
  obtain ⟨n, hn, hfree⟩ := h.exists_unused
  have hlast := h.last
  obtain ⟨m, hm, hsearch, hfree⟩ := searchPid_unused k.lastPid (2 ^ 32) hfree
    (by omega) fun m hm heq => by
      -- The search is not back at its start before 2^31 - 1 rounds.
      have hnat := congrArg BitVec.toNat heq
      rw [BitVec.toNat_add, show (1 : Word).toNat = 1 from rfl,
        toNat_iterate_nextPid h.last (by omega)] at hnat
      split_ifs at hnat <;> omega
  refine ⟨_, hsearch, hfree, ?_⟩
  rw [toNat_iterate_nextPid h.last (by omega)]
  split_ifs <;> omega

/-- `find_empty_process` returns, and leaves an unused pid in `last_pid`. -/
theorem findEmptyProcess (h : k.PidInv) :
    ∃ pid, k.pidSearch = some (.unused pid) ∧ ¬k.pidInUse pid ∧ pid.toNat < 2 ^ 31 ∧
      k.findEmptyProcess = some (k.emptySlot, { k with lastPid := pid }) := by
  obtain ⟨pid, hsearch, hfree, hlt⟩ := h.pidSearch
  refine ⟨pid, hsearch, hfree, hlt, ?_⟩
  rw [Kernel.findEmptyProcess, hsearch]
  rfl

/-- The tasks that are left keep their pids. -/
theorem of_keepsTasks (h : k.PidInv) (hk : KeepsTasks (fun t => t.pid) k k') : k'.PidInv := by
  refine ⟨fun i j t u ht hu hpid => ?_, ?_, fun i t hi ht => ?_, hk.lastPid ▸ h.last⟩
  · obtain ⟨t', ht', hp⟩ := hk.task_some ht
    obtain ⟨u', hu', hq⟩ := hk.task_some hu
    exact h.unique i j t' u' ht' hu' (hp.trans (hpid.trans hq.symm))
  · obtain ⟨t, ht, hp⟩ := h.zero
    have h0 := (hk.task 0).resolve_right fun hc => hc.1 rfl
    rw [ht, Option.map_some] at h0
    obtain ⟨t', ht', hp'⟩ := Option.map_eq_some_iff.1 h0
    exact ⟨t', ht', hp'.trans hp⟩
  · obtain ⟨t', ht', hp⟩ := hk.task_some ht
    exact hp ▸ h.range i t' hi ht'

/-- Replacing a task by one with the same pid, and the memory. -/
theorem replaceTask (h : k.PidInv) {m : Mm} (ht : k.task i = some t) (hp : u.pid = t.pid) :
    PidInv ({ k with mm := m }.setTask i (some u)) :=
  h.of_keepsTasks (SameTasks.setTask (k := { k with mm := m }) ht hp).keepsTasks

/-- The pid found is positive: 0 is the pid of the task 0. -/
theorem pos_of_unused (h : k.PidInv) {pid : Word} (hfree : ¬k.pidInUse pid) : 0 < pid.toNat := by
  refine Nat.pos_of_ne_zero fun h0 => hfree (pidInUse_iff.2 ?_)
  obtain ⟨t, ht, hp⟩ := h.zero
  exact ⟨0, t, ht, hp.trans (BitVec.eq_of_toNat_eq h0.symm)⟩

/-- A new task, with an unused pid. -/
theorem addTask (h : k.PidInv) (hj : j ≠ 0) (hfree : ¬k.pidInUse t.pid)
    (hlt : t.pid.toNat < 2 ^ 31) (hlast : k'.lastPid.toNat < 2 ^ 31)
    (htask : ∀ i, k'.task i = if i = j then some t else k.task i) : k'.PidInv := by
  have hcases : ∀ i u, k'.task i = some u → i = j ∧ u = t ∨ k.task i = some u := by
    intro i u hu
    rw [htask] at hu
    split_ifs at hu with hij
    · exact .inl ⟨hij, (Option.some.inj hu).symm⟩
    · exact .inr hu
  refine ⟨fun i i' u u' hu hu' hpid => ?_, ?_, fun i u hi hu => ?_, hlast⟩
  · rcases hcases i u hu with ⟨rfl, rfl⟩ | hu₁ <;> rcases hcases i' u' hu' with ⟨rfl, rfl⟩ | hu₂
    · rfl
    · exact absurd (pidInUse_iff.2 ⟨i', u', hu₂, hpid.symm⟩) hfree
    · exact absurd (pidInUse_iff.2 ⟨i, u, hu₁, hpid⟩) hfree
    · exact h.unique i i' u u' hu₁ hu₂ hpid
  · obtain ⟨u, hu, hp⟩ := h.zero
    exact ⟨u, by rw [htask, if_neg hj.symm, hu], hp⟩
  · rcases hcases i u hu with ⟨rfl, rfl⟩ | hu
    · exact ⟨h.pos_of_unused hfree, hlt⟩
    · exact h.range i u hi hu

/-- `sys_fork` takes an unused pid and an empty slot. -/
theorem sysFork (h : k.PidInv) (r : Regs) :
    ∃ pid, ¬k.pidInUse pid ∧ pid.toNat < 2 ^ 31 ∧ k.sysFork t r =
      some (match k.emptySlot with
        | none => .ok (-1, { k with lastPid := pid })
        | some nr => ({ k with lastPid := pid } : Kernel).copyProcess t nr r) := by
  obtain ⟨pid, -, hfree, hlt, hfind⟩ := h.findEmptyProcess
  refine ⟨pid, hfree, hlt, ?_⟩
  rw [Kernel.sysFork, hfind]
  cases k.emptySlot <;> rfl

theorem fork (h : k.PidInv) (hk : k.Inv lo hi) (ht : k.task i = some t) {r : Regs} {w : Word}
    (hx : k.sysFork t r = some (.ok (w, k'))) : k'.PidInv := by
  obtain ⟨pid, hfree, hlt, hfork⟩ := h.sysFork (t := t) r
  have heq := Option.some.inj (hx.symm.trans hfork)
  have hkeep : PidInv { k with lastPid := pid } := ⟨h.unique, h.zero, h.range, hlt⟩
  cases hslot : k.emptySlot with
  | none =>
    rw [hslot] at heq
    exact (Prod.mk.inj (Except.ok.inj heq)).2 ▸ hkeep
  | some nr =>
    obtain ⟨hnr, hnone⟩ := emptySlot_some hslot
    rw [hslot] at heq
    have hk' : Inv lo hi { k with lastPid := pid } := hk.counters _ _
    rcases hk'.copyProcess_cases ht hnr hnone r with
      ⟨herr, -⟩ | ⟨m, hok, -⟩ | ⟨m, m₁, f, hok, -⟩
    · cases heq.trans herr
    · exact (Prod.mk.inj (Except.ok.inj (heq.trans hok))).2 ▸ ⟨h.unique, h.zero, h.range, hlt⟩
    · exact (Prod.mk.inj (Except.ok.inj (heq.trans hok))).2 ▸
        h.addTask hnr hfree hlt hlt fun i => task_setTask _

end PidInv

/-- A step keeps the invariant of the pids. -/
theorem PidInv.step (h : k.PidInv) (hk : k.Inv lo hi) {a : Action} (hst : Step k a k') :
    k'.PidInv := by
  by_cases ha : a.Plain
  · exact h.of_keepsTasks (hk.step_tasks (fun _ _ => rfl) (fun _ _ => rfl) (fun _ _ => rfl) hst ha)
  · cases a with
    | fork i r =>
      obtain ⟨t, w, ht, -, hy⟩ := hst.fork
      exact h.fork hk ht hy
    | ssetmask i newmask =>
      obtain ⟨t, ht, -, rfl⟩ := hst.ssetmask
      exact h.of_keepsTasks ((sameTasks_sysSsetmask ht (fun _ _ => rfl) _).keepsTasks (m := k.mm))
    | signal i signum handler restorer =>
      obtain ⟨t, ht, -, rfl⟩ := hst.signal
      exact h.of_keepsTasks ((sameTasks_sysSignal ht (fun _ _ => rfl) _ _ _).keepsTasks (m := k.mm))
    | sigaction i signum action oldAction =>
      obtain ⟨t, w, ht, -, -, hok⟩ := hst.sigaction
      rcases sysSigaction_cases hok with rfl | ⟨-, m, sa, rfl⟩
      · exact h
      · exact h.replaceTask ht rfl
    | deliver i r =>
      obtain ⟨t, w, ht, -, hok⟩ := hst.deliver
      rcases deliver_cases hok with ⟨-, -, rfl⟩ | ⟨signr, -, ⟨-, -, rfl⟩ | ⟨-, -, m, rfl⟩⟩
      · exact h
      · exact h.replaceTask (m := k.mm) ht rfl
      · exact h.replaceTask ht rfl
    | _ => exact absurd trivial ha

/-- At boot there is only the task 0. -/
theorem Booted.pidInv (h : Booted lo hi k) : k.PidInv := by
  obtain ⟨m, page, -, rfl⟩ := h
  have htask : ∀ j t, (boot m (4096 * lo) (4096 * hi) page).task j = some t → j = 0 := by
    intro j t ht
    by_contra hj
    rw [show (boot m (4096 * lo) (4096 * hi) page).task j = none from if_neg hj] at ht
    cases ht
  refine ⟨fun i j t u ht hu _ => (htask i t ht).trans (htask j u hu).symm, ⟨_, rfl, rfl⟩,
    fun i t hi ht => absurd (htask i t ht) hi, ?_⟩
  exact show (0 : Word).toNat < 2 ^ 31 by decide

theorem Reachable.pidInv (hlo : 256 ≤ lo) (hle : lo ≤ hi) (hhi : hi ≤ 4096)
    (h : Reachable lo hi k) : k.PidInv := by
  have hboth : k.Inv lo hi ∧ k.PidInv :=
    h.invariant (P := fun k => k.Inv lo hi ∧ k.PidInv)
      (fun _ hb => ⟨hb.inv hlo hle hhi, hb.pidInv⟩) fun _ _ _ hk hst =>
      ⟨hk.1.step hst, hk.2.step hk.1 hst⟩
  exact hboth.2

/-! ## The first forks -/

/-- The task 0 forks into an empty slot without page tables. -/
theorem exists_fork_zero (h : k.Inv lo hi) (hp : k.PidInv) {u : Task} (hu : k.task 0 = some u)
    (hstate : u.state ≠ .zombie) (hslot : k.emptySlot = some nr)
    (habs : ∀ d : Nat, d < 1024 → d / 16 = nr.1 → ¬Present (k.mm.pde d))
    (hfree : 2 < k.mm.freeFrames)
    (r : Regs) :
    ∃ k' t, Step k (.fork 0 r) k' ∧ t.state = .running ∧
      (t.sigaction = u.sigaction ∧ t.blocked = u.blocked ∧ t.signal = 0 ∧
        t.priority = u.priority ∧ t.father = u.pid) ∧
      (∀ j, k'.task j = if j = nr then some t else k.task j) ∧
      (∀ d : Nat, d < 1024 → d / 16 ≠ nr.1 → k'.mm.pde d = k.mm.pde d) ∧
      k.mm.freeFrames ≤ k'.mm.freeFrames + 2 ∧
      ∀ n < 1024, k'.mm.walk (16 * nr) n =
        if n < 0xA0 then some (readOnly (entryOf (4096 * n))) else none := by
  obtain ⟨hnr, hnone⟩ := emptySlot_some hslot
  obtain ⟨pid, -, -, hfork⟩ := hp.sysFork (t := u) r
  rw [hslot] at hfork
  have h' : Inv lo hi { k with lastPid := pid } := h.counters _ _
  rcases h'.copyProcess_cases hu hnr hnone r with
    ⟨-, d, hd, hlt, hp⟩ | ⟨m, -, -, -, hfew⟩ | ⟨m, m₁, f, hok, -, -, hcount, hpde, hcopied⟩
  · exact absurd hp (habs d hlt hd)
  · exact absurd hfew (not_le.2 hfree)
  · refine ⟨{ k with mm := m, lastPid := pid }.setTask nr
      (some (spawned { k with lastPid := pid } u nr f r)),
      spawned { k with lastPid := pid } u nr f r,
      ⟨⟨fun i hi => ?_, trivial⟩, ?_⟩, rfl, ⟨rfl, rfl, rfl, rfl, rfl⟩, fun j => task_setTask _,
      fun d hd hne => ?_, ?_, hcopied.kernel rfl⟩
    · obtain rfl := Option.some.inj hi
      exact ⟨u, hu, hstate⟩
    · simp only [Kernel.exec, hu, Option.bind_some, hfork, hok, Option.map_some]
      rfl
    · exact (hcopied.pde d hd hne).trans (hpde d hd)
    · have hcount' : k.mm.freeFrames = m₁.freeFrames + 1 := hcount
      have hle := hcopied.free
      change k.mm.freeFrames ≤ m.freeFrames + 2
      omega

/-- The first fork after boot, into slot 1. -/
theorem exists_child (r : Regs) :
    ∃ k t, Step mainKernel (.fork 0 r) k ∧
      (t.state = .running ∧ t.priority = (initTask 0x8000).priority ∧ t.father = 0 ∧
        t.blocked = 0 ∧ t.signal = 0) ∧
      (∀ j, k.task j = if j = 1 then some t else mainKernel.task j) ∧
      (∀ d : Nat, Mm.UserDir d → d / 16 ≠ 1 → ¬Present (k.mm.pde d)) ∧ 510 ≤ k.mm.freeFrames ∧
      ∀ n < 1024, k.mm.walk 16 n =
        if n < 0xA0 then some (readOnly (entryOf (4096 * n))) else none := by
  have habs : ∀ d, Mm.UserDir d → ¬Present (mainKernel.mm.pde d) := fun d hd => by
    rw [mm_mainKernel]
    exact Mm.not_present_mainMem hd
  have hcount : mainKernel.mm.freeFrames = 512 := by
    rw [mm_mainKernel]
    exact Mm.freeFrames_mainMem
  have hslot : mainKernel.emptySlot = some 1 := rfl
  obtain ⟨k, t, hst, hrun, ⟨-, hblocked, hsignal, hpriority, hfather⟩, htask, hpde, hfree, hwalk⟩ :=
    exists_fork_zero (reachable_mainKernel.inv (by omega) (by omega) (by omega))
      (reachable_mainKernel.pidInv (by omega) (by omega) (by omega)) rfl (by decide) hslot
      (fun d hd hdir => habs d ⟨by omega, hd⟩) (by omega) r
  refine ⟨k, t, hst, ⟨hrun, hpriority, hfather, hblocked, hsignal⟩, htask,
    fun d hd hne => ?_, by omega, hwalk⟩
  rw [hpde d hd.2 hne]
  exact habs d hd

/-- The second fork of the task 0, into slot 2: both children have the first 640 KB of
    memory, and frame 0, the page directory, as their first page. -/
theorem exists_children (r : Regs) :
    ∃ k t, Reachable 256 768 k ∧ k.task 1 = some t ∧ t.state = .running ∧ k.task 2 ≠ none ∧
      Present (k.mm.pde 16) ∧ ∀ n < 0xA0,
        k.mm.walk 16 n = some (readOnly (entryOf (4096 * n))) ∧
        k.mm.walk 32 n = some (readOnly (entryOf (4096 * n))) := by
  obtain ⟨k₁, t, hfork, ⟨hrun, -⟩, htask, habs, hcount, hwalk⟩ := exists_child r
  have hreach : Reachable 256 768 k₁ := .step reachable_mainKernel hfork
  have hslot : k₁.emptySlot = some 2 := by
    -- slot 1 has the first child
    have hempty : (fun i => (k₁.task i).isNone) = fun i => decide (i ≠ 0 ∧ i ≠ 1) := by
      funext i
      rw [htask]
      by_cases h1 : i = 1
      · simp [h1]
      · by_cases h0 : i = 0
        · rw [if_neg h1, h0]
          rfl
        · rw [if_neg h1, show mainKernel.task i = none from if_neg h0]
          simp [h0, h1]
    rw [emptySlot, hempty]
    rfl
  have hzero : k₁.task 0 = some (initTask 0x8000) := by
    rw [htask, if_neg (by decide)]
    rfl
  obtain ⟨k₂, t₂, hst, -, -, htask₂, hpde₂, -, hwalk₂⟩ :=
    exists_fork_zero (hreach.inv (by omega) (by omega) (by omega))
      (hreach.pidInv (by omega) (by omega) (by omega)) hzero (by decide) hslot
      (fun d hd hdir => by
        have hdir : d / 16 = 2 := hdir
        exact habs d ⟨by omega, hd⟩ (by omega)) (by omega) r
  refine ⟨k₂, t, .step hreach hst, ?_, hrun, ?_, ?_, ?_⟩
  · rw [htask₂, if_neg (by decide), htask, if_pos rfl]
  · rw [htask₂, if_pos rfl]
    nofun
  · rw [hpde₂ 16 (by omega) (by decide)]
    have h16 := hwalk 0 (by omega)
    rw [if_pos (by omega)] at h16
    exact (Mm.walk_eq_some.1 h16).1
  · intro n hn
    have h16 := hwalk n (by omega)
    have h32 := hwalk₂ n (by omega)
    rw [if_pos hn] at h16 h32
    refine ⟨?_, h32⟩
    -- The second fork leaves the pages of the first child.
    have hsame := ((hreach.inv (by omega) (by omega) (by omega)).exec hst.1 rfl hst.2).2
    rw [(hsame 16 n ⟨⟨by omega, by omega⟩, by omega⟩ fun l hl => ?_).1, h16]
    obtain rfl : l = 1 := Fin.ext hl.symm
    exact ⟨by decide, by simp [htask]⟩

/-! ## The pids -/

/-- Pids are unique, only the task 0 has the pid 0, and the others have positive
    ones; and the search for a pid ends with an unused one, so that
    `find_empty_process` returns an empty slot, or none if all are occupied. -/
theorem pids_unique (hlo : 256 ≤ lo) (hle : lo ≤ hi) (hhi : hi ≤ 4096) (h : Reachable lo hi k) :
    (∀ i j t u, k.task i = some t → k.task j = some u → t.pid = u.pid → i = j) ∧
    (∃ t, k.task 0 = some t ∧ t.pid = 0) ∧
    (∀ i t, i ≠ 0 → k.task i = some t → 0 < t.pid.toNat ∧ t.pid.toNat < 2 ^ 31) ∧
    ∃ pid slot, k.pidSearch = some (.unused pid) ∧ (∀ i t, k.task i = some t → t.pid ≠ pid) ∧
      k.findEmptyProcess = some (slot, { k with lastPid := pid }) ∧
      (∀ nr, slot = some nr → nr ≠ 0 ∧ k.task nr = none) ∧
      (slot = none ↔ ∀ j, k.task j ≠ none) := by
  have hinv := h.pidInv hlo hle hhi
  obtain ⟨pid, hsearch, hfree, -, hfind⟩ := hinv.findEmptyProcess
  refine ⟨hinv.unique, hinv.zero, hinv.range, pid, k.emptySlot, hsearch, fun i t ht hp => ?_, hfind,
    fun nr hnr => emptySlot_some hnr, fun hnone j hj => ?_, fun hall => ?_⟩
  · exact hfree (pidInUse_iff.2 ⟨i, t, ht, hp⟩)
  · by_cases hj0 : j = 0
    · obtain ⟨t, ht, -⟩ := hinv.zero
      rw [hj0, ht] at hj
      cases hj
    · exact emptySlot_ne_none hj0 hj hnone
  · cases hslot : k.emptySlot with
    | none => rfl
    | some nr => exact absurd (emptySlot_some hslot).2 (hall nr)

/-- The first two children have different pids, and the search for the next one ends. -/
theorem pids_unique_children :
    ∃ k t u, Reachable 256 768 k ∧ k.task 1 = some t ∧ k.task 2 = some u ∧ t.pid ≠ u.pid ∧
      ∃ pid slot, k.pidSearch = some (.unused pid) ∧ t.pid ≠ pid ∧ u.pid ≠ pid ∧
        k.findEmptyProcess = some (slot, { k with lastPid := pid }) := by
  obtain ⟨k, t, hreach, ht, -, hocc, -⟩ := exists_children default
  obtain ⟨u, hu⟩ := Option.ne_none_iff_exists'.1 hocc
  obtain ⟨hunique, -, -, pid, slot, hsearch, hnew, hfind, -⟩ :=
    pids_unique (by norm_num) (by norm_num) (by norm_num) hreach
  exact ⟨k, t, u, hreach, ht, hu, fun hp => absurd (hunique 1 2 t u ht hu hp) (by decide),
    pid, slot, hsearch, hnew 1 t ht, hnew 2 u hu, hfind⟩

end Kernel

end NeuOs
