import NeuOs.Kernel.Exit
import NeuOs.Kernel.Fork
import NeuOs.Kernel.User

/-!
# Signals (`kernel/signal.c`, `ret_from_syscall` in kernel/system_call.s)

`ret_from_syscall` takes the lowest pending signal that is not blocked, and
`do_signal` lets the process run its handler for the signal: it changes the
registers that the process returns to, and puts the old ones, the signal and the
address of the restorer on the stack of the process. The changes of the task and
of the registers are in `doSignal`, with the words put on the stack, which
`deliver` then stores.
-/

namespace NeuOs

/-- `SA_NOMASK`: the mask of the signals stays as it is while the handler runs. -/
def SA_NOMASK : Word := 0x40000000

/-- `SA_ONESHOT`: the handler runs once. -/
def SA_ONESHOT : Word := 0x80000000

/-- The selector of the code segment of a process. -/
def userCs : Word := 0x0f

/-- The selector of its data and stack segment. -/
def userDs : Word := 0x17

/-- The 16 bytes of a `struct sigaction`. -/
def Sigaction.bytes (sa : Sigaction) : List Byte :=
  bytesOf sa.saHandler ++ bytesOf sa.saMask ++ bytesOf sa.saFlags ++ bytesOf sa.saRestorer

/-- The `struct sigaction` that 16 bytes are. -/
def Sigaction.ofBytes (bs : List Byte) : Sigaction where
  saHandler := wordOf (bs.take 4)
  saMask := wordOf ((bs.drop 4).take 4)
  saFlags := wordOf ((bs.drop 8).take 4)
  saRestorer := wordOf ((bs.drop 12).take 4)

namespace Task

/-- The action of the signal `signr`. -/
def action (t : Task) (signr : Nat) : Sigaction := t.sigaction (signr - 1)

/-- Setting the action of the signal `signr`. -/
def setAction (t : Task) (signr : Nat) (sa : Sigaction) : Task :=
  { t with sigaction := Function.update t.sigaction (signr - 1) sa }

/-- The words that `do_signal` puts on the stack of the process. -/
def signalFrame (t : Task) (signr : Nat) (r : Regs) : List Word :=
  let sa := t.action signr
  [sa.saRestorer, BitVec.ofNat 32 signr] ++
    (if sa.saFlags &&& SA_NOMASK = 0 then [t.blocked] else []) ++
    [r.eax, r.ecx, r.edx, r.eflags, r.eip]

/-- The actions of a task once the signal `signr` has been delivered: a handler
    that runs once is gone. -/
def usedActions (t : Task) (signr : Nat) : Nat → Sigaction :=
  if (t.action signr).saFlags &&& SA_ONESHOT ≠ 0 then
    Function.update t.sigaction (signr - 1) { t.action signr with saHandler := 0 }
  else t.sigaction

/-- `do_signal`: the task and the registers after it, and the words for the stack
    of the process, or none if the signal has no handler. -/
def doSignal (t : Task) (signr : Nat) (r : Regs) : Option (Task × Regs × List Word) :=
  let sa := t.action signr
  -- `SIG_IGN` and `SIG_DFL`
  if sa.saHandler = 1 then none
  else if sa.saHandler = 0 then none
  else
    let longs := t.signalFrame signr r
    some ({ t with sigaction := t.usedActions signr, blocked := t.blocked ||| sa.saMask },
      { r with eip := sa.saHandler, esp := r.esp - BitVec.ofNat 32 (4 * longs.length) }, longs)

/-- The task without the pending signal `signr`. -/
def take (t : Task) (signr : Nat) : Task := { t with signal := t.signal &&& ~~~sigBit signr }

/-- The signals of a task that are pending and not blocked. -/
def deliverable (t : Task) : Word := t.signal &&& ~~~t.blocked

end Task

/-- `bsf`: the lowest bit that is set. -/
def bsf (w : Word) : Option Nat := (List.range 32).find? fun i => w.getLsbD i

namespace Kernel

/-- The signal that `ret_from_syscall` takes from the task in the slot `i`, if any.
    The task in slot 0 gets none, nor does a return to the kernel. -/
def nextSignal (i : Slot) (t : Task) (r : Regs) : Option Nat :=
  if i = 0 then none
  else if r.cs &&& 0xffff ≠ userCs then none
  else if r.ss &&& 0xffff ≠ userDs then none
  else (bsf t.deliverable).map (· + 1)

/-- The part of `ret_from_syscall` that delivers a signal to the task `t` in the
    slot `i`, with the registers it returns to. -/
def deliver (k : Kernel) (i : Slot) (t : Task) (r : Regs) : Except Panic (Regs × Kernel) :=
  match nextSignal i t r with
  | none => .ok (r, k)
  | some signr =>
    -- `btrl` clears the signal in all cases.
    let t := t.take signr
    match t.doSignal signr r with
    | none => .ok (r, k.setTask i (some t))
    | some (t', r', longs) => do
      let m ← k.mm.verifyArea t.data.base r'.esp.toNat (4 * longs.length)
      let m ← Mm.putFsLongs t.data longs r'.esp m
      .ok (r', { k with mm := m }.setTask i (some t'))

/-- `sys_ssetmask`. -/
def sysSsetmask (k : Kernel) (i : Slot) (t : Task) (newmask : Word) : Word × Kernel :=
  (t.blocked, k.setTask i (some { t with blocked := newmask &&& ~~~sigBit SIGKILL }))

/-- Whether `sys_signal` and `sys_sigaction` refuse the signal. -/
def refused (signum : Int) : Prop := signum < 1 ∨ 32 < signum ∨ signum = SIGKILL

instance (signum : Int) : Decidable (refused signum) := inferInstanceAs (Decidable (_ ∨ _))

/-- `sys_signal`. -/
def sysSignal (k : Kernel) (i : Slot) (t : Task) (signum : Int) (handler restorer : Word) :
    Word × Kernel :=
  if refused signum then (-1, k)
  else
    let tmp : Sigaction :=
      { saHandler := handler, saMask := 0, saFlags := SA_ONESHOT ||| SA_NOMASK,
        saRestorer := restorer }
    ((t.action signum.toNat).saHandler, k.setTask i (some (t.setAction signum.toNat tmp)))

/-- `get_new`: the action that user memory holds at `addr`. -/
def getNew (m : Mm) (s : Segment) (addr : Word) : Except Panic (Sigaction × Mm) := do
  let (bs, m) ← Mm.getFsBytes s 16 addr m
  .ok (Sigaction.ofBytes bs, m)

/-- `save_old`. -/
def saveOld (m : Mm) (s : Segment) (old : Sigaction) (addr : Word) : Except Panic Mm := do
  let m ← m.verifyArea s.base addr.toNat 16
  Mm.putFsBytes s old.bytes addr m

/-- The mask of an action that `sys_sigaction` sets. -/
def maskAction (signum : Nat) (sa : Sigaction) : Sigaction :=
  if sa.saFlags &&& SA_NOMASK ≠ 0 then { sa with saMask := 0 }
  else { sa with saMask := sa.saMask ||| sigBit signum }

/-- `sys_sigaction`. -/
def sysSigaction (k : Kernel) (i : Slot) (t : Task) (signum : Int) (action oldAction : Word) :
    Except Panic (Word × Kernel) :=
  if refused signum then .ok (-1, k)
  else do
    let tmp := t.action signum.toNat
    let (new, m) ← getNew k.mm t.data action
    let m ← if oldAction ≠ 0 then saveOld m t.data tmp oldAction else .ok m
    .ok (0, { k with mm := m }.setTask i
      (some (t.setAction signum.toNat (maskAction signum.toNat new))))

end Kernel

variable {t t' : Task} {signr : Nat} {r r' : Regs} {longs : List Word}

@[simp] theorem length_bytesOf (w : Word) : (bytesOf w).length = 4 := rfl

theorem Sigaction.length_bytes (sa : Sigaction) : sa.bytes.length = 16 := rfl

theorem length_flatMap_bytesOf (longs : List Word) :
    (longs.flatMap bytesOf).length = 4 * longs.length := by
  induction longs with
  | nil => rfl
  | cons w ws ih =>
    rw [List.flatMap_cons, List.length_append, ih, length_bytesOf, List.length_cons]
    omega

/-- What `do_signal` does when the signal has a handler. -/
theorem Task.doSignal_some (h : t.doSignal signr r = some (t', r', longs)) :
    t' = { t with
      sigaction := t.usedActions signr
      blocked := t.blocked ||| (t.action signr).saMask } ∧
    r' = { r with
      eip := (t.action signr).saHandler
      esp := r.esp - BitVec.ofNat 32 (4 * longs.length) } ∧
    longs = t.signalFrame signr r := by
  simp only [doSignal] at h
  split_ifs at h
  obtain ⟨htask, hrest⟩ := Prod.mk.inj (Option.some.inj h)
  obtain ⟨hregs, hlongs⟩ := Prod.mk.inj hrest
  exact ⟨htask.symm, hlongs ▸ hregs.symm, hlongs.symm⟩

/-- `do_signal` returns at once exactly if the signal is ignored or has no handler. -/
theorem Task.doSignal_none :
    t.doSignal signr r = none ↔
      (t.action signr).saHandler = 1 ∨ (t.action signr).saHandler = 0 := by
  simp only [doSignal]
  split_ifs with h₁ h₀
  · exact ⟨fun _ => .inl h₁, fun _ => rfl⟩
  · exact ⟨fun _ => .inr h₀, fun _ => rfl⟩
  · exact ⟨nofun, fun hc => (hc.elim h₁ h₀).elim⟩

namespace Kernel

variable {β : Type*} {φ : Task → β} {k : Kernel} {i : Slot}

theorem sameTasks_sysSsetmask (ht : k.task i = some t)
    (hblocked : ∀ t b, φ { t with blocked := b } = φ t) (newmask : Word) :
    SameTasks φ k (k.sysSsetmask i t newmask).2 := .setTask ht (hblocked t _)

theorem sameTasks_sysSignal (ht : k.task i = some t)
    (hact : ∀ t s, φ { t with sigaction := s } = φ t) (signum : Int) (handler restorer : Word) :
    SameTasks φ k (k.sysSignal i t signum handler restorer).2 := by
  rw [sysSignal]
  split_ifs
  · exact .refl φ k
  · exact .setTask ht (hact t _)

theorem nextSignal_ne_zero (h : nextSignal i t r = some signr) : i ≠ 0 := by
  rintro rfl
  rw [nextSignal, if_pos rfl] at h
  cases h

/-- `ret_from_syscall` delivers no signal; or it takes one without a handler; or it
    takes one and lets its handler run. -/
theorem deliver_cases {k' : Kernel} (hok : k.deliver i t r = .ok (r', k')) :
    (nextSignal i t r = none ∧ r' = r ∧ k' = k) ∨
    ∃ signr, nextSignal i t r = some signr ∧
      (((t.action signr).saHandler = 1 ∨ (t.action signr).saHandler = 0) ∧ r' = r ∧
        k' = k.setTask i (some (t.take signr)) ∨
      (t.action signr).saHandler ≠ 1 ∧ (t.action signr).saHandler ≠ 0 ∧
        ∃ m, k' = { k with mm := m }.setTask i (some { t.take signr with
          sigaction := t.usedActions signr
          blocked := t.blocked ||| (t.action signr).saMask })) := by
  rw [deliver] at hok
  cases hnext : nextSignal i t r with
  | none =>
    rw [hnext] at hok
    obtain ⟨rfl, rfl⟩ := Prod.mk.inj (Except.ok.inj hok)
    exact .inl ⟨rfl, rfl, rfl⟩
  | some signr =>
    refine .inr ⟨signr, rfl, ?_⟩
    simp only [hnext] at hok
    cases hdo : (t.take signr).doSignal signr r with
    | none =>
      rw [hdo] at hok
      obtain ⟨rfl, rfl⟩ := Prod.mk.inj (Except.ok.inj hok)
      exact .inl ⟨(Task.doSignal_none (t := t.take signr)).1 hdo, rfl, rfl⟩
    | some x =>
      obtain ⟨t', r₁, longs⟩ := x
      simp only [hdo] at hok
      obtain ⟨m₁, -, hok⟩ := Except.bind_eq_ok.1 hok
      obtain ⟨m₂, -, hok⟩ := Except.bind_eq_ok.1 hok
      obtain ⟨-, rfl⟩ := Prod.mk.inj (Except.ok.inj hok)
      have hhandler : ¬((t.action signr).saHandler = 1 ∨ (t.action signr).saHandler = 0) := by
        intro hc
        have hnone : (t.take signr).doSignal signr r = none := Task.doSignal_none.2 hc
        rw [hdo] at hnone
        cases hnone
      rw [not_or] at hhandler
      exact .inr ⟨hhandler.1, hhandler.2, m₂, by rw [(Task.doSignal_some hdo).1]; rfl⟩

/-- The signal that is delivered next has a handler, which runs. -/
theorem deliver_handler {k' : Kernel} (hok : k.deliver i t r = .ok (r', k'))
    (hnext : nextSignal i t r = some signr) (h₀ : (t.action signr).saHandler ≠ 0)
    (h₁ : (t.action signr).saHandler ≠ 1) :
    ∃ t', k'.task i = some t' ∧ t'.blocked = t.blocked ||| (t.action signr).saMask := by
  rcases deliver_cases hok with ⟨hnone, -⟩ | ⟨signr, hnext', ⟨hdefault, -⟩ | ⟨-, -, m, hset⟩⟩
  · cases hnext.symm.trans hnone
  · obtain rfl := Option.some.inj (hnext.symm.trans hnext')
    exact (hdefault.elim h₁ h₀).elim
  · obtain rfl := Option.some.inj (hnext.symm.trans hnext')
    exact ⟨_, by rw [hset, task_setTask, if_pos rfl], rfl⟩

/-- `sys_sigaction` sets the action of a signal that it does not refuse. -/
theorem sysSigaction_cases {signum : Int} {action oldAction w : Word} {k' : Kernel}
    (hok : k.sysSigaction i t signum action oldAction = .ok (w, k')) :
    k' = k ∨ ¬refused signum ∧ ∃ m sa,
      k' = { k with mm := m }.setTask i
        (some (t.setAction signum.toNat (maskAction signum.toNat sa))) := by
  rw [sysSigaction] at hok
  split_ifs at hok with href
  · exact .inl (Prod.mk.inj (Except.ok.inj hok)).2.symm
  all_goals obtain ⟨⟨new, m₁⟩, -, hok⟩ := Except.bind_eq_ok.1 hok
  · obtain ⟨m₂, -, hok⟩ := Except.bind_eq_ok.1 hok
    exact .inr ⟨href, m₂, _, (Prod.mk.inj (Except.ok.inj hok)).2.symm⟩
  · exact .inr ⟨href, m₁, _, (Prod.mk.inj (Except.ok.inj hok)).2.symm⟩

end Kernel

end NeuOs
