import NeuOs.Kernel.Signal
import NeuOs.Lib.Run

/-!
# Steps of the kernel

The kernel runs with interrupts, but it switches tasks only in `schedule`: what a
process does in kernel mode between two calls of `schedule` is one step. The
actions are the system calls of `Kernel.Fork`, `Kernel.Exit` and `Kernel.Signal`,
the page faults and stores of user mode, and the stores of the kernel to user
memory, all of which belong to the process in some slot; and `write_verify` and
the ticks of the clock.

The user memory of the task 0 is the memory of the kernel itself, so that it must
not store to it.
-/

namespace NeuOs

inductive Action
  /-- `sys_fork`. -/
  | fork (i : Slot) (r : Regs)
  /-- `sys_exit`. -/
  | exit (i : Slot) (errorCode : Word)
  /-- `release` of the task in the slot `j`. -/
  | release (i j : Slot)
  /-- The page faults of an access at an offset of the segment. -/
  | fault (i : Slot) (off : Nat) (write : Bool)
  /-- A store in user mode, with its page faults. -/
  | store (i : Slot) (off : Nat) (b : Byte)
  /-- `write_verify`, of any address. -/
  | writeVerify (a : Nat)
  /-- `verify_area` of a range of the segment, and stores of bytes to it. -/
  | put (i : Slot) (addr : Word) (bytes : List Byte)
  /-- A change of the page of the task, where its descriptor and its kernel stack
      are. -/
  | taskWord (i : Slot) (w : Nat) (v : Word)
  /-- `sys_kill`. -/
  | kill (i : Slot) (pid : Word) (sig : Int)
  /-- `sys_ssetmask`. -/
  | ssetmask (i : Slot) (newmask : Word)
  /-- `sys_signal`. -/
  | signal (i : Slot) (signum : Int) (handler restorer : Word)
  /-- `sys_sigaction`. -/
  | sigaction (i : Slot) (signum : Int) (action oldAction : Word)
  /-- `ret_from_syscall`, with the registers it returns to. -/
  | deliver (i : Slot) (r : Regs)
  /-- A tick of the clock. -/
  | tick

namespace Action

/-- The slot of the process that performs the action. -/
def slot : Action → Option Slot
  | .fork i _ | .exit i _ | .release i _ | .fault i _ _ | .store i _ _ | .put i _ _
  | .taskWord i _ _ | .kill i _ _ | .ssetmask i _ | .signal i _ _ _ | .sigaction i _ _ _
  | .deliver i _ => some i
  | .writeVerify _ | .tick => none

/-- The action is no fork, and sets no actions and blocked signals of a task. -/
def Plain : Action → Prop
  | .fork .. | .ssetmask .. | .signal .. | .sigaction .. | .deliver .. => False
  | _ => True

/-- The action is a fault or a store. -/
def Memory : Action → Prop
  | .fault .. | .store .. | .writeVerify _ | .put .. | .taskWord .. => True
  | _ => False

end Action

namespace Kernel

/-- The task in the slot has not exited. -/
def Alive (k : Kernel) (i : Slot) : Prop := ∃ t, k.task i = some t ∧ t.state ≠ .zombie

/-- What must hold for an action, besides that its process has not exited. -/
def Allowed (k : Kernel) : Action → Prop
  | .release _ j => j ≠ 0 ∧ k.task j ≠ none
  | .fault i off _ | .store i off _ => i ≠ 0 ∧ ∀ t, k.task i = some t → off < t.data.limit
  | .writeVerify a => a < 2 ^ 32
  | .put i _ bytes => i ≠ 0 ∧ bytes ≠ []
  | .taskWord i w _ => i ≠ 0 ∧ w < 1024
  | .sigaction i _ _ oldAction => i = 0 → oldAction = 0
  | _ => True

/-- The action can be performed. -/
def Enabled (k : Kernel) (a : Action) : Prop := (∀ i, a.slot = some i → k.Alive i) ∧ k.Allowed a

/-- Changing the memory of the kernel. -/
def withMm (k : Kernel) (m : Except Panic Mm) : Except Panic Kernel :=
  m.map fun m => { k with mm := m }

/-- The effect of an action. There is none if the slot is empty, or if a loop of
    the kernel does not end. -/
def exec (k : Kernel) : Action → Option (Except Panic Kernel)
  | .fork i r => (k.task i).bind fun t => (k.sysFork t r).map (·.map (·.2))
  | .exit i errorCode => (k.task i).map fun t => k.sysExit i t errorCode
  | .release _ j => (k.task j).map fun t => k.release t.page
  | .fault i off write => (k.task i).map fun t => k.withMm (k.mm.touch (t.data.base + off) write)
  | .store i off b => (k.task i).map fun t => k.withMm (k.mm.userStore (t.data.base + off) b)
  | .writeVerify a => some (k.withMm (k.mm.writeVerify a))
  | .put i addr bytes => (k.task i).map fun t => k.withMm do
      let m ← k.mm.verifyArea t.data.base addr.toNat bytes.length
      Mm.putFsBytes t.data bytes addr m
  | .taskWord i w v => (k.task i).map fun t => .ok { k with mm := k.mm.store (t.page + 4 * w) v }
  | .kill i pid sig => (k.task i).map fun t => .ok (k.sysKill t pid sig).2
  | .ssetmask i newmask => (k.task i).map fun t => .ok (k.sysSsetmask i t newmask).2
  | .signal i signum handler restorer =>
    (k.task i).map fun t => .ok (k.sysSignal i t signum handler restorer).2
  | .sigaction i signum action oldAction =>
    (k.task i).map fun t => (k.sysSigaction i t signum action oldAction).map (·.2)
  | .deliver i r => (k.task i).map fun t => (k.deliver i t r).map (·.2)
  | .tick => some (.ok { k with jiffies := k.jiffies + 1 })

/-- A step of the kernel. -/
def Step (k : Kernel) (a : Action) (k' : Kernel) : Prop := k.Enabled a ∧ k.exec a = some (.ok k')

/-! ## What a step does -/

variable {k k' : Kernel} {i j : Slot}

theorem Step.fork {r : Regs} (h : Step k (.fork i r) k') : ∃ t pid, k.task i = some t ∧
    t.state ≠ .zombie ∧ k.sysFork t r = some (.ok (pid, k')) := by
  obtain ⟨⟨halive, -⟩, hx⟩ := h
  obtain ⟨t, ht, hlive⟩ := halive i rfl
  simp only [exec, ht, Option.bind_some] at hx
  obtain ⟨y, hy, hmap⟩ := Option.map_eq_some_iff.1 hx
  obtain ⟨⟨pid, k₁⟩, rfl, rfl⟩ := Except.map_eq_ok.1 hmap
  exact ⟨t, pid, ht, hlive, hy⟩

theorem Step.exit {e : Word} (h : Step k (.exit i e) k') : ∃ t, k.task i = some t ∧
    t.state ≠ .zombie ∧ k.sysExit i t e = .ok k' := by
  obtain ⟨⟨halive, -⟩, hx⟩ := h
  obtain ⟨t, ht, hlive⟩ := halive i rfl
  simp only [exec, ht, Option.map_some, Option.some.injEq] at hx
  exact ⟨t, ht, hlive, hx⟩

theorem Step.release (h : Step k (.release i j) k') : ∃ u, j ≠ 0 ∧ k.task j = some u ∧
    k.release u.page = .ok k' := by
  obtain ⟨⟨-, hj, hne⟩, hx⟩ := h
  obtain ⟨u, hu⟩ := Option.ne_none_iff_exists'.1 hne
  simp only [exec, hu, Option.map_some, Option.some.injEq] at hx
  exact ⟨u, hj, hu, hx⟩

theorem Step.fault {off : Nat} {write : Bool} (h : Step k (.fault i off write) k') :
    ∃ t m, i ≠ 0 ∧ k.task i = some t ∧ t.state ≠ .zombie ∧ off < t.data.limit ∧
      k.mm.touch (t.data.base + off) write = .ok m ∧ k' = { k with mm := m } := by
  obtain ⟨⟨halive, hi, hoff⟩, hx⟩ := h
  obtain ⟨t, ht, hlive⟩ := halive i rfl
  simp only [exec, ht, Option.map_some, Option.some.injEq] at hx
  obtain ⟨m, hm, rfl⟩ := Except.map_eq_ok.1 hx
  exact ⟨t, m, hi, ht, hlive, hoff t ht, hm, rfl⟩

theorem Step.store {off : Nat} {b : Byte} (h : Step k (.store i off b) k') :
    ∃ t m, i ≠ 0 ∧ k.task i = some t ∧ t.state ≠ .zombie ∧ off < t.data.limit ∧
      k.mm.userStore (t.data.base + off) b = .ok m ∧ k' = { k with mm := m } := by
  obtain ⟨⟨halive, hi, hoff⟩, hx⟩ := h
  obtain ⟨t, ht, hlive⟩ := halive i rfl
  simp only [exec, ht, Option.map_some, Option.some.injEq] at hx
  obtain ⟨m, hm, rfl⟩ := Except.map_eq_ok.1 hx
  exact ⟨t, m, hi, ht, hlive, hoff t ht, hm, rfl⟩

theorem Step.writeVerify {a : Nat} (h : Step k (.writeVerify a) k') :
    ∃ m, a < 2 ^ 32 ∧ k.mm.writeVerify a = .ok m ∧ k' = { k with mm := m } := by
  obtain ⟨⟨-, ha⟩, hx⟩ := h
  obtain ⟨m, hm, rfl⟩ := Except.map_eq_ok.1 (Option.some.inj hx)
  exact ⟨m, ha, hm, rfl⟩

theorem Step.put {addr : Word} {bytes : List Byte} (h : Step k (.put i addr bytes) k') :
    ∃ t m₁ m, i ≠ 0 ∧ bytes ≠ [] ∧ k.task i = some t ∧ t.state ≠ .zombie ∧
      k.mm.verifyArea t.data.base addr.toNat bytes.length = .ok m₁ ∧
      Mm.putFsBytes t.data bytes addr m₁ = .ok m ∧ k' = { k with mm := m } := by
  obtain ⟨⟨halive, hi, hbytes⟩, hx⟩ := h
  obtain ⟨t, ht, hlive⟩ := halive i rfl
  simp only [exec, ht, Option.map_some, Option.some.injEq] at hx
  obtain ⟨m, hm, rfl⟩ := Except.map_eq_ok.1 hx
  obtain ⟨m₁, hverify, hput⟩ := Except.bind_eq_ok.1 hm
  exact ⟨t, m₁, m, hi, hbytes, ht, hlive, hverify, hput, rfl⟩

theorem Step.taskWord {w : Nat} {v : Word} (h : Step k (.taskWord i w v) k') :
    ∃ t, i ≠ 0 ∧ w < 1024 ∧ k.task i = some t ∧ t.state ≠ .zombie ∧
      k' = { k with mm := k.mm.store (t.page + 4 * w) v } := by
  obtain ⟨⟨halive, hi, hw⟩, hx⟩ := h
  obtain ⟨t, ht, hlive⟩ := halive i rfl
  simp only [exec, ht, Option.map_some, Option.some.injEq, Except.ok.injEq] at hx
  exact ⟨t, hi, hw, ht, hlive, hx.symm⟩

theorem Step.kill {pid : Word} {sig : Int} (h : Step k (.kill i pid sig) k') :
    ∃ t, k.task i = some t ∧ t.state ≠ .zombie ∧ k' = (k.sysKill t pid sig).2 := by
  obtain ⟨⟨halive, -⟩, hx⟩ := h
  obtain ⟨t, ht, hlive⟩ := halive i rfl
  simp only [exec, ht, Option.map_some, Option.some.injEq, Except.ok.injEq] at hx
  exact ⟨t, ht, hlive, hx.symm⟩

theorem Step.ssetmask {newmask : Word} (h : Step k (.ssetmask i newmask) k') :
    ∃ t, k.task i = some t ∧ t.state ≠ .zombie ∧ k' = (k.sysSsetmask i t newmask).2 := by
  obtain ⟨⟨halive, -⟩, hx⟩ := h
  obtain ⟨t, ht, hlive⟩ := halive i rfl
  simp only [exec, ht, Option.map_some, Option.some.injEq, Except.ok.injEq] at hx
  exact ⟨t, ht, hlive, hx.symm⟩

theorem Step.signal {signum : Int} {handler restorer : Word}
    (h : Step k (.signal i signum handler restorer) k') : ∃ t, k.task i = some t ∧
      t.state ≠ .zombie ∧ k' = (k.sysSignal i t signum handler restorer).2 := by
  obtain ⟨⟨halive, -⟩, hx⟩ := h
  obtain ⟨t, ht, hlive⟩ := halive i rfl
  simp only [exec, ht, Option.map_some, Option.some.injEq, Except.ok.injEq] at hx
  exact ⟨t, ht, hlive, hx.symm⟩

theorem Step.sigaction {signum : Int} {action oldAction : Word}
    (h : Step k (.sigaction i signum action oldAction) k') : ∃ t w, k.task i = some t ∧
      t.state ≠ .zombie ∧ (i = 0 → oldAction = 0) ∧
      k.sysSigaction i t signum action oldAction = .ok (w, k') := by
  obtain ⟨⟨halive, hold⟩, hx⟩ := h
  obtain ⟨t, ht, hlive⟩ := halive i rfl
  simp only [exec, ht, Option.map_some, Option.some.injEq] at hx
  obtain ⟨⟨w, k₁⟩, hok, rfl⟩ := Except.map_eq_ok.1 hx
  exact ⟨t, w, ht, hlive, hold, hok⟩

theorem Step.deliver {r : Regs} (h : Step k (.deliver i r) k') : ∃ t r', k.task i = some t ∧
    t.state ≠ .zombie ∧ k.deliver i t r = .ok (r', k') := by
  obtain ⟨⟨halive, -⟩, hx⟩ := h
  obtain ⟨t, ht, hlive⟩ := halive i rfl
  simp only [exec, ht, Option.map_some, Option.some.injEq] at hx
  obtain ⟨⟨r', k₁⟩, hok, rfl⟩ := Except.map_eq_ok.1 hx
  exact ⟨t, r', ht, hlive, hok⟩

theorem Step.tick (h : Step k .tick k') : k' = { k with jiffies := k.jiffies + 1 } :=
  (Except.ok.inj (Option.some.inj h.2)).symm

/-- The faults and stores change the memory only. -/
theorem Step.memory {a : Action} (h : Step k a k') (ha : a.Memory) :
    ∃ m, k' = { k with mm := m } := by
  cases a with
  | fault i off write =>
    obtain ⟨-, m, -, -, -, -, -, rfl⟩ := h.fault
    exact ⟨m, rfl⟩
  | store i off b =>
    obtain ⟨-, m, -, -, -, -, -, rfl⟩ := h.store
    exact ⟨m, rfl⟩
  | writeVerify a =>
    obtain ⟨m, -, -, rfl⟩ := h.writeVerify
    exact ⟨m, rfl⟩
  | put i addr bytes =>
    obtain ⟨-, -, m, -, -, -, -, -, -, rfl⟩ := h.put
    exact ⟨m, rfl⟩
  | taskWord i w v =>
    obtain ⟨-, -, -, -, -, rfl⟩ := h.taskWord
    exact ⟨_, rfl⟩
  | _ => exact absurd ha id

/-- The kernel has just been initialised, with the memory between the frames `lo`
    and `hi` for its pages, and `INIT_TASK` below 1 MB. -/
def Booted (lo hi : Nat) (k : Kernel) : Prop :=
  ∃ m page, page < lowMem ∧ k = boot m (4096 * lo) (4096 * hi) page

/-- The states reachable from boot. -/
abbrev Reachable (lo hi : Nat) : Kernel → Prop := Transition.Reachable (Booted lo hi) Step

end Kernel

end NeuOs
