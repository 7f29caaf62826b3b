import NeuOs.Kernel.Task

/-!
# Ending a process (`kernel/exit.c`)

`do_exit` frees the pages of the process, gives its children to the process 1,
makes it a zombie and tells its father; `release` clears the slot of a task and
frees its page. Both then call `schedule`, which is a step of its own here.

Error numbers are those of `include/errno.h`.
-/

namespace NeuOs

def EPERM : Int := 1

def EINVAL : Int := 22

def SIGKILL : Nat := 9

def SIGCHLD : Nat := 17

/-- `1 << (sig - 1)`. -/
def sigBit (sig : Nat) : Word := 1#32 <<< (sig - 1)

namespace Kernel

/-- `send_sig`, to the task in the slot `p`. `priv` skips the check of the user. -/
def sendSig (k : Kernel) (current : Task) (sig : Int) (p : Slot) (priv : Bool) : Int × Kernel :=
  match k.task p with
  | none => (-EINVAL, k)
  | some t =>
    if sig < 1 ∨ 32 < sig then (-EINVAL, k)
    else if priv ∨ current.euid = t.euid then
      (0, k.modifyTask p fun t => { t with signal := t.signal ||| sigBit sig.toNat })
    else (-EPERM, k)

/-- The loop of `sys_kill` over the slots `ps`, from the result `retval` on. -/
def killSlots (current : Task) (pid : Word) (sig : Int) : List Slot → Int → Kernel → Int × Kernel
  | [], retval, k => (retval, k)
  | p :: ps, retval, k =>
    if (k.task p).any fun t => t.pid = pid then
      let (err, k) := k.sendSig current sig p true
      killSlots current pid sig ps (if err ≠ 0 then err else retval) k
    else killSlots current pid sig ps retval k

/-- `sys_kill`: the signal goes to the tasks with the pid in the slots 63 down to 1. -/
def sysKill (k : Kernel) (current : Task) (pid : Word) (sig : Int) : Int × Kernel :=
  if (0 : Word).slt pid then killSlots current pid sig (List.finRange 64).tail.reverse 0 k
  else (0, k)

/-- `release` of the task whose page is `p`. -/
def release (k : Kernel) (p : Nat) : Except Panic Kernel :=
  if p = 0 then .ok k
  else
    match k.findTask fun t => t.page = p with
    | none => .error .releaseNonExistent
    | some i => do
      let k := k.setTask i none
      let m ← k.mm.freePage p
      .ok { k with mm := m }

/-- `tell_father`: the first task with the pid gets a SIGCHLD. Without one,
    `current` is released. -/
def tellFather (k : Kernel) (current : Task) (pid : Word) : Except Panic Kernel :=
  match k.findTask fun t => t.pid = pid with
  | some i => .ok (k.modifyTask i fun t => { t with signal := t.signal ||| sigBit SIGCHLD })
  | none => k.release current.page

/-- The loop of `do_exit` over the slots: the children of the process `current` get
    the father 1, and the task in slot 1 a SIGCHLD for each zombie among them. -/
def orphan (current : Task) : List Slot → Kernel → Kernel
  | [], k => k
  | i :: l, k =>
    match k.task i with
    | none => orphan current l k
    | some t =>
      if t.father = current.pid then
        let k := k.modifyTask i fun t => { t with father := 1 }
        orphan current l
          (if t.state = .zombie then (k.sendSig current SIGCHLD 1 true).2 else k)
      else orphan current l k

/-- `do_exit` once the pages are freed, of the task `current` in the slot `i`. -/
def finishExit (k : Kernel) (i : Slot) (current : Task) (code : Word) : Except Panic Kernel :=
  let k := orphan current (List.finRange 64) k
  let k := k.modifyTask i fun t => { t with state := .zombie, exitCode := code }
  -- `current->father` is read after the loop.
  k.tellFather current (((k.task i).map fun t => t.father).getD current.father)

/-- `do_exit`. -/
def doExit (k : Kernel) (i : Slot) (current : Task) (code : Word) : Except Panic Kernel := do
  let m ← k.mm.freePageTables current.code.base current.code.limit
  let m ← m.freePageTables current.data.base current.data.limit
  finishExit { k with mm := m } i current code

/-- `sys_exit`. -/
def sysExit (k : Kernel) (i : Slot) (current : Task) (errorCode : Word) : Except Panic Kernel :=
  k.doExit i current ((errorCode &&& 0xff) <<< 8)

/-! ## What the signals and the father change -/

variable {β : Type*} {φ : Task → β} {k k' : Kernel} {current : Task}

/-- `send_sig` changes the pending signals of one task. -/
theorem sameTasks_sendSig (hsig : ∀ t s, φ { t with signal := s } = φ t) (sig : Int) (p : Slot)
    (priv : Bool) : SameTasks φ k (k.sendSig current sig p priv).2 := by
  rw [sendSig]
  split
  · exact .refl φ k
  · split_ifs
    · exact .refl φ k
    · exact .modifyTask fun t => hsig t _
    · exact .refl φ k

theorem sameTasks_killSlots (hsig : ∀ t s, φ { t with signal := s } = φ t) (pid : Word) (sig : Int)
    (ps : List Slot) (retval : Int) :
    SameTasks φ k (killSlots current pid sig ps retval k).2 := by
  induction ps generalizing retval k with
  | nil => exact .refl φ k
  | cons p ps ih =>
    rw [killSlots]
    split_ifs
    · exact (sameTasks_sendSig hsig sig p true).trans (ih _)
    · exact ih retval

/-- `sys_kill` changes the pending signals of tasks. -/
theorem sameTasks_sysKill (hsig : ∀ t s, φ { t with signal := s } = φ t) (pid : Word) (sig : Int) :
    SameTasks φ k (k.sysKill current pid sig).2 := by
  rw [sysKill]
  split_ifs
  · exact sameTasks_killSlots hsig pid sig _ 0
  · exact .refl φ k

/-- The loop of `do_exit` changes the fathers and the pending signals of tasks. -/
theorem sameTasks_orphan (hsig : ∀ t s, φ { t with signal := s } = φ t)
    (hfather : ∀ t x, φ { t with father := x } = φ t) (l : List Slot) :
    SameTasks φ k (orphan current l k) := by
  induction l generalizing k with
  | nil => exact .refl φ k
  | cons i l ih =>
    rw [orphan]
    split
    · exact ih
    · next t _ =>
      have hset : SameTasks φ k (k.modifyTask i fun t => { t with father := 1 }) :=
        .modifyTask fun t => hfather t 1
      split_ifs
      · exact (hset.trans (sameTasks_sendSig hsig _ 1 true)).trans ih
      · exact hset.trans ih
      · exact ih

/-- `tell_father` signals the father, or releases the task itself. -/
theorem tellFather_cases (hsig : ∀ t s, φ { t with signal := s } = φ t) (k : Kernel)
    (current : Task) (pid : Word) :
    (∃ k', k.tellFather current pid = .ok k' ∧ SameTasks φ k k') ∨
      k.tellFather current pid = k.release current.page := by
  rw [tellFather]
  split
  · exact .inl ⟨_, rfl, .modifyTask fun t => hsig t _⟩
  · exact .inr rfl

/-- `do_exit` changes the state, the exit code, the fathers and the pending signals
    of tasks, and may release the task itself. -/
theorem finishExit_cases (hsig : ∀ t s, φ { t with signal := s } = φ t)
    (hfather : ∀ t x, φ { t with father := x } = φ t)
    (hzombie : ∀ t c, φ { t with state := .zombie, exitCode := c } = φ t) (k : Kernel) (i : Slot)
    (current : Task) (code : Word) :
    ∃ k', SameTasks φ k k' ∧
      (k.finishExit i current code = .ok k' ∨
        k.finishExit i current code = k'.release current.page) := by
  have hsame : SameTasks φ k ((orphan current (List.finRange 64) k).modifyTask i
      fun t => { t with state := .zombie, exitCode := code }) :=
    (sameTasks_orphan hsig hfather _).trans (.modifyTask fun t => hzombie t code)
  rw [finishExit]
  rcases tellFather_cases hsig _ current _ with ⟨k', hok, hsame'⟩ | hrel
  · exact ⟨k', hsame.trans hsame', .inl hok⟩
  · exact ⟨_, hsame, .inr hrel⟩

end Kernel

end NeuOs
