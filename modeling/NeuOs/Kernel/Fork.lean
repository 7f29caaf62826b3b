import NeuOs.Kernel.Task

/-!
# Creating a process (`kernel/fork.c`)

`find_empty_process` looks for a pid no task has, from `last_pid` on, and for an
empty slot; `copy_process` then copies the task of the parent and its page tables.

The search for a pid is a loop that may not end: `searchPid` makes at most `fuel`
rounds. The loop has only `last_pid` for its state, so that 2^32 rounds are
enough for every search that ends.
-/

namespace NeuOs

/-- The registers of a process in user mode, as they are on the kernel's stack
    during a system call: the processor pushes `ss` to `eip`, `system_call` pushes
    `ds` to `ebx`, `sys_fork` the others. -/
structure Regs where
  eip : Word
  cs : Word
  eflags : Word
  esp : Word
  ss : Word
  eax : Word
  ebx : Word
  ecx : Word
  edx : Word
  esi : Word
  edi : Word
  ebp : Word
  ds : Word
  es : Word
  fs : Word
  gs : Word
  deriving DecidableEq, Repr, Inhabited

/-- How the search for a pid ends, with the value of `last_pid`. -/
inductive PidSearch
  /-- No task has the pid. -/
  | unused (pid : Word)
  /-- The search is back at the pid it started from. -/
  | wrapped (pid : Word)
  deriving DecidableEq, Repr

def PidSearch.pid : PidSearch → Word
  | .unused pid => pid
  | .wrapped pid => pid

/-- The pid after `lastPid`: beyond 2^31 - 1, it is 1 again. -/
def nextPid (lastPid : Word) : Word := if (lastPid + 1).slt 0 then 1 else lastPid + 1

/-- The outer loop of `find_empty_process`, at most `fuel` rounds of it. -/
def searchPid (inUse : Word → Bool) (tmp : Word) : (fuel : Nat) → (lastPid : Word) →
    Option PidSearch
  | 0, _ => none
  | fuel + 1, lastPid =>
    if ¬inUse lastPid then some (.unused lastPid)
    else if lastPid + 1 = tmp then some (.wrapped (lastPid + 1))
    else searchPid inUse tmp fuel (nextPid lastPid)

/-- The descriptor of the child in the page `p`, as `copy_process` sets it up
    before `copy_mem`. -/
def childTask (current : Task) (nr : Slot) (p : Nat) (lastPid jiffies : Word) (r : Regs) : Task :=
  { current with
    page := p
    state := .uninterruptible
    pid := lastPid
    father := current.pid
    counter := current.priority
    signal := 0
    alarm := 0
    leader := 0
    utime := 0
    stime := 0
    cutime := 0
    cstime := 0
    startTime := jiffies
    tss :=
      { backLink := 0, esp0 := BitVec.ofNat 32 (4096 + p), ss0 := 0x10, eip := r.eip,
        eflags := r.eflags, eax := 0, ecx := r.ecx, edx := r.edx, ebx := r.ebx, esp := r.esp,
        ebp := r.ebp, esi := r.esi, edi := r.edi, es := r.es &&& 0xffff, cs := r.cs &&& 0xffff,
        ss := r.ss &&& 0xffff, ds := r.ds &&& 0xffff, fs := r.fs &&& 0xffff,
        gs := r.gs &&& 0xffff, ldt := ldtSelector nr, bitmap := 0x80000000 } }

/-- The linear address of the region of a slot: 64 MB for each. -/
def slotBase (nr : Slot) : Nat := nr * 0x4000000

/-- The task `p` with its segments at the region of the slot `nr`. -/
def setBase (p : Task) (nr : Slot) : Task :=
  { p with
    startCode := slotBase nr
    code := { p.code with base := slotBase nr }
    data := { p.data with base := slotBase nr } }

/-- `copy_mem`: setting the segments of the child `p`, and copying the page tables
    of `current` to its region. A copy that fails is taken back, and the result
    is -1. -/
def copyMem (m : Mm) (current : Task) (nr : Slot) (p : Task) : Except Panic (Int × Task × Mm) :=
  if current.code.base ≠ current.data.base then .error .segmentsDiffer
  else if current.data.limit < current.code.limit then .error .badDataLimit
  else do
    let p := setBase p nr
    let (r, m) ← m.copyPageTables current.data.base (slotBase nr) current.data.limit
    if r ≠ 0 then do
      let m ← m.freePageTables (slotBase nr) current.data.limit
      .ok (-1, p, m)
    else .ok (0, p, m)

namespace Kernel

/-- Whether some task has the pid. -/
def pidInUse (k : Kernel) (pid : Word) : Bool := (k.findTask fun t => t.pid = pid).isSome

/-- The search for a pid, from `last_pid` on. -/
def pidSearch (k : Kernel) : Option PidSearch :=
  searchPid k.pidInUse k.lastPid (2 ^ 32) k.lastPid

/-- The first empty slot after the slot 0. -/
def emptySlot (k : Kernel) : Option Slot := (List.finRange 64).tail.find? fun i => (k.task i).isNone

/-- `find_empty_process`: the slot, or none for its result -1. It does not return
    if the search for a pid does not end. -/
def findEmptyProcess (k : Kernel) : Option (Option Slot × Kernel) :=
  k.pidSearch.map fun s => (k.emptySlot, { k with lastPid := s.pid })

/-- `copy_process`: its result is the pid of the child, or -1. -/
def copyProcess (k : Kernel) (current : Task) (nr : Slot) (r : Regs) :
    Except Panic (Word × Kernel) :=
  match k.mm.getFreePage with
  | (0, m) => .ok (-1, { k with mm := m })
  | (p, m) => do
    let (err, child, m) ← copyMem m current nr (childTask current nr p k.lastPid k.jiffies r)
    if err ≠ 0 then do
      let m ← m.freePage p
      .ok (-1, { k with mm := m }.setTask nr none)
    else .ok (k.lastPid, { k with mm := m }.setTask nr (some { child with state := .running }))

/-- `sys_fork`. -/
def sysFork (k : Kernel) (current : Task) (r : Regs) : Option (Except Panic (Word × Kernel)) :=
  k.findEmptyProcess.map fun
    | (none, k) => .ok (-1, k)
    | (some nr, k) => k.copyProcess current nr r

end Kernel

end NeuOs
