import Mathlib.Data.Fin.Basic
import NeuOs.Mm.Access
import NeuOs.Mm.Boot

/-!
# Tasks (`include/linux/sched.h`)

The process descriptor `task_struct` and the table `task` of its 64 slots. A task
lives in a page of its own, which it shares with its kernel stack: the page is
what the pointers in `task` point to. The kernel writes to that page whenever the
task changes, and its contents are the record `TaskStruct` here.

`long` is a 32-bit word. The fields that no modelled function uses are left out
(the user and group ids but `euid`, the addresses of the sections, the session,
the coprocessor, the terminal).
-/

namespace NeuOs

/-- `NR_TASKS` slots. -/
abbrev Slot := Fin 64

instance neZeroSlots : NeZero 64 := ⟨by decide⟩

theorem Slot.pos {i : Slot} (h : i ≠ 0) : 1 ≤ i.1 :=
  Nat.pos_of_ne_zero fun h0 => h (Fin.ext h0)

/-- The states of a task: `TASK_RUNNING` (0) to `TASK_STOPPED` (4). -/
inductive TaskState
  | running
  | interruptible
  | uninterruptible
  | zombie
  | stopped
  deriving DecidableEq, Repr

/-- `struct sigaction`. -/
structure Sigaction where
  saHandler : Word
  saMask : Word
  saFlags : Word
  saRestorer : Word
  deriving DecidableEq, Repr

/-- A segment descriptor of the LDT: its base, and its size in bytes as
    `get_limit` computes it. -/
structure Segment where
  base : Nat
  limit : Nat
  deriving DecidableEq, Repr

/-- `struct tss_struct`, without the stacks of the rings 1 and 2, `cr3` and the
    coprocessor, which only a copy of the whole structure touches. -/
structure Tss where
  backLink : Word
  esp0 : Word
  ss0 : Word
  eip : Word
  eflags : Word
  eax : Word
  ecx : Word
  edx : Word
  ebx : Word
  esp : Word
  ebp : Word
  esi : Word
  edi : Word
  es : Word
  cs : Word
  ss : Word
  ds : Word
  fs : Word
  gs : Word
  ldt : Word
  bitmap : Word
  deriving DecidableEq, Repr

/-- `struct task_struct`. The array `sigaction` has 32 entries. -/
structure TaskStruct where
  state : TaskState
  counter : Word
  priority : Word
  signal : Word
  sigaction : Nat → Sigaction
  blocked : Word
  exitCode : Word
  startCode : Nat
  pid : Word
  father : Word
  pgrp : Word
  leader : Word
  euid : BitVec 16
  alarm : Word
  utime : Word
  stime : Word
  cutime : Word
  cstime : Word
  startTime : Word
  code : Segment
  data : Segment
  tss : Tss

/-- A task and the address of its page: what a pointer in `task` points to. -/
structure Task extends TaskStruct where
  page : Nat

/-- The state of the kernel. -/
structure Kernel where
  mm : Mm
  task : Slot → Option Task
  lastPid : Word
  jiffies : Word

/-- `_LDT(n)`: the selector of the LDT of slot `n`. -/
def ldtSelector (n : Nat) : Word := BitVec.ofNat 32 ((n <<< 4) + (5 <<< 3))

/-- The empty action, the default. -/
def Sigaction.default : Sigaction := ⟨0, 0, 0, 0⟩

/-- The limit of the segments of `INIT_TASK`: the descriptors have the limit 0x9f
    in pages. -/
def initLimit : Nat := (0x9f + 1) * 4096

/-- `INIT_TASK`, at the address `page` in the kernel's data. -/
def initTask (page : Nat) : Task where
  state := .running
  counter := 15
  priority := 15
  signal := 0
  sigaction := fun _ => .default
  blocked := 0
  exitCode := 0
  startCode := 0
  pid := 0
  father := -1
  pgrp := 0
  leader := 0
  euid := 0
  alarm := 0
  utime := 0
  stime := 0
  cutime := 0
  cstime := 0
  startTime := 0
  code := ⟨0, initLimit⟩
  data := ⟨0, initLimit⟩
  tss :=
    { backLink := 0, esp0 := BitVec.ofNat 32 (4096 + page), ss0 := 0x10, eip := 0, eflags := 0,
      eax := 0, ecx := 0, edx := 0, ebx := 0, esp := 0, ebp := 0, esi := 0, edi := 0, es := 0x17,
      cs := 0x17, ss := 0x17, ds := 0x17, fs := 0x17, gs := 0x17, ldt := ldtSelector 0,
      bitmap := 0x80000000 }
  page := page

namespace Kernel

/-- Setting an entry of the table `task`. -/
def setTask (k : Kernel) (i : Slot) (t : Option Task) : Kernel :=
  { k with task := Function.update k.task i t }

/-- Changing the task in a slot, if there is one. -/
def modifyTask (k : Kernel) (i : Slot) (f : Task → Task) : Kernel :=
  k.setTask i ((k.task i).map f)

/-- The first slot whose task satisfies `p`. -/
def findTask (k : Kernel) (p : Task → Bool) : Option Slot :=
  (List.finRange 64).find? fun i => (k.task i).any p

/-- The kernel when `main` enters user mode: `setup_paging` and `mem_init` have
    run, `sched_init` has cleared the slots 1 to 63, and `INIT_TASK` is at the
    address `page`. -/
def boot (m : Mm) (startMem endMem page : Nat) : Kernel where
  mm := m.setupPaging.memInit startMem endMem
  task := fun i => if i = 0 then some (initTask page) else none
  lastPid := 0
  jiffies := 0

variable {β : Type*} {k : Kernel} {i j : Slot}

theorem task_setTask (t : Option Task) :
    (k.setTask i t).task j = if j = i then t else k.task j := Function.update_apply _ _ _ _

@[simp] theorem mm_setTask (t : Option Task) : (k.setTask i t).mm = k.mm := rfl

theorem task_modifyTask (f : Task → Task) :
    (k.modifyTask i f).task j = if j = i then (k.task i).map f else k.task j := task_setTask _

/-- `k'` has the memory of `k`, and the tasks of the two have the same `φ`. -/
structure SameTasks (φ : Task → β) (k k' : Kernel) : Prop where
  mm : k'.mm = k.mm
  lastPid : k'.lastPid = k.lastPid
  task : ∀ j, (k'.task j).map φ = (k.task j).map φ

namespace SameTasks

variable {φ : Task → β} {k' k'' : Kernel}

theorem refl (φ : Task → β) (k : Kernel) : SameTasks φ k k := ⟨rfl, rfl, fun _ => rfl⟩

theorem trans (h : SameTasks φ k k') (h' : SameTasks φ k' k'') : SameTasks φ k k'' :=
  ⟨h'.mm.trans h.mm, h'.lastPid.trans h.lastPid, fun j => (h'.task j).trans (h.task j)⟩

theorem comp {γ : Type*} (h : SameTasks φ k k') (ψ : β → γ) : SameTasks (ψ ∘ φ) k k' :=
  ⟨h.mm, h.lastPid, fun j => by rw [← Option.map_map, h.task j, Option.map_map]⟩

/-- Replacing a task by one with the same `φ`. -/
theorem setTask {t t' : Task} (ht : k.task i = some t) (hφ : φ t' = φ t) :
    SameTasks φ k (k.setTask i (some t')) := by
  refine ⟨rfl, rfl, fun j => ?_⟩
  rw [task_setTask]
  split_ifs with hj
  · rw [hj, ht, Option.map_some, Option.map_some, hφ]
  · rfl

/-- Changing a task without changing its `φ`. -/
theorem modifyTask {f : Task → Task} (hφ : ∀ t, φ (f t) = φ t) :
    SameTasks φ k (k.modifyTask i f) := by
  cases ht : k.task i with
  | none =>
    refine ⟨rfl, rfl, fun j => ?_⟩
    rw [task_modifyTask, ht]
    split_ifs with hj
    · rw [hj, ht]
      rfl
    · rfl
  | some t =>
    rw [Kernel.modifyTask, ht, Option.map_some]
    exact setTask ht (hφ t)

/-- The task before, of a task after. -/
theorem task_some (h : SameTasks φ k k') {t' : Task} (ht : k'.task j = some t') :
    ∃ t, k.task j = some t ∧ φ t = φ t' := by
  have hj := h.task j
  rw [ht, Option.map_some] at hj
  obtain ⟨t, ht, hφ⟩ := Option.map_eq_some_iff.1 hj.symm
  exact ⟨t, ht, hφ⟩

/-- The task after, of a task before. -/
theorem task_after (h : SameTasks φ k k') {t : Task} (ht : k.task j = some t) :
    ∃ t', k'.task j = some t' ∧ φ t' = φ t := by
  have hj := h.task j
  rw [ht, Option.map_some] at hj
  exact Option.map_eq_some_iff.1 hj

theorem task_none (h : SameTasks φ k k') : k'.task j = none ↔ k.task j = none := by
  rw [← Option.map_eq_none_iff (f := φ), h.task j, Option.map_eq_none_iff]

end SameTasks

/-- `findTask` finds a task satisfying `p`, or there is none. -/
theorem findTask_cases (k : Kernel) (p : Task → Bool) :
    (k.findTask p = none ∧ ∀ i t, k.task i = some t → ¬p t) ∨
      ∃ i t, k.findTask p = some i ∧ k.task i = some t ∧ p t := by
  cases h : k.findTask p with
  | none =>
    refine .inl ⟨rfl, fun i t ht hp => ?_⟩
    have hall := List.find?_eq_none.1 h i (List.mem_finRange i)
    rw [ht] at hall
    exact hall (by simpa using hp)
  | some i =>
    have hany := List.find?_some h
    cases ht : k.task i with
    | none =>
      rw [ht] at hany
      cases hany
    | some t =>
      rw [ht] at hany
      exact .inr ⟨i, t, rfl, ht, by simpa using hany⟩

end Kernel

end NeuOs
