import NeuOs.Kernel.Descriptor
import NeuOs.Kernel.Interrupt

/-!
# The interrupts and exceptions (`trap_init`, `sched_init`, `con_init`, boot/head.s)

`setup_idt` and the functions that `main` calls set the gates of the IDT. An event leads to the
entry at the offset of its gate; the processor has pushed where the program is, and for some
exceptions an error code.

The program goes on as if nothing had happened (but for the registers of a system call), the kernel
stops in `die`, which gets the place of the program, or the entry takes a word from the stack that
is not there (`deliver_spec`):
`device_not_available` and `coprocessor_error` jump to `error_code`, but their exceptions have no
error code, and so `iret` takes the words for one another.
-/

namespace NeuOs.Interrupt

open Int80 (Reg Seg Selector selector)

/-! ## The gates -/

inductive Entry
  | divideError
  | debug
  | nmi
  | int3
  | overflow
  | bounds
  | invalidOp
  | deviceNotAvailable
  | doubleFault
  | coprocessorSegmentOverrun
  | invalidTSS
  | segmentNotPresent
  | stackSegment
  | generalProtection
  | pageFault
  | reserved
  | coprocessorError
  | irq13
  | parallelInterrupt
  | timerInterrupt
  | systemCall
  | keyboardInterrupt
  | ignoreInt
  deriving DecidableEq

/-- The code of an entry, up to `iret`. -/
def Entry.run (env : Env) (m : Machine) : Entry → Except Stop Machine
  | divideError => noErrorCodeOf env .doDivideError m
  | debug => noErrorCodeOf env .doInt3 m
  | nmi => noErrorCodeOf env .doNmi m
  | int3 => noErrorCodeOf env .doInt3 m
  | overflow => noErrorCodeOf env .doOverflow m
  | bounds => noErrorCodeOf env .doBounds m
  | invalidOp => noErrorCodeOf env .doInvalidOp m
  | deviceNotAvailable => errorCodeOf env .doStub m
  | doubleFault => errorCodeOf env .doDoubleFault m
  | coprocessorSegmentOverrun => noErrorCodeOf env .doCoprocessorSegmentOverrun m
  | invalidTSS => errorCodeOf env .doInvalidTSS m
  | segmentNotPresent => errorCodeOf env .doSegmentNotPresent m
  | stackSegment => errorCodeOf env .doStackSegment m
  | generalProtection => errorCodeOf env .doGeneralProtection m
  | pageFault => Interrupt.pageFault env m
  | reserved => noErrorCodeOf env .doReserved m
  | coprocessorError => errorCodeOf env .doStub m
  | irq13 => Interrupt.irq13 env m
  | parallelInterrupt => Interrupt.parallelInterrupt env m
  | timerInterrupt => Interrupt.timerInterrupt env m
  | systemCall => Interrupt.systemCall env m
  | keyboardInterrupt => Interrupt.keyboardInterrupt env m
  | ignoreInt => Interrupt.ignoreInt env m

/-- A call of `_set_gate`. -/
structure Gate where
  n : ℕ
  type : ℕ
  dpl : ℕ
  entry : Entry

def setTrapGate (n : ℕ) (entry : Entry) : Gate := ⟨n, 0xf, 0, entry⟩

def setIntrGate (n : ℕ) (entry : Entry) : Gate := ⟨n, 0xe, 0, entry⟩

def setSystemGate (n : ℕ) (entry : Entry) : Gate := ⟨n, 0xf, 3, entry⟩

def trapInit : List Gate :=
  [setTrapGate 0 .divideError, setTrapGate 1 .debug, setTrapGate 2 .nmi, setSystemGate 3 .int3,
    setSystemGate 4 .overflow, setSystemGate 5 .bounds, setTrapGate 6 .doubleFault,
    setTrapGate 7 .deviceNotAvailable, setTrapGate 8 .doubleFault,
    setTrapGate 9 .coprocessorSegmentOverrun, setTrapGate 10 .invalidTSS,
    setTrapGate 11 .segmentNotPresent, setTrapGate 12 .stackSegment,
    setTrapGate 13 .generalProtection, setTrapGate 14 .pageFault, setTrapGate 15 .reserved,
    setTrapGate 16 .coprocessorError] ++
  (List.range' 17 31).map (setTrapGate · .reserved) ++
  [setTrapGate 45 .irq13, setTrapGate 39 .parallelInterrupt]

def schedInit : List Gate := [setIntrGate 0x20 .timerInterrupt, setSystemGate 0x80 .systemCall]

def conInit : List Gate := [setTrapGate 0x21 .keyboardInterrupt]

/-- The gates, in the order of the calls in `main`. -/
def gates : List Gate := trapInit ++ schedInit ++ conInit

/-- `setup_idt`: the default entry. -/
def setupIdt (n : ℕ) : Gate := setIntrGate n .ignoreInt

/-- Where the entries are. -/
structure Layout where
  address : Entry → Word
  entryAt : Word → Option Entry
  entryAt_address : ∀ e, entryAt (address e) = some e

/-- `_set_gate` -/
def Gate.set (lay : Layout) (idt : ℕ → Descriptor) (g : Gate) : ℕ → Descriptor :=
  Function.update idt g.n ((idt g.n).setGate g.type g.dpl (lay.address g.entry))

/-- The IDT of the running system. -/
def idt (lay : Layout) : ℕ → Descriptor :=
  gates.foldl (Gate.set lay) fun n =>
    Descriptor.setGate (fun _ => 0) (setupIdt n).type (setupIdt n).dpl
    (lay.address (setupIdt n).entry)

/-- The gate that is set last. -/
def gate (n : ℕ) : Gate := (gates.reverse.find? (·.n = n)).getD (setupIdt n)

/-! ## The events -/

/-- The stack of a program: its stack pointer in user mode, and the kernel stack in kernel mode. -/
inductive Stack
  | user (esp : Word)
  | kernel (base : Word) (items : List Item)

def Stack.cpl : Stack → ℕ
  | .user _ => 3
  | .kernel .. => 0

/-- What goes on in the processor when an event comes: the code segment has the level of the
    stack. -/
@[ext] structure Context where
  reg : Reg → Word
  seg : Seg → Selector
  eip : Word
  eflags : Word
  stack : Stack
  level : (seg .cs &&& 3).toNat = stack.cpl

/-- What the processor does before the entry. -/
def enter (env : Env) (u : Context) (code : Option Word) : Machine :=
  let frame := (code.toList ++ [u.eip, env.word u.seg .cs, u.eflags]).map Item.long
  match u.stack with
  | .user esp =>
    { reg := u.reg
      seg := Function.update (Function.update u.seg .cs 0x08) .ss 0x10
      base := env.esp0
      stack := frame ++ [.long esp, .long (env.word u.seg .ss)]
      ports := []
      calls := [] }
  | .kernel base items =>
    { reg := u.reg
      seg := Function.update u.seg .cs 0x08
      base := base
      stack := frame ++ items
      ports := []
      calls := [] }

/-- `iret` -/
def iret (m : Machine) : Except Stop Context :=
  match m.stack with
  | .long eip :: .long cs :: .long eflags :: l =>
    if h : (selector cs &&& 3).toNat = 0 then
      .ok ⟨m.reg, Function.update m.seg .cs (selector cs), eip, eflags, .kernel m.base l, h⟩
    else if h : (selector cs &&& 3).toNat = 3 then
      match l with
      | .long esp :: .long ss :: _ =>
        .ok ⟨m.reg, Function.update (Function.update m.seg .ss (selector ss)) .cs (selector cs),
          eip, eflags, .user esp, h⟩
      | _ => .error .fault
    else .error .fault
  | _ => .error .fault

inductive Event
  /-- An exception, with the error code that the processor pushes, if any. -/
  | exception (n : ℕ) (code : Option Word)
  /-- The instruction `int`. -/
  | int (n : ℕ)
  /-- A line of the interrupt controller. -/
  | irq (n : ℕ)

/-- The exceptions with an error code. -/
def HasErrorCode (n : ℕ) : Prop := n = 8 ∨ 10 ≤ n ∧ n ≤ 14 ∨ n = 17

instance : DecidablePred HasErrorCode := fun _ => inferInstanceAs (Decidable (_ ∨ _))

/-- The events that are possible. The kernel does not use `int`. -/
def Event.Legal (u : Context) : Event → Prop
  | exception n code => n < 32 ∧ (code ≠ none ↔ HasErrorCode n)
  | int n => n < 256 ∧ u.stack.cpl = 3
  | irq n => n < 16

/-- The vector of an event, and the error code. A program may use `int` for a gate of its level. -/
def Event.vector (lay : Layout) (u : Context) : Event → ℕ × Option Word
  | exception n code => (n, code)
  | int n =>
    if u.stack.cpl ≤ (idt lay n).dpl then (n, none) else (13, some (BitVec.ofNat 32 (8 * n + 2)))
  | irq n => (0x20 + n, none)

/-- What comes of an event. -/
def deliver (env : Env) (lay : Layout) (u : Context) (e : Event) : Except Stop Context :=
  let d := idt lay (e.vector lay u).1
  if d.present = true ∧ d.selector = 8 then
    match lay.entryAt d.offset with
    | some entry => entry.run env (enter env u (e.vector lay u).2) >>= iret
    | none => .error .fault
  else .error .fault

/-! ## The IDT -/

variable {env : Env} {lay : Layout} {u u' : Context} {e : Event} {m m' : Machine}

/-- The gate that has been set last is what is in the IDT. -/
theorem foldl_set (lay : Layout) (gs : List Gate) (idt : ℕ → Descriptor) (n : ℕ) :
    (gs.reverse.find? (·.n = n) = none ∧ gs.foldl (Gate.set lay) idt n = idt n) ∨
      ∃ g d, gs.reverse.find? (·.n = n) = some g ∧
        gs.foldl (Gate.set lay) idt n =
        Descriptor.setGate d g.type g.dpl (lay.address g.entry) := by
  induction gs using List.reverseRecOn with
  | nil => exact .inl ⟨rfl, rfl⟩
  | append_singleton gs g ih =>
    rw [List.reverse_append, List.reverse_singleton, List.singleton_append, List.find?_cons,
      List.foldl_append, List.foldl_cons, List.foldl_nil, Gate.set]
    by_cases hg : g.n = n
    · rw [← hg, Function.update_self]
      exact .inr ⟨g, _, by rw [decide_eq_true rfl], rfl⟩
    · rw [Function.update_of_ne (Ne.symm hg), decide_eq_false hg]
      exact ih

/-- The bytes of the IDT lead to the entries. -/
theorem idt_spec (lay : Layout) (n : ℕ) :
    (idt lay n).offset = lay.address (gate n).entry ∧ (idt lay n).selector = 8 ∧
      (idt lay n).kind = (gate n).type ∧ (idt lay n).dpl = (gate n).dpl ∧
      (idt lay n).present = true := by
  have hall : ∀ g ∈ gates, g.type < 16 ∧ g.dpl < 4 := by decide
  rw [gate]
  rcases foldl_set lay gates (fun n => Descriptor.setGate (fun _ => 0) (setupIdt n).type
    (setupIdt n).dpl (lay.address (setupIdt n).entry)) n with ⟨hfind, hidt⟩ | ⟨g, d, hfind, hidt⟩
  · rw [hfind, idt, hidt]
    exact Descriptor.gate_spec _ (show 0xe < 16 by decide) (show 0 < 4 by decide) _
  · have hg := hall g (List.mem_reverse.1 (List.mem_of_find?_eq_some hfind))
    rw [hfind, idt, hidt]
    exact Descriptor.gate_spec d hg.1 hg.2 _

/-- The other gates have the default entry. -/
theorem gate_default {n : ℕ} (hn : 48 ≤ n) (h : n ≠ 0x80) : gate n = setupIdt n := by
  have hall : ∀ g ∈ gates, g.n < 48 ∨ g.n = 0x80 := by decide
  have hnone : gates.reverse.find? (·.n = n) = none := by
    rw [List.find?_eq_none]
    intro g hg
    have := hall g (List.mem_reverse.1 hg)
    simp only [decide_eq_true_eq]
    omega
  rw [gate, hnone]
  rfl

/-- The gates that a program may use with `int`. -/
theorem gate_dpl (n : ℕ) : (gate n).dpl = 3 ∧ (n = 3 ∨ n = 4 ∨ n = 5 ∨ n = 0x80) ∨
    (gate n).dpl = 0 ∧ ¬(n = 3 ∨ n = 4 ∨ n = 5 ∨ n = 0x80) := by
  have hlow : ∀ n < 48, (gate n).dpl = 3 ∧ (n = 3 ∨ n = 4 ∨ n = 5 ∨ n = 0x80) ∨
      (gate n).dpl = 0 ∧ ¬(n = 3 ∨ n = 4 ∨ n = 5 ∨ n = 0x80) := by decide
  by_cases hn : n < 48
  · exact hlow n hn
  · by_cases h : n = 0x80
    · rw [h]
      exact .inl (by decide)
    · rw [gate_default (by omega) h]
      exact .inr ⟨rfl, by omega⟩

/-- An event has an error code exactly when its vector is that of an exception with one. -/
theorem vector_code (lay : Layout) (h : e.Legal u) :
    (e.vector lay u).2 ≠ none ↔ HasErrorCode (e.vector lay u).1 := by
  cases e with
  | exception n code => exact h.2
  | irq n =>
    refine ⟨fun hn => absurd rfl hn, fun hm => ?_⟩
    rw [Event.vector, HasErrorCode] at hm
    omega
  | int n =>
    simp only [Event.vector, (idt_spec lay n).2.2.2.1]
    rcases gate_dpl n with ⟨hd, hn⟩ | ⟨hd, hn⟩
    · rw [hd, h.2, if_pos le_rfl]
      rcases hn with rfl | rfl | rfl | rfl <;> decide
    · rw [hd, h.2, if_neg (by decide)]
      exact ⟨fun _ => show HasErrorCode 13 by decide, fun _ => Option.some_ne_none _⟩

theorem deliver_eq (env : Env) (lay : Layout) (u : Context) (e : Event) : deliver env lay u e =
    (gate (e.vector lay u).1).entry.run env (enter env u (e.vector lay u).2) >>= iret := by
  obtain ⟨hoff, hsel, -, -, hpresent⟩ := idt_spec lay (e.vector lay u).1
  rw [deliver, if_pos ⟨hpresent, hsel⟩, hoff, lay.entryAt_address]

/-! ## Returning -/

/-- The program with another word in a register. -/
def Context.set (u : Context) (r : Reg) (w : Word) : Context :=
  { u with reg := Function.update u.reg r w }

theorem enter_set (env : Env) (u : Context) (r : Reg) (w : Word) :
    enter env (u.set r w) none = (enter env u none).set r w := by
  obtain ⟨reg, seg, eip, eflags, stack, level⟩ := u
  cases stack <;> rfl

/-- The program after a system call: the result is in `eax`, and what the function has left in its
    parameters is in `ebx`, `ecx` and `edx`. -/
def Context.afterCall (env : Env) (u : Context) : Context :=
  (((u.set .ebx (env.left 0 0)).set .ecx (env.left 0 1)).set .edx (env.left 0 2)).set .eax
    (env.result 0)

theorem calls_enter (env : Env) (u : Context) (code : Option Word) :
    (enter env u code).calls = [] := by
  obtain ⟨reg, seg, eip, eflags, stack, level⟩ := u
  cases stack <;> rfl

theorem enter_some (env : Env) (u : Context) (code : Word) :
    enter env u (some code) = (enter env u none).push code := by
  obtain ⟨reg, seg, eip, eflags, stack, level⟩ := u
  cases stack <;> rfl

theorem iret_kernel {reg : Reg → Word} {seg : Seg → Selector} {base eip cs eflags : Word}
    {l : List Item} {ports : List (ℕ × Byte)} {calls : List Call}
    (h : (selector cs &&& 3).toNat = 0) :
    iret ⟨reg, seg, base, .long eip :: .long cs :: .long eflags :: l, ports, calls⟩ =
      .ok ⟨reg, Function.update seg .cs (selector cs), eip, eflags, .kernel base l, h⟩ := dif_pos h

theorem iret_user {reg : Reg → Word} {seg : Seg → Selector} {base eip cs eflags esp ss : Word}
    {l : List Item} {ports : List (ℕ × Byte)} {calls : List Call}
    (h : (selector cs &&& 3).toNat = 3) :
    iret ⟨reg, seg, base, .long eip :: .long cs :: .long eflags :: .long esp :: .long ss :: l,
      ports, calls⟩ =
    .ok ⟨reg, Function.update (Function.update seg .ss (selector ss)) .cs (selector cs), eip,
      eflags, .user esp, h⟩ := by
  have hne : ¬(selector cs &&& 3).toNat = 0 := by rw [h]; decide
  exact (dif_neg hne).trans (dif_pos h)

/-- `iret`, when the processor is as it was before the entry, leads back to the program. -/
theorem iret_leaves (h : Leaves (enter env u none) m) : iret m = .ok u := by
  have hcs : selector (env.word u.seg .cs) = u.seg .cs := Int80.selector_word u.seg .cs
  have hss : selector (env.word u.seg .ss) = u.seg .ss := Int80.selector_word u.seg .ss
  have hlevel := u.level
  rw [← hcs] at hlevel
  obtain ⟨reg, seg, eip, eflags, stack, level⟩ := u
  obtain ⟨mreg, mseg, base, mstack, ports, calls⟩ := m
  obtain ⟨hreg, hseg, hbase, hstack⟩ := h
  dsimp only at hreg hseg hbase hstack hcs hss hlevel
  cases stack with
  | user esp =>
    subst hstack
    refine (iret_user hlevel).trans (congrArg Except.ok (Context.ext (funext hreg) ?_ rfl rfl rfl))
    funext s
    cases s
    case cs => exact hcs
    case ss => exact hss
    all_goals exact hseg _
  | kernel base' items =>
    obtain rfl : base = base' := hbase
    subst hstack
    refine (iret_kernel hlevel).trans
      (congrArg Except.ok (Context.ext (funext hreg) ?_ rfl rfl rfl))
    funext s
    cases s
    case cs => exact hcs
    all_goals exact hseg _

/-- The words that `iret` takes. -/
theorem iret_frame {eip cs : Word} {l : List Item} (h : iret m = .ok u)
    (hstack : m.stack = .long eip :: .long cs :: l) : u.eip = eip ∧ u.seg .cs = selector cs := by
  rw [iret, hstack] at h
  split at h
  · rename_i heq
    obtain ⟨rfl, rfl, -⟩ : _ ∧ _ ∧ _ := by simpa using heq
    split_ifs at h
    · cases h
      exact ⟨rfl, Function.update_self Seg.cs (selector cs) m.seg⟩
    · split at h
      · cases h
        exact ⟨rfl, by simp only [Function.update_self]⟩
      · cases h
  · cases h

/-! ## The entries -/

namespace Entry

/-- The function of an entry that jumps to `no_error_code`. -/
def viaNoErrorCode : Entry → Option CFunction
  | divideError => some .doDivideError
  | debug => some .doInt3
  | nmi => some .doNmi
  | int3 => some .doInt3
  | overflow => some .doOverflow
  | bounds => some .doBounds
  | invalidOp => some .doInvalidOp
  | coprocessorSegmentOverrun => some .doCoprocessorSegmentOverrun
  | reserved => some .doReserved
  | _ => none

/-- The function of an entry that jumps to `error_code`. -/
def viaErrorCode : Entry → Option CFunction
  | deviceNotAvailable => some .doStub
  | doubleFault => some .doDoubleFault
  | invalidTSS => some .doInvalidTSS
  | segmentNotPresent => some .doSegmentNotPresent
  | stackSegment => some .doStackSegment
  | generalProtection => some .doGeneralProtection
  | coprocessorError => some .doStub
  | _ => none

variable {entry : Entry} {f : CFunction}

theorem run_viaNoErrorCode (h : entry.viaNoErrorCode = some f) :
    entry.run env m = noErrorCodeOf env f m := by
  cases entry <;> cases h <;> rfl

theorem run_viaErrorCode (h : entry.viaErrorCode = some f) :
    entry.run env m = errorCodeOf env f m := by
  cases entry <;> cases h <;> rfl

end Entry

/-- The vectors whose entries call `die`, by `no_error_code` and by `error_code`. -/
def dieNoCode (n : ℕ) : Prop :=
  n = 0 ∨ n = 2 ∨ n = 4 ∨ n = 5 ∨ n = 9 ∨ n = 15 ∨
    17 ≤ n ∧ n < 48 ∧ n ≠ 32 ∧ n ≠ 33 ∧ n ≠ 39 ∧ n ≠ 45

def dieCode (n : ℕ) : Prop := n = 6 ∨ n = 8 ∨ 10 ≤ n ∧ n ≤ 13

instance : DecidablePred dieNoCode := fun _ => inferInstanceAs (Decidable (_ ∨ _))

instance : DecidablePred dieCode := fun _ => inferInstanceAs (Decidable (_ ∨ _))

theorem gate_dieNoCode {n : ℕ} (h : dieNoCode n) :
    ∃ f, (gate n).entry.viaNoErrorCode = some f ∧ f.dies = true := by
  have hall : ∀ n < 48, dieNoCode n →
      ((gate n).entry.viaNoErrorCode.map CFunction.dies) = some true := by decide
  have hn : n < 48 := by
    rw [dieNoCode] at h
    omega
  exact Option.map_eq_some_iff.1 (hall n hn h)

theorem gate_dieCode {n : ℕ} (h : dieCode n) :
    ∃ f, (gate n).entry.viaErrorCode = some f ∧ f.dies = true := by
  have hall : ∀ n < 48, dieCode n →
      ((gate n).entry.viaErrorCode.map CFunction.dies) = some true := by decide
  have hn : n < 48 := by
    rw [dieCode] at h
    omega
  exact Option.map_eq_some_iff.1 (hall n hn h)

/-! ## What comes of an event -/

/-- A signal is delivered on the way back to the program. -/
def Signals (env : Env) (u : Context) : Prop :=
  env.first = false ∧ u.seg .cs = 0x0f ∧ u.seg .ss = 0x17 ∧ env.signal &&& ~~~env.blocked ≠ 0

theorem delivers_enter : Delivers env (enter env u none) ↔ Signals env u := by
  have hcs : selector (env.word u.seg .cs) = u.seg .cs := Int80.selector_word u.seg .cs
  have hss : selector (env.word u.seg .ss) = u.seg .ss := Int80.selector_word u.seg .ss
  have hlevel := u.level
  rw [Delivers, Signals]
  obtain ⟨reg, seg, eip, eflags, stack, level⟩ := u
  cases stack with
  | user esp =>
    change env.first = false ∧ some (selector (env.word seg .cs)) = _ ∧
      some (selector (env.word seg .ss)) = _ ∧ _ ↔ _
    rw [hcs, hss, Option.some_inj, Option.some_inj]
  | kernel base items =>
    have hne : seg .cs ≠ 0x0f := fun heq => by
      dsimp only at hlevel
      rw [heq] at hlevel
      exact absurd hlevel (show ¬((0x0f : Selector) &&& 3).toNat = 0 by decide)
    constructor
    · rintro ⟨-, h, -⟩
      change some (selector (env.word seg .cs)) = _ at h
      rw [hcs, Option.some_inj] at h
      exact absurd h hne
    · rintro ⟨-, h, -⟩
      exact absurd h hne

/-- What `die` gets: a pointer to the place of the program. -/
def Reports (env : Env) (u : Context) (c : Call) : Prop :=
  ∃ p, itemAt c.stack 0 = some p ∧ c.load p = some u.eip ∧
    c.load (p + 4) = some (env.word u.seg .cs) ∧ c.load (p + 8) = some u.eflags

theorem Passes.reports {f : CFunction} {code : Word} {c : Call}
    (h : Passes (enter env u none) f code c) : Reports env u c := by
  obtain ⟨p, hp, hload⟩ := h.pointer
  have h0 := hload 0 (by norm_num)
  have h1 := hload 1 (by norm_num)
  have h2 := hload 2 (by norm_num)
  obtain ⟨reg, seg, eip, eflags, stack, level⟩ := u
  rw [BitVec.add_zero] at h0
  refine ⟨p, hp, ?_, ?_, ?_⟩
  · exact h0.trans (by cases stack <;> rfl)
  · exact h1.trans (by cases stack <;> rfl)
  · exact h2.trans (by cases stack <;> rfl)

/-- Without an error code, `error_code` drops the word on top of the stack. -/
theorem errorCodeOf_stack {w : Word} {l : List Item} (hstack : m.stack = .long w :: l) :
    ∃ c, (env.returns m.calls.length = false → errorCodeOf env .doStub m = .error (.dies c)) ∧
      (env.returns m.calls.length = true →
        ∃ m', errorCodeOf env .doStub m = .ok m' ∧ m'.stack = l) := by
  obtain ⟨reg, seg, base, stack, ports, calls⟩ := m
  obtain rfl : stack = _ := hstack
  obtain ⟨c, -, henters⟩ := @errorCodeOf_enters .doStub env ⟨reg, seg, base, l, ports, calls⟩ w rfl
  refine ⟨c, fun hr => henters.dies (.inr hr), fun hr => ?_⟩
  obtain ⟨m', hok, hleaves, -⟩ := henters.leaves rfl hr
  exact ⟨m', hok, hleaves.stack⟩

theorem irq13_errorCode (env : Env) (m : Machine) : ∃ m₁, irq13 env m = errorCodeOf env .doStub m₁ ∧
    m₁.stack = m.stack ∧ m₁.calls = m.calls := ⟨_, rfl, rfl, rfl⟩

theorem stack_enter (env : Env) (u : Context) : ∃ l, (enter env u none).stack =
    .long u.eip :: .long (env.word u.seg .cs) :: .long u.eflags :: l := by
  obtain ⟨reg, seg, eip, eflags, stack, level⟩ := u
  cases stack <;> exact ⟨_, rfl⟩

/-- The entry of the vector `n`, and `iret`. -/
def handle (env : Env) (u : Context) (n : ℕ) (code : Option Word) : Except Stop Context :=
  (gate n).entry.run env (enter env u code) >>= iret

variable {n : ℕ} {code : Option Word}

theorem handle_eq {x : Entry} (hentry : (gate n).entry = x) :
    handle env u n code = x.run env (enter env u code) >>= iret := by
  rw [handle, hentry]

theorem handle_leaves {x : Entry} (hentry : (gate n).entry = x)
    (h : ∃ m', x.run env (enter env u code) = .ok m' ∧ Leaves (enter env u none) m') :
    handle env u n code = .ok u := by
  obtain ⟨m', hrun, hleaves⟩ := h
  rw [handle_eq hentry, hrun]
  exact iret_leaves hleaves

/-- An entry whose function returns leads back to the program; otherwise the kernel stops in the
    function. -/
theorem handle_enters {x : Entry} {f : CFunction} {c : Call} (hentry : (gate n).entry = x)
    (hf : f.dies = false) (h : Enters env (enter env u none) f c (x.run env (enter env u code))) :
    (env.returns 0 = true → handle env u n code = .ok u) ∧
      (env.returns 0 = false → handle env u n code = .error (.dies c)) := by
  obtain ⟨hdies, hleaves⟩ := h
  rw [calls_enter] at hdies hleaves
  refine ⟨fun hr => ?_, fun hr => ?_⟩
  · obtain ⟨m', hok, hleaves, -⟩ := hleaves hf hr
    exact handle_leaves hentry ⟨m', hok, hleaves⟩
  · rw [handle_eq hentry, hdies (.inr hr)]
    rfl

/-- The events after which the program goes on. -/
theorem handle_resumes (hcode : code ≠ none ↔ HasErrorCode n)
    (hn : n = 1 ∨ n = 3 ∨ n = 14 ∨ n = 33 ∨ 48 ≤ n ∧ n ≠ 0x80) :
    (env.returns 0 = true → handle env u n code = .ok u) ∧
      (env.returns 0 = false → ∃ c, handle env u n code = .error (.dies c)) := by
  have hnone : ¬HasErrorCode n → code = none := fun hn => by
    by_contra hc
    exact hn (hcode.1 hc)
  have hint3 : ∀ {x : Entry}, (gate n).entry = x → x.viaNoErrorCode = some .doInt3 →
      ∃ c, (env.returns 0 = true → handle env u n none = .ok u) ∧
        (env.returns 0 = false → handle env u n none = .error (.dies c)) := fun hentry hfun => by
    obtain ⟨c, -, henters⟩ := @noErrorCodeOf_enters .doInt3 env (enter env u none) rfl
    rw [← Entry.run_viaNoErrorCode hfun] at henters
    exact ⟨c, handle_enters hentry rfl henters⟩
  suffices h : ∃ c, (env.returns 0 = true → handle env u n code = .ok u) ∧
      (env.returns 0 = false → handle env u n code = .error (.dies c)) by
    obtain ⟨c, hreturns, hdies⟩ := h
    exact ⟨hreturns, fun hr => ⟨c, hdies hr⟩⟩
  rcases hn with rfl | rfl | rfl | rfl | ⟨hge, hne⟩
  · rw [hnone (by decide)]
    exact hint3 (x := .debug) (by decide) rfl
  · rw [hnone (by decide)]
    exact hint3 (x := .int3) (by decide) rfl
  · obtain ⟨w, rfl⟩ := Option.ne_none_iff_exists'.1 (hcode.2 (by decide))
    obtain ⟨f, c, hf, henters, -⟩ := pageFault_enters env (enter env u none) w
    rw [← enter_some] at henters
    have hdies : f.dies = false := by
      rw [hf]
      split_ifs <;> rfl
    exact ⟨c, handle_enters (x := .pageFault) (by decide) hdies henters⟩
  · rw [hnone (by decide)]
    obtain ⟨c, henters, -⟩ := keyboardInterrupt_enters env (enter env u none)
    exact ⟨c, handle_enters (x := .keyboardInterrupt) (by decide) rfl henters⟩
  · rw [hnone (by rw [HasErrorCode]; omega)]
    obtain ⟨c, henters⟩ := ignoreInt_enters env (enter env u none)
    exact ⟨c, handle_enters (x := .ignoreInt) (by rw [gate_default hge hne]; rfl) rfl henters⟩

theorem handle_parallel : handle env u 39 none = .ok u := by
  obtain ⟨m', hrun, hleaves, -⟩ := parallelInterrupt_leaves env (enter env u none)
  exact handle_leaves (x := .parallelInterrupt) (by decide) ⟨m', hrun, hleaves⟩

/-- From `ret_from_syscall` back to the program, or to a signal. -/
theorem Saved.handle {w : Word} {v : Context} {m₁ : Machine} {entry : Entry}
    (h : Saved env (enter env v none) w m₁) (hentry : (gate n).entry = entry)
    (hrun : entry.run env (enter env u none) = Interrupt.retFromSyscall env m₁) :
    (¬Signals env v → handle env u n none = .ok (v.set .eax w)) ∧
      (Signals env v → ∃ m, Interrupt.handle env u n none = .error (.signal m)) := by
  obtain ⟨hreturns, hsignals⟩ := h.retFromSyscall
  rw [delivers_enter] at hreturns hsignals
  rw [handle_eq hentry, hrun]
  constructor
  · intro hs
    obtain ⟨m', hok, hleaves, -⟩ := hreturns hs
    rw [← enter_set] at hleaves
    rw [hok]
    exact iret_leaves hleaves
  · intro hs
    obtain ⟨m', herr⟩ := hsignals hs
    rw [herr]
    exact ⟨m', rfl⟩

theorem handle_timer :
    (env.returns 0 = true → (¬Signals env u → handle env u 0x20 none = .ok u) ∧
      (Signals env u → ∃ m, handle env u 0x20 none = .error (.signal m))) ∧
    (env.returns 0 = false → ∃ c, handle env u 0x20 none = .error (.dies c)) := by
  have hentry : (gate 0x20).entry = .timerInterrupt := by decide
  obtain ⟨l, hstack⟩ := stack_enter env u
  obtain ⟨c, -, -, hdies, hreturns⟩ := timerInterrupt_saved env hstack
  rw [calls_enter] at hdies hreturns
  refine ⟨fun hr => ?_, fun hr => ⟨c, ?_⟩⟩
  · obtain ⟨m₁, hrun, hsaved, -⟩ := hreturns hr
    have heax : u.set .eax ((enter env u none).reg .eax) = u := by
      obtain ⟨reg, seg, eip, eflags, stack, level⟩ := u
      refine Context.ext ?_ rfl rfl rfl rfl
      cases stack <;> exact Function.update_eq_self _ _
    have hhandle := @Saved.handle env u 0x20 _ u _ .timerInterrupt hsaved hentry hrun
    rwa [heax] at hhandle
  · rw [handle_eq hentry, Entry.run, hdies hr]
    rfl

theorem handle_systemCall :
    (72 < (u.reg .eax).toNat → handle env u 0x80 none = .ok (u.set .eax (-1))) ∧
      ((u.reg .eax).toNat ≤ 72 →
        (env.returns 0 = true → (env.reschedule = true → env.returns 1 = true) →
          (¬Signals env u → handle env u 0x80 none = .ok (u.afterCall env)) ∧
            (Signals env u → ∃ m, handle env u 0x80 none = .error (.signal m))) ∧
        (env.returns 0 = false → ∃ c, handle env u 0x80 none = .error (.dies c))) := by
  have hentry : (gate 0x80).entry = .systemCall := by decide
  have heax : (enter env u none).reg .eax = u.reg .eax := by
    obtain ⟨reg, seg, eip, eflags, stack, level⟩ := u
    cases stack <;> rfl
  constructor
  · intro hlt
    rw [handle_eq hentry, Entry.run, systemCall, heax, if_pos hlt, ← enter_set]
    exact iret_leaves ⟨fun _ => rfl, fun _ => rfl, rfl, rfl⟩
  · intro hle
    obtain ⟨c, -, -, hdies, hreturns⟩ := systemCall_saved env (enter env u none) (by rwa [heax])
    rw [Machine.afterCall] at hreturns
    rw [calls_enter] at hdies hreturns
    simp only [← enter_set] at hreturns
    refine ⟨fun hr hr' => ?_, fun hr => ⟨c, ?_⟩⟩
    · obtain ⟨m₁, l, hrun, hsaved, -⟩ := hreturns hr hr'
      exact hsaved.handle hentry hrun
    · rw [handle_eq hentry, Entry.run, hdies hr]
      rfl

/-- The exceptions that stop the kernel. -/
theorem handle_dies (hcode : code ≠ none ↔ HasErrorCode n) (hn : dieNoCode n ∨ dieCode n) :
    ∃ c, handle env u n code = .error (.dies c) ∧ (n ≠ 6 → n ≠ 17 → Reports env u c) := by
  have hdies : ∀ {m : Machine} {f : CFunction} {c : Call} {r : Except Stop Machine},
      f.dies = true → Enters env m f c r → (r >>= iret) = .error (.dies c) := by
    intro m f c r hf henters
    rw [henters.dies (.inl hf)]
    rfl
  have hparams : ∀ {f : CFunction}, f.dies = true → f.params = 2 := fun {f} hf => by
    cases f <;> first | rfl | cases hf
  rcases hn with hn | hn
  · obtain ⟨f, hvia, hf⟩ := gate_dieNoCode hn
    obtain ⟨c, hpasses, henters⟩ := noErrorCodeOf_enters env (enter env u code) (hparams hf)
    refine ⟨c, ?_, fun _ h17 => ?_⟩
    · rw [handle, Entry.run_viaNoErrorCode hvia]
      exact hdies hf henters
    · have hmem : ¬HasErrorCode n := by
        rw [dieNoCode] at hn
        rw [HasErrorCode]
        omega
      obtain rfl : code = none := by
        by_contra hc
        exact hmem (hcode.1 hc)
      exact hpasses.reports
  · obtain ⟨f, hvia, hf⟩ := gate_dieCode hn
    cases code with
    | some w =>
      obtain ⟨c, hpasses, henters⟩ := errorCodeOf_enters env (enter env u none) w (hparams hf)
      refine ⟨c, ?_, fun _ _ => hpasses.reports⟩
      rw [handle, Entry.run_viaErrorCode hvia, enter_some]
      exact hdies hf henters
    | none =>
      -- only `double_fault` for the vector 6 has no error code
      obtain rfl : n = 6 := by
        have hmem : ¬HasErrorCode n := fun hm => hcode.2 hm rfl
        rw [dieCode] at hn
        rw [HasErrorCode] at hmem
        omega
      obtain ⟨l, hstack⟩ := stack_enter env u
      obtain ⟨c, -, henters⟩ := errorCodeOf_enters env
        { enter env u none with stack := .long (env.word u.seg .cs) :: .long u.eflags :: l } u.eip
        (hparams hf)
      refine ⟨c, ?_, fun h6 => absurd rfl h6⟩
      have hpush : enter env u none = Machine.push { enter env u none with
          stack := .long (env.word u.seg .cs) :: .long u.eflags :: l } u.eip := by
        rw [Machine.push, ← hstack]
      rw [handle, Entry.run_viaErrorCode hvia, hpush]
      exact hdies hf henters

/-- `do_stub` returns through a frame without an error code. -/
theorem handle_stub (hn : n = 7 ∨ n = 16 ∨ n = 45) :
    (∀ u', handle env u n none = .ok u' →
      u'.eip = env.word u.seg .cs ∧ u'.seg .cs = selector u.eflags) ∧
    (env.returns 0 = false → ∃ c, handle env u n none = .error (.dies c)) := by
  obtain ⟨l, hstack⟩ := stack_enter env u
  obtain ⟨m₁, hrun, hstack₁, hcalls₁⟩ : ∃ m₁,
      (gate n).entry.run env (enter env u none) = errorCodeOf env .doStub m₁ ∧
        m₁.stack = (enter env u none).stack ∧ m₁.calls = (enter env u none).calls := by
    rcases hn with rfl | rfl | rfl
    · exact ⟨_, rfl, rfl, rfl⟩
    · exact ⟨_, rfl, rfl, rfl⟩
    · exact irq13_errorCode env _
  obtain ⟨c, hdies, hreturns⟩ := @errorCodeOf_stack env m₁ _ _ (hstack₁.trans hstack)
  rw [hcalls₁, calls_enter] at hdies hreturns
  rw [handle, hrun]
  refine ⟨fun u' h => ?_, fun hr => ⟨c, by rw [hdies hr]; rfl⟩⟩
  cases hr : env.returns 0 with
  | false =>
    rw [hdies hr] at h
    cases h
  | true =>
    obtain ⟨m', hok, hstack'⟩ := hreturns hr
    rw [hok] at h
    exact iret_frame h hstack'

/-- If the function does not return, the kernel stops in it. -/
theorem handle_stops (hcode : code ≠ none ↔ HasErrorCode n) (hr : env.returns 0 = false)
    (hn : n ≠ 39) (heax : n = 0x80 → (u.reg .eax).toNat ≤ 72) :
    ∃ c, handle env u n code = .error (.dies c) := by
  have hnone : ¬HasErrorCode n → code = none := fun hn => by
    by_contra hc
    exact hn (hcode.1 hc)
  have hcases : (n = 1 ∨ n = 3 ∨ n = 14 ∨ n = 33 ∨ 48 ≤ n ∧ n ≠ 0x80) ∨ n = 0x20 ∨ n = 0x80 ∨
      (dieNoCode n ∨ dieCode n) ∨ n = 7 ∨ n = 16 ∨ n = 45 := by
    rw [dieNoCode, dieCode]
    omega
  rcases hcases with h | rfl | rfl | h | h
  · exact (handle_resumes hcode h).2 hr
  · rw [hnone (by decide)]
    exact handle_timer.2 hr
  · rw [hnone (by decide)]
    exact (handle_systemCall.2 (heax rfl)).2 hr
  · obtain ⟨c, hdies, -⟩ : ∃ c, handle env u n code = .error (.dies c) ∧ _ := handle_dies hcode h
    exact ⟨c, hdies⟩
  · rw [hnone (by rcases h with h | h | h <;> rw [h] <;> decide)]
    exact (handle_stub h).2 hr

/-- The functions at the addresses from `0x3000` on. -/
def rowFunctions : List CFunction :=
  [.doDivideError, .doInt3, .doNmi, .doOverflow, .doBounds, .doInvalidOp,
    .doCoprocessorSegmentOverrun, .doReserved, .doDoubleFault, .doInvalidTSS, .doSegmentNotPresent,
    .doStackSegment, .doGeneralProtection, .doStub, .doNoPage, .doWpPage, .printk, .doTimer,
    .doKeyboardInterrupt, .sysCall, .schedule]

def rowEntries : List Entry :=
  [.divideError, .debug, .nmi, .int3, .overflow, .bounds, .invalidOp, .deviceNotAvailable,
    .doubleFault, .coprocessorSegmentOverrun, .invalidTSS, .segmentNotPresent, .stackSegment,
    .generalProtection, .pageFault, .reserved, .coprocessorError, .irq13, .parallelInterrupt,
    .timerInterrupt, .systemCall, .keyboardInterrupt, .ignoreInt]

def rowEnv : Env where
  upper _ := 0
  address _ := 0
  scratch _ := (1, 2)
  esp0 := 0x2000
  cr2 := 0
  input := 0
  returns _ := true
  result _ := 3
  left _ k := BitVec.ofNat 32 (6 + k)
  function f := BitVec.ofNat 32 (0x3000 + rowFunctions.idxOf f)
  functionAt w := rowFunctions[w.toNat - 0x3000]?
  functionAt_function f := by cases f <;> rfl
  intMsg := 0
  current := 0x1000
  first := true
  reschedule := false
  signal := 0
  blocked := 0

def rowLayout : Layout where
  address entry := BitVec.ofNat 32 (0x4000 + rowEntries.idxOf entry)
  entryAt w := rowEntries[w.toNat - 0x4000]?
  entryAt_address entry := by cases entry <;> rfl

/-- A program in user mode, whose registers hold 5. -/
def rowProgram : Context where
  reg _ := 5
  seg s := if s = .cs then 0x0f else 0x17
  eip := 0x100
  eflags := 0x202
  stack := .user 0x800
  level := by decide

end NeuOs.Interrupt
