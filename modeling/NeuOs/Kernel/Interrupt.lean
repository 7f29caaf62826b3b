import NeuOs.Kernel.SystemCall

/-!
# The entries of the interrupts (kernel/asm.s, mm/page.s, kernel/system_call.s, boot/head.s)

An entry saves the registers on the kernel stack, loads the segments of the kernel, calls a function
in C, and takes the registers back. Some have an error code below the return address, which the
processor has pushed, and which they drop.

A function in C may assign to its parameters, which are words on the stack. Most entries drop them;
but those of a system call are the saved registers `ebx`, `ecx` and `edx`.

Each other entry whose function returns leaves the registers and the stack as they were before,
whatever they hold (`Leaves`): `no_error_code` with what is on the stack at the entry, `error_code`
without the word on top of it.
-/

namespace NeuOs.Interrupt

open Int80 (Reg Seg Selector selector)

/-! ## The processor -/

/-- The functions in C that the entries call. -/
inductive CFunction
  | doDivideError
  | doInt3
  | doNmi
  | doOverflow
  | doBounds
  | doInvalidOp
  | doCoprocessorSegmentOverrun
  | doReserved
  | doDoubleFault
  | doInvalidTSS
  | doSegmentNotPresent
  | doStackSegment
  | doGeneralProtection
  | doStub
  | doNoPage
  | doWpPage
  | printk
  | doTimer
  | doKeyboardInterrupt
  /-- A function of `sys_call_table`. -/
  | sysCall
  | schedule
  deriving DecidableEq

/-- The functions of kernel/traps.c that call `die`, which never returns. -/
def CFunction.dies : CFunction → Bool
  | .doInt3 | .doStub | .doNoPage | .doWpPage | .printk | .doTimer | .doKeyboardInterrupt | .sysCall
  | .schedule => false
  | _ => true

/-- The number of parameters that an entry pushes for the function. (`do_int3` also reads the saved
    registers as parameters, but assigns to none of them.) -/
def CFunction.params : CFunction → ℕ
  | .schedule => 0
  | .printk | .doTimer | .doKeyboardInterrupt => 1
  | .sysCall => 3
  | _ => 2

/-- What is pushed: a word, or half a word. -/
inductive Item
  | long (w : Word)
  | short (h : BitVec 16)

def Item.size : Item → ℕ
  | .long _ => 4
  | .short _ => 2

/-- The word `n` bytes from the top of the stack. -/
def itemAt : List Item → ℕ → Option Word
  | [], _ => none
  | .long w :: l, n => if n = 0 then some w else if n < 4 then none else itemAt l (n - 4)
  | .short _ :: l, n => if n < 2 then none else itemAt l (n - 2)

/-- The word `n` bytes from the top of the stack is replaced. -/
def setItem (v : Word) : List Item → ℕ → Option (List Item)
  | [], _ => none
  | .long w :: l, n =>
    if n = 0 then some (.long v :: l)
    else if n < 4 then none
    else (setItem v l (n - 4)).map (.long w :: ·)
  | .short h :: l, n => if n < 2 then none else (setItem v l (n - 2)).map (.short h :: ·)

/-- A function in C has assigned `left` to its parameters, on top of the stack. -/
def assign (left : ℕ → Word) : ℕ → List Item → List Item
  | 0, l => l
  | _ + 1, [] => []
  | n + 1, .long _ :: l => .long (left 0) :: assign (fun k => left (k + 1)) n l
  | n + 1, .short _ :: l => .short ((left 0).setWidth 16) :: assign (fun k => left (k + 1)) n l

/-- A call of a function in C, with the stack pointer and what is on the stack. -/
structure Call where
  function : CFunction
  esp : Word
  stack : List Item

/-- The processor in kernel mode: the stack ends at the address `base`. The bytes that it has
    written to ports and the calls are there for what is said about them, the last one first. -/
structure Machine where
  reg : Reg → Word
  seg : Seg → Selector
  base : Word
  stack : List Item
  ports : List (ℕ × Byte)
  calls : List Call

/-- What the entries do not determine. -/
structure Env extends Int80.Env where
  /-- The stack pointer at which the kernel stack of the task begins. -/
  esp0 : Word
  /-- The address that caused the last page fault. -/
  cr2 : Word
  /-- The byte that is read from the port `0x60`. -/
  input : Byte
  /-- Whether the calls of the functions in C return, what they return, and the words that they
      leave in their parameters. -/
  returns : ℕ → Bool
  result : ℕ → Word
  left : ℕ → ℕ → Word
  /-- The addresses of the functions. -/
  function : CFunction → Word
  functionAt : Word → Option CFunction
  functionAt_function : ∀ f, functionAt (function f) = some f
  intMsg : Word
  /-- The task that runs: where it is, whether it is the first one or `schedule` is called for it,
      its signals and those it blocks. -/
  current : Word
  first : Bool
  reschedule : Bool
  signal : Word
  blocked : Word

/-- Why an entry does not come to its `iret`. -/
inductive Stop
  /-- The function does not return. -/
  | dies (c : Call)
  /-- A signal is delivered. -/
  | signal (m : Machine)
  /-- What the code expects on the stack is not there. -/
  | fault

namespace Machine

variable (m : Machine)

def esp : Word := m.base - BitVec.ofNat 32 (m.stack.map Item.size).sum

/-- The address `n(%esp)`. -/
def address (n : ℕ) : Word := m.esp + BitVec.ofNat 32 n

def set (r : Reg) (w : Word) : Machine := { m with reg := Function.update m.reg r w }

def setSeg (s : Seg) (w : Word) : Machine := { m with seg := Function.update m.seg s (selector w) }

def push (w : Word) : Machine := { m with stack := .long w :: m.stack }

/-- A function in C has returned: it has kept `ebx`, `ebp`, `esi` and `edi`, and the stack but for
    its parameters. -/
def returned (env : Env) (f : CFunction) : Machine :=
  { reg := Function.update (Function.update (Function.update m.reg .eax (env.result m.calls.length))
      .ecx (env.scratch m.calls.length).1) .edx (env.scratch m.calls.length).2
    seg := m.seg
    base := m.base
    stack := assign (env.left m.calls.length) f.params m.stack
    ports := m.ports
    calls := ⟨f, m.esp, m.stack⟩ :: m.calls }

/-- A call of a function in C, which may panic, or exit. -/
def call (env : Env) (f : CFunction) : Except Stop Machine :=
  if f.dies || !env.returns m.calls.length then .error (.dies ⟨f, m.esp, m.stack⟩)
  else .ok (m.returned env f)

end Machine

/-- The instructions without a jump. -/
inductive Instr
  | push (r : Reg)
  | pushSeg (s : Seg)
  /-- `pushl $imm` -/
  | pushl (imm : Word)
  /-- `push %ax` -/
  | pushAx
  | pop (r : Reg)
  | popSeg (s : Seg)
  /-- `pop %ax` -/
  | popAx
  | movl (imm : Word) (r : Reg)
  /-- `movb $imm, %al` -/
  | movb (imm : Byte)
  | mov (r : Reg) (s : Seg)
  /-- `movl n(%esp), r` -/
  | load (n : ℕ) (r : Reg)
  /-- `movl %cr2, r` -/
  | movCr2 (r : Reg)
  | andl (imm : Word) (r : Reg)
  /-- `addl $n, %esp` -/
  | addEsp (n : ℕ)
  /-- `lea n(%esp), r` -/
  | lea (n : ℕ) (r : Reg)
  /-- `xchgl r, n(%esp)` -/
  | xchg (r : Reg) (n : ℕ)
  /-- `inb $0x60, %al` -/
  | inb
  /-- `outb %al, $port` -/
  | outb (port : ℕ)

/-- `addl $n, %esp`, which drops words. -/
def dropItems : ℕ → List Item → Option (List Item)
  | 0, l => some l
  | n + 1, l =>
    match l with
    | .long _ :: l => if n < 3 then none else dropItems (n - 3) l
    | _ => none

def Instr.exec (env : Env) (m : Machine) : Instr → Except Stop Machine
  | .push r => .ok (m.push (m.reg r))
  | .pushSeg s => .ok (m.push (env.word m.seg s))
  | .pushl imm => .ok (m.push imm)
  | .pushAx => .ok { m with stack := .short ((m.reg .eax).setWidth 16) :: m.stack }
  | .pop r =>
    match m.stack with
    | .long w :: l => .ok ({ m with stack := l }.set r w)
    | _ => .error .fault
  | .popSeg s =>
    match m.stack with
    | .long w :: l => .ok ({ m with stack := l }.setSeg s w)
    | _ => .error .fault
  | .popAx =>
    match m.stack with
    | .short h :: l => .ok ({ m with stack := l }.set .eax ((m.reg .eax).extractLsb' 16 16 ++ h))
    | _ => .error .fault
  | .movl imm r => .ok (m.set r imm)
  | .movb imm => .ok (m.set .eax (setByte (m.reg .eax) 0 imm))
  | .mov r s => .ok (m.setSeg s (m.reg r))
  | .load n r =>
    match itemAt m.stack n with
    | some w => .ok (m.set r w)
    | none => .error .fault
  | .movCr2 r => .ok (m.set r env.cr2)
  | .andl imm r => .ok (m.set r (m.reg r &&& imm))
  | .addEsp n =>
    match dropItems n m.stack with
    | some l => .ok { m with stack := l }
    | none => .error .fault
  | .lea n r => .ok (m.set r (m.address n))
  | .xchg r n =>
    match itemAt m.stack n, setItem (m.reg r) m.stack n with
    | some w, some l => .ok ({ m with stack := l }.set r w)
    | _, _ => .error .fault
  | .inb => .ok (m.set .eax (setByte (m.reg .eax) 0 env.input))
  | .outb port => .ok { m with ports := (port, getByte (m.reg .eax) 0) :: m.ports }

/-- Instructions one after the other. -/
def execAll (env : Env) (prog : List Instr) (m : Machine) : Except Stop Machine :=
  prog.foldlM (Instr.exec env) m

/-- `call *r` -/
def callReg (env : Env) (r : Reg) (m : Machine) : Except Stop Machine :=
  match env.functionAt (m.reg r) with
  | some f => m.call env f
  | none => .error .fault

/-! ## kernel/asm.s -/

/-- `no_error_code`, up to the call. -/
def noErrorCodePush : List Instr :=
  [.xchg .eax 0, .push .ebx, .push .ecx, .push .edx, .push .edi, .push .esi, .push .ebp,
    .pushSeg .ds, .pushSeg .es, .pushSeg .fs, .pushl 0, .lea 44 .edx, .push .edx, .movl 0x10 .edx,
    .mov .edx .ds, .mov .edx .es, .mov .edx .fs]

/-- `no_error_code`, after the call, up to `iret`. -/
def noErrorCodePop : List Instr :=
  [.addEsp 8, .popSeg .fs, .popSeg .es, .popSeg .ds, .pop .ebp, .pop .esi, .pop .edi, .pop .edx,
    .pop .ecx, .pop .ebx, .pop .eax]

/-- `no_error_code`, up to `iret`. -/
def noErrorCode (env : Env) (m : Machine) : Except Stop Machine := do
  let m ← execAll env noErrorCodePush m
  let m ← callReg env .eax m
  execAll env noErrorCodePop m

/-- `error_code`, up to the call. -/
def errorCodePush : List Instr :=
  [.xchg .eax 4, .xchg .ebx 0, .push .ecx, .push .edx, .push .esi, .push .edi, .push .ebp,
    .pushSeg .ds, .pushSeg .es, .pushSeg .fs, .push .eax, .lea 44 .eax, .push .eax,
    .movl 0x10 .eax, .mov .eax .ds, .mov .eax .es, .mov .eax .fs]

/-- `error_code`, after the call, up to `iret`. -/
def errorCodePop : List Instr :=
  [.addEsp 8, .popSeg .fs, .popSeg .es, .popSeg .ds, .pop .ebp, .pop .edi, .pop .esi, .pop .edx,
    .pop .ecx, .pop .ebx, .pop .eax]

/-- `error_code`, up to `iret`. -/
def errorCode (env : Env) (m : Machine) : Except Stop Machine := do
  let m ← execAll env errorCodePush m
  let m ← callReg env .ebx m
  execAll env errorCodePop m

/-- An entry that pushes its function and jumps to `no_error_code`. -/
def noErrorCodeOf (env : Env) (f : CFunction) (m : Machine) : Except Stop Machine :=
  noErrorCode env (m.push (env.function f))

/-- An entry that pushes its function and jumps to `error_code`. -/
def errorCodeOf (env : Env) (f : CFunction) (m : Machine) : Except Stop Machine :=
  errorCode env (m.push (env.function f))

def irq13 (env : Env) (m : Machine) : Except Stop Machine := do
  let m ← execAll env
    [.push .eax, .movb 0, .outb 0xf0, .movb 0x20, .outb 0x20, .outb 0xa0, .pop .eax] m
  errorCodeOf env .doStub m

def parallelInterrupt (env : Env) (m : Machine) : Except Stop Machine :=
  execAll env [.push .eax, .movb 0x20, .outb 0x20, .pop .eax] m

/-! ## mm/page.s, boot/head.s and kernel/chr_drv/keyboard.s -/

/-- `page_fault`, up to the call. -/
def pageFaultPush : List Instr :=
  [.xchg .eax 0, .push .ecx, .push .edx, .pushSeg .ds, .pushSeg .es, .pushSeg .fs, .movl 0x10 .edx,
    .mov .edx .ds, .mov .edx .es, .mov .edx .fs, .movCr2 .edx, .push .edx, .push .eax]

/-- `page_fault`, after the call, up to `iret`. -/
def pageFaultPop : List Instr :=
  [.addEsp 8, .popSeg .fs, .popSeg .es, .popSeg .ds, .pop .edx, .pop .ecx, .pop .eax]

def pageFault (env : Env) (m : Machine) : Except Stop Machine := do
  let m ← execAll env pageFaultPush m
  let m ← m.call env (if m.reg .eax &&& 1 = 0 then .doNoPage else .doWpPage)
  execAll env pageFaultPop m

def ignoreInt (env : Env) (m : Machine) : Except Stop Machine := do
  let m ← execAll env
    [.push .eax, .push .ecx, .push .edx, .pushSeg .ds, .pushSeg .es, .pushSeg .fs, .movl 0x10 .eax,
      .mov .eax .ds, .mov .eax .es, .mov .eax .fs, .pushl env.intMsg] m
  let m ← m.call env .printk
  execAll env
    [.pop .eax, .popSeg .fs, .popSeg .es, .popSeg .ds, .pop .edx, .pop .ecx, .pop .eax] m

def keyboardInterrupt (env : Env) (m : Machine) : Except Stop Machine := do
  let m ← execAll env
    [.push .eax, .push .ebx, .push .ecx, .push .edx, .pushSeg .ds, .pushSeg .es, .movl 0x10 .eax,
      .mov .eax .ds, .mov .eax .es, .movb 0, .inb, .pushAx, .movb 0x20, .outb 0x20] m
  let m ← m.call env .doKeyboardInterrupt
  execAll env
    [.popAx, .popSeg .es, .popSeg .ds, .pop .edx, .pop .ecx, .pop .ebx, .pop .eax] m

/-! ## kernel/system_call.s -/

/-- From the label `3`. -/
def restore (env : Env) (m : Machine) : Except Stop Machine :=
  execAll env [.pop .eax, .pop .ebx, .pop .ecx, .pop .edx, .popSeg .fs, .popSeg .es, .popSeg .ds] m

/-- `ret_from_syscall`, up to the delivery of a signal. -/
def retFromSyscall (env : Env) (m : Machine) : Except Stop Machine :=
  let m := m.set .eax env.current
  if env.first then restore env m
  else if (itemAt m.stack 0x20).map selector ≠ some 0x0f then restore env m
  else if (itemAt m.stack 0x2c).map selector ≠ some 0x17 then restore env m
  else
    let m := m.set .ebx env.signal
    let m := m.set .ecx (env.signal &&& ~~~env.blocked)
    if env.signal &&& ~~~env.blocked = 0 then restore env m else .error (.signal m)

def systemCall (env : Env) (m : Machine) : Except Stop Machine :=
  if 72 < (m.reg .eax).toNat then .ok (m.set .eax (-1))
  else do
    let m ← execAll env
      [.pushSeg .ds, .pushSeg .es, .pushSeg .fs, .push .edx, .push .ecx, .push .ebx,
        .movl 0x10 .edx, .mov .edx .ds, .mov .edx .es, .movl 0x17 .edx, .mov .edx .fs] m
    let m ← m.call env .sysCall
    let m := (m.push (m.reg .eax)).set .eax env.current
    if env.reschedule then do
      let m ← m.call env .schedule
      retFromSyscall env m
    else retFromSyscall env m

def timerInterrupt (env : Env) (m : Machine) : Except Stop Machine := do
  let m ← execAll env
    [.pushSeg .ds, .pushSeg .es, .pushSeg .fs, .push .edx, .push .ecx, .push .ebx, .push .eax,
      .movl 0x10 .eax, .mov .eax .ds, .mov .eax .es, .movl 0x17 .eax, .mov .eax .fs, .movb 0x20,
      .outb 0x20, .load 0x20 .eax, .andl 3 .eax, .push .eax] m
  let m ← m.call env .doTimer
  let m ← execAll env [.addEsp 4] m
  retFromSyscall env m

/-! ## What is on the stack of a call -/

variable {env : Env} {m m' : Machine} {f : CFunction} {c : Call} {code : Word}

/-- The word at an address on the stack of a call. -/
def Call.load (c : Call) (a : Word) : Option Word := itemAt c.stack (a - c.esp).toNat

theorem itemAt_append (ws : List Word) (l : List Item) (n : ℕ) :
    itemAt (ws.map Item.long ++ l) (4 * ws.length + n) = itemAt l n := by
  induction ws with
  | nil => rw [List.length_nil, Nat.mul_zero, Nat.zero_add]; rfl
  | cons w ws ih =>
    rw [List.map_cons, List.cons_append, itemAt, List.length_cons, if_neg (by omega),
      if_neg (by omega), ← ih]
    congr 1
    omega

theorem sum_append (ws : List Word) (l : List Item) :
    ((ws.map Item.long ++ l).map Item.size).sum = 4 * ws.length + (l.map Item.size).sum := by
  induction ws with
  | nil => rw [List.length_nil, Nat.mul_zero, Nat.zero_add]; rfl
  | cons w ws ih =>
    rw [List.map_cons, List.cons_append, List.map_cons, List.sum_cons, ih, List.length_cons]
    simp only [Item.size]
    omega

/-- The call gets a pointer to what was on the stack at the entry, and the error code. -/
structure Passes (m : Machine) (f : CFunction) (code : Word) (c : Call) : Prop where
  function : c.function = f
  pointer : ∃ p, itemAt c.stack 0 = some p ∧
    ∀ k < 5, c.load (p + BitVec.ofNat 32 (4 * k)) = itemAt m.stack (4 * k)
  code : itemAt c.stack 4 = some code

/-- The pointer is right if it has been computed with 11 words on the stack, and is passed on top
    of them. -/
theorem Passes.of_lea {m₀ m₁ : Machine} {ws : List Word} {p : Word} (hws : ws.length = 10)
    (hbase₁ : m₁.base = m.base) (hstack₁ : m₁.stack = (p :: code :: ws).map Item.long ++ m.stack)
    (hp : p = m₀.address 44) (hbase₀ : m₀.base = m.base)
    (hstack₀ : m₀.stack = (code :: ws).map Item.long ++ m.stack) :
    Passes m f code ⟨f, m₁.esp, m₁.stack⟩ := by
  refine ⟨rfl, ⟨p, by rw [hstack₁]; rfl, fun k hk => ?_⟩, by rw [hstack₁]; rfl⟩
  rw [Call.load, ← itemAt_append (p :: code :: ws) m.stack (4 * k)]
  dsimp only
  rw [hstack₁]
  congr 1
  rw [hp, Machine.address, Machine.esp, Machine.esp, hbase₀, hbase₁, hstack₀, hstack₁, sum_append,
    sum_append]
  simp only [List.length_cons, hws]
  bv_omega

/-! ## What the entries leave -/

/-- The processor is as before, but for the ports and the calls. -/
structure Leaves (m m' : Machine) : Prop where
  reg : ∀ r, m'.reg r = m.reg r
  seg : ∀ s, m'.seg s = m.seg s
  base : m'.base = m.base
  stack : m'.stack = m.stack

/-- An entry calls `f`, by the call `c`; if the function returns, it leaves the processor `m`. -/
structure Enters (env : Env) (m : Machine) (f : CFunction) (c : Call) (r : Except Stop Machine) :
    Prop where
  dies : f.dies = true ∨ env.returns m.calls.length = false → r = .error (.dies c)
  leaves : f.dies = false → env.returns m.calls.length = true →
    ∃ m', r = .ok m' ∧ Leaves m m' ∧ m'.calls = c :: m.calls

theorem selector_push (env : Env) (m : Machine) (s : Seg) : selector (env.word m.seg s) = m.seg s :=
  Int80.selector_word m.seg s

theorem Machine.call_dies (h : f.dies = true ∨ env.returns m.calls.length = false) :
    m.call env f = .error (.dies ⟨f, m.esp, m.stack⟩) := by
  rw [Machine.call, if_pos]
  rcases h with h | h <;> rw [h]
  · rfl
  · exact Bool.or_true _

theorem Machine.call_returns (hf : f.dies = false) (hr : env.returns m.calls.length = true) :
    m.call env f = .ok (m.returned env f) := by
  rw [Machine.call, hf, hr]
  rfl

theorem Enters.of_call {m₁ m₂ : Machine} {f : CFunction} {k : Machine → Except Stop Machine}
    (hcalls₁ : m₁.calls = m.calls) (hk : k (m₁.returned env f) = .ok m₂) (hleaves : Leaves m m₂)
    (hcalls : m₂.calls = ⟨f, m₁.esp, m₁.stack⟩ :: m.calls) :
    Enters env m f ⟨f, m₁.esp, m₁.stack⟩ (m₁.call env f >>= k) := by
  refine ⟨fun hf => ?_, fun hf hr => ⟨m₂, ?_, hleaves, hcalls⟩⟩
  · rw [Machine.call_dies (hcalls₁ ▸ hf)]
    rfl
  · rw [Machine.call_returns hf (hcalls₁ ▸ hr)]
    exact hk

theorem callReg_function {r : Reg} (h : m.reg r = env.function f) :
    callReg env r m = m.call env f := by
  rw [callReg, h, env.functionAt_function]

theorem noErrorCodeOf_enters (env : Env) (m : Machine) (hf : f.params = 2) :
    ∃ c, Passes m f 0 c ∧ Enters env m f c (noErrorCodeOf env f m) := by
  obtain ⟨m₁, hpush, hfun, hp, hcalls₁, m₂, hpop, hleaves, hcalls⟩ : ∃ m₁,
      execAll env noErrorCodePush (m.push (env.function f)) = .ok m₁ ∧
      m₁.reg .eax = env.function f ∧ Passes m f 0 ⟨f, m₁.esp, m₁.stack⟩ ∧ m₁.calls = m.calls ∧
      ∃ m₂, execAll env noErrorCodePop (m₁.returned env f) = .ok m₂ ∧ Leaves m m₂ ∧
        m₂.calls = ⟨f, m₁.esp, m₁.stack⟩ :: m.calls := by
    simp only [Machine.returned, hf]
    refine ⟨_, rfl, rfl, ?_, rfl, _, rfl, ⟨fun r => by cases r <;> rfl, fun s => ?_, rfl, rfl⟩, rfl⟩
    · exact @Passes.of_lea m f 0 _ _ [env.word m.seg .fs, env.word m.seg .es, env.word m.seg .ds,
        m.reg .ebp, m.reg .esi, m.reg .edi, m.reg .edx, m.reg .ecx, m.reg .ebx, m.reg .eax]
        _ rfl rfl rfl rfl rfl rfl
    · cases s
      case ds => exact selector_push env m .ds
      case es => exact selector_push env m .es
      case fs => exact selector_push env m .fs
      all_goals rfl
  refine ⟨_, hp, ?_⟩
  have hrun : noErrorCodeOf env f m = m₁.call env f >>= execAll env noErrorCodePop := by
    rw [noErrorCodeOf, noErrorCode, hpush, ← callReg_function hfun]
    rfl
  rw [hrun]
  exact .of_call hcalls₁ hpop hleaves hcalls

theorem errorCodeOf_enters (env : Env) (m : Machine) (code : Word) (hf : f.params = 2) :
    ∃ c, Passes m f code c ∧ Enters env m f c (errorCodeOf env f (m.push code)) := by
  obtain ⟨m₁, hpush, hfun, hp, hcalls₁, m₂, hpop, hleaves, hcalls⟩ : ∃ m₁,
      execAll env errorCodePush ((m.push code).push (env.function f)) = .ok m₁ ∧
      m₁.reg .ebx = env.function f ∧ Passes m f code ⟨f, m₁.esp, m₁.stack⟩ ∧ m₁.calls = m.calls ∧
      ∃ m₂, execAll env errorCodePop (m₁.returned env f) = .ok m₂ ∧ Leaves m m₂ ∧
        m₂.calls = ⟨f, m₁.esp, m₁.stack⟩ :: m.calls := by
    simp only [Machine.returned, hf]
    refine ⟨_, rfl, rfl, ?_, rfl, _, rfl, ⟨fun r => by cases r <;> rfl, fun s => ?_, rfl, rfl⟩, rfl⟩
    · exact @Passes.of_lea m f code _ _ [env.word m.seg .fs, env.word m.seg .es, env.word m.seg .ds,
        m.reg .ebp, m.reg .edi, m.reg .esi, m.reg .edx, m.reg .ecx, m.reg .ebx, m.reg .eax]
        _ rfl rfl rfl rfl rfl rfl
    · cases s
      case ds => exact selector_push env m .ds
      case es => exact selector_push env m .es
      case fs => exact selector_push env m .fs
      all_goals rfl
  refine ⟨_, hp, ?_⟩
  have hrun : errorCodeOf env f (m.push code) = m₁.call env f >>= execAll env errorCodePop := by
    rw [errorCodeOf, errorCode, hpush, ← callReg_function hfun]
    rfl
  rw [hrun]
  exact .of_call hcalls₁ hpop hleaves hcalls

/-- The segments that an entry has pushed come back. -/
theorem seg_leaves {g : Seg → Selector} (env : Env) (m : Machine)
    (hds : g .ds = selector (env.word m.seg .ds)) (hes : g .es = selector (env.word m.seg .es))
    (hfs : g .fs = selector (env.word m.seg .fs)) (hcs : g .cs = m.seg .cs)
    (hss : g .ss = m.seg .ss) (hgs : g .gs = m.seg .gs) (s : Seg) : g s = m.seg s := by
  cases s with
  | ds => rw [hds, selector_push]
  | es => rw [hes, selector_push]
  | fs => rw [hfs, selector_push]
  | cs => exact hcs
  | ss => exact hss
  | gs => exact hgs

theorem parallelInterrupt_leaves (env : Env) (m : Machine) :
    ∃ m', parallelInterrupt env m = .ok m' ∧ Leaves m m' ∧ m'.ports = (0x20, 0x20) :: m.ports := by
  refine ⟨_, rfl, ⟨fun r => by cases r <;> rfl, fun _ => rfl, rfl, rfl⟩, ?_⟩
  exact congrArg (fun b => (0x20, b) :: m.ports)
    ((getByte_setByte (by norm_num) (by norm_num)).trans (if_pos rfl))

theorem ignoreInt_enters (env : Env) (m : Machine) :
    ∃ c, Enters env m .printk c (ignoreInt env m) := by
  obtain ⟨m₁, hpush, hcalls₁, m₂, hpop, hleaves, hcalls⟩ : ∃ m₁, execAll env
      [.push .eax, .push .ecx, .push .edx, .pushSeg .ds, .pushSeg .es, .pushSeg .fs,
        .movl 0x10 .eax, .mov .eax .ds, .mov .eax .es, .mov .eax .fs, .pushl env.intMsg] m =
        .ok m₁ ∧
      m₁.calls = m.calls ∧ ∃ m₂, execAll env
        [.pop .eax, .popSeg .fs, .popSeg .es, .popSeg .ds, .pop .edx, .pop .ecx, .pop .eax]
        (m₁.returned env .printk) = .ok m₂ ∧ Leaves m m₂ ∧
        m₂.calls = ⟨.printk, m₁.esp, m₁.stack⟩ :: m.calls :=
    ⟨_, rfl, rfl, _, rfl, ⟨fun r => by cases r <;> rfl,
      seg_leaves env m rfl rfl rfl rfl rfl rfl, rfl, rfl⟩, rfl⟩
  rw [ignoreInt, hpush]
  exact ⟨_, .of_call hcalls₁ hpop hleaves hcalls⟩

/-- The half word that `keyboard_interrupt` pushes. -/
theorem setWidth_input : ∀ b : Byte,
    (setByte (setByte 0x10 0 0) 0 b).setWidth 16 = b.setWidth 16 := by decide

/-- The keyboard is read before the interrupt controller is told that the interrupt has ended. -/
theorem keyboardInterrupt_enters (env : Env) (m : Machine) :
    ∃ c, Enters env m .doKeyboardInterrupt c (keyboardInterrupt env m) ∧
      c.function = .doKeyboardInterrupt ∧
      c.stack.head? = some (.short (env.input.setWidth 16)) := by
  obtain ⟨m₁, hpush, hcalls₁, hstack, m₂, hpop, hleaves, hcalls⟩ : ∃ m₁, execAll env
      [.push .eax, .push .ebx, .push .ecx, .push .edx, .pushSeg .ds, .pushSeg .es, .movl 0x10 .eax,
        .mov .eax .ds, .mov .eax .es, .movb 0, .inb, .pushAx, .movb 0x20, .outb 0x20] m = .ok m₁ ∧
      m₁.calls = m.calls ∧ m₁.stack.head? = some (.short (env.input.setWidth 16)) ∧
      ∃ m₂, execAll env
        [.popAx, .popSeg .es, .popSeg .ds, .pop .edx, .pop .ecx, .pop .ebx, .pop .eax]
        (m₁.returned env .doKeyboardInterrupt) = .ok m₂ ∧ Leaves m m₂ ∧
        m₂.calls = ⟨.doKeyboardInterrupt, m₁.esp, m₁.stack⟩ :: m.calls := by
    refine ⟨_, rfl, rfl, congrArg (fun h => some (Item.short h)) (setWidth_input env.input), _, rfl,
      ⟨fun r => by cases r <;> rfl, fun s => ?_, rfl, rfl⟩, rfl⟩
    cases s
    case ds => exact selector_push env m .ds
    case es => exact selector_push env m .es
    all_goals rfl
  rw [keyboardInterrupt, hpush]
  exact ⟨_, .of_call hcalls₁ hpop hleaves hcalls, rfl, hstack⟩

/-- The function of a page fault gets its error code, and the address. -/
theorem pageFault_enters (env : Env) (m : Machine) (code : Word) :
    ∃ f c, f = (if code &&& 1 = 0 then .doNoPage else .doWpPage) ∧
      Enters env m f c (pageFault env (m.push code)) ∧ c.function = f ∧
      itemAt c.stack 0 = some code ∧ itemAt c.stack 4 = some env.cr2 := by
  obtain ⟨f, hf⟩ : ∃ f : CFunction, f = if code &&& 1 = 0 then .doNoPage else .doWpPage := ⟨_, rfl⟩
  have hparams : f.params = 2 := by
    rw [hf]
    split_ifs <;> rfl
  obtain ⟨m₁, hpush, heax, hcalls₁, hstack, m₂, hpop, hleaves, hcalls⟩ : ∃ m₁,
      execAll env pageFaultPush (m.push code) = .ok m₁ ∧ m₁.reg .eax = code ∧ m₁.calls = m.calls ∧
      (itemAt m₁.stack 0 = some code ∧ itemAt m₁.stack 4 = some env.cr2) ∧
      ∃ m₂, execAll env pageFaultPop (m₁.returned env f) = .ok m₂ ∧ Leaves m m₂ ∧
        m₂.calls = ⟨f, m₁.esp, m₁.stack⟩ :: m.calls := by
    simp only [Machine.returned, hparams]
    exact ⟨_, rfl, rfl, rfl, ⟨rfl, rfl⟩, _, rfl, ⟨fun r => by cases r <;> rfl,
      seg_leaves env m rfl rfl rfl rfl rfl rfl, rfl, rfl⟩, rfl⟩
  refine ⟨f, ⟨f, m₁.esp, m₁.stack⟩, hf, ?_, rfl, hstack⟩
  have hrun : pageFault env (m.push code) = m₁.call env f >>= execAll env pageFaultPop := by
    rw [pageFault, hpush, hf, ← heax]
    rfl
  rw [hrun]
  exact .of_call hcalls₁ hpop hleaves hcalls

/-! ## The return from a system call -/

/-- At `ret_from_syscall`: the registers of `m` are on the stack or in the processor, with `w` in
    the place of `eax`. -/
structure Saved (env : Env) (m : Machine) (w : Word) (m₁ : Machine) : Prop where
  stack : m₁.stack = [w, m.reg .ebx, m.reg .ecx, m.reg .edx, env.word m.seg .fs, env.word m.seg .es,
    env.word m.seg .ds].map Item.long ++ m.stack
  esi : m₁.reg .esi = m.reg .esi
  edi : m₁.reg .edi = m.reg .edi
  ebp : m₁.reg .ebp = m.reg .ebp
  cs : m₁.seg .cs = m.seg .cs
  ss : m₁.seg .ss = m.seg .ss
  gs : m₁.seg .gs = m.seg .gs
  base : m₁.base = m.base

/-- `ret_from_syscall` finds a signal to deliver: the task is not the first one, it has been in user
    mode, and there is one that it does not block. -/
def Delivers (env : Env) (m : Machine) : Prop :=
  env.first = false ∧ (itemAt m.stack 4).map selector = some 0x0f ∧
    (itemAt m.stack 16).map selector = some 0x17 ∧ env.signal &&& ~~~env.blocked ≠ 0

variable {w : Word} {m₁ : Machine}

theorem Saved.restore (h : Saved env m w m₁) :
    ∃ m', restore env m₁ = .ok m' ∧ Leaves (m.set .eax w) m' ∧ m'.calls = m₁.calls ∧
      m'.ports = m₁.ports := by
  obtain ⟨reg, seg, base, stack, ports, calls⟩ := m₁
  obtain ⟨hstack, hesi, hedi, hebp, hcs, hss, hgs, hbase⟩ := h
  dsimp only at hstack hesi hedi hebp hcs hss hgs hbase
  subst hstack
  refine ⟨_, rfl, ⟨fun r => ?_, seg_leaves env m rfl rfl rfl hcs hss hgs, hbase, rfl⟩, rfl, rfl⟩
  cases r
  case esi => exact hesi
  case edi => exact hedi
  case ebp => exact hebp
  all_goals rfl

theorem Saved.itemAt (h : Saved env m w m₁) (n : ℕ) :
    itemAt m₁.stack (28 + n) = itemAt m.stack n := by
  rw [h.stack]
  exact itemAt_append _ _ _

/-- `ret_from_syscall` returns with the registers of `m`, and `w` in `eax`, or delivers a signal. -/
theorem Saved.retFromSyscall (h : Saved env m w m₁) :
    (¬Delivers env m → ∃ m', retFromSyscall env m₁ = .ok m' ∧ Leaves (m.set .eax w) m' ∧
      m'.calls = m₁.calls ∧ m'.ports = m₁.ports) ∧
    (Delivers env m → ∃ m', Interrupt.retFromSyscall env m₁ = .error (.signal m')) := by
  have heax : ∀ v, Saved env m w (m₁.set .eax v) := fun v => { h with }
  have hecx : ∀ v v' v'', Saved env m w (((m₁.set .eax v).set .ebx v').set .ecx v'') :=
    fun v v' v'' => { h with }
  have hcs : Interrupt.itemAt (m₁.set .eax env.current).stack 0x20 = Interrupt.itemAt m.stack 4 :=
    h.itemAt 4
  have hss : Interrupt.itemAt (m₁.set .eax env.current).stack 0x2c = Interrupt.itemAt m.stack 16 :=
    h.itemAt 16
  rw [Interrupt.retFromSyscall, Delivers]
  dsimp only
  rw [hcs, hss]
  split_ifs with hfirst hcs' hss' hsignal
  · exact ⟨fun _ => (heax _).restore, fun hd => by rw [hfirst] at hd; cases hd.1⟩
  · exact ⟨fun _ => (heax _).restore, fun hd => absurd hd.2.1 hcs'⟩
  · exact ⟨fun _ => (heax _).restore, fun hd => absurd hd.2.2.1 hss'⟩
  · exact ⟨fun _ => (hecx _ _ _).restore, fun hd => absurd hsignal hd.2.2.2⟩
  · refine ⟨fun hd => absurd ?_ hd, fun _ => ⟨_, rfl⟩⟩
    exact ⟨Bool.eq_false_iff.2 hfirst, not_not.1 hcs', not_not.1 hss', hsignal⟩

/-- `do_timer` gets the privilege level that the clock has interrupted. -/
theorem timerInterrupt_saved (env : Env) {eip cs : Word} {l : List Item}
    (h : m.stack = .long eip :: .long cs :: l) :
    ∃ c, c.function = .doTimer ∧ Interrupt.itemAt c.stack 0 = some (cs &&& 3) ∧
      (env.returns m.calls.length = false → timerInterrupt env m = .error (.dies c)) ∧
      (env.returns m.calls.length = true → ∃ m₁,
        timerInterrupt env m = Interrupt.retFromSyscall env m₁ ∧ Saved env m (m.reg .eax) m₁ ∧
        m₁.calls = c :: m.calls ∧ m₁.ports = (0x20, 0x20) :: m.ports) := by
  obtain ⟨reg, seg, base, stack, ports, calls⟩ := m
  obtain rfl : stack = _ := h
  obtain ⟨m₁, hrun, hcalls₁, hitem, hsaved⟩ : ∃ m₁ : Machine,
      (timerInterrupt env ⟨reg, seg, base, .long eip :: .long cs :: l, ports, calls⟩ =
        m₁.call env .doTimer >>= fun m =>
          execAll env [.addEsp 4] m >>= Interrupt.retFromSyscall env) ∧
      m₁.calls = calls ∧ Interrupt.itemAt m₁.stack 0 = some (cs &&& 3) ∧
      ∃ m₂, execAll env [.addEsp 4] (m₁.returned env .doTimer) = .ok m₂ ∧
        Saved env ⟨reg, seg, base, .long eip :: .long cs :: l, ports, calls⟩ (reg .eax) m₂ ∧
        m₂.calls = ⟨.doTimer, m₁.esp, m₁.stack⟩ :: calls ∧ m₂.ports = (0x20, 0x20) :: ports := by
    refine ⟨_, rfl, rfl, rfl, _, rfl, ⟨rfl, rfl, rfl, rfl, rfl, rfl, rfl, rfl⟩, rfl, ?_⟩
    exact congrArg (fun b => (0x20, b) :: ports)
      ((getByte_setByte (by norm_num) (by norm_num)).trans (if_pos rfl))
  obtain ⟨m₂, hpop, hsaved, hcalls, hports⟩ := hsaved
  refine ⟨⟨.doTimer, m₁.esp, m₁.stack⟩, rfl, hitem, fun hr => ?_, fun hr => ⟨m₂, ?_, hsaved, hcalls,
    hports⟩⟩
  · rw [hrun, Machine.call_dies (.inr (hcalls₁ ▸ hr))]
    rfl
  · rw [hrun, Machine.call_returns rfl (hcalls₁ ▸ hr)]
    exact congrArg (· >>= Interrupt.retFromSyscall env) hpop

/-- The processor when a function of the table has left words in its parameters. -/
def Machine.afterCall (env : Env) (m : Machine) : Machine :=
  ((m.set .ebx (env.left m.calls.length 0)).set .ecx (env.left m.calls.length 1)).set .edx
    (env.left m.calls.length 2)

/-- A function of the table gets `ebx`, `ecx` and `edx`, and what it leaves in its parameters is in
    these registers after the call. -/
theorem systemCall_saved (env : Env) (m : Machine) (h : (m.reg .eax).toNat ≤ 72) :
    ∃ c, c.function = .sysCall ∧
      c.stack.take 3 = [m.reg .ebx, m.reg .ecx, m.reg .edx].map Item.long ∧
      (env.returns m.calls.length = false → systemCall env m = .error (.dies c)) ∧
      (env.returns m.calls.length = true →
        (env.reschedule = true → env.returns (m.calls.length + 1) = true) → ∃ m₁ l,
          systemCall env m = Interrupt.retFromSyscall env m₁ ∧
          Saved env (m.afterCall env) (env.result m.calls.length) m₁ ∧
          m₁.calls = l ++ c :: m.calls) := by
  obtain ⟨m₁, hpush, hcalls₁, htake, hsaved⟩ : ∃ m₁, execAll env
      [.pushSeg .ds, .pushSeg .es, .pushSeg .fs, .push .edx, .push .ecx, .push .ebx,
        .movl 0x10 .edx, .mov .edx .ds, .mov .edx .es, .movl 0x17 .edx, .mov .edx .fs] m = .ok m₁ ∧
      m₁.calls = m.calls ∧
      m₁.stack.take 3 = [m.reg .ebx, m.reg .ecx, m.reg .edx].map Item.long ∧
      ∃ m₂, m₂ = ((m₁.returned env .sysCall).push ((m₁.returned env .sysCall).reg .eax)).set .eax
          env.current ∧ m₂.calls = ⟨.sysCall, m₁.esp, m₁.stack⟩ :: m.calls ∧
        Saved env (m.afterCall env) (env.result m.calls.length) m₂ ∧
        Saved env (m.afterCall env) (env.result m.calls.length) (m₂.returned env .schedule) :=
    ⟨_, rfl, rfl, rfl, _, rfl, rfl, ⟨rfl, rfl, rfl, rfl, rfl, rfl, rfl, rfl⟩,
      ⟨rfl, rfl, rfl, rfl, rfl, rfl, rfl, rfl⟩⟩
  obtain ⟨m₂, hm₂, hcalls, hsaved, hsaved'⟩ := hsaved
  have hrun : systemCall env m = m₁.call env .sysCall >>= fun m =>
      let m := (m.push (m.reg .eax)).set .eax env.current
      if env.reschedule then m.call env .schedule >>= Interrupt.retFromSyscall env
      else Interrupt.retFromSyscall env m := by
    rw [systemCall, if_neg (by omega), hpush]
    rfl
  refine ⟨⟨.sysCall, m₁.esp, m₁.stack⟩, rfl, htake, fun hr => ?_, fun hr hr' => ?_⟩
  · rw [hrun, Machine.call_dies (.inr (hcalls₁ ▸ hr))]
    rfl
  rw [hrun, Machine.call_returns rfl (hcalls₁ ▸ hr)]
  change ∃ m₃ l, (let m := ((m₁.returned env .sysCall).push _).set .eax env.current
    if env.reschedule then m.call env .schedule >>= Interrupt.retFromSyscall env
      else Interrupt.retFromSyscall env m) = _ ∧ _
  dsimp only
  rw [← hm₂]
  cases hsched : env.reschedule with
  | false => exact ⟨m₂, [], rfl, hsaved, hcalls⟩
  | true =>
    have hlen : m₂.calls.length = m.calls.length + 1 := by rw [hcalls, List.length_cons]
    rw [if_pos rfl, Machine.call_returns rfl (hlen ▸ hr' hsched)]
    exact ⟨_, [_], rfl, hsaved', congrArg (_ :: ·) hcalls⟩

end NeuOs.Interrupt
