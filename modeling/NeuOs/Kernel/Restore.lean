import NeuOs.Kernel.Reentry

/-!
# Returning from a handler (`kernel/libc_restore.s`)

A handler returns to the restorer that `do_signal` has put on the stack, and the
restorer pops the registers of the interrupted process: `__sig_restore` the frame of
7 longs of an action with `SA_NOMASK`, `__masksig_restore` the frame of 8 longs.
A process is interrupted at any time in user mode, in its handlers and between the
instructions of a restorer as well, so that deliveries nest (`Machine.Step`).

Once all handlers have returned, the registers are those of the interrupted process
(`Machine.regs_restored`). The blocked signals are not: `__masksig_restore` drops the
mask that it finds in the frame, where a call is missing by its own comment. They
are restored exactly if no mask of a delivered action adds a signal
(`signals_transparent_iff`).
-/

namespace NeuOs

/-! ## The restorers -/

/-- The instructions of the restorers. -/
inductive Instr
  | addEsp (n : Word)
  | popEax
  | popEcx
  | popEdx
  | popfl
  | ret
  deriving DecidableEq, Repr

/-- `__sig_restore`. -/
def sigRestore : List Instr := [.addEsp 4, .popEax, .popEcx, .popEdx, .popfl, .ret]

/-- `__masksig_restore`: the second `addl` stands where the mask is. -/
def masksigRestore : List Instr :=
  [.addEsp 4, .addEsp 4, .popEax, .popEcx, .popEdx, .popfl, .ret]

/-- The memory of a process, by the addresses of its data segment. -/
abbrev UserMem := Word → Byte

/-- The long at the address `a`. -/
def loadLong (mem : UserMem) (a : Word) : Word :=
  wordOf [mem a, mem (a + 1), mem (a + 2), mem (a + 3)]

/-- The memory with the longs from the address `a` on. -/
def storeLongs (longs : List Word) (a : Word) (mem : UserMem) : UserMem := fun x =>
  ((longs.flatMap bytesOf)[(x - a).toNat]?).getD (mem x)

/-- The flags that `popfl` does not change in user mode: `IF`, `IOPL` and `VM`. -/
def systemFlags : Word := 0x23200

namespace Instr

/-- The bytes of its code. -/
def size : Instr → Nat
  | .addEsp _ => 3
  | _ => 1

/-- The bytes it takes from the stack. -/
def pops : Instr → Nat
  | .addEsp n => n.toNat
  | _ => 4

/-- Whether it reads the long at the top of the stack. -/
def loads : Instr → Bool
  | .addEsp _ => false
  | _ => true

/-- The registers after the instruction. -/
def exec (mem : UserMem) (r : Regs) : Instr → Regs
  | .addEsp n => { r with eip := r.eip + 3, esp := r.esp + n }
  | .popEax => { r with eip := r.eip + 1, esp := r.esp + 4, eax := loadLong mem r.esp }
  | .popEcx => { r with eip := r.eip + 1, esp := r.esp + 4, ecx := loadLong mem r.esp }
  | .popEdx => { r with eip := r.eip + 1, esp := r.esp + 4, edx := loadLong mem r.esp }
  | .popfl =>
    { r with
      eip := r.eip + 1
      esp := r.esp + 4
      eflags := (r.eflags &&& systemFlags) ||| (loadLong mem r.esp &&& ~~~systemFlags) }
  | .ret => { r with eip := loadLong mem r.esp, esp := r.esp + 4 }

end Instr

/-- The registers after the instructions. -/
def execAll (mem : UserMem) : Regs → List Instr → Regs
  | r, [] => r
  | r, ins :: rest => execAll mem (ins.exec mem r) rest

/-- The bytes the instructions take from the stack. -/
def popsAll (prog : List Instr) : Nat := (prog.map Instr.pops).sum

/-- The instructions, run with the stack pointer `esp`, read the byte at `a`. -/
def Loads : List Instr → (esp a : Word) → Prop
  | [], _, _ => False
  | ins :: rest, esp, a =>
    (ins.loads ∧ (a - esp).toNat < 4) ∨ Loads rest (esp + BitVec.ofNat 32 ins.pops) a

/-- The instruction whose code starts `n` bytes into that of the list. -/
def instrAt : List Instr → Nat → Option Instr
  | [], _ => none
  | ins :: rest, n =>
    if n = 0 then some ins else if n < ins.size then none else instrAt rest (n - ins.size)

/-- The instruction at the address `eip`, with the restorers at `base`, one after
    the other. -/
def fetch (base eip : Word) : Option Instr :=
  instrAt (sigRestore ++ masksigRestore) (eip - base).toNat

/-! ## Interrupted processes -/

/-- A signal whose handler has not returned. -/
structure Frame where
  /-- The registers of the interrupted process. -/
  saved : Regs
  /-- The action has `SA_NOMASK`. -/
  nomask : Bool
  /-- The handler has returned to the restorer. -/
  returning : Bool

namespace Frame

/-- The longs on the stack. -/
def longs (f : Frame) : Nat := if f.nomask then 7 else 8

/-- The stack pointer of the handler when it starts. -/
def esp (f : Frame) : Word := f.saved.esp - BitVec.ofNat 32 (4 * f.longs)

/-- The restorer that matches the frame. -/
def prog (f : Frame) : List Instr := if f.nomask then sigRestore else masksigRestore

/-- Its address: the code of `__sig_restore` has 8 bytes. -/
def start (base : Word) (f : Frame) : Word := if f.nomask then base else base + 8

/-- The bytes of the frame that are read on the way back. The signal, which is the
    argument of the handler, and the mask are not. -/
def Saves (f : Frame) (a : Word) : Prop := Loads (.ret :: f.prog) f.esp a

end Frame

/-- The registers and flags that a function does not change. -/
def calleeSaved (r : Regs) : List Word :=
  [r.ebx, r.esi, r.edi, r.ebp, r.cs, r.ss, r.ds, r.es, r.fs, r.gs, r.eflags &&& systemFlags]

/-- A process in user mode. -/
structure Machine where
  task : Task
  regs : Regs
  mem : UserMem
  /-- The frames on its stack, the last one first. -/
  frames : List Frame

namespace Machine

/-- What `mem` saves in the frames, at the stack pointer `esp` and above, is in
    `mem'` as well. Below lie the bytes that restorers have popped. -/
def Kept (mem mem' : UserMem) : (esp : Word) → List Frame → Prop
  | _, [] => True
  | esp, f :: fs =>
    (∀ a, f.Saves a → esp.toNat ≤ a.toNat → mem' a = mem a) ∧ Kept mem mem' f.saved.esp fs

/-- What happens to a process. -/
inductive Event
  /-- It is interrupted, and a handler is to run. -/
  | deliver (signr : Nat)
  /-- It is interrupted, and the signal has no handler. -/
  | ignore (signr : Nat)
  /-- The other processes, and the kernel, change its task. -/
  | other
  /-- A handler runs. -/
  | user
  /-- A handler returns. -/
  | ret
  /-- A restorer runs one instruction. -/
  | restore

/-- An event of the process in the slot `i`, with the restorers at `base`. -/
def Step (base : Word) (i : Slot) (s : Machine) : Event → Machine → Prop
  | .deliver signr, s' => ∃ t' r' longs,
    Kernel.nextSignal i s.task s.regs = some signr ∧
    (s.task.take signr).doSignal signr s.regs = some (t', r', longs) ∧
    -- Beyond the limit, `put_fs_long` raises a general protection fault.
    r'.esp.toNat + 4 * longs.length ≤ s.task.data.limit ∧ s.task.data.limit ≤ 0x4000000 ∧
    ∃ f : Frame, f.saved = s.regs ∧ f.returning = false ∧
      f.nomask = decide ((s.task.action signr).saFlags &&& SA_NOMASK ≠ 0) ∧
      (s.task.action signr).saRestorer = f.start base ∧
      s' = ⟨t', r', storeLongs longs r'.esp s.mem, f :: s.frames⟩
  | .ignore signr, s' =>
    Kernel.nextSignal i s.task s.regs = some signr ∧
    (s.task.take signr).doSignal signr s.regs = none ∧
    s' = { s with task := s.task.take signr }
  | .other, s' => ∃ t', t'.blocked = s.task.blocked ∧ s' = { s with task := t' }
  | .user, s' => ∃ f fs t' r' mem', s.frames = f :: fs ∧ f.returning = false ∧
    t'.blocked = s.task.blocked ∧ r'.esp.toNat ≤ f.esp.toNat ∧
    Kept s.mem mem' s.regs.esp s.frames ∧ s' = ⟨t', r', mem', s.frames⟩
  | .ret, s' => ∃ f fs, s.frames = f :: fs ∧ f.returning = false ∧ s.regs.esp = f.esp ∧
    calleeSaved s.regs = calleeSaved f.saved ∧
    s' = { s with
      regs := Instr.ret.exec s.mem s.regs
      frames := { f with returning := true } :: fs }
  | .restore, s' => ∃ f fs ins, s.frames = f :: fs ∧ f.returning = true ∧
    fetch base s.regs.eip = some ins ∧
    s' = { s with
      regs := ins.exec s.mem s.regs
      frames := if ins = .ret then fs else s.frames }

end Machine

variable {base a : Word} {i : Slot} {mem mem' : UserMem} {r r' r₀ : Regs} {ins : Instr}
  {rest : List Instr} {f : Frame} {fs : List Frame}

/-! ## Longs in memory -/

theorem wordOf_bytesOf (w : Word) : wordOf (bytesOf w) = w := by
  refine BitVec.eq_of_getLsbD_eq fun j hj => ?_
  simp only [bytesOf, List.range_succ, List.range_zero, List.nil_append, List.map_cons,
    List.map_nil, List.cons_append, wordOf, getByte, BitVec.getLsbD_or, BitVec.getLsbD_setWidth,
    BitVec.getLsbD_shiftLeft, BitVec.getLsbD_extractLsb']
  rcases (by omega : j < 8 ∨ 8 ≤ j ∧ j < 16 ∨ 16 ≤ j ∧ j < 24 ∨ 24 ≤ j) with h | h | h | h <;>
    simp [show j < 32 from hj] <;> grind

/-- A long of the frame is read back. -/
theorem loadLong_storeLongs {longs : List Word} {w : Word} {n : Nat} (hn : n < 100)
    (hw : longs[n]? = some w) :
    loadLong (storeLongs longs a mem) (a + BitVec.ofNat 32 (4 * n)) = w := by
  have hbyte : ∀ k < 4, (longs.flatMap bytesOf)[4 * n + k]? = some (getByte w k) := by
    intro k hk
    induction longs generalizing n with
    | nil => cases hw
    | cons v longs ih =>
      rw [List.flatMap_cons]
      cases n with
      | zero =>
        obtain rfl := Option.some.inj hw
        rw [List.getElem?_append_left (by rw [length_bytesOf]; omega), bytesOf, List.getElem?_map,
          Nat.mul_zero, Nat.zero_add, List.getElem?_range hk]
        rfl
      | succ n =>
        rw [List.getElem?_append_right (by rw [length_bytesOf]; omega), length_bytesOf,
          show 4 * (n + 1) + k - 4 = 4 * n + k by omega]
        exact ih (by omega) hw
  -- the addresses of the bytes do not wrap around within a frame
  have hget : ∀ k < 4, storeLongs longs a mem (a + BitVec.ofNat 32 (4 * n) + BitVec.ofNat 32 k) =
      getByte w k := by
    intro k hk
    have hoff : (a + BitVec.ofNat 32 (4 * n) + BitVec.ofNat 32 k - a).toNat = 4 * n + k := by
      rw [BitVec.add_assoc, BitVec.add_comm, BitVec.add_sub_cancel, ← BitVec.ofNat_add,
        BitVec.toNat_ofNat]
      omega
    rw [storeLongs, hoff, hbyte k hk, Option.getD_some]
  have h₀ := hget 0 (by omega)
  rw [BitVec.add_zero] at h₀
  rw [loadLong, h₀, show (1 : Word) = BitVec.ofNat 32 1 from rfl, hget 1 (by omega),
    show (2 : Word) = BitVec.ofNat 32 2 from rfl, hget 2 (by omega),
    show (3 : Word) = BitVec.ofNat 32 3 from rfl, hget 3 (by omega)]
  exact wordOf_bytesOf w

/-- The other bytes stay. -/
theorem storeLongs_of_le {longs : List Word} {x : Word} (h : 4 * longs.length ≤ (x - a).toNat) :
    storeLongs longs a mem x = mem x := by
  rw [storeLongs, List.getElem?_eq_none (by rw [length_flatMap_bytesOf]; exact h), Option.getD_none]

theorem loadLong_congr (h : ∀ x, (x - a).toNat < 4 → mem' x = mem x) :
    loadLong mem' a = loadLong mem a := by
  have hx : ∀ k < 4, mem' (a + BitVec.ofNat 32 k) = mem (a + BitVec.ofNat 32 k) := by
    intro k hk
    refine h _ ?_
    rw [BitVec.add_comm, BitVec.add_sub_cancel, BitVec.toNat_ofNat]
    omega
  have h₀ := hx 0 (by omega)
  rw [BitVec.add_zero] at h₀
  rw [loadLong, loadLong, h₀]
  exact congrArg (fun l => wordOf (mem a :: l)) (congrArg₂ List.cons (hx 1 (by omega))
    (congrArg₂ List.cons (hx 2 (by omega)) (congrArg (fun b => [b]) (hx 3 (by omega)))))

/-! ## Running a restorer -/

namespace Instr

theorem esp_exec (mem : UserMem) (r : Regs) (ins : Instr) :
    (ins.exec mem r).esp = r.esp + BitVec.ofNat 32 ins.pops := by
  cases ins with
  | addEsp n =>
    refine congrArg (r.esp + ·) (BitVec.eq_of_toNat_eq ?_)
    rw [BitVec.toNat_ofNat]
    exact (Nat.mod_eq_of_lt n.isLt).symm
  | _ => rfl

theorem eip_exec (hne : ins ≠ .ret) : (ins.exec mem r).eip = r.eip + BitVec.ofNat 32 ins.size := by
  cases ins with
  | ret => exact absurd rfl hne
  | _ => rfl

theorem exec_congr (h : ∀ a, Loads (ins :: rest) r.esp a → mem' a = mem a) :
    ins.exec mem' r = ins.exec mem r := by
  cases ins with
  | addEsp n => rfl
  | _ =>
    have hload : loadLong mem' r.esp = loadLong mem r.esp :=
      loadLong_congr fun x hx => h x (.inl ⟨rfl, hx⟩)
    simp only [exec, hload]

end Instr

/-- The instructions depend on the bytes they read only. -/
theorem execAll_congr (h : ∀ a, Loads rest r.esp a → mem' a = mem a) :
    execAll mem' r rest = execAll mem r rest := by
  induction rest generalizing r with
  | nil => rfl
  | cons ins rest ih =>
    rw [execAll, execAll, Instr.exec_congr h]
    refine ih fun a ha => h a (.inr ?_)
    rwa [Instr.esp_exec] at ha

theorem popsAll_cons (ins : Instr) (rest : List Instr) :
    popsAll (ins :: rest) = ins.pops + popsAll rest := by
  rw [popsAll, List.map_cons, List.sum_cons, popsAll]

/-- They read what they pop. -/
theorem Loads.lt {esp : Word} (h : Loads rest esp a) : (a - esp).toNat < popsAll rest := by
  induction rest generalizing esp with
  | nil => cases h
  | cons ins rest ih =>
    rw [popsAll_cons]
    rcases h with ⟨hload, hlt⟩ | h
    · cases ins with
      | addEsp n => cases hload
      | _ => exact hlt.trans_le (Nat.le_add_right 4 _)
    · have hlt := ih h
      have hesp := esp.isLt
      rw [BitVec.toNat_sub, BitVec.toNat_add, BitVec.toNat_ofNat] at hlt
      rw [BitVec.toNat_sub]
      omega

/-- Above the stack pointer, if the stack does not wrap around. -/
theorem Loads.ge {esp : Word} (h : Loads rest esp a) (hroom : esp.toNat + popsAll rest < 2 ^ 32) :
    esp.toNat ≤ a.toNat := by
  have hlt := h.lt
  rw [BitVec.toNat_sub] at hlt
  omega

/-- The code of the restorers has `rest` from its byte `n` on, and `rest` ends with its
    only `ret`. -/
def InText : List Instr → (n : Nat) → Prop
  | [], _ => False
  | ins :: rest, n => n < 100 ∧ instrAt (sigRestore ++ masksigRestore) n = some ins ∧
    (ins = .ret ↔ rest = []) ∧ (rest ≠ [] → InText rest (n + ins.size))

theorem fetch_add (base : Word) {n : Nat} (hn : n < 100) :
    fetch base (base + BitVec.ofNat 32 n) = instrAt (sigRestore ++ masksigRestore) n := by
  rw [fetch, BitVec.add_comm, BitVec.add_sub_cancel, BitVec.toNat_ofNat,
    Nat.mod_eq_of_lt (by omega)]

namespace Frame

theorem popsAll_prog (f : Frame) : popsAll (.ret :: f.prog) = 4 * f.longs := by
  rw [prog, longs]
  split_ifs <;> rfl

theorem exists_start (base : Word) (f : Frame) :
    ∃ n, f.start base = base + BitVec.ofNat 32 n ∧ InText f.prog n := by
  rw [start, prog]
  split_ifs
  · exact ⟨0, (BitVec.add_zero base).symm,
      by simp [InText, sigRestore, masksigRestore, instrAt, Instr.size]⟩
  · exact ⟨8, rfl, by simp [InText, sigRestore, masksigRestore, instrAt, Instr.size]⟩

theorem Saves.ge (h : f.Saves a) (hroom : f.esp.toNat + 4 * f.longs = f.saved.esp.toNat) :
    f.esp.toNat ≤ a.toNat :=
  Loads.ge h (by rw [popsAll_prog, hroom]; exact f.saved.esp.isLt)

end Frame

/-! ## The frames of an interrupted process -/

/-- The handler of the frame runs, with the registers `r`: once it returns, the
    restorer gives the saved registers back. -/
structure Handling (base : Word) (mem : UserMem) (f : Frame) (r : Regs) : Prop where
  esp : r.esp.toNat ≤ f.esp.toNat
  room : f.esp.toNat + 4 * f.longs = f.saved.esp.toNat
  start : loadLong mem f.esp = f.start base
  back : ∀ r', r'.esp = f.esp → calleeSaved r' = calleeSaved f.saved →
    execAll mem r' (.ret :: f.prog) = f.saved

/-- The restorer of the frame runs, with the registers `r` and `rest` still to run. -/
structure Returning (base : Word) (mem : UserMem) (f : Frame) (r : Regs) (rest : List Instr) :
    Prop where
  exec : execAll mem r rest = f.saved
  code : ∃ n, r.eip = base + BitVec.ofNat 32 n ∧ InText rest n
  room : r.esp.toNat + popsAll rest = f.saved.esp.toNat
  saves : ∀ a, Loads rest r.esp a → f.Saves a

/-- The process runs the handler or the restorer of the frame, with the registers `r`. -/
def Frame.Runs (base : Word) (mem : UserMem) (f : Frame) (r : Regs) : Prop :=
  if f.returning then ∃ rest, Returning base mem f r rest else Handling base mem f r

/-- The frames of a process with the registers `r` lead back to the registers `r₀`. -/
def LeadsTo (base : Word) (mem : UserMem) (r₀ : Regs) : Regs → List Frame → Prop
  | r, [] => r = r₀
  | r, f :: fs => f.Runs base mem r ∧ LeadsTo base mem r₀ f.saved fs

theorem Handling.kept (h : Handling base mem f r)
    (hkept : ∀ a, f.Saves a → r.esp.toNat ≤ a.toNat → mem' a = mem a) : Handling base mem' f r := by
  have hall : ∀ a, f.Saves a → mem' a = mem a := fun a ha =>
    hkept a ha (h.esp.trans (ha.ge h.room))
  refine ⟨h.esp, h.room, ?_, fun r' hesp hr' => ?_⟩
  · rw [loadLong_congr fun x hx => hall x (.inl ⟨rfl, hx⟩), h.start]
  · rw [execAll_congr fun a ha => hall a (by rwa [hesp] at ha), h.back r' hesp hr']

theorem Returning.kept (h : Returning base mem f r rest)
    (hkept : ∀ a, f.Saves a → r.esp.toNat ≤ a.toNat → mem' a = mem a) :
    Returning base mem' f r rest := by
  have hroom : r.esp.toNat + popsAll rest < 2 ^ 32 := h.room ▸ f.saved.esp.isLt
  refine ⟨?_, h.code, h.room, h.saves⟩
  rw [execAll_congr fun a ha => hkept a (h.saves a ha) (ha.ge hroom), h.exec]

theorem Frame.Runs.kept (h : f.Runs base mem r)
    (hkept : ∀ a, f.Saves a → r.esp.toNat ≤ a.toNat → mem' a = mem a) : f.Runs base mem' r := by
  rw [Runs] at h ⊢
  split_ifs at h ⊢
  · obtain ⟨rest, h⟩ := h
    exact ⟨rest, h.kept hkept⟩
  · exact h.kept hkept

/-- The stack grows downwards. -/
theorem Frame.Runs.esp_le (h : f.Runs base mem r) : r.esp.toNat ≤ f.saved.esp.toNat := by
  rw [Runs] at h
  split_ifs at h
  · obtain ⟨rest, h⟩ := h
    exact h.room ▸ Nat.le_add_right _ _
  · exact h.esp.trans (h.room ▸ Nat.le_add_right _ _)

namespace LeadsTo

open Machine (Kept)

/-- What keeps the bytes saved in the frames keeps the way back. -/
theorem kept (h : LeadsTo base mem r₀ r fs) (hkept : Kept mem mem' r.esp fs) :
    LeadsTo base mem' r₀ r fs := by
  induction fs generalizing r with
  | nil => exact h
  | cons f fs ih => exact ⟨h.1.kept hkept.1, ih h.2 hkept.2⟩

/-- Changes below the stack pointer keep the bytes saved in the frames. -/
theorem kept_of_below (h : LeadsTo base mem r₀ r fs) {esp : Word} (hesp : esp.toNat ≤ r.esp.toNat)
    (hmem : ∀ a : Word, esp.toNat ≤ a.toNat → mem' a = mem a) : Kept mem mem' r.esp fs := by
  induction fs generalizing r with
  | nil => trivial
  | cons f fs ih =>
    exact ⟨fun a _ ha => hmem a (hesp.trans ha), ih h.2 (hesp.trans h.1.esp_le)⟩

end LeadsTo

/-! ## The frame of `do_signal` -/

section Deliver

variable {t t' : Task} {signr : Nat} {longs : List Word}

/-- `popfl` brings back the flags, if the system flags are unchanged. -/
theorem popfl_eq {w v : Word} (h : w &&& systemFlags = v &&& systemFlags) :
    (w &&& systemFlags) ||| (v &&& ~~~systemFlags) = v := by
  rw [h, ← BitVec.and_or_distrib_left, BitVec.or_not_self]
  exact BitVec.and_allOnes

theorem longs_eq (hnomask : f.nomask = decide ((t.action signr).saFlags &&& SA_NOMASK ≠ 0))
    (hstart : (t.action signr).saRestorer = f.start base) :
    t.signalFrame signr r = f.start base :: BitVec.ofNat 32 signr ::
      (if f.nomask then [] else [t.blocked]) ++ [r.eax, r.ecx, r.edx, r.eflags, r.eip] := by
  rw [Task.signalFrame, hstart]
  by_cases hflag : (t.action signr).saFlags &&& SA_NOMASK = 0
  · rw [if_pos hflag, hnomask, decide_eq_false (not_not.2 hflag)]
    rfl
  · rw [if_neg hflag, hnomask, decide_eq_true hflag]
    rfl

/-- The restorer of a frame that `do_signal` has just put on the stack gives the
    registers back. -/
theorem execAll_frame {esp : Word} (hf : longs = f.start base :: BitVec.ofNat 32 signr ::
      (if f.nomask then [] else [t.blocked]) ++
        [f.saved.eax, f.saved.ecx, f.saved.edx, f.saved.eflags, f.saved.eip])
    (hesp : f.esp = esp) (hr : r.esp = esp) (hcallee : calleeSaved r = calleeSaved f.saved) :
    execAll (storeLongs longs esp mem) r (.ret :: f.prog) = f.saved := by
  have hload : ∀ {n : Nat} {w : Word}, n < 100 → longs[n]? = some w →
      loadLong (storeLongs longs esp mem) (esp + BitVec.ofNat 32 (4 * n)) = w := loadLong_storeLongs
  generalize storeLongs longs esp mem = mem' at hload ⊢
  have hback : esp + BitVec.ofNat 32 (4 * f.longs) = f.saved.esp := by
    rw [← hesp]
    exact BitVec.sub_add_cancel _ _
  simp only [calleeSaved, List.cons.injEq, and_true] at hcallee
  obtain ⟨hebx, hesi, hedi, hebp, hcs, hss, hds, hes, hfs, hgs, hflags⟩ := hcallee
  -- the two restorers differ in the long of the blocked signals
  obtain ⟨saved, nomask, returning⟩ := f
  subst hf
  cases nomask with
  | true =>
    have h₁ := hload (n := 2) (by omega) rfl
    have h₂ := hload (n := 3) (by omega) rfl
    have h₃ := hload (n := 4) (by omega) rfl
    have h₄ := hload (n := 5) (by omega) rfl
    have h₅ := hload (n := 6) (by omega) rfl
    simp only [Frame.longs, if_true, Nat.reduceMul] at h₁ h₂ h₃ h₄ h₅ hback
    simp only [Frame.prog, if_true, sigRestore, execAll, Instr.exec, hr, BitVec.add_assoc,
      BitVec.reduceAdd, h₁, h₂, h₃, h₄, h₅, hback, popfl_eq hflags,
      hebx, hesi, hedi, hebp, hcs, hss, hds, hes, hfs, hgs]
  | false =>
    have h₁ := hload (n := 3) (by omega) rfl
    have h₂ := hload (n := 4) (by omega) rfl
    have h₃ := hload (n := 5) (by omega) rfl
    have h₄ := hload (n := 6) (by omega) rfl
    have h₅ := hload (n := 7) (by omega) rfl
    simp only [Frame.longs, Bool.false_eq_true, if_false, Nat.reduceMul] at h₁ h₂ h₃ h₄ h₅ hback
    simp only [Frame.prog, Bool.false_eq_true, if_false, masksigRestore, execAll, Instr.exec, hr,
      BitVec.add_assoc, BitVec.reduceAdd, h₁, h₂, h₃, h₄, h₅, hback, popfl_eq hflags,
      hebx, hesi, hedi, hebp, hcs, hss, hds, hes, hfs, hgs]

/-- The frame is as long as the longs, and its handler starts with the stack pointer
    of `do_signal`. -/
theorem longs_length (hdo : (t.take signr).doSignal signr r = some (t', r', longs))
    (hsaved : f.saved = r)
    (hnomask : f.nomask = decide ((t.action signr).saFlags &&& SA_NOMASK ≠ 0)) :
    longs.length = f.longs ∧ f.esp = r'.esp := by
  obtain ⟨-, hr', hlongs⟩ := Task.doSignal_some hdo
  have hact : (t.take signr).action signr = t.action signr := rfl
  have hlen : longs.length = f.longs := by
    rw [hlongs, Task.signalFrame, Frame.longs, hact, hnomask]
    by_cases hflag : (t.action signr).saFlags &&& SA_NOMASK = 0
    · rw [if_pos hflag, decide_eq_false (not_not.2 hflag)]
      rfl
    · rw [if_neg hflag, decide_eq_true hflag]
      rfl
  exact ⟨hlen, by rw [Frame.esp, hsaved, ← hlen, hr']⟩

/-- The handler of a new frame starts, and the frames below are as they were. -/
theorem leadsTo_deliver (h : LeadsTo base mem r₀ r fs)
    (hdo : (t.take signr).doSignal signr r = some (t', r', longs))
    (hlim : r'.esp.toNat + 4 * longs.length < 2 ^ 32) (hsaved : f.saved = r)
    (hret : f.returning = false)
    (hnomask : f.nomask = decide ((t.action signr).saFlags &&& SA_NOMASK ≠ 0))
    (hstart : (t.action signr).saRestorer = f.start base) :
    LeadsTo base (storeLongs longs r'.esp mem) r₀ r' (f :: fs) := by
  obtain ⟨-, hr', hlongs⟩ := Task.doSignal_some hdo
  have hsp : r'.esp = r.esp - BitVec.ofNat 32 (4 * longs.length) := by rw [hr']
  rw [longs_eq (t := t.take signr) hnomask hstart] at hlongs
  obtain ⟨hlen, hesp⟩ := longs_length hdo hsaved hnomask
  have hroom : r'.esp.toNat + 4 * longs.length = r.esp.toNat := by
    have hback : r'.esp + BitVec.ofNat 32 (4 * longs.length) = r.esp := by
      rw [hsp]
      exact BitVec.sub_add_cancel _ _
    rw [← hback, BitVec.toNat_add, BitVec.toNat_ofNat]
    omega
  refine ⟨?_, ?_⟩
  · rw [Frame.Runs, hret, if_neg Bool.false_ne_true]
    refine ⟨hesp ▸ le_rfl, ?_, ?_, fun r'' hr hcallee => ?_⟩
    · rw [hesp, ← hlen, hroom, hsaved]
    · have hload : loadLong (storeLongs longs r'.esp mem) (r'.esp + BitVec.ofNat 32 (4 * 0)) =
          f.start base := loadLong_storeLongs (by omega) (by rw [hlongs]; rfl)
      rw [hesp]
      rwa [Nat.mul_zero, BitVec.add_zero] at hload
    · exact execAll_frame (t := t.take signr) (hsaved ▸ hlongs) hesp (hr.trans hesp) hcallee
  · -- The longs are below the stack pointer of the interrupted process.
    refine hsaved ▸ h.kept (h.kept_of_below le_rfl fun a ha => storeLongs_of_le ?_)
    rw [BitVec.toNat_sub]
    omega

end Deliver

/-! ## The steps -/

theorem Handling.ret (h : Handling base mem f r) (hesp : r.esp = f.esp)
    (hcallee : calleeSaved r = calleeSaved f.saved) :
    Returning base mem f (Instr.ret.exec mem r) f.prog := by
  obtain ⟨n, hn, hcode⟩ := f.exists_start base
  have hpops := f.popsAll_prog
  have hroom := h.room
  have hlt := f.saved.esp.isLt
  rw [popsAll_cons] at hpops
  have hnext : (Instr.ret.exec mem r).esp = f.esp + 4 := by rw [← hesp]; rfl
  refine ⟨h.back r hesp hcallee, ⟨n, ?_, hcode⟩, ?_, fun a ha => .inr (hnext ▸ ha)⟩
  · rw [← hn, ← h.start, ← hesp]
    rfl
  · rw [hnext, BitVec.toNat_add, show (4 : Word).toNat = 4 from rfl]
    have hpop : Instr.ret.pops = 4 := rfl
    omega

/-- The next instruction of a restorer ends the frame, or leaves the rest to run. -/
theorem Returning.cons (h : Returning base mem f r (ins :: rest)) :
    fetch base r.eip = some ins ∧ if ins = .ret then ins.exec mem r = f.saved
      else Returning base mem f (ins.exec mem r) rest := by
  obtain ⟨n, heip, hn, hat, hlast, hrest⟩ := h.code
  refine ⟨by rw [heip, fetch_add base hn, hat], ?_⟩
  split_ifs with hret
  · have hexec := h.exec
    rwa [hlast.1 hret] at hexec
  · have hne : rest ≠ [] := fun hnil => hret (hlast.2 hnil)
    have hroom := h.room
    have hlt := f.saved.esp.isLt
    rw [popsAll_cons] at hroom
    refine ⟨h.exec, ⟨n + ins.size, ?_, hrest hne⟩, ?_, fun a ha => h.saves a (.inr ?_)⟩
    · rw [Instr.eip_exec hret, heip, BitVec.add_assoc, BitVec.ofNat_add]
    · rw [Instr.esp_exec, BitVec.toNat_add, BitVec.toNat_ofNat]
      omega
    · rwa [Instr.esp_exec] at ha

theorem Returning.restore (h : Returning base mem f r rest) (hfetch : fetch base r.eip = some ins) :
    if ins = .ret then ins.exec mem r = f.saved
    else ∃ rest', Returning base mem f (ins.exec mem r) rest' := by
  cases rest with
  | nil =>
    obtain ⟨n, -, hcode⟩ := h.code
    cases hcode
  | cons ins' rest =>
    obtain ⟨hat, hnext⟩ := h.cons
    obtain rfl := Option.some.inj (hat.symm.trans hfetch)
    split_ifs at hnext ⊢
    · exact hnext
    · exact ⟨rest, hnext⟩

namespace Machine

open Transition (Run Along)

variable {s s' : Machine} {e : Event}

/-- The way back to the registers `r₀` is there. -/
def Inv (base : Word) (r₀ : Regs) (s : Machine) : Prop := LeadsTo base s.mem r₀ s.regs s.frames

/-- Every event keeps the way back. -/
theorem Inv.step (h : s.Inv base r₀) (hst : Step base i s e s') : s'.Inv base r₀ := by
  cases e with
  | deliver signr =>
    obtain ⟨t', r', longs, -, hdo, hlim, hmax, f, hsaved, hret, hnomask, hstart, rfl⟩ := hst
    exact leadsTo_deliver h hdo (by omega) hsaved hret hnomask hstart
  | ignore signr =>
    obtain ⟨-, -, rfl⟩ := hst
    exact h
  | other =>
    obtain ⟨t', -, rfl⟩ := hst
    exact h
  | user =>
    obtain ⟨f, fs, t', r', mem', hframes, hret, -, hesp, hkept, rfl⟩ := hst
    rw [Inv, hframes] at h
    rw [hframes] at hkept
    -- the process may change what is below its stack pointer only
    obtain ⟨hruns, hrest⟩ := h.kept hkept
    rw [Inv, hframes]
    refine ⟨?_, hrest⟩
    rw [Frame.Runs, hret, if_neg Bool.false_ne_true] at hruns ⊢
    exact ⟨hesp, hruns.room, hruns.start, hruns.back⟩
  | ret =>
    obtain ⟨f, fs, hframes, hret, hesp, hcallee, rfl⟩ := hst
    rw [Inv, hframes] at h
    obtain ⟨hruns, hrest⟩ := h
    rw [Frame.Runs, hret, if_neg Bool.false_ne_true] at hruns
    -- the handler returns to the restorer
    have hback := hruns.ret hesp hcallee
    refine ⟨?_, hrest⟩
    rw [Frame.Runs, if_pos rfl]
    exact ⟨f.prog, hback.exec, hback.code, hback.room, hback.saves⟩
  | restore =>
    obtain ⟨f, fs, ins, hframes, hret, hfetch, rfl⟩ := hst
    rw [Inv, hframes] at h
    obtain ⟨hruns, hrest⟩ := h
    rw [Frame.Runs, hret, if_pos rfl] at hruns
    obtain ⟨rest, hruns⟩ := hruns
    have hnext := hruns.restore hfetch
    rw [Inv, hframes]
    split_ifs at hnext ⊢ with hlast
    · rw [hnext]
      exact hrest
    · refine ⟨?_, hrest⟩
      rw [Frame.Runs, hret, if_pos rfl]
      exact hnext

/-- The signals that the event adds to the blocked ones. -/
def added (s : Machine) : Event → Word
  | .deliver signr => (s.task.action signr).saMask
  | _ => 0

/-- The event adds no signal to the blocked ones: a delivered action has a mask of
    signals that are blocked already. -/
def Covered (s : Machine) (e : Event) : Prop := s.task.blocked ||| s.added e = s.task.blocked

theorem Step.blocked (hst : Step base i s e s') :
    s'.task.blocked = s.task.blocked ||| s.added e := by
  cases e with
  | deliver signr =>
    obtain ⟨t', r', longs, -, hdo, -, -, f, -, -, -, -, rfl⟩ := hst
    exact congrArg (fun t => t.blocked) (Task.doSignal_some hdo).1
  | ignore signr =>
    obtain ⟨-, -, rfl⟩ := hst
    exact BitVec.or_zero.symm
  | other =>
    obtain ⟨t', hblocked, rfl⟩ := hst
    exact hblocked.trans BitVec.or_zero.symm
  | user =>
    obtain ⟨f, fs, t', r', mem', -, -, hblocked, -, -, rfl⟩ := hst
    exact hblocked.trans BitVec.or_zero.symm
  | ret =>
    obtain ⟨f, fs, -, -, -, -, rfl⟩ := hst
    exact BitVec.or_zero.symm
  | restore =>
    obtain ⟨f, fs, ins, -, -, -, rfl⟩ := hst
    exact BitVec.or_zero.symm

/-! ## Runs -/

variable {l : List (Event × Machine)}

/-- Once all handlers have returned, however their deliveries nest, the registers are
    those of the interrupted process. -/
theorem regs_restored (hrun : Run (Step base i) s l) (hlast : l.getLast? = some (e, s'))
    (hopen : s.frames = []) (hclosed : s'.frames = []) : s'.regs = s.regs := by
  have hstart : s.Inv base s.regs := by
    rw [Inv, hopen]
    exact rfl
  have hend := hrun.invariant hstart (fun _ _ _ => Inv.step) _ (List.mem_of_getLast? hlast)
  rw [Inv, hclosed] at hend
  exact hend

/-- The blocked signals are the same at the end if and only if no event has added
    one. -/
theorem blocked_iff (hrun : Run (Step base i) s l) (hlast : l.getLast? = some (e, s')) :
    s'.task.blocked = s.task.blocked ↔ Along Covered s l := by
  have hstep : ∀ u e u', s.task.blocked = u.task.blocked → Step base i u e u' →
      (s.task.blocked = u'.task.blocked ↔ Covered u e) := by
    intro u e u' hu hst
    rw [Covered, hst.blocked, hu, eq_comm]
  rw [← hrun.forall_iff_along (P := fun u => s.task.blocked = u.task.blocked) (J := fun _ => True)
    rfl trivial (fun _ _ _ _ _ => trivial) fun u e u' _ => hstep u e u']
  constructor
  · -- The blocked signals only become more, so that they have never changed.
    intro heq
    exact (hrun.forall_of_getLast
      (J := fun u => u.task.blocked ||| s.task.blocked = u.task.blocked)
      (P := fun u => s.task.blocked = u.task.blocked) BitVec.or_self
      (fun u e u' hu hst => by
        rw [hst.blocked, BitVec.or_assoc, BitVec.or_comm (u.added e), ← BitVec.or_assoc, hu])
      (fun u e u' hu hst hu' => by
        rw [hst.blocked] at hu'
        rw [← hu, hu', ← BitVec.or_assoc, BitVec.or_self]) hlast heq.symm).2
  · exact fun hall => (hall _ (List.mem_of_getLast? hlast)).symm

/-- Signals are delivered transparently, the blocked signals included, exactly if no
    mask of a delivered action adds a signal. -/
theorem signals_transparent_iff (hrun : Run (Step base i) s l) (hlast : l.getLast? = some (e, s'))
    (hopen : s.frames = []) (hclosed : s'.frames = []) :
    (s'.regs.eip = s.regs.eip ∧ s'.regs.esp = s.regs.esp ∧ s'.regs.eax = s.regs.eax ∧
      s'.regs.ecx = s.regs.ecx ∧ s'.regs.edx = s.regs.edx ∧ s'.regs.eflags = s.regs.eflags ∧
      s'.task.blocked = s.task.blocked) ↔ Along Covered s l := by
  rw [← blocked_iff hrun hlast, regs_restored hrun hlast hopen hclosed]
  exact ⟨fun h => h.2.2.2.2.2.2, fun h => ⟨rfl, rfl, rfl, rfl, rfl, rfl, h⟩⟩

/-! ## A handler that returns -/

/-- A restorer that is not interrupted runs to its end. -/
theorem exists_restore {t : Task} (hret : f.returning = true) (h : Returning base mem f r rest) :
    ∃ l, Run (Step base i) ⟨t, r, mem, f :: fs⟩ l ∧
      l.getLast? = some (.restore, ⟨t, f.saved, mem, fs⟩) := by
  induction rest generalizing r with
  | nil =>
    obtain ⟨n, -, hcode⟩ := h.code
    cases hcode
  | cons ins rest ih =>
    obtain ⟨hfetch, hnext⟩ := h.cons
    have hst : Step base i ⟨t, r, mem, f :: fs⟩ .restore
        ⟨t, ins.exec mem r, mem, if ins = .ret then fs else f :: fs⟩ :=
      ⟨f, fs, ins, rfl, hret, hfetch, rfl⟩
    split_ifs at hst hnext with hins
    · rw [hnext] at hst
      exact ⟨_, .cons hst (.nil _), rfl⟩
    · obtain ⟨l, hrun, hlast⟩ := ih hnext
      refine ⟨_, .cons hst hrun, ?_⟩
      rw [List.getLast?_cons, hlast]
      rfl

/-- A process is interrupted, its handler returns at once, and the restorer runs. -/
theorem exists_return {s : Machine} {t' : Task} {signr : Nat} {longs : List Word}
    (hopen : s.frames = []) (hnext : Kernel.nextSignal i s.task s.regs = some signr)
    (hdo : (s.task.take signr).doSignal signr s.regs = some (t', r', longs))
    (hlim : r'.esp.toNat + 4 * longs.length ≤ s.task.data.limit)
    (hmax : s.task.data.limit ≤ 0x4000000)
    (hstart : (s.task.action signr).saRestorer =
      if (s.task.action signr).saFlags &&& SA_NOMASK ≠ 0 then base else base + 8) :
    ∃ l e s', Run (Step base i) s l ∧ l.getLast? = some (e, s') ∧ s'.frames = [] ∧
      s'.task.blocked = s.task.blocked ||| (s.task.action signr).saMask := by
  obtain ⟨f, hf⟩ : ∃ f : Frame,
      f = ⟨s.regs, decide ((s.task.action signr).saFlags &&& SA_NOMASK ≠ 0), false⟩ := ⟨_, rfl⟩
  have hsaved : f.saved = s.regs := by rw [hf]
  have hret : f.returning = false := by rw [hf]
  have hnomask : f.nomask = decide ((s.task.action signr).saFlags &&& SA_NOMASK ≠ 0) := by rw [hf]
  have hrestorer : (s.task.action signr).saRestorer = f.start base := by
    rw [hstart, Frame.start, hnomask]
    simp only [decide_eq_true_eq]
  -- `do_signal` puts the frame on the stack
  have hdeliver : Step base i s (.deliver signr)
      ⟨t', r', storeLongs longs r'.esp s.mem, f :: s.frames⟩ :=
    ⟨t', r', longs, hnext, hdo, hlim, hmax, f, hsaved, hret, hnomask, hrestorer, rfl⟩
  have hnone : LeadsTo base s.mem s.regs s.regs [] := rfl
  obtain ⟨hruns, -⟩ := leadsTo_deliver hnone hdo (by omega) hsaved hret hnomask hrestorer
  rw [Frame.Runs, hret, if_neg Bool.false_ne_true] at hruns
  obtain ⟨-, hesp⟩ := longs_length hdo hsaved hnomask
  have hcallee : calleeSaved r' = calleeSaved f.saved := by
    rw [(Task.doSignal_some hdo).2.1, hsaved]
    rfl
  -- the handler does nothing but return
  have hreturn : Step base i ⟨t', r', storeLongs longs r'.esp s.mem, f :: s.frames⟩ .ret
      ⟨t', Instr.ret.exec (storeLongs longs r'.esp s.mem) r', storeLongs longs r'.esp s.mem,
        { f with returning := true } :: s.frames⟩ :=
    ⟨f, s.frames, rfl, hret, hesp.symm, hcallee, rfl⟩
  have hback := hruns.ret hesp.symm hcallee
  obtain ⟨l, hrun, hlast⟩ : ∃ l, Run (Step base i)
      ⟨t', Instr.ret.exec (storeLongs longs r'.esp s.mem) r', storeLongs longs r'.esp s.mem,
        { f with returning := true } :: s.frames⟩ l ∧
      l.getLast? = some (.restore, ⟨t', f.saved, storeLongs longs r'.esp s.mem, s.frames⟩) :=
    exists_restore rfl ⟨hback.exec, hback.code, hback.room, hback.saves⟩
  refine ⟨_, .restore, ⟨t', f.saved, storeLongs longs r'.esp s.mem, s.frames⟩,
    .cons hdeliver (.cons hreturn hrun), ?_, hopen, ?_⟩
  · rw [List.getLast?_cons_cons, List.getLast?_cons, hlast]
    rfl
  · exact congrArg (fun t => t.blocked) (Task.doSignal_some hdo).1

/-- A process that gets the signal 10, with the flags `flags` and the mask `mask` of
    its action, and the restorers at 0x4000. -/
def interrupted (flags mask : Word) : Machine where
  task := { initTask 0x8000 with
    signal := sigBit 10
    sigaction := fun _ =>
      ⟨0x1000, mask, flags, if flags &&& SA_NOMASK ≠ 0 then 0x4000 else 0x4000 + 8⟩ }
  regs := Kernel.userRegs
  mem := fun _ => 0
  frames := []

theorem exists_interrupted (flags mask : Word) :
    ∃ l e s', Run (Step 0x4000 1) (interrupted flags mask) l ∧ l.getLast? = some (e, s') ∧
      s'.frames = [] ∧ s'.task.blocked = mask := by
  have hnext : Kernel.nextSignal 1 (interrupted flags mask).task (interrupted flags mask).regs =
      some 10 := by
    rw [Kernel.nextSignal, Task.deliverable,
      show (interrupted flags mask).task.signal = sigBit 10 from rfl,
      show (interrupted flags mask).task.blocked = 0 from rfl,
      show (interrupted flags mask).regs = Kernel.userRegs from rfl]
    decide
  obtain ⟨⟨t', r', longs⟩, hdo⟩ := Option.ne_none_iff_exists'.1
    fun hnone : ((interrupted flags mask).task.take 10).doSignal 10
        (interrupted flags mask).regs = none =>
      absurd (Task.doSignal_none.1 hnone)
        (show ¬((0x1000 : Word) = 1 ∨ (0x1000 : Word) = 0) by decide)
  obtain ⟨-, hr', hlongs⟩ := Task.doSignal_some hdo
  have hesp : r'.esp = 0x1020 - BitVec.ofNat 32 (4 * longs.length) := by rw [hr']; rfl
  -- seven longs with `SA_NOMASK`, and eight without
  have hlen : longs.length = 7 ∨ longs.length = 8 := by
    rw [hlongs, Task.signalFrame]
    split_ifs
    · exact .inr rfl
    · exact .inl rfl
  have hlim : r'.esp.toNat + 4 * longs.length ≤ initLimit := by
    rcases hlen with hlen | hlen <;>
    · rw [hesp, hlen]
      decide
  obtain ⟨l, e, s', hrun, hlast, hclosed, hblocked⟩ := exists_return rfl hnext hdo hlim
    (show initLimit ≤ 0x4000000 by decide)
    (show _ = if flags &&& SA_NOMASK ≠ 0 then 0x4000 else 0x4000 + 8 from rfl)
  exact ⟨l, e, s', hrun, hlast, hclosed, hblocked.trans BitVec.zero_or⟩

/-- A signal whose action has `SA_NOMASK`. -/
theorem signals_transparent_iff_nomask :
    ∃ l e s', Run (Step 0x4000 1) (interrupted SA_NOMASK 0) l ∧ l.getLast? = some (e, s') ∧
      ((s'.regs.eip = (interrupted SA_NOMASK 0).regs.eip ∧
        s'.regs.esp = (interrupted SA_NOMASK 0).regs.esp ∧
        s'.regs.eax = (interrupted SA_NOMASK 0).regs.eax ∧
        s'.regs.ecx = (interrupted SA_NOMASK 0).regs.ecx ∧
        s'.regs.edx = (interrupted SA_NOMASK 0).regs.edx ∧
        s'.regs.eflags = (interrupted SA_NOMASK 0).regs.eflags ∧
        s'.task.blocked = (interrupted SA_NOMASK 0).task.blocked) ↔
          Along Covered (interrupted SA_NOMASK 0) l) := by
  obtain ⟨l, e, s', hrun, hlast, hclosed, -⟩ := exists_interrupted SA_NOMASK 0
  exact ⟨l, e, s', hrun, hlast, signals_transparent_iff hrun hlast rfl hclosed⟩

/-- After the handler of an action without `SA_NOMASK`, its signal stays blocked. -/
theorem mask_not_restored :
    ∃ l e s', Run (Step 0x4000 1) (interrupted 0 (sigBit 10)) l ∧ l.getLast? = some (e, s') ∧
      (interrupted 0 (sigBit 10)).frames = [] ∧ s'.frames = [] ∧
      s'.task.blocked ≠ (interrupted 0 (sigBit 10)).task.blocked := by
  obtain ⟨l, e, s', hrun, hlast, hclosed, hblocked⟩ := exists_interrupted 0 (sigBit 10)
  refine ⟨l, e, s', hrun, hlast, rfl, hclosed, ?_⟩
  rw [hblocked]
  decide

end Machine

/-- No delivery of an action without `SA_NOMASK` is covered, if the actions are as
    `sys_sigaction` leaves them: the signal is not blocked, and in its own mask. -/
theorem Task.Masked.not_covered {s : Machine} {signr : Nat} (h : s.task.Masked)
    (hnext : Kernel.nextSignal i s.task s.regs = some signr)
    (h₀ : (s.task.action signr).saHandler ≠ 0)
    (hmask : (s.task.action signr).saFlags &&& SA_NOMASK = 0) : ¬s.Covered (.deliver signr) := by
  obtain ⟨n, rfl, hsignal, hblocked⟩ := Kernel.nextSignal_eq_some hnext
  have hn : n < 32 := BitVec.lt_of_getLsbD hsignal
  intro hcovered
  have hbit := congrArg (fun w => w.getLsbD n) hcovered
  simp only [Machine.added, BitVec.getLsbD_or, hblocked, Bool.false_or] at hbit
  exact Bool.false_ne_true (hbit.symm.trans (h (n + 1) (by omega) (by omega) h₀ hmask))

end NeuOs
