import NeuOs.Kernel.Isolation

/-!
# A handler that runs

What `sys_kill` does to the tasks (`task_sysKill`), and that the kernel can read
and write memory that is there: so a first process whose actions are inherited
from the task 0 gets a signal, and its handler starts (`exists_handler`).
-/

namespace NeuOs

namespace Mm

variable {lo hi i : Nat} {ext : Nat → Nat} {m : Mm} {s : Segment} {addr : Word}

/-- The pages of the `n` bytes from `a` on are present and writable. -/
def PresentRange (m : Mm) (a n : Nat) : Prop :=
  ∀ x, a ≤ x → x < a + n → ∃ e, m.translate x = some e ∧ Writable e

/-- Stores of the kernel to pages that are present and writable succeed. -/
theorem exists_putFsBytes (bytes : List Byte) (h : Inv lo hi ext m) (hs : UserSegment i s)
    (hlim : addr.toNat + bytes.length ≤ s.limit)
    (hw : PresentRange m (s.base + addr.toNat) bytes.length) :
    ∃ m', putFsBytes s bytes addr m = .ok m' := by
  induction bytes generalizing addr m with
  | nil => exact ⟨m, rfl⟩
  | cons b bytes ih =>
    rw [List.length_cons] at hlim hw
    have hslot := hs.limit
    have ha : UserAddr (s.base + addr.toNat) := hs.userAddr (by omega)
    obtain ⟨e, he, hwe⟩ := hw (s.base + addr.toNat) le_rfl (by omega)
    have htouch : m.touch (s.base + addr.toNat) false = .ok m := by
      rw [touch, he]
      exact if_neg fun hc => Bool.false_ne_true hc.1
    obtain ⟨hinv, he', hsame⟩ := translate_poke h ha he hwe b
    have hnext : (addr + 1).toNat = addr.toNat + 1 := by
      rw [BitVec.toNat_add, show (1 : Word).toNat = 1 from rfl]
      omega
    obtain ⟨m', hok⟩ := ih hinv (show (addr + 1).toNat + bytes.length ≤ s.limit by omega)
      fun x h₁ h₂ => by
      obtain ⟨k₁, k₂, k₃, k₄⟩ := id hs
      have hx : UserAddr x := ⟨by omega, by omega⟩
      by_cases hpage :
        OnPage ((s.base + addr.toNat) / 2 ^ 22) ((s.base + addr.toNat) / 4096 % 1024) x
      · exact ⟨e, (hpage.translate _).trans he', hwe⟩
      · obtain ⟨e', hx', hwe'⟩ := hw x (by omega) (by omega)
        exact ⟨e', (hsame _ _ hx.page hpage).1.trans hx', hwe'⟩
    refine ⟨m', ?_⟩
    rw [putFsBytes, putFsByte, if_neg (by omega), kernelStore, htouch]
    exact hok

/-- The stores of words succeed where those of their bytes do. -/
theorem putFsLongs_of_bytes {longs : List Word} {m' : Mm}
    (hlim : addr.toNat + 4 * longs.length ≤ s.limit)
    (h : putFsBytes s (longs.flatMap bytesOf) addr m = .ok m') :
    putFsLongs s longs addr m = .ok m' := by
  induction longs generalizing addr m with
  | nil => exact h
  | cons w longs ih =>
    rw [List.length_cons] at hlim
    rw [List.flatMap_cons, putFsBytes_append] at h
    obtain ⟨m₁, hput, h⟩ := Except.bind_eq_ok.1 h
    rw [putFsLongs, putFsLong, if_neg (by omega), hput, Except.ok_bind]
    by_cases hnil : longs = []
    · rw [hnil] at h ⊢
      exact h
    · have hpos := List.length_pos_of_ne_nil hnil
      refine ih ?_ h
      rw [BitVec.toNat_add, show (4 : Word).toNat = 4 from rfl]
      omega

/-- `verify_area` of a range on one present page leaves it present and writable. -/
theorem exists_verifyArea {c a size : Nat} (h : Inv lo hi ext m) (hc : 0x4000 ≤ c)
    (hend : c + a / 4096 < 2 ^ 20) (ha : a < 2 ^ 32) (hpos : 0 < size)
    (hpage : a % 4096 + size ≤ 4096)
    {e : Word} (he : m.translate (4096 * c + a) = some e) (hfree : 0 < m.freeFrames) :
    ∃ m', m.verifyArea (4096 * c) a size = .ok m' ∧ Inv lo hi ext m' ∧
      PresentRange m' (4096 * c + a) size := by
  have hua : UserAddr (4096 * (c + a / 4096)) := ⟨by omega, by omega⟩
  -- the range is on the page of its first address
  have hon : ∀ x, 4096 * c + a ≤ x → x < 4096 * c + a + size →
      OnPage (4096 * (c + a / 4096) / 2 ^ 22) (4096 * (c + a / 4096) / 4096 % 1024) x := by
    intro x h₁ h₂
    exact Prod.ext (by dsimp only; omega) (by dsimp only; omega)
  rw [(hon _ le_rfl (by omega)).translate] at he
  obtain ⟨hp, hpte, heq⟩ := walk_eq_some.1 he
  obtain ⟨m', hok, hinv, e', hwalk, hw⟩ : ∃ m', m.writeVerify (4096 * (c + a / 4096)) = .ok m' ∧
      Inv lo hi ext m' ∧ ∃ e', m'.walk (4096 * (c + a / 4096) / 2 ^ 22)
        (4096 * (c + a / 4096) / 4096 % 1024) = some e' ∧ Writable e' := by
    rw [writeVerify_eq m hua.2]
    split_ifs with hro
    · rcases h.unWpPage hua.page ⟨hp, hpte, rfl⟩ with ⟨-, hzero⟩ | ⟨m', e', hok, hinv, -, hwalk, hw⟩
      · omega
      · exact ⟨m', hok, hinv, e', hwalk, hw⟩
    · exact ⟨m, rfl, h, e, he, heq ▸ not_not.1 fun hw => hro ⟨hp, hpte, hw⟩⟩
  refine ⟨m', ?_, hinv, fun x h₁ h₂ => ⟨e', ((hon x h₁ h₂).translate m').trans hwalk, hw⟩⟩
  rw [verifyArea_eq ha (by omega), Nat.mod_eq_of_lt hend, verifyLoop, if_pos (by omega), hok,
    Except.ok_bind, verifyLoop, if_neg (by omega)]

/-- The bytes of the kernel's own memory. -/
theorem reads_kernel (h : Inv lo hi ext m) {a : Nat} (ha : a < 0x1000000) :
    m.reads a = m.loadByte a := by
  rw [reads_of_some (h.kernel.translate ha), physAddr, frameOf_entryOf (by omega)]
  congr 1
  omega

/-- A segment in the kernel's own memory is read without page faults. -/
theorem exists_getFsBytes (h : Inv lo hi ext m) {n : Nat} (hbase : s.base = 0)
    (hs : s.limit ≤ 0x1000000) (hlim : addr.toNat + n ≤ s.limit) :
    getFsBytes s n addr m = .ok ((List.range n).map fun j => m.loadByte (addr.toNat + j), m) := by
  induction n generalizing addr with
  | zero => rfl
  | succ n ih =>
    have hnext : (addr + 1).toNat = addr.toNat + 1 := by
      rw [BitVec.toNat_add, show (1 : Word).toNat = 1 from rfl]
      omega
    have hget : m.getFsByte s addr = .ok (m.loadByte addr.toNat, m) := by
      rw [getFsByte, if_neg (by omega), hbase, Nat.zero_add, h.touch_kernel (by omega),
        Except.ok_bind, reads_kernel h (by omega)]
    rw [getFsBytes, hget, Except.ok_bind]
    dsimp only
    rw [ih (show (addr + 1).toNat + n ≤ s.limit by omega), Except.ok_bind,
      List.range_succ_eq_map, List.map_cons,
      List.map_map, hnext]
    refine congrArg Except.ok (Prod.ext (congrArg₂ List.cons rfl ?_) rfl)
    refine List.map_congr_left fun j _ => ?_
    rw [Function.comp_apply, Nat.add_assoc, Nat.add_comm 1 j]

end Mm

namespace Kernel

variable {lo hi : Nat} {k k' : Kernel} {i j : Slot} {t : Task}

/-- `sys_kill` sets the signal in all tasks with the pid, in the slots it looks at. -/
theorem task_killSlots {current : Task} {pid : Word} {sig : Int} (h₁ : 1 ≤ sig) (h₂ : sig ≤ 32)
    (ps : List Slot) (retval : Int) :
    (killSlots current pid sig ps retval k).2.task j = (k.task j).map fun t =>
      if j ∈ ps ∧ t.pid = pid then { t with signal := t.signal ||| sigBit sig.toNat } else t := by
  induction ps generalizing k retval with
  | nil => simp [killSlots]
  | cons p ps ih =>
    rw [killSlots]
    cases hp : k.task p with
    | none =>
      rw [Option.any_none, if_neg Bool.false_ne_true, ih]
      refine Option.map_congr fun t ht => ?_
      have hj : j ≠ p := fun heq => by simp [heq, hp] at ht
      simp only [List.mem_cons, hj, false_or]
    | some u =>
      rw [Option.any_some]
      by_cases hpid : u.pid = pid
      · -- only the tasks with the pid are sent the signal
        have hsend : k.sendSig current sig p true =
            (0, k.modifyTask p fun t => { t with signal := t.signal ||| sigBit sig.toNat }) := by
          rw [sendSig, hp]
          exact (if_neg (by omega)).trans (if_pos (.inl rfl))
        rw [if_pos (by simpa using hpid), hsend]
        dsimp only
        rw [ih, task_modifyTask]
        by_cases hj : j = p
        · rw [if_pos hj, hj, hp, Option.map_some, Option.map_some, Option.map_some]
          simp only [List.mem_cons, true_or, hpid, if_true, and_true]
          split_ifs
          · rw [BitVec.or_assoc, BitVec.or_self]
          · rfl
        · rw [if_neg hj]
          simp only [List.mem_cons, hj, false_or]
      · rw [if_neg (by simpa using hpid), ih]
        refine Option.map_congr fun t ht => ?_
        by_cases hj : j = p
        · obtain rfl : u = t := by rw [hj, hp] at ht; exact Option.some.inj ht
          rw [if_neg fun hc => hpid hc.2, if_neg fun hc => hpid hc.2]
        · simp only [List.mem_cons, hj, false_or]

/-- `sys_sigaction` of the task 0 for the signal 10, at the address 3: its 16 bytes
    lie in the page directory. The mask has the bits of the signals 9 to 11. -/
def directoryAction : Sigaction :=
  { saHandler := 0x200700, saMask := 0x300700, saFlags := 0x400700, saRestorer := 0 }

theorem getNew_directory :
    getNew mainKernel.mm (slotSegment 0) 3 = .ok (directoryAction, mainKernel.mm) := by
  have hdir : ∀ d < 5, mainKernel.mm.phys d = if d < 4 then entryOf (4096 * (d + 1)) else 0 := by
    intro d hd
    rw [mm_mainKernel, Mm.mainMem, Mm.phys_memInit]
    exact Mm.pde_setupPaging (by omega)
  have hbytes : (List.range 16).map (fun j => mainKernel.mm.loadByte (3 + j)) =
      (List.range 16).map fun j => getByte
        (if (3 + j) / 4 < 4 then entryOf (4096 * ((3 + j) / 4 + 1)) else 0) ((3 + j) % 4) := by
    refine List.map_congr_left fun j hj => ?_
    have hj16 := List.mem_range.1 hj
    rw [Mm.loadByte, hdir _ (by omega)]
  rw [getNew, Mm.exists_getFsBytes (mm_mainKernel ▸ Mm.inv_mainMem) rfl (by decide) (by decide),
    Except.ok_bind]
  dsimp only
  rw [show (3 : Word).toNat = 3 from rfl, hbytes]
  refine congrArg Except.ok (Prod.ext ?_ rfl)
  decide

/-- A handler starts, if the stack has room for the words of `do_signal` on one
    present page. -/
theorem exists_deliver (h : k.Inv lo hi) (ht : k.task i = some t) {r : Regs} {signr : Nat}
    (hnext : nextSignal i t r = some signr) (h₁ : (t.action signr).saHandler ≠ 1)
    (h₀ : (t.action signr).saHandler ≠ 0) {a : Nat}
    (hsp : (r.esp - BitVec.ofNat 32 (4 * (t.signalFrame signr r).length)).toNat = a)
    (hlim : a + 4 * (t.signalFrame signr r).length ≤ initLimit)
    (hpage : a % 4096 + 4 * (t.signalFrame signr r).length ≤ 4096)
    {e : Word} (he : k.mm.translate (slotBase i + a) = some e) (hfree : 0 < k.mm.freeFrames) :
    ∃ x, k.deliver i t r = .ok x := by
  have hi0 := nextSignal_ne_zero hnext
  have hpos : 0 < 4 * (t.signalFrame signr r).length := by
    rw [Task.signalFrame]
    simp
  have hbase : slotBase i = 4096 * (i * 0x4000) := by
    rw [slotBase]
    omega
  have hi1 : 1 ≤ i.1 := Slot.pos hi0
  have hi64 := i.2
  have hlt : initLimit < 2 ^ 26 := by decide
  rw [hbase] at he
  obtain ⟨m₁, hverify, hinv₁, hrange⟩ := Mm.exists_verifyArea h.mm (by omega) (by omega) (by omega)
    hpos hpage he hfree
  have hlen := length_flatMap_bytesOf (t.signalFrame signr r)
  obtain ⟨m₂, hput⟩ : ∃ m₂, Mm.putFsBytes (slotSegment i) ((t.signalFrame signr r).flatMap bytesOf)
      (r.esp - BitVec.ofNat 32 (4 * (t.signalFrame signr r).length)) m₁ = .ok m₂ := by
    refine Mm.exists_putFsBytes _ hinv₁ (slotSegment_user hi0) ?_ ?_
    · rw [hsp, hlen]
      exact hlim
    · rw [hsp, hlen, slotSegment_base, ← slotBase, hbase]
      exact hrange
  -- `do_signal` stores longs, which are these bytes
  have hlongs := Mm.putFsLongs_of_bytes (by rw [hsp]; exact hlim) hput
  obtain ⟨t', r', hdo, hesp⟩ : ∃ t' r', (t.take signr).doSignal signr r =
      some (t', r', t.signalFrame signr r) ∧
      r'.esp = r.esp - BitVec.ofNat 32 (4 * (t.signalFrame signr r).length) :=
    ⟨_, _, (if_neg h₁).trans (if_neg h₀), rfl⟩
  rw [deliver, hnext]
  dsimp only
  rw [hdo]
  dsimp only
  rw [show (t.take signr).data = slotSegment i from h.data i t ht, slotSegment_base, ← slotBase,
    hbase, hesp, hsp, hverify, Except.ok_bind, hlongs, Except.ok_bind]
  exact ⟨_, rfl⟩

/-- A process sends a signal to another one. -/
theorem exists_kill (h : Reachable lo hi k) (hlo : 256 ≤ lo) (hle : lo ≤ hi) (hhi : hi ≤ 4096)
    {u : Task} (hu : k.task i = some u) (hlive : u.state ≠ .zombie) (hj : j ≠ 0)
    (ht : k.task j = some t) {sig : Int} (h₁ : 1 ≤ sig) (h₂ : sig ≤ 32) :
    ∃ k', Step k (.kill i t.pid sig) k' ∧ k'.mm = k.mm ∧
      k'.task j = some { t with signal := t.signal ||| sigBit sig.toNat } := by
  have hpid := (h.pidInv hlo hle hhi).range j t hj ht
  have hslt : (0 : Word).slt t.pid := by
    rw [BitVec.slt_iff_toInt_lt, BitVec.toInt_eq_toNat_of_lt (x := t.pid) (by omega)]
    exact Int.natCast_pos.2 hpid.1
  refine ⟨(k.sysKill u t.pid sig).2, ⟨⟨fun l hl => ?_, trivial⟩, ?_⟩,
    (sameTasks_sysKill (φ := Task.place) (fun _ _ => rfl) _ _).mm, ?_⟩
  · obtain rfl := Option.some.inj hl
    exact ⟨u, hu, hlive⟩
  · rw [Kernel.exec, hu]
    rfl
  · have hmem : ∀ j : Slot, j ≠ 0 → j ∈ (List.finRange 64).tail.reverse := by decide
    rw [sysKill, if_pos hslt, task_killSlots h₁ h₂, ht, Option.map_some, if_pos ⟨hmem j hj, rfl⟩]

/-- A process in slot 1 that has inherited the action of the signal 10, and has the
    signal pending. -/
theorem exists_pending :
    ∃ k t, Reachable 256 768 k ∧ k.task 1 = some t ∧ t.state = .running ∧ t.signal = sigBit 10 ∧
      t.blocked = 0 ∧ t.action 10 = maskAction 10 directoryAction ∧ 510 ≤ k.mm.freeFrames ∧
      k.mm.walk 16 1 = some (readOnly (entryOf (4096 * 1))) := by
  obtain ⟨u, hu⟩ : ∃ u, u = (initTask 0x8000).setAction 10 (maskAction 10 directoryAction) :=
    ⟨_, rfl⟩
  -- The task 0 sets the action, and its child inherits it.
  have hsig : Step mainKernel (.sigaction 0 10 3 0) (mainKernel.setTask 0 (some u)) := by
    refine ⟨⟨fun i hi => ?_, fun _ => rfl⟩, ?_⟩
    · obtain rfl := Option.some.inj hi
      exact ⟨_, rfl, by decide⟩
    · have hdata : (initTask 0x8000).data = slotSegment 0 := rfl
      rw [Kernel.exec, show mainKernel.task 0 = some (initTask 0x8000) from rfl, Option.map_some,
        sysSigaction, if_neg (by decide), hdata, getNew_directory, Except.ok_bind, hu]
      rfl
  have hreach : Reachable 256 768 (mainKernel.setTask 0 (some u)) := .step reachable_mainKernel hsig
  have hzero : (mainKernel.setTask 0 (some u)).task 0 = some u := by
    rw [task_setTask, if_pos rfl]
  have hslot : (mainKernel.setTask 0 (some u)).emptySlot = some 1 := rfl
  obtain ⟨k, t, hst, hrun, ⟨hact, hblocked, hsignal, -⟩, htask, -, hfree, hwalk⟩ :=
    exists_fork_zero (hreach.inv (by omega) (by omega) (by omega))
      (hreach.pidInv (by omega) (by omega) (by omega)) hzero (by rw [hu]; decide) hslot
      (fun d hd hdir => by
        rw [mm_setTask, mm_mainKernel]
        have hdir : d / 16 = 1 := hdir
        exact Mm.not_present_mainMem ⟨by omega, hd⟩)
      (by rw [mm_setTask, mm_mainKernel, Mm.freeFrames_mainMem]; omega) default
  rw [mm_setTask, mm_mainKernel, Mm.freeFrames_mainMem] at hfree
  have hk : Reachable 256 768 k := .step hreach hst
  have ht : k.task 1 = some t := by rw [htask, if_pos rfl]
  -- The task 0 sends the signal.
  have h0 : k.task 0 = some u := by rw [htask, if_neg (by decide), hzero]
  obtain ⟨k', hkill, hmm, ht'⟩ := exists_kill hk (by omega) (by omega) (by omega) h0
    (by rw [hu]; decide) (by decide) ht (show (1 : ℤ) ≤ 10 by omega) (by omega)
  refine ⟨k', _, Transition.Reachable.step hk hkill, ht', hrun, ?_, ?_, ?_, ?_, ?_⟩
  · rw [hsignal]
    rfl
  · rw [hblocked, hu]
    rfl
  · rw [Task.action, hact, hu]
    rfl
  · rw [hmm]
    omega
  · rw [hmm]
    have h1 := hwalk 1 (by omega)
    rwa [if_pos (by omega)] at h1

/-- The registers of a return to user mode, with the stack pointer 0x1020. -/
def userRegs : Regs := { (default : Regs) with cs := userCs, ss := userDs, esp := 0x1020 }

/-- The handler of the process starts. -/
theorem exists_handler :
    ∃ k k' t, Reachable 256 768 k ∧ k.task 1 = some t ∧ Step k (.deliver 1 userRegs) k' ∧
      nextSignal 1 t userRegs = some 10 ∧ t.blocked = 0 ∧
      t.action 10 = maskAction 10 directoryAction := by
  obtain ⟨k, t, hreach, ht, hrun, hsignal, hblocked, hact, hfree, hwalk⟩ := exists_pending
  have hnext : nextSignal 1 t userRegs = some 10 := by
    rw [nextSignal, Task.deliverable, hsignal, hblocked]
    decide
  have hlen : (t.signalFrame 10 userRegs).length = 8 := by
    rw [Task.signalFrame, hact]
    rfl
  obtain ⟨⟨r', k'⟩, hok⟩ :=
    exists_deliver (a := 0x1000) (hreach.inv (by omega) (by omega) (by omega)) ht
    hnext (by rw [hact]; decide) (by rw [hact]; decide) (by rw [hlen]; decide)
    (by rw [hlen]; decide)
    (by rw [hlen]; decide) hwalk (by omega)
  refine ⟨k, k', t, hreach, ht, ⟨⟨fun i hi => ?_, trivial⟩, ?_⟩, hnext, hblocked, hact⟩
  · obtain rfl := Option.some.inj hi
    exact ⟨t, ht, by rw [hrun]; decide⟩
  · rw [Kernel.exec, ht, Option.map_some, hok]
    rfl

end Kernel

end NeuOs
