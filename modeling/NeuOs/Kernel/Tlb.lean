import NeuOs.Kernel.Pid
import NeuOs.Mm.Tlb

/-!
# The kernel with the translation lookaside buffer

The processor may load the translation of a present page into its buffer, and drop one, between any
two actions of the kernel; an action of the kernel has the effect on the buffer that its calls of
`invalidate` have (`tlbAfter`). Loads between the instructions of one action, of pages that the
kernel itself uses, are not modelled.

In every reachable state, whenever the processor has loaded and dropped translations, the buffer is
coherent: what is modelled with the page tables alone is what the processor does
(`reachable_coherent`). A fork that runs out of memory is the delicate case: `copy_page_tables` has
protected pages of the parent, and returns without `invalidate`. It is `free_page_tables`, which
`copy_mem` then calls for the child, that empties the buffer.
-/

namespace NeuOs.Kernel

open Mm (Tlb invalidate Coherent)

/-! ## The effect of an action -/

/-- The effect of `copy_mem`. -/
def copyMemTlb (m : Mm) (current : Task) (nr : Slot) (tlb : Tlb) : Tlb :=
  if current.code.base ≠ current.data.base then tlb
  else if current.data.limit < current.code.limit then tlb
  else
    match m.copyPageTables current.data.base (slotBase nr) current.data.limit with
    | .error _ => tlb
    | .ok (r, _) =>
      let tlb := Mm.copyPageTablesTlb r tlb
      if r ≠ 0 then Mm.freePageTablesTlb tlb else tlb

/-- The effect of `copy_process`. -/
def copyProcessTlb (k : Kernel) (current : Task) (nr : Slot) (tlb : Tlb) : Tlb :=
  match k.mm.getFreePage with
  | (0, _) => tlb
  | (_, m) => copyMemTlb m current nr tlb

/-- The effect of `sys_fork`. -/
def sysForkTlb (k : Kernel) (current : Task) (tlb : Tlb) : Tlb :=
  match k.findEmptyProcess with
  | some (some nr, k) => k.copyProcessTlb current nr tlb
  | _ => tlb

/-- The effect of the part of `ret_from_syscall` that delivers a signal. -/
def deliverTlb (k : Kernel) (i : Slot) (t : Task) (r : Regs) (tlb : Tlb) : Tlb :=
  match nextSignal i t r with
  | none => tlb
  | some signr =>
    match (t.take signr).doSignal signr r with
    | none => tlb
    | some (_, r', longs) => k.mm.verifyAreaTlb t.data.base r'.esp.toNat (4 * longs.length) tlb

/-- The effect of `sys_sigaction`. -/
def sysSigactionTlb (k : Kernel) (t : Task) (signum : Int) (action oldAction : Word) (tlb : Tlb) :
    Tlb :=
  if refused signum then tlb
  else
    match getNew k.mm t.data action with
    | .error _ => tlb
    | .ok (_, m) =>
      if oldAction ≠ 0 then m.verifyAreaTlb t.data.base oldAction.toNat 16 tlb else tlb

/-- The effect of an action. -/
def tlbAfter (k : Kernel) (a : Action) (tlb : Tlb) : Tlb :=
  match a with
  | .fork i _ => (k.task i).elim tlb fun t => k.sysForkTlb t tlb
  | .exit _ _ => Mm.freePageTablesTlb (Mm.freePageTablesTlb tlb)
  | .fault i off write =>
    (k.task i).elim tlb fun t => k.mm.touchTlb (t.data.base + off) write tlb
  | .store i off _ => (k.task i).elim tlb fun t => k.mm.touchTlb (t.data.base + off) true tlb
  | .writeVerify a => k.mm.writeVerifyTlb a tlb
  | .put i addr bytes =>
    (k.task i).elim tlb fun t => k.mm.verifyAreaTlb t.data.base addr.toNat bytes.length tlb
  | .sigaction i signum action oldAction =>
    (k.task i).elim tlb fun t => k.sysSigactionTlb t signum action oldAction tlb
  | .deliver i r => (k.task i).elim tlb fun t => k.deliverTlb i t r tlb
  | .release .. | .taskWord .. | .kill .. | .ssetmask .. | .signal .. | .tick => tlb

/-! ## Steps -/

/-- The kernel on a processor with a buffer. -/
structure Processor where
  kernel : Kernel
  tlb : Tlb

inductive ProcessorAction
  /-- An action of the kernel. -/
  | kernel (a : Action)
  /-- The processor loads the translation of a page, or drops it. -/
  | load (p : ℕ)
  | drop (p : ℕ)

namespace Processor

/-- The translation of the page `p` is loaded. -/
def load (s : Processor) (p : ℕ) : Processor :=
  { s with tlb := Function.update s.tlb p (s.kernel.mm.walk (p / 1024) (p % 1024)) }

/-- A step of the processor. -/
def Step (s : Processor) (a : ProcessorAction) (s' : Processor) : Prop :=
  match a with
  | .kernel a => Kernel.Step s.kernel a s'.kernel ∧ s'.tlb = s.kernel.tlbAfter a s.tlb
  | .load p => p < 2 ^ 20 ∧ s' = s.load p
  | .drop p => s' = { s with tlb := Function.update s.tlb p none }

/-- The processor at boot. -/
def Booted (lo hi : ℕ) (s : Processor) : Prop :=
  Kernel.Booted lo hi s.kernel ∧ s.tlb = fun _ => none

/-- The entry with which the processor translates the linear address `a`. -/
def translate (s : Processor) (a : ℕ) : Option Word :=
  match s.tlb (a / 4096) with
  | some e => some e
  | none => s.kernel.mm.translate a

end Processor

/-! ## Coherence -/

variable {lo hi : ℕ} {k k' : Kernel} {i : Slot} {t : Task} {tlb : Tlb}

/-- Nothing is left in the buffer after `copy_mem` has copied page tables, even if that failed. -/
theorem copyMemTlb_eq {m m' : Mm} {current child : Task} {nr : Slot} {p : Task} {r : Int}
    (h : copyMem m current nr p = .ok (r, child, m')) :
    copyMemTlb m current nr tlb = fun _ => none := by
  rw [copyMem] at h
  rw [copyMemTlb]
  split_ifs at h ⊢ with hseg hlim
  obtain ⟨⟨r', m₁⟩, hcopy, -⟩ := Except.bind_eq_ok.1 h
  simp only [hcopy, Mm.copyPageTablesTlb]
  split_ifs <;> first | rfl | contradiction

theorem coherent_fork (hc : Coherent k.mm tlb) {r : Regs} {pid : Word}
    (h : k.sysFork t r = some (.ok (pid, k'))) : Coherent k'.mm (k.sysForkTlb t tlb) := by
  obtain ⟨⟨slot, k₁⟩, hfind, hx⟩ := Option.map_eq_some_iff.1 h
  have hmm : k₁.mm = k.mm := by
    obtain ⟨s, -, hs⟩ := Option.map_eq_some_iff.1 hfind
    exact (Prod.mk.inj hs).2 ▸ rfl
  rw [sysForkTlb, hfind]
  cases slot with
  | none =>
    obtain ⟨-, rfl⟩ := Prod.mk.inj (Except.ok.inj hx)
    exact hmm ▸ hc
  | some nr =>
    dsimp only at hx ⊢
    rw [copyProcess] at hx
    rw [copyProcessTlb]
    rcases Mm.getFreePage_cases k₁.mm with ⟨hnone, -⟩ | ⟨f, hge, -, -, -, hfree⟩
    · rw [hnone] at hx ⊢
      obtain ⟨-, rfl⟩ := Prod.mk.inj (Except.ok.inj hx)
      exact hmm ▸ hc
    · rw [hfree] at hx ⊢
      have hne : 4096 * f ≠ 0 := by omega
      obtain ⟨⟨err, child, m⟩, hcopy⟩ : ∃ x, copyMem (k₁.mm.alloc f) t nr
          (childTask t nr (4096 * f) k₁.lastPid k₁.jiffies r) = .ok x := by
        cases hcopy : copyMem (k₁.mm.alloc f) t nr
            (childTask t nr (4096 * f) k₁.lastPid k₁.jiffies r) with
        | ok x => exact ⟨x, rfl⟩
        | error p =>
          split at hx
          · next heq => exact absurd (congrArg Prod.fst heq) hne
          · next heq =>
            obtain ⟨rfl, rfl⟩ := Prod.mk.inj heq
            rw [hcopy] at hx
            cases hx
      split
      · next heq => exact absurd (congrArg Prod.fst heq) hne
      · next heq =>
        obtain ⟨rfl, rfl⟩ := Prod.mk.inj heq
        rw [copyMemTlb_eq hcopy]
        exact .invalidate _ tlb

theorem Inv.coherent_put (h : k.Inv lo hi) (hi0 : i ≠ 0) {m m₁ m₂ : Mm} {ext : ℕ → ℕ}
    (hm : m.Inv lo hi ext) (hc : Coherent m tlb) {addr : Word} {bytes : List Byte}
    (hne : bytes ≠ []) (ht : k.task i = some t)
    (hverify : m.verifyArea t.data.base addr.toNat bytes.length = .ok m₁)
    (hput : Mm.putFsBytes t.data bytes addr m₁ = .ok m₂) :
    Coherent m₂ (m.verifyAreaTlb t.data.base addr.toNat bytes.length tlb) := by
  rw [h.data i t ht] at *
  exact hm.coherent_put (slotSegment_user hi0) hne hc hverify hput

theorem Inv.coherent_sigaction (h : k.Inv lo hi) (ht : k.task i = some t) (hc : Coherent k.mm tlb)
    {signum : Int} {action oldAction w : Word} (hold : i = 0 → oldAction = 0)
    (hok : k.sysSigaction i t signum action oldAction = .ok (w, k')) :
    Coherent k'.mm (k.sysSigactionTlb t signum action oldAction tlb) := by
  rw [sysSigaction] at hok
  rw [sysSigactionTlb]
  by_cases href : refused signum
  · rw [if_pos href] at hok ⊢
    obtain ⟨-, rfl⟩ := Prod.mk.inj (Except.ok.inj hok)
    exact hc
  · rw [if_neg href] at hok ⊢
    obtain ⟨⟨new, m₀⟩, hnew, hok⟩ := Except.bind_eq_ok.1 hok
    obtain ⟨⟨bs, m⟩, hget, heq⟩ := Except.bind_eq_ok.1 hnew
    obtain rfl : m = m₀ := (Prod.mk.inj (Except.ok.inj heq)).2
    -- reading the new action only maps absent pages
    have hread : m.Inv lo hi k.taskRefs ∧ Coherent m tlb := by
      rw [h.data i t ht] at hget hnew
      refine ⟨(h.getNew_keeps hnew).1, ?_⟩
      by_cases hi0 : i = 0
      · rw [hi0] at hget
        exact getFsBytes_kernel h.mm hget ▸ hc
      · exact hc.extends (h.mm.extends_getFsBytes (slotSegment_user hi0) hget)
    rw [hnew]
    dsimp only at hok ⊢
    by_cases hz : oldAction = 0
    · rw [if_neg (not_not.2 hz)] at hok ⊢
      obtain ⟨-, rfl⟩ := Prod.mk.inj (Except.ok.inj hok)
      exact hread.2
    · rw [if_pos hz] at hok ⊢
      obtain ⟨m₂, hsave, hok⟩ := Except.bind_eq_ok.1 hok
      obtain ⟨-, rfl⟩ := Prod.mk.inj (Except.ok.inj hok)
      obtain ⟨m₁, hverify, hput⟩ := Except.bind_eq_ok.1 hsave
      exact h.coherent_put (fun hi0 => hz (hold hi0)) hread.1 hread.2
        (List.ne_nil_of_length_pos (by rw [Sigaction.length_bytes]; omega)) ht hverify hput

theorem Inv.coherent_deliver (h : k.Inv lo hi) (ht : k.task i = some t) (hc : Coherent k.mm tlb)
    {r r' : Regs} (hok : k.deliver i t r = .ok (r', k')) :
    Coherent k'.mm (k.deliverTlb i t r tlb) := by
  rw [deliver] at hok
  rw [deliverTlb]
  cases hnext : nextSignal i t r with
  | none =>
    rw [hnext] at hok
    obtain ⟨-, rfl⟩ := Prod.mk.inj (Except.ok.inj hok)
    exact hc
  | some signr =>
    rw [hnext] at hok
    dsimp only at hok ⊢
    cases hsig : (t.take signr).doSignal signr r with
    | none =>
      rw [hsig] at hok
      obtain ⟨-, rfl⟩ := Prod.mk.inj (Except.ok.inj hok)
      exact hc
    | some x =>
      obtain ⟨t', r₁, longs⟩ := x
      rw [hsig] at hok
      obtain ⟨m₁, hverify, hok⟩ := Except.bind_eq_ok.1 hok
      obtain ⟨m₂, hput, hok⟩ := Except.bind_eq_ok.1 hok
      obtain ⟨-, rfl⟩ := Prod.mk.inj (Except.ok.inj hok)
      have hlen : 4 * longs.length = (longs.flatMap bytesOf).length :=
        (length_flatMap_bytesOf longs).symm
      have hne : longs.flatMap bytesOf ≠ [] := by
        refine List.ne_nil_of_length_pos ?_
        rw [← hlen, (Task.doSignal_some hsig).2.2, Task.signalFrame]
        simp
      rw [hlen] at hverify
      change Coherent m₂ (k.mm.verifyAreaTlb t.data.base r₁.esp.toNat (4 * longs.length) tlb)
      rw [hlen]
      exact h.coherent_put (nextSignal_ne_zero hnext) h.mm hc hne ht hverify
        (Mm.putFsBytes_of_longs hput)

/-- Every action keeps the buffer coherent. -/
theorem Inv.coherent_step (h : k.Inv lo hi) (hc : Coherent k.mm tlb) {a : Action}
    (hst : Step k a k') : Coherent k'.mm (k.tlbAfter a tlb) := by
  have huser : ∀ {i : Slot} {t : Task} {off : ℕ}, i ≠ 0 → k.task i = some t → off < t.data.limit →
      Mm.UserAddr (t.data.base + off) := fun {i t off} hi0 ht hoff => by
    rw [h.data i t ht] at hoff ⊢
    exact (slotSegment_user hi0).userAddr hoff
  cases a with
  | fork i r =>
    obtain ⟨t, pid, ht, -, hfork⟩ := hst.fork
    simp only [tlbAfter, ht, Option.elim_some]
    exact coherent_fork hc hfork
  | exit i e => exact .invalidate _ (Mm.freePageTablesTlb tlb)
  | release i j =>
    obtain ⟨u, hj, hu, hrel⟩ := hst.release
    obtain ⟨f, -, hok, -⟩ := h.release_eq hj hu
    obtain rfl := Except.ok.inj (hok.symm.trans hrel)
    exact hc.extends fun d n e _ _ he => he
  | fault i off write =>
    obtain ⟨t, m, hi0, ht, -, hoff, htouch, rfl⟩ := hst.fault
    simp only [tlbAfter, ht, Option.elim_some]
    exact h.mm.coherent_touch (huser hi0 ht hoff) hc htouch
  | store i off b =>
    obtain ⟨t, m, hi0, ht, -, hoff, hstore, rfl⟩ := hst.store
    simp only [tlbAfter, ht, Option.elim_some]
    exact h.mm.coherent_userStore (huser hi0 ht hoff) hc hstore
  | writeVerify a =>
    obtain ⟨m, -, hverify, rfl⟩ := hst.writeVerify
    exact hc.writeVerify hverify
  | put i addr bytes =>
    obtain ⟨t, m₁, m, hi0, hne, ht, -, hverify, hput, rfl⟩ := hst.put
    simp only [tlbAfter, ht, Option.elim_some]
    exact h.coherent_put hi0 h.mm hc hne ht hverify hput
  | taskWord i w v =>
    obtain ⟨t, hi0, hw, ht, -, rfl⟩ := hst.taskWord
    obtain ⟨f, hge, hf⟩ := h.page i t hi0 ht
    have hpde := (h.mm.held_refs (taskRefs_pos hi0 ht hf)).2.1
    have hother : ∀ x, x / 1024 ≠ f → (k.mm.store (t.page + 4 * w) v).phys x = k.mm.phys x :=
      fun x hx => by rw [Mm.phys_store, if_neg (by omega)]
    obtain ⟨hinv, hwalk⟩ := h.mm.changeFrame hge hpde hother
    exact hc.extends (h.mm.extends hinv fun d n e hu he => (hwalk d n hu).trans he)
  | kill i pid sig =>
    obtain ⟨t, -, -, rfl⟩ := hst.kill
    have hmm := (@sameTasks_sysKill _ Task.place k t (fun _ _ => rfl) pid sig).mm
    rw [hmm]
    exact hc
  | ssetmask i newmask =>
    obtain ⟨t, -, -, rfl⟩ := hst.ssetmask
    exact hc
  | signal i signum handler restorer =>
    obtain ⟨t, ht, -, rfl⟩ := hst.signal
    rw [(sameTasks_sysSignal (φ := Task.place) ht (fun _ _ => rfl) signum handler restorer).mm]
    exact hc
  | sigaction i signum action oldAction =>
    obtain ⟨t, w, ht, -, hold, hok⟩ := hst.sigaction
    simp only [tlbAfter, ht, Option.elim_some]
    exact h.coherent_sigaction ht hc hold hok
  | deliver i r =>
    obtain ⟨t, r', ht, -, hok⟩ := hst.deliver
    simp only [tlbAfter, ht, Option.elim_some]
    exact h.coherent_deliver ht hc hok
  | tick =>
    obtain rfl := hst.tick
    exact hc

/-! ## Runs -/

variable {s s' : Processor}

theorem Processor.Step.coherent {a : ProcessorAction} (h : s.kernel.Inv lo hi)
    (hc : Coherent s.kernel.mm s.tlb) (hst : Processor.Step s a s') :
    s'.kernel.Inv lo hi ∧ Coherent s'.kernel.mm s'.tlb := by
  cases a with
  | kernel a =>
    obtain ⟨hstep, htlb⟩ := hst
    exact ⟨h.step hstep, htlb ▸ h.coherent_step hc hstep⟩
  | load p =>
    obtain ⟨-, rfl⟩ := hst
    refine ⟨h, fun q hq e he => ?_⟩
    by_cases hqp : q = p
    · rw [hqp] at he ⊢
      exact (Function.update_self p _ s.tlb).symm.trans he
    · exact hc q hq e ((Function.update_of_ne hqp _ s.tlb).symm.trans he)
  | drop p =>
    obtain rfl := hst
    refine ⟨h, fun q hq e he => ?_⟩
    by_cases hqp : q = p
    · rw [hqp] at he
      cases (Function.update_self p _ s.tlb).symm.trans he
    · exact hc q hq e ((Function.update_of_ne hqp _ s.tlb).symm.trans he)

/-- In every reachable state, whatever the processor has loaded into its buffer and dropped between
    the actions of the kernel, it translates every linear address as the page tables do. -/
theorem reachable_coherent (hlo : 256 ≤ lo) (hle : lo ≤ hi) (hhi : hi ≤ 4096)
    (h : Transition.Reachable (Processor.Booted lo hi) Processor.Step s) {a : ℕ} (ha : a < 2 ^ 32) :
    s.translate a = s.kernel.mm.translate a := by
  have hinv : s.kernel.Inv lo hi ∧ Coherent s.kernel.mm s.tlb := by
    refine h.invariant (fun s hs => ?_) fun s a s' hs hst => hst.coherent hs.1 hs.2
    obtain ⟨hboot, htlb⟩ := hs
    exact ⟨hboot.inv hlo hle hhi, htlb ▸ .invalidate _ s.tlb⟩
  rw [Processor.translate]
  cases he : s.tlb (a / 4096) with
  | none => rfl
  | some e =>
    have hwalk := hinv.2 (a / 4096) (by omega) e he
    rw [Mm.translate, show a / 2 ^ 22 = a / 4096 / 1024 by omega]
    exact hwalk.symm

/-- A step of the kernel is one of the processor. -/
theorem Processor.exists_step {a : Action} (s : Processor) (h : Kernel.Step s.kernel a k) :
    ∃ s', Processor.Step s (.kernel a) s' ∧ s'.kernel = k :=
  ⟨⟨k, s.kernel.tlbAfter a s.tlb⟩, ⟨h, rfl⟩, rfl⟩

theorem Processor.tlb_load (s : Processor) (p : ℕ) :
    (s.load p).tlb p = s.kernel.mm.walk (p / 1024) (p % 1024) := Function.update_self p _ s.tlb

/-- The first child uses its first page, which the processor loads, and exits: the translation is
    gone. -/
theorem reachable_coherent_exit : ∃ s s' : Processor, ∃ e,
    Transition.Reachable (Processor.Booted 256 768) Processor.Step s ∧
    s.tlb 0x4000 = some e ∧ s.translate 0x4000123 = some e ∧
    Processor.Step s (.kernel (.exit 1 0)) s' ∧ s'.translate 0x4000123 = none := by
  obtain ⟨k, t, hfork, ⟨hrun, -⟩, htask, -, -, hwalk⟩ := exists_child default
  have ht : k.task 1 = some t := (htask 1).trans (if_pos rfl)
  have hboot : Processor.Booted 256 768 ⟨mainKernel, fun _ => none⟩ := ⟨booted_mainKernel, rfl⟩
  obtain ⟨s₁, hst, hk₁⟩ := Processor.exists_step ⟨mainKernel, fun _ => none⟩ hfork
  obtain ⟨s, hs⟩ : ∃ s, s = s₁.load 0x4000 := ⟨_, rfl⟩
  have hused : Processor.Step s₁ (.load 0x4000) s := ⟨by norm_num, hs⟩
  have hk : s.kernel = k := hs ▸ hk₁
  have hreach : Transition.Reachable (Processor.Booted 256 768) Processor.Step s :=
    ((Transition.Reachable.init hboot).step hst).step hused
  have hload : s.tlb 0x4000 = some (readOnly (entryOf (4096 * 0))) := by
    rw [hs, Processor.tlb_load, hk₁]
    exact (hwalk 0 (by omega)).trans (if_pos (by omega))
  -- the exit frees the page table of the child
  have hchild : Reachable 256 768 k := reachable_mainKernel.step hfork
  obtain ⟨k', hok, -, -, hpde, -⟩ := (hchild.inv (by omega) (by omega) (by omega)).doExit_ok
    (φ := Task.place) (fun _ _ => rfl) (fun _ _ => rfl) (fun _ _ => rfl) (by decide) ht
    (((0 : Word) &&& 0xff) <<< 8)
  have hexit : Kernel.Step s.kernel (.exit 1 0) k' := by
    rw [hk]
    refine ⟨⟨fun i hi => ?_, trivial⟩, ?_⟩
    · obtain rfl := Option.some.inj hi
      exact ⟨t, ht, hrun ▸ nofun⟩
    · rw [Kernel.exec, ht, Option.map_some, sysExit, hok]
  obtain ⟨s', hst', hk'⟩ := s.exists_step hexit
  refine ⟨s, s', _, hreach, hload, ?_, hst', ?_⟩
  · rw [Processor.translate, show 0x4000123 / 4096 = 0x4000 from rfl, hload]
  · rw [reachable_coherent (by norm_num) (by norm_num) (by norm_num) (hreach.step hst')
      (by norm_num), hk']
    exact Mm.walk_eq_none.2 fun hp => ((hpde 16 (by omega)).1 hp.1).2 rfl

end NeuOs.Kernel
