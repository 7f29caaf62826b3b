import NeuOs.Kernel.Descriptor
import NeuOs.Kernel.Handler
import NeuOs.Kernel.Slices

/-!
# Switching tasks (`switch_to`, the GDT and the LDTs)

The GDT has two descriptors for each slot, of the TSS and of the LDT of its task; `sched_init`
makes those of the task 0 and `copy_process` those of a child, whose LDT is that of its parent with
other bases. `switch_to` jumps to the TSS of the slot that `schedule` has chosen: the processor
checks that its descriptor is available, marks it busy and the old one available, and takes the LDT
from the selector in the TSS.

In every reachable state, whatever slots have been used again, the jump succeeds, and the segments
it leads to are those of the task (`switch_loads`): the segments of the other modules, which are
numbers, are what the bytes of the descriptors say.
-/

namespace NeuOs

/-! ## The tables -/

/-- The offset of `ldt` in `struct task_struct`. -/
def ldtOffset : ℕ := 620

/-- The offset of `tss` in `struct task_struct`. -/
def tssOffset : ℕ := 644

/-- `_TSS(n)`. -/
def tssSelector (n : ℕ) : ℕ := (n <<< 4) + (4 <<< 3)

/-- The GDT, the arrays `ldt` of the tasks, and the task register. -/
structure Tables where
  gdt : ℕ → Descriptor
  ldt : Slot → ℕ → Descriptor
  tr : ℕ

namespace Tables

/-- `set_tss_desc` and `set_ldt_desc` of the slot `nr`, with its task at `page`. -/
def setSlot (gdt : ℕ → Descriptor) (nr : ℕ) (page : ℕ) : ℕ → Descriptor :=
  let tss := (nr <<< 1) + 4
  let ldt := (nr <<< 1) + 5
  let gdt := Function.update gdt tss
    ((gdt tss).setTssDesc (BitVec.ofNat 32 (page + tssOffset)))
  Function.update gdt ldt ((gdt ldt).setLdtDesc (BitVec.ofNat 32 (page + ldtOffset)))

/-- The descriptors that `copy_process` makes: `current` is in the slot `i`. -/
def copyProcess (tab : Tables) (i nr : Slot) (page : ℕ) : Tables :=
  let base := BitVec.ofNat 32 (slotBase nr)
  -- `*p = *current`
  let ldt := tab.ldt i
  let ldt := Function.update ldt 1 ((ldt 1).setBase base)
  let ldt := Function.update ldt 2 ((ldt 2).setBase base)
  { tab with ldt := Function.update tab.ldt nr ldt, gdt := setSlot tab.gdt nr page }

/-- The descriptors after an action that leads from `k` to `k'`. -/
def after (tab : Tables) (k : Kernel) (a : Action) (k' : Kernel) : Tables :=
  match a with
  | .fork i _ => (k.emptySlot.bind fun nr => (k'.task nr).map fun p =>
      tab.copyProcess i nr p.page).getD tab
  | _ => tab

/-- The processor marks a TSS busy. -/
def setBusy (d : Descriptor) : Descriptor := Function.update d 5 (d 5 ||| 2)

/-- The processor marks a TSS available. -/
def clearBusy (d : Descriptor) : Descriptor := Function.update d 5 (d 5 &&& ~~~2)

/-- `ljmp` to a TSS, which is not possible if it is not available. -/
def ljmp (tab : Tables) (sel : ℕ) : Option Tables :=
  if (tab.gdt (sel / 8)).access = 0x89 then
    let gdt := Function.update tab.gdt (tab.tr / 8) (clearBusy (tab.gdt (tab.tr / 8)))
    some { tab with gdt := Function.update gdt (sel / 8) (setBusy (gdt (sel / 8))), tr := sel }
  else none

/-- `switch_to(n)`, when the task in the slot `current` runs. -/
def switchTo (tab : Tables) (current n : Slot) : Option Tables :=
  if n = current then some tab else tab.ljmp (tssSelector n)

/-- The GDT of boot/head.s. -/
def headGdt (n : ℕ) : Descriptor :=
  if n = 1 then .ofWords 0xfff 0xc09a00 else if n = 2 then .ofWords 0xfff 0xc09200 else .ofWords 0 0

/-- The tables after `sched_init`, with `INIT_TASK` at `page`. -/
def boot (page : ℕ) : Tables where
  gdt := fun n =>
    let gdt := setSlot headGdt 0 page
    -- `ltr(0)`
    Function.update gdt (tssSelector 0 / 8) (setBusy (gdt (tssSelector 0 / 8))) n
  ldt := fun _ n =>
    if n = 1 then .ofWords 0x9f 0xc0fa00 else if n = 2 then .ofWords 0x9f 0xc0f200 else .ofWords 0 0
  tr := tssSelector 0

end Tables

/-- The segment of a descriptor. -/
def Descriptor.segment (d : Descriptor) : Segment := ⟨(d.getBase 0).toNat, d.getLimit⟩

/-! ## The system -/

/-- The system with its tables. -/
structure Switching where
  system : System
  tables : Tables

namespace Switching

/-- The action of the kernel in a step of the system. -/
def kernelAction : SystemAction → Option Action
  | .kernel a => some a
  | _ => none

/-- The tables after the step from `s` to `s'`: the action of the kernel, and `switch_to` if
    `schedule` has chosen another task. -/
def tablesAfter (tab : Tables) (s : System) (a : SystemAction) (s' : System) : Option Tables :=
  let tab := ((kernelAction a).map fun a => tab.after s.kernel a s'.kernel).getD tab
  tab.switchTo s.current s'.current

/-- A step. -/
def Step (s : Switching) (a : SystemAction) (s' : Switching) : Prop :=
  s.system.Step a s'.system ∧ tablesAfter s.tables s.system a s'.system = some s'.tables

/-- The system when `main` enters user mode. -/
def Booted (lo hi : ℕ) (s : Switching) : Prop :=
  Kernel.Booted lo hi s.system.kernel ∧ s.system.current = 0 ∧
    ∃ t, s.system.kernel.task 0 = some t ∧ s.tables = .boot t.page

abbrev Reachable (lo hi : ℕ) : Switching → Prop := Transition.Reachable (Booted lo hi) Step

end Switching

/-! ## The tasks in their slots -/

/-- The page of a task and its TSS. -/
def Task.context (t : Task) : ℕ × Tss := (t.page, t.tss)

namespace Kernel

variable {lo hi : ℕ} {k k' : Kernel} {a : Action} {i j : Slot}

/-- A task stays in its page, with its TSS, in every step but a fork. -/
theorem Inv.step_context (hk : k.Inv lo hi) (hst : Step k a k') (hfork : ∀ i r, a ≠ .fork i r)
    {t' : Task} (ht' : k'.task j = some t') : ∃ t, k.task j = some t ∧ t.context = t'.context :=
  (hk.step_keepsTasks (φ := Task.context) (fun _ _ => rfl) (fun _ _ => rfl) (fun _ _ => rfl)
    (fun _ _ _ _ => rfl) hst hfork).task_some ht'

/-- A fork leaves the tasks, or its child is in the slot that was found. -/
theorem Inv.step_fork (hk : k.Inv lo hi) {r : Regs} (hst : Step k (.fork i r) k') :
    (∀ j, k'.task j = k.task j) ∨ ∃ t k₀ nr f, k.task i = some t ∧ k.emptySlot = some nr ∧
      k.task nr = none ∧
      ∀ j, k'.task j = if j = nr then some (spawned k₀ t nr f r) else k.task j := by
  obtain ⟨t, pid, ht, -, hx⟩ := hst.fork
  obtain ⟨s, -, ⟨-, heq⟩ | ⟨nr, hslot, heq⟩⟩ := sysFork_search hx
  · obtain ⟨-, rfl⟩ := Prod.mk.inj (Except.ok.inj heq)
    exact .inl fun _ => rfl
  · obtain ⟨hnr, hnone⟩ := emptySlot_some hslot
    have hk' : Inv lo hi { k with lastPid := s.pid } := hk.counters _ _
    rcases hk'.copyProcess_cases ht hnr hnone r with
      ⟨herr, -⟩ | ⟨m, hok, -⟩ | ⟨m, m₁, f, hok, -⟩
    · cases heq.trans herr
    · obtain ⟨-, rfl⟩ := Prod.mk.inj (Except.ok.inj (heq.trans hok))
      exact .inl fun _ => rfl
    · obtain ⟨-, rfl⟩ := Prod.mk.inj (Except.ok.inj (heq.trans hok))
      exact .inr ⟨t, _, nr, f, ht, hslot, hnone, fun j => task_setTask _⟩

end Kernel

/-! ## The invariant -/

namespace Tables

/-- What the tables have for a task in the slot `j`, when the task in the slot `current` runs. -/
structure Slots (tab : Tables) (current j : Slot) (t : Task) : Prop where
  tssBase : (tab.gdt (2 * j + 4)).base = BitVec.ofNat 32 (t.page + tssOffset)
  tssAccess : (tab.gdt (2 * j + 4)).access = if j = current then 0x8b else 0x89
  ldtBase : (tab.gdt (2 * j + 5)).base = BitVec.ofNat 32 (t.page + ldtOffset)
  ldtAccess : (tab.gdt (2 * j + 5)).access = 0x82
  ldt : t.tss.ldt = ldtSelector j
  code : (tab.ldt j 1).segment = Kernel.slotSegment j
  data : (tab.ldt j 2).segment = Kernel.slotSegment j

/-- The tables agree with the tasks. -/
structure Agree (tab : Tables) (k : Kernel) (current : Slot) : Prop where
  tr : tab.tr = tssSelector current
  task : ∀ j t, k.task j = some t → tab.Slots current j t

variable {tab : Tables} {k k' : Kernel} {current i j n nr : Slot} {t t' : Task} {page : ℕ}

theorem tssSelector_div (n : ℕ) : tssSelector n / 8 = 2 * n + 4 := by
  rw [tssSelector, Nat.shiftLeft_eq, Nat.shiftLeft_eq]
  omega

theorem ldtSelector_div (j : Slot) : (ldtSelector j).toNat / 8 = 2 * j + 5 := by
  have := j.2
  rw [ldtSelector, BitVec.toNat_ofNat, Nat.shiftLeft_eq, Nat.shiftLeft_eq]
  omega

theorem Slots.context (h : tab.Slots current j t) (hctx : t.context = t'.context) :
    tab.Slots current j t' := by
  obtain ⟨hp, ht⟩ := Prod.mk.inj hctx
  exact ⟨hp ▸ h.tssBase, h.tssAccess, hp ▸ h.ldtBase, h.ldtAccess, ht ▸ h.ldt, h.code, h.data⟩

theorem Agree.of_context (h : tab.Agree k current)
    (hctx : ∀ j t', k'.task j = some t' → ∃ t, k.task j = some t ∧ t.context = t'.context) :
    tab.Agree k' current where
  tr := h.tr
  task j t' ht' := by
    obtain ⟨t, ht, heq⟩ := hctx j t' ht'
    exact (h.task j t ht).context heq

theorem setSlot_apply (gdt : ℕ → Descriptor) (nr m : ℕ) : setSlot gdt nr page m =
    if m = 2 * nr + 5 then (gdt m).setLdtDesc (BitVec.ofNat 32 (page + ldtOffset))
    else if m = 2 * nr + 4 then (gdt m).setTssDesc (BitVec.ofNat 32 (page + tssOffset))
    else gdt m := by
  have hshift : nr <<< 1 = 2 * nr := by rw [Nat.shiftLeft_eq]; omega
  rw [setSlot, hshift, Function.update_apply, Function.update_apply, Function.update_apply]
  split_ifs with h₁ h₂ h₃ <;> first | omega | rw [h₁] | rw [h₃] | rfl

/-- The descriptors of a slot whose task is set up. -/
theorem setSlot_spec (gdt : ℕ → Descriptor) (nr : ℕ) :
    (setSlot gdt nr page (2 * nr + 4)).base = BitVec.ofNat 32 (page + tssOffset) ∧
      (setSlot gdt nr page (2 * nr + 4)).access = 0x89 ∧
      (setSlot gdt nr page (2 * nr + 5)).base = BitVec.ofNat 32 (page + ldtOffset) ∧
      (setSlot gdt nr page (2 * nr + 5)).access = 0x82 := by
  rw [setSlot_apply, setSlot_apply, if_neg (by omega), if_pos rfl, if_pos rfl]
  obtain ⟨h₁, -, h₂⟩ := Descriptor.tssldt_spec (gdt (2 * nr + 4))
    (BitVec.ofNat 32 (page + tssOffset)) 0x89
  obtain ⟨h₃, -, h₄⟩ := Descriptor.tssldt_spec (gdt (2 * nr + 5))
    (BitVec.ofNat 32 (page + ldtOffset)) 0x82
  exact ⟨h₁, h₂, h₃, h₄⟩

/-- The segment of a descriptor whose base is set. -/
theorem segment_setBase {d : Descriptor} (hd : d.segment = Kernel.slotSegment i) (nr : Slot) :
    (d.setBase (BitVec.ofNat 32 (slotBase nr))).segment = Kernel.slotSegment nr := by
  have hnr := nr.2
  obtain ⟨hbase, hlimit, -⟩ := Descriptor.getBase_setBase d (BitVec.ofNat 32 (slotBase nr)) 0
  have hlim : d.getLimit = initLimit := congrArg Segment.limit hd
  have hnat : (BitVec.ofNat 32 (slotBase nr)).toNat = slotBase nr := by
    rw [BitVec.toNat_ofNat, slotBase]
    omega
  rw [Descriptor.segment, hbase, hlimit, hlim, hnat]
  rfl

/-- The child in the slot `nr` gets its descriptors, and the other slots keep theirs. -/
theorem Agree.copyProcess (h : tab.Agree k current) {t₀ : Task} (ht₀ : k.task i = some t₀)
    (hnr : nr ≠ current) (hempty : k.task nr = none)
    (htask : ∀ j, k'.task j = if j = nr then some t else k.task j)
    (hldt : t.tss.ldt = ldtSelector nr) :
    (tab.copyProcess i nr t.page).Agree k' current where
  tr := h.tr
  task j t' ht' := by
    rw [htask] at ht'
    split_ifs at ht' with hj
    · obtain rfl := Option.some.inj ht'
      obtain rfl := hj
      obtain ⟨h₁, h₂, h₃, h₄⟩ := @setSlot_spec t.page tab.gdt j
      have hparent := h.task i t₀ ht₀
      refine ⟨h₁, by rw [if_neg hnr]; exact h₂, h₃, h₄, hldt, ?_, ?_⟩
      all_goals rw [Tables.copyProcess]
      all_goals simp only [Function.update_self]
      · rw [Function.update_of_ne (by norm_num), Function.update_self]
        exact segment_setBase hparent.code j
      · rw [Function.update_of_ne (by norm_num)]
        exact segment_setBase hparent.data j
    · have hne : (j : ℕ) ≠ nr := fun heq => hj (Fin.ext heq)
      have hold := h.task j t' ht'
      have hgdt : ∀ m, m = 2 * (j : ℕ) + 4 ∨ m = 2 * (j : ℕ) + 5 →
          (tab.copyProcess i nr t.page).gdt m = tab.gdt m := fun m hm => by
        rw [Tables.copyProcess]
        dsimp only
        rw [setSlot_apply, if_neg (by omega), if_neg (by omega)]
      have hldt' : (tab.copyProcess i nr t.page).ldt j = tab.ldt j := Function.update_of_ne hj _ _
      exact ⟨by rw [hgdt _ (.inl rfl)]; exact hold.tssBase,
        by rw [hgdt _ (.inl rfl)]; exact hold.tssAccess,
        by rw [hgdt _ (.inr rfl)]; exact hold.ldtBase,
        by rw [hgdt _ (.inr rfl)]; exact hold.ldtAccess, hold.ldt,
        by rw [hldt']; exact hold.code, by rw [hldt']; exact hold.data⟩

/-! ## The switch -/

theorem base_update5 (d : Descriptor) (b : Byte) :
    Descriptor.base (Function.update d 5 b) = d.base := by
  simp [Descriptor.base]

theorem access_setBusy (d : Descriptor) : (setBusy d).access = d.access ||| 2 :=
  Function.update_self 5 _ d

theorem access_clearBusy (d : Descriptor) : (clearBusy d).access = d.access &&& ~~~2 :=
  Function.update_self 5 _ d

/-- The GDT after a jump to the TSS of another slot. -/
theorem Agree.ljmp_apply (h : tab.Agree k current) (hn : n ≠ current)
    (haccess : (tab.gdt (2 * n + 4)).access = 0x89) :
    ∃ tab', tab.ljmp (tssSelector n) = some tab' ∧ tab'.tr = tssSelector n ∧ tab'.ldt = tab.ldt ∧
      ∀ m, tab'.gdt m = if m = 2 * n + 4 then setBusy (tab.gdt m)
        else if m = 2 * current + 4 then clearBusy (tab.gdt m) else tab.gdt m := by
  have hne : (n : ℕ) ≠ current := fun heq => hn (Fin.ext heq)
  rw [ljmp, h.tr, tssSelector_div, tssSelector_div, if_pos haccess]
  refine ⟨_, rfl, rfl, rfl, fun m => ?_⟩
  dsimp only
  have hother : Function.update tab.gdt (2 * current + 4) (clearBusy (tab.gdt (2 * current + 4)))
      (2 * n + 4) = tab.gdt (2 * n + 4) := Function.update_of_ne (by omega) _ _
  rw [hother, Function.update_apply, Function.update_apply]
  split_ifs with h₁ h₂
  · rw [h₁]
  · rw [h₂]
  · rfl

/-- `switch_to` to the slot of a task succeeds. -/
theorem Agree.switchTo (h : tab.Agree k current) (ht : k.task n = some t) :
    ∃ tab', tab.switchTo current n = some tab' ∧ tab'.Agree k n := by
  rw [Tables.switchTo]
  split_ifs with hn
  · exact ⟨tab, rfl, hn ▸ h⟩
  · have havail : (tab.gdt (2 * n + 4)).access = 0x89 := by
      rw [(h.task n t ht).tssAccess, if_neg hn]
    obtain ⟨tab', hjmp, htr, hldt, hgdt⟩ := h.ljmp_apply hn havail
    refine ⟨tab', hjmp, htr, fun j t' ht' => ?_⟩
    obtain ⟨h₁, h₂, h₃, h₄, h₅, h₆, h₇⟩ := h.task j t' ht'
    have hsame : tab'.gdt (2 * j + 5) = tab.gdt (2 * j + 5) := by
      rw [hgdt, if_neg (by omega), if_neg (by omega)]
    have hiff : ∀ i : Slot, 2 * (j : ℕ) + 4 = 2 * i + 4 ↔ j = i := fun i =>
      ⟨fun heq => Fin.ext (by omega), fun heq => by rw [heq]⟩
    have htss := hgdt (2 * j + 4)
    simp only [hiff] at htss
    refine ⟨?_, ?_, by rw [hsame]; exact h₃, by rw [hsame]; exact h₄, h₅,
      by rw [hldt]; exact h₆, by rw [hldt]; exact h₇⟩
    · rw [htss]
      split_ifs
      · exact (base_update5 _ _).trans h₁
      · exact (base_update5 _ _).trans h₁
      · exact h₁
    · rw [htss]
      split_ifs with hjn hjc
      · rw [if_neg (hjn ▸ hn)] at h₂
        rw [access_setBusy, h₂]
        rfl
      · rw [if_pos hjc] at h₂
        rw [access_clearBusy, h₂]
        rfl
      · rw [h₂, if_neg hjc]

end Tables

/-! ## Runs -/

namespace Switching

variable {lo hi : ℕ} {s s' : Switching} {a : SystemAction} {sys : System}

theorem agree_boot {k : Kernel} (hb : Kernel.Booted lo hi k) {t : Task} (ht : k.task 0 = some t) :
    (Tables.boot t.page).Agree k 0 := by
  refine ⟨rfl, fun j t' ht' => ?_⟩
  obtain ⟨m, page, -, rfl⟩ := hb
  have hj : j = 0 := by
    by_contra hj
    cases (if_neg hj).symm.trans ht'
  obtain rfl := hj
  obtain rfl := Option.some.inj (ht.symm.trans ht')
  obtain ⟨h₁, h₂, h₃, h₄⟩ := @Tables.setSlot_spec t.page Tables.headGdt 0
  have hcode : (Descriptor.ofWords 0x9f 0xc0fa00).segment = Kernel.slotSegment 0 := by decide
  have hdata : (Descriptor.ofWords 0x9f 0xc0f200).segment = Kernel.slotSegment 0 := by decide
  refine ⟨(Tables.base_update5 _ _).trans h₁, ?_, h₃, h₄, ?_, hcode, hdata⟩
  · have hbusy : ((Tables.boot t.page).gdt (2 * (0 : Slot) + 4)).access =
        (Tables.setSlot Tables.headGdt 0 t.page (2 * 0 + 4)).access ||| 2 := rfl
    rw [hbusy, h₂, if_pos rfl]
    rfl
  · rw [← Option.some.inj ht]
    rfl

/-- What the rest of the system does to the tasks leaves their pages and their TSS. -/
theorem acts_context {s : System} {k : Kernel} {calls : Bool} (hk : ∀ b, a ≠ .kernel b)
    (ha : s.Acts a k calls) {j : Slot} {t' : Task} (ht' : k.task j = some t') :
    ∃ t, s.kernel.task j = some t ∧ t.context = t'.context := by
  cases a with
  | kernel b => exact absurd rfl (hk b)
  | timer cpl =>
    obtain rfl := (Prod.mk.inj ha).1
    exact (Kernel.SameTasks.doTimer (φ := Task.context) (fun _ _ => rfl) (fun _ _ => rfl)
      (fun _ _ => rfl) { s.kernel with jiffies := s.kernel.jiffies + 1 } s.current cpl).task_some
      ht'
  | schedule => exact ⟨t', ha.1 ▸ ht', rfl⟩
  | sleep interruptible =>
    have hsame : Kernel.SameTasks Task.context s.kernel k := ha.1 ▸ .modifyTask fun _ => rfl
    exact hsame.task_some ht'
  | wakeUp j =>
    have hsame : Kernel.SameTasks Task.context s.kernel k := ha.1 ▸ .modifyTask fun _ => rfl
    exact hsame.task_some ht'

/-- An action of the system, with the descriptors it makes. -/
theorem agree_acts {s : System} {tab : Tables} {k : Kernel} {calls : Bool}
    (hinv : s.kernel.Inv lo hi) (h : tab.Agree s.kernel s.current) (ha : s.Acts a k calls) :
    (((kernelAction a).map fun b => tab.after s.kernel b k).getD tab).Agree k s.current := by
  by_cases hkernel : ∃ b, a = .kernel b
  · obtain ⟨b, rfl⟩ := hkernel
    obtain ⟨hst, hslot, -⟩ := ha
    change (tab.after s.kernel b k).Agree k s.current
    by_cases hfork : ∃ i r, b = .fork i r
    · obtain ⟨i, r, rfl⟩ := hfork
      obtain rfl : i = s.current := hslot i rfl
      rcases hinv.step_fork hst with hsame | ⟨t, k₀, nr, f, ht, hempty, hnone, htask⟩
      · have hafter : tab.after s.kernel (.fork s.current r) k = tab := by
          rw [Tables.after]
          cases hempty : s.kernel.emptySlot with
          | none => rfl
          | some nr => rw [Option.bind_some, hsame, (Kernel.emptySlot_some hempty).2]; rfl
        rw [hafter]
        exact h.of_context fun j t' ht' => ⟨t', (hsame j).symm.trans ht', rfl⟩
      · have hchild : k.task nr = some (Kernel.spawned k₀ t nr f r) := by rw [htask, if_pos rfl]
        have hafter : tab.after s.kernel (.fork s.current r) k =
            tab.copyProcess s.current nr (Kernel.spawned k₀ t nr f r).page := by
          rw [Tables.after, hempty, Option.bind_some, hchild]
          rfl
        rw [hafter]
        refine h.copyProcess ht (fun heq => ?_) hnone htask rfl
        cases hnone.symm.trans (heq ▸ ht)
    · have hafter : tab.after s.kernel b k = tab := by
        cases b with
        | fork i r => exact absurd ⟨i, r, rfl⟩ hfork
        | _ => rfl
      rw [hafter]
      exact h.of_context fun j t' ht' =>
        hinv.step_context hst (fun i r heq => hfork ⟨i, r, heq⟩) ht'
  · have hnone : kernelAction a = none := by
      cases a with
      | kernel b => exact absurd ⟨b, rfl⟩ hkernel
      | _ => rfl
    rw [hnone]
    exact h.of_context fun j t' ht' =>
      acts_context (fun b heq => hkernel ⟨b, heq⟩) ha ht'

/-- A call of `schedule` makes no descriptors, and chooses a slot with a task. -/
theorem agree_schedule {k k' : Kernel} {tab : Tables} {current next : Slot} {fuel : ℕ}
    (hinv : k.Inv lo hi) (h : tab.Agree k current) (hx : k.schedule fuel = some (k', next)) :
    tab.Agree k' current ∧ ∃ t, k'.task next = some t := by
  have hsignal : Kernel.SameTasks Task.context k k.signalPass :=
    .everyTask (fun t => by rw [Task.wake, Task.ring]; split_ifs <;> rfl) _ k
  have hsame := hsignal.trans (.select (fun _ _ => rfl) hx)
  exact ⟨h.of_context fun j t' ht' => hsame.task_some ht', System.exists_scheduled hinv hx⟩

/-- What the tables become does not depend on a call of `schedule`. -/
theorem tables_after_schedule (tab : Tables) {s : System} {k : Kernel} (ha : s.Acts a k true)
    (k' : Kernel) :
    ((kernelAction a).map fun b => tab.after s.kernel b k').getD tab =
      ((kernelAction a).map fun b => tab.after s.kernel b k).getD tab := by
  cases a with
  | kernel b =>
    cases b with
    | fork i r => cases ha.2.2
    | _ => rfl
  | _ => rfl

/-- Each step of the system is possible with the tables, and keeps them. -/
theorem agree_step {tab : Tables} (hinv : sys.kernel.Inv lo hi)
    (hinv' : ∀ {k calls}, sys.Acts a k calls → k.Inv lo hi) (h : tab.Agree sys.kernel sys.current)
    {sys' : System} (hst : sys.Step a sys') :
    ∃ tab', tablesAfter tab sys a sys' = some tab' ∧ tab'.Agree sys'.kernel sys'.current := by
  obtain ⟨k, calls, ha, hend⟩ := hst
  have hacts := agree_acts hinv h ha
  rw [tablesAfter]
  cases calls with
  | true =>
    obtain ⟨fuel, hx⟩ := hend
    obtain ⟨hagree, t, ht⟩ := agree_schedule (hinv' ha) hacts hx
    rw [tables_after_schedule tab ha]
    exact hagree.switchTo ht
  | false =>
    obtain ⟨hk, hcurrent⟩ := hend
    rw [hk, hcurrent]
    exact ⟨_, if_pos rfl, hacts⟩

/-- The invariant of the system with its tables. -/
def Good (lo hi : ℕ) (s : Switching) : Prop :=
  System.Good lo hi s.system.kernel ∧ s.tables.Agree s.system.kernel s.system.current

theorem Reachable.good (hlo : 256 ≤ lo) (hle : lo ≤ hi) (hhi : hi ≤ 4096) (h : Reachable lo hi s) :
    Good lo hi s := by
  refine h.invariant (P := Good lo hi) ?_ ?_
  · rintro s ⟨hb, hcurrent, t, ht, htab⟩
    refine ⟨.boot hlo hle hhi hb, ?_⟩
    rw [htab, hcurrent]
    exact agree_boot hb ht
  · rintro s a s' ⟨hgood, hagree⟩ ⟨hst, htab⟩
    obtain ⟨tab', htab', hagree'⟩ := agree_step hgood.1 (fun ha => (hgood.acts ha).1) hagree hst
    obtain rfl := Option.some.inj (htab.symm.trans htab')
    exact ⟨hgood.step hst, hagree'⟩

/-- In every reachable state, each step of the system can switch to the task that it chooses. The
    task register selects the TSS of the task that runs, which alone is busy; through the LDT that
    this TSS selects, the processor finds the segments of the task. -/
theorem switch_loads (hlo : 256 ≤ lo) (hle : lo ≤ hi) (hhi : hi ≤ 4096) (h : Reachable lo hi s) :
    (∀ a sys, s.system.Step a sys → ∃ tab, Step s a ⟨sys, tab⟩) ∧
    s.tables.tr = tssSelector s.system.current ∧
    ∀ j t, s.system.kernel.task j = some t →
      let tss := s.tables.gdt (tssSelector j / 8)
      let ldt := s.tables.gdt (t.tss.ldt.toNat / 8)
      (tss.base = BitVec.ofNat 32 (t.page + tssOffset) ∧
        tss.access = if j = s.system.current then 0x8b else 0x89) ∧
      (ldt.base = BitVec.ofNat 32 (t.page + ldtOffset) ∧ ldt.access = 0x82) ∧
      (s.tables.ldt j 1).segment = t.code ∧ (s.tables.ldt j 2).segment = t.data := by
  obtain ⟨hgood, hagree⟩ := h.good hlo hle hhi
  refine ⟨fun a sys hst => ?_, hagree.tr, fun j t ht => ?_⟩
  · obtain ⟨tab, htab, -⟩ := agree_step hgood.1 (fun ha => (hgood.acts ha).1) hagree hst
    exact ⟨tab, hst, htab⟩
  · have hslot := hagree.task j t ht
    rw [Tables.tssSelector_div, hslot.ldt, Tables.ldtSelector_div, hgood.1.code j t ht,
      hgood.1.data j t ht]
    exact ⟨⟨hslot.tssBase, hslot.tssAccess⟩, ⟨hslot.ldtBase, hslot.ldtAccess⟩, hslot.code,
      hslot.data⟩

/-- The first task forks and goes to sleep: the child runs, with its TSS and its segments. -/
theorem switch_loads_child : ∃ (s : Switching) (t : Task), Reachable 256 768 s ∧
    s.system.current = 1 ∧ s.system.kernel.task 1 = some t ∧ s.tables.tr = tssSelector 1 ∧
    (s.tables.gdt (tssSelector 1 / 8)).base = BitVec.ofNat 32 (t.page + tssOffset) ∧
    (s.tables.gdt (tssSelector 1 / 8)).access = 0x8b ∧
    (s.tables.gdt (tssSelector 0 / 8)).access = 0x89 := by
  obtain ⟨k, k', t, hfork, hsleep, ht, -⟩ := System.exists_switch
  have hboot : Reachable 256 768 ⟨⟨Kernel.mainKernel, 0⟩, .boot 0x8000⟩ :=
    .init ⟨Kernel.booted_mainKernel, rfl, _, rfl, rfl⟩
  obtain ⟨tab, hst⟩ := (switch_loads (by norm_num) (by norm_num) (by norm_num) hboot).1 _ _ hfork
  have hreach : Reachable 256 768 _ := hboot.step hst
  obtain ⟨tab', hst'⟩ :=
    (switch_loads (by norm_num) (by norm_num) (by norm_num) hreach).1 _ _ hsleep
  have hreach' : Reachable 256 768 _ := hreach.step hst'
  obtain ⟨-, htr, hload⟩ := switch_loads (by norm_num) (by norm_num) (by norm_num) hreach'
  obtain ⟨u, hu, -⟩ := (hreach'.good (by norm_num) (by norm_num) (by norm_num)).1.1.init
  obtain ⟨⟨hbase, haccess⟩, -⟩ := hload 1 t ht
  exact ⟨_, t, hreach', rfl, ht, htr, hbase, haccess, (hload 0 u hu).1.2⟩

end Switching

end NeuOs
