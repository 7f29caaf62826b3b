import NeuOs.Kernel.Slices
import NeuOs.Kernel.UserStores

/-!
# Processes and their memory

`sys_waitpid` releases a process when it is a zombie; `do_exit` has freed its page tables before. In
every state that the kernel reaches so, the page tables in the directory are those of the processes
that live. So no fork finds a page table in its way, and no frame is lost: when
there is no process left but the first one, every frame is free again (`frames_returned`).
-/

namespace NeuOs

namespace Kernel

variable {lo hi : ℕ} {k k' : Kernel} {i j nr : Slot} {t : Task} {a : Action}

/-! ## Runs -/

/-- `release` is called for a zombie, as it is in `sys_waitpid`. -/
def Reaps (k : Kernel) : Action → Prop
  | .release _ j => ∀ t, k.task j = some t → t.state = .zombie
  | _ => True

/-- A step in which only zombies are released. -/
def ReapStep (k : Kernel) (a : Action) (k' : Kernel) : Prop := Step k a k' ∧ k.Reaps a

/-- The states of the kernel when only zombies are released. -/
abbrev ReapReachable (lo hi : ℕ) : Kernel → Prop := Transition.Reachable (Booted lo hi) ReapStep

theorem ReapReachable.reachable (h : ReapReachable lo hi k) : Reachable lo hi k := by
  induction h with
  | init hb => exact .init hb
  | step _ hst ih => exact ih.step hst.1

/-! ## The processes that live -/

theorem SameTasks.alive_after (h : SameTasks (fun t => t.state) k k') (ha : k.Alive j) :
    k'.Alive j := by
  obtain ⟨t, ht, hs⟩ := ha
  obtain ⟨t', ht', heq⟩ := h.task_after ht
  exact ⟨t', ht', fun hz => hs (heq ▸ hz)⟩

theorem alive_clear (hne : j ≠ i) (ha : k.Alive j) : (k.setTask i none).Alive j := by
  obtain ⟨t, ht, hs⟩ := ha
  exact ⟨t, by rw [task_setTask, if_neg hne]; exact ht, hs⟩

/-- The exit of a process leaves the others alive. -/
theorem Inv.finishExit_alive (h : k.Inv lo hi) (hi0 : i ≠ 0) (ht : k.task i = some t) {code : Word}
    (hok : k.finishExit i t code = .ok k') (hne : j ≠ i) (ha : k.Alive j) : k'.Alive j := by
  have horphan : SameTasks (fun t => t.state) k (orphan t (List.finRange 64) k) :=
    sameTasks_orphan (fun _ _ => rfl) (fun _ _ => rfl) _
  have hplace : SameTasks Task.place k ((orphan t (List.finRange 64) k).modifyTask i
      fun t => { t with state := .zombie, exitCode := code }) :=
    (sameTasks_orphan (fun _ _ => rfl) (fun _ _ => rfl) _).trans (.modifyTask fun _ => rfl)
  have hbefore : ((orphan t (List.finRange 64) k).modifyTask i
      fun t => { t with state := .zombie, exitCode := code }).Alive j := by
    obtain ⟨u, hu, hs⟩ := horphan.alive_after ha
    exact ⟨u, by rw [task_modifyTask, if_neg hne]; exact hu, hs⟩
  rw [finishExit] at hok
  rcases tellFather_cases (φ := fun t => t.state) (fun _ _ => rfl) _ t _ with
    ⟨k₁, hok₁, hsame₁⟩ | hrel
  · obtain rfl := Except.ok.inj (hok₁.symm.trans hok)
    exact hsame₁.alive_after hbefore
  · -- without a father, the process releases itself
    obtain ⟨t₁, ht₁, heq⟩ := hplace.task_after ht
    have hpage : t₁.page = t.page := congrArg Prod.fst heq
    obtain ⟨f, -, hrel₁, -⟩ := (h.of_sameTasks hplace).release_eq hi0 ht₁
    rw [hpage] at hrel₁
    obtain rfl := Except.ok.inj (hrel₁.symm.trans (hrel.symm.trans hok))
    exact alive_clear hne hbefore

/-- A step that is no exit leaves the processes alive. -/
theorem Inv.alive_step (h : k.Inv lo hi) (hst : ReapStep k a k') (hexit : ∀ i e, a ≠ .exit i e)
    (ha : k.Alive j) : k'.Alive j := by
  obtain ⟨hst, hreaps⟩ := hst
  have hrest : (∀ i r, a ≠ .fork i r) → (∀ i j, a ≠ .release i j) → k'.Alive j :=
    fun hfork hrelease => by
      obtain ⟨m, hsame⟩ := hst.sameTasks (φ := fun t => t.state) (fun _ _ => rfl)
        (fun _ _ _ _ => rfl) hfork hexit hrelease
      exact hsame.alive_after ha
  cases a with
  | fork i r =>
    obtain ⟨t, pid, ht, -, hy⟩ := hst.fork
    obtain ⟨u, hu, hs⟩ := ha
    rcases h.fork_tasks ht hy with hsame | ⟨k₀, nr, f, -, hnone, htask⟩
    · exact ⟨u, (hsame j).trans hu, hs⟩
    · have hne : j ≠ nr := fun heq => by
        rw [heq] at hu
        cases hnone.symm.trans hu
      exact ⟨u, by rw [htask, if_neg hne]; exact hu, hs⟩
  | release i l =>
    obtain ⟨u, hl, hu, hx⟩ := hst.release
    obtain ⟨f, -, hok, -⟩ := h.release_eq hl hu
    obtain rfl := Except.ok.inj (hok.symm.trans hx)
    refine alive_clear (fun heq => ?_) ha
    obtain ⟨t, ht, hs⟩ := ha
    exact hs (hreaps t (heq ▸ ht))
  | _ => exact hrest (fun _ _ heq => by cases heq) (fun _ _ heq => by cases heq)

/-! ## Page tables -/

/-- A slot without a process that lives has no page table. -/
def Bare (k : Kernel) : Prop := ∀ j, j ≠ 0 → ¬k.Alive j → ¬Present (k.mm.pde (16 * j))

/-- `do_exit` leaves the other processes alive. -/
theorem Inv.exit_alive (h : k.Inv lo hi) (hi0 : i ≠ 0) (ht : k.task i = some t) {errorCode : Word}
    (hok : k.sysExit i t errorCode = .ok k') (hne : j ≠ i) (ha : k.Alive j) : k'.Alive j := by
  have hi1 : 1 ≤ i.1 := Slot.pos hi0
  have hlim : initLimit ≤ 0x4000000 := by decide
  rw [sysExit, doExit, h.code i t ht, h.data i t ht, slotSegment_base, slotSegment_limit] at hok
  obtain ⟨m₁, hok₁, hok⟩ := Except.bind_eq_ok.1 hok
  obtain ⟨m₂, hok₂, hok⟩ := Except.bind_eq_ok.1 hok
  obtain ⟨m₁', hok₁', hinv₁, -⟩ := h.mm.freePageTables hi1 i.2 hlim
  obtain rfl := Except.ok.inj (hok₁'.symm.trans hok₁)
  obtain ⟨m₂', hok₂', hinv₂, -⟩ := hinv₁.freePageTables hi1 i.2 hlim
  obtain rfl := Except.ok.inj (hok₂'.symm.trans hok₂)
  exact (h.withMm hinv₂).finishExit_alive hi0 ht hok hne ha

theorem Bare.exit (hbare : k.Bare) (h : k.Inv lo hi) (ht : k.task i = some t) {errorCode : Word}
    (hok : k.sysExit i t errorCode = .ok k') : k'.Bare := by
  by_cases hi0 : i = 0
  · cases (h.exit_zero hi0 ht errorCode).symm.trans hok
  · obtain ⟨k₁, hok₁, -, -, hpde, -⟩ := h.doExit_ok (φ := Task.place) (fun _ _ => rfl)
      (fun _ _ => rfl) (fun _ _ => rfl) hi0 ht ((errorCode &&& 0xff) <<< 8)
    obtain rfl := Except.ok.inj (hok₁.symm.trans hok)
    intro j hj hdead hp
    have hj64 := j.2
    obtain ⟨hp, hne⟩ := (hpde (16 * j) (by omega)).1 hp
    have hji : j ≠ i := fun heq => hne (by rw [heq])
    exact hbare j hj (fun ha => hdead (h.exit_alive hi0 ht hok hji ha)) hp

/-- `copy_process` makes a child, or it has found no page for it, or `copy_mem` has failed. -/
theorem copyProcess_dead {current : Task} {r : Regs} {pid : Word}
    (hok : k.copyProcess current nr r = .ok (pid, k')) (hdead : ¬k'.Alive nr) :
    k' = k ∨ ∃ f, 256 ≤ f ∧ f < 4096 ∧ k.mm.memMap (f - 256) = 0 ∧ ∃ err p child m m',
      copyMem (k.mm.alloc f) current nr p = .ok (err, child, m) ∧ err ≠ 0 ∧
      m.freePage (4096 * f) = .ok m' ∧ k' = { k with mm := m' }.setTask nr none := by
  rw [copyProcess] at hok
  rcases Mm.getFreePage_cases k.mm with ⟨hnone, -⟩ | ⟨f, hge, hlt, h0, -, hfree⟩
  · rw [hnone] at hok
    obtain ⟨-, rfl⟩ := Prod.mk.inj (Except.ok.inj hok)
    exact .inl rfl
  · rw [hfree] at hok
    refine .inr ⟨f, hge, hlt, h0, ?_⟩
    split at hok
    · next heq =>
      have := congrArg Prod.fst heq
      omega
    · next heq =>
      obtain ⟨rfl, rfl⟩ := Prod.mk.inj heq
      obtain ⟨⟨err, child, m⟩, hmem, hok⟩ := Except.bind_eq_ok.1 hok
      dsimp only at hok
      split_ifs at hok with herr
      · obtain ⟨m', hm', hok⟩ := Except.bind_eq_ok.1 hok
        obtain ⟨-, rfl⟩ := Prod.mk.inj (Except.ok.inj hok)
        exact ⟨err, _, child, m, m', hmem, herr, hm', rfl⟩
      · obtain ⟨-, rfl⟩ := Prod.mk.inj (Except.ok.inj hok)
        refine absurd ⟨{ child with state := .running }, ?_, ?_⟩ hdead
        · rw [task_setTask, if_pos rfl]
        · exact show TaskState.running ≠ .zombie by decide

/-- A fork that makes no child leaves no page table in the slot that was found. -/
theorem Inv.fork_bare (h : k.Inv lo hi) (ht : k.task i = some t) (hnr : nr ≠ 0)
    (hnone : k.task nr = none) (hbare : ¬Present (k.mm.pde (16 * nr))) {lastPid : Word} {r : Regs}
    {pid : Word} (hok : Kernel.copyProcess { k with lastPid := lastPid } t nr r = .ok (pid, k'))
    (hdead : ¬k'.Alive nr) : ¬Present (k'.mm.pde (16 * nr)) := by
  have hne : i ≠ nr := by
    rintro rfl
    cases hnone.symm.trans ht
  have hone := h.dirCount ht
  have hdata := h.data i t ht
  rcases copyProcess_dead hok hdead with
    rfl | ⟨f, hge, hlt, h0, err, p, child, m, m', hmem, herr, hfree, rfl⟩
  · exact hbare
  · obtain ⟨-, hinv, -, hfail⟩ :=
      (h.mm.alloc hge hlt h0).spares_copyMem hnr hne (by rw [hdata]; rfl)
      (by rw [hdata, slotSegment_limit]; decide) (.inr (.inl hone.le)) hmem
    obtain rfl := Except.ok.inj (hinv.freePage_held.symm.trans hfree)
    obtain ⟨m₁, -, hpde⟩ := hfail herr
    have hpde' := hpde (16 * nr) ⟨le_rfl, by omega⟩
    change ¬Present (m.pde (16 * nr))
    rw [hpde']
    split_ifs with hp
    · exact fun hz => hz rfl
    · exact hp

theorem Bare.fork (hbare : k.Bare) (h : k.Inv lo hi) {r : Regs} (hst : Step k (.fork i r) k') :
    k'.Bare := by
  have halive : ∀ j, k.Alive j → k'.Alive j := fun j ha =>
    h.alive_step ⟨hst, trivial⟩ (fun _ _ heq => by cases heq) ha
  obtain ⟨t, pid, ht, -, hx⟩ := hst.fork
  obtain ⟨pid', ⟨hx, -⟩ | ⟨nr, hnr, hnone, hx⟩⟩ := sysFork_cases hx
  · obtain ⟨-, rfl⟩ := Prod.mk.inj (Except.ok.inj hx)
    exact hbare
  · intro j hj hdead
    by_cases hne : j = nr
    · have hempty : ¬k.Alive nr := by
        rintro ⟨u, hu, -⟩
        cases hnone.symm.trans hu
      rw [hne] at hdead ⊢
      exact h.fork_bare ht hnr hnone (hbare nr hnr hempty) hx.symm hdead
    · have hj1 : 1 ≤ j.1 := Slot.pos hj
      have hj64 := j.2
      have hne' : j.1 ≠ nr.1 := fun heq => hne (Fin.ext heq)
      have hpde := (h.spares_fork ht hnr hnone hx.symm).pde (d := 16 * j) ⟨by omega, by omega⟩
        fun hr => by
          have h₁ := hr.1
          have h₂ := hr.2
          omega
      rw [hpde]
      exact hbare j hj fun ha => hdead (halive j ha)

theorem Bare.step (hbare : k.Bare) (hroot : k.Rooted) (h : k.Inv lo hi) (hst : ReapStep k a k') :
    k'.Bare := by
  have hrest : (∀ i r, a ≠ .fork i r) → (∀ i e, a ≠ .exit i e) → k'.Bare :=
    fun hfork hexit j hj hdead => by
      have hj64 := j.2
      rw [hroot.step_pde h hst.1 hfork hexit (by omega)]
      exact hbare j hj fun ha => hdead (h.alive_step hst hexit ha)
  cases a with
  | fork i r => exact hbare.fork h hst.1
  | exit i errorCode =>
    obtain ⟨t, ht, -, hx⟩ := hst.1.exit
    exact hbare.exit h ht hx
  | _ => exact hrest (fun _ _ heq => by cases heq) (fun _ _ heq => by cases heq)

theorem Booted.bare (h : Booted lo hi k) : k.Bare := by
  obtain ⟨m, page, -, rfl⟩ := h
  intro j hj _
  have hj1 : 1 ≤ j.1 := Slot.pos hj
  have hj64 := j.2
  have hpde := Mm.pde_setupPaging (m := m) (show 16 * j.1 < 1024 by omega)
  rw [if_neg (by omega), Mm.pde] at hpde
  rw [boot, Mm.pde, Mm.phys_memInit, hpde]
  exact fun hz => hz rfl

theorem ReapReachable.rooted_bare (hlo : 256 ≤ lo) (hle : lo ≤ hi) (hhi : hi ≤ 4096)
    (h : ReapReachable lo hi k) : k.Inv lo hi ∧ k.Rooted ∧ k.Bare := by
  refine h.invariant (P := fun k => k.Inv lo hi ∧ k.Rooted ∧ k.Bare) (fun k hb => ?_) ?_
  · exact ⟨hb.inv hlo hle hhi, hb.rooted, hb.bare⟩
  · rintro k a k' ⟨hinv, hroot, hbare⟩ hst
    exact ⟨hinv.step hst.1, hroot.step hinv hst.1, hbare.step hroot hinv hst⟩

/-! ## The frames -/

/-- A page table belongs to a process that lives. -/
theorem Bare.alive (hbare : k.Bare) (hclean : k.mm.Clean lo hi) {d : ℕ} (hd : Mm.UserDir d)
    (hp : Present (k.mm.pde d)) : ∃ j : Slot, j ≠ 0 ∧ d = 16 * j ∧ k.Alive j := by
  have hd1 := hd.1
  have hd2 := hd.2
  rcases hclean.dir d hd with ⟨hmod, -⟩ | hz
  · obtain ⟨j, hj⟩ : ∃ j : Slot, d = 16 * j := ⟨⟨d / 16, by omega⟩, by dsimp only; omega⟩
    have hj0 : j ≠ 0 := by
      rintro rfl
      rw [hj] at hd1
      exact absurd hd1 (by decide)
    refine ⟨j, hj0, hj, ?_⟩
    by_contra hdead
    exact hbare j hj0 hdead (hj ▸ hp)
  · rw [hz] at hp
    exact absurd rfl hp

/-- With no process but the first one, the frames in use are those of the zombies. -/
theorem Bare.memMap (hbare : k.Bare) (hclean : k.mm.Clean lo hi) (h : k.Inv lo hi)
    (hdead : ∀ j, j ≠ 0 → ¬k.Alive j) {f : ℕ} (hf : Mm.Managed lo hi f) :
    (k.mm.memMap (f - 256)).toNat = k.taskRefs f := by
  have habs : ∀ d, Mm.UserDir d → ¬Present (k.mm.pde d) := fun d hd hp => by
    obtain ⟨j, hj, -, ha⟩ := hbare.alive hclean hd hp
    exact hdead j hj ha
  have hpte : k.mm.pteRefs f = 0 := Mm.pteRefs_eq_zero.2 fun d n hu hm => habs d hu.1 hm.1
  have hpde : k.mm.pdeRefs f = 0 := Mm.pdeRefs_eq_zero.2 fun d hd ht => habs d hd ht.1
  rw [h.mm.exact f hf, hpte, hpde, Nat.zero_add]

/-- A fork of a process finds no page table in the slot of the child. -/
theorem Bare.sysFork_ne_error (hbare : k.Bare) (hclean : k.mm.Clean lo hi) (h : k.Inv lo hi)
    (ht : k.task i = some t) (r : Regs) (e : Panic) : k.sysFork t r ≠ some (.error e) := by
  intro hx
  obtain ⟨pid, ⟨heq, -⟩ | ⟨nr, hnr, hnone, heq⟩⟩ := sysFork_cases hx
  · cases heq
  · have h' : Inv lo hi { k with lastPid := pid } := h.counters _ _
    rcases h'.copyProcess_cases ht hnr hnone r with
      ⟨-, d, hd, hlt, hp⟩ | ⟨m, hok, -⟩ | ⟨m, m₁, f, hok, -⟩
    · have hnr1 : 1 ≤ nr.1 := Slot.pos hnr
      obtain ⟨j, -, hdj, u, hu, -⟩ := hbare.alive hclean ⟨by omega, hlt⟩ hp
      have hjn : j = nr := Fin.ext (by omega)
      cases hnone.symm.trans (hjn ▸ hu)
    · cases heq.trans hok
    · cases heq.trans hok

/-- In every state of a kernel that releases zombies only:

    * the only page tables are those of the first 4 MB of the slots with a process that lives;
    * a fork does not stop at a page table;
    * with no process but the first one, and zombies, the frames in use are the pages of the
      zombies; and without zombies every frame is free. -/
theorem frames_returned (hlo : 256 ≤ lo) (hle : lo ≤ hi) (hhi : hi ≤ 4096)
    (h : ReapReachable lo hi k) :
    (∀ d, Mm.UserDir d → (Present (k.mm.pde d) ↔ ∃ j : Slot, d = 16 * j ∧ k.Alive j)) ∧
    (∀ i t r e, k.task i = some t → k.sysFork t r ≠ some (.error e)) ∧
    ((∀ j, j ≠ 0 → ¬k.Alive j) → ∀ f, Mm.Managed lo hi f →
      (k.mm.memMap (f - 256)).toNat = k.taskRefs f) ∧
    ((∀ j, j ≠ 0 → k.task j = none) → ∀ f, Mm.Managed lo hi f → k.mm.memMap (f - 256) = 0) := by
  obtain ⟨hinv, hroot, hbare⟩ := h.rooted_bare hlo hle hhi
  have hclean := h.reachable.clean hlo hle hhi
  refine ⟨fun d hd => ⟨fun hp => ?_, fun ⟨j, hj, ha⟩ => ?_⟩, fun i t r e ht =>
    hbare.sysFork_ne_error hclean hinv ht r e, fun hdead f hf => hbare.memMap hclean hinv hdead hf,
    fun hnone f hf => ?_⟩
  · obtain ⟨j, -, hj, ha⟩ := hbare.alive hclean hd hp
    exact ⟨j, hj, ha⟩
  · rw [hj]
    refine hroot j (fun h0 => ?_) ha
    rw [hj, h0] at hd
    exact absurd hd.1 (by decide)
  · have hdead : ∀ j, j ≠ 0 → ¬k.Alive j := by
      rintro j hj ⟨t, ht, -⟩
      cases (hnone j hj).symm.trans ht
    have hrefs : k.taskRefs f = 0 := by
      rw [taskRefs, Finset.card_eq_zero, Finset.filter_eq_empty_iff]
      rintro j - ⟨hj, hany⟩
      rw [hnone j hj] at hany
      cases hany
    have hmap := hbare.memMap hclean hinv hdead hf
    rw [hrefs] at hmap
    exact BitVec.eq_of_toNat_eq hmap

/-- A task with a father exits, and stays as a zombie. -/
theorem exists_zombie (hreach : Reachable lo hi k) (hlo : 256 ≤ lo) (hle : lo ≤ hi)
    (hhi : hi ≤ 4096) (hi0 : i ≠ 0) (ht : k.task i = some t) (hlive : t.state ≠ .zombie)
    {u : Task} (hj : k.task j = some u) (hu : u.pid = (adopt t.pid t).father) (e : Word) :
    ∃ k', Step k (.exit i e) k' ∧ (∀ j x, k.task j = some x → ∃ s, k'.task j = some
      (raise (if j = i then exited ((e &&& 0xff) <<< 8) (adopt t.pid x) else adopt t.pid x) s)) ∧
      ∀ j, k.task j = none → k'.task j = none := by
  have hpids := hreach.pidInv hlo hle hhi
  obtain ⟨k₂, hexit, -⟩ := (hreach.inv hlo hle hhi).doExit_ok (φ := Task.place)
    (fun _ _ => rfl) (fun _ _ => rfl) (fun _ _ => rfl) hi0 ht ((e &&& 0xff) <<< 8)
  obtain ⟨m₁, -, hx⟩ := Except.bind_eq_ok.1 hexit
  obtain ⟨m₂, -, hx⟩ := Except.bind_eq_ok.1 hx
  obtain ⟨k', hok, hsome, hnone, -⟩ := finishExit_ok (k := { k with mm := m₂ }) ht hj hu
    (fun j' x hx hp => hpids.unique j' j x u hx hj hp) ((e &&& 0xff) <<< 8)
  obtain rfl := Except.ok.inj (hok.symm.trans hx)
  refine ⟨k', ⟨⟨fun n hn => ?_, trivial⟩, ?_⟩, hsome, hnone⟩
  · obtain rfl := Option.some.inj hn
    exact ⟨t, ht, hlive⟩
  · rw [Kernel.exec, ht, Option.map_some, sysExit, hexit]

/-- A task releases another one. -/
theorem exists_release (h : k.Inv lo hi) {u : Task} (hi : k.task i = some u)
    (hlive : u.state ≠ .zombie) (hj : j ≠ 0) (ht : k.task j = some t) :
    ∃ k', Step k (.release i j) k' ∧ ∀ n, k'.task n = if n = j then none else k.task n := by
  obtain ⟨f, -, hrelease, -⟩ := h.release_eq hj ht
  refine ⟨{ k.setTask j none with mm := k.mm.decr f },
    ⟨⟨fun n hn => ?_, hj, by rw [ht]; exact Option.some_ne_none _⟩, ?_⟩,
    fun n => task_setTask (k := k) none⟩
  · obtain rfl := Option.some.inj hn
    exact ⟨u, hi, hlive⟩
  · rw [Kernel.exec, ht, Option.map_some, hrelease]

/-- The first task forks, the child exits, and is released. -/
theorem exists_released : ∃ k₁ k₂ k₃, ReapStep mainKernel (.fork 0 default) k₁ ∧
    ReapStep k₁ (.exit 1 0) k₂ ∧ ReapStep k₂ (.release 0 1) k₃ ∧ k₁.Alive 1 ∧
    k₂.task 1 ≠ none ∧ (∀ j, j ≠ 0 → ¬k₂.Alive j) ∧ ∀ j, j ≠ 0 → k₃.task j = none := by
  obtain ⟨k₁, t, hfork, ⟨hrun, -, hfather, -⟩, htask, -⟩ := exists_child default
  have ht : k₁.task 1 = some t := (htask 1).trans (if_pos rfl)
  have hzero : k₁.task 0 = some (initTask 0x8000) := (htask 0).trans (if_neg (by decide))
  have hlive : t.state ≠ .zombie := by
    rw [hrun]
    decide
  have hreach₁ : Reachable 256 768 k₁ := reachable_mainKernel.step hfork
  have hpid : (0 : Word) = (adopt t.pid t).father := by
    have hpids := hreach₁.pidInv (by norm_num) (by norm_num) (by norm_num)
    have hpos := (hpids.range 1 t (by decide) ht).1
    rw [father_adopt, if_neg fun heq => ?_, hfather]
    rw [← heq, hfather] at hpos
    exact absurd hpos (by decide)
  -- the child tells the first task, and stays as a zombie
  obtain ⟨k₂, hst₂, hsome, hnone⟩ := exists_zombie hreach₁ (by norm_num) (by norm_num)
    (by norm_num) (by decide) ht hlive hzero hpid 0
  obtain ⟨s, hs⟩ := hsome 1 t ht
  obtain ⟨s₀, hs₀⟩ := hsome 0 _ hzero
  rw [if_pos rfl] at hs
  rw [if_neg (by decide)] at hs₀
  have hreach₂ : Reachable 256 768 k₂ := hreach₁.step hst₂
  obtain ⟨k₃, hst₃, htask₃⟩ := exists_release (hreach₂.inv (by norm_num) (by norm_num)
    (by norm_num)) hs₀ (by rw [raise, state_adopt]; decide) (by decide) hs
  have hempty : ∀ j, j ≠ 0 → j ≠ 1 → k₂.task j = none := fun j h0 h1 =>
    hnone j ((htask j).trans ((if_neg h1).trans (if_neg h0)))
  refine ⟨k₁, k₂, k₃, ⟨hfork, trivial⟩, ⟨hst₂, trivial⟩, ⟨hst₃, fun u hu => ?_⟩, ⟨t, ht, hlive⟩,
    by rw [hs]; exact Option.some_ne_none _, ?_, fun j h0 => ?_⟩
  · obtain rfl := Option.some.inj (hs.symm.trans hu)
    rfl
  · rintro j h0 ⟨u, hu, hlive⟩
    by_cases h1 : j = 1
    · rw [h1] at hu
      obtain rfl := Option.some.inj (hs.symm.trans hu)
      exact hlive rfl
    · cases (hempty j h0 h1).symm.trans hu
  · rw [htask₃]
    split_ifs with h1
    · rfl
    · exact hempty j h0 h1

/-- The frames of the child are returned when it exits, but for its page, and that when it is
    released. -/
theorem frames_returned_child : ∃ k₁ k₂ k₃, ReapStep mainKernel (.fork 0 default) k₁ ∧
    ReapStep k₁ (.exit 1 0) k₂ ∧ ReapStep k₂ (.release 0 1) k₃ ∧ Present (k₁.mm.pde 16) ∧
    k₂.task 1 ≠ none ∧
    (∀ f, Mm.Managed 256 768 f → (k₂.mm.memMap (f - 256)).toNat = k₂.taskRefs f) ∧
    ∀ f, Mm.Managed 256 768 f → k₃.mm.memMap (f - 256) = 0 := by
  obtain ⟨k₁, k₂, k₃, hst₁, hst₂, hst₃, halive, hzombie, hdead, hnone⟩ := exists_released
  have hreach₁ : ReapReachable 256 768 k₁ :=
    Transition.Reachable.step (.init booted_mainKernel) hst₁
  have hreach₂ : ReapReachable 256 768 k₂ := Transition.Reachable.step hreach₁ hst₂
  have hreach₃ : ReapReachable 256 768 k₃ := Transition.Reachable.step hreach₂ hst₃
  obtain ⟨htable, -⟩ := frames_returned (by norm_num) (by norm_num) (by norm_num) hreach₁
  obtain ⟨-, -, hframes, -⟩ := frames_returned (by norm_num) (by norm_num) (by norm_num) hreach₂
  obtain ⟨-, -, -, hfree⟩ := frames_returned (by norm_num) (by norm_num) (by norm_num) hreach₃
  exact ⟨k₁, k₂, k₃, hst₁, hst₂, hst₃, (htable 16 ⟨by decide, by decide⟩).2 ⟨1, rfl, halive⟩,
    hzombie, hframes hdead, hfree hnone⟩

end Kernel

end NeuOs
