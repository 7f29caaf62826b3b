import NeuOs.Kernel.Directory
import NeuOs.Kernel.Isolation
import NeuOs.Kernel.Reentry

/-!
# Stores of the kernel to user memory

The system calls that store to user memory, and the delivery of signals. The kernel
stores with the write flags of the pages ignored, so that a call must have the pages
copied by `verify_area` before. `sys_sigaction`, `sys_waitpid` and `do_signal` do,
but `tty_read` does not: what it stores in a shared page, all processes get that share
the page (`userStore_isolated`, `ttyRead_shared`).
-/

namespace NeuOs

namespace Mm

variable {lo hi i f a : Nat} {ext : Nat → Nat} {m m' m₁ : Mm} {s : Segment} {addr : Word} {b : Byte}
  {e : Word}

/-- The page of the address is absent, or `un_wp_page` would not copy it: its frame
    is above 1 MB and counted once. -/
def Unshared (m : Mm) (a : Nat) : Prop :=
  ∀ e, m.translate a = some e → 256 ≤ frameOf e ∧ m.memMap (frameOf e - 256) = 1

/-- A read fault with a page table leaves the frames that are counted once. -/
theorem memMap_touch_one (ha : a < 2 ^ 32) (hp : Present (m.pde (a / 2 ^ 22)))
    (hok : m.touch a false = .ok m₁) (hf : 256 ≤ f) (hone : m.memMap (f - 256) = 1) :
    m₁.memMap (f - 256) = 1 := by
  rw [touch] at hok
  cases he : m.translate a with
  | none =>
    rw [he] at hok
    rcases doNoPage_cases m ha with ⟨herr, -⟩ | ⟨g, hge, hlt, h0, ⟨-, hres⟩ | ⟨hp', -⟩⟩
    · cases herr.symm.trans hok
    · obtain rfl := Except.ok.inj (hres.symm.trans hok)
      have hne : f ≠ g := fun heq => by
        rw [heq, h0] at hone
        cases hone
      rw [newPage, memMap_setPte, memMap_alloc, if_neg (by omega), hone]
    · exact absurd hp hp'
  | some e =>
    rw [he] at hok
    dsimp only at hok
    rw [if_neg (fun hc => by cases hc.1)] at hok
    exact Except.ok.inj hok ▸ hone

/-- A store of the kernel to an unshared page, with a page table. -/
theorem Inv.kernelStore_unshared (h : Inv lo hi ext m) (ha : UserAddr a)
    (hp : Present (m.pde (a / 2 ^ 22))) (hown : m.Unshared a) (hok : m.kernelStore a b = .ok m') :
    Inv lo hi ext m' ∧ Present (m'.pde (a / 2 ^ 22)) ∧
      (∀ x, UserAddr x → x ≠ a → m'.reads x = m.reads x) ∧
      (∀ x, UserAddr x → m.Unshared x → m'.Unshared x) ∧
      ∀ x e, UserAddr x → m.translate x = some e → m'.translate x = some e := by
  obtain ⟨m₁, htouch, hok⟩ := Except.bind_eq_ok.1 hok
  obtain rfl := Except.ok.inj hok
  rcases h.touch ha.2 ha.page.1 false with ⟨herr, -⟩ | ⟨m₂, e, hok₂, hinv, hsame, he, -, -, hnew⟩
  · cases herr.symm.trans htouch
  · obtain rfl : m₂ = m₁ := Except.ok.inj (hok₂.symm.trans htouch)
    have hread : ∀ x, UserAddr x → m₂.reads x = m.reads x := by
      rcases h.touch_reads ha htouch with ⟨-, -, hall⟩ | ⟨-, hnp, -⟩ | ⟨_, -, hw, -⟩
      · exact hall
      · exact absurd hp hnp
      · cases hw
    have htrans : ∀ e', m.translate a = some e' → e = e' := fun e' he' => by
      rw [Mm.touch, he'] at htouch
      dsimp only at htouch
      rw [if_neg (fun hc => by cases hc.1)] at htouch
      obtain rfl := Except.ok.inj htouch
      exact Option.some.inj (he.symm.trans he')
    have hkeep : ∀ {g : Nat}, 256 ≤ g → m.memMap (g - 256) = 1 → m₂.memMap (g - 256) = 1 :=
      fun hg hone => memMap_touch_one ha.2 hp htouch hg hone
    have hone : 256 ≤ frameOf e ∧ m₂.memMap (frameOf e - 256) = 1 := by
      cases he' : m.translate a with
      | none => exact hinv.own_of_writable ha.page.1 he (hnew he')
      | some e' =>
        obtain rfl := htrans e' he'
        exact ⟨(hown e he').1, hkeep (hown e he').1 (hown e he').2⟩
    obtain ⟨hinv', hwalk, -⟩ := hinv.storeOwn ha.page.1 he hone.1 hone.2 b
    have hpoke : m₂.poke a b = m₂.storeByte (physAddr e a) b := by
      rw [Mm.poke, he]
      rfl
    refine ⟨hpoke ▸ hinv', ?_, fun x hx hne => ?_, fun x hx hxown e₁ he₁ => ?_,
      fun x e₁ hx he₁ => ?_⟩
    · exact hpoke ▸ (walk_eq_some.1 ((hwalk _ _ ha.page).trans he)).1
    · rw [hinv.reads_pokeOwn ha he hone.1 hone.2 b hx, if_neg hne, hread x hx]
    · rw [hpoke, Mm.translate, hwalk _ _ hx.page] at he₁
      rw [hpoke]
      change 256 ≤ frameOf e₁ ∧ m₂.memMap (frameOf e₁ - 256) = 1
      by_cases hpage : OnPage (a / 2 ^ 22) (a / 4096 % 1024) x
      · -- The page of the store, which may be new.
        have he₂ : m₂.translate x = some e₁ := he₁
        rw [hpage.translate] at he₂
        obtain rfl : e = e₁ := Option.some.inj (he.symm.trans he₂)
        exact hone
      · have he₂ : m.translate x = some e₁ :=
          (hsame _ _ hx.page hpage).1.symm.trans he₁
        exact ⟨(hxown e₁ he₂).1, hkeep (hxown e₁ he₂).1 (hxown e₁ he₂).2⟩
    · rw [hpoke, Mm.translate, hwalk _ _ hx.page]
      by_cases hpage : OnPage (a / 2 ^ 22) (a / 4096 % 1024) x
      · have he₂ : m.translate a = some e₁ := (hpage.translate m).symm.trans he₁
        exact htrans e₁ he₂ ▸ (hpage.translate m₂).trans he
      · exact (hsame _ _ hx.page hpage).1.trans he₁

/-- A store of the kernel to an address whose frame another address shows, too, at the
    same offset. -/
theorem Inv.kernelStore_shared (h : Inv lo hi ext m) {y : Nat} {e' : Word} (ha : UserAddr a)
    (hy : UserAddr y) (he : m.translate a = some e) (hey : m.translate y = some e')
    (hframe : frameOf e' = frameOf e) (hoff : y % 4096 = a % 4096) (h0 : frameOf e ≠ 0) (b : Byte) :
    ∃ m', m.kernelStore a b = .ok m' ∧ m'.reads y = b := by
  have hphys : ∀ w, w / 1024 ≠ frameOf e → (m.storeByte (physAddr e a) b).phys w = m.phys w := by
    intro w hne
    refine phys_storeByte_ne fun heq => hne ?_
    rw [heq, physAddr_div]
    omega
  obtain ⟨hpde, hpte, hent⟩ := walk_eq_some.1 hey
  have hyd := hy.page.1.2
  have hpde' : (m.storeByte (physAddr e a) b).pde (y / 2 ^ 22) = m.pde (y / 2 ^ 22) :=
    hphys _ fun heq => h0 (by omega)
  have hpte' : (m.storeByte (physAddr e a) b).pte (y / 2 ^ 22) (y / 4096 % 1024) =
      m.pte (y / 2 ^ 22) (y / 4096 % 1024) := by
    rw [pte, hpde']
    refine hphys _ fun heq => h.not_maps_table hy.page.1 ⟨hpde, ?_⟩ ha.page (maps_of_walk he)
    omega
  have htr : (m.storeByte (physAddr e a) b).translate y = some e' := by
    refine walk_eq_some.2 ?_
    rw [hpde', hpte']
    exact ⟨hpde, hpte, hent⟩
  refine ⟨m.storeByte (physAddr e a) b, ?_, ?_⟩
  · rw [Mm.kernelStore, Mm.touch, he]
    dsimp only
    rw [if_neg (fun hc => by cases hc.1), Except.ok_bind, Mm.poke, he]
    rfl
  · rw [reads_of_some htr, loadByte_storeByte, if_pos]
    rw [physAddr, physAddr, hframe, hoff]

/-- The frame of a page that `un_wp_page` would copy is shown in another slot, too. -/
theorem Inv.exists_sharer (h : Inv lo hi ext m) (ha : UserAddr a) (he : m.translate a = some e)
    (hge : 256 ≤ frameOf e) (hne : m.memMap (frameOf e - 256) ≠ 1) :
    ∃ y e', UserAddr y ∧ y / 2 ^ 22 / 16 ≠ a / 2 ^ 22 / 16 ∧ y % 4096 = a % 4096 ∧
      m.translate y = some e' ∧ frameOf e' = frameOf e := by
  have hu := ha.page
  have hm := maps_of_walk he
  have hman := (h.mapped _ _ _ hu hm).resolve_left (not_lt.2 hge)
  have hcount := h.exact _ hman
  have hpos : 0 < m.pteRefs (frameOf e) := Nat.pos_of_ne_zero fun h0 =>
    pteRefs_eq_zero.1 h0 _ _ hu hm
  have hpde : m.pdeRefs (frameOf e) = 0 :=
    pdeRefs_eq_zero.2 fun d hd ht => h.not_maps_table hd ht hu hm
  have hext : ext (frameOf e) = 0 := by
    by_contra hne
    exact pteRefs_eq_zero.1 (h.held_refs (Nat.pos_of_ne_zero hne)).1 _ _ hu hm
  have htwo : 1 < m.pteRefs (frameOf e) := by
    by_contra hle
    refine hne (BitVec.eq_of_toNat_eq ?_)
    rw [hcount, toNat_byte_one]
    omega
  obtain ⟨⟨d, n⟩, hmem, hother⟩ := Finset.exists_mem_ne htwo (a / 2 ^ 22, a / 4096 % 1024)
  obtain ⟨hpage, hmaps⟩ := Finset.mem_filter.1 hmem
  have hu' := mem_userPages.1 hpage
  obtain ⟨hmod, hn⟩ := h.aligned _ _ _ _ _ hu' hu hmaps hm hge
  obtain ⟨⟨h₁, h₂⟩, h₃⟩ := id hu'
  have hd : d ≠ a / 2 ^ 22 := fun heq => hother (by rw [heq, hn])
  refine ⟨2 ^ 22 * d + 4096 * n + a % 4096, m.pte d n, ⟨by omega, by omega⟩, by omega, by omega, ?_,
    hmaps.2.2⟩
  have hp : OnPage d n (2 ^ 22 * d + 4096 * n + a % 4096) := by
    rw [OnPage]
    exact Prod.ext (by dsimp only; omega) (by dsimp only; omega)
  rw [hp.translate]
  exact walk_eq_some.2 ⟨hmaps.1, hmaps.2.1, rfl⟩

/-- Directories that map the kernel agree on the entries of slot 0. -/
theorem KernelMap.pde_eq (h : m.KernelMap) (h' : m'.KernelMap) {d : Nat} (hd : d < 16) :
    m.pde d = m'.pde d := by
  by_cases hd4 : d < 4
  · rw [h.dir d hd4, h'.dir d hd4]
  · rw [h.absent d (by omega) hd, h'.absent d (by omega) hd]

/-- A copy of the first 4 MB that succeeds leaves a page table for them. -/
theorem Inv.present_copyPageTables {j : Nat} (h : Inv lo hi ext m) (hi64 : i < 64) (hj1 : 1 ≤ j)
    (hj64 : j < 64) (hne : i ≠ j) (hp : i ≠ 0 → Present (m.pde (16 * i)))
    (hok : m.copyPageTables (i * 0x4000000) (j * 0x4000000) initLimit = .ok (0, m')) :
    Present (m'.pde (16 * j)) := by
  have hlim : initLimit ≤ 0x4000000 := by decide
  have hone : (initLimit + 0x3fffff) / 2 ^ 22 = 1 := rfl
  have hd : UserDir (16 * j) := ⟨by omega, by omega⟩
  have habs := copyPageTables_absent hi64 hj64 hlim (by rw [hone]; exact one_pos) hok
  rw [copyPageTables_eq hi64 hj64 hlim, hone] at hok
  have hp₀ : Present (m.pde (16 * i)) := by
    by_cases h0 : i = 0
    · rw [h0]
      exact h.kernel.dir 0 (by omega) ▸ present_entryOf _
    · exact hp h0
  rcases copyDirs_step (i * 0x4000000) 0 habs hp₀ with ⟨hfail, -⟩ | ⟨f, hge, hlt, h0, hstep⟩
  · cases hfail.symm.trans hok
  · obtain ⟨-, rfl⟩ := Prod.mk.inj (Except.ok.inj (hstep.symm.trans hok))
    by_cases hi0 : i = 0
    · rw [hi0, Nat.zero_mul, if_pos rfl]
      exact (congrArg Present (h.pde_copyKernelDir hge hlt h0 hd habs)).mpr (present_entryOf _)
    · obtain ⟨hinv, -⟩ := h.newTable hge hlt h0 hd habs
      obtain ⟨hpde, -, hpnew, haddr, hempty⟩ := h.newTable_frame hge hlt h0 hd habs
      have hd₀ : UserDir (16 * i) := ⟨by omega, by omega⟩
      have hpde₀ := hpde (16 * i) hd₀.2 (by omega)
      obtain ⟨m₁, hrun, -, -, hdirs, -⟩ := hinv.copyEntries hd₀ (by rwa [hpde₀]) hd hpnew (by omega)
        (by omega) (Nat.zero_add 1024) fun n _ hn => hempty n hn
      have hfrom : pageOf (m.load (4 * (16 * i))) =
          (m.newTable (16 * j) f).entryAddr (16 * i) 0 := by
        rw [pageOf_load_dir, entryAddr, entryAddr, hpde₀]
      rw [if_neg (by omega), hfrom, ← haddr, hrun, hdirs _ hd.2]
      exact hpnew

end Mm

namespace Kernel

variable {lo hi : Nat} {k k' : Kernel} {i j nr : Slot} {t t' : Task} {a : Action}

/-! ## Living processes have page tables -/

/-- The processes in the slots 1 to 63 that have not exited have a page table for
    their first 4 MB. -/
def Rooted (k : Kernel) : Prop := ∀ j, j ≠ 0 → k.Alive j → Present (k.mm.pde (16 * j))

theorem SameTasks.alive (h : SameTasks (fun t => t.state) k k') (ha : k'.Alive j) : k.Alive j := by
  obtain ⟨t', ht', hs⟩ := ha
  obtain ⟨t, ht, heq⟩ := h.task_some ht'
  exact ⟨t, ht, fun hz => hs (heq.symm.trans hz)⟩

theorem alive_of_clear (ha : (k.setTask i none).Alive j) : k.Alive j := by
  obtain ⟨t, ht, hs⟩ := ha
  rw [task_setTask] at ht
  split_ifs at ht
  exact ⟨t, ht, hs⟩

theorem alive_release {p : Nat} (hok : k.release p = .ok k') (ha : k'.Alive j) : k.Alive j := by
  rw [release] at hok
  split_ifs at hok
  · exact Except.ok.inj hok ▸ ha
  · cases hfind : k.findTask fun t => t.page = p with
    | none =>
      rw [hfind] at hok
      cases hok
    | some l =>
      rw [hfind] at hok
      obtain ⟨m, -, hok⟩ := Except.bind_eq_ok.1 hok
      obtain rfl := Except.ok.inj hok
      exact alive_of_clear (i := l) ha

/-- The process that exits does not live, and the others lived before. -/
theorem alive_finishExit {code : Word} (hok : k.finishExit i t code = .ok k') (ha : k'.Alive j) :
    j ≠ i ∧ k.Alive j := by
  have hsame : SameTasks (fun t => t.state) k (orphan t (List.finRange 64) k) :=
    sameTasks_orphan (fun _ _ => rfl) (fun _ _ => rfl) _
  rw [finishExit] at hok
  have hbefore : ((orphan t (List.finRange 64) k).modifyTask i
      fun t => { t with state := .zombie, exitCode := code }).Alive j := by
    rcases tellFather_cases (φ := fun t => t.state) (fun _ _ => rfl) _ t _ with
      ⟨k₁, hok₁, hsame₁⟩ | hrel
    · obtain rfl := Except.ok.inj (hok₁.symm.trans hok)
      exact hsame₁.alive ha
    · exact alive_release (hrel.symm.trans hok) ha
  obtain ⟨u, hu, hs⟩ := hbefore
  rw [task_modifyTask] at hu
  split_ifs at hu with hj
  · obtain ⟨x, -, rfl⟩ := Option.map_eq_some_iff.1 hu
    exact absurd rfl hs
  · exact ⟨hj, hsame.alive ⟨u, hu, hs⟩⟩

theorem Rooted.exit (hroot : k.Rooted) (h : k.Inv lo hi) (ht : k.task i = some t) {errorCode : Word}
    (hok : k.sysExit i t errorCode = .ok k') : k'.Rooted := by
  by_cases hi0 : i = 0
  · cases (h.exit_zero hi0 ht errorCode).symm.trans hok
  · obtain ⟨k₁, hok₁, -, -, hpde, -⟩ := h.doExit_ok (φ := Task.place) (fun _ _ => rfl)
      (fun _ _ => rfl) (fun _ _ => rfl) hi0 ht ((errorCode &&& 0xff) <<< 8)
    obtain rfl := Except.ok.inj (hok₁.symm.trans hok)
    obtain ⟨m₁, -, hfin⟩ := Except.bind_eq_ok.1 hok
    obtain ⟨m₂, -, hfin⟩ := Except.bind_eq_ok.1 hfin
    intro j hj ha
    obtain ⟨hne, hbefore⟩ := alive_finishExit hfin ha
    have hj64 := j.2
    refine (hpde _ (by omega)).2 ⟨hroot j hj hbefore, fun heq => hne (Fin.ext (by omega))⟩

/-- A fork keeps the page tables of the other slots. -/
theorem Rooted.fork_others (hroot : k.Rooted) (h : k.Inv lo hi) (ht : k.task i = some t)
    (hnr : nr ≠ 0) (hnone : k.task nr = none) {lastPid : Word} {r : Regs} {pid : Word}
    (hok : Kernel.copyProcess { k with lastPid := lastPid } t nr r = .ok (pid, k')) (hj : j ≠ 0)
    (hne : j ≠ nr) (ha : k.Alive j) : Present (k'.mm.pde (16 * j)) := by
  have hj1 : 1 ≤ j.1 := Slot.pos hj
  have hj64 := j.2
  have hne' : j.1 ≠ nr.1 := fun heq => hne (Fin.ext heq)
  have hpde := (h.spares_fork ht hnr hnone hok).pde (d := 16 * j) ⟨by omega, by omega⟩ fun hr => by
    have h₁ := hr.1
    have h₂ := hr.2
    omega
  rw [hpde]
  exact hroot j hj ha

/-- The child has a page table, if it is there after the fork. -/
theorem Rooted.fork_child (hroot : k.Rooted) (h : k.Inv lo hi) (ht : k.task i = some t)
    (hlive : t.state ≠ .zombie) (hnr : nr ≠ 0) (hnone : k.task nr = none) {lastPid : Word}
    {r : Regs}
    {pid : Word} (hok : Kernel.copyProcess { k with lastPid := lastPid } t nr r = .ok (pid, k'))
    (ha : k'.Alive nr) : Present (k'.mm.pde (16 * nr)) := by
  have hnr1 : 1 ≤ nr.1 := Slot.pos hnr
  have hempty : ¬k.Alive nr := by
    rintro ⟨u, hu, -⟩
    rw [hnone] at hu
    cases hu
  rcases copyProcess_ok hok with ⟨-, rfl⟩ | ⟨g, hge, hlt, h0, err, child, m₂, hmem, hrest⟩
  · exact absurd ha hempty
  rcases hrest with ⟨-, m₃, -, rfl⟩ | ⟨rfl, -, heq⟩
  · -- a copy that failed leaves the slot empty
    exact absurd (alive_of_clear ha) hempty
  · rw [heq]
    obtain ⟨r₁, m₃, hcopy, ⟨-, rfl, rfl⟩ | ⟨hr, -⟩⟩ := copyMem_ok hmem
    · rw [h.data i t ht, slotSegment_base, slotSegment_limit, slotBase] at hcopy
      have hne : i.1 ≠ nr.1 := fun heq => by
        rw [Fin.ext heq, hnone] at ht
        cases ht
      refine (h.mm.alloc hge hlt h0).present_copyPageTables i.2 hnr1 nr.2 hne (fun hi0 => ?_) hcopy
      rw [Mm.pde_alloc (by omega) hge]
      exact hroot i (fun h0 => hi0 (congrArg Fin.val h0)) ⟨t, ht, hlive⟩
    · cases hr

/-- A fork that makes a child copies the page table of the process. -/
theorem Rooted.fork (hroot : k.Rooted) (h : k.Inv lo hi) (ht : k.task i = some t)
    (hlive : t.state ≠ .zombie) {r : Regs} {pid : Word}
    (hx : k.sysFork t r = some (.ok (pid, k'))) : k'.Rooted := by
  obtain ⟨pid', ⟨hx, -⟩ | ⟨nr, hnr, hnone, hx⟩⟩ := sysFork_cases hx
  · obtain ⟨-, rfl⟩ := Prod.mk.inj (Except.ok.inj hx)
    exact hroot
  · intro j hj ha
    by_cases hne : j = nr
    · subst hne
      exact hroot.fork_child h ht hlive hnr hnone hx.symm ha
    · have h' : Inv lo hi { k with lastPid := pid' } := h.counters _ _
      refine hroot.fork_others h ht hnr hnone hx.symm hj hne ?_
      -- the fork has changed no other slot
      rcases h'.copyProcess_cases ht hnr hnone r with
        ⟨herr, -⟩ | ⟨m, hok, -⟩ | ⟨m, m₁, f, hok, -⟩
      · cases hx.trans herr
      · obtain ⟨-, rfl⟩ := Prod.mk.inj (Except.ok.inj (hx.trans hok))
        exact ha
      · obtain ⟨-, rfl⟩ := Prod.mk.inj (Except.ok.inj (hx.trans hok))
        obtain ⟨u, hu, hs⟩ := ha
        rw [task_setTask, if_neg hne] at hu
        exact ⟨u, hu, hs⟩

/-- A step that is no fork and no exit starts no process. -/
theorem Inv.alive_before (h : k.Inv lo hi) (hst : Step k a k') (hfork : ∀ i r, a ≠ .fork i r)
    (hexit : ∀ i e, a ≠ .exit i e) (ha : k'.Alive j) : k.Alive j := by
  have hset : ∀ {m : Mm} {i : Slot} {t u : Task}, k' = { k with mm := m }.setTask i (some u) →
      k.task i = some t → u.state = t.state → k.Alive j := fun {m} _ _ _ heq ht hs => by
    have hsame := SameTasks.setTask (φ := fun t => t.state) (k := { k with mm := m }) ht hs
    exact hsame.alive (heq ▸ ha)
  cases a with
  | fork i r => exact absurd rfl (hfork i r)
  | exit i e => exact absurd rfl (hexit i e)
  | tick =>
    obtain rfl := hst.tick
    exact ha
  | release i l =>
    obtain ⟨u, -, -, hx⟩ := hst.release
    exact alive_release hx ha
  | kill i pid sig =>
    obtain ⟨t, -, -, rfl⟩ := hst.kill
    exact (sameTasks_sysKill (fun _ _ => rfl) pid sig).alive ha
  | ssetmask i newmask =>
    obtain ⟨t, ht, -, rfl⟩ := hst.ssetmask
    exact (sameTasks_sysSsetmask ht (fun _ _ => rfl) newmask).alive ha
  | signal i signum handler restorer =>
    obtain ⟨t, ht, -, rfl⟩ := hst.signal
    exact (sameTasks_sysSignal ht (fun _ _ => rfl) signum handler restorer).alive ha
  | sigaction i signum action oldAction =>
    obtain ⟨t, w, ht, -, -, hok⟩ := hst.sigaction
    rcases sysSigaction_cases hok with rfl | ⟨-, m, sa, heq⟩
    · exact ha
    · exact hset heq ht rfl
  | deliver i r =>
    obtain ⟨t, w, ht, -, hok⟩ := hst.deliver
    rcases deliver_cases hok with ⟨-, -, rfl⟩ | ⟨signr, -, ⟨-, -, heq⟩ | ⟨-, -, m, heq⟩⟩
    · exact ha
    · exact hset (m := k.mm) heq ht rfl
    · exact hset heq ht rfl
  | _ =>
    obtain ⟨m, rfl⟩ := hst.memory trivial
    exact ha

/-- The segment of a living process has its page table. -/
theorem Rooted.covered (hroot : k.Rooted) (hi0 : i ≠ 0) (ha : k.Alive i) :
    Mm.Covered (fun _ => False) (slotSegment i) k.mm := by
  intro off hoff
  have hlim := slotSegment_first i
  have hdir : ((slotSegment i).base + off) / 2 ^ 22 = 16 * i := by
    rw [slotSegment_base]
    omega
  exact .inr (hdir ▸ hroot i hi0 ha)

/-- A step of a living process that is no fork and no exit leaves the directory. -/
theorem Rooted.step_pde (hroot : k.Rooted) (h : k.Inv lo hi) (hst : Step k a k')
    (hfork : ∀ i r, a ≠ .fork i r) (hexit : ∀ i e, a ≠ .exit i e) {d : Nat} (hd : d < 1024) :
    k'.mm.pde d = k.mm.pde d := by
  have htidy := h.exec_tidy (N := fun _ => False) hst hfork hexit fun i hi hi0 =>
    hroot.covered hi0 (hst.1.1 i hi)
  by_cases hd16 : 16 ≤ d
  · exact (htidy.dir d ⟨hd16, hd⟩).resolve_right fun hc => hc.1
  · exact (h.step hst).mm.kernel.pde_eq h.mm.kernel (by omega)

theorem Rooted.step (hroot : k.Rooted) (h : k.Inv lo hi) (hst : Step k a k') : k'.Rooted := by
  have hrest : (∀ i r, a ≠ .fork i r) → (∀ i e, a ≠ .exit i e) → k'.Rooted :=
    fun hfork hexit j hj ha => by
      have hj64 := j.2
      rw [hroot.step_pde h hst hfork hexit (by omega)]
      exact hroot j hj (h.alive_before hst hfork hexit ha)
  cases a with
  | fork i r =>
    obtain ⟨t, pid, ht, hlive, hy⟩ := hst.fork
    exact hroot.fork h ht hlive hy
  | exit i errorCode =>
    obtain ⟨t, ht, -, hx⟩ := hst.exit
    exact hroot.exit h ht hx
  | _ => exact hrest (fun _ _ heq => by cases heq) (fun _ _ heq => by cases heq)

theorem Booted.rooted (h : Booted lo hi k) : k.Rooted := by
  obtain ⟨m, page, -, rfl⟩ := h
  rintro j hj ⟨t, ht, -⟩
  cases (if_neg hj).symm.trans ht

theorem Reachable.rooted (hlo : 256 ≤ lo) (hle : lo ≤ hi) (hhi : hi ≤ 4096)
    (h : Reachable lo hi k) : k.Rooted :=
  (h.invariant (P := fun k => k.Inv lo hi ∧ k.Rooted) (fun _ hb => ⟨hb.inv hlo hle hhi, hb.rooted⟩)
    fun _ _ _ hk hst => ⟨hk.1.step hst, hk.2.step hk.1 hst⟩).2

/-! ## The stores -/

/-- The stores of the kernel to user memory. -/
inductive UserStore
  /-- The calls of `put_fs_byte` in `tty_read`, for the characters that are read. -/
  | ttyRead (chars : List Byte) (buf : Word)
  /-- `sys_sigaction`, which saves the old action. -/
  | sigaction (signum : Int) (action oldAction : Word)
  /-- `verify_area` and `put_fs_long` in `sys_waitpid`. -/
  | waitpid (code statAddr : Word)
  /-- `do_signal`, on the way back from a system call. -/
  | doSignal (r : Regs)

/-- The store of the process `t` in the slot `i`. -/
def userStore (k : Kernel) (i : Slot) (t : Task) : UserStore → Except Panic Kernel
  | .ttyRead chars buf => k.withMm (Mm.putFsBytes t.data chars buf k.mm)
  | .sigaction signum action oldAction => (k.sysSigaction i t signum action oldAction).map (·.2)
  | .waitpid code statAddr => k.withMm do
      let m ← k.mm.verifyArea t.data.base statAddr.toNat 4
      m.putFsLong t.data statAddr code
  | .doSignal r => (k.deliver i t r).map (·.2)

/-- No byte in the other slots 1 to 63 changes. -/
def KeepsOthers (i : Slot) (m m' : Mm) : Prop :=
  ∀ j, j ≠ 0 → j ≠ i → ∀ off < 0x4000000, m'.reads (slotAddr j off) = m.reads (slotAddr j off)

theorem keepsOthers_of_samePages {m m' : Mm} (hsame : Mm.SamePages (Mm.OffSlot i) m m')
    (hdir : ∀ d < 1024, m'.pde d = m.pde d) : KeepsOthers i m m' := fun j hj hne off hoff => by
  obtain ⟨haddr, hregion⟩ := slotAddr_user hj hoff
  exact hsame.reads haddr (fun heq => hne (Fin.ext (hregion.symm.trans heq))) hdir

theorem Inv.samePages_sigaction (h : k.Inv lo hi) (hi0 : i ≠ 0) (ht : k.task i = some t)
    {signum : Int} {action oldAction res : Word}
    (hok : k.sysSigaction i t signum action oldAction = .ok (res, k')) :
    Mm.SamePages (Mm.OffSlot i) k.mm k'.mm := by
  rw [sysSigaction, h.data i t ht] at hok
  split_ifs at hok with href hz
  · obtain ⟨-, rfl⟩ := Prod.mk.inj (Except.ok.inj hok)
    exact .refl _ _
  all_goals
    obtain ⟨⟨new, m₁⟩, hnew, hok⟩ := Except.bind_eq_ok.1 hok
    obtain ⟨hinv, hsame⟩ := h.getNew_keeps hnew
    obtain ⟨m₂, hsave, hok⟩ := Except.bind_eq_ok.1 hok
    obtain ⟨-, rfl⟩ := Prod.mk.inj (Except.ok.inj hok)
  · obtain ⟨m₃, hverify, hput⟩ := Except.bind_eq_ok.1 hsave
    exact hsame.trans (hinv.verifyArea_putFsBytes (slotSegment_user hi0)
      (List.ne_nil_of_length_pos (by rw [Sigaction.length_bytes]; omega)) hverify hput).2
  · exact Except.ok.inj hsave ▸ hsame

theorem Inv.samePages_deliver (h : k.Inv lo hi) (ht : k.task i = some t) {r r' : Regs}
    (hok : k.deliver i t r = .ok (r', k')) : Mm.SamePages (Mm.OffSlot i) k.mm k'.mm := by
  rw [deliver] at hok
  cases hnext : nextSignal i t r with
  | none =>
    rw [hnext] at hok
    obtain ⟨-, rfl⟩ := Prod.mk.inj (Except.ok.inj hok)
    exact .refl _ _
  | some signr =>
    rw [hnext] at hok
    dsimp only at hok
    cases hsig : (t.take signr).doSignal signr r with
    | none =>
      rw [hsig] at hok
      obtain ⟨-, rfl⟩ := Prod.mk.inj (Except.ok.inj hok)
      exact .refl _ _
    | some x =>
      obtain ⟨t', r₁, longs⟩ := x
      obtain ⟨-, -, hlongs⟩ := Task.doSignal_some hsig
      have hlen : 4 * longs.length = (longs.flatMap bytesOf).length :=
        (length_flatMap_bytesOf longs).symm
      have hdata : (t.take signr).data = slotSegment i := h.data i t ht
      rw [hsig] at hok
      dsimp only at hok
      rw [hdata, hlen] at hok
      obtain ⟨m₁, hverify, hok⟩ := Except.bind_eq_ok.1 hok
      obtain ⟨m₂, hput, hok⟩ := Except.bind_eq_ok.1 hok
      obtain ⟨-, rfl⟩ := Prod.mk.inj (Except.ok.inj hok)
      refine (h.mm.verifyArea_putFsBytes (slotSegment_user (nextSignal_ne_zero hnext)) ?_ hverify
        (Mm.putFsBytes_of_longs hput)).2
      refine List.ne_nil_of_length_pos ?_
      rw [← hlen, hlongs, Task.signalFrame]
      simp

/-- `tty_read` has no page copied: its pages must not be shared. -/
def UserStore.Unshared (m : Mm) (s : Segment) : UserStore → Prop
  | .ttyRead chars buf => ∀ x, s.base + buf.toNat ≤ x → x < s.base + buf.toNat + chars.length →
      m.Unshared x
  | _ => True

/-- The stores of the kernel to unshared pages. -/
theorem putFsBytes_unshared {chars : List Byte} {buf : Word} {m m' : Mm} {ext : Nat → Nat}
    (h : m.Inv lo hi ext) (hi0 : i ≠ 0) (hp : Present (m.pde (16 * i)))
    (hown : ∀ x, (slotSegment i).base + buf.toNat ≤ x →
      x < (slotSegment i).base + buf.toNat + chars.length → m.Unshared x)
    (hok : Mm.putFsBytes (slotSegment i) chars buf m = .ok m') :
    m'.Inv lo hi ext ∧ KeepsOthers i m m' ∧
      ∀ x e, Mm.UserAddr x → m.translate x = some e → m'.translate x = some e := by
  induction chars generalizing buf m with
  | nil =>
    obtain rfl := Except.ok.inj hok
    exact ⟨h, fun _ _ _ _ _ => rfl, fun _ _ _ he => he⟩
  | cons c chars ih =>
    obtain ⟨m₁, hput, hok⟩ := Except.bind_eq_ok.1 hok
    rw [Mm.putFsByte] at hput
    split_ifs at hput with hge
    have hlim := slotSegment_first i
    have hoff := not_le.1 hge
    have ha := (slotSegment_user hi0).userAddr hoff
    have hdir : ((slotSegment i).base + buf.toNat) / 2 ^ 22 = 16 * i := by
      rw [slotSegment_base]
      omega
    have hnext : (buf + 1).toNat = buf.toNat + 1 := by
      rw [BitVec.toNat_add, show (1 : Word).toNat = 1 from rfl]
      omega
    obtain ⟨hinv, hp₁, hread, hkeep, htrans⟩ := h.kernelStore_unshared ha (by rwa [hdir])
      (hown _ le_rfl (by rw [List.length_cons]; omega)) hput
    rw [hdir] at hp₁
    -- the pages of the bytes to come stay unshared
    have hrest : ∀ x, (slotSegment i).base + (buf + 1).toNat ≤ x →
        x < (slotSegment i).base + (buf + 1).toNat + chars.length → m₁.Unshared x := by
      intro x h₁ h₂
      by_cases hnil : chars = []
      · rw [hnil, List.length_nil] at h₂
        omega
      · have hend := Mm.putFsBytes_limit (by omega) hnil hok
        have hx := (slotSegment_user hi0).userAddr
          (show x - (slotSegment i).base < (slotSegment i).limit by omega)
        rw [Nat.add_sub_cancel' (by omega)] at hx
        exact hkeep x hx (hown x (by omega) (by rw [List.length_cons]; omega))
    obtain ⟨hinv', hothers, htrans'⟩ := ih hinv hp₁ hrest hok
    refine ⟨hinv', fun j hj hne off hoff' => ?_, fun x e hx he => htrans' x e hx (htrans x e hx he)⟩
    obtain ⟨haddr, hregion⟩ := slotAddr_user hj hoff'
    rw [hothers j hj hne off hoff', hread _ haddr fun heq => hne (Fin.ext ?_)]
    rw [← hregion, heq, hdir]
    omega

/-- The stores of the kernel to user memory leave what the other processes see, but
    for those of `tty_read` to shared pages. -/
theorem userStore_isolated (hlo : 256 ≤ lo) (hle : lo ≤ hi) (hhi : hi ≤ 4096)
    (h : Reachable lo hi k) (hi0 : i ≠ 0) (ht : k.task i = some t) (hlive : t.state ≠ .zombie)
    {c : UserStore} (hc : c.Unshared k.mm t.data) (hok : k.userStore i t c = .ok k') :
    KeepsOthers i k.mm k'.mm := by
  have hinv := h.inv hlo hle hhi
  have hroot := h.rooted hlo hle hhi
  have halive : ∀ l, some i = some l → k.Alive l := fun l hl => Option.some.inj hl ▸ ⟨t, ht, hlive⟩
  have hdata := hinv.data i t ht
  cases c with
  | ttyRead chars buf =>
    obtain ⟨m, hput, rfl⟩ := Except.map_eq_ok.1 hok
    rw [hdata] at hput hc
    exact (putFsBytes_unshared hinv.mm hi0 (hroot i hi0 ⟨t, ht, hlive⟩) hc hput).2.1
  | sigaction signum action oldAction =>
    -- as a step of the kernel, it keeps the directory entries of the others
    have hst : Step k (.sigaction i signum action oldAction) k' :=
      ⟨⟨halive, fun h0 => absurd h0 hi0⟩, by rw [Kernel.exec, ht]; exact congrArg some hok⟩
    obtain ⟨⟨res, k₁⟩, hsig, rfl⟩ := Except.map_eq_ok.1 hok
    exact keepsOthers_of_samePages (hinv.samePages_sigaction hi0 ht hsig) fun d hd =>
      hroot.step_pde hinv hst (fun _ _ heq => by cases heq) (fun _ _ heq => by cases heq) hd
  | waitpid code statAddr =>
    have hlen : (bytesOf code).length = 4 := by simp [bytesOf]
    have hst : Step k (.put i statAddr (bytesOf code)) k' := by
      refine ⟨⟨halive, hi0, by simp [bytesOf]⟩, ?_⟩
      obtain ⟨m, hm, rfl⟩ := Except.map_eq_ok.1 hok
      obtain ⟨m₁, hverify, hput⟩ := Except.bind_eq_ok.1 hm
      rw [Mm.putFsLong] at hput
      split_ifs at hput
      -- the model of `put_fs_long` after `verify_area` is the step `put`
      rw [Kernel.exec, ht, Option.map_some, hlen, hverify, Except.ok_bind, hput]
      rfl
    refine keepsOthers_of_samePages ?_ fun d hd =>
      hroot.step_pde hinv hst (fun _ _ heq => by cases heq) (fun _ _ heq => by cases heq) hd
    obtain ⟨m, hm, rfl⟩ := Except.map_eq_ok.1 hok
    obtain ⟨m₁, hverify, hput⟩ := Except.bind_eq_ok.1 hm
    rw [Mm.putFsLong] at hput
    split_ifs at hput
    rw [hdata, ← hlen] at hverify
    rw [hdata] at hput
    exact (hinv.mm.verifyArea_putFsBytes (slotSegment_user hi0)
      (List.ne_nil_of_length_pos (by omega)) hverify hput).2
  | doSignal r =>
    have hst : Step k (.deliver i r) k' :=
      ⟨⟨halive, trivial⟩, by rw [Kernel.exec, ht]; exact congrArg some hok⟩
    obtain ⟨⟨r', k₁⟩, hdel, rfl⟩ := Except.map_eq_ok.1 hok
    exact keepsOthers_of_samePages (hinv.samePages_deliver ht hdel) fun d hd =>
      hroot.step_pde hinv hst (fun _ _ heq => by cases heq) (fun _ _ heq => by cases heq) hd

/-! ## `sys_waitpid` after a sleep -/

/-- A step while the process in the slot `i` waits: it only releases its children, and
    the others run. -/
def WaitStep (i : Slot) (k k' : Kernel) : Prop :=
  ∃ a, (a.slot = some i → ∃ j, j ≠ i ∧ a = .release i j) ∧ Step k a k' ∧ k'.task i ≠ none

/-- The present pages of the slot stay writable while its process waits. -/
theorem Inv.waitStep_writable (h : k.Inv lo hi) (hst : WaitStep i k k') (hocc : k.task i ≠ none)
    {x : Nat} (hx : Mm.UserAddr x) (hslot : x / 2 ^ 22 / 16 = i)
    (hw : ∀ e, k.mm.translate x = some e → Writable e) :
    ∀ e, k'.mm.translate x = some e → Writable e := by
  obtain ⟨a, hrel, hstep, -⟩ := hst
  intro e he
  have hx2 := hx.2
  cases hs : a.slot with
  | some l =>
    by_cases hl : l = i
    · -- a release changes counters only
      obtain ⟨j, -, rfl⟩ := hrel (hl ▸ hs)
      obtain ⟨u, hj, hu, hx⟩ := hstep.release
      obtain ⟨f, -, hok, -⟩ := h.release_eq hj hu
      obtain rfl := Except.ok.inj (hok.symm.trans hx)
      exact hw e he
    · -- a step of another process leaves the pages of this one
      have hsame := (h.exec hstep.1 hs hstep.2).2
      refine hw e (((hsame _ _ hx.page fun q hq => ?_).1).symm.trans he)
      obtain rfl : q = i := Fin.ext (hq.symm.trans hslot)
      exact ⟨fun heq => hl heq.symm, hocc⟩
  | none =>
    cases a with
    | writeVerify b =>
      obtain ⟨m, hb, hm, rfl⟩ := hstep.writeVerify
      rcases h.mm.writeVerify hb with ⟨herr, -⟩ | ⟨m', hok, -, hsame, hpage⟩
      · cases herr.symm.trans hm
      · obtain rfl := Except.ok.inj (hok.symm.trans hm)
        -- `write_verify` may be on this page, and makes it writable
        by_cases hon : Mm.OnPage (b / 2 ^ 22) (b / 4096 % 1024) x
        · have hdir := congrArg Prod.fst hon
          dsimp only at hdir
          exact hpage e ((hon.translate _).symm.trans he) (hdir ▸ hx.page.1.1)
        · exact hw e ((hsame _ _ hx.page hon).1.symm.trans he)
    | tick =>
      obtain rfl := hstep.tick
      exact hw e he
    | _ => cases hs

/-- What holds while a process waits that has verified `n` bytes from `addr` on. -/
structure Waiting (lo hi : Nat) (i : Slot) (addr n : Nat) (k : Kernel) : Prop where
  inv : k.Inv lo hi
  rooted : k.Rooted
  occupied : k.task i ≠ none
  writable : Mm.WritableRange k.mm addr n

theorem Waiting.step {addr n : Nat} (h : Waiting lo hi i addr n k) (hst : WaitStep i k k')
    (hrange : ∀ x, addr ≤ x → x < addr + n → Mm.UserAddr x ∧ x / 2 ^ 22 / 16 = i) :
    Waiting lo hi i addr n k' := by
  obtain ⟨a, -, hstep, hocc⟩ := id hst
  exact ⟨h.inv.step hstep, h.rooted.step h.inv hstep, hocc, fun x h₁ h₂ =>
    h.inv.waitStep_writable hst h.occupied (hrange x h₁ h₂).1 (hrange x h₁ h₂).2
      (h.writable x h₁ h₂)⟩

/-- After `verify_area`, before the first sleep. -/
theorem Waiting.start (h : k.Inv lo hi) (hroot : k.Rooted) (hocc : k.task i ≠ none) (hi0 : i ≠ 0)
    {addr n : Nat} {m : Mm} (hn : 0 < n) (hlim : addr + n ≤ (slotSegment i).limit)
    (hok : k.mm.verifyArea (slotSegment i).base addr n = .ok m) :
    Waiting lo hi i ((slotSegment i).base + addr) n { k with mm := m } := by
  have hfirst := slotSegment_first i
  have hi1 : 1 ≤ i.1 := Slot.pos hi0
  have hi64 := i.2
  have hbase : (slotSegment i).base = 4096 * (i * 0x4000) := by
    rw [slotSegment_base]
    omega
  have htidy := h.mm.tidy_verifyLoop (N := fun _ => False) (Nat.mod_lt _ (by norm_num)) hok
  have hinv := h.mm.verifyArea_inv hok
  rw [hbase] at hok
  obtain ⟨-, hw⟩ := h.mm.verifyArea (S := Mm.OffSlot i) (by omega) (by omega) hn (by omega) (by
      rw [← hbase, slotSegment_base]
      exact Mm.offRange_offSlot i) hok
  refine ⟨h.withMm hinv, fun j hj ha => ?_, hocc, by rwa [hbase]⟩
  -- `verify_area` adds no page tables, and removes none
  have hj1 : 1 ≤ j.1 := Slot.pos hj
  have hj64 := j.2
  have hpde := (htidy.dir (16 * j) ⟨by omega, by omega⟩).resolve_right fun hc => hc.1
  exact hpde ▸ hroot j hj ha

/-- `sys_waitpid` verifies the four bytes once, and stores to them after any number of
    sleeps. -/
theorem waitpid_isolated (h : k.Inv lo hi) (hroot : k.Rooted) (hi0 : i ≠ 0)
    (ht : k.task i = some t) {statAddr code : Word} {m m' : Mm}
    (hverify : k.mm.verifyArea t.data.base statAddr.toNat 4 = .ok m)
    (hwait : Relation.ReflTransGen (WaitStep i) { k with mm := m } k') (hlive : k'.Alive i)
    (hok : k'.mm.putFsLong t.data statAddr code = .ok m') : KeepsOthers i k'.mm m' := by
  have hlim := slotSegment_first i
  rw [h.data i t ht] at hverify hok
  rw [Mm.putFsLong] at hok
  split_ifs at hok with hfit
  have hi1 : 1 ≤ i.1 := Slot.pos hi0
  have hi64 := i.2
  have hbase := slotSegment_base i
  have hrange : ∀ x, (slotSegment i).base + statAddr.toNat ≤ x →
      x < (slotSegment i).base + statAddr.toNat + 4 → Mm.UserAddr x ∧ x / 2 ^ 22 / 16 = i :=
    fun x h₁ h₂ => ⟨⟨by omega, by omega⟩, by omega⟩
  have hocc : k.task i ≠ none := fun hnone => Option.some_ne_none t (ht.symm.trans hnone)
  have hstart := Waiting.start h hroot hocc hi0 (by omega) (by omega) hverify
  have hend : Waiting lo hi i ((slotSegment i).base + statAddr.toNat) 4 k' := by
    clear hlive hok
    induction hwait with
    | refl => exact hstart
    | tail _ hst ih => exact ih.step hst hrange
  -- the four bytes are still writable, so the store copies no page
  have hlen : (bytesOf code).length = 4 := by simp [bytesOf]
  have hw := hend.writable
  rw [← hlen] at hw
  obtain ⟨hinv, hsame⟩ := hend.inv.mm.putFsBytes (slotSegment_user hi0) hw hok
  have htidy := hend.inv.mm.tidy_putFsBytes (slotSegment_user hi0) (hend.rooted.covered hi0 hlive)
    hw hok
  refine keepsOthers_of_samePages hsame fun d hd => ?_
  by_cases hd16 : 16 ≤ d
  · exact (htidy.dir d ⟨hd16, hd⟩).resolve_right fun hc => hc.1
  · exact hinv.kernel.pde_eq hend.inv.mm.kernel (by omega)

/-! ## Shared pages -/

/-- The frame of the address is not that of the page directory, and another slot shows
    it at the same offset. -/
def ShownElsewhere (m : Mm) (x : Nat) : Prop :=
  ∃ e y e', m.translate x = some e ∧ frameOf e ≠ 0 ∧ Mm.UserAddr y ∧
    y / 2 ^ 22 / 16 ≠ x / 2 ^ 22 / 16 ∧ y % 4096 = x % 4096 ∧ m.translate y = some e' ∧
    frameOf e' = frameOf e

theorem shownElsewhere {m : Mm} {ext : Nat → Nat} (h : m.Inv lo hi ext) {x : Nat}
    (hx : Mm.UserAddr x)
    (hlow : ∀ e, m.translate x = some e → frameOf e < 256 → ShownElsewhere m x)
    (hshared : ¬m.Unshared x) : ShownElsewhere m x := by
  rw [Mm.Unshared] at hshared
  push Not at hshared
  obtain ⟨e, he, hne⟩ := hshared
  by_cases hge : 256 ≤ frameOf e
  · obtain ⟨y, e', hy⟩ := h.exists_sharer hx he hge (hne hge)
    exact ⟨e, y, e', he, by omega, hy⟩
  · exact hlow e he (not_le.1 hge)

/-- What `put_fs_byte` stores in a shared page, another slot shows. -/
theorem putFsByte_shared {m : Mm} {ext : Nat → Nat} (h : m.Inv lo hi ext) (hi0 : i ≠ 0)
    {buf : Word} (hoff : buf.toNat < (slotSegment i).limit)
    (hshown : ShownElsewhere m ((slotSegment i).base + buf.toNat)) :
    ∃ b m', m.putFsByte (slotSegment i) buf b = .ok m' ∧ ¬KeepsOthers i m m' := by
  have hlim := slotSegment_first i
  have ha := (slotSegment_user hi0).userAddr hoff
  have hslot : ((slotSegment i).base + buf.toNat) / 2 ^ 22 / 16 = i := by
    rw [slotSegment_base]
    omega
  obtain ⟨e, y, e', he, h0, hy, hother, hmod, hey, hframe⟩ := hshown
  obtain ⟨m', hok, hread⟩ := h.kernelStore_shared ha hy he hey hframe hmod h0 (m.reads y + 1)
  refine ⟨m.reads y + 1, m', by rw [Mm.putFsByte, if_neg (not_le.2 hoff), hok], fun hkeep => ?_⟩
  obtain ⟨hy₁, hy₂⟩ := hy
  have hsame := hkeep ⟨y / 2 ^ 22 / 16, by omega⟩ (fun heq => by
    have := congrArg Fin.val heq
    simp only [Fin.val_zero] at this
    omega) (fun heq => hother ((congrArg Fin.val heq).trans hslot.symm))
    (y - y / 2 ^ 22 / 16 * 0x4000000) (by omega)
  have haddr : slotAddr ⟨y / 2 ^ 22 / 16, by omega⟩ (y - y / 2 ^ 22 / 16 * 0x4000000) = y := by
    rw [slotAddr, slotBase]
    dsimp only
    omega
  rw [haddr, hread] at hsame
  generalize m.reads y = b at hsame
  revert b
  decide

/-- If a store of `n` characters returns, and no shorter one changes what the others
    see, then the pages of the buffer are not shared. -/
theorem unshared_of_keeps {m : Mm} {ext : Nat → Nat} {n : Nat} {buf : Word}
    (h : m.Inv lo hi ext) (hi0 : i ≠ 0) (hp : Present (m.pde (16 * i)))
    (hlow : ∀ x, (slotSegment i).base + buf.toNat ≤ x → x < (slotSegment i).base + buf.toNat + n →
      ∀ e, m.translate x = some e → frameOf e < 256 → ShownElsewhere m x)
    {chars : List Byte} (hlen : chars.length = n) {m' : Mm}
    (hret : Mm.putFsBytes (slotSegment i) chars buf m = .ok m')
    (hkeeps : ∀ chars : List Byte, chars.length ≤ n → ∀ m',
      Mm.putFsBytes (slotSegment i) chars buf m = .ok m' → KeepsOthers i m m') :
    ∀ x, (slotSegment i).base + buf.toNat ≤ x → x < (slotSegment i).base + buf.toNat + n →
      m.Unshared x := by
  have hlim := slotSegment_first i
  suffices hall : ∀ q ≤ n, ∀ x, (slotSegment i).base + buf.toNat ≤ x →
      x < (slotSegment i).base + buf.toNat + q → m.Unshared x from hall n le_rfl
  intro q hq
  induction q with
  | zero =>
    intro x h₁ h₂
    omega
  | succ q ih =>
    have ih := ih (by omega)
    intro x h₁ h₂
    by_cases hlast : x < (slotSegment i).base + buf.toNat + q
    · exact ih x h₁ hlast
    obtain rfl : x = (slotSegment i).base + (buf.toNat + q) := by omega
    by_contra hshared
    -- The characters before this one are stored to unshared pages.
    have hend := Mm.putFsBytes_limit (by omega) (List.ne_nil_of_length_pos (by omega)) hret
    have hnext : (buf + BitVec.ofNat 32 q).toNat = buf.toNat + q := by
      rw [BitVec.toNat_add, BitVec.toNat_ofNat]
      omega
    have hpre : (chars.take q).length = q := by
      rw [List.length_take]
      omega
    rw [← List.take_append_drop q chars, Mm.putFsBytes_append] at hret
    obtain ⟨m₁, hput, -⟩ := Except.bind_eq_ok.1 hret
    obtain ⟨hinv, hkeep, htrans⟩ := putFsBytes_unshared h hi0 hp (by rwa [hpre]) hput
    have hoff : (buf + BitVec.ofNat 32 q).toNat < (slotSegment i).limit := by omega
    have hx := (slotSegment_user hi0).userAddr hoff
    rw [hnext] at hx
    obtain ⟨e, y, e', he, h0, hy, hother, hmod, hey, hframe⟩ :=
      shownElsewhere h hx (hlow _ h₁ (by omega)) hshared
    have hshown : ShownElsewhere m₁ ((slotSegment i).base + (buf + BitVec.ofNat 32 q).toNat) := by
      rw [hnext]
      exact ⟨e, y, e', htrans _ _ hx he, h0, hy, hother, hmod, htrans _ _ hy hey, hframe⟩
    obtain ⟨b, m₂, hbyte, hchange⟩ := putFsByte_shared hinv hi0 hoff hshown
    have hboth : Mm.putFsBytes (slotSegment i) (chars.take q ++ [b]) buf m = .ok m₂ := by
      rw [Mm.putFsBytes_append, hput, Except.ok_bind, hpre, Mm.putFsBytes, hbyte]
      rfl
    have hkeep₂ := hkeeps _ (by rw [List.length_append, hpre, List.length_singleton]; omega) _ hboth
    exact hchange fun j hj hne off hoff' =>
      (hkeep₂ j hj hne off hoff').trans (hkeep j hj hne off hoff').symm

/-- The stores of the kernel to user memory leave what the other processes see, if those
    of `tty_read` are to unshared pages. And they must be, if `tty_read` stores `n`
    characters, and what the buffer shows of the kernel's own memory is shared. -/
theorem userStore_keepsOthers (hlo : 256 ≤ lo) (hle : lo ≤ hi) (hhi : hi ≤ 4096)
    (h : Reachable lo hi k) (hi0 : i ≠ 0) (ht : k.task i = some t) (hlive : t.state ≠ .zombie) :
    (∀ c k', c.Unshared k.mm t.data → k.userStore i t c = .ok k' → KeepsOthers i k.mm k'.mm) ∧
    ∀ chars buf,
      (∀ x, t.data.base + buf.toNat ≤ x → x < t.data.base + buf.toNat + chars.length →
        ∀ e, k.mm.translate x = some e → frameOf e < 256 → ShownElsewhere k.mm x) →
      (∃ k', k.userStore i t (.ttyRead chars buf) = .ok k') →
      ((∀ cs k', cs.length ≤ chars.length → k.userStore i t (.ttyRead cs buf) = .ok k' →
          KeepsOthers i k.mm k'.mm) ↔
        (UserStore.ttyRead chars buf).Unshared k.mm t.data) := by
  have hinv := h.inv hlo hle hhi
  have hdata := hinv.data i t ht
  refine ⟨fun c k' hc hok => userStore_isolated hlo hle hhi h hi0 ht hlive hc hok,
    fun chars buf hlow hret => ⟨fun hkeeps => ?_, fun hown cs k' hlen hok => ?_⟩⟩
  · obtain ⟨k', hret⟩ := hret
    obtain ⟨m', hput, -⟩ := Except.map_eq_ok.1 hret
    rw [hdata] at hput hlow
    rw [UserStore.Unshared, hdata]
    refine unshared_of_keeps hinv.mm hi0 (h.rooted hlo hle hhi i hi0 ⟨t, ht, hlive⟩) hlow rfl hput
      fun cs hcs m hm => hkeeps cs { k with mm := m } hcs ?_
    rw [userStore, hdata, withMm, hm]
    rfl
  · exact userStore_isolated hlo hle hhi h hi0 ht hlive
      (c := .ttyRead cs buf) (fun x h₁ h₂ => hown x h₁ (by omega)) hok

/-- The process in slot 1, the first child of the task 0. -/
theorem userStore_keepsOthers_child :
    ∃ k t, Reachable 256 768 k ∧ k.task 1 = some t ∧ ∀ c k', c.Unshared k.mm t.data →
      k.userStore 1 t c = .ok k' → KeepsOthers 1 k.mm k'.mm := by
  obtain ⟨k, t, hreach, ht, hrun, -⟩ := exists_children default
  have hlive : t.state ≠ .zombie := fun hz => by
    rw [hrun] at hz
    cases hz
  exact ⟨k, t, hreach, ht,
    (userStore_keepsOthers (by omega) (by omega) (by omega) hreach (by decide) ht hlive).1⟩

/-- Two children of the task 0 share the page at 0x64000: a character that `tty_read`
    stores there for the first appears in the memory of the second. -/
theorem ttyRead_changes_shared :
    ∃ k t k' c, Reachable 256 768 k ∧ k.task 1 = some t ∧ t.state ≠ .zombie ∧ k.task 2 ≠ none ∧
      k.userStore 1 t (.ttyRead [c] 0x64000) = .ok k' ∧
      k'.mm.reads (slotAddr 2 0x64000) ≠ k.mm.reads (slotAddr 2 0x64000) := by
  obtain ⟨k, t, hreach, ht, hrun, hocc, -, hpages⟩ := exists_children default
  have hinv := hreach.inv (by omega) (by omega) (by omega)
  have hlive : t.state ≠ .zombie := fun hz => by
    rw [hrun] at hz
    cases hz
  obtain ⟨h16, h32⟩ := hpages 100 (by omega)
  have hx : Mm.UserAddr (slotAddr 1 0x64000) := (slotAddr_user (by decide) (by omega)).1
  have hy : Mm.UserAddr (slotAddr 2 0x64000) := (slotAddr_user (by decide) (by omega)).1
  have hpx : Mm.OnPage 16 100 (slotAddr 1 0x64000) := by decide
  have hpy : Mm.OnPage 32 100 (slotAddr 2 0x64000) := by decide
  have hframe : frameOf (readOnly (entryOf (4096 * 100))) ≠ 0 := by decide
  have hmod : slotAddr 2 0x64000 % 4096 = slotAddr 1 0x64000 % 4096 := by decide
  have haddr : (slotSegment 1).base + (0x64000 : Word).toNat = slotAddr 1 0x64000 := by decide
  have hlim : ¬(slotSegment 1).limit ≤ (0x64000 : Word).toNat := by decide
  obtain ⟨m', hok, hread⟩ := hinv.mm.kernelStore_shared hx hy ((hpx.translate _).trans h16)
    ((hpy.translate _).trans h32) rfl hmod hframe (k.mm.reads (slotAddr 2 0x64000) + 1)
  refine ⟨k, t, { k with mm := m' }, k.mm.reads (slotAddr 2 0x64000) + 1, hreach, ht, hlive, hocc,
    ?_, ?_⟩
  · rw [userStore, hinv.data 1 t ht, Mm.putFsBytes, Mm.putFsByte, if_neg hlim, haddr, hok]
    rfl
  · intro hsame
    have heq := hread.symm.trans hsame
    generalize k.mm.reads (slotAddr 2 0x64000) = b at heq
    revert b
    decide

end Kernel

end NeuOs
