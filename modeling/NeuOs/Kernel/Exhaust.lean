import NeuOs.Kernel.Directory
import NeuOs.Kernel.Isolation

/-!
# Running out of memory

`write_verify` of a page that a child shares with the kernel takes a frame
(`Inv.drainPage`), so that the children of the task 0 use up as many frames as one likes
(`exists_drained`, `Draining.round`): from boot, the kernel gets to a state where three
frames are free, and a slot is empty (`exists_full`).
-/

namespace NeuOs

variable {lo hi : Nat} {ext : Nat → Nat} {m : Mm} {d n : Nat} {e : Word} {k k' : Kernel} {nr : Slot}
  {u : Task} {s : Finset Slot}

namespace Mm

/-- `write_verify` of a read-only page below 1 MB takes one frame. -/
theorem Inv.drainPage (h : Inv lo hi ext m) (hu : UserPage d n) (hwalk : m.walk d n = some e)
    (hlow : frameOf e < 256) (hro : ¬Writable e) (hfree : m.freeFrames ≠ 0) :
    ∃ m', m.writeVerify (d * 2 ^ 22 + n * 4096) = .ok m' ∧ m'.freeFrames + 1 = m.freeFrames ∧
      (∀ d' < 1024, m'.pde d' = m.pde d') ∧
      ∀ d' n', UserPage d' n' → (d', n') ≠ (d, n) → m'.walk d' n' = m.walk d' n' := by
  obtain ⟨⟨hd1, hd2⟩, hn⟩ := id hu
  obtain ⟨hp, hpte, rfl⟩ := walk_eq_some.1 hwalk
  have hdir : (d * 2 ^ 22 + n * 4096) / 2 ^ 22 = d := by omega
  have hent : (d * 2 ^ 22 + n * 4096) / 4096 % 1024 = n := by omega
  rw [writeVerify_eq m (by omega), hdir, hent, if_pos ⟨hp, hpte, hro⟩]
  rcases unWpPage_cases m hd2 n with ⟨hge, -⟩ | ⟨-, ⟨-, hzero⟩ | ⟨f, hge, hlt, h0, hok⟩⟩
  · omega
  · exact absurd hzero hfree
  · obtain ⟨-, hsame, -⟩ := h.replaced hge hlt h0 hu ⟨hp, hpte, rfl⟩
    have hdrop : m.replaced d n f = (m.alloc f).setPte d n (entryOf (4096 * f)) := by
      rw [Mm.replaced, dropCount, if_neg (by omega)]
    have halloc := h.alloc hge hlt h0
    refine ⟨_, hok, ?_, fun d' hd' => ?_, fun d' n' hu' hne => (hsame d' n' hu' hne).1⟩
    · rw [hdrop, freeFrames_congr (memMap_setPte _ _ _ _)]
      exact freeFrames_alloc hge hlt h0
    · rw [hdrop, halloc.pde_setPte hu.1 (by rwa [pde_alloc hd2 hge]) hd', pde_alloc hd' hge]

end Mm

namespace Kernel

/-- `write_verify` of the first pages of a child of the task 0. -/
theorem exists_drained (hlo : 256 ≤ lo) (hle : lo ≤ hi) (hhi : hi ≤ 4096) (h : Reachable lo hi k)
    (hd : Mm.UserDir d)
    (hwalk : ∀ n < 0xA0, k.mm.walk d n = some (readOnly (entryOf (4096 * n)))) (hn : n ≤ 0xA0)
    (hfree : n ≤ k.mm.freeFrames) :
    ∃ m, Reachable lo hi { k with mm := m } ∧ m.freeFrames + n = k.mm.freeFrames ∧
      (∀ d' < 1024, m.pde d' = k.mm.pde d') ∧
      ∀ n', n ≤ n' → n' < 0xA0 → m.walk d n' = some (readOnly (entryOf (4096 * n'))) := by
  induction n with
  | zero => exact ⟨k.mm, h, rfl, fun _ _ => rfl, fun n' _ hn' => hwalk n' hn'⟩
  | succ n ih =>
    obtain ⟨m, hreach, hcount, hdirs, hrest⟩ := ih (by omega) (by omega)
    obtain ⟨m', hok, hframes, hdirs', hwalk'⟩ := (hreach.inv hlo hle hhi).mm.drainPage
      ⟨hd, by omega⟩ (hrest n le_rfl (by omega))
      (by rw [frameOf_readOnly, frameOf_entryOf (by omega)]; omega) (not_writable_readOnly _)
      (by change m.freeFrames ≠ 0; omega)
    have hframes' : m'.freeFrames + 1 = m.freeFrames := hframes
    have hd2 := hd.2
    refine ⟨m', .step hreach (a := .writeVerify (d * 2 ^ 22 + n * 4096))
      ⟨⟨fun i hi => (by cases hi), show d * 2 ^ 22 + n * 4096 < 2 ^ 32 by omega⟩, ?_⟩, by omega,
      fun d' hd' => (hdirs' d' hd').trans (hdirs d' hd'), fun n' h₁ h₂ => ?_⟩
    · rw [Kernel.exec, withMm, hok]
      rfl
    · rw [hwalk' d n' ⟨hd, by omega⟩ fun heq => by have := (Prod.mk.inj heq).2; omega]
      exact hrest n' (by omega) h₂

/-- A fork of the task 0 frees no frames. -/
theorem Inv.freeFrames_fork (h : k.Inv lo hi) (hu : k.task 0 = some u) {r : Regs}
    (hst : Step k (.fork 0 r) k') (hfree : 2 < k.mm.freeFrames) :
    k'.mm.freeFrames ≤ k.mm.freeFrames := by
  obtain ⟨t, pid, ht, -, hy⟩ := hst.fork
  obtain rfl := Option.some.inj (hu.symm.trans ht)
  obtain ⟨pid', ⟨hx, -⟩ | ⟨nr, hnr, -, hx⟩⟩ := sysFork_cases hy
  · obtain ⟨-, rfl⟩ := Prod.mk.inj (Except.ok.inj hx)
    exact le_rfl
  · have hnr1 : 1 ≤ nr.1 := Slot.pos hnr
    have hnr2 := nr.2
    rcases copyProcess_ok hx.symm with ⟨-, rfl⟩ | ⟨f, hge, hlt, h0, err, child, m, hmem, hrest⟩
    · exact le_rfl
    · have halloc := h.mm.alloc hge hlt h0
      have hframes : (k.mm.alloc f).freeFrames + 1 = k.mm.freeFrames :=
        Mm.freeFrames_alloc hge hlt h0
      obtain ⟨r₁, m₁, hcopy, hcase⟩ := copyMem_ok hmem
      have hlim : u.data.limit = initLimit := by rw [h.data 0 u hu, slotSegment_limit]
      have hbase : u.data.base = (0 : Slot) * 0x4000000 := by rw [h.data 0 u hu, slotSegment_base]
      rw [hlim, hbase, slotBase] at hcopy
      have hsmall : initLimit ≤ 0x4000000 := by decide
      by_cases hr : r₁ = 0
      · obtain rfl : m = m₁ := (hcase.resolve_right fun hc => hc.2.1 hr).2.2
        have hmm : k'.mm = m := by
          rcases hrest with ⟨herr, -⟩ | ⟨-, -, hmm⟩
          · exact absurd (hcase.resolve_right fun hc => hc.2.1 hr).1 herr
          · exact hmm
        rw [hmm]
        rw [Mm.copyPageTables_eq (Fin.is_lt 0) hnr2 hsmall, Fin.val_zero, Nat.zero_mul,
          show (initLimit + 0x3fffff) / 2 ^ 22 = 1 from rfl] at hcopy
        replace hcopy : Mm.copyDirs 0 1 (4 * 0) (4 * (16 * nr)) (k.mm.alloc f) = .ok (r₁, m) :=
          hcopy
        by_cases hp : Present ((k.mm.alloc f).pde (16 * nr))
        · cases (Mm.copyDirs_exists hp).symm.trans hcopy
        · have hp₀ : Present ((k.mm.alloc f).pde 0) :=
            halloc.kernel.dir 0 (by omega) ▸ present_entryOf _
          rcases Mm.copyDirs_step 0 0 hp hp₀ with ⟨-, hzero⟩ | ⟨g, hge', hlt', h0', hstep⟩
          · omega
          · obtain ⟨-, hmap⟩ := halloc.spares_copyKernelDir (N := fun _ => True)
              (P := fun _ => True) hge' hlt' h0' ⟨by omega, by omega⟩ hp trivial
            obtain ⟨-, rfl⟩ := Prod.mk.inj (Except.ok.inj (hstep.symm.trans hcopy))
            have hframes' := Mm.freeFrames_alloc hge' hlt' h0'
            rw [if_pos rfl, Mm.freeFrames_congr hmap]
            omega
      · have htwo := halloc.two_tables hnr hsmall (by omega) hr hcopy
        exact absurd htwo (by decide)

/-- Slots outside of `s` are empty, and empty slots have no page tables. -/
structure Draining (s : Finset Slot) (k : Kernel) : Prop where
  reach : Reachable 256 768 k
  init : ∃ t, k.task 0 = some t ∧ t.state ≠ .zombie
  room : ∀ j ∉ s, k.task j = none
  absent : ∀ j, k.task j = none → ∀ d < 1024, d / 16 = j.1 → ¬Present (k.mm.pde d)

theorem Draining.exists_empty (h : Draining s k) (hs : s.card < 64) :
    ∃ nr, k.emptySlot = some nr := by
  obtain ⟨t, ht, -⟩ := h.init
  obtain ⟨j, hj⟩ : ∃ j, j ∉ s := by
    by_contra hall
    push Not at hall
    rw [Finset.eq_univ_iff_forall.2 hall, Finset.card_univ, Fintype.card_fin] at hs
    omega
  have hj0 : j ≠ 0 := by
    rintro rfl
    cases ht.symm.trans (h.room 0 hj)
  exact Option.ne_none_iff_exists'.1 (emptySlot_ne_none hj0 (h.room j hj))

/-- The task 0 makes a child, which then takes `n` frames. -/
theorem Draining.round (h : Draining s k) (hs : s.card < 64) (hfree : 2 < k.mm.freeFrames) :
    ∃ nr k', Draining (insert nr s) k' ∧ k.mm.freeFrames ≤ k'.mm.freeFrames + 2 ∧
      k'.mm.freeFrames ≤ k.mm.freeFrames ∧ ∀ n ≤ 0xA0, n ≤ k'.mm.freeFrames →
        ∃ k'', Draining (insert nr s) k'' ∧ k''.mm.freeFrames + n = k'.mm.freeFrames := by
  have hinv := h.reach.inv (by omega) (by omega) (by omega)
  obtain ⟨t, ht, hrun⟩ := h.init
  obtain ⟨nr, hslot⟩ := h.exists_empty hs
  obtain ⟨hnr, hnone⟩ := emptySlot_some hslot
  obtain ⟨k', u, hst, hurun, -, htask, hdirs, hless, hwalk⟩ := exists_fork_zero hinv
    (h.reach.pidInv (by omega) (by omega) (by omega)) ht hrun hslot (h.absent nr hnone) hfree
    default
  have hnext : Draining (insert nr s) k' := by
    refine ⟨.step h.reach hst, ⟨t, ?_, hrun⟩, fun j hj => ?_, fun j hj d hd hdj => ?_⟩
    · rw [htask, if_neg hnr.symm, ht]
    · rw [Finset.mem_insert, not_or] at hj
      rw [htask, if_neg hj.1, h.room j hj.2]
    · rw [htask] at hj
      split_ifs at hj with heq
      rw [hdirs d hd fun hc => heq (Fin.ext (hdj.symm.trans hc))]
      exact h.absent j hj d hd hdj
  refine ⟨nr, k', hnext, hless, hinv.freeFrames_fork ht hst hfree, fun n hn hle => ?_⟩
  have hnr1 : 1 ≤ nr.1 := Slot.pos hnr
  have hnr2 := nr.2
  obtain ⟨m, hreach, hcount, hdirs', -⟩ :=
    exists_drained (by omega) (by omega) (by omega) hnext.reach
    (d := 16 * nr) ⟨by omega, by omega⟩ (fun n hn => by rw [hwalk n (by omega), if_pos hn]) hn hle
  exact ⟨{ k' with mm := m }, ⟨hreach, hnext.init, hnext.room, fun j hj d hd hdj => by
    change ¬Present (m.pde d)
    rw [hdirs' d hd]
    exact hnext.absent j hj d hd hdj⟩, hcount⟩

theorem draining_mainKernel : Draining {0} mainKernel := by
  refine ⟨reachable_mainKernel, ⟨initTask 0x8000, rfl, by decide⟩, fun j hj => if_neg ?_,
    fun j hj d hd hdj => ?_⟩
  · rwa [Finset.mem_singleton] at hj
  · rw [mm_mainKernel]
    refine Mm.not_present_mainMem ⟨?_, hd⟩
    by_contra hlt
    have h0 : j = 0 := Fin.ext (show j.1 = 0 by omega)
    rw [h0] at hj
    cases hj

/-- Four children use up the memory, but for three frames. -/
theorem exists_full : ∃ s k, s.card < 64 ∧ Draining s k ∧ k.mm.freeFrames = 3 := by
  have hcard : ∀ (nr : Slot) (s : Finset Slot), (insert nr s).card ≤ s.card + 1 :=
    fun nr s => Finset.card_insert_le nr s
  have hboot : mainKernel.mm.freeFrames = 512 := by
    rw [mm_mainKernel]
    exact Mm.freeFrames_mainMem
  have hone : ({0} : Finset Slot).card = 1 := Finset.card_singleton 0
  obtain ⟨n₁, a₁, -, hlow₁, hup₁, hdrain₁⟩ := draining_mainKernel.round (by omega) (by omega)
  obtain ⟨k₁, h₁, hk₁⟩ := hdrain₁ 0xA0 le_rfl (by omega)
  have c₁ := hcard n₁ {0}
  obtain ⟨n₂, a₂, -, hlow₂, hup₂, hdrain₂⟩ := h₁.round (by omega) (by omega)
  obtain ⟨k₂, h₂, hk₂⟩ := hdrain₂ 0xA0 le_rfl (by omega)
  have c₂ := hcard n₂ (insert n₁ {0})
  obtain ⟨n₃, a₃, -, hlow₃, hup₃, hdrain₃⟩ := h₂.round (by omega) (by omega)
  obtain ⟨k₃, h₃, hk₃⟩ := hdrain₃ 0xA0 le_rfl (by omega)
  have c₃ := hcard n₃ (insert n₂ (insert n₁ {0}))
  obtain ⟨n₄, a₄, -, hlow₄, hup₄, hdrain₄⟩ := h₃.round (by omega) (by omega)
  obtain ⟨k₄, h₄, hk₄⟩ := hdrain₄ (a₄.mm.freeFrames - 3) (by omega) (by omega)
  have c₄ := hcard n₄ (insert n₃ (insert n₂ (insert n₁ {0})))
  exact ⟨_, k₄, by omega, h₄, by omega⟩

end Kernel

end NeuOs
