import NeuOs.Kernel.Pid
import NeuOs.Mm.Verify

/-!
# Frames and address spaces

What the invariant of the kernel says of all runs. The counters of `mem_map` are
exact, so that no frame leaks and none is freed twice (`frameCounts_exact`). And a
step of one process changes neither how the addresses of another task are
translated, nor the bytes there (`isolation`).

There is one exception: the first child of the task 0 gets the first 640 KB of
memory, read-only, and with them the page directory in frame 0. A process that has
frame 0 among its pages sees the directory entries of the others change
(`isolation_fails_in_directory`). (The kernel has more data below 1 MB, as `mem_map` and
the task table; here it is not part of the memory that pages show, so it counts as not
written. Nor are the stores of the task 0, whose memory is the kernel's own, steps here.)
-/

namespace NeuOs.Kernel

open Mm (UserDir UserPage)

variable {lo hi : Nat} {k k' : Kernel} {i j nr : Slot} {t : Task} {a : Action}

/-! ## Reference counts -/

/-- All references to a frame: it is mapped by at most 63 pages, or it is the page
    table of one directory entry, or the page of one task. -/
theorem Inv.refs_le (h : k.Inv lo hi) {f : Nat} (hf : 256 ≤ f) :
    k.mm.pteRefs f + k.mm.pdeRefs f + k.taskRefs f ≤ 63 := by
  have hpte := h.mm.pteRefs_le hf
  by_cases hheld : 0 < k.taskRefs f
  · obtain ⟨h₁, h₂, h₃⟩ := h.mm.held_refs hheld
    omega
  · by_cases htab : k.mm.pdeRefs f = 0
    · omega
    · obtain ⟨d, hd, ht⟩ : ∃ d, UserDir d ∧ k.mm.Table d f := by
        by_contra hnone
        exact htab (Mm.pdeRefs_eq_zero.2 fun d hd ht => hnone ⟨d, hd, ht⟩)
      obtain ⟨h₁, h₂, h₃⟩ := h.mm.table_refs hd ht
      omega

/-- A frame with references is mapped by a page, or is a page table, or is the page
    of a task. -/
theorem exists_of_refs_pos {f : Nat} (h : 0 < k.mm.pteRefs f + k.mm.pdeRefs f + k.taskRefs f) :
    (∃ d n, UserPage d n ∧ k.mm.Maps d n f) ∨ (∃ d, UserDir d ∧ k.mm.Table d f) ∨
      ∃ j t, j ≠ 0 ∧ k.task j = some t ∧ t.page = 4096 * f := by
  by_contra hnone
  push Not at hnone
  obtain ⟨hpage, htable, htask⟩ := hnone
  have h₁ : k.mm.pteRefs f = 0 := Mm.pteRefs_eq_zero.2 hpage
  have h₂ : k.mm.pdeRefs f = 0 := Mm.pdeRefs_eq_zero.2 htable
  have h₃ : k.taskRefs f = 0 := by
    refine Finset.card_filter_eq_zero.2 fun j _ hc => ?_
    obtain ⟨hj, hany⟩ := hc
    cases ht : k.task j with
    | none => simp [ht] at hany
    | some t => exact htask j t hj ht (by simpa [ht] using hany)
  omega

/-- In every reachable state the counter of a frame is the number of its
    references, at most 63; a used frame is referenced; and no action frees a
    frame that is free. -/
theorem frameCounts_exact (hlo : 256 ≤ lo) (hle : lo ≤ hi) (hhi : hi ≤ 4096)
    (h : Reachable lo hi k) :
    (∀ f, lo ≤ f → f < hi →
      (k.mm.memMap (f - 256)).toNat = k.mm.pteRefs f + k.mm.pdeRefs f + k.taskRefs f ∧
      k.mm.pteRefs f + k.mm.pdeRefs f + k.taskRefs f ≤ 63 ∧
      (k.mm.memMap (f - 256) ≠ 0 → (∃ d n, UserPage d n ∧ k.mm.Maps d n f) ∨
        (∃ d, UserDir d ∧ k.mm.Table d f) ∨
        ∃ j t, j ≠ 0 ∧ k.task j = some t ∧ t.page = 4096 * f)) ∧
    ∀ a, k.Enabled a → k.exec a ≠ some (.error .freeFreePage) := by
  have hinv := h.inv hlo hle hhi
  refine ⟨fun f h₁ h₂ => ?_, fun a ha hx => ?_⟩
  · have hcount := hinv.mm.exact f ⟨h₁, h₂⟩
    refine ⟨hcount, hinv.refs_le (hlo.trans h₁), fun hne => exists_of_refs_pos ?_⟩
    rw [← hcount]
    exact Nat.pos_of_ne_zero fun h0 => hne (BitVec.eq_of_toNat_eq h0)
  · cases hslot : a.slot with
    | none => exact (hinv.exec_none ha hslot hx).2 rfl
    | some i => exact hinv.exec ha hslot hx rfl

/-- The frames of a child after two forks: of its task, and of its page table. -/
theorem frameCounts_exact_children :
    ∃ k t f g, Reachable 256 768 k ∧ k.task 1 = some t ∧ k.task 2 ≠ none ∧ t.page = 4096 * f ∧
      k.mm.Table 16 g ∧ ∀ x, x = f ∨ x = g → (k.mm.memMap (x - 256)).toNat =
        k.mm.pteRefs x + k.mm.pdeRefs x + k.taskRefs x := by
  obtain ⟨k, t, hreach, ht, -, hocc, hthere, -⟩ := exists_children default
  have hinv := hreach.inv (by norm_num) (by norm_num) (by norm_num)
  obtain ⟨f, hf, hpage⟩ := hinv.page 1 t (by decide) ht
  have htable : k.mm.Table 16 (frameOf (k.mm.pde 16)) := ⟨hthere, rfl⟩
  refine ⟨k, t, f, frameOf (k.mm.pde 16), hreach, ht, hocc, hpage, htable, fun x hx => ?_⟩
  have hrange : 256 ≤ x ∧ x < 768 := by
    rcases hx with rfl | rfl
    · exact (hinv.mm.held x (taskRefs_pos (by decide) ht hpage)).1
    · exact (hinv.mm.table 16 _ ⟨by norm_num, by norm_num⟩ htable).1
  exact ((frameCounts_exact (by norm_num) (by norm_num) (by norm_num) hreach).1 x hrange.1
    hrange.2).1

/-! ## Isolation -/

/-- The linear address of an offset in the region of a slot. -/
def slotAddr (j : Slot) (off : Nat) : Nat := slotBase j + off

theorem slotAddr_user (hj : j ≠ 0) {off : Nat} (hoff : off < 0x4000000) :
    Mm.UserAddr (slotAddr j off) ∧ slotAddr j off / 2 ^ 22 / 16 = j := by
  have hj1 : 1 ≤ j.1 := Slot.pos hj
  have hj64 := j.2
  rw [Mm.UserAddr, slotAddr, slotBase]
  refine ⟨⟨?_, ?_⟩, ?_⟩ <;> omega

/-- A step of one process leaves the translation of every address of another task,
    and the byte there unless the address is mapped to the page directory; and no
    page shares its frame with a writable one. -/
theorem isolation (hlo : 256 ≤ lo) (hle : lo ≤ hi) (hhi : hi ≤ 4096) (h : Reachable lo hi k)
    (hst : Step k a k') (hslot : a.slot = some i) (hj : j ≠ 0) (hne : j ≠ i)
    (hocc : k.task j ≠ none) :
    (∀ off < 0x4000000, k'.mm.translate (slotAddr j off) = k.mm.translate (slotAddr j off) ∧
      ((∀ e, k.mm.translate (slotAddr j off) = some e → frameOf e ≠ 0) →
        k'.mm.view (slotAddr j off) = k.mm.view (slotAddr j off))) ∧
    ∀ d n d' n' f, UserPage d n → UserPage d' n' → k.mm.Maps d n f → Writable (k.mm.pte d n) →
      k.mm.Maps d' n' f → d = d' ∧ n = n' := by
  have hinv := h.inv hlo hle hhi
  obtain ⟨-, hsame⟩ := hinv.exec hst.1 hslot hst.2
  refine ⟨fun off hoff => ?_, fun d n d' n' f hu hu' hm hw hm' =>
    hinv.mm.writable_unique hu hm hw hu' hm'⟩
  obtain ⟨haddr, hregion⟩ := slotAddr_user hj hoff
  refine hsame.view haddr fun l hl => ?_
  obtain rfl : j = l := Fin.ext (hregion.symm.trans hl)
  exact ⟨hne, hocc⟩

/-! ## The page directory -/

/-- The first child exits: its directory entry is cleared, and the second child
    still has the page directory as its first page. -/
theorem exists_exit (r : Regs) :
    ∃ k k', Reachable 256 768 k ∧ Step k (.exit 1 0) k' ∧ k.task 2 ≠ none ∧
      Present (k.mm.pde 16) ∧ ¬Present (k'.mm.pde 16) ∧
      k.mm.walk 32 0 = some (readOnly (entryOf (4096 * 0))) ∧
      k'.mm.walk 32 0 = some (readOnly (entryOf (4096 * 0))) := by
  obtain ⟨k, t, hreach, ht, hrun, hocc, hthere, hpages⟩ := exists_children r
  have hmap := (hpages 0 (by omega)).2
  obtain ⟨k', hok, -, hsame, hpde, -⟩ :=
    (hreach.inv (by omega) (by omega) (by omega)).doExit_ok (φ := Task.place) (fun _ _ => rfl)
      (fun _ _ => rfl) (fun _ _ => rfl) (i := 1) (by decide) ht (((0 : Word) &&& 0xff) <<< 8)
  refine ⟨k, k', hreach, ⟨⟨fun i hi => ?_, trivial⟩, ?_⟩, hocc, hthere,
    fun hp => ((hpde 16 (by omega)).1 hp).2 rfl, hmap, ?_⟩
  · obtain rfl := Option.some.inj hi
    exact ⟨t, ht, by rw [hrun]; decide⟩
  · simp only [Kernel.exec, ht, Option.map_some]
    rw [sysExit, hok]
  · exact (hsame 32 0 ⟨⟨by omega, by omega⟩, by omega⟩ (show 32 / 16 ≠ 1 by decide)).1.trans hmap

/-- Isolation fails for the page directory: the exit of the process in slot 1
    changes a byte that the process in slot 2 can read. -/
theorem isolation_fails_in_directory :
    ∃ k k', Reachable 256 768 k ∧ Step k (.exit 1 0) k' ∧ k.task 2 ≠ none ∧
      k'.mm.view (slotAddr 2 64) ≠ k.mm.view (slotAddr 2 64) := by
  obtain ⟨k, k', hreach, hst, hocc, hthere, hgone, hmap, hmap'⟩ := exists_exit default
  refine ⟨k, k', hreach, hst, hocc, fun hview => ?_⟩
  have haddr : slotAddr 2 64 / 2 ^ 22 = 32 ∧ slotAddr 2 64 / 4096 % 1024 = 0 ∧
      slotAddr 2 64 % 4096 / 4 = 16 ∧ slotAddr 2 64 % 4 = 0 := by decide
  generalize slotAddr 2 64 = x at hview haddr
  obtain ⟨h₁, h₂, h₃, h₄⟩ := haddr
  have htrans : ∀ m : Mm, m.translate x = m.walk 32 0 := fun m => by rw [Mm.translate, h₁, h₂]
  have hframe : frameOf (readOnly (entryOf (4096 * 0))) = 0 := by decide
  have hbyte : getByte (k'.mm.pde 16) 0 = getByte (k.mm.pde 16) 0 := by
    have hread : k'.mm.reads x = k.mm.reads x := by rw [Mm.reads, Mm.reads, hview]
    rwa [Mm.reads_dir ((htrans _).trans hmap') hframe, Mm.reads_dir ((htrans _).trans hmap) hframe,
      h₃, h₄] at hread
  -- The present flag of the directory entry is in that byte.
  have hbit := congrArg (fun b : Byte => b.getLsbD 0) hbyte
  simp only [getByte, BitVec.getLsbD_extractLsb'] at hbit
  exact hgone (present_iff.2 (by simpa using hbit.trans (by simpa using present_iff.1 hthere)))

/-- The same exit leaves the translation of the pages of slot 2. -/
theorem isolation_exit :
    ∃ k k', Step k (.exit 1 0) k' ∧
      k'.mm.translate (slotAddr 2 64) = k.mm.translate (slotAddr 2 64) := by
  obtain ⟨k, k', hreach, hst, hocc, -⟩ := exists_exit default
  exact ⟨k, k', hst, ((isolation (by omega) (by omega) (by omega) hreach hst rfl (by decide)
    (by decide) hocc).1 64 (by omega)).1⟩

end NeuOs.Kernel
