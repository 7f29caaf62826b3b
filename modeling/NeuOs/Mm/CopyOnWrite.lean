import NeuOs.Lib.Run
import NeuOs.Mm.Boot
import NeuOs.Mm.Copy
import NeuOs.Mm.Reads

/-!
# Copy-on-write and eager copying

A fork by copying page tables, next to a fork that gives each process a memory
of its own (`Forked`): parent and child load and store bytes, and every store
goes to the private memory of the process as well. The question is whether each
process reads, at every address, what its private memory holds (`Agrees`).

`un_wp_page` does not copy the page it replaces, and a new page table is visible
to the processes that have the page directory among their pages. So the answer
depends on the accesses: a run keeps the agreement exactly if all of them are
`Safe` (`copyOnWrite_iff_safe`).
-/

namespace NeuOs.Mm

/-- The two processes after a fork. -/
inductive Proc
  | parent
  | child
  deriving DecidableEq, Repr

/-- An access in user mode of the byte at an offset of the data segment. -/
inductive Access
  | load (who : Proc) (off : Nat)
  | store (who : Proc) (off : Nat) (b : Byte)
  deriving DecidableEq, Repr

/-- Memory with shared page tables, and the private memories of an eager fork. -/
structure Forked where
  mm : Mm
  eager : Proc → Nat → Byte

/-- A fork between two slots, and the limit of their segments. -/
structure ForkSlots (p c size : Nat) : Prop where
  parent_pos : 1 ≤ p
  parent_lt : p < 64
  child_pos : 1 ≤ c
  child_lt : c < 64
  ne : p ≠ c
  size_le : size ≤ 0x4000000

/-- The linear address of an offset, for the parent in slot `p` and the child in
    slot `c`. -/
def Proc.addr (p c : Nat) : Proc → Nat → Nat
  | .parent, off => p * 0x4000000 + off
  | .child, off => c * 0x4000000 + off

section

variable (p c size : Nat)

/-- A load or store below the segment limit that does not run out of memory. -/
def Forked.Step (s : Forked) : Access → Forked → Prop
  | .load who off, s' => off < size ∧
      (∃ r, s.mm.userLoad (who.addr p c off) = .ok (r, s'.mm)) ∧ s'.eager = s.eager
  | .store who off b, s' => off < size ∧ s.mm.userStore (who.addr p c off) b = .ok s'.mm ∧
      s'.eager = fun w o => if w = who ∧ o = off then b else s.eager w o

/-- Both processes read what their private memories hold. -/
def Agrees (s : Forked) : Prop :=
  ∀ who off, off < size → s.mm.reads (who.addr p c off) = s.eager who off

/-- One of the processes has the page directory among its pages, and reads the
    first byte of the directory entry `d` there. -/
def ReadsEntry (m : Mm) (d : Nat) : Prop :=
  ∃ who off e, off < size ∧ m.translate (Proc.addr p c who off) = some e ∧ frameOf e = 0 ∧
    off % 4096 = 4 * d

/-- Mapping the page of `a`, if it is absent, does not add a page table whose
    directory entry is read by one of the processes. -/
def Mappable (m : Mm) (a : Nat) : Prop :=
  m.translate a = none → Present (m.pde (a / 2 ^ 22)) ∨ ¬ReadsEntry p c size m (a / 2 ^ 22)

/-- The page of an offset, if it is present, is writable, a page of its own, or
    read as zeros at all its other addresses. -/
def Replaceable (m : Mm) (who : Proc) (off : Nat) : Prop :=
  ∀ e, m.translate (who.addr p c off) = some e →
    Writable e ∨ (256 ≤ frameOf e ∧ m.memMap (frameOf e - 256) = 1) ∨
      ∀ off' < size, off' / 4096 = off / 4096 → off' ≠ off → m.reads (who.addr p c off') = 0

/-- The accesses that a lazy fork handles like an eager one. -/
def Safe (s : Forked) : Access → Prop
  | .load who off => Mappable p c size s.mm (who.addr p c off)
  | .store who off _ =>
    Mappable p c size s.mm (who.addr p c off) ∧ Replaceable p c size s.mm who off

end

variable {lo hi : Nat} {ext : Nat → Nat} {m m' : Mm} {p c size : Nat}

/-! ## Addresses -/

theorem Proc.addr_mod (who : Proc) (off : Nat) : who.addr p c off % 4096 = off % 4096 := by
  cases who <;> simp only [Proc.addr] <;> omega

namespace ForkSlots

variable (hs : ForkSlots p c size)
include hs

theorem userAddr {who : Proc} {off : Nat} (hoff : off < size) : UserAddr (who.addr p c off) := by
  obtain ⟨h₁, h₂, h₃, h₄, -, h₅⟩ := hs
  cases who <;> constructor <;> simp only [Proc.addr] <;> omega

/-- Addresses on the same page belong to the same process. -/
theorem onPage_iff {who who' : Proc} {off off' : Nat} (hoff : off < size) (hoff' : off' < size) :
    OnPage (who.addr p c off / 2 ^ 22) (who.addr p c off / 4096 % 1024) (who'.addr p c off') ↔
      who' = who ∧ off' / 4096 = off / 4096 := by
  obtain ⟨h₁, h₂, h₃, h₄, h₅, h₆⟩ := hs
  rw [OnPage, Prod.mk.injEq]
  cases who <;> cases who' <;> simp [Proc.addr] <;> omega

theorem addr_inj {who who' : Proc} {off off' : Nat} (hoff : off < size) (hoff' : off' < size) :
    who'.addr p c off' = who.addr p c off ↔ who' = who ∧ off' = off := by
  obtain ⟨h₁, h₂, h₃, h₄, h₅, h₆⟩ := hs
  cases who <;> cases who' <;> simp [Proc.addr] <;> omega

end ForkSlots

/-- After the faults of an access, everything but the byte to be stored reads as
    before exactly if the access is safe. -/
theorem ForkSlots.touch_iff (hs : ForkSlots p c size) (h : Inv lo hi ext m) {who : Proc} {off : Nat}
    (hoff : off < size) {write : Bool} (hok : m.touch (who.addr p c off) write = .ok m') :
    (∀ who' off', off' < size → ¬(write = true ∧ who' = who ∧ off' = off) →
      m'.reads (who'.addr p c off') = m.reads (who'.addr p c off')) ↔
    Mappable p c size m (who.addr p c off) ∧ (write = true → Replaceable p c size m who off) := by
  have ha : UserAddr (who.addr p c off) := hs.userAddr hoff
  rcases h.touch_reads ha hok with ⟨htab, hown, hsame⟩ | ⟨hnone, habs, hsame, hdiff⟩ |
    ⟨e, he, hwrite, hro, hshared, hzero⟩
  · -- nothing that is read changes
    refine iff_of_true (fun who' off' hoff' _ => hsame _ (hs.userAddr hoff')) ⟨fun hnone => ?_, ?_⟩
    · exact .inl (htab hnone)
    · exact fun hwrite e he => (hown hwrite e he).imp_right .inl
  · -- A new page table: the entries of the directory are read by those who map frame 0.
    have hrep : write = true → Replaceable p c size m who off := fun _ e he => by
      rw [hnone] at he
      cases he
    constructor
    · refine fun hall => ⟨fun _ => .inr ?_, hrep⟩
      rintro ⟨who', off', e, hoff', he, h0, hdir⟩
      refine hdiff _ e (hs.userAddr hoff') he h0 (by rw [Proc.addr_mod, hdir]) ?_
      refine hall who' off' hoff' ?_
      rintro ⟨-, rfl, rfl⟩
      rw [hnone] at he
      cases he
    · rintro ⟨hmap, -⟩ who' off' hoff' -
      refine hsame _ (hs.userAddr hoff') fun e he h0 hword => ?_
      rw [Proc.addr_mod] at hword
      -- The first byte of the entry lies below the limit if any of its bytes does.
      refine ((hmap hnone).resolve_left habs) ⟨who', off' - off' % 4, e, by omega, ?_, h0, by omega⟩
      have hpage : OnPage (who'.addr p c off' / 2 ^ 22) (who'.addr p c off' / 4096 % 1024)
          (who'.addr p c (off' - off' % 4)) :=
        (hs.onPage_iff hoff' (by omega)).2 ⟨rfl, by omega⟩
      exact (hpage.translate m).trans he
  · -- the page of a shared frame is replaced by an empty one
    have hmap : Mappable p c size m (who.addr p c off) := fun hnone => by
      rw [he] at hnone
      cases hnone
    constructor
    · refine fun hall => ⟨hmap, fun _ e' he' => .inr (.inr fun off' hoff' hpage hne => ?_)⟩
      rw [← hall who off' hoff' fun hc => hne hc.2.2, hzero _ (hs.userAddr hoff'),
        if_pos ((hs.onPage_iff hoff hoff').2 ⟨rfl, hpage⟩)]
    · rintro ⟨-, hrep⟩ who' off' hoff' hne
      rw [hzero _ (hs.userAddr hoff')]
      split_ifs with hpage
      · obtain ⟨rfl, hoffs⟩ := (hs.onPage_iff hoff hoff').1 hpage
        have hothers := ((hrep hwrite e he).resolve_left hro).resolve_left hshared
        exact (hothers off' hoff' hoffs fun heq => hne ⟨hwrite, rfl, heq⟩).symm
      · rfl

/-! ## Runs -/

/-- The accesses keep the invariant of the page tables. -/
theorem Forked.step_inv (hs : ForkSlots p c size) {s s' : Forked} {x : Access}
    (h : Inv lo hi ext s.mm) (hstep : s.Step p c size x s') : Inv lo hi ext s'.mm := by
  cases x with
  | load who off =>
    obtain ⟨hoff, ⟨r, hok⟩, -⟩ := hstep
    exact (h.userLoad_eq (hs.userAddr hoff) hok).2.1
  | store who off b =>
    obtain ⟨hoff, hok, -⟩ := hstep
    obtain ⟨m₁, -, hinv, -⟩ := h.userStore_eq (hs.userAddr hoff) hok
    exact hinv

/-- One access keeps the agreement exactly if it is safe. -/
theorem Forked.step_iff (hs : ForkSlots p c size) {s s' : Forked} {x : Access}
    (h : Inv lo hi ext s.mm) (hagree : Agrees p c size s) (hstep : s.Step p c size x s') :
    Agrees p c size s' ↔ Safe p c size s x := by
  cases x with
  | load who off =>
    obtain ⟨hoff, ⟨r, hok⟩, heager⟩ := hstep
    obtain ⟨htouch, -, -⟩ := h.userLoad_eq (hs.userAddr hoff) hok
    have hiff := hs.touch_iff h hoff htouch
    simp only [Bool.false_eq_true, false_and, not_false_eq_true, false_implies, and_true,
      forall_const] at hiff
    rw [Safe, ← hiff, Agrees, heager]
    exact forall_congr' fun who' => forall_congr' fun off' => forall_congr' fun hoff' => by
      rw [hagree who' off' hoff']
  | store who off b =>
    obtain ⟨hoff, hok, heager⟩ := hstep
    obtain ⟨m₁, htouch, -, hpoke⟩ := h.userStore_eq (hs.userAddr hoff) hok
    have hiff := hs.touch_iff h hoff htouch
    simp only [true_and, true_implies] at hiff
    rw [Safe, ← hiff, Agrees, heager]
    refine forall_congr' fun who' => forall_congr' fun off' => forall_congr' fun hoff' => ?_
    dsimp only
    rw [hpoke _ (hs.userAddr hoff')]
    by_cases hself : who' = who ∧ off' = off
    · rw [if_pos ((hs.addr_inj hoff hoff').2 hself), if_pos hself]
      exact iff_of_true rfl fun hne => absurd hself hne
    · rw [if_neg (mt (hs.addr_inj hoff hoff').1 hself), if_neg hself, hagree who' off' hoff']
      exact (imp_iff_right hself).symm

/-! ## The fork -/

/-- The state after a fork: the private memories hold what the parent reads. -/
def Forked.start (p c : Nat) (m : Mm) : Forked :=
  ⟨m, fun _ off => m.reads (Proc.addr p c .parent off)⟩

/-- The pages of parent and child after a fork: the child's are the parent's, and
    all of them are read-only. -/
theorem ForkSlots.translate_copied (hs : ForkSlots p c size)
    (hcopied : Copied (16 * p) (16 * c) ((size + 0x3fffff) / 2 ^ 22) m m') {off : Nat}
    (hoff : off < size) (who : Proc) :
    m'.translate (who.addr p c off) =
      (m.translate (Proc.addr p c .parent off)).map readOnly := by
  have hu : ∀ w : Proc, UserPage (w.addr p c off / 2 ^ 22) (w.addr p c off / 4096 % 1024) :=
    fun w => (hs.userAddr hoff).page
  obtain ⟨h₁, h₂, h₃, h₄, h₅, h₆⟩ := hs
  have hp : Proc.addr p c .parent off / 2 ^ 22 = 16 * p + off / 2 ^ 22 ∧
      Proc.addr p c .parent off / 4096 % 1024 = off / 4096 % 1024 := by
    simp only [Proc.addr]
    omega
  have hc : Proc.addr p c .child off / 2 ^ 22 = 16 * c + off / 2 ^ 22 ∧
      Proc.addr p c .child off / 4096 % 1024 = off / 4096 % 1024 := by
    simp only [Proc.addr]
    omega
  rw [translate, hcopied _ _ (hu who), translate]
  cases who with
  | parent => rw [hp.1, if_neg (by omega), if_pos (by omega)]
  | child =>
    have hback : 16 * c + off / 2 ^ 22 - 16 * c + 16 * p = 16 * p + off / 2 ^ 22 := by omega
    rw [hc.1, hc.2, hp.1, hp.2, if_pos (by omega), hback]

/-- After a fork, both processes read the same. -/
theorem ForkSlots.agrees_start (hs : ForkSlots p c size)
    (hcopied : Copied (16 * p) (16 * c) ((size + 0x3fffff) / 2 ^ 22) m m') :
    Agrees p c size (.start p c m') := by
  intro who off hoff
  have hself := hs.translate_copied hcopied hoff who
  have hparent := hs.translate_copied hcopied hoff .parent
  change m'.reads _ = m'.reads _
  cases he : (m.translate (Proc.addr p c .parent off)).map readOnly with
  | none => rw [reads_of_none (hself.trans he), reads_of_none (hparent.trans he)]
  | some e =>
    have hphys : physAddr e (who.addr p c off) = physAddr e (Proc.addr p c .parent off) := by
      rw [physAddr, physAddr, Proc.addr_mod, Proc.addr_mod]
    rw [reads_of_some (hself.trans he), reads_of_some (hparent.trans he), hphys]

/-- The parent reads what it read before the fork, unless it reads the page
    directory. -/
theorem ForkSlots.reads_start (hs : ForkSlots p c size) (h' : Inv lo hi ext m')
    (hgrow : Grows m m') (hcopied : Copied (16 * p) (16 * c) ((size + 0x3fffff) / 2 ^ 22) m m')
    {off : Nat} (hoff : off < size)
    (hne : ∀ e, m.translate (Proc.addr p c .parent off) = some e → frameOf e ≠ 0) :
    m'.reads (Proc.addr p c .parent off) = m.reads (Proc.addr p c .parent off) := by
  have htr := hs.translate_copied hcopied hoff .parent
  cases he : m.translate (Proc.addr p c .parent off) with
  | none => rw [reads_of_none he, reads_of_none (htr.trans (by rw [he]; rfl))]
  | some e =>
    rw [he] at htr
    have hmaps := maps_of_walk htr
    rw [frameOf_readOnly] at hmaps
    have h0 := hne e he
    have hframe : physAddr (readOnly e) (Proc.addr p c .parent off) =
        physAddr e (Proc.addr p c .parent off) := by
      rw [physAddr, frameOf_readOnly, ← physAddr]
    rw [reads_of_some he, reads_of_some htr, hframe]
    refine loadByte_congr (fun k hk => hgrow.phys _ (by omega) fun d hd ht => ?_) _
    have hword : (1024 * frameOf e + k) / 1024 = frameOf e := by omega
    exact h'.not_maps_table hd (hword ▸ ht) (hs.userAddr hoff).page hmaps

/-- A fork that returns 0, and the accesses of parent and child after it. Each
    process reads what it would read after an eager copy, along the whole run,
    exactly if every access is safe. -/
theorem copyOnWrite_iff_safe (hs : ForkSlots p c size) (h : Inv lo hi ext m)
    (hfork : m.copyPageTables (p * 0x4000000) (c * 0x4000000) size = .ok (0, m'))
    {l : List (Access × Forked)}
    (hrun : Transition.Run (Forked.Step p c size) (.start p c m') l) :
    Agrees p c size (.start p c m') ∧
    (∀ off < size, (∀ e, m.translate (Proc.addr p c .parent off) = some e → frameOf e ≠ 0) →
      m'.reads (Proc.addr p c .parent off) = m.reads (Proc.addr p c .parent off)) ∧
    ((∀ x ∈ l, Agrees p c size x.2) ↔
      Transition.Along (Safe p c size) (.start p c m') l) := by
  obtain ⟨h₁, h₂, h₃, h₄, h₅, h₆⟩ := hs
  have hs : ForkSlots p c size := ⟨h₁, h₂, h₃, h₄, h₅, h₆⟩
  have hfork' := hfork
  rw [copyPageTables_eq h₂ h₄ h₆] at hfork'
  rcases h.copyDirs (p * 0x4000000) ((size + 0x3fffff) / 2 ^ 22) (16 * p) (16 * c)
    (by omega) (by omega) (by omega) (by omega) (by omega) (by omega)
    (by omega) with ⟨herr, -⟩ | ⟨r, m₁, hok, hinv, hgrow, -, -, -, -, hcopied⟩
  · rw [herr] at hfork'
    cases hfork'
  · obtain ⟨rfl, rfl⟩ := Prod.mk.inj (Except.ok.inj (hok.symm.trans hfork'))
    have hcopied := hcopied rfl
    refine ⟨hs.agrees_start hcopied, fun off hoff hne => hs.reads_start hinv hgrow hcopied hoff hne,
      ?_⟩
    exact hrun.forall_iff_along (J := fun s => Inv lo hi ext s.mm) (hs.agrees_start hcopied) hinv
      (fun s x s' hJ hstep => Forked.step_inv hs hJ hstep)
      fun s x s' hJ hP hstep => Forked.step_iff hs hJ hP hstep

/-! ## A page that is lost -/

/-- A store to an absent page without a page table, when there is memory for
    both. -/
theorem Inv.exists_userStore (h : Inv lo hi ext m) {a : Nat} (ha : UserAddr a)
    (habs : ¬Present (m.pde (a / 2 ^ 22))) (hfree : 2 ≤ m.freeFrames) (b : Byte) :
    ∃ m', m.userStore a b = .ok m' ∧ Inv lo hi ext m' ∧ m'.reads a = b ∧
      m.freeFrames = m'.freeFrames + 2 ∧
      (∀ d < 1024, d ≠ a / 2 ^ 22 → m'.pde d = m.pde d) ∧
      ∃ e, m'.translate a = some e ∧ Writable e := by
  have hnone : m.translate a = none := walk_eq_none.2 fun hc => habs hc.1
  have hu := ha.page
  rcases doNoPage_cases m ha.2 with ⟨-, hzero⟩ | ⟨f, hge, hlt, h0, ⟨hp, -⟩ |
    ⟨hp, g, hge', hlt', h0', hok⟩⟩
  · omega
  · exact absurd hp habs
  · obtain ⟨hinv, -, hwalk, -⟩ := h.newTablePage hge hlt h0 hge' hlt' h0' hu hp
    have htouch : m.touch a true = .ok (((m.alloc f).newTable (a / 2 ^ 22) g).setPte (a / 2 ^ 22)
        (a / 4096 % 1024) (entryOf (4096 * f))) := by
      rw [Mm.touch, hnone]
      exact hok
    -- one frame for the page table, one for the page
    have hcount : (((m.alloc f).newTable (a / 2 ^ 22) g).setPte (a / 2 ^ 22) (a / 4096 % 1024)
        (entryOf (4096 * f))).freeFrames + 2 = m.freeFrames := by
      have h₁ := freeFrames_alloc hge hlt h0
      have h₂ := freeFrames_alloc hge' hlt' h0'
      rw [freeFrames_congr (memMap_setPte _ _ _ _), Mm.newTable,
        freeFrames_congr (memMap_setPde _ _ _)]
      omega
    -- the store itself does not touch the directory
    have hdirs : ∀ d < 1024, d ≠ a / 2 ^ 22 → (((m.alloc f).newTable (a / 2 ^ 22) g).setPte
        (a / 2 ^ 22) (a / 4096 % 1024) (entryOf (4096 * f))).pde d = m.pde d := fun d hd hne => by
      rw [h.pde_newTablePage hge hlt h0 hge' hlt' h0' hu hp hd, if_neg hne]
    generalize ((m.alloc f).newTable (a / 2 ^ 22) g).setPte (a / 2 ^ 22) (a / 4096 % 1024)
      (entryOf (4096 * f)) = m₁ at *
    have hw : Writable (entryOf (4096 * f)) := writable_entryOf _
    obtain ⟨hinv', hwalk', -⟩ := hinv.storeByte hu.1 hwalk hw b
    have hpoke : m₁.poke a b = m₁.storeByte (physAddr (entryOf (4096 * f)) a) b := by
      rw [poke, translate, hwalk]
      rfl
    have hframe : 256 ≤ frameOf (entryOf (4096 * f)) := by
      rw [frameOf_entryOf (by omega)]
      exact hge
    refine ⟨m₁.poke a b, ?_, hpoke ▸ hinv', ?_, ?_, fun d hd hne => ?_, _, ?_, hw⟩
    · rw [userStore, htouch]
      rfl
    · rw [hinv.reads_poke ha hwalk hw b ha, if_pos rfl]
    · rw [hpoke, freeFrames_congr (show (m₁.storeByte _ b).memMap = m₁.memMap from rfl)]
      exact hcount.symm
    · rw [hpoke, ← hdirs d hd hne]
      refine phys_storeByte_ne ?_
      rw [physAddr_div]
      omega
    · rw [hpoke, translate, hwalk' _ _ hu]
      exact hwalk

/-- A fork of slot 1 into slot 2, when there is memory for the page table. -/
theorem Inv.exists_fork (h : Inv lo hi ext m) (habs : ¬Present (m.pde 32))
    (hfree : 1 < m.freeFrames) :
    ∃ m', m.copyPageTables (1 * 0x4000000) (2 * 0x4000000) 0x1000 = .ok (0, m') ∧
      Inv lo hi ext m' ∧ Grows m m' ∧ Copied 16 32 1 m m' ∧
      m.freeFrames ≤ m'.freeFrames + 1 := by
  rw [copyPageTables_eq (i := 1) (j := 2) (by omega) (by omega) (by omega)]
  rcases h.copyDirs (1 * 0x4000000) 1 16 32 (by omega) (by omega)
    (by omega) (by omega) (by omega) (by omega) (by omega) with ⟨-, d, h₁, h₂, hp⟩ |
    ⟨r, m', hok, hinv, hgrow, -, -, hcount, hfail, hcopied⟩
  · obtain rfl : d = 32 := by omega
    exact absurd hp habs
  · have hr : r = 0 := by
      by_contra hne
      have := hfail hne
      omega
    subst hr
    exact ⟨m', hok, hinv, hgrow, hcopied rfl, hcount⟩

theorem forkSlots_one_two : ForkSlots 1 2 0x1000 := by
  constructor <;> decide

/-- The parent stores the byte 7 at the offset 0 and forks. When it stores at
    another offset of the page after that, the byte 7 is gone. -/
theorem Inv.exists_lost (h : Inv lo hi ext m) (hempty : ∀ d, UserDir d → ¬Present (m.pde d))
    (hfree : 5 ≤ m.freeFrames) :
    ∃ m₁ m₂ s, m.userStore 0x4000000 7 = .ok m₁ ∧ Inv lo hi ext m₁ ∧
      m₁.copyPageTables (1 * 0x4000000) (2 * 0x4000000) 0x1000 = .ok (0, m₂) ∧
      Forked.Step 1 2 0x1000 (.start 1 2 m₂) (.store .parent 1 5) s ∧
      s.eager .parent 0 = 7 ∧ s.mm.reads (Proc.addr 1 2 .parent 0) = 0 := by
  have hslots := forkSlots_one_two
  have ha : UserAddr 0x4000000 := ⟨le_rfl, by omega⟩
  have hdir : 0x4000000 / 2 ^ 22 = 16 := by omega
  obtain ⟨m₁, hstore, hinv₁, hread, hcount, hdirs, e, he, hwe⟩ :=
    h.exists_userStore ha (hempty _ ha.page.1) (by omega) 7
  rw [hdir] at hdirs
  have habs : ¬Present (m₁.pde 32) := by
    rw [hdirs 32 (by omega) (by omega)]
    exact hempty 32 ⟨by omega, by omega⟩
  obtain ⟨m₂, hfork, hinv₂, hgrow, hcopied, hleft⟩ := hinv₁.exists_fork habs (by omega)
  -- parent and child map the page read-only
  have hpages : ∀ who off, off < 0x1000 →
      m₂.translate (Proc.addr 1 2 who off) = some (readOnly e) := fun who off hoff => by
    have hpage : OnPage (0x4000000 / 2 ^ 22) (0x4000000 / 4096 % 1024)
        (Proc.addr 1 2 .parent off) := by
      rw [OnPage, Proc.addr, Prod.mk.injEq]
      omega
    have hparent : m₁.translate (Proc.addr 1 2 .parent off) = some e :=
      (hpage.translate m₁).trans he
    rw [hslots.translate_copied hcopied hoff who, hparent]
    rfl
  have hframe : 256 ≤ frameOf e := by
    have hm := maps_of_walk he
    exact (hinv₁.writable _ _ _ ha.page hm ((walk_eq_some.1 he).2.2 ▸ hwe)).1
  have hread₂ : m₂.reads (Proc.addr 1 2 .parent 0) = 7 := by
    rw [hslots.reads_start hinv₂ hgrow hcopied (by omega) fun e' he' => ?_]
    · exact hread
    · obtain rfl : e = e' := Option.some.inj (he.symm.trans he')
      omega
  have hua : UserAddr (Proc.addr 1 2 .parent 1) := hslots.userAddr (by omega)
  have huz : UserAddr (Proc.addr 1 2 .parent 0) := hslots.userAddr (by omega)
  rcases hinv₂.touch hua.2 hua.page.1 true with ⟨-, hzero⟩ | ⟨m₃, -, htouch, -⟩
  · omega
  · have hok : m₂.userStore (Proc.addr 1 2 .parent 1) 5 =
        .ok (m₃.poke (Proc.addr 1 2 .parent 1) 5) := by
      rw [userStore, htouch]
      rfl
    obtain ⟨m₄, htouch', -, hpoke⟩ := hinv₂.userStore_eq hua hok
    refine ⟨m₁, m₂, ⟨m₃.poke (Proc.addr 1 2 .parent 1) 5, _⟩, hstore, hinv₁, hfork,
      ⟨by omega, hok, rfl⟩, hread₂, ?_⟩
    rw [hpoke _ huz, if_neg (by decide)]
    rcases hinv₂.touch_reads hua htouch' with ⟨-, hown, -⟩ | ⟨hnone, -⟩ | ⟨-, -, -, -, -, hzero⟩
    · rcases hown rfl _ (hpages .parent 1 (by omega)) with hw | ⟨hge, hone⟩
      · exact absurd hw (not_writable_readOnly e)
      · -- The page is shared with the child.
        have huc : UserAddr (Proc.addr 1 2 .child 1) := hslots.userAddr (by omega)
        have hsame := hinv₂.maps_unique hge hone hua.page
          (maps_of_walk (hpages .parent 1 (by omega))) huc.page
          (maps_of_walk (hpages .child 1 (by omega)))
        exact absurd hsame.1 (by decide)
    · rw [hpages .parent 1 (by omega)] at hnone
      cases hnone
    · rw [hzero _ huz, if_pos (by decide)]

/-- Copy-on-write differs from an eager copy: after a fork of slot 1 into slot 2,
    a store of the parent loses another byte of the page. -/
theorem copyOnWrite_loses_page :
    ∃ m₁ m₂ s, mainMem.userStore 0x4000000 7 = .ok m₁ ∧ Inv 256 768 (fun _ => 0) m₁ ∧
      m₁.copyPageTables (1 * 0x4000000) (2 * 0x4000000) 0x1000 = .ok (0, m₂) ∧
      Forked.Step 1 2 0x1000 (.start 1 2 m₂) (.store .parent 1 5) s ∧
      s.eager .parent 0 = 7 ∧ s.mm.reads (Proc.addr 1 2 .parent 0) = 0 ∧
      ¬Agrees 1 2 0x1000 s := by
  obtain ⟨m₁, m₂, s, hstore, hinv, hfork, hstep, heager, hread⟩ :=
    inv_mainMem.exists_lost (fun d hd => not_present_mainMem hd) (by rw [freeFrames_mainMem]; omega)
  refine ⟨m₁, m₂, s, hstore, hinv, hfork, hstep, heager, hread, fun hagree => ?_⟩
  have hbad := hagree .parent 0 (by omega)
  rw [heager, hread] at hbad
  exact absurd hbad (by decide)

/-- The fork and the store of the counterexample, as a run. -/
theorem copyOnWrite_iff_safe_mainMem :
    ∃ (m₁ m₂ : Mm) (s : Forked),
      m₁.copyPageTables (1 * 0x4000000) (2 * 0x4000000) 0x1000 = .ok (0, m₂) ∧
      ((∀ x ∈ [(Access.store .parent 1 5, s)], Agrees 1 2 0x1000 x.2) ↔
        Transition.Along (Safe 1 2 0x1000) (.start 1 2 m₂) [(Access.store .parent 1 5, s)]) := by
  obtain ⟨m₁, m₂, s, -, hinv, hfork, hstep, -⟩ :=
    inv_mainMem.exists_lost (fun d hd => not_present_mainMem hd) (by rw [freeFrames_mainMem]; omega)
  exact ⟨m₁, m₂, s, hfork,
    (copyOnWrite_iff_safe forkSlots_one_two hinv hfork (.cons hstep (.nil s))).2.2⟩

end NeuOs.Mm
