import NeuOs.Mm.Invariant

/-!
# Changing one page

The changes of single pages and page tables that the memory manager is made of,
as instances of `Inv.changePte` and `Inv.changePde`: a new page is mapped
(`Inv.mapPage`), a page is replaced by a new one (`Inv.replacePage`) or dropped
(`Inv.dropPage`), its write flag is cleared (`Inv.protect`) or set
(`Inv.unprotect`), it is shared with another slot (`Inv.share`,
`Inv.shareLow`), and page tables come and go (`Inv.addTable`, `Inv.dropTable`).

What a slot sees of memory is the translation of its pages (`walk`) and the
contents of their frames. `SamePages S m m'` says that both are the same in `m`
and `m'` for the user pages in `S`. (The contents of frame 0, which is the page
directory itself, are left out: every change of a directory entry changes them.)
-/

namespace NeuOs.Mm

variable {lo hi : Nat} {ext : Nat → Nat} {m m' m'' : Mm} {d n f g : Nat}

/-! ## Translation -/

/-- The entry translating the page `(d, n)`, if it is present. -/
def walk (m : Mm) (d n : Nat) : Option Word :=
  if Present (m.pde d) ∧ Present (m.pte d n) then some (m.pte d n) else none

theorem walk_eq_some {e : Word} :
    m.walk d n = some e ↔ Present (m.pde d) ∧ Present (m.pte d n) ∧ m.pte d n = e := by
  rw [walk]
  split_ifs with h
  · rw [Option.some.injEq]
    exact ⟨fun he => ⟨h.1, h.2, he⟩, fun he => he.2.2⟩
  · exact ⟨fun he => by simp at he, fun he => absurd ⟨he.1, he.2.1⟩ h⟩

theorem walk_eq_none : m.walk d n = none ↔ ¬(Present (m.pde d) ∧ Present (m.pte d n)) := by
  rw [walk]
  split_ifs with h
  · simp [h]
  · simp [h]

theorem maps_of_walk {e : Word} (h : m.walk d n = some e) : m.Maps d n (frameOf e) := by
  obtain ⟨h₁, h₂, rfl⟩ := walk_eq_some.1 h
  exact ⟨h₁, h₂, rfl⟩

theorem Maps.walk (h : m.Maps d n f) : m.walk d n = some (m.pte d n) :=
  walk_eq_some.2 ⟨h.1, h.2.1, rfl⟩

/-- The pages in `S` are translated in the same way in `m` and `m'`, to frames
    with the same contents. -/
def SamePages (S : Nat → Nat → Prop) (m m' : Mm) : Prop :=
  ∀ d n, UserPage d n → S d n → m'.walk d n = m.walk d n ∧
    ∀ e, m.walk d n = some e → frameOf e ≠ 0 →
      ∀ k < 1024, m'.phys (1024 * frameOf e + k) = m.phys (1024 * frameOf e + k)

namespace SamePages

variable {S S' : Nat → Nat → Prop}

theorem refl (S : Nat → Nat → Prop) (m : Mm) : SamePages S m m :=
  fun _ _ _ _ => ⟨rfl, fun _ _ _ _ _ => rfl⟩

theorem trans (h : SamePages S m m') (h' : SamePages S m' m'') : SamePages S m m'' := by
  intro d n hu hS
  obtain ⟨hw, hc⟩ := h d n hu hS
  obtain ⟨hw', hc'⟩ := h' d n hu hS
  refine ⟨hw'.trans hw, fun e he h0 k hk => ?_⟩
  exact (hc' e (hw.trans he) h0 k hk).trans (hc e he h0 k hk)

theorem mono (h : SamePages S m m') (hS : ∀ d n, S' d n → S d n) : SamePages S' m m' :=
  fun d n hu hS' => h d n hu (hS d n hS')

end SamePages

/-- Memory with other counters shows the same pages. -/
theorem walk_memMap (map' : Nat → Byte) (d n : Nat) :
    ({ m with memMap := map' } : Mm).walk d n = m.walk d n := rfl

/-- Counting a frame down changes no page. -/
theorem samePages_decr (S : Nat → Nat → Prop) (m : Mm) (f : Nat) : SamePages S m (m.decr f) :=
  fun _ _ _ _ => ⟨rfl, fun _ _ _ _ _ => rfl⟩

/-- Setting the entry of one page leaves the other pages as they are. -/
theorem Inv.samePages_setPte (h : Inv lo hi ext m) (hu : UserPage d n) (hp : Present (m.pde d))
    (v : Word) (map' : Nat → Byte) :
    SamePages (fun d' n' => (d', n') ≠ (d, n)) m { m.setPte d n v with memMap := map' } := by
  intro d' n' hu' hne
  rw [walk_memMap]
  refine ⟨?_, fun e he _ k hk => ?_⟩
  · have hpde := h.pde_setPte (n := n) hu.1 hp hu'.1.2 v
    by_cases hp' : Present (m.pde d')
    · rw [walk, hpde, h.pte_setPte_ne hu hp hu' hp' hne, walk]
    · rw [walk_eq_none.2 fun hc => hp' hc.1, walk_eq_none.2 fun hc => hp' (hpde ▸ hc.1)]
  · have hframe : frameOf e ≠ frameOf (m.pde d) := fun heq =>
      h.not_maps_table hu.1 ⟨hp, rfl⟩ hu' (heq ▸ maps_of_walk he)
    have hn := hu.2
    exact phys_setPte_ne m (by omega) v

/-- How the pages are translated after the entry of one page has been set. -/
theorem Inv.walk_setPte (h : Inv lo hi ext m) {d' n' : Nat} (hu : UserPage d n)
    (hp : Present (m.pde d)) (hu' : UserPage d' n') (v : Word) :
    (m.setPte d n v).walk d' n' =
      if (d', n') = (d, n) then if Present v then some v else none else m.walk d' n' := by
  split_ifs with heq hv
  · obtain ⟨rfl, rfl⟩ := Prod.mk.inj heq
    have hpde := h.pde_setPte (n := n') hu.1 hp hu.1.2 v
    rw [walk, pte_setPte_self hpde, hpde, if_pos ⟨hp, hv⟩]
  · obtain ⟨rfl, rfl⟩ := Prod.mk.inj heq
    have hpde := h.pde_setPte (n := n') hu.1 hp hu.1.2 v
    rw [walk, pte_setPte_self hpde, if_neg fun hc => hv hc.2]
  · exact (h.samePages_setPte hu hp v m.memMap d' n' hu' heq).1

/-- Allocating a free frame changes no page. -/
theorem Inv.samePages_alloc (h : Inv lo hi ext m) (hge : 256 ≤ f) (hlt : f < 4096)
    (h0 : m.memMap (f - 256) = 0) : SamePages (fun _ _ => True) m (m.alloc f) := by
  obtain ⟨-, hpte, hpde, -⟩ := h.frame_free hge hlt h0
  intro d n hu _
  have hdir : (m.alloc f).pde d = m.pde d := by
    have := hu.1.2
    rw [pde, phys_alloc, if_neg (by omega), pde]
  refine ⟨?_, fun e he _ k hk => ?_⟩
  · by_cases hp : Present (m.pde d)
    · have hne : frameOf (m.pde d) ≠ f := fun heq => pdeRefs_eq_zero.1 hpde d hu.1 ⟨hp, heq⟩
      have hent : (m.alloc f).pte d n = m.pte d n := by
        have := hu.2
        rw [pte, hdir, phys_alloc, if_neg (by omega), pte]
      rw [walk, hdir, hent, walk]
    · rw [walk_eq_none.2 fun hc => hp hc.1, walk_eq_none.2 fun hc => hp (hdir ▸ hc.1)]
  · have hne : frameOf e ≠ f := fun heq => pteRefs_eq_zero.1 hpte d n hu (heq ▸ maps_of_walk he)
    rw [phys_alloc, if_neg (by omega)]

/-- Changing a directory entry that maps nothing, before and after, changes no
    page. -/
theorem Inv.samePages_setPde (h : Inv lo hi ext m) {v : Word} (hd : UserDir d)
    (hold : ∀ n f, n < 1024 → ¬m.Maps d n f) (hge : Present v → 256 ≤ frameOf v)
    (hnew : Present v → ∀ n < 1024, ¬Present (m.phys (1024 * frameOf v + n)))
    (map' : Nat → Byte) :
    SamePages (fun _ _ => True) m { m.setPde d v with memMap := map' } := by
  intro d' n hu _
  have hd2 := hd.2
  rw [walk_memMap]
  refine ⟨?_, fun e _ he0 k _ => phys_setPde_ne m (by omega) v⟩
  by_cases heq : d' = d
  · subst heq
    have hnone : m.walk d' n = none := walk_eq_none.2 fun hc => hold n _ hu.2 ⟨hc.1, hc.2, rfl⟩
    rw [hnone]
    refine walk_eq_none.2 fun ⟨hv, hp⟩ => ?_
    rw [pte, pde_setPde, if_pos rfl] at hp
    rw [pde_setPde, if_pos rfl] at hv
    have := hge hv
    rw [phys_setPde_ne m (by omega)] at hp
    exact hnew hv n hu.2 hp
  · have hpde : (m.setPde d v).pde d' = m.pde d' := by rw [pde_setPde, if_neg heq]
    by_cases hp : Present (m.pde d')
    · have hge' := h.table_ge hu.1 hp
      rw [walk, pte, hpde, phys_setPde_ne m (by omega), walk, pte]
    · rw [walk_eq_none.2 fun hc => hp hc.1, walk_eq_none.2 fun hc => hp (hpde ▸ hc.1)]

/-! ## Counting down -/

/-- The counter of the frame of a dropped page, if it is not one of the
    kernel's. -/
def dropCount (m : Mm) (g : Nat) : Mm := if 256 ≤ g then m.decr g else m

@[simp] theorem phys_dropCount (m : Mm) (g : Nat) : (m.dropCount g).phys = m.phys := by
  rw [dropCount]
  split_ifs <;> rfl

theorem dropCount_eq (m : Mm) (g : Nat) :
    m.dropCount g = { m with memMap := (m.dropCount g).memMap } := by
  rw [dropCount]
  split_ifs <;> rfl

theorem memMap_dropCount (m : Mm) (g : Nat) {f : Nat} (hf : 256 ≤ f) :
    (m.dropCount g).memMap (f - 256) =
      if f = g then m.memMap (f - 256) - 1 else m.memMap (f - 256) := by
  rw [dropCount]
  split_ifs with hg heq heq
  · rw [memMap_decr, if_pos (by omega), heq]
  · rw [memMap_decr, if_neg (by omega)]
  · omega
  · rfl

/-- Counting a nonzero counter down by one. -/
theorem toNat_sub_one {c : Byte} (h : c ≠ 0) : (c - 1).toNat = c.toNat - 1 := by
  have hlt := c.isLt
  have hpos : 0 < c.toNat := Nat.pos_of_ne_zero fun h0 => h (BitVec.eq_of_toNat_eq h0)
  rw [BitVec.toNat_sub, toNat_byte_one]
  omega

/-- The frame of a user page is counted. -/
theorem Inv.count_ne_zero (h : Inv lo hi ext m) (hu : UserPage d n) (hm : m.Maps d n f)
    (hf : 256 ≤ f) : m.memMap (f - 256) ≠ 0 := by
  intro h0
  have hman := (h.mapped d n f hu hm).resolve_left (by omega)
  have hcount := h.exact f hman
  have := pteRefs_pos hu hm
  rw [h0, toNat_byte_zero] at hcount
  omega

/-- Counting down the frame of a page: the count and the reference of the page go
    together. -/
theorem Inv.toNat_dropCount (h : Inv lo hi ext m) (hu : UserPage d n) (hm : m.Maps d n g)
    (hf : 256 ≤ f) :
    ((m.dropCount g).memMap (f - 256)).toNat + (if m.Maps d n f then 1 else 0) =
      (m.memMap (f - 256)).toNat := by
  rw [memMap_dropCount m g hf]
  by_cases heq : f = g
  · subst heq
    have hnz := h.count_ne_zero hu hm hf
    have hpos : 0 < (m.memMap (f - 256)).toNat :=
      Nat.pos_of_ne_zero fun h0 => hnz (BitVec.eq_of_toNat_eq h0)
    rw [if_pos rfl, if_pos hm, toNat_sub_one hnz]
    omega
  · have hnm : ¬m.Maps d n f := fun hm' => heq (hm'.2.2.symm.trans hm.2.2)
    rw [if_neg heq, if_neg hnm, Nat.add_zero]

/-- The count of a writable page goes down with the page itself only. -/
theorem Inv.dropCount_writable (h : Inv lo hi ext m) (hu : UserPage d n) (hm : m.Maps d n g)
    {d' n' : Nat} (hu' : UserPage d' n') (hne : (d', n') ≠ (d, n)) (hm' : m.Maps d' n' f)
    (hw : Writable (m.pte d' n')) : (m.dropCount g).memMap (f - 256) = 1 := by
  obtain ⟨hge, hone⟩ := h.writable d' n' f hu' hm' hw
  rw [memMap_dropCount m g hge, if_neg]
  · exact hone
  · rintro rfl
    obtain ⟨rfl, rfl⟩ := h.writable_unique hu' hm' hw hu hm
    exact hne rfl

/-- The counts of frames that no page maps stay. -/
theorem memMap_dropCount_unmapped (hu : UserPage d n) (hm : m.Maps d n g) (hf : 256 ≤ f)
    (hunm : ∀ d' n', UserPage d' n' → ¬m.Maps d' n' f) :
    (m.dropCount g).memMap (f - 256) = m.memMap (f - 256) := by
  rw [memMap_dropCount m g hf, if_neg]
  rintro rfl
  exact hunm d n hu hm

/-! ## The changes of a page -/

/-- A held frame is mapped at an absent page. -/
theorem Inv.mapPage (h : Inv lo hi (addRef ext f) m) (hu : UserPage d n)
    (hp : Present (m.pde d)) (habs : ¬Present (m.pte d n)) :
    Inv lo hi ext (m.setPte d n (entryOf (4096 * f))) := by
  obtain ⟨hf, hone, hpte, -, -⟩ := h.held_frame
  have hlt := h.managed_lt hf
  have hge := h.managed_ge hf
  have hframe : frameOf (entryOf (4096 * f)) = f := frameOf_entryOf (by omega)
  have hfree := pteRefs_eq_zero.1 hpte
  refine h.changePte m.memMap hu hp (le_addRef f) (fun _ _ _ => rfl) (fun g hg => ?_)
    (fun _ => .inr (hframe.symm ▸ hf)) (fun _ _ d' n' hu' hm => ?_)
    (fun _ _ => hframe.symm ▸ ⟨hge, hone⟩) fun d' n' g hu' _ hm hw => ?_
  · rw [if_neg fun hm => habs hm.2.1, hframe, addRef]
    by_cases heq : g = f
    · rw [if_pos heq, if_pos ⟨present_entryOf _, heq.symm⟩]
      omega
    · rw [if_neg heq, if_neg fun hc => heq hc.2.symm]
      omega
  · exact absurd (hframe ▸ hm) (hfree d' n' hu')
  · exact (h.writable d' n' g hu' hm hw).2

/-- A held frame takes the place of the frame of a present page. -/
theorem Inv.replacePage (h : Inv lo hi (addRef ext f) m) (hu : UserPage d n)
    (hm : m.Maps d n g) : Inv lo hi ext ((m.dropCount g).setPte d n (entryOf (4096 * f))) := by
  obtain ⟨hf, hone, hpte, -, -⟩ := h.held_frame
  have hlt := h.managed_lt hf
  have hge := h.managed_ge hf
  have hframe : frameOf (entryOf (4096 * f)) = f := frameOf_entryOf (by omega)
  have hfree := pteRefs_eq_zero.1 hpte
  have hne : f ≠ g := fun heq => hfree d n hu (heq ▸ hm)
  have hstate : (m.dropCount g).setPte d n (entryOf (4096 * f)) =
      { m.setPte d n (entryOf (4096 * f)) with memMap := (m.dropCount g).memMap } := by
    rw [dropCount_eq]
    rfl
  rw [hstate]
  refine h.changePte _ hu hm.1 (le_addRef f)
    (fun f' hf' hunm => memMap_dropCount_unmapped hu hm hf' hunm) (fun f' hf' => ?_)
    (fun _ => .inr (hframe.symm ▸ hf)) (fun _ _ d' n' hu' hm' => ?_) (fun _ _ => ?_)
    fun d' n' f' hu' hdn hm' hw => h.dropCount_writable hu hm hu' hdn hm' hw
  · have hdrop := h.toNat_dropCount hu hm (h.managed_ge hf')
    rw [hframe, addRef]
    by_cases heq : f' = f
    · rw [if_pos heq, if_pos (show Present (entryOf (4096 * f)) ∧ f = f' from
        ⟨present_entryOf _, heq.symm⟩)]
      omega
    · rw [if_neg heq, if_neg (show ¬(Present (entryOf (4096 * f)) ∧ f = f') from fun hc =>
        heq hc.2.symm)]
      omega
  · exact absurd (hframe ▸ hm') (hfree d' n' hu')
  · rw [hframe, memMap_dropCount m g hge, if_neg hne]
    exact ⟨hge, hone⟩

/-- A present page is dropped, and its frame counted down. -/
theorem Inv.dropPage (h : Inv lo hi ext m) (hu : UserPage d n) (hm : m.Maps d n g) :
    Inv lo hi ext ((m.dropCount g).setPte d n 0) := by
  have hstate : (m.dropCount g).setPte d n 0 =
      { m.setPte d n 0 with memMap := (m.dropCount g).memMap } := by
    rw [dropCount_eq]
    rfl
  rw [hstate]
  refine h.changePte _ hu hm.1 (fun _ => le_rfl)
    (fun f' hf' hunm => memMap_dropCount_unmapped hu hm hf' hunm) (fun f' hf' => ?_)
    (fun hp => absurd hp not_present_zero) (fun hp => absurd hp not_present_zero)
    (fun hp => absurd hp not_present_zero)
    fun d' n' f' hu' hdn hm' hw => h.dropCount_writable hu hm hu' hdn hm' hw
  have hdrop := h.toNat_dropCount hu hm (h.managed_ge hf')
  rw [if_neg (show ¬(Present 0 ∧ frameOf 0 = f') from fun hc => not_present_zero hc.1)]
  omega

/-- An absent entry is cleared. -/
theorem Inv.clearEntry (h : Inv lo hi ext m) (hu : UserPage d n) (hp : Present (m.pde d))
    (habs : ¬Present (m.pte d n)) : Inv lo hi ext (m.setPte d n 0) := by
  refine h.changePte m.memMap hu hp (fun _ => le_rfl) (fun _ _ _ => rfl) (fun f _ => ?_)
    (fun hp => absurd hp not_present_zero) (fun hp => absurd hp not_present_zero)
    (fun hp => absurd hp not_present_zero) fun d' n' f hu' _ hm' hw =>
      (h.writable d' n' f hu' hm' hw).2
  rw [if_neg fun hm => habs hm.2.1, if_neg fun hc => not_present_zero hc.1]

/-- The flags of a present page change; it may become writable only if its frame
    is not shared. -/
theorem Inv.changeFlags (h : Inv lo hi ext m) {v : Word} (hu : UserPage d n)
    (hm : m.Maps d n g) (hv : Present v) (hg : frameOf v = g)
    (hwrite : Writable v → 256 ≤ g ∧ m.memMap (g - 256) = 1) :
    Inv lo hi ext (m.setPte d n v) := by
  refine h.changePte m.memMap hu hm.1 (fun _ => le_rfl) (fun _ _ _ => rfl) (fun f _ => ?_)
    (fun _ => hg ▸ h.mapped d n g hu hm) (fun _ hge d' n' hu' hm' => ?_)
    (fun _ hw => hg ▸ hwrite hw) fun d' n' f hu' _ hm' hw => (h.writable d' n' f hu' hm' hw).2
  · by_cases heq : g = f
    · rw [if_pos (heq ▸ hm), if_pos ⟨hv, hg.trans heq⟩]
    · rw [if_neg fun hm' => heq (hm.2.2.symm.trans hm'.2.2),
        if_neg fun hc => heq (hg.symm.trans hc.2)]
  · rw [hg] at hge hm'
    exact h.aligned d n d' n' g hu hu' hm hm' hge

/-- A page is made read-only. -/
theorem Inv.protect (h : Inv lo hi ext m) (hu : UserPage d n) (hm : m.Maps d n g) :
    Inv lo hi ext (m.setPte d n (readOnly (m.pte d n))) :=
  h.changeFlags hu hm (present_readOnly.2 hm.2.1) ((frameOf_readOnly _).trans hm.2.2)
    fun hw => absurd hw (not_writable_readOnly _)

/-- A page that shares its frame with no other is made writable. -/
theorem Inv.unprotect (h : Inv lo hi ext m) (hu : UserPage d n) (hm : m.Maps d n g)
    (hge : 256 ≤ g) (hone : m.memMap (g - 256) = 1) :
    Inv lo hi ext (m.setPte d n (writeEnable (m.pte d n))) :=
  h.changeFlags hu hm (present_writeEnable.2 hm.2.1) ((frameOf_writeEnable _).trans hm.2.2)
    fun _ => ⟨hge, hone⟩

/-- An absent page gets a read-only page of the kernel. -/
theorem Inv.shareLow (h : Inv lo hi ext m) {v : Word} (hu : UserPage d n)
    (hp : Present (m.pde d)) (habs : ¬Present (m.pte d n)) (hlow : frameOf v < 256)
    (hro : ¬Writable v) : Inv lo hi ext (m.setPte d n v) := by
  refine h.changePte m.memMap hu hp (fun _ => le_rfl) (fun _ _ _ => rfl) (fun f hf => ?_)
    (fun _ => .inl hlow) (fun _ hge => by omega) (fun _ hw => absurd hw hro)
    fun d' n' f hu' _ hm' hw => (h.writable d' n' f hu' hm' hw).2
  have hge := h.managed_ge hf
  rw [if_neg fun hm => habs hm.2.1, if_neg fun hc => by omega]

/-- A read-only page is shared with an absent page at the same offset of another
    slot, and its frame counted once more. The counter does not wrap. -/
theorem Inv.share (h : Inv lo hi ext m) {d₀ : Nat} {v : Word} (hu₀ : UserPage d₀ n)
    (hm₀ : m.Maps d₀ n g) (hro₀ : ¬Writable (m.pte d₀ n)) (hu : UserPage d n)
    (hp : Present (m.pde d)) (habs : ¬Present (m.pte d n)) (hoff : d % 16 = d₀ % 16)
    (hg : frameOf v = g) (hge : 256 ≤ g) (hv : Present v) (hro : ¬Writable v) :
    Inv lo hi ext ((m.incr g).setPte d n v) := by
  have hman := (h.mapped d₀ n g hu₀ hm₀).resolve_left (by omega)
  have hnt : m.pdeRefs g = 0 := pdeRefs_eq_zero.2 fun d' hd' ht =>
    h.not_maps_table hd' ht hu₀ hm₀
  have hcount := h.exact g hman
  have hle := h.pteRefs_le hge
  have hext : ext g = 0 := by
    by_contra hne
    exact pteRefs_eq_zero.1 (h.held_refs (Nat.pos_of_ne_zero hne)).1 d₀ n hu₀ hm₀
  refine h.changePte (m.incr g).memMap hu hp (fun _ => le_rfl) (fun f' hf' hunm => ?_)
    (fun f' hf' => ?_)
    (fun _ => .inr (hg.symm ▸ hman)) (fun _ _ d' n' hu' hm' => ?_) (fun _ hw => absurd hw hro)
    fun d' n' f' hu' _ hm' hw => ?_
  · rw [incr, memMap_setCount, if_neg]
    intro heq
    have : f' = g := by omega
    exact hunm d₀ n hu₀ (this ▸ hm₀)
  · have hge' := h.managed_ge hf'
    have hnm : ¬m.Maps d n f' := fun hm => habs hm.2.1
    rw [incr, memMap_setCount, hg]
    by_cases heq : f' = g
    · subst heq
      rw [if_pos rfl, if_neg hnm, if_pos ⟨hv, rfl⟩, BitVec.toNat_add, toNat_byte_one]
      omega
    · rw [if_neg (by omega), if_neg hnm, if_neg fun hc => heq hc.2.symm]
  · obtain ⟨h₁, h₂⟩ := h.aligned d₀ n d' n' g hu₀ hu' hm₀ (hg ▸ hm') hge
    exact ⟨hoff.trans h₁, h₂⟩
  · obtain ⟨hge', hone'⟩ := h.writable d' n' f' hu' hm' hw
    rw [incr, memMap_setCount, if_neg]
    · exact hone'
    · intro heq
      obtain rfl : f' = g := by omega
      obtain ⟨rfl, rfl⟩ := h.writable_unique hu' hm' hw hu₀ hm₀
      exact hro₀ hw

/-! ## The changes of a page table -/

/-- A held frame, filled with zeros, becomes the page table of an absent
    directory entry. -/
theorem Inv.addTable (h : Inv lo hi (addRef ext f) m)
    (hzero : ∀ k < 1024, m.phys (1024 * f + k) = 0) (hd : UserDir d)
    (habs : ¬Present (m.pde d)) : Inv lo hi ext (m.setPde d (entryOf (4096 * f))) := by
  obtain ⟨hf, hone, -⟩ := h.held_frame
  have hlt := h.managed_lt hf
  have hframe : frameOf (entryOf (4096 * f)) = f := frameOf_entryOf (by omega)
  refine h.changePde m.memMap hd (le_addRef f) (fun n f' _ hm => habs hm.1) (fun _ n hn => ?_)
    (fun _ _ _ _ => rfl) (fun g hg => ?_) fun _ => hframe.symm ▸ ⟨hf, hone⟩
  · rw [hframe, hzero n hn]
    exact not_present_zero
  · rw [if_neg fun ht => habs ht.1, hframe, addRef]
    by_cases heq : g = f
    · rw [if_pos heq, if_pos ⟨present_entryOf _, heq.symm⟩]
      omega
    · rw [if_neg heq, if_neg fun hc => heq hc.2.symm]
      omega

/-- An empty page table is freed. -/
theorem Inv.dropTable (h : Inv lo hi ext m) (hd : UserDir d) (ht : m.Table d f)
    (hempty : ∀ n f', n < 1024 → ¬m.Maps d n f') :
    Inv lo hi ext ((m.decr f).setPde d 0) := by
  obtain ⟨hf, hone⟩ := h.table d f hd ht
  have hge := h.managed_ge hf
  refine h.changePde (m.decr f).memMap hd (fun _ => le_rfl) hempty
    (fun hp => absurd hp not_present_zero) (fun g hg hng _ => ?_) (fun g hg => ?_)
    fun hp => absurd hp not_present_zero
  · rw [memMap_decr, if_neg]
    intro heq
    obtain rfl : g = f := by omega
    exact hng ht
  · have hge' := h.managed_ge hg
    rw [memMap_decr]
    by_cases heq : g = f
    · subst heq
      rw [if_pos rfl, if_pos ht, if_neg fun hc => not_present_zero hc.1, hone,
        show (1 : Byte) - 1 = 0 from rfl, toNat_byte_one, toNat_byte_zero]
      omega
    · have hnt : ¬m.Table d g := fun ht' => heq (ht'.2.symm.trans ht.2)
      rw [if_neg (by omega), if_neg hnt, if_neg fun hc => not_present_zero hc.1]

end NeuOs.Mm
