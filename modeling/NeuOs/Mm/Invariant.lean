import Mathlib.Data.BitVec
import NeuOs.Mm.Tables

/-!
# The invariant of the page tables

`Inv lo hi ext m` says that the counters of the frames from `lo` up to `hi`, the
ones `mem_init` made available, are exact: the counter of a frame is the number
of user pages mapping it, plus the number of page tables in it, plus `ext f`
references held elsewhere (a `task_struct` living in it, or a page allocated and
not yet put anywhere). A page table and a frame held elsewhere are referenced
only once, all the pages mapping one frame lie at the same offset of their
slots, and a writable page is the only one mapping its frame.

Every operation of the memory manager is a sequence of small changes, each of
them a lemma here: a frame is allocated (`Inv.alloc`), a single page is remapped
(`Inv.changePte`), a page table is installed or removed (`Inv.changePde`), the
contents of pages change (`Inv.of_contents`).
-/

namespace NeuOs.Mm

/-- A frame the allocator may hand out. -/
def Managed (lo hi f : Nat) : Prop := lo ≤ f ∧ f < hi

instance (lo hi f : Nat) : Decidable (Managed lo hi f) := inferInstanceAs (Decidable (_ ∧ _))

/-- The references `ext`, with one more to the frame `f`. -/
def addRef (ext : Nat → Nat) (f g : Nat) : Nat := ext g + if g = f then 1 else 0

/-- The invariant of the page tables, with the references `ext` to frames held
    outside of them. -/
structure Inv (lo hi : Nat) (ext : Nat → Nat) (m : Mm) : Prop where
  low : 256 ≤ lo
  high : hi ≤ 4096
  highMemory : m.highMemory = 4096 * hi
  kernel : m.KernelMap
  reserved : ∀ f, 256 ≤ f → f < 4096 → ¬Managed lo hi f → m.memMap (f - 256) ≠ 0
  exact : ∀ f, Managed lo hi f →
    (m.memMap (f - 256)).toNat = m.pteRefs f + m.pdeRefs f + ext f
  table : ∀ d f, UserDir d → m.Table d f → Managed lo hi f ∧ m.memMap (f - 256) = 1
  held : ∀ f, 0 < ext f → Managed lo hi f ∧ m.memMap (f - 256) = 1
  mapped : ∀ d n f, UserPage d n → m.Maps d n f → f < 256 ∨ Managed lo hi f
  aligned : ∀ d n d' n' f, UserPage d n → UserPage d' n' → m.Maps d n f → m.Maps d' n' f →
    256 ≤ f → d % 16 = d' % 16 ∧ n = n'
  writable : ∀ d n f, UserPage d n → m.Maps d n f → Writable (m.pte d n) →
    256 ≤ f ∧ m.memMap (f - 256) = 1

variable {lo hi : Nat} {ext ext' : Nat → Nat} {m m' : Mm}

namespace Inv

theorem managed_ge (h : Inv lo hi ext m) {f : Nat} (hf : Managed lo hi f) : 256 ≤ f :=
  h.low.trans hf.1

theorem managed_lt (h : Inv lo hi ext m) {f : Nat} (hf : Managed lo hi f) : f < 4096 :=
  hf.2.trans_le h.high

/-- A page table is referenced only by its directory entry. -/
theorem table_refs (h : Inv lo hi ext m) {d f : Nat} (hd : UserDir d) (ht : m.Table d f) :
    m.pteRefs f = 0 ∧ m.pdeRefs f = 1 ∧ ext f = 0 := by
  obtain ⟨hf, hone⟩ := h.table d f hd ht
  have hcount := h.exact f hf
  have hpos := pdeRefs_pos hd ht
  rw [hone, toNat_byte_one] at hcount
  omega

/-- A frame held outside the page tables is referenced only there. -/
theorem held_refs (h : Inv lo hi ext m) {f : Nat} (hf : 0 < ext f) :
    m.pteRefs f = 0 ∧ m.pdeRefs f = 0 ∧ ext f = 1 := by
  obtain ⟨hman, hone⟩ := h.held f hf
  have hcount := h.exact f hman
  rw [hone, toNat_byte_one] at hcount
  omega

/-- Different directory entries have different page tables. -/
theorem table_inj (h : Inv lo hi ext m) {d d' f : Nat} (hd : UserDir d) (hd' : UserDir d')
    (ht : m.Table d f) (ht' : m.Table d' f) : d = d' :=
  eq_of_pdeRefs_le_one (h.table_refs hd ht).2.1.le hd ht hd' ht'

/-- No user page maps a page table. -/
theorem not_maps_table (h : Inv lo hi ext m) {d d' n f : Nat} (hd : UserDir d)
    (ht : m.Table d f) (hu : UserPage d' n) : ¬m.Maps d' n f :=
  pteRefs_eq_zero.1 (h.table_refs hd ht).1 d' n hu

theorem table_ge (h : Inv lo hi ext m) {d : Nat} (hd : UserDir d) (hp : Present (m.pde d)) :
    256 ≤ frameOf (m.pde d) ∧ frameOf (m.pde d) < 4096 :=
  have hf := (h.table d _ hd ⟨hp, rfl⟩).1
  ⟨h.managed_ge hf, h.managed_lt hf⟩

/-- A frame counted once is mapped by one page only. -/
theorem maps_unique (h : Inv lo hi ext m) {d n d' n' f : Nat} (hf : 256 ≤ f)
    (hone : m.memMap (f - 256) = 1) (hu : UserPage d n) (hm : m.Maps d n f)
    (hu' : UserPage d' n') (hm' : m.Maps d' n' f) : d = d' ∧ n = n' := by
  have hman := (h.mapped d n f hu hm).resolve_left (by omega)
  have hcount := h.exact f hman
  rw [hone, toNat_byte_one] at hcount
  exact eq_of_pteRefs_le_one (by omega) hu hm hu' hm'

/-- A writable page is the only one mapping its frame. -/
theorem writable_unique (h : Inv lo hi ext m) {d n d' n' f : Nat} (hu : UserPage d n)
    (hm : m.Maps d n f) (hw : Writable (m.pte d n)) (hu' : UserPage d' n')
    (hm' : m.Maps d' n' f) : d = d' ∧ n = n' := by
  obtain ⟨hf, hone⟩ := h.writable d n f hu hm hw
  exact h.maps_unique hf hone hu hm hu' hm'

/-- A frame is shared by at most the 63 slots: its pages lie at the same offset
    of different slots. -/
theorem pteRefs_le (h : Inv lo hi ext m) {f : Nat} (hf : 256 ≤ f) : m.pteRefs f ≤ 63 := by
  have hcard : (Finset.Ico 1 64).card = 63 := by simp
  rw [pteRefs, ← hcard]
  refine Finset.card_le_card_of_injOn (fun x => x.1 / 16) (fun x hx => ?_) fun x hx y hy hxy => ?_
  · have hx := mem_userPages.1 (Finset.mem_filter.1 hx).1
    simp only [Finset.coe_Ico, Set.mem_Ico]
    obtain ⟨⟨h₁, h₂⟩, -⟩ := hx
    omega
  · have hx := Finset.mem_filter.1 hx
    have hy := Finset.mem_filter.1 hy
    have hal := h.aligned _ _ _ _ f (mem_userPages.1 hx.1) (mem_userPages.1 hy.1) hx.2 hy.2 hf
    simp only at hxy
    exact Prod.ext (by omega) hal.2

/-- A frame whose counter is zero is not referenced at all. -/
theorem frame_free (h : Inv lo hi ext m) {f : Nat} (hge : 256 ≤ f) (hlt : f < 4096)
    (h0 : m.memMap (f - 256) = 0) :
    Managed lo hi f ∧ m.pteRefs f = 0 ∧ m.pdeRefs f = 0 ∧ ext f = 0 := by
  have hf : Managed lo hi f := by
    by_contra hne
    exact h.reserved f hge hlt hne h0
  have hcount := h.exact f hf
  rw [h0, toNat_byte_zero] at hcount
  exact ⟨hf, by omega, by omega, by omega⟩

end Inv

/-! ## Remapping one page -/

/-- Entries of page tables do not overlap the directory. -/
theorem Inv.pde_setPte (h : Inv lo hi ext m) {d n d' : Nat} (hd : UserDir d)
    (hp : Present (m.pde d)) (hd' : d' < 1024) (v : Word) :
    (m.setPte d n v).pde d' = m.pde d' := by
  have := h.table_ge hd hp
  exact Function.update_of_ne (by omega) _ _

theorem pte_setPte_self (h : (m.setPte d n v).pde d = m.pde d) :
    (m.setPte d n v).pte d n = v := by
  rw [pte, h]
  exact Function.update_self _ _ _

/-- Different entries of page tables do not overlap. -/
theorem Inv.pte_setPte_ne (h : Inv lo hi ext m) {d n d' n' : Nat} (hu : UserPage d n)
    (hp : Present (m.pde d)) (hu' : UserPage d' n') (hp' : Present (m.pde d'))
    (hne : (d', n') ≠ (d, n)) (v : Word) : (m.setPte d n v).pte d' n' = m.pte d' n' := by
  rw [pte, h.pde_setPte hu.1 hp hu'.1.2, pte]
  refine Function.update_of_ne (fun heq => hne ?_) _ _
  have hn := hu.2
  have hn' := hu'.2
  have hframe : frameOf (m.pde d') = frameOf (m.pde d) := by omega
  have hdir : d' = d := h.table_inj hu'.1 hu.1 ⟨hp', hframe⟩ ⟨hp, rfl⟩
  rw [hdir] at heq ⊢
  congr 1
  omega

/-- What a store to one entry of a page table changes. -/
theorem Inv.maps_setPte (h : Inv lo hi ext m) {d n d' n' f : Nat} (hu : UserPage d n)
    (hp : Present (m.pde d)) (hu' : UserPage d' n') (v : Word) :
    (m.setPte d n v).Maps d' n' f ↔
      if (d', n') = (d, n) then Present v ∧ frameOf v = f else m.Maps d' n' f := by
  have hpde := h.pde_setPte (n := n) hu.1 hp hu'.1.2 v
  split_ifs with heq
  · obtain ⟨rfl, rfl⟩ := Prod.mk.inj heq
    rw [Maps, pte_setPte_self hpde, hpde]
    exact and_iff_right hp
  · rw [Maps, hpde, Maps]
    refine and_congr_right fun hp' => ?_
    rw [h.pte_setPte_ne hu hp hu' hp' heq]

/-- The words of the kernel are not in page tables of users. -/
theorem KernelMap.of_words (h : m.KernelMap)
    (hw : ∀ w, w < 16 ∨ (1024 ≤ w ∧ w < 5120) → m'.phys w = m.phys w) : m'.KernelMap where
  dir d hd := (hw d (by omega)).trans (h.dir d hd)
  absent d h₁ h₂ := (hw d (by omega)).trans (h.absent d h₁ h₂)
  entry n hn := (hw _ (by omega)).trans (h.entry n hn)

/-- Two pages with one frame have the same offset if the new one among them has that of
    the others. -/
theorem Inv.aligned_setPte (h : Inv lo hi ext m) {d n d₁ n₁ d₂ n₂ f : Nat} {v : Word}
    (halign : Present v → 256 ≤ frameOf v → ∀ d' n', UserPage d' n' →
      m.Maps d' n' (frameOf v) → d % 16 = d' % 16 ∧ n = n')
    (hu₁ : UserPage d₁ n₁) (hu₂ : UserPage d₂ n₂)
    (hm₁ : if (d₁, n₁) = (d, n) then Present v ∧ frameOf v = f else m.Maps d₁ n₁ f)
    (hm₂ : if (d₂, n₂) = (d, n) then Present v ∧ frameOf v = f else m.Maps d₂ n₂ f)
    (hf : 256 ≤ f) : d₁ % 16 = d₂ % 16 ∧ n₁ = n₂ := by
  split_ifs at hm₁ with heq₁
  · obtain ⟨rfl, rfl⟩ := Prod.mk.inj heq₁
    obtain ⟨hv, rfl⟩ := hm₁
    split_ifs at hm₂ with heq₂
    · obtain ⟨rfl, rfl⟩ := Prod.mk.inj heq₂
      exact ⟨rfl, rfl⟩
    · exact halign hv hf d₂ n₂ hu₂ hm₂
  · split_ifs at hm₂ with heq₂
    · obtain ⟨rfl, rfl⟩ := Prod.mk.inj heq₂
      obtain ⟨hv, rfl⟩ := hm₂
      exact (halign hv hf d₁ n₁ hu₁ hm₁).imp Eq.symm Eq.symm
    · exact h.aligned d₁ n₁ d₂ n₂ f hu₁ hu₂ hm₁ hm₂ hf

/-- Remapping the page `(d, n)` to the entry `v`, with the counters `map'`. Only
    counters of mapped frames change, by as much as the references do; a new
    page lies at the same offset as those sharing its frame; and a writable page
    is not shared. -/
theorem Inv.changePte (h : Inv lo hi ext m) {d n : Nat} {v : Word} (map' : Nat → Byte)
    (hu : UserPage d n) (hp : Present (m.pde d)) (hext : ∀ f, ext' f ≤ ext f)
    (hmap : ∀ f, 256 ≤ f → (∀ d' n', UserPage d' n' → ¬m.Maps d' n' f) →
      map' (f - 256) = m.memMap (f - 256))
    (hcount : ∀ f, Managed lo hi f →
      (map' (f - 256)).toNat + ext f + (if m.Maps d n f then 1 else 0) =
        (m.memMap (f - 256)).toNat + ext' f + (if Present v ∧ frameOf v = f then 1 else 0))
    (hframe : Present v → frameOf v < 256 ∨ Managed lo hi (frameOf v))
    (halign : Present v → 256 ≤ frameOf v → ∀ d' n', UserPage d' n' →
      m.Maps d' n' (frameOf v) → d % 16 = d' % 16 ∧ n = n')
    (hwrite : Present v → Writable v → 256 ≤ frameOf v ∧ map' (frameOf v - 256) = 1)
    (hothers : ∀ d' n' f, UserPage d' n' → (d', n') ≠ (d, n) → m.Maps d' n' f →
      Writable (m.pte d' n') → map' (f - 256) = 1) :
    Inv lo hi ext' { m.setPte d n v with memMap := map' } := by
  have hpde : ∀ d' < 1024, (m.setPte d n v).pde d' = m.pde d' := fun d' hd' =>
    h.pde_setPte hu.1 hp hd' v
  have hmaps : ∀ d' n' f, UserPage d' n' →
      (({ m.setPte d n v with memMap := map' } : Mm).Maps d' n' f ↔
        if (d', n') = (d, n) then Present v ∧ frameOf v = f else m.Maps d' n' f) :=
    fun d' n' f hu' => h.maps_setPte hu hp hu' v
  have htable : ∀ d' f, UserDir d' →
      (({ m.setPte d n v with memMap := map' } : Mm).Table d' f ↔ m.Table d' f) :=
    fun d' f hd' => by
      change (m.setPte d n v).Table d' f ↔ _
      rw [Table, hpde d' hd'.2, Table]
  have hge := h.table_ge hu.1 hp
  refine ⟨h.low, h.high, h.highMemory, ?_, ?_, ?_, ?_, ?_, ?_, ?_, ?_⟩
  · -- the kernel's own tables do not change
    refine h.kernel.of_words fun w hw => Function.update_of_ne ?_ _ _
    omega
  · -- reserved frames are not mapped, so their counters stay
    intro f h₁ h₂ hf
    refine (hmap f h₁ fun d' n' hu' hm => ?_).trans_ne (h.reserved f h₁ h₂ hf)
    exact (h.mapped d' n' f hu' hm).elim (fun hlt => by omega) hf
  · -- `exact`: the references to a frame change like its counter
    intro f hf
    have hself := hmaps d n f hu
    rw [if_pos rfl] at hself
    have hchange : ({ m.setPte d n v with memMap := map' } : Mm).pteRefs f + _ = m.pteRefs f + _ :=
      pteRefs_change hu fun d' n' hu' hne => by rw [hmaps d' n' f hu', if_neg hne]
    have hdirs : ({ m.setPte d n v with memMap := map' } : Mm).pdeRefs f = m.pdeRefs f :=
      pdeRefs_congr fun d' hd' => htable d' f hd'
    have hold := h.exact f hf
    have hnew := hcount f hf
    simp only [hself] at hchange
    simp only at *
    omega
  · intro d' f hd' ht
    rw [htable d' f hd'] at ht
    obtain ⟨hf, hone⟩ := h.table d' f hd' ht
    exact ⟨hf, (hmap f (h.managed_ge hf) fun _ _ hu' => h.not_maps_table hd' ht hu').trans hone⟩
  · intro f hf
    have hf' := hf.trans_le (hext f)
    obtain ⟨hman, hone⟩ := h.held f hf'
    have hfree := pteRefs_eq_zero.1 (h.held_refs hf').1
    exact ⟨hman, (hmap f (h.managed_ge hman) hfree).trans hone⟩
  · -- `mapped`
    intro d' n' f hu' hm
    rw [hmaps d' n' f hu'] at hm
    split_ifs at hm with heq
    · exact hm.2 ▸ hframe hm.1
    · exact h.mapped d' n' f hu' hm
  · -- `aligned`: the two pages are the new one, or have been there before
    intro d₁ n₁ d₂ n₂ f hu₁ hu₂ hm₁ hm₂ hf
    exact h.aligned_setPte halign hu₁ hu₂ ((hmaps d₁ n₁ f hu₁).1 hm₁) ((hmaps d₂ n₂ f hu₂).1 hm₂) hf
  · -- `writable`
    intro d' n' f hu' hm hw
    have hm' := (hmaps d' n' f hu').1 hm
    split_ifs at hm' with heq
    · obtain ⟨rfl, rfl⟩ := Prod.mk.inj heq
      obtain ⟨hv, rfl⟩ := hm'
      have hself : ({ m.setPte d' n' v with memMap := map' } : Mm).pte d' n' = v :=
        pte_setPte_self (hpde d' hu.1.2)
      rw [hself] at hw
      exact hwrite hv hw
    · have hsame : ({ m.setPte d n v with memMap := map' } : Mm).pte d' n' = m.pte d' n' :=
        h.pte_setPte_ne hu hp hu' hm'.1 heq v
      rw [hsame] at hw
      exact ⟨(h.writable d' n' f hu' hm' hw).1, hothers d' n' f hu' heq hm' hw⟩

/-! ## Installing and removing a page table -/

/-- What a change of one directory entry does to the tables. -/
theorem table_setPde {d d' f : Nat} {v : Word} :
    (m.setPde d v).Table d' f ↔
      if d' = d then Present v ∧ frameOf v = f else m.Table d' f := by
  rw [Table, pde_setPde]
  split_ifs <;> rfl

/-- A change of a directory entry changes no page if neither the old table nor the new
    one has present entries. -/
theorem Inv.maps_setPde (h : Inv lo hi ext m) {d d' n f : Nat} {v : Word} (hd : UserDir d)
    (hold : ∀ n f, n < 1024 → ¬m.Maps d n f)
    (hnew : Present v → ∀ n < 1024, ¬Present (m.phys (1024 * frameOf v + n)))
    (hge : Present v → 256 ≤ frameOf v) (hu : UserPage d' n) :
    ((m.setPde d v).Maps d' n f ↔ m.Maps d' n f) ∧
      (m.Maps d' n f → (m.setPde d v).pte d' n = m.pte d' n) := by
  have hd2 := hd.2
  by_cases heq : d' = d
  · subst heq
    refine ⟨iff_of_false ?_ (hold n f hu.2), fun hm => absurd hm (hold n f hu.2)⟩
    rintro ⟨hv, hp, -⟩
    rw [pde_setPde, if_pos rfl] at hv
    have hge := hge hv
    rw [pte, pde_setPde, if_pos rfl, phys_setPde_ne m (by omega)] at hp
    exact hnew hv n hu.2 hp
  · have hpde : (m.setPde d v).pde d' = m.pde d' := by rw [pde_setPde, if_neg heq]
    have hpte : Present (m.pde d') → (m.setPde d v).pte d' n = m.pte d' n := fun hp => by
      have hge := h.table_ge hu.1 hp
      rw [pte, hpde, pte, phys_setPde_ne m (by omega)]
    refine ⟨?_, fun hm => hpte hm.1⟩
    rw [Maps, hpde, Maps]
    exact and_congr_right fun hp => by rw [hpte hp]

/-- Changing the directory entry `d` to `v`, with the counters `map'`. No page is
    mapped through it before and after, and only the counters of the two page
    tables change, by as much as the references do. -/
theorem Inv.changePde (h : Inv lo hi ext m) {d : Nat} {v : Word} (map' : Nat → Byte)
    (hd : UserDir d) (hext : ∀ f, ext' f ≤ ext f) (hold : ∀ n f, n < 1024 → ¬m.Maps d n f)
    (hnew : Present v → ∀ n < 1024, ¬Present (m.phys (1024 * frameOf v + n)))
    (hmap : ∀ f, 256 ≤ f → ¬m.Table d f → ¬(Present v ∧ frameOf v = f) →
      map' (f - 256) = m.memMap (f - 256))
    (hcount : ∀ f, Managed lo hi f →
      (map' (f - 256)).toNat + ext f + (if m.Table d f then 1 else 0) =
        (m.memMap (f - 256)).toNat + ext' f + (if Present v ∧ frameOf v = f then 1 else 0))
    (hframe : Present v → Managed lo hi (frameOf v) ∧ map' (frameOf v - 256) = 1) :
    Inv lo hi ext' { m.setPde d v with memMap := map' } := by
  have hmaps : ∀ d' n f, UserPage d' n →
      (({ m.setPde d v with memMap := map' } : Mm).Maps d' n f ↔ m.Maps d' n f) ∧
      (m.Maps d' n f → ({ m.setPde d v with memMap := map' } : Mm).pte d' n = m.pte d' n) :=
    fun d' n f hu =>
      h.maps_setPde hd hold hnew (fun hv => h.managed_ge (hframe hv).1) hu
  have htable : ∀ d' f, (({ m.setPde d v with memMap := map' } : Mm).Table d' f ↔
      if d' = d then Present v ∧ frameOf v = f else m.Table d' f) := fun d' f => table_setPde
  have hkeep : ∀ f, 256 ≤ f → ¬m.Table d f → m.memMap (f - 256) = 1 → map' (f - 256) = 1 := by
    intro f hge hnt hone
    by_cases hv : Present v ∧ frameOf v = f
    · exact hv.2 ▸ (hframe hv.1).2
    · exact (hmap f hge hnt hv).trans hone
  refine ⟨h.low, h.high, h.highMemory, ?_, ?_, ?_, ?_, ?_, ?_, ?_, ?_⟩
  · -- the kernel's own tables do not change
    refine h.kernel.of_words fun w hw => Function.update_of_ne ?_ _ _
    obtain ⟨h₁, h₂⟩ := hd
    omega
  · intro f h₁ h₂ hf
    refine (hmap f h₁ (fun ht => hf (h.table d f hd ht).1) fun hv => ?_).trans_ne
      (h.reserved f h₁ h₂ hf)
    exact hf (hv.2 ▸ (hframe hv.1).1)
  · -- `exact`: the references to a frame change like its counter
    intro f hf
    have hself := htable d f
    rw [if_pos rfl] at hself
    have hchange : ({ m.setPde d v with memMap := map' } : Mm).pdeRefs f + _ = m.pdeRefs f + _ :=
      pdeRefs_change hd fun d' _ hne => by rw [htable d' f, if_neg hne]
    have hpages : ({ m.setPde d v with memMap := map' } : Mm).pteRefs f = m.pteRefs f :=
      pteRefs_congr fun d' n hu => (hmaps d' n f hu).1
    have hexact := h.exact f hf
    have hnum := hcount f hf
    simp only [hself] at hchange
    simp only at *
    omega
  · -- `table`: it is the new table, or another one
    intro d' f hd' ht
    rw [htable d' f] at ht
    split_ifs at ht with heq
    · exact ht.2 ▸ hframe ht.1
    · obtain ⟨hf, hone⟩ := h.table d' f hd' ht
      exact ⟨hf, hkeep f (h.managed_ge hf) (fun ht' => heq (h.table_inj hd' hd ht ht')) hone⟩
  · intro f hf
    have hf' := hf.trans_le (hext f)
    obtain ⟨hman, hone⟩ := h.held f hf'
    have hfree := pdeRefs_eq_zero.1 (h.held_refs hf').2.1
    exact ⟨hman, hkeep f (h.managed_ge hman) (hfree d hd) hone⟩
  · exact fun d' n f hu hm => h.mapped d' n f hu ((hmaps d' n f hu).1.1 hm)
  · exact fun d₁ n₁ d₂ n₂ f hu₁ hu₂ hm₁ hm₂ =>
      h.aligned d₁ n₁ d₂ n₂ f hu₁ hu₂ ((hmaps _ _ _ hu₁).1.1 hm₁) ((hmaps _ _ _ hu₂).1.1 hm₂)
  · -- `writable`
    intro d' n f hu hm hw
    have hm' := (hmaps d' n f hu).1.1 hm
    rw [(hmaps d' n f hu).2 hm'] at hw
    obtain ⟨hge, hone⟩ := h.writable d' n f hu hm' hw
    exact ⟨hge, hkeep f hge (fun ht => h.not_maps_table hd ht hu hm') hone⟩

/-! ## Changes outside the page tables -/

/-- A change of memory that leaves the directory, the page tables and the kernel
    alone, and of counters of frames that no page table refers to. -/
theorem Inv.changeExt (h : Inv lo hi ext m) (hhigh : m'.highMemory = m.highMemory)
    (hdir : ∀ w < 5120, m'.phys w = m.phys w)
    (hpte : ∀ d n, UserPage d n → Present (m.pde d) →
      m'.phys (1024 * frameOf (m.pde d) + n) = m.phys (1024 * frameOf (m.pde d) + n))
    (hmap : ∀ f, 256 ≤ f → ¬Managed lo hi f ∨ 0 < m.pteRefs f + m.pdeRefs f →
      m'.memMap (f - 256) = m.memMap (f - 256))
    (hcount : ∀ f, Managed lo hi f →
      (m'.memMap (f - 256)).toNat + ext f = (m.memMap (f - 256)).toNat + ext' f)
    (hheld : ∀ f, 0 < ext' f → Managed lo hi f ∧ m'.memMap (f - 256) = 1) :
    Inv lo hi ext' m' := by
  have hpde : ∀ d, UserDir d → m'.pde d = m.pde d := fun d hd => by
    obtain ⟨h₁, h₂⟩ := hd
    exact hdir d (by omega)
  have hent : ∀ d n, UserPage d n → Present (m.pde d) → m'.pte d n = m.pte d n :=
    fun d n hu hp => by rw [pte, hpde d hu.1]; exact hpte d n hu hp
  have hmaps : ∀ d n f, UserPage d n → (m'.Maps d n f ↔ m.Maps d n f) := fun d n f hu => by
    rw [Maps, hpde d hu.1, Maps]
    exact and_congr_right fun hp => by rw [hent d n hu hp]
  have htable : ∀ d f, UserDir d → (m'.Table d f ↔ m.Table d f) := fun d f hd => by
    rw [Table, hpde d hd, Table]
  refine ⟨h.low, h.high, hhigh.trans h.highMemory, ?_, ?_, ?_, ?_, hheld, ?_, ?_, ?_⟩
  · exact h.kernel.of_words fun w hw => hdir w (by omega)
  · exact fun f h₁ h₂ hf => (hmap f h₁ (.inl hf)).trans_ne (h.reserved f h₁ h₂ hf)
  · intro f hf
    rw [pteRefs_congr fun d n hu => hmaps d n f hu, pdeRefs_congr fun d hd => htable d f hd]
    have := h.exact f hf
    have := hcount f hf
    omega
  · intro d f hd ht
    rw [htable d f hd] at ht
    obtain ⟨hf, hone⟩ := h.table d f hd ht
    have := pdeRefs_pos hd ht
    exact ⟨hf, (hmap f (h.managed_ge hf) (.inr (by omega))).trans hone⟩
  · exact fun d n f hu hm => h.mapped d n f hu ((hmaps d n f hu).1 hm)
  · exact fun d₁ n₁ d₂ n₂ f hu₁ hu₂ hm₁ hm₂ =>
      h.aligned d₁ n₁ d₂ n₂ f hu₁ hu₂ ((hmaps _ _ _ hu₁).1 hm₁) ((hmaps _ _ _ hu₂).1 hm₂)
  · intro d n f hu hm hw
    have hm' := (hmaps d n f hu).1 hm
    rw [hent d n hu hm'.1] at hw
    obtain ⟨hge, hone⟩ := h.writable d n f hu hm' hw
    have := pteRefs_pos hu hm'
    exact ⟨hge, (hmap f hge (.inr (by omega))).trans hone⟩

theorem addRef_self {f : Nat} : addRef ext f f = ext f + 1 := by rw [addRef, if_pos rfl]

theorem addRef_of_ne {f g : Nat} (h : g ≠ f) : addRef ext f g = ext g := by
  rw [addRef, if_neg h, Nat.add_zero]

theorem le_addRef (f g : Nat) : ext g ≤ addRef ext f g := Nat.le_add_right _ _

/-- A held frame is managed, counted once, and in no page table. -/
theorem Inv.held_frame {f : Nat} (h : Inv lo hi (addRef ext f) m) :
    Managed lo hi f ∧ m.memMap (f - 256) = 1 ∧ m.pteRefs f = 0 ∧ m.pdeRefs f = 0 ∧ ext f = 0 := by
  have hpos : 0 < addRef ext f f := by
    rw [addRef_self]
    omega
  obtain ⟨hman, hone⟩ := h.held f hpos
  have hrefs := h.held_refs hpos
  rw [addRef_self] at hrefs
  exact ⟨hman, hone, hrefs.1, hrefs.2.1, by omega⟩

/-- Allocating a free frame: one more reference is held. -/
theorem Inv.alloc (h : Inv lo hi ext m) {f : Nat} (hge : 256 ≤ f) (hlt : f < 4096)
    (h0 : m.memMap (f - 256) = 0) : Inv lo hi (addRef ext f) (m.alloc f) := by
  obtain ⟨hf, hpte, hpde, hext⟩ := h.frame_free hge hlt h0
  refine h.changeExt rfl (fun w hw => ?_) (fun d n hu hp => ?_) (fun g hg hr => ?_) (fun g hg => ?_)
    fun g hg => ?_
  · rw [phys_alloc, if_neg (by omega)]
  · have hne : frameOf (m.pde d) ≠ f := fun heq => pdeRefs_eq_zero.1 hpde d hu.1 ⟨hp, heq⟩
    have hn := hu.2
    rw [phys_alloc, if_neg (by omega)]
  · have hne : g ≠ f := by
      rintro rfl
      rcases hr with hr | hr
      · exact hr hf
      · omega
    rw [memMap_alloc, if_neg (by omega)]
  · have hge' := h.managed_ge hg
    rw [memMap_alloc]
    by_cases heq : g = f
    · subst heq
      rw [if_pos rfl, addRef_self, h0, toNat_byte_one, toNat_byte_zero]
      omega
    · rw [if_neg (by omega), addRef_of_ne heq]
  · rw [memMap_alloc]
    by_cases heq : g = f
    · exact ⟨heq ▸ hf, if_pos (by omega)⟩
    · rw [addRef_of_ne heq] at hg
      obtain ⟨hman, hone⟩ := h.held g hg
      have := h.managed_ge hman
      exact ⟨hman, (if_neg (by omega)).trans hone⟩

/-- Giving back a frame held outside the page tables. -/
theorem Inv.release {f : Nat} (h : Inv lo hi (addRef ext f) m) : Inv lo hi ext (m.decr f) := by
  obtain ⟨hf, hone, hpte, hpde, hext⟩ := h.held_frame
  have hge := h.managed_ge hf
  refine h.changeExt rfl (fun _ _ => rfl) (fun _ _ _ _ => rfl) (fun g hg hr => ?_) (fun g hg => ?_)
    fun g hg => ?_
  · have hne : g ≠ f := by
      rintro rfl
      rcases hr with hr | hr
      · exact hr hf
      · omega
    rw [memMap_decr, if_neg (by omega)]
  · have hge' := h.managed_ge hg
    rw [memMap_decr]
    by_cases heq : g = f
    · subst heq
      rw [if_pos rfl, addRef_self, hone, show (1 : Byte) - 1 = 0 from rfl, toNat_byte_one,
        toNat_byte_zero]
      omega
    · rw [if_neg (by omega), addRef_of_ne heq]
  · have hne : g ≠ f := by
      rintro rfl
      omega
    obtain ⟨hman, hone'⟩ := h.held g (hg.trans_le (le_addRef f g))
    have := h.managed_ge hman
    rw [memMap_decr, if_neg (by omega)]
    exact ⟨hman, hone'⟩

/-- `free_page` gives back a frame held outside the page tables. -/
theorem Inv.freePage_held {f : Nat} (h : Inv lo hi (addRef ext f) m) :
    m.freePage (4096 * f) = .ok (m.decr f) := by
  obtain ⟨hf, hone, -⟩ := h.held_frame
  refine freePage_ok (h.managed_ge hf) (by rw [h.highMemory]; have := hf.2; omega) ?_
  rw [hone]
  decide

end NeuOs.Mm
