import NeuOs.Mm.Mapping
import NeuOs.Mm.Verify

/-!
# Private pages (`verify_area` in kernel/fork.c)

`verify_area` goes through the pages of a range, and `write_verify` makes each of them writable
that is present, by `un_wp_page`: such a page is not shared any more (`Privatised`). This holds for
all alignments of the range, and for any tables with exact counters (`Counted`), which
are exact after it.
-/

namespace NeuOs.Mm

variable {ext ext' : Nat → Nat} {m m₁ m₂ m' : Mm} {p q f g : Nat} {e v : Word}
  {R R₁ R₂ : Nat → Prop}

/-- The entry of the linear page `p`, if it is present. -/
def entryAt (m : Mm) (p : Nat) : Option Word := m.walk (p / 1024) (p % 1024)

/-- The page `p` has the same entries in the directory and in its page table. -/
structure SameEntry (m m' : Mm) (p : Nat) : Prop where
  pde : m'.pde (p / 1024) = m.pde (p / 1024)
  pte : Present (m.pde (p / 1024)) → m'.pte (p / 1024) (p % 1024) = m.pte (p / 1024) (p % 1024)

theorem SameEntry.entryAt (h : SameEntry m m' p) : m'.entryAt p = m.entryAt p := by
  by_cases hp : Present (m.pde (p / 1024))
  · rw [Mm.entryAt, Mm.entryAt, walk, walk, h.pde, h.pte hp]
  · rw [Mm.entryAt, Mm.entryAt, walk_eq_none.2 fun hc => hp hc.1,
      walk_eq_none.2 fun hc => hp (h.pde ▸ hc.1)]

theorem SameEntry.trans (h₁ : SameEntry m m₁ p) (h₂ : SameEntry m₁ m₂ p) : SameEntry m m₂ p :=
  ⟨h₂.pde.trans h₁.pde, fun hp => (h₂.pte (h₁.pde ▸ hp)).trans (h₁.pte hp)⟩

/-- The numbers of the pages of the slots 1 to 63. -/
def UserNr (p : Nat) : Prop := 2 ^ 14 ≤ p ∧ p < 2 ^ 20

/-- No other page of the slots 1 to 63 maps the frame of the page `p`. -/
def Alone (m : Mm) (p : Nat) : Prop :=
  ∀ e, m.entryAt p = some e → ∀ q, UserNr q → q ≠ p → ∀ e', m.entryAt q = some e' →
    frameOf e' ≠ frameOf e

/-- The counters are exact, with the references `ext` from elsewhere. -/
def Exact (ext : Nat → Nat) (m : Mm) : Prop :=
  ∀ f, 256 ≤ f → f < 4096 → (m.memMap (f - 256)).toNat = m.pteRefs f + m.pdeRefs f + ext f

/-- The counters are exact, and there are counters for the frames of all pages; the page tables are
    apart from each other, and the pages of slot 0 are writable, as at boot. -/
structure Counted (ext : Nat → Nat) (m : Mm) : Prop where
  exact : Exact ext m
  apart : m.TablesApart
  mapped : ∀ p e, UserNr p → m.entryAt p = some e → frameOf e < 4096
  kernel : ∀ p e, p < 2 ^ 14 → m.entryAt p = some e → Writable e

/-- The present pages in `R` are writable, and those that have not been before are alone with their
    frames. Absent pages, and pages not in `R`, are as before. -/
structure Privatised (m m' : Mm) (R : Nat → Prop) : Prop where
  inside : ∀ p < 2 ^ 20, R p →
    (m'.entryAt p = m.entryAt p ∧ ∀ e, m.entryAt p = some e → Writable e) ∨
      UserNr p ∧ (∃ e, m.entryAt p = some e ∧ ¬Writable e) ∧
        (∃ e, m'.entryAt p = some e ∧ Writable e) ∧ m'.Alone p
  outside : ∀ p < 2 ^ 20, ¬R p → SameEntry m m' p

namespace Privatised

theorem refl_of_writable (h : ∀ p < 2 ^ 20, R p → ∀ e, m.entryAt p = some e → Writable e) :
    Privatised m m R :=
  ⟨fun p hp hR => .inl ⟨rfl, h p hp hR⟩, fun _ _ _ => ⟨rfl, fun _ => rfl⟩⟩

/-- Pages of their own stay so while other pages become private. -/
theorem trans (h₁ : Privatised m m₁ R₁) (h₂ : Privatised m₁ m₂ R₂) (hdis : ∀ p, R₁ p → ¬R₂ p) :
    Privatised m m₂ fun p => R₁ p ∨ R₂ p := by
  refine ⟨fun p hp hR => ?_, fun p hp hR => ?_⟩
  · by_cases hR₁ : R₁ p
    · have hsame := (h₂.outside p hp (hdis p hR₁)).entryAt
      rcases h₁.inside p hp hR₁ with ⟨heq, hw⟩ | ⟨hu, hro, hw, halone⟩
      · exact .inl ⟨hsame.trans heq, hw⟩
      · refine .inr ⟨hu, hro, by rwa [hsame], fun e he q hq hne e' he' => ?_⟩
        have he₁ := hsame.symm.trans he
        by_cases hR₂ : R₂ q
        · rcases h₂.inside q hq.2 hR₂ with ⟨heq, -⟩ | ⟨-, -, -, halone₂⟩
          · exact halone e he₁ q hq hne e' (heq.symm.trans he')
          · -- the page `q` is alone with its frame
            exact (halone₂ e' he' p hu hne.symm e he).symm
        · exact halone e he₁ q hq hne e' ((h₂.outside q hq.2 hR₂).entryAt.symm.trans he')
    · have heq := (h₁.outside p hp hR₁).entryAt
      have hin := h₂.inside p hp (hR.resolve_left hR₁)
      rwa [heq] at hin
  · obtain ⟨hR₁, hR₂⟩ := not_or.1 hR
    exact (h₁.outside p hp hR₁).trans (h₂.outside p hp hR₂)

end Privatised

/-! ## One page -/

theorem UserNr.page (h : UserNr p) : UserPage (p / 1024) (p % 1024) :=
  ⟨⟨by have := h.1; omega, by have := h.2; omega⟩, Nat.mod_lt _ (by decide)⟩

theorem maps_iff {d n : Nat} : m.Maps d n f ↔ ∃ e, m.walk d n = some e ∧ frameOf e = f := by
  constructor
  · rintro ⟨hp, hpte, hf⟩
    exact ⟨_, walk_eq_some.2 ⟨hp, hpte, rfl⟩, hf⟩
  · rintro ⟨e, he, rfl⟩
    exact maps_of_walk he

theorem maps_iff_of_entryAt (he : m.entryAt p = some e) :
    m.Maps (p / 1024) (p % 1024) f ↔ frameOf e = f := by
  rw [maps_iff]
  exact ⟨fun ⟨_, heq, hf⟩ => Option.some.inj (he.symm.trans heq) ▸ hf, fun hf => ⟨e, he, hf⟩⟩

/-- A page that is mapped is counted. -/
theorem Counted.count_pos (h : Counted ext m) (hu : UserNr p) (he : m.entryAt p = some e)
    (hge : 256 ≤ frameOf e) : m.memMap (frameOf e - 256) ≠ 0 := by
  intro h0
  have hcount := h.exact _ hge (h.mapped p e hu he)
  have hpos := pteRefs_pos hu.page (maps_of_walk he)
  rw [h0, toNat_byte_zero] at hcount
  omega

/-- Setting the entry of a present page changes no other page, whatever the counters `map'` are. -/
theorem TablesApart.set_entry (h : m.TablesApart) (hp : p < 2 ^ 20) (he : m.entryAt p = some e)
    (hv : Present v) {map' : Nat → Byte}
    (hm' : m' = { m.setPte (p / 1024) (p % 1024) v with memMap := map' }) :
    (∀ d < 1024, m'.pde d = m.pde d) ∧ m'.entryAt p = some v ∧
      ∀ q < 2 ^ 20, q ≠ p → SameEntry m m' q := by
  have hd : p / 1024 < 1024 := by omega
  have hn : p % 1024 < 1024 := Nat.mod_lt _ (by decide)
  have hpres := (walk_eq_some.1 he).1
  have hpde : ∀ d < 1024, m'.pde d = m.pde d := fun d hd' => by
    rw [hm']
    exact h.pde_setPte hd hpres hd' v
  refine ⟨hpde, ?_, fun q hq hne => ⟨hpde _ (by omega), fun hq' => ?_⟩⟩
  · have hset := h.walk_setPte hd hn hpres hd hn v
    rw [if_pos rfl, if_pos hv] at hset
    rw [hm']
    exact hset
  · have hpair : (q / 1024, q % 1024) ≠ (p / 1024, p % 1024) := fun heq => by
      obtain ⟨h₁, h₂⟩ := Prod.mk.inj heq
      omega
    rw [hm']
    exact h.pte_setPte_ne hd hn hpres (by omega) (Nat.mod_lt _ (by decide)) hq' hpair v

/-- The references when only the page `p` has a new entry. -/
theorem pteRefs_set (hu : UserNr p) (he : m.entryAt p = some e) (hself : m'.entryAt p = some v)
    (hothers : ∀ q < 2 ^ 20, q ≠ p → SameEntry m m' q) (f : Nat) :
    m'.pteRefs f + (if frameOf e = f then 1 else 0) =
      m.pteRefs f + (if frameOf v = f then 1 else 0) := by
  have hchange : m'.pteRefs f + _ = m.pteRefs f + _ := pteRefs_change hu.page fun d n hu' hne => by
    have hd := hu'.1.2
    have hn := hu'.2
    have hnr : (1024 * d + n) / 1024 = d ∧ (1024 * d + n) % 1024 = n := by omega
    have hsame := (hothers (1024 * d + n) (by omega) fun heq => hne (by
      rw [← heq, hnr.1, hnr.2])).entryAt
    rw [Mm.entryAt, Mm.entryAt, hnr.1, hnr.2] at hsame
    rw [maps_iff, maps_iff, hsame]
  simp only [maps_iff_of_entryAt hself, maps_iff_of_entryAt he] at hchange
  exact hchange

/-- Setting the entry of a present page, with the counters `map'`. -/
theorem Counted.set (h : Counted ext m) (hu : UserNr p) (he : m.entryAt p = some e)
    (map' : Nat → Byte) (hv : Present v) (hw : Writable v) (hframe : frameOf v < 4096)
    (hused : ∀ d < 1024, Present (m.pde d) → 256 ≤ frameOf (m.pde d) → frameOf (m.pde d) < 4096 →
      map' (frameOf (m.pde d) - 256) ≠ 0)
    (hcount : ∀ f, 256 ≤ f → f < 4096 →
      (map' (f - 256)).toNat + ext f + (if frameOf e = f then 1 else 0) =
        (m.memMap (f - 256)).toNat + ext' f + (if frameOf v = f then 1 else 0)) :
    Counted ext' { m.setPte (p / 1024) (p % 1024) v with memMap := map' } ∧
      Mm.entryAt { m.setPte (p / 1024) (p % 1024) v with memMap := map' } p = some v ∧
      ∀ q < 2 ^ 20, q ≠ p →
        SameEntry m { m.setPte (p / 1024) (p % 1024) v with memMap := map' } q := by
  generalize hm' : ({ m.setPte (p / 1024) (p % 1024) v with memMap := map' } : Mm) = m'
  have hmap : m'.memMap = map' := by rw [← hm']
  obtain ⟨hpde, hself, hothers⟩ := h.apart.set_entry hu.2 he hv hm'.symm
  have hentry : ∀ q < 2 ^ 20, m'.entryAt q = if q = p then some v else m.entryAt q := by
    intro q hq
    split_ifs with heq
    · rw [heq, hself]
    · exact (hothers q hq heq).entryAt
  refine ⟨⟨fun f h₁ h₂ => ?_, ?_, fun q e' hq he' => ?_, fun q e' hq he' => ?_⟩, hself, hothers⟩
  · -- the references change like the counters
    have hptes := pteRefs_set hu he hself hothers f
    have hdirs : m'.pdeRefs f = m.pdeRefs f := pdeRefs_congr fun d hd => by
      rw [Table, hpde d hd.2, Table]
    have hexact := h.exact f h₁ h₂
    have hcount := hcount f h₁ h₂
    rw [hmap, hdirs]
    omega
  · refine ⟨⟨fun d hd hp h₁ h₂ => ?_, fun d d' hd hd' hp hp' heq => ?_⟩, fun d hd hp => ?_⟩
    · rw [hpde d hd] at hp h₁ h₂ ⊢
      rw [hmap]
      exact hused d hd hp h₁ h₂
    · rw [hpde d hd] at hp heq
      rw [hpde d' hd'] at hp' heq
      exact h.apart.unshared d d' hd hd' hp hp' heq
    · rw [hpde d hd] at hp ⊢
      exact h.apart.directory d hd hp
  · rw [hentry q hq.2] at he'
    split_ifs at he'
    · exact Option.some.inj he' ▸ hframe
    · exact h.mapped q e' hq he'
  · rw [hentry q (by omega)] at he'
    split_ifs at he'
    · exact Option.some.inj he' ▸ hw
    · exact h.kernel q e' hq he'

/-- Handing out a frame, which is then referenced from elsewhere, changes no page. -/
theorem Counted.alloc (h : Counted ext m) (hge : 256 ≤ f) (hlt : f < 4096)
    (h0 : m.memMap (f - 256) = 0) : Counted (addRef ext f) (m.alloc f) ∧
      ∀ q < 2 ^ 20, SameEntry m (m.alloc f) q := by
  have hsame : ∀ q < 2 ^ 20, SameEntry m (m.alloc f) q := fun q hq =>
    ⟨pde_alloc (by omega) hge, fun hp => pte_alloc (by omega) (Nat.mod_lt _ (by decide)) hge
      (h.apart.frame_ne hge hlt h0 (by omega) hp)⟩
  have hwalk : ∀ d n, d < 1024 → n < 1024 → (m.alloc f).walk d n = m.walk d n :=
    fun d n hd hn => h.apart.walk_alloc hge hlt h0 hd hn
  have hentry : ∀ q < 2 ^ 20, (m.alloc f).entryAt q = m.entryAt q := fun q hq =>
    (hsame q hq).entryAt
  refine ⟨⟨fun g h₁ h₂ => ?_, h.apart.alloc hge hlt h0, fun q e hq he => ?_, fun q e hq he => ?_⟩,
    hsame⟩
  · have hptes : (m.alloc f).pteRefs g = m.pteRefs g := pteRefs_congr fun d n hu => by
      rw [maps_iff, maps_iff, hwalk d n hu.1.2 hu.2]
    have hpdes : (m.alloc f).pdeRefs g = m.pdeRefs g := pdeRefs_congr fun d hd => by
      rw [Table, pde_alloc hd.2 hge, Table]
    have hcount := h.exact g h₁ h₂
    rw [hptes, hpdes, memMap_alloc, addRef]
    by_cases hg : g = f
    · subst hg
      rw [h0, toNat_byte_zero] at hcount
      rw [if_pos rfl, if_pos rfl, toNat_byte_one]
      omega
    · rw [if_neg (by omega), if_neg hg]
      omega
  · exact h.mapped q e hq ((hentry q hq.2).symm.trans he)
  · exact h.kernel q e hq ((hentry q (by omega)).symm.trans he)

/-- A page whose frame is counted once becomes writable. -/
theorem Counted.writeEnabled (h : Counted ext m) (hu : UserNr p) (he : m.entryAt p = some e)
    (hge : 256 ≤ frameOf e) (hone : m.memMap (frameOf e - 256) = 1) :
    Counted ext (m.setPte (p / 1024) (p % 1024) (writeEnable e)) ∧
      (m.setPte (p / 1024) (p % 1024) (writeEnable e)).entryAt p = some (writeEnable e) ∧
      (∀ q < 2 ^ 20, q ≠ p → SameEntry m (m.setPte (p / 1024) (p % 1024) (writeEnable e)) q) ∧
      (m.setPte (p / 1024) (p % 1024) (writeEnable e)).Alone p := by
  obtain ⟨-, hpte, hent⟩ := walk_eq_some.1 he
  have hlt := h.mapped p e hu he
  obtain ⟨hcounted, hself, hothers⟩ := h.set hu he (v := writeEnable e) m.memMap
    (present_writeEnable.2 (hent ▸ hpte)) (writable_writeEnable e)
    (by rwa [frameOf_writeEnable]) h.apart.used fun f _ _ => by rw [frameOf_writeEnable]
  refine ⟨hcounted, hself, hothers, fun v hv q hq hne e' he' heq => ?_⟩
  have he' := (hothers q hq.2 hne).entryAt.symm.trans he'
  have hsame : frameOf e' = frameOf e := by
    rw [heq, ← Option.some.inj (hself.symm.trans hv), frameOf_writeEnable]
  have hcount := h.exact _ hge hlt
  rw [hone, toNat_byte_one] at hcount
  obtain ⟨h₁, h₂⟩ := eq_of_pteRefs_le_one (by omega) hq.page (hsame ▸ maps_of_walk he') hu.page
    (maps_of_walk he)
  omega

/-- The counters after a page with the entry `e` has got the new frame `f`. -/
theorem Counted.memMap_replaced (h : Counted ext m) (hu : UserNr p) (he : m.entryAt p = some e)
    (h0 : m.memMap (f - 256) = 0) (hge : 256 ≤ f) (hg : 256 ≤ g) :
    ((m.alloc f).dropCount (frameOf e)).memMap (g - 256) =
      if g = frameOf e then m.memMap (g - 256) - 1
      else if g = f then 1 else m.memMap (g - 256) := by
  have hindex : g - 256 = f - 256 ↔ g = f := by omega
  rw [memMap_dropCount _ _ hg, memMap_alloc, if_congr hindex rfl rfl]
  by_cases heq : g = frameOf e
  · -- the old frame is counted, and the new one is not
    have hgf : g ≠ f := fun hgf => h.count_pos hu he (heq ▸ hg) (heq ▸ hgf ▸ h0)
    rw [if_pos heq, if_pos heq, if_neg hgf]
  · rw [if_neg heq, if_neg heq]

/-- The old frame is shared, so that a page table in it is still counted. -/
theorem Counted.used_replaced (h : Counted ext m) (hu : UserNr p) (he : m.entryAt p = some e)
    (hnot : ¬(256 ≤ frameOf e ∧ m.memMap (frameOf e - 256) = 1)) (hge : 256 ≤ f) (hlt : f < 4096)
    (h0 : m.memMap (f - 256) = 0) {d : Nat} (hd : d < 1024) (hp : Present ((m.alloc f).pde d))
    (h₁ : 256 ≤ frameOf ((m.alloc f).pde d)) (h₂ : frameOf ((m.alloc f).pde d) < 4096) :
    ((m.alloc f).dropCount (frameOf e)).memMap (frameOf ((m.alloc f).pde d) - 256) ≠ 0 := by
  rw [memMap_dropCount _ _ h₁]
  split_ifs with heq
  · rw [memMap_alloc, heq]
    rw [heq] at h₁
    split_ifs with hf
    · exact absurd ((show frameOf e = f by omega) ▸ h0) (h.count_pos hu he h₁)
    · exact fun hzero => hnot ⟨h₁, sub_eq_zero.1 hzero⟩
  · exact (h.apart.alloc hge hlt h0).used d hd hp h₁ h₂

/-- The counters change like the references when a page gets a new frame. -/
theorem Counted.count_replaced (h : Counted ext m) (hu : UserNr p) (he : m.entryAt p = some e)
    (h0 : m.memMap (f - 256) = 0) (hge : 256 ≤ f) (hg : 256 ≤ g) :
    (((m.alloc f).dropCount (frameOf e)).memMap (g - 256)).toNat + addRef ext f g +
        (if frameOf e = g then 1 else 0) =
      ((m.alloc f).memMap (g - 256)).toNat + ext g + (if f = g then 1 else 0) := by
  rw [h.memMap_replaced hu he h0 hge hg, addRef, memMap_alloc]
  by_cases heq : g = frameOf e
  · subst heq
    have hpos := h.count_pos hu he hg
    have hgf : frameOf e ≠ f := fun heq => hpos (heq ▸ h0)
    have hnat : 0 < (m.memMap (frameOf e - 256)).toNat :=
      Nat.pos_of_ne_zero fun hz => hpos (BitVec.eq_of_toNat_eq hz)
    rw [if_pos rfl, if_pos rfl, if_neg hgf, if_neg hgf.symm, if_neg (by omega), toNat_sub_one hpos]
    omega
  · rw [if_neg heq, if_neg (Ne.symm heq)]
    by_cases hgf : g = f
    · rw [if_pos hgf, if_pos hgf, if_pos hgf.symm, if_pos (by omega)]
      omega
    · rw [if_neg hgf, if_neg hgf, if_neg (Ne.symm hgf), if_neg (by omega)]
      omega

/-- A page gets a new frame. -/
theorem Counted.replaced (h : Counted ext m) (hu : UserNr p) (he : m.entryAt p = some e)
    (hnot : ¬(256 ≤ frameOf e ∧ m.memMap (frameOf e - 256) = 1)) (hge : 256 ≤ f) (hlt : f < 4096)
    (h0 : m.memMap (f - 256) = 0) :
    Counted ext (m.replaced (p / 1024) (p % 1024) f) ∧
      (m.replaced (p / 1024) (p % 1024) f).entryAt p = some (entryOf (4096 * f)) ∧
      (∀ q < 2 ^ 20, q ≠ p → SameEntry m (m.replaced (p / 1024) (p % 1024) f) q) ∧
      (m.replaced (p / 1024) (p % 1024) f).Alone p ∧
      m.freeFrames ≤ (m.replaced (p / 1024) (p % 1024) f).freeFrames + 1 := by
  obtain ⟨-, -, hent⟩ := walk_eq_some.1 he
  obtain ⟨hcounted₁, hsame₁⟩ := h.alloc hge hlt h0
  have hframe : frameOf (entryOf (4096 * f)) = f := frameOf_entryOf (by omega)
  have hstate : m.replaced (p / 1024) (p % 1024) f =
      { (m.alloc f).setPte (p / 1024) (p % 1024) (entryOf (4096 * f)) with
        memMap := ((m.alloc f).dropCount (frameOf e)).memMap } := by
    rw [Mm.replaced, hent, dropCount_eq]
    rfl
  obtain ⟨hcounted, hself, hothers⟩ := hcounted₁.set hu ((hsame₁ p hu.2).entryAt.trans he)
    (v := entryOf (4096 * f)) ((m.alloc f).dropCount (frameOf e)).memMap (present_entryOf _)
    (writable_entryOf _) (by rw [hframe]; exact hlt)
    (fun d hd hp h₁ h₂ => h.used_replaced hu he hnot hge hlt h0 hd hp h₁ h₂) fun g h₁ _ => by
      rw [hframe]
      exact h.count_replaced hu he h0 hge h₁
  rw [← hstate] at hcounted hself hothers
  have hothers' : ∀ q < 2 ^ 20, q ≠ p → SameEntry m (m.replaced (p / 1024) (p % 1024) f) q :=
    fun q hq hne => (hsame₁ q hq).trans (hothers q hq hne)
  refine ⟨hcounted, hself, hothers', fun v hv q hq hne e' he' heq => ?_, ?_⟩
  · -- no page maps a free frame
    have he' := (hothers' q hq.2 hne).entryAt.symm.trans he'
    rw [← Option.some.inj (hself.symm.trans hv), hframe] at heq
    exact h.count_pos hq he' (heq ▸ hge) (heq ▸ h0)
  · rw [← freeFrames_alloc hge hlt h0]
    refine Nat.succ_le_succ (freeFrames_le fun g hg _ hzero => ?_)
    rw [hstate]
    refine (h.memMap_replaced hu he h0 hge hg).trans ?_
    rw [memMap_alloc] at hzero
    split_ifs at hzero with hf
    · cases hzero
    · rw [if_neg fun heq : g = frameOf e => h.count_pos hu he (heq ▸ hg) (heq ▸ hzero),
        if_neg (by omega)]
      exact hzero

/-- `un_wp_page` on a read-only page runs out of memory, or it makes the page private. -/
theorem Counted.unWpPage (h : Counted ext m) (hu : UserNr p) (he : m.entryAt p = some e)
    (hro : ¬Writable e) :
    (m.unWpPage (m.entryAddr (p / 1024) (p % 1024)) = .error .outOfMemory ∧ m.freeFrames = 0) ∨
      ∃ m', m.unWpPage (m.entryAddr (p / 1024) (p % 1024)) = .ok m' ∧ Counted ext m' ∧
        Privatised m m' (· = p) ∧ m.freeFrames ≤ m'.freeFrames + 1 := by
  have hent := (walk_eq_some.1 he).2.2
  have hprivate : ∀ m' v, m'.entryAt p = some v → (∀ q < 2 ^ 20, q ≠ p → SameEntry m m' q) →
      Writable v → m'.Alone p → Privatised m m' (· = p) := by
    intro m' v hself hothers hw halone
    refine ⟨fun q _ hR => ?_, hothers⟩
    rw [hR]
    exact .inr ⟨hu, ⟨e, he, hro⟩, ⟨v, hself, hw⟩, halone⟩
  rcases unWpPage_cases m hu.page.1.2 (p % 1024) with
    ⟨hge, hone, hok⟩ | ⟨hnot, herr | ⟨f, hge, hlt, h0, hok⟩⟩
  · rw [hent] at hge hone hok
    obtain ⟨hcounted, hself, hothers, halone⟩ := h.writeEnabled hu he hge hone
    exact .inr ⟨_, hok, hcounted, hprivate _ _ hself hothers (writable_writeEnable e) halone,
      Nat.le_succ _⟩
  · exact .inl herr
  · rw [hent] at hnot
    obtain ⟨hcounted, hself, hothers, halone, hfree⟩ := h.replaced hu he hnot hge hlt h0
    exact .inr ⟨_, hok, hcounted, hprivate _ _ hself hothers (writable_entryOf _) halone, hfree⟩

/-! ## The pages of a range -/

/-- The page `p` is present and read-only. -/
def readOnlyAt (m : Mm) (p : Nat) : Bool := (m.entryAt p).any fun e => ¬Writable e

theorem readOnlyAt_iff : m.readOnlyAt p = true ↔ ∃ e, m.entryAt p = some e ∧ ¬Writable e := by
  rw [readOnlyAt, Option.any_eq_true]
  simp only [decide_eq_true_eq]

/-- `write_verify` of a page runs out of memory, or the page is private after it. -/
theorem Counted.writeVerify (h : Counted ext m) (hp : p < 2 ^ 20) :
    (m.writeVerify (4096 * p) = .error .outOfMemory ∧ m.readOnlyAt p ∧ m.freeFrames = 0) ∨
      ∃ m', m.writeVerify (4096 * p) = .ok m' ∧ Counted ext m' ∧ Privatised m m' (· = p) ∧
        m.freeFrames ≤ m'.freeFrames + if m.readOnlyAt p then 1 else 0 := by
  have hdir : 4096 * p / 2 ^ 22 = p / 1024 := by omega
  have hnr : 4096 * p / 4096 % 1024 = p % 1024 := by omega
  have hiff : (Present (m.pde (p / 1024)) ∧ Present (m.pte (p / 1024) (p % 1024)) ∧
      ¬Writable (m.pte (p / 1024) (p % 1024))) ↔ m.readOnlyAt p = true := by
    rw [readOnlyAt_iff]
    constructor
    · exact fun ⟨h₁, h₂, h₃⟩ => ⟨_, walk_eq_some.2 ⟨h₁, h₂, rfl⟩, h₃⟩
    · rintro ⟨e, he, hro⟩
      obtain ⟨h₁, h₂, rfl⟩ := walk_eq_some.1 he
      exact ⟨h₁, h₂, hro⟩
  rw [writeVerify_eq m (by omega), hdir, hnr, if_congr hiff rfl rfl]
  by_cases hread : m.readOnlyAt p = true
  · obtain ⟨e, he, hro⟩ := readOnlyAt_iff.1 hread
    have hu : UserNr p := ⟨not_lt.1 fun hlt => hro (h.kernel p e hlt he), hp⟩
    rw [if_pos hread, if_pos hread]
    rcases h.unWpPage hu he hro with ⟨herr, hzero⟩ | hok
    · exact .inl ⟨herr, hread, hzero⟩
    · exact .inr hok
  · rw [if_neg hread, if_neg hread]
    refine .inr ⟨m, rfl, h, .refl_of_writable fun q _ hq e he => ?_, Nat.le_refl _⟩
    exact not_not.1 fun hro => hread (readOnlyAt_iff.2 ⟨e, hq ▸ he, hro⟩)

/-- The page `p` is one of the `n` pages from the page `b` on. -/
def PagesFrom (b n p : Nat) : Prop := ∃ j < n, p = (b + j) % 2 ^ 20

/-- The number of the read-only pages among them. -/
def readOnlyPages (m : Mm) (b n : Nat) : Nat :=
  (List.range n).countP fun j => m.readOnlyAt ((b + j) % 2 ^ 20)

theorem pagesFrom_succ {b n : Nat} (hb : b < 2 ^ 20) :
    PagesFrom b (n + 1) p ↔ p = b ∨ PagesFrom ((b + 1) % 2 ^ 20) n p := by
  constructor
  · rintro ⟨j, hj, rfl⟩
    rcases Nat.eq_zero_or_pos j with rfl | hpos
    · exact .inl (by omega)
    · exact .inr ⟨j - 1, by omega, by omega⟩
  · rintro (rfl | ⟨j, hj, rfl⟩)
    · exact ⟨0, by omega, by omega⟩
    · exact ⟨j + 1, by omega, by omega⟩

theorem readOnlyPages_succ {b n : Nat} (hb : b < 2 ^ 20) : m.readOnlyPages b (n + 1) =
    (if m.readOnlyAt b then 1 else 0) + m.readOnlyPages ((b + 1) % 2 ^ 20) n := by
  have hnext : ∀ j, (b + (j + 1)) % 2 ^ 20 = ((b + 1) % 2 ^ 20 + j) % 2 ^ 20 := fun j => by omega
  have hfirst : (b + 0) % 2 ^ 20 = b := by omega
  rw [readOnlyPages, readOnlyPages, List.range_succ_eq_map, List.countP_cons, List.countP_map,
    hfirst, Nat.add_comm]
  congr 1
  exact List.countP_congr fun j _ => by rw [Function.comp_apply, Nat.succ_eq_add_one, hnext]

/-- The loop of `verify_area`, over `n` pages from the page `b` on. -/
theorem Counted.verifyLoop {b n : Nat} {size : Int} (h : Counted ext m) (hb : b < 2 ^ 20)
    (hn : n ≤ 2 ^ 20) (hlow : 4096 * (n : Int) < size + 4096) (hhigh : size ≤ 4096 * n) :
    (∀ m', verifyLoop (4096 * b) size m = .ok m' →
      Counted ext m' ∧ Privatised m m' (PagesFrom b n)) ∧
    (m.readOnlyPages b n ≤ m.freeFrames → ∃ m', verifyLoop (4096 * b) size m = .ok m') := by
  induction n generalizing b size m with
  | zero =>
    rw [Mm.verifyLoop, if_neg (by push_cast at hhigh; omega)]
    refine ⟨fun m' hok => ?_, fun _ => ⟨m, rfl⟩⟩
    obtain rfl := Except.ok.inj hok
    refine ⟨h, .refl_of_writable fun p _ hp => ?_⟩
    obtain ⟨j, hj, -⟩ := hp
    exact absurd hj (Nat.not_lt_zero j)
  | succ n ih =>
    have hnext : (4096 * b + 4096) % 2 ^ 32 = 4096 * ((b + 1) % 2 ^ 20) := by omega
    rw [Mm.verifyLoop, if_pos (by push_cast at hlow; omega), hnext, readOnlyPages_succ hb]
    rcases h.writeVerify hb with ⟨herr, hread, hzero⟩ | ⟨m₁, hok₁, hcounted, hpriv, hfree⟩
    · rw [herr]
      refine ⟨fun m' hok => ?_, fun hle => ?_⟩
      · cases hok
      · rw [if_pos hread, hzero] at hle
        omega
    · rw [hok₁, Except.ok_bind]
      -- the other pages of the range are as before
      have hdis : ∀ p, p = b → ¬PagesFrom ((b + 1) % 2 ^ 20) n p := by
        rintro p rfl ⟨j, hj, heq⟩
        omega
      have hcount : m₁.readOnlyPages ((b + 1) % 2 ^ 20) n =
          m.readOnlyPages ((b + 1) % 2 ^ 20) n := by
        refine List.countP_congr fun j hj => ?_
        have hj := List.mem_range.1 hj
        rw [readOnlyAt, readOnlyAt, (hpriv.outside _ (Nat.mod_lt _ (by decide)) fun heq =>
          hdis _ heq ⟨j, hj, rfl⟩).entryAt]
      have hlow' : 4096 * (n : Int) < size - 4096 + 4096 := by
        push_cast at hlow
        omega
      have hhigh' : size - 4096 ≤ 4096 * (n : Int) := by
        push_cast at hhigh
        omega
      obtain ⟨hall, hex⟩ := ih hcounted (Nat.mod_lt _ (by decide)) (by omega) hlow' hhigh'
      refine ⟨fun m' hok => ?_, fun hle => hex ?_⟩
      · obtain ⟨hcounted', hpriv'⟩ := hall m' hok
        have hrange : PagesFrom b (n + 1) = fun p => p = b ∨ PagesFrom ((b + 1) % 2 ^ 20) n p :=
          funext fun p => propext (pagesFrom_succ hb)
        exact ⟨hcounted', hrange ▸ hpriv.trans hpriv' hdis⟩
      · rw [hcount]
        omega

/-- The page `p` overlaps the range of the `n` bytes from the linear address `a` on. -/
def Overlaps (a n p : Nat) : Prop := ∃ x, a ≤ x ∧ x < a + n ∧ p = x % 2 ^ 32 / 4096

/-- The present pages in `R` are writable, and no other page maps the frame of one that has been
    read-only. The same pages are present, and the pages not in `R` keep their entries. -/
structure Verified (m m' : Mm) (R : Nat → Prop) : Prop where
  writable : ∀ p < 2 ^ 20, R p → ∀ e, m'.entryAt p = some e → Writable e
  alone : ∀ p < 2 ^ 20, R p → (∀ e, m.entryAt p = some e → ¬Writable e) → m'.Alone p
  present : ∀ p < 2 ^ 20, m'.entryAt p = none ↔ m.entryAt p = none
  outside : ∀ p < 2 ^ 20, ¬R p → SameEntry m m' p

theorem Privatised.verified (h : Privatised m m' R) : Verified m m' R := by
  refine ⟨fun p hp hR e he => ?_, fun p hp hR hro => ?_, fun p hp => ?_, h.outside⟩
  · rcases h.inside p hp hR with ⟨heq, hw⟩ | ⟨-, -, ⟨e', he', hw⟩, -⟩
    · exact hw e (heq.symm.trans he)
    · exact Option.some.inj (he'.symm.trans he) ▸ hw
  · rcases h.inside p hp hR with ⟨heq, hw⟩ | ⟨-, -, -, halone⟩
    · -- the page is absent
      exact fun e he => absurd (hw e (heq.symm.trans he)) (hro e (heq.symm.trans he))
    · exact halone
  · by_cases hR : R p
    · rcases h.inside p hp hR with ⟨heq, -⟩ | ⟨-, ⟨e, he, -⟩, ⟨e', he', -⟩, -⟩
      · rw [heq]
      · rw [he, he']
        exact ⟨nofun, nofun⟩
    · rw [(h.outside p hp hR).entryAt]

/-- The pages that `verify_area` goes through are those of the range. -/
theorem pagesFrom_iff {c addr size : Nat} (hpos : 1 ≤ size) :
    PagesFrom ((1024 * c + addr / 4096) % 2 ^ 20) ((addr % 4096 + size + 4095) / 4096) p ↔
      Overlaps (2 ^ 22 * c + addr) size p := by
  constructor
  · rintro ⟨j, hj, rfl⟩
    rcases Nat.eq_zero_or_pos j with rfl | hj0
    · exact ⟨2 ^ 22 * c + addr, le_rfl, by omega, by omega⟩
    · exact ⟨4096 * (1024 * c + addr / 4096 + j), by omega, by omega, by omega⟩
  · rintro ⟨x, h₁, h₂, rfl⟩
    exact ⟨x / 4096 - (1024 * c + addr / 4096), by omega, by omega⟩

/-- `verify_area` makes the pages of the range private and keeps the counters exact; and it does not
    run out of memory if there is a free frame for each read-only page. -/
theorem verifyArea_private (h : Counted ext m) {c addr size : Nat} (haddr : addr < 2 ^ 32)
    (hpos : 1 ≤ size) (hsize : addr % 4096 + size < 2 ^ 31) :
    (∀ m', m.verifyArea (2 ^ 22 * c) addr size = .ok m' →
      Counted ext m' ∧ Verified m m' (Overlaps (2 ^ 22 * c + addr) size)) ∧
    (m.readOnlyPages ((1024 * c + addr / 4096) % 2 ^ 20) ((addr % 4096 + size + 4095) / 4096) ≤
      m.freeFrames → ∃ m', m.verifyArea (2 ^ 22 * c) addr size = .ok m') := by
  have hrange : PagesFrom ((1024 * c + addr / 4096) % 2 ^ 20)
      ((addr % 4096 + size + 4095) / 4096) = Overlaps (2 ^ 22 * c + addr) size :=
    funext fun p => propext (pagesFrom_iff hpos)
  have hloop : m.verifyArea (2 ^ 22 * c) addr size =
      verifyLoop (4096 * ((1024 * c + addr / 4096) % 2 ^ 20))
        ((size + addr % 4096 : Nat) : Int) m := by
    rw [show 2 ^ 22 * c = 4096 * (1024 * c) by omega, verifyArea_eq haddr (by omega)]
  rw [hloop]
  have hlow : 4096 * (((addr % 4096 + size + 4095) / 4096 : Nat) : Int) <
      ((size + addr % 4096 : Nat) : Int) + 4096 := by omega
  have hhigh : ((size + addr % 4096 : Nat) : Int) ≤
      4096 * (((addr % 4096 + size + 4095) / 4096 : Nat) : Int) := by omega
  obtain ⟨hall, hex⟩ := h.verifyLoop (Nat.mod_lt (1024 * c + addr / 4096) (by decide)) (by omega)
    hlow hhigh
  refine ⟨fun m' hok => ?_, hex⟩
  obtain ⟨hcounted, hpriv⟩ := hall m' hok
  exact ⟨hcounted, hrange ▸ hpriv.verified⟩

/-! ## States -/

/-- The counters of every reachable state are exact: the frames that are not available are counted
    from elsewhere. -/
theorem Inv.counted {lo hi : Nat} (h : Inv lo hi ext m) :
    Counted (fun f => if Managed lo hi f then ext f else (m.memMap (f - 256)).toNat) m := by
  refine ⟨fun f h₁ h₂ => ?_, h.laidOut.toTablesApart, fun p e hu he => ?_, fun p e hp he => ?_⟩
  · by_cases hf : Managed lo hi f
    · rw [if_pos hf]
      exact h.exact f hf
    · have hptes : m.pteRefs f = 0 := pteRefs_eq_zero.2 fun d n hu hm =>
        (h.mapped d n f hu hm).elim (fun hlt => by omega) hf
      have hpdes : m.pdeRefs f = 0 := pdeRefs_eq_zero.2 fun d hd ht => hf (h.table d f hd ht).1
      rw [if_neg hf, hptes, hpdes, Nat.zero_add]
  · rcases h.mapped _ _ _ hu.page (maps_of_walk he) with hlt | hf
    · omega
    · exact h.managed_lt hf
  · obtain ⟨hp', -, rfl⟩ := walk_eq_some.1 he
    exact not_not.1 fun hro => absurd (h.readOnly_user (a := 4096 * p)
      (by rwa [show 4096 * p / 2 ^ 22 = p / 1024 by omega])
      (by rwa [show 4096 * p / 2 ^ 22 = p / 1024 by omega,
        show 4096 * p / 4096 % 1024 = p % 1024 by omega])) (by omega)

/-- Two directory entries, `d` with a page table in the frame `t`, and 16; their first pages are
    read-only, with the frame 256. The counters of the frames 256 and 257 are `c`. -/
def twoDirs (d t : Nat) (c : Byte) : Mm where
  phys w :=
    if w = d then entryOf (4096 * t) else if w = 16 then entryOf (4096 * 257)
    else if w = 1024 * t ∨ w = 1024 * 257 then 0x100005 else 0
  memMap i := if i < 2 then c else 0
  highMemory := 4096 * 4096

variable {d t : Nat} {c : Byte}

theorem memMap_twoDirs (i : Nat) : (twoDirs d t c).memMap i = if i < 2 then c else 0 := rfl

theorem pde_twoDirs {d' : Nat} (hd' : d' < 1024) (ht : 1 ≤ t) : (twoDirs d t c).pde d' =
    if d' = d then entryOf (4096 * t) else if d' = 16 then entryOf (4096 * 257) else 0 := by
  rw [pde, twoDirs]
  dsimp only
  rw [if_neg (show ¬(d' = 1024 * t ∨ d' = 1024 * 257) by omega)]

theorem present_twoDirs {d' : Nat} (hd' : d' < 1024) (ht : t = 1 ∨ t = 257) :
    Present ((twoDirs d t c).pde d') ↔ d' = d ∨ d' = 16 := by
  rw [pde_twoDirs hd' (by omega)]
  split_ifs with h₁ h₂
  · exact iff_of_true (present_entryOf _) (.inl h₁)
  · exact iff_of_true (present_entryOf _) (.inr h₂)
  · exact iff_of_false not_present_zero (by omega)

theorem frameOf_twoDirs {d' : Nat} (hd' : d' < 1024) (ht : t = 1 ∨ t = 257)
    (h : d' = d ∨ d' = 16) :
    frameOf ((twoDirs d t c).pde d') = if d' = d then t else 257 := by
  rw [pde_twoDirs hd' (by omega)]
  split_ifs with h₁ h₂
  · exact frameOf_entryOf (by omega)
  · exact frameOf_entryOf (by omega)
  · omega

/-- Only the first pages of the two entries are present. -/
theorem walk_twoDirs {d' n : Nat} (hd : d < 1024) (ht : t = 1 ∨ t = 257) (hd' : d' < 1024)
    (hn : n < 1024) : (twoDirs d t c).walk d' n =
      if (d' = d ∨ d' = 16) ∧ n = 0 then some 0x100005 else none := by
  have hpte : d' = d ∨ d' = 16 →
      (twoDirs d t c).pte d' n = if n = 0 then 0x100005 else 0 := fun h => by
    rw [pte, frameOf_twoDirs hd' ht h, twoDirs]
    dsimp only
    rw [if_neg (by split_ifs <;> omega), if_neg (by split_ifs <;> omega)]
    refine if_congr ?_ rfl rfl
    split_ifs <;> omega
  by_cases h : d' = d ∨ d' = 16
  · have hp := (present_twoDirs (c := c) hd' ht).2 h
    by_cases hn0 : n = 0
    · rw [if_pos ⟨h, hn0⟩, walk_eq_some, hpte h, if_pos hn0]
      exact ⟨hp, by decide, rfl⟩
    · rw [if_neg fun hc => hn0 hc.2, walk_eq_none, hpte h, if_neg hn0]
      exact fun hc => not_present_zero hc.2
  · rw [if_neg fun hc => h hc.1, walk_eq_none]
    exact fun hc => h ((present_twoDirs hd' ht).1 hc.1)

theorem maps_twoDirs {d' n f : Nat} (hd : d < 1024) (ht : t = 1 ∨ t = 257) (hu : UserPage d' n) :
    (twoDirs d t c).Maps d' n f ↔ ((d' = d ∨ d' = 16) ∧ n = 0) ∧ f = 256 := by
  rw [maps_iff, walk_twoDirs hd ht hu.1.2 hu.2]
  split_ifs with h
  · constructor
    · rintro ⟨e, he, rfl⟩
      obtain rfl := Option.some.inj he
      exact ⟨h, rfl⟩
    · rintro ⟨-, rfl⟩
      exact ⟨_, rfl, rfl⟩
  · refine iff_of_false ?_ fun hc => h hc.1
    rintro ⟨e, he, -⟩
    cases he

theorem table_twoDirs {d' f : Nat} (ht : t = 1 ∨ t = 257) (htd : t = 257 ∨ ¬UserDir d)
    (hu : UserDir d') : (twoDirs d t c).Table d' f ↔ (d' = d ∨ d' = 16) ∧ f = 257 := by
  rw [Table, present_twoDirs hu.2 ht]
  refine and_congr_right fun h => ?_
  rw [frameOf_twoDirs hu.2 ht h]
  split_ifs with hself
  · rw [htd.resolve_right (not_not.2 (hself ▸ hu))]
    exact eq_comm
  · exact eq_comm

/-- Both first pages map the frame 256, if they are pages of users. -/
theorem pteRefs_twoDirs (hd : d < 1024) (ht : t = 1 ∨ t = 257) (f : Nat) :
    (twoDirs d t c).pteRefs f =
      if f = 256 then (userDirs.filter fun d' => d' = d ∨ d' = 16).card else 0 := by
  split_ifs with hf
  · have hset : (userPages.filter fun x => (twoDirs d t c).Maps x.1 x.2 f) =
        (userDirs.filter fun d' => d' = d ∨ d' = 16) ×ˢ {0} := by
      ext ⟨d', n⟩
      rw [Finset.mem_filter, Finset.mem_product, Finset.mem_filter, Finset.mem_singleton,
        mem_userPages, mem_userDirs]
      constructor
      · rintro ⟨hu, hm⟩
        obtain ⟨⟨hdirs, hn⟩, -⟩ := (maps_twoDirs hd ht hu).1 hm
        exact ⟨⟨hu.1, hdirs⟩, hn⟩
      · rintro ⟨⟨hu, hdirs⟩, hn⟩
        have hpage : UserPage d' n := ⟨hu, by dsimp only at hn; omega⟩
        exact ⟨hpage, (maps_twoDirs hd ht hpage).2 ⟨⟨hdirs, hn⟩, hf⟩⟩
    rw [pteRefs, hset, Finset.card_product, Finset.card_singleton, Nat.mul_one]
  · exact pteRefs_eq_zero.2 fun d' n hu hm => hf ((maps_twoDirs hd ht hu).1 hm).2

/-- The counters are exact if `c` is the number of the entries for users. -/
theorem exact_twoDirs (hd : d < 1024) (ht : t = 1 ∨ t = 257) (htd : t = 257 ∨ ¬UserDir d)
    (hc : c.toNat = (userDirs.filter fun d' => d' = d ∨ d' = 16).card) :
    Exact (fun _ => 0) (twoDirs d t c) := by
  intro f h₁ _
  have htables : (twoDirs d t c).pdeRefs f = if f = 257 then c.toNat else 0 := by
    split_ifs with hf
    · rw [pdeRefs, hc]
      congr 1
      refine Finset.filter_congr fun d' hu => ?_
      rw [table_twoDirs ht htd (mem_userDirs.1 hu)]
      exact and_iff_left hf
    · exact pdeRefs_eq_zero.2 fun d' hu hm => hf ((table_twoDirs ht htd hu).1 hm).2
  rw [memMap_twoDirs, pteRefs_twoDirs hd ht, htables, ← hc]
  dsimp only
  by_cases h256 : f = 256
  · rw [if_pos (by omega), if_pos h256, if_neg (by omega)]
    rfl
  · by_cases h257 : f = 257
    · rw [if_pos (by omega), if_neg h256, if_pos h257]
      omega
    · rw [if_neg (by omega), if_neg h256, if_neg h257]
      rfl

theorem card_userDirs (hd : d ≤ 16) : (userDirs.filter fun d' => d' = d ∨ d' = 16).card = 1 := by
  have hdirs : (userDirs.filter fun d' => d' = d ∨ d' = 16) = {16} := by
    ext d'
    rw [Finset.mem_filter, mem_userDirs, UserDir, Finset.mem_singleton]
    omega
  rw [hdirs]
  rfl

theorem counted_twoDirs : Counted (fun _ => 0) (twoDirs 16 257 1) := by
  have hpres : ∀ d < 1024, Present ((twoDirs 16 257 1).pde d) →
      d = 16 ∧ frameOf ((twoDirs 16 257 1).pde d) = 257 := fun d hd hp => by
    have h := (present_twoDirs hd (.inr rfl)).1 hp
    rw [frameOf_twoDirs hd (.inr rfl) h]
    exact ⟨h.elim id id, ite_self _⟩
  have hentry : ∀ p < 2 ^ 20, ∀ e, (twoDirs 16 257 1).entryAt p = some e →
      p / 1024 = 16 ∧ e = 0x100005 := fun p hp e he => by
    rw [entryAt, walk_twoDirs (by decide) (.inr rfl) (by omega) (Nat.mod_lt _ (by decide))] at he
    split_ifs at he with h
    exact ⟨h.1.elim id id, (Option.some.inj he).symm⟩
  refine ⟨exact_twoDirs (by decide) (.inr rfl) (.inl rfl) (card_userDirs le_rfl).symm,
    ⟨⟨fun d hd hp _ _ => ?_, fun d d' hd hd' hp hp' _ => ?_⟩, fun d hd hp => ?_⟩,
    fun p e hu he => ?_, fun p e hp he => ?_⟩
  · rw [(hpres d hd hp).2]
    decide
  · exact (hpres d hd hp).1.trans (hpres d' hd' hp').1.symm
  · rw [(hpres d hd hp).2]
    decide
  · rw [(hentry p hu.2 e he).2]
    decide
  · have := (hentry p (by omega) e he).1
    omega

/-- One byte of a read-only page. -/
theorem verifyArea_private_page : ∃ m', (twoDirs 16 257 1).verifyArea (2 ^ 22 * 16) 0 1 = .ok m' ∧
    Verified (twoDirs 16 257 1) m' (Overlaps (2 ^ 22 * 16 + 0) 1) := by
  obtain ⟨hall, hex⟩ := @verifyArea_private _ _ counted_twoDirs 16 0 1 (by decide) (by decide)
    (by decide)
  have hfree : (twoDirs 16 257 1).freeFrames ≠ 0 := fun hzero =>
    absurd rfl (freeFrames_eq_zero.1 hzero 4095 (by decide) (by decide))
  obtain ⟨m', hok⟩ := hex ((List.countP_le_length).trans (Nat.one_le_iff_ne_zero.2 hfree))
  exact ⟨m', hok, (hall m' hok).2⟩

theorem verifyArea_one (m : Mm) {c : Nat} (hc : c < 1024) :
    m.verifyArea (2 ^ 22 * c) 0 1 = if Present (m.pde c) ∧ Present (m.pte c 0) ∧
      ¬Writable (m.pte c 0) then m.unWpPage (m.entryAddr c 0) else .ok m := by
  have hpage : (1024 * c + 0 / 4096) % 2 ^ 20 = 1024 * c := by omega
  have hdir : 4096 * (1024 * c) / 2 ^ 22 = c := by omega
  have hnr : 4096 * (1024 * c) / 4096 % 1024 = 0 := by omega
  have hstop : (fun m₁ : Mm => verifyLoop ((4096 * (1024 * c) + 4096) % 2 ^ 32)
      (((1 + 0 % 4096 : Nat) : Int) - 4096) m₁) = .ok := funext fun m₁ => by
    rw [verifyLoop, if_neg (by decide)]
  have hbase : 2 ^ 22 * c = 4096 * (1024 * c) := by omega
  rw [hbase, verifyArea_eq (by decide) (by decide), hpage, verifyLoop, if_pos (by decide), hstop,
    writeVerify_eq m (by omega), hdir, hnr]
  split_ifs
  · exact bind_pure _
  · rfl

/-- A page of slot 0 is not counted, and it shares its frame with a page of slot 1 after
    `verify_area`. -/
theorem twoDirs_shared : ∃ m', (twoDirs 0 1 1).verifyArea (2 ^ 22 * 0) 0 1 = .ok m' ∧
    ¬Verified (twoDirs 0 1 1) m' (Overlaps (2 ^ 22 * 0 + 0) 1) := by
  have hwalk : ∀ d' < 1024, (d' = 0 ∨ d' = 16) →
      (twoDirs 0 1 1).walk d' 0 = some 0x100005 := fun d' hd' h => by
    rw [walk_twoDirs (by decide) (.inl rfl) hd' (by decide), if_pos ⟨h, rfl⟩]
  have hframe : frameOf 0x100005 = 256 := rfl
  obtain ⟨hp, hpte, hent⟩ := walk_eq_some.1 (hwalk 0 (by decide) (.inl rfl))
  obtain ⟨hp', hpte', hent'⟩ := walk_eq_some.1 (hwalk 16 (by decide) (.inr rfl))
  have hdir : frameOf ((twoDirs 0 1 1).pde 0) = 1 :=
    frameOf_twoDirs (by decide) (.inl rfl) (.inl rfl)
  have hdir' : frameOf ((twoDirs 0 1 1).pde 16) = 257 :=
    frameOf_twoDirs (by decide) (.inl rfl) (.inr rfl)
  refine ⟨(twoDirs 0 1 1).setPte 0 0 (writeEnable 0x100005), ?_, fun h => ?_⟩
  · rw [verifyArea_one _ (by decide), if_pos ⟨hp, hpte, hent ▸ by decide⟩]
    rcases unWpPage_cases (twoDirs 0 1 1) (d := 0) (by decide) 0 with ⟨-, -, hok⟩ | ⟨hnot, -⟩
    · rw [hok, hent]
    · rw [hent, hframe] at hnot
      exact absurd ⟨le_rfl, rfl⟩ hnot
  · have hpde : ∀ d' < 1024, ((twoDirs 0 1 1).setPte 0 0 (writeEnable 0x100005)).pde d' =
        (twoDirs 0 1 1).pde d' := fun d' hd' => phys_setPte_ne _ (by rw [hdir]; omega) _
    have hself : ((twoDirs 0 1 1).setPte 0 0 (writeEnable 0x100005)).pte 0 0 =
        writeEnable 0x100005 := pte_setPte_self (hpde 0 (by decide))
    have hother : ((twoDirs 0 1 1).setPte 0 0 (writeEnable 0x100005)).pte 16 0 = 0x100005 := by
      rw [pte, hpde 16 (by decide), phys_setPte_ne _ (by rw [hdir, hdir']; decide)]
      exact hent'
    have hro : ∀ e, (twoDirs 0 1 1).entryAt 0 = some e → ¬Writable e := fun e he => by
      rw [← Option.some.inj ((hwalk 0 (by decide) (.inl rfl)).symm.trans he)]
      decide
    have halone := h.alone 0 (by decide) ⟨0, by decide, by decide, rfl⟩ hro
    have hwalk₀ : ((twoDirs 0 1 1).setPte 0 0 (writeEnable 0x100005)).walk 0 0 =
        some (writeEnable 0x100005) := by
      rw [walk_eq_some, hpde 0 (by decide), hself]
      exact ⟨hp, by decide, rfl⟩
    have hwalk₁ : ((twoDirs 0 1 1).setPte 0 0 (writeEnable 0x100005)).entryAt (2 ^ 14) =
        some 0x100005 := by
      rw [entryAt, show 2 ^ 14 / 1024 = 16 by rfl, show 2 ^ 14 % 1024 = 0 by rfl, walk_eq_some,
        hpde 16 (by decide), hother]
      exact ⟨hp', by decide, rfl⟩
    exact halone _ hwalk₀ (2 ^ 14) ⟨by decide, by decide⟩ (by decide) _ hwalk₁
      (frameOf_writeEnable _).symm

/-- A page table of two directory entries changes for both of them. -/
theorem twoDirs_changed : ∃ m', (twoDirs 17 257 2).verifyArea (2 ^ 22 * 16) 0 1 = .ok m' ∧
    ¬Verified (twoDirs 17 257 2) m' (Overlaps (2 ^ 22 * 16 + 0) 1) := by
  have hframe : frameOf 0x100005 = 256 := rfl
  have hwalk : ∀ d' < 1024, (d' = 17 ∨ d' = 16) →
      (twoDirs 17 257 2).walk d' 0 = some 0x100005 := fun d' hd' h => by
    rw [walk_twoDirs (by decide) (.inr rfl) hd' (by decide), if_pos ⟨h, rfl⟩]
  have hdir : ∀ d' < 1024, (d' = 17 ∨ d' = 16) →
      frameOf ((twoDirs 17 257 2).pde d') = 257 := fun d' hd' h => by
    rw [frameOf_twoDirs hd' (.inr rfl) h]
    split_ifs <;> rfl
  obtain ⟨hp, hpte, hent⟩ := walk_eq_some.1 (hwalk 16 (by decide) (.inr rfl))
  obtain ⟨hp', -, hent'⟩ := walk_eq_some.1 (hwalk 17 (by decide) (.inl rfl))
  rw [verifyArea_one _ (by decide), if_pos ⟨hp, hpte, hent ▸ by decide⟩]
  rcases unWpPage_cases (twoDirs 17 257 2) (d := 16) (by decide) 0 with
    ⟨-, hone, -⟩ | ⟨-, ⟨-, hzero⟩ | ⟨f, hge, hlt, h0, hok⟩⟩
  · rw [hent, hframe] at hone
    exact absurd hone (by decide)
  · exact absurd rfl (freeFrames_eq_zero.1 hzero 4095 (by decide) (by decide))
  · refine ⟨_, hok, fun h => ?_⟩
    have hf : f ≠ 256 := by
      rintro rfl
      exact absurd h0 (by decide)
    have hpde : ∀ d' < 1024, ((twoDirs 17 257 2).replaced 16 0 f).pde d' =
        (twoDirs 17 257 2).pde d' := fun d' hd' => by
      have hpde : ∀ g, (((twoDirs 17 257 2).alloc f).dropCount g).pde 16 =
          (twoDirs 17 257 2).pde 16 := fun g => by
        rw [pde_dropCount, pde_alloc (by decide) hge]
      rw [pde, replaced, phys_setPte_ne _ (by
        rw [hpde, hdir 16 (by decide) (.inr rfl)]
        omega), phys_dropCount]
      exact pde_alloc hd' hge
    -- the entry of the page is also that of the page of the directory entry 17
    have hnew : ((twoDirs 17 257 2).replaced 16 0 f).pte 17 0 = entryOf (4096 * f) := by
      have hself : ((twoDirs 17 257 2).replaced 16 0 f).pte 16 0 = entryOf (4096 * f) := by
        refine pte_setPte_self ((hpde 16 (by decide)).trans ?_)
        rw [pde_dropCount, pde_alloc (by decide) hge]
      rw [← hself, pte, pte, hpde 16 (by decide), hpde 17 (by decide),
        hdir 16 (by decide) (.inr rfl), hdir 17 (by decide) (.inl rfl)]
    have hout : ¬Overlaps (2 ^ 22 * 16 + 0) 1 (1024 * 17) := by
      rintro ⟨x, h₁, h₂, heq⟩
      omega
    have hsame := (h.outside (1024 * 17) (by decide) hout).pte hp'
    have heq : entryOf (4096 * f) = 0x100005 := hnew.symm.trans (hsame.trans hent')
    have hframe' : f = frameOf 0x100005 := by
      rw [← heq, frameOf_entryOf (by omega)]
    exact hf (hframe'.trans hframe)

/-- `verify_area` goes wrong for read-only pages of slot 0, and for shared page tables, also if the
    counters are exact. -/
theorem not_verified :
    (∃ m m', Exact (fun _ => 0) m ∧ m.verifyArea (2 ^ 22 * 0) 0 1 = .ok m' ∧
      ¬Verified m m' (Overlaps (2 ^ 22 * 0 + 0) 1)) ∧
    ∃ m m', Exact (fun _ => 0) m ∧ m.verifyArea (2 ^ 22 * 16) 0 1 = .ok m' ∧
      ¬Verified m m' (Overlaps (2 ^ 22 * 16 + 0) 1) := by
  obtain ⟨m₁, hok₁, hnot₁⟩ := twoDirs_shared
  obtain ⟨m₂, hok₂, hnot₂⟩ := twoDirs_changed
  have hkernel : ¬UserDir 0 := fun h => by
    have := h.1
    omega
  have hdirs : (userDirs.filter fun d' => d' = 17 ∨ d' = 16) = {16, 17} := by
    ext d'
    rw [Finset.mem_filter, mem_userDirs, UserDir, Finset.mem_insert, Finset.mem_singleton]
    omega
  refine ⟨⟨_, m₁, exact_twoDirs (by decide) (.inl rfl) (.inr hkernel) ?_, hok₁, hnot₁⟩,
    _, m₂, exact_twoDirs (by decide) (.inr rfl) (.inl rfl) ?_, hok₂, hnot₂⟩
  · exact (card_userDirs (Nat.zero_le _)).symm
  · rw [hdirs]
    rfl

end NeuOs.Mm
