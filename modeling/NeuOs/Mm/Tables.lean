import Mathlib.Data.Finset.Prod
import Mathlib.Order.Interval.Finset.Nat
import NeuOs.Lib.Count
import NeuOs.Mm.Alloc

/-!
# The two levels of page tables

The linear page `d * 1024 + n` is translated by the entry `d` of the page
directory (`pde`), which points to a page table, and the entry `n` of that table
(`pte`). The directory entries below 16 belong to the 64 MB of slot 0, where the
kernel maps the first 16 MB of memory onto themselves (`KernelMap`); those from
`16 * i` to `16 * i + 15` belong to slot `i`. A *user page* is a page of one of
the slots 1 to 63.

The references to a frame are counted in two parts: the user pages that map it
(`pteRefs`) and the directory entries whose page table it is (`pdeRefs`).
-/

namespace NeuOs.Mm

open Finset

/-- The directory entry `d`. -/
def pde (m : Mm) (d : Nat) : Word := m.phys d

/-- The entry `n` of the page table of the directory entry `d`. -/
def pte (m : Mm) (d n : Nat) : Word := m.phys (1024 * frameOf (m.pde d) + n)

/-- The page `(d, n)` is present and maps the frame `f`. -/
def Maps (m : Mm) (d n f : Nat) : Prop :=
  Present (m.pde d) ∧ Present (m.pte d n) ∧ frameOf (m.pte d n) = f

instance (m : Mm) (d n f : Nat) : Decidable (m.Maps d n f) :=
  inferInstanceAs (Decidable (_ ∧ _ ∧ _))

/-- The directory entry `d` points to a page table in the frame `f`. -/
def Table (m : Mm) (d f : Nat) : Prop := Present (m.pde d) ∧ frameOf (m.pde d) = f

instance (m : Mm) (d f : Nat) : Decidable (m.Table d f) := inferInstanceAs (Decidable (_ ∧ _))

/-- The directory entries of the slots 1 to 63. -/
def UserDir (d : Nat) : Prop := 16 ≤ d ∧ d < 1024

/-- The pages of the slots 1 to 63. -/
def UserPage (d n : Nat) : Prop := UserDir d ∧ n < 1024

/-- The set of the directory entries of the slots 1 to 63. -/
@[irreducible] def userDirs : Finset Nat := Ico 16 1024

/-- The set of the pages of the slots 1 to 63. -/
@[irreducible] def userPages : Finset (Nat × Nat) := Ico 16 1024 ×ˢ range 1024

/-- The number of user pages mapping the frame `f`. -/
def pteRefs (m : Mm) (f : Nat) : Nat := #{x ∈ userPages | m.Maps x.1 x.2 f}

/-- The number of directory entries of users whose page table is the frame `f`. -/
def pdeRefs (m : Mm) (f : Nat) : Nat := #{d ∈ userDirs | m.Table d f}

/-- The map set up at boot: the first 16 MB are mapped onto themselves, and the
    rest of the 64 MB of slot 0 is absent. -/
structure KernelMap (m : Mm) : Prop where
  dir : ∀ d < 4, m.pde d = entryOf (4096 * (d + 1))
  absent : ∀ d, 4 ≤ d → d < 16 → m.pde d = 0
  entry : ∀ n < 4096, m.phys (1024 + n) = entryOf (4096 * n)

/-- The entries of the first four page tables. -/
theorem KernelMap.pte {m : Mm} {d n : Nat} (h : m.KernelMap) (hd : d < 4) (hn : n < 1024) :
    m.pte d n = entryOf (4096 * (1024 * d + n)) := by
  rw [Mm.pte, h.dir d hd, frameOf_entryOf (by omega), ← h.entry _ (by omega)]
  congr 1
  omega

theorem mem_userPages {d n : Nat} : (d, n) ∈ userPages ↔ UserPage d n := by
  unfold userPages
  exact mem_product.trans (and_congr mem_Ico mem_range)

theorem mem_userDirs {d : Nat} : d ∈ userDirs ↔ UserDir d := by
  unfold userDirs
  exact mem_Ico

theorem pteRefs_eq_zero {m : Mm} {f : Nat} :
    m.pteRefs f = 0 ↔ ∀ d n, UserPage d n → ¬m.Maps d n f := by
  rw [pteRefs, card_filter_eq_zero]
  exact ⟨fun h d n hu => h (d, n) (mem_userPages.2 hu), fun h x hx => h _ _ (mem_userPages.1 hx)⟩

theorem pdeRefs_eq_zero {m : Mm} {f : Nat} :
    m.pdeRefs f = 0 ↔ ∀ d, UserDir d → ¬m.Table d f := by
  rw [pdeRefs, card_filter_eq_zero]
  exact ⟨fun h d hd => h d (mem_userDirs.2 hd), fun h d hd => h d (mem_userDirs.1 hd)⟩

theorem pteRefs_pos {m : Mm} {d n f : Nat} (hu : UserPage d n) (h : m.Maps d n f) :
    0 < m.pteRefs f :=
  Nat.pos_of_ne_zero fun h0 => pteRefs_eq_zero.1 h0 d n hu h

theorem pdeRefs_pos {m : Mm} {d f : Nat} (hd : UserDir d) (h : m.Table d f) :
    0 < m.pdeRefs f :=
  Nat.pos_of_ne_zero fun h0 => pdeRefs_eq_zero.1 h0 d hd h

/-- If at most one user page maps `f`, any two that do are the same. -/
theorem eq_of_pteRefs_le_one {m : Mm} {d n d' n' f : Nat} (h : m.pteRefs f ≤ 1)
    (hu : UserPage d n) (hm : m.Maps d n f) (hu' : UserPage d' n') (hm' : m.Maps d' n' f) :
    d = d' ∧ n = n' :=
  Prod.mk.inj (eq_of_card_filter_le_one h (mem_userPages.2 hu) hm (mem_userPages.2 hu') hm')

/-- If at most one directory entry has `f` as its page table, any two that do
    are the same. -/
theorem eq_of_pdeRefs_le_one {m : Mm} {d d' f : Nat} (h : m.pdeRefs f ≤ 1)
    (hd : UserDir d) (ht : m.Table d f) (hd' : UserDir d') (ht' : m.Table d' f) : d = d' :=
  eq_of_card_filter_le_one h (mem_userDirs.2 hd) ht (mem_userDirs.2 hd') ht'

theorem pteRefs_congr {m m' : Mm} {f : Nat}
    (h : ∀ d n, UserPage d n → (m'.Maps d n f ↔ m.Maps d n f)) : m'.pteRefs f = m.pteRefs f := by
  rw [pteRefs, pteRefs]
  congr 1
  exact filter_congr fun x hx => h _ _ (mem_userPages.1 hx)

theorem pdeRefs_congr {m m' : Mm} {f : Nat}
    (h : ∀ d, UserDir d → (m'.Table d f ↔ m.Table d f)) : m'.pdeRefs f = m.pdeRefs f := by
  rw [pdeRefs, pdeRefs]
  congr 1
  exact filter_congr fun d hd => h _ (mem_userDirs.1 hd)

/-- If a single page changes, its references do. -/
theorem pteRefs_change {m m' : Mm} {d n f : Nat} (hu : UserPage d n)
    (h : ∀ d' n', UserPage d' n' → (d', n') ≠ (d, n) → (m'.Maps d' n' f ↔ m.Maps d' n' f)) :
    m'.pteRefs f + (if m.Maps d n f then 1 else 0) =
      m.pteRefs f + (if m'.Maps d n f then 1 else 0) :=
  card_filter_change (mem_userPages.2 hu) fun x hx hne => (h x.1 x.2 (mem_userPages.1 hx) hne).symm

/-- If a single directory entry changes, its references do. -/
theorem pdeRefs_change {m m' : Mm} {d f : Nat} (hd : UserDir d)
    (h : ∀ d', UserDir d' → d' ≠ d → (m'.Table d' f ↔ m.Table d' f)) :
    m'.pdeRefs f + (if m.Table d f then 1 else 0) =
      m.pdeRefs f + (if m'.Table d f then 1 else 0) :=
  card_filter_change (mem_userDirs.2 hd) fun x hx hne => (h x (mem_userDirs.1 hx) hne).symm

/-! ## Reading and writing entries -/

theorem load_dirEntry (m : Mm) (a : Nat) : m.load (dirEntry a) = m.pde (a / 2 ^ 22 % 1024) := by
  rw [load, dirEntry_eq, pde]
  congr 1
  omega

theorem load_word (m : Mm) (w : Nat) : m.load (4 * w) = m.phys w := by
  rw [load, Nat.mul_div_cancel_left w (by norm_num)]

theorem load_table (m : Mm) (f n : Nat) : m.load (4096 * f + 4 * n) = m.phys (1024 * f + n) := by
  rw [show 4096 * f + 4 * n = 4 * (1024 * f + n) by omega, load_word]

theorem store_word (m : Mm) (w : Nat) (v : Word) :
    m.store (4 * w) v = { m with phys := Function.update m.phys w v } := by
  rw [store, Nat.mul_div_cancel_left w (by norm_num)]

/-- Setting the directory entry `d`. -/
def setPde (m : Mm) (d : Nat) (v : Word) : Mm := { m with phys := Function.update m.phys d v }

/-- Setting the entry `n` of the page table of the directory entry `d`. -/
def setPte (m : Mm) (d n : Nat) (v : Word) : Mm :=
  { m with phys := Function.update m.phys (1024 * frameOf (m.pde d) + n) v }

theorem store_dirEntry (m : Mm) (a : Nat) (v : Word) :
    m.store (dirEntry a) v = m.setPde (a / 2 ^ 22 % 1024) v := by
  rw [dirEntry_eq, store_word, setPde]

theorem store_table (m : Mm) (d n : Nat) (v : Word) :
    m.store (4096 * frameOf (m.pde d) + 4 * n) v = m.setPte d n v := by
  rw [show 4096 * frameOf (m.pde d) + 4 * n = 4 * (1024 * frameOf (m.pde d) + n) by omega,
    store_word, setPte]

@[simp] theorem memMap_setPde (m : Mm) (d : Nat) (v : Word) :
    (m.setPde d v).memMap = m.memMap := rfl

@[simp] theorem memMap_setPte (m : Mm) (d n : Nat) (v : Word) :
    (m.setPte d n v).memMap = m.memMap := rfl

theorem phys_setPde_ne (m : Mm) {d w : Nat} (h : w ≠ d) (v : Word) :
    (m.setPde d v).phys w = m.phys w := Function.update_of_ne h _ _

theorem phys_setPte (m : Mm) (d n w : Nat) (v : Word) : (m.setPte d n v).phys w =
    if w = 1024 * frameOf (m.pde d) + n then v else m.phys w := Function.update_apply _ _ _ _

theorem phys_setPte_ne (m : Mm) {d n w : Nat} (h : w ≠ 1024 * frameOf (m.pde d) + n) (v : Word) :
    (m.setPte d n v).phys w = m.phys w := Function.update_of_ne h _ _

theorem pde_setPde (m : Mm) (d d' : Nat) (v : Word) :
    (m.setPde d v).pde d' = if d' = d then v else m.pde d' := Function.update_apply _ _ _ _

end NeuOs.Mm
