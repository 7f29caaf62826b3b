import NeuOs.Kernel.Task
import NeuOs.Mm.Verify

/-!
# The kernel's accesses of user memory (`include/asm/segment.h`)

The functions `get_fs_byte`, `put_fs_byte` and `put_fs_long` access the data
segment of the process. The processor checks the limit of the segment, and
raises a general protection fault beyond it; an access within the limit may
cause page faults, but not because of the write flag of the page, which a store
in kernel mode ignores. Pointers are 32-bit words, and wrap around.
-/

namespace NeuOs

/-- The bytes of a word, the lowest first. -/
def bytesOf (w : Word) : List Byte := (List.range 4).map (getByte w)

/-- The word of the bytes, the lowest first. -/
def wordOf : List Byte → Word
  | [] => 0
  | b :: bs => b.setWidth 32 ||| (wordOf bs <<< 8)

namespace Mm

/-- `get_fs_byte`. -/
def getFsByte (m : Mm) (s : Segment) (addr : Word) : Except Panic (Byte × Mm) :=
  if s.limit ≤ addr.toNat then .error .generalProtection
  else do
    let m ← m.touch (s.base + addr.toNat) false
    .ok (m.reads (s.base + addr.toNat), m)

/-- The bytes that `get_fs_byte` reads from `addr` on. -/
def getFsBytes (s : Segment) : (n : Nat) → (addr : Word) → Mm → Except Panic (List Byte × Mm)
  | 0, _, m => .ok ([], m)
  | n + 1, addr, m => do
    let (b, m) ← m.getFsByte s addr
    let (bs, m) ← getFsBytes s n (addr + 1) m
    .ok (b :: bs, m)

/-- `put_fs_byte`. -/
def putFsByte (m : Mm) (s : Segment) (addr : Word) (b : Byte) : Except Panic Mm :=
  if s.limit ≤ addr.toNat then .error .generalProtection
  else m.kernelStore (s.base + addr.toNat) b

/-- The stores of `put_fs_byte` for each of the bytes, from `addr` on. -/
def putFsBytes (s : Segment) : (bytes : List Byte) → (addr : Word) → Mm → Except Panic Mm
  | [], _, m => .ok m
  | b :: bs, addr, m => do
    let m ← m.putFsByte s addr b
    putFsBytes s bs (addr + 1) m

/-- `put_fs_long`, whose four bytes must be within the limit. -/
def putFsLong (m : Mm) (s : Segment) (addr : Word) (w : Word) : Except Panic Mm :=
  if s.limit < addr.toNat + 4 then .error .generalProtection
  else putFsBytes s (bytesOf w) addr m

/-- The stores of `put_fs_long` for each of the words, from `addr` on. -/
def putFsLongs (s : Segment) : (longs : List Word) → (addr : Word) → Mm → Except Panic Mm
  | [], _, m => .ok m
  | w :: ws, addr, m => do
    let m ← m.putFsLong s addr w
    putFsLongs s ws (addr + 4) m

variable {lo hi i : Nat} {ext : Nat → Nat} {m m' : Mm} {s : Segment} {addr : Word} {p : Panic}

/-! ## The errors -/

/-- An access of user memory fails for lack of memory, or beyond the limit. -/
def FsError (p : Panic) : Prop := p = .outOfMemory ∨ p = .generalProtection

theorem getFsBytes_error {n : Nat} (hs : s.base + s.limit ≤ 2 ^ 32)
    (h : getFsBytes s n addr m = .error p) : FsError p := by
  induction n generalizing addr m with
  | zero => cases h
  | succ n ih =>
    rcases Except.bind_eq_error.1 h with h | ⟨⟨b, m₁⟩, -, h⟩
    · rw [getFsByte] at h
      split_ifs at h with hlim
      · exact .inr (Except.error.inj h).symm
      · rcases Except.bind_eq_error.1 h with h | ⟨_, -, h⟩
        · exact .inl (touch_error (by omega) h)
        · cases h
    · rcases Except.bind_eq_error.1 h with h | ⟨_, -, h⟩
      · exact ih h
      · cases h

theorem putFsBytes_error {bytes : List Byte} (hs : s.base + s.limit ≤ 2 ^ 32)
    (h : putFsBytes s bytes addr m = .error p) : FsError p := by
  induction bytes generalizing addr m with
  | nil => cases h
  | cons b bytes ih =>
    rcases Except.bind_eq_error.1 h with h | ⟨m₁, -, h⟩
    · rw [putFsByte] at h
      split_ifs at h with hlim
      · exact .inr (Except.error.inj h).symm
      · exact .inl (kernelStore_error (by omega) h)
    · exact ih h

theorem putFsLongs_error {longs : List Word} (hs : s.base + s.limit ≤ 2 ^ 32)
    (h : putFsLongs s longs addr m = .error p) : FsError p := by
  induction longs generalizing addr m with
  | nil => cases h
  | cons w longs ih =>
    rcases Except.bind_eq_error.1 h with h | ⟨m₁, -, h⟩
    · rw [putFsLong] at h
      split_ifs at h
      · exact .inr (Except.error.inj h).symm
      · exact putFsBytes_error hs h
    · exact ih h

/-! ## Words and bytes -/

theorem putFsBytes_append (xs ys : List Byte) (addr : Word) (m : Mm) :
    putFsBytes s (xs ++ ys) addr m =
      putFsBytes s xs addr m >>= putFsBytes s ys (addr + BitVec.ofNat 32 xs.length) := by
  induction xs generalizing addr m with
  | nil =>
    rw [List.nil_append, List.length_nil, BitVec.add_zero]
    rfl
  | cons x xs ih =>
    have haddr : addr + 1 + BitVec.ofNat 32 xs.length =
        addr + BitVec.ofNat 32 (x :: xs).length := by
      rw [List.length_cons, BitVec.ofNat_add, BitVec.add_comm (BitVec.ofNat 32 xs.length),
        BitVec.add_assoc]
      rfl
    rw [List.cons_append, putFsBytes, putFsBytes, bind_assoc]
    congr 1
    funext m
    rw [ih, haddr]

/-- The stores of words are stores of their bytes. -/
theorem putFsBytes_of_longs {longs : List Word} (h : putFsLongs s longs addr m = .ok m') :
    putFsBytes s (longs.flatMap bytesOf) addr m = .ok m' := by
  induction longs generalizing addr m with
  | nil => exact h
  | cons w longs ih =>
    obtain ⟨m₁, hput, h⟩ := Except.bind_eq_ok.1 h
    rw [putFsLong] at hput
    split_ifs at hput
    rw [List.flatMap_cons, putFsBytes_append, hput]
    exact ih h

/-- The bytes stored lie within the limit. -/
theorem putFsBytes_limit {bytes : List Byte} (hs : s.limit < 2 ^ 32) (hne : bytes ≠ [])
    (h : putFsBytes s bytes addr m = .ok m') : addr.toNat + bytes.length ≤ s.limit := by
  induction bytes generalizing addr m with
  | nil => exact absurd rfl hne
  | cons b bytes ih =>
    obtain ⟨m₁, hput, h⟩ := Except.bind_eq_ok.1 h
    rw [putFsByte] at hput
    split_ifs at hput with hlim
    rw [List.length_cons]
    by_cases hnil : bytes = []
    · rw [hnil, List.length_nil]
      omega
    · have hih := ih hnil h
      rw [BitVec.toNat_add, show (1 : Word).toNat = 1 from rfl] at hih
      omega

/-! ## Accesses of the segment of a slot -/

/-- The segment is in the region of the slot `i`. -/
structure UserSegment (i : Nat) (s : Segment) : Prop where
  pos : 1 ≤ i
  lt : i < 64
  base : s.base = i * 0x4000000
  limit : s.limit ≤ 0x4000000

/-- The pages of the other slots. -/
def OffSlot (i d _n : Nat) : Prop := d / 16 ≠ i

theorem offRange_offSlot (i : Nat) : OffRange (OffSlot i) (i * 0x4000000) 0x4000000 :=
  fun x h₁ h₂ hne => hne (by omega)

namespace UserSegment

theorem userAddr {off : Nat} (hs : UserSegment i s) (hoff : off < s.limit) :
    UserAddr (s.base + off) := by
  obtain ⟨h₁, h₂, h₃, h₄⟩ := hs
  exact ⟨by omega, by omega⟩

/-- What is the same on all pages but one of the slot, is the same on the pages of
    the other slots. -/
theorem samePages {off : Nat} (hs : UserSegment i s) (hoff : off < s.limit)
    (h : SamePages (fun d n => (d, n) ≠ ((s.base + off) / 2 ^ 22, (s.base + off) / 4096 % 1024))
      m m') : SamePages (OffSlot i) m m' := by
  obtain ⟨h₁, h₂, h₃, h₄⟩ := hs
  exact (offRange_offSlot i).samePages (by omega) (by omega) h

end UserSegment

theorem Inv.getFsBytes {n : Nat} {bs : List Byte} (h : Inv lo hi ext m) (hs : UserSegment i s)
    (hok : getFsBytes s n addr m = .ok (bs, m')) :
    Inv lo hi ext m' ∧ SamePages (OffSlot i) m m' := by
  induction n generalizing addr m bs with
  | zero =>
    obtain ⟨-, rfl⟩ := Prod.mk.inj (Except.ok.inj hok)
    exact ⟨h, .refl _ _⟩
  | succ n ih =>
    obtain ⟨⟨b, m₁⟩, hget, hok⟩ := Except.bind_eq_ok.1 hok
    obtain ⟨⟨bs', m₂⟩, hrest, hok⟩ := Except.bind_eq_ok.1 hok
    obtain ⟨-, rfl⟩ := Prod.mk.inj (Except.ok.inj hok)
    rw [getFsByte] at hget
    split_ifs at hget with hlim
    obtain ⟨m₃, htouch, hget⟩ := Except.bind_eq_ok.1 hget
    obtain ⟨-, rfl⟩ := Prod.mk.inj (Except.ok.inj hget)
    have ha := hs.userAddr (not_le.1 hlim)
    rcases h.touch ha.2 ha.page.1 false with ⟨herr, -⟩ | ⟨m₄, e, hok₄, hinv, hsame, -⟩
    · cases herr.symm.trans htouch
    · obtain rfl : m₄ = m₃ := Except.ok.inj (hok₄.symm.trans htouch)
      obtain ⟨hinv', hsame'⟩ := ih hinv hrest
      exact ⟨hinv', (hs.samePages (not_le.1 hlim) hsame).trans hsame'⟩

/-- The first store of the kernel to a range whose present pages are writable. -/
theorem Inv.putFsBytes_cons {b : Byte} {bytes : List Byte} (h : Inv lo hi ext m)
    (hs : UserSegment i s) (hw : WritableRange m (s.base + addr.toNat) (b :: bytes).length)
    (hok : Mm.putFsBytes s (b :: bytes) addr m = .ok m') :
    addr.toNat < s.limit ∧ ∃ m₁, m.kernelStore (s.base + addr.toNat) b = .ok m₁ ∧ Inv lo hi ext m₁ ∧
      SamePages (OffSlot i) m m₁ ∧ WritableRange m₁ (s.base + (addr + 1).toNat) bytes.length ∧
      Mm.putFsBytes s bytes (addr + 1) m₁ = .ok m' := by
  obtain ⟨m₁, hput, hok⟩ := Except.bind_eq_ok.1 hok
  rw [putFsByte] at hput
  split_ifs at hput with hlim
  have ha := hs.userAddr (not_le.1 hlim)
  obtain ⟨hinv, hsame, e, he, hwe⟩ := h.kernelStore ha
    (hw _ le_rfl (by rw [List.length_cons]; omega)) hput
  have hnext : (addr + 1).toNat = addr.toNat + 1 := by
    have := hs.limit
    rw [BitVec.toNat_add, show (1 : Word).toNat = 1 from rfl]
    omega
  refine ⟨not_le.1 hlim, m₁, hput, hinv, hs.samePages (not_le.1 hlim) hsame, ?_, hok⟩
  -- The rest of the range is on the page of the store, or on unchanged pages.
  intro x h₁ h₂ e' he'
  obtain ⟨k₁, k₂, k₃, k₄⟩ := id hs
  have hlim' := putFsBytes_limit (by omega) (List.ne_nil_of_length_pos (by omega)) hok
  have hx : UserAddr x := ⟨by omega, by omega⟩
  by_cases hpage : OnPage ((s.base + addr.toNat) / 2 ^ 22) ((s.base + addr.toNat) / 4096 % 1024) x
  · rw [hpage.translate] at he'
    exact Option.some.inj (he.symm.trans he') ▸ hwe
  · refine hw x (by omega) (by rw [List.length_cons]; omega) e' ?_
    rw [← he', translate, translate]
    exact (hsame _ _ hx.page hpage).1.symm

/-- Stores of the kernel to a range whose present pages are writable. -/
theorem Inv.putFsBytes {bytes : List Byte} (h : Inv lo hi ext m) (hs : UserSegment i s)
    (hw : WritableRange m (s.base + addr.toNat) bytes.length)
    (hok : putFsBytes s bytes addr m = .ok m') :
    Inv lo hi ext m' ∧ SamePages (OffSlot i) m m' := by
  induction bytes generalizing addr m with
  | nil =>
    obtain rfl := Except.ok.inj hok
    exact ⟨h, .refl _ _⟩
  | cons b bytes ih =>
    obtain ⟨-, m₁, -, hinv, hsame, hrest, hok⟩ := h.putFsBytes_cons hs hw hok
    obtain ⟨hinv', hsame'⟩ := ih hinv hrest hok
    exact ⟨hinv', hsame.trans hsame'⟩

/-- `verify_area`, and stores of the kernel to the range. -/
theorem Inv.verifyArea_putFsBytes {bytes : List Byte} (h : Inv lo hi ext m) (hs : UserSegment i s)
    (hne : bytes ≠ []) {m₁ : Mm} (hverify : m.verifyArea s.base addr.toNat bytes.length = .ok m₁)
    (hok : Mm.putFsBytes s bytes addr m₁ = .ok m') :
    Inv lo hi ext m' ∧ SamePages (OffSlot i) m m' := by
  obtain ⟨h₁, h₂, h₃, h₄⟩ := id hs
  have hlim := putFsBytes_limit (by omega) hne hok
  have hbase : s.base = 4096 * (i * 0x4000) := by omega
  have hinv := h.verifyArea_inv hverify
  rw [hbase] at hverify
  obtain ⟨hsame, hw⟩ := h.verifyArea (S := OffSlot i) (by omega) (by omega)
    (List.length_pos_of_ne_nil hne) (by omega) (by
      rw [← hbase, h₃]
      exact offRange_offSlot i) hverify
  obtain ⟨hinv', hsame'⟩ := hinv.putFsBytes hs (by rwa [hbase]) hok
  exact ⟨hinv', hsame.trans hsame'⟩

end Mm

end NeuOs
