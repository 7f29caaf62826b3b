import NeuOs.Lib.Region
import NeuOs.Lib.Run
import NeuOs.Mm.Memory

/-!
# The boot sector (boot/bootsect.s)

The BIOS has loaded the first sector of the floppy disk at `0x7c00`. It moves itself to
`0x9000:0000`, loads the four sectors of `setup` behind it, and calls `read_it`, which loads
`SYSSIZE` clicks at `0x1000:0000`: it reads as many sectors at a time as are left on the track, but
never across a boundary of 64 KB, and starts a read again until the BIOS succeeds.

Every read is legal: it stays within a track and within 64 KB (`request_legal`). When the boot
sector jumps to `setup`, the sectors of the disk are in memory in their order (`bootsect_loads`).
-/

namespace NeuOs.Boot

open Region

/-- The memory in real mode, by physical address. -/
abbrev Memory := ℕ → Byte

/-- `SETUPLEN`: the number of sectors of `setup`. -/
def setupLen : ℕ := 4

/-- `INITSEG`. -/
def initSeg : ℕ := 0x9000

/-- `SYSSEG`. -/
def sysSeg : ℕ := 0x1000

/-- `SYSSIZE`: the number of clicks of 16 bytes to load. -/
def sysSize : ℕ := 0x3000

/-- `ENDSEG`. -/
def endSeg : ℕ := sysSeg + sysSize

/-- A physical address in real mode. -/
def phys (seg off : ℕ) : ℕ := 16 * seg + off

/-! ## The disk and the BIOS -/

/-- A floppy disk with two heads, that holds the boot sector, `setup` and the system, sector after
    sector. -/
structure Floppy where
  /-- The number of sectors of a track. -/
  sectors : ℕ
  tracks : ℕ
  content : ℕ → Byte
  sectors_gt : 1 + setupLen < sectors
  sectors_lt : sectors < 64
  tracks_le : tracks ≤ 256
  size_le : 1 + setupLen + sysSize / 32 ≤ 2 * tracks * sectors

/-- The registers that service 2 of `int $0x13` takes. -/
structure Request where
  /-- The number of sectors to read. -/
  al : ℕ
  /-- The track. -/
  ch : ℕ
  /-- The first sector, from 1 on. -/
  cl : ℕ
  /-- The head. -/
  dh : ℕ
  /-- The drive. -/
  dl : ℕ
  es : ℕ
  bx : ℕ

namespace Request

/-- The address of the buffer. -/
def buffer (q : Request) : ℕ := phys q.es q.bx

/-- The sector of the disk that is read first. -/
def lba (q : Request) (f : Floppy) : ℕ := (2 * q.ch + q.dh) * f.sectors + (q.cl - 1)

/-- A read that a BIOS serves: of sectors of one track, into a buffer that does not cross a
    boundary of 64 KB. -/
structure Legal (q : Request) (f : Floppy) : Prop where
  al_pos : 0 < q.al
  cl_pos : 0 < q.cl
  track : q.cl - 1 + q.al ≤ f.sectors
  ch_lt : q.ch < f.tracks
  dh_lt : q.dh < 2
  dl_eq : q.dl = 0
  dma : q.buffer % 0x10000 + 512 * q.al ≤ 0x10000

end Request

/-- The BIOS. What it answers may depend on how often it has been called. -/
structure Bios where
  /-- Service 2: the carry flag, and the memory. -/
  read : ℕ → Request → Memory → Bool × Memory
  /-- Service 8: the register `cl`. -/
  parameters : ℕ

/-- The memory that the boot sector loads: the system, and itself and `setup`. -/
def Reserved (a : ℕ) : Prop :=
  0x10000 ≤ a ∧ a < 0x40000 ∨ 0x90000 ≤ a ∧ a < 0x90a00

/-- Of this memory, a legal read writes only into its buffer; and service 8 tells the number of
    sectors of a track. -/
structure Bios.Keeps (bios : Bios) (f : Floppy) : Prop where
  frame : ∀ k q mem, q.Legal f → ∀ a, Reserved a → a < q.buffer ∨ q.buffer + 512 * q.al ≤ a →
    (bios.read k q mem).2 a = mem a
  parameters : bios.parameters = f.sectors

/-- A legal read has read the sectors if the carry flag is clear. -/
def Bios.Reads (bios : Bios) (f : Floppy) : Prop :=
  ∀ k q mem, q.Legal f → (bios.read k q mem).1 = false →
    Holds (bios.read k q mem).2 q.buffer (512 * q.al) fun i => f.content (512 * q.lba f + i)

/-- What the code relies on: also, a read succeeds after finitely many failures. -/
structure Bios.Serves (bios : Bios) (f : Floppy) : Prop extends bios.Keeps f where
  reads : bios.Reads f
  recovers : ∀ k, ∃ j, ∀ q mem, q.Legal f → (bios.read (k + j) q mem).1 = false

/-! ## The code -/

/-- Where the code is: before a call of the BIOS, or at its end. -/
inductive Label
  | loadSetup
  | die
  | rpRead
  /-- `read_track`, with `al` in the register `%ax`. -/
  | readTrack (ax : ℕ)
  /-- At the jump to `setup`. -/
  | done
  deriving DecidableEq

/-- The registers that live from one label to the next, and the variables of the boot sector. These
    stand in its own bytes at `0x90000`, where `mem` does not follow them; nor does it follow the
    stack below `0x9ff00`. -/
structure Machine where
  label : Label
  mem : Memory
  /-- The number of calls of the BIOS so far. -/
  calls : ℕ
  es : ℕ
  bx : ℕ
  sectors : ℕ
  sread : ℕ
  head : ℕ
  track : ℕ

/-- `rep movsw` with the direction flag clear: `cx` words are moved from `ds:si` to `es:di`. -/
def repMovsw (ds es : ℕ) : (cx si di : ℕ) → Memory → Memory
  | 0, _, _, mem => mem
  | cx + 1, si, di, mem =>
    let low := mem (phys ds si)
    let high := mem (phys ds ((si + 1) % 2 ^ 16))
    let mem := Function.update mem (phys es di) low
    let mem := Function.update mem (phys es ((di + 1) % 2 ^ 16)) high
    repMovsw ds es cx ((si + 2) % 2 ^ 16) ((di + 2) % 2 ^ 16) mem

/-- `_start`: the boot sector is moved to `INITSEG`. -/
def start (mem : Memory) : Machine where
  label := .loadSetup
  mem := repMovsw 0x07c0 initSeg 256 0 0 mem
  calls := 0
  es := initSeg
  bx := 0
  sectors := 0
  sread := 1 + setupLen
  head := 0
  track := 0

/-- The call of the BIOS in `load_setup`. -/
def setupRequest : Request where
  al := 4
  ch := 0
  cl := 2
  dh := 0
  dl := 0
  es := initSeg
  bx := 0x0200

/-- The call of the BIOS in `read_track`. -/
def Machine.request (m : Machine) (ax : ℕ) : Request where
  al := ax % 256
  ch := m.track % 256
  cl := (m.sread + 1) % 2 ^ 16 % 256
  -- `mov %dl, %dh; mov $0, %dl; and $0x0100, %dx`
  dh := (((m.head % 256) * 256) &&& 0x0100) / 256
  dl := (((m.head % 256) * 256) &&& 0x0100) % 256
  es := m.es
  bx := m.bx

/-- `ok1_read`: the number of sectors to read next. -/
def Machine.ok1Read (m : Machine) : ℕ :=
  let ax := (m.sectors + 2 ^ 16 - m.sread) % 2 ^ 16
  let cx := ax * 2 ^ 9 % 2 ^ 16
  -- `jnc` and `je` after `add %bx, %cx`
  if cx + m.bx < 2 ^ 16 then ax
  else if (cx + m.bx) % 2 ^ 16 = 0 then ax
  else (2 ^ 16 - m.bx) % 2 ^ 16 / 2 ^ 9

/-- `ok3_read`. -/
def Machine.ok3Read (m : Machine) (ax cx : ℕ) : Machine :=
  let cx := cx * 2 ^ 9 % 2 ^ 16
  if m.bx + cx < 2 ^ 16 then { m with label := .rpRead, sread := ax, bx := m.bx + cx }
  else { m with label := .rpRead, sread := ax, es := (m.es + 0x1000) % 2 ^ 16, bx := 0 }

/-- `ok4_read`. -/
def Machine.ok4Read (m : Machine) (ax cx : ℕ) : Machine := { m with head := ax }.ok3Read 0 cx

/-- What follows the call of `read_track` in `ok2_read`. -/
def Machine.ok2Read (m : Machine) (ax : ℕ) : Machine :=
  let cx := ax
  let ax := (ax + m.sread) % 2 ^ 16
  if ax = m.sectors then
    let ax := (1 + 2 ^ 16 - m.head) % 2 ^ 16
    if ax = 0 then { m with track := (m.track + 1) % 2 ^ 16 }.ok4Read ax cx else m.ok4Read ax cx
  else m.ok3Read ax cx

/-- A call of the BIOS. -/
def Machine.call (bios : Bios) (m : Machine) (q : Request) : Bool × Machine :=
  let (cf, mem) := bios.read m.calls q m.mem
  (cf, { m with mem := mem, calls := m.calls + 1 })

/-- From one label to the next. The disk is reset and the call is made again (`load_setup`,
    `bad_rt`) if it has failed. -/
def step (bios : Bios) (m : Machine) : Machine :=
  match m.label with
  | .loadSetup =>
    let (cf, m) := m.call bios setupRequest
    if cf then m
    else
      let m := { m with sectors := bios.parameters % 256, es := sysSeg }
      -- `read_it`
      if m.es &&& 0x0fff = 0 then { m with label := .rpRead, bx := 0 } else { m with label := .die }
  | .rpRead =>
    if m.es < endSeg then { m with label := .readTrack m.ok1Read } else { m with label := .done }
  | .readTrack ax =>
    let (cf, m) := m.call bios (m.request ax)
    if cf then m else m.ok2Read ax
  | .die => m
  | .done => m

/-- The call of the BIOS that comes next. -/
def Machine.pending (m : Machine) : Option Request :=
  match m.label with
  | .loadSetup => some setupRequest
  | .readTrack ax => some (m.request ax)
  | _ => none

/-- The machine after `n` steps. -/
def run (bios : Bios) (mem : Memory) (n : ℕ) : Machine := (step bios)^[n] (start mem)

/-! ## `rep movsw` -/

theorem copied_two {mem : Memory} {a : ℕ} {src : ℕ → Byte} :
    Copied a 2 src mem (Function.update (Function.update mem a (src 0)) (a + 1) (src 1)) where
  holds i hi := by
    rcases show i = 0 ∨ i = 1 by omega with rfl | rfl
    · exact (Function.update_of_ne (by omega) _ _).trans (Function.update_self _ _ _)
    · exact Function.update_self _ _ _
  frame b hb := by rw [Function.update_of_ne (by omega), Function.update_of_ne (by omega)]

/-- `rep movsw` copies words between regions that do not overlap. -/
theorem copied_repMovsw (ds es cx si di : ℕ) (mem : Memory) (hsi : si + 2 * cx ≤ 2 ^ 16)
    (hdi : di + 2 * cx ≤ 2 ^ 16) (hdisj : phys es di + 2 * cx ≤ phys ds si ∨
      phys ds si + 2 * cx ≤ phys es di) :
    Copied (phys es di) (2 * cx) (fun i => mem (phys ds si + i)) mem
      (repMovsw ds es cx si di mem) := by
  induction cx generalizing si di mem with
  | zero => exact .zero
  | succ cx ih =>
    have hds : phys ds ((si + 1) % 2 ^ 16) = phys ds si + 1 := by simp only [phys]; omega
    have hes : phys es ((di + 1) % 2 ^ 16) = phys es di + 1 := by simp only [phys]; omega
    rw [repMovsw, hds, hes]
    have htwo : Copied (phys es di) 2 (fun i => mem (phys ds si + i)) mem _ := copied_two
    rw [show 2 * (cx + 1) = 2 + 2 * cx by omega]
    cases cx with
    | zero => exact htwo
    | succ cx =>
      have hds' : phys ds ((si + 2) % 2 ^ 16) = phys ds si + 2 := by simp only [phys]; omega
      have hes' : phys es ((di + 2) % 2 ^ 16) = phys es di + 2 := by simp only [phys]; omega
      have hrest := fun mem => ih ((si + 2) % 2 ^ 16) ((di + 2) % 2 ^ 16) mem (by omega) (by omega)
        (by rw [hds', hes']; omega)
      rw [hds', hes'] at hrest
      refine htwo.extend ((hrest _).congr fun i hi => ?_)
      rw [Nat.add_assoc]
      exact htwo.frame _ (by omega)

/-! ## The invariant -/

variable {bios : Bios} {f : Floppy} {mem : Memory} {m : Machine} {reads : Prop} {k ax : ℕ}

/-- What has been loaded stays. -/
theorem Bios.Keeps.holds (hb : bios.Keeps f) {q : Request} (hq : q.Legal f) {dst n calls : ℕ}
    {src : ℕ → Byte} (h : Holds mem dst n src) (hres : ∀ a, dst ≤ a → a < dst + n → Reserved a)
    (hdisj : dst + n ≤ q.buffer ∨ q.buffer + 512 * q.al ≤ dst) :
    Holds (bios.read calls q mem).2 dst n src := fun i hi =>
  (hb.frame calls q mem hq _ (hres _ (by omega) (by omega)) (by omega)).trans (h i hi)

/-- The system on the disk. -/
def image (f : Floppy) (i : ℕ) : Byte := f.content (512 * (1 + setupLen) + i)

/-- In `load_setup`. -/
structure Setup (m : Machine) : Prop where
  sread : m.sread = 1 + setupLen
  head : m.head = 0
  track : m.track = 0

/-- In `read_it`, when `k` sectors of the system are loaded, or would be if the BIOS had read what
    is on the disk (`reads`). -/
structure Loaded (f : Floppy) (reads : Prop) (k : ℕ) (m : Machine) : Prop where
  sectors : m.sectors = f.sectors
  head : m.head < 2
  sread : m.sread < f.sectors
  place : (2 * m.track + m.head) * f.sectors + m.sread = 1 + setupLen + k
  segment : m.es % 0x1000 = 0
  bx_lt : m.bx < 0x10000
  addr : phys m.es m.bx = 0x10000 + 512 * k
  le : k ≤ 384
  setup : reads → Holds m.mem 0x90200 (512 * setupLen) fun i => f.content (512 + i)
  holds : reads → Holds m.mem 0x10000 (512 * k) (image f)

/-- A number of sectors that may be read at once. -/
structure Chunk (f : Floppy) (m : Machine) (ax : ℕ) : Prop where
  pos : 0 < ax
  track : m.sread + ax ≤ f.sectors
  dma : m.bx + 512 * ax ≤ 0x10000
  es_lt : m.es < endSeg

/-- The invariant of the boot sector. -/
inductive Stage (f : Floppy) (reads : Prop) (m : Machine) : Prop
  | setup (hl : m.label = .loadSetup) (h : Setup m)
  | read (k : ℕ) (hl : m.label = .rpRead) (h : Loaded f reads k m)
  | track (k ax : ℕ) (hl : m.label = .readTrack ax) (h : Loaded f reads k m) (hc : Chunk f m ax)
  | done (hl : m.label = .done) (h : Loaded f reads 384 m)

/-- The next piece of the system goes up to the end of the track, or to the next boundary of
    64 KB. -/
theorem Loaded.chunk (h : Loaded f reads k m) (hes : m.es < endSeg) : Chunk f m m.ok1Read := by
  have hlt := f.sectors_lt
  have hbx : m.bx % 512 = 0 := by
    have ha := h.addr
    have hs := h.segment
    simp only [phys] at ha
    omega
  have hs := h.sread
  have hb := h.bx_lt
  have hax : (m.sectors + 2 ^ 16 - m.sread) % 2 ^ 16 = f.sectors - m.sread := by
    rw [h.sectors]
    omega
  have hcx : (f.sectors - m.sread) * 2 ^ 9 % 2 ^ 16 = 512 * (f.sectors - m.sread) := by omega
  rw [Machine.ok1Read, hax]
  simp only [hcx]
  -- up to the end of the track, unless this crosses a boundary
  split_ifs with hc hz
  · exact ⟨by omega, by omega, by omega, hes⟩
  · exact ⟨by omega, by omega, by omega, hes⟩
  · exact ⟨by omega, by omega, by omega, hes⟩

/-- The sector of the disk at which the next read starts. -/
theorem Loaded.track_lt (h : Loaded f reads k m) (hk : k < 384) : m.track < f.tracks := by
  have hsize := f.size_le
  have hplace := h.place
  have hlt : (2 * m.track + m.head) * f.sectors < 2 * f.tracks * f.sectors := by
    simp only [setupLen, sysSize] at hplace hsize
    omega
  have := Nat.lt_of_mul_lt_mul_right hlt
  omega

theorem Loaded.add_le (h : Loaded f reads k m) (hc : Chunk f m ax) : k + ax ≤ 384 := by
  have ha := h.addr
  have hs := h.segment
  have hes := hc.es_lt
  have hdma := hc.dma
  simp only [phys, endSeg, sysSeg, sysSize] at ha hes
  omega

theorem request_dh {h : ℕ} (hh : h < 2) : (h % 256 * 256 &&& 0x0100) = h * 256 := by
  rcases show h = 0 ∨ h = 1 by omega with rfl | rfl <;> rfl

/-- The read of such a piece is legal. -/
theorem Loaded.legal (h : Loaded f reads k m) (hc : Chunk f m ax) : (m.request ax).Legal f := by
  have hlt := f.sectors_lt
  have ht := h.track_lt (by have := h.add_le hc; have := hc.pos; omega)
  have htl := f.tracks_le
  have htrack := hc.track
  have hpos := hc.pos
  have hdma := hc.dma
  have hhead := h.head
  have hs := h.segment
  have hdh := request_dh hhead
  refine ⟨?_, ?_, ?_, ?_, ?_, ?_, ?_⟩
  all_goals simp only [Machine.request, Request.buffer, phys, hdh]
  all_goals omega

/-- It reads the sectors that come next, behind those that are loaded. -/
theorem Loaded.request_eq (h : Loaded f reads k m) (hc : Chunk f m ax) :
    (m.request ax).al = ax ∧ (m.request ax).buffer = 0x10000 + 512 * k ∧
      (m.request ax).lba f = 1 + setupLen + k := by
  have hlt := f.sectors_lt
  have ht := h.track_lt (by have := h.add_le hc; have := hc.pos; omega)
  have htl := f.tracks_le
  have htrack := hc.track
  have hhead := h.head
  have hdh := request_dh hhead
  refine ⟨by simp only [Machine.request]; omega, h.addr, ?_⟩
  have hch : m.track % 256 = m.track := by omega
  have hcl : (m.sread + 1) % 2 ^ 16 % 256 - 1 = m.sread := by omega
  simp only [Request.lba, Machine.request, hdh, hch, hcl, Nat.mul_div_cancel _ (Nat.zero_lt_succ _)]
  exact h.place

/-- The read of `setup` is legal. -/
theorem setupRequest_legal (f : Floppy) : setupRequest.Legal f := by
  have hgt := f.sectors_gt
  have hsize := f.size_le
  have htracks : 0 < f.tracks := by
    by_contra h0
    rw [Nat.eq_zero_of_not_pos h0] at hsize
    simp only [setupLen, sysSize] at hsize
    omega
  simp only [setupLen] at hgt
  refine ⟨?_, ?_, ?_, ?_, ?_, ?_, ?_⟩
  all_goals simp only [setupRequest, Request.buffer, phys, initSeg]
  all_goals omega

/-! ## The steps -/

/-- A read of `setup` changes no variables. -/
theorem Setup.call (h : Setup m) : Setup (m.call bios setupRequest).2 :=
  ⟨h.sread, h.head, h.track⟩

/-- When the read of `setup` has succeeded, `read_it` starts. -/
theorem Setup.loaded (h : Setup m) (hb : bios.Keeps f) (hreads : reads → bios.Reads f)
    (hcf : (m.call bios setupRequest).1 = false) :
    Loaded f reads 0 { (m.call bios setupRequest).2 with
      sectors := bios.parameters % 256, es := sysSeg, label := .rpRead, bx := 0 } := by
  have hgt := f.sectors_gt
  have hlt := f.sectors_lt
  have hs := @Setup.call bios m h
  refine ⟨?_, ?_, ?_, ?_, (by decide : sysSeg % 0x1000 = 0), Nat.zero_lt_succ _,
    (by decide : phys sysSeg 0 = 0x10000 + 512 * 0), Nat.zero_le _, fun hr => ?_,
    fun _ i hi => absurd hi (Nat.not_lt_zero _)⟩
  · rw [hb.parameters]
    exact Nat.mod_eq_of_lt (by omega)
  · exact hs.head.trans_lt (by decide)
  · exact hs.sread.trans_lt hgt
  · simp only [hs.track, hs.head, hs.sread, Nat.mul_zero, Nat.add_zero, Nat.zero_mul, Nat.zero_add]
  · refine (hreads hr _ _ _ (setupRequest_legal f) hcf).congr fun i _ => ?_
    rw [show setupRequest.lba f = 1 by simp only [Request.lba, setupRequest]; omega]

/-- A failed read has spoilt only the place of the next piece. -/
theorem Loaded.call (h : Loaded f reads k m) (hc : Chunk f m ax) (hb : bios.Keeps f) :
    Loaded f reads k (m.call bios (m.request ax)).2 := by
  have hlegal := h.legal hc
  have hadd := h.add_le hc
  have hle := h.le
  obtain ⟨hal, hbuf, -⟩ := h.request_eq hc
  refine ⟨h.sectors, h.head, h.sread, h.place, h.segment, h.bx_lt, h.addr, h.le,
    fun hr => hb.holds hlegal (h.setup hr) (fun a h₁ h₂ => .inr ?_) (.inr ?_),
    fun hr => hb.holds hlegal (h.holds hr) (fun a h₁ h₂ => .inl ?_) (.inl ?_)⟩
  · simp only [setupLen] at h₂
    omega
  · rw [hal, hbuf]
    omega
  · omega
  · rw [hbuf]

/-- A read that has succeeded has brought the next piece. -/
theorem Loaded.holds_call (h : Loaded f reads k m) (hc : Chunk f m ax) (hb : bios.Keeps f)
    (hreads : reads → bios.Reads f) (hcf : (m.call bios (m.request ax)).1 = false) (hr : reads) :
    Holds (m.call bios (m.request ax)).2.mem 0x10000 (512 * (k + ax)) (image f) := by
  have hread := hreads hr m.calls _ m.mem (h.legal hc) hcf
  obtain ⟨hal, hbuf, hlba⟩ := h.request_eq hc
  rw [hal, hbuf, hlba] at hread
  have hpiece : Holds (m.call bios (m.request ax)).2.mem (0x10000 + 512 * k) (512 * ax)
      fun i => image f (512 * k + i) := hread.congr fun i _ => by
    rw [image, ← Nat.add_assoc, ← Nat.mul_add]
  rw [Nat.mul_add]
  exact ((h.call hc hb).holds hr).append hpiece

section Ok3Read

variable {cx : ℕ}

@[simp] theorem ok3Read_label : (m.ok3Read ax cx).label = .rpRead := by
  rw [Machine.ok3Read]; split_ifs <;> rfl

@[simp] theorem ok3Read_mem : (m.ok3Read ax cx).mem = m.mem := by
  rw [Machine.ok3Read]; split_ifs <;> rfl

@[simp] theorem ok3Read_sectors : (m.ok3Read ax cx).sectors = m.sectors := by
  rw [Machine.ok3Read]; split_ifs <;> rfl

@[simp] theorem ok3Read_sread : (m.ok3Read ax cx).sread = ax := by
  rw [Machine.ok3Read]; split_ifs <;> rfl

@[simp] theorem ok3Read_head : (m.ok3Read ax cx).head = m.head := by
  rw [Machine.ok3Read]; split_ifs <;> rfl

@[simp] theorem ok3Read_track : (m.ok3Read ax cx).track = m.track := by
  rw [Machine.ok3Read]; split_ifs <;> rfl

/-- The place in memory after `cx` sectors. -/
theorem phys_ok3Read (hes : m.es < endSeg) (hseg : m.es % 0x1000 = 0) (hcx : cx < 128)
    (hdma : m.bx + 512 * cx ≤ 0x10000) :
    phys (m.ok3Read ax cx).es (m.ok3Read ax cx).bx = phys m.es m.bx + 512 * cx ∧
      (m.ok3Read ax cx).es % 0x1000 = 0 ∧ (m.ok3Read ax cx).bx < 0x10000 := by
  have hshift : cx * 2 ^ 9 % 2 ^ 16 = 512 * cx := by omega
  simp only [endSeg, sysSeg, sysSize] at hes
  rw [Machine.ok3Read, hshift]
  split_ifs with hc <;> simp only [phys]
  · omega
  · omega

end Ok3Read

/-- What `ok2_read` does. -/
theorem ok2Read_cases (m : Machine) (ax : ℕ) :
    ∃ track head sread, m.ok2Read ax = { m with track := track, head := head }.ok3Read sread ax ∧
      ((ax + m.sread) % 2 ^ 16 ≠ m.sectors ∧ track = m.track ∧ head = m.head ∧
          sread = (ax + m.sread) % 2 ^ 16 ∨
        (ax + m.sread) % 2 ^ 16 = m.sectors ∧ head = (1 + 2 ^ 16 - m.head) % 2 ^ 16 ∧ sread = 0 ∧
          track = if head = 0 then (m.track + 1) % 2 ^ 16 else m.track) := by
  rw [Machine.ok2Read]
  dsimp only
  split_ifs with hend hhead
  · exact ⟨_, _, _, rfl, .inr ⟨hend, rfl, rfl, (if_pos hhead).symm⟩⟩
  · exact ⟨m.track, _, _, rfl, .inr ⟨hend, rfl, rfl, (if_neg hhead).symm⟩⟩
  · exact ⟨_, _, _, rfl, .inl ⟨hend, rfl, rfl, rfl⟩⟩

/-- The place on the disk after a piece: on the same track, or at the start of the other side, or
    of the next track. -/
theorem Loaded.place_ok2Read (h : Loaded f reads k m) (hc : Chunk f m ax) :
    (2 * (m.ok2Read ax).track + (m.ok2Read ax).head) * f.sectors + (m.ok2Read ax).sread =
        1 + setupLen + (k + ax) ∧
      (m.ok2Read ax).head < 2 ∧ (m.ok2Read ax).sread < f.sectors := by
  have hlt := f.sectors_lt
  have ht := h.track_lt (by have := h.add_le hc; have := hc.pos; omega)
  have htl := f.tracks_le
  have htrack := hc.track
  have hplace := h.place
  have hhead := h.head
  have hsum : (ax + m.sread) % 2 ^ 16 = ax + m.sread := by omega
  obtain ⟨track, head, sread, heq, hcase⟩ := ok2Read_cases m ax
  rw [heq, ok3Read_track, ok3Read_head, ok3Read_sread]
  dsimp only
  rw [hsum, h.sectors] at hcase
  rcases hcase with ⟨hend, rfl, rfl, rfl⟩ | ⟨hend, hhd, rfl, htr⟩
  · exact ⟨by omega, hhead, by omega⟩
  · -- the end of the track: one more side of the disk is done
    have hside : 2 * track + head = 2 * m.track + m.head + 1 ∧ head < 2 := by
      split_ifs at htr <;> omega
    have hsucc : (2 * m.track + m.head + 1) * f.sectors =
        (2 * m.track + m.head) * f.sectors + f.sectors := Nat.succ_mul _ _
    exact ⟨by rw [hside.1, hsucc]; omega, hside.2, h.sread.pos⟩

/-- The place in memory after a piece. -/
theorem Loaded.addr_ok2Read (h : Loaded f reads k m) (hc : Chunk f m ax) :
    phys (m.ok2Read ax).es (m.ok2Read ax).bx = 0x10000 + 512 * (k + ax) ∧
      (m.ok2Read ax).es % 0x1000 = 0 ∧ (m.ok2Read ax).bx < 0x10000 := by
  have hcx : ax < 128 := by
    have := hc.track
    have := f.sectors_lt
    omega
  obtain ⟨track, head, sread, heq, -⟩ := ok2Read_cases m ax
  rw [heq, Nat.mul_add, ← Nat.add_assoc, ← h.addr]
  exact phys_ok3Read hc.es_lt h.segment hcx hc.dma

theorem ok2Read_rest (m : Machine) (ax : ℕ) : (m.ok2Read ax).mem = m.mem ∧
    (m.ok2Read ax).sectors = m.sectors ∧ (m.ok2Read ax).label = .rpRead := by
  obtain ⟨track, head, sread, heq, -⟩ := ok2Read_cases m ax
  rw [heq, ok3Read_mem, ok3Read_sectors, ok3Read_label]
  exact ⟨rfl, rfl, rfl⟩

/-- After a piece of `ax` sectors, `k + ax` sectors are loaded. -/
theorem Loaded.ok2Read (h : Loaded f reads k m) (hc : Chunk f m ax)
    (hholds : reads → Holds m.mem 0x10000 (512 * (k + ax)) (image f)) :
    Loaded f reads (k + ax) (m.ok2Read ax) := by
  obtain ⟨hplace, hhead, hsread⟩ := h.place_ok2Read hc
  obtain ⟨haddr, hseg, hbx⟩ := h.addr_ok2Read hc
  obtain ⟨hmem, hsec, -⟩ := ok2Read_rest m ax
  exact ⟨hsec.trans h.sectors, hhead, hsread, hplace, hseg, hbx, haddr, h.add_le hc,
    hmem ▸ h.setup, hmem ▸ hholds⟩

/-- Every step keeps the invariant. -/
theorem Stage.step (h : Stage f reads m) (hb : bios.Keeps f) (hreads : reads → bios.Reads f) :
    Stage f reads (step bios m) := by
  rw [Boot.step]
  cases h with
  | setup hl h =>
    simp only [hl]
    split_ifs with hcf hseg
    · exact .setup hl h.call
    · exact .read 0 rfl (h.loaded hb hreads (Bool.eq_false_iff.2 hcf))
    · exact absurd (by decide) hseg
  | read k hl h =>
    simp only [hl]
    split_ifs with hes
    · exact .track k _ rfl { h with } { h.chunk hes with }
    · have hk : k = 384 := by
        have ha := h.addr
        have hs := h.segment
        have hle := h.le
        have hb := h.bx_lt
        simp only [phys, endSeg, sysSeg, sysSize] at ha hes
        omega
      exact .done rfl { hk ▸ h with }
  | track k ax hl h hc =>
    simp only [hl]
    split_ifs with hcf
    · exact .track k ax hl (h.call hc hb) { hc with }
    · have hc' : Chunk f (m.call bios (m.request ax)).2 ax := { hc with }
      have hholds := h.holds_call hc hb hreads (Bool.eq_false_iff.2 hcf)
      exact .read (k + ax) (ok2Read_rest _ _).2.2 ((h.call hc hb).ok2Read hc' hholds)
  | done hl h =>
    simp only [hl]
    exact .done hl h

/-- `_start` moves the boot sector, and changes nothing else. -/
theorem start_moves (mem : Memory) :
    Copied 0x90000 512 (fun i => mem (0x7c00 + i)) mem (start mem).mem := by
  have hcopy := copied_repMovsw 0x07c0 initSeg 256 0 0 mem (by norm_num)
    (by norm_num) (.inr (by decide))
  have hmem : (start mem).mem = repMovsw 0x07c0 initSeg 256 0 0 mem := by simp only [start]
  rwa [← hmem, (by decide : phys initSeg 0 = 0x90000),
    (by decide : phys 0x07c0 0 = 0x7c00)] at hcopy

theorem stage_run (hb : bios.Keeps f) (hreads : reads → bios.Reads f) (mem : Memory) (n : ℕ) :
    Stage f reads (run bios mem n) := by
  induction n with
  | zero => exact .setup rfl ⟨rfl, rfl, rfl⟩
  | succ n ih =>
    rw [run, Function.iterate_succ_apply']
    exact ih.step hb hreads

theorem Stage.legal (h : Stage f reads m) {q : Request} (hq : m.pending = some q) : q.Legal f := by
  rw [Machine.pending] at hq
  cases h with
  | setup hl h =>
    simp only [hl, Option.some.injEq] at hq
    exact hq ▸ setupRequest_legal f
  | read k hl h => simp [hl] at hq
  | track k ax hl h hc =>
    simp only [hl, Option.some.injEq] at hq
    exact hq ▸ h.legal hc
  | done hl h => simp [hl] at hq

/-- Along every run of the boot sector, whatever the BIOS answers, each read of the disk stays
    within a track and never crosses a boundary of 64 KB. -/
theorem request_legal (hb : bios.Keeps f) {n : ℕ} {q : Request}
    (hq : (run bios mem n).pending = some q) : q.Legal f :=
  (stage_run hb False.elim mem n).legal hq

/-- A disk with 18 sectors on a track. -/
def floppy : Floppy where
  sectors := 18
  tracks := 80
  content i := BitVec.ofNat 8 i
  sectors_gt := by decide
  sectors_lt := by decide
  tracks_le := by decide
  size_le := by decide

/-- A BIOS of which every third call fails. -/
def flakyBios : Bios where
  read k q mem :=
    if k % 3 = 0 then (true, mem)
    else (false, fun a =>
      if q.buffer ≤ a ∧ a < q.buffer + 512 * q.al then
        floppy.content (512 * q.lba floppy + (a - q.buffer))
      else mem a)
  parameters := 18

theorem flakyBios_serves : flakyBios.Serves floppy where
  frame k q mem _ a _ ha := by
    simp only [flakyBios]
    split_ifs with hk
    · rfl
    · exact if_neg (by omega)
  reads k q mem _ hcf i hi := by
    simp only [flakyBios] at hcf ⊢
    split_ifs at hcf ⊢ with hk
    exact (if_pos ⟨by omega, by omega⟩).trans (by rw [Nat.add_sub_cancel_left])
  recovers k := by
    refine ⟨if k % 3 = 0 then 1 else 0, fun q mem _ => ?_⟩
    simp only [flakyBios]
    split_ifs with hk hk' <;> first | rfl | omega
  parameters := rfl

/-- The memory when the BIOS has loaded the boot sector. -/
def coldMemory : Memory := fun a => floppy.content (a - 0x7c00)

/-- The second read of the system, after a read of `setup` that failed and one that succeeded: a
    whole track, with the other head. -/
theorem request_legal_flaky : ∃ q, (run flakyBios coldMemory 5).pending = some q ∧ q.al = 18 ∧
    q.dh = 1 ∧ q.bx = 512 * 13 ∧ q.Legal floppy :=
  ⟨_, rfl, rfl, rfl, rfl,
    @request_legal flakyBios floppy coldMemory flakyBios_serves.toKeeps 5 _ rfl⟩

/-! ## The end of the run -/

/-- `setup` is loaded, when the BIOS succeeds. -/
theorem Setup.ends (h : Setup m) (hl : m.label = .loadSetup) (hb : bios.Serves f) :
    ∃ n, ((Boot.step bios)^[n] m).label = .rpRead := by
  obtain ⟨j, hj⟩ := hb.recovers m.calls
  refine Transition.exists_of_retries (A := fun m => Setup m ∧ m.label = .loadSetup)
    (B := fun m => m.label = .rpRead) (c := Machine.calls)
    (G := fun k => ∀ q mem, q.Legal f → (bios.read k q mem).1 = false) ?_ ?_ j ⟨h, hl⟩ hj
  · rintro m ⟨h, hl⟩
    rw [Boot.step]
    simp only [hl]
    split_ifs with hcf hseg
    · exact .inl ⟨⟨h.call, hl⟩, rfl⟩
    · exact .inr rfl
    · exact absurd (by decide) hseg
  · rintro m ⟨h, hl⟩ hgood
    rw [Boot.step]
    simp only [hl]
    have hcf : (m.call bios setupRequest).1 = false := hgood _ _ (setupRequest_legal f)
    rw [hcf]
    rfl

/-- The next piece is loaded, when the BIOS succeeds. -/
theorem Loaded.advances (h : Loaded f reads k m) (hl : m.label = .rpRead) (hk : k < 384)
    (hb : bios.Serves f) :
    ∃ n k', k < k' ∧ Loaded f reads k' ((Boot.step bios)^[n] m) ∧
      ((Boot.step bios)^[n] m).label = .rpRead := by
  have hes : m.es < endSeg := by
    have ha := h.addr
    have hs := h.segment
    have hbx := h.bx_lt
    simp only [phys, endSeg, sysSeg, sysSize] at ha ⊢
    omega
  have hc := h.chunk hes
  have hstep : Boot.step bios m = { m with label := .readTrack m.ok1Read } := by
    rw [Boot.step]
    simp only [hl, if_pos hes]
  obtain ⟨j, hj⟩ := hb.recovers m.calls
  have hreads := Transition.exists_of_retries (f := Boot.step bios)
    (A := fun s => Loaded f reads k s ∧ Chunk f s m.ok1Read ∧ s.label = .readTrack m.ok1Read)
    (B := fun s => Loaded f reads (k + m.ok1Read) s ∧ s.label = .rpRead) (c := Machine.calls)
    (G := fun k => ∀ q mem, q.Legal f → (bios.read k q mem).1 = false) ?_ ?_ j
    (s := Boot.step bios m) (by rw [hstep]; exact ⟨{ h with }, { hc with }, rfl⟩)
    (by rw [hstep]; exact hj)
  · obtain ⟨n, hn⟩ := hreads
    exact ⟨n + 1, k + m.ok1Read, Nat.lt_add_of_pos_right hc.pos, hn⟩
  · rintro s ⟨h, hc, hl⟩
    rw [Boot.step]
    simp only [hl]
    split_ifs with hcf
    · exact .inl ⟨⟨h.call hc hb.toKeeps, { hc with }, hl⟩, rfl⟩
    · have hholds := h.holds_call hc hb.toKeeps (fun _ => hb.reads) (Bool.eq_false_iff.2 hcf)
      exact .inr ⟨(h.call hc hb.toKeeps).ok2Read { hc with } hholds, (ok2Read_rest _ _).2.2⟩
  · rintro s ⟨h, hc, hl⟩ hgood
    have hcf : (s.call bios (s.request m.ok1Read)).1 = false := hgood _ _ (h.legal hc)
    rw [Boot.step]
    simp only [hl, hcf, Bool.false_eq_true, if_false]
    exact ⟨(h.call hc hb.toKeeps).ok2Read { hc with }
      (h.holds_call hc hb.toKeeps (fun _ => hb.reads) hcf), (ok2Read_rest _ _).2.2⟩

/-- `read_it` returns. -/
theorem Loaded.ends (h : Loaded f reads k m) (hl : m.label = .rpRead) (hb : bios.Serves f) :
    ∃ n, ((Boot.step bios)^[n] m).label = .done := by
  -- the number of sectors that are left decreases with every piece
  induction hr : 384 - k using Nat.strong_induction_on generalizing k m with
  | _ r ih =>
    by_cases hk : k < 384
    · obtain ⟨n, k', hlt, h', hl'⟩ := h.advances hl hk hb
      obtain ⟨n', hn'⟩ := ih (384 - k') (by omega) h' hl' rfl
      exact ⟨n' + n, by rwa [Function.iterate_add_apply]⟩
    · refine ⟨1, ?_⟩
      have hes : ¬m.es < endSeg := by
        have ha := h.addr
        have hs := h.segment
        have hbx := h.bx_lt
        simp only [phys, endSeg, sysSeg, sysSize] at ha ⊢
        omega
      rw [Function.iterate_one, Boot.step]
      simp only [hl, if_neg hes]

/-- The boot sector jumps to `setup`, however often the BIOS fails in between. Then `setup` and the
    system are in memory in the order of the disk, at `0x90200` and `0x10000`. -/
theorem bootsect_loads (hb : bios.Serves f) (mem : Memory) :
    ∃ n, (run bios mem n).label = .done ∧
      (Holds (run bios mem n).mem 0x90200 (512 * setupLen) fun i => f.content (512 + i)) ∧
      Holds (run bios mem n).mem 0x10000 (16 * sysSize) (image f) := by
  have hstage := @stage_run bios f True hb.toKeeps (fun _ => hb.reads) mem
  obtain ⟨n, hn⟩ : ∃ n, (run bios mem n).label = .rpRead :=
    Setup.ends ⟨rfl, rfl, rfl⟩ rfl hb
  obtain ⟨n', hn'⟩ : ∃ n', (run bios mem (n' + n)).label = .done := by
    cases hstage n with
    | setup hl h => rw [hn] at hl; cases hl
    | read k hl h =>
      obtain ⟨n', hn'⟩ := h.ends hl hb
      exact ⟨n', by rwa [run, Function.iterate_add_apply]⟩
    | track k ax hl h hc => rw [hn] at hl; cases hl
    | done hl h => rw [hn] at hl; cases hl
  refine ⟨n' + n, hn', ?_⟩
  cases hstage (n' + n) with
  | setup hl h => rw [hn'] at hl; cases hl
  | read k hl h => rw [hn'] at hl; cases hl
  | track k ax hl h hc => rw [hn'] at hl; cases hl
  | done hl h => exact ⟨h.setup trivial, h.holds trivial⟩

end NeuOs.Boot
