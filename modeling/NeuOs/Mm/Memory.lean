import Mathlib.Logic.Function.Basic
import NeuOs.Mm.Entry

/-!
# Physical memory and page tables (`mm/memory.c`)

The memory manager as the source computes it. Its state (`Mm`) is the physical
memory, the array `mem_map` of one reference counter per page above 1 MB, and
`HIGH_MEMORY`. The page directory is at physical address 0 and the page tables
are pages of memory; the boot page tables map the first 16 MB of the linear
addresses onto themselves, so that the kernel follows a physical address by
loading from it.

Physical addresses are `Nat`s (all of them are below 16 MB), entries and
contents 32-bit words. A function that may reach a `panic` returns an
`Except Panic`: nothing runs after a panic.
-/

namespace NeuOs

/-- A byte of memory (`char`). -/
abbrev Byte := BitVec 8

/-- `LOW_MEM`: the kernel lives below 1 MB. -/
def lowMem : Nat := 0x100000

/-- `PAGING_MEMORY`: the 15 MB used for paging. -/
def pagingMemory : Nat := 15 * 1024 * 1024

/-- `PAGING_PAGES`: the number of pages with a counter in `mem_map`. -/
def pagingPages : Nat := pagingMemory >>> 12

/-- `MAP_NR(addr)`: the index in `mem_map` of the page at `addr`. -/
def mapNr (addr : Nat) : Nat := (addr - lowMem) >>> 12

/-- `USED`: the counter of a page outside the memory given to `mem_init`. -/
def used : Byte := 100

/-- The places where the kernel stops for good. -/
inductive Panic
  | freeFreePage
  | freeAlignment
  | freeSwapper
  | outOfMemory
  | copyAlignment
  | alreadyExists
  | segmentsDiffer
  | badDataLimit
  | releaseNonExistent
  | generalProtection
  deriving DecidableEq, Repr

/-- The text printed by the panic. -/
def Panic.message : Panic → String
  | .freeFreePage => "Trying to free free page!"
  | .freeAlignment => "free_page_tables called with wrong alignment"
  | .freeSwapper => "try to free up swapper memory space"
  | .outOfMemory => "Out of Memory!! QWQ\n"
  | .copyAlignment => "copy_page_tables called with wrong alignment"
  | .alreadyExists => "copy_page_tables: already exists"
  | .segmentsDiffer => "Codeseg not fully overlapped with dataseg"
  | .badDataLimit => "bad data limit"
  | .releaseNonExistent => "Trying to release non-existent task"
  | .generalProtection => "general protection"

/-- The state of the memory manager. -/
@[ext] structure Mm where
  /-- Physical memory, by the number of the 32-bit word. -/
  phys : Nat → Word
  /-- `mem_map`: how often each page above 1 MB is used. -/
  memMap : Nat → Byte
  /-- `HIGH_MEMORY`: the end of physical memory. -/
  highMemory : Nat

namespace Mm

/-- The 32-bit word at the (aligned) address `addr`. -/
def load (m : Mm) (addr : Nat) : Word := m.phys (addr / 4)

/-- Storing a 32-bit word at the (aligned) address `addr`. -/
def store (m : Mm) (addr : Nat) (v : Word) : Mm :=
  { m with phys := Function.update m.phys (addr / 4) v }

/-- Setting a counter of `mem_map`. -/
def setCount (m : Mm) (nr : Nat) (c : Byte) : Mm :=
  { m with memMap := Function.update m.memMap nr c }

/-! ## Initialisation -/

/-- The first loop of `mem_init`: every counter is `USED`. -/
def markUsed : Nat → (Nat → Byte) → Nat → Byte
  | 0, map => map
  | i + 1, map => Function.update (markUsed i map) i used

/-- The second loop of `mem_init`: the `n` counters from `i` on are free. -/
def markFree : (n i : Nat) → (Nat → Byte) → Nat → Byte
  | 0, _, map => map
  | n + 1, i, map => markFree n (i + 1) (Function.update map i 0)

/-- `mem_init`. -/
def memInit (m : Mm) (startMem endMem : Nat) : Mm :=
  { m with
    highMemory := endMem
    memMap := markFree ((endMem - startMem) >>> 12) (mapNr startMem)
      (markUsed pagingPages m.memMap) }

/-! ## Allocating and freeing pages -/

/-- `repne scasb` with the direction flag set and `al = 0`, on the bytes of
    `mem_map`: the registers `ecx` and `edi` (as an index) after it, and whether
    the byte it stopped at was found to be zero. -/
def repneScasb (map : Nat → Byte) : (ecx : Nat) → (edi : Int) → Nat × Int × Bool
  | 0, edi => (0, edi, false)
  | ecx + 1, edi =>
    if map edi.toNat = 0 then (ecx, edi - 1, true) else repneScasb map ecx (edi - 1)

/-- `rep stosl` with the direction flag set and `eax = 0`. -/
def repStosl : (ecx : Nat) → (edi : Nat) → Mm → Mm
  | 0, _, m => m
  | ecx + 1, edi, m => repStosl ecx (edi - 4) (m.store edi 0)

/-- `get_free_page`: the address of the page, or 0 if there is none. -/
def getFreePage (m : Mm) : Nat × Mm :=
  match repneScasb m.memMap pagingPages (pagingPages - 1) with
  | (_, _, false) => (0, m)
  | (ecx, edi, true) =>
    let m := m.setCount (edi + 1).toNat 1
    let page := (ecx <<< 12) + lowMem
    (page, repStosl 1024 (page + 4092) m)

/-- `free_page`. -/
def freePage (m : Mm) (addr : Nat) : Except Panic Mm :=
  if addr < lowMem then .ok m
  else if addr ≥ m.highMemory then .ok m
  else if m.memMap (mapNr addr) ≠ 0 then
    .ok (m.setCount (mapNr addr) (m.memMap (mapNr addr) - 1))
  else .error .freeFreePage

/-! ## Freeing page tables -/

/-- The inner loop of `free_page_tables`: freeing the `nr` entries from `pgTbl`
    on, and the pages they map. -/
def freeEntries : (nr : Nat) → (pgTbl : Nat) → Mm → Except Panic Mm
  | 0, _, m => .ok m
  | nr + 1, pgTbl, m => do
    let m ← if Present (m.load pgTbl) then m.freePage (pageOf (m.load pgTbl)) else .ok m
    freeEntries nr (pgTbl + 4) (m.store pgTbl 0)

/-- The outer loop of `free_page_tables`, over `size` directory entries. -/
def freeDirs : (size : Nat) → (pgDir : Nat) → Mm → Except Panic Mm
  | 0, _, m => .ok m
  | size + 1, pgDir, m =>
    if Present (m.load pgDir) then do
      let m ← freeEntries 1024 (pageOf (m.load pgDir)) m
      let m ← m.freePage (pageOf (m.load pgDir))
      freeDirs size (pgDir + 4) (m.store pgDir 0)
    else freeDirs size (pgDir + 4) m

/-- `(size + 0x3fffff) >> 22`: the number of directory entries of a range. -/
def dirCount (size : Nat) : Nat := ((size + 0x3fffff) % 2 ^ 32) >>> 22

/-- `(addr >> 20) & 0xffc`: the address of the directory entry of `addr`. -/
def dirEntry (addr : Nat) : Nat := (addr >>> 20) &&& 0xffc

/-- `free_page_tables`. -/
def freePageTables (m : Mm) (frm size : Nat) : Except Panic Mm :=
  if frm &&& 0x3fffff ≠ 0 then .error .freeAlignment
  else if frm = 0 then .error .freeSwapper
  else freeDirs (dirCount size) (dirEntry frm) m

/-! ## Mapping pages -/

/-- `put_page`: the page, or 0 if no page is left for a page table. (The two
    messages it may print change nothing.) -/
def putPage (m : Mm) (page address : Nat) : Nat × Mm :=
  let slot := 4 * ((address >>> 12) &&& 0x3ff)
  if Present (m.load (dirEntry address)) then
    (page, m.store (pageOf (m.load (dirEntry address)) + slot) (entryOf page))
  else
    match m.getFreePage with
    | (0, m) => (0, m)
    | (tmp, m) =>
      let m := m.store (dirEntry address) (entryOf tmp)
      (page, m.store (tmp + slot) (entryOf page))

/-- `get_empty_page`. -/
def getEmptyPage (m : Mm) (address : Nat) : Except Panic Mm :=
  match m.getFreePage with
  | (0, m) => do
    let _ ← m.freePage 0
    .error .outOfMemory
  | (tmp, m) =>
    match m.putPage tmp address with
    | (0, m) => do
      let _ ← m.freePage tmp
      .error .outOfMemory
    | (_, m) => .ok m

/-- `un_wp_page`, given the address of the page table entry. A page of its own
    is made writable; a shared page, or one of the kernel, is replaced by a new
    page. -/
def unWpPage (m : Mm) (tableEntry : Nat) : Except Panic Mm :=
  let oldPage := pageOf (m.load tableEntry)
  if oldPage ≥ lowMem ∧ m.memMap (mapNr oldPage) = 1 then
    .ok (m.store tableEntry (writeEnable (m.load tableEntry)))
  else
    match m.getFreePage with
    | (0, _) => .error .outOfMemory
    | (newPage, m) =>
      let m := if oldPage ≥ lowMem then
          m.setCount (mapNr oldPage) (m.memMap (mapNr oldPage) - 1)
        else m
      .ok (m.store tableEntry (entryOf newPage))

/-- `write_verify`. -/
def writeVerify (m : Mm) (address : Nat) : Except Panic Mm :=
  if ¬Present (m.load (dirEntry address)) then .ok m
  else
    let page := pageOf (m.load (dirEntry address)) + ((address >>> 10) &&& 0xffc)
    if m.load page &&& 3#32 = 1#32 then m.unWpPage page else .ok m

/-- `do_wp_page`: the fault of a write to a read-only page. -/
def doWpPage (m : Mm) (address : Nat) : Except Panic Mm :=
  m.unWpPage (((address >>> 10) &&& 0xffc) + pageOf (m.load (dirEntry address)))

/-- `do_no_page`: the fault of an access to an absent page. -/
def doNoPage (m : Mm) (address : Nat) : Except Panic Mm :=
  let address := address &&& 0xfffff000
  match m.getFreePage with
  | (0, _) => .error .outOfMemory
  | (page, m) =>
    match m.putPage page address with
    | (0, m) => do
      let _ ← m.freePage page
      .error .outOfMemory
    | (_, m) => .ok m

/-! ## Copying page tables -/

/-- One round of the inner loop of `copy_page_tables`: the child gets a present
    page read-only, and a page above 1 MB becomes read-only in the parent and is
    counted once more. -/
def copyEntry (fromPageTable toPageTable : Nat) (m : Mm) : Mm :=
  if Present (m.load fromPageTable) then
    let thisPage := readOnly (m.load fromPageTable)
    let m := m.store toPageTable thisPage
    if thisPage.toNat > lowMem then
      let m := m.store fromPageTable thisPage
      m.setCount (mapNr thisPage.toNat) (m.memMap (mapNr thisPage.toNat) + 1)
    else m
  else m

/-- The inner loop of `copy_page_tables`, over `nr` entries. -/
def copyEntries : (nr : Nat) → (fromPageTable toPageTable : Nat) → Mm → Mm
  | 0, _, _, m => m
  | nr + 1, fromPageTable, toPageTable, m =>
    copyEntries nr (fromPageTable + 4) (toPageTable + 4) (copyEntry fromPageTable toPageTable m)

/-- The outer loop of `copy_page_tables`, over `size` directory entries: 0, or
    -1 if no page is left for a page table. -/
def copyDirs (frm : Nat) : (size : Nat) → (fromDir toDir : Nat) → Mm → Except Panic (Int × Mm)
  | 0, _, _, m => .ok (0, m)
  | size + 1, fromDir, toDir, m =>
    if Present (m.load toDir) then .error .alreadyExists
    else if Present (m.load fromDir) then
      let fromPageTable := pageOf (m.load fromDir)
      match m.getFreePage with
      | (0, m) => .ok (-1, m)
      | (toPageTable, m) =>
        let m := m.store toDir (entryOf toPageTable)
        let nr := if frm = 0 then 0xA0 else 1024
        copyDirs frm size (fromDir + 4) (toDir + 4) (copyEntries nr fromPageTable toPageTable m)
    else copyDirs frm size (fromDir + 4) (toDir + 4) m

/-- `copy_page_tables`. -/
def copyPageTables (m : Mm) (frm dst size : Nat) : Except Panic (Int × Mm) :=
  if frm &&& 0x3fffff ≠ 0 ∨ dst &&& 0x3fffff ≠ 0 then .error .copyAlignment
  else copyDirs frm (dirCount size) (dirEntry frm) (dirEntry dst) m

end Mm

end NeuOs
