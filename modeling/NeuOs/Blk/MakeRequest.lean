import Mathlib.Data.Nat.Find
import NeuOs.Blk.Elevator
import NeuOs.Mm.Memory

/-!
# Making a request (kernel/blk_drv/request_scan_algo.c)

`make_request` locks the buffer, looks for a free entry in `req_tbl`, from the last one that
the command may use on, and fills it. `add_request` puts it into the queue then
(`Blk.addRequest`).

The loop that looks for an entry sets `available` at the entries that are *not* free. So it
runs for ever if the last entry is free, and it goes below the table if no entry is.
`makeRequest_iff` says exactly when `make_request` does what it is meant to do (`Legal`).
-/

namespace NeuOs

/-- `READ`, `WRITE`, `READA` and `WRITEA`. -/
inductive Rw
  | read
  | write
  | reada
  | writea
  deriving DecidableEq

namespace Rw

/-- `rw_ahead` -/
def ahead : Rw → Bool
  | read => false
  | write => false
  | reada => true
  | writea => true

/-- The command that is queued: `READ` (0) or `WRITE` (1). -/
def cmd : Rw → ℤ
  | read => 0
  | write => 1
  | reada => 0
  | writea => 1

/-- The number of entries that the command may use. -/
def bound (rw : Rw) : ℕ := if rw.cmd = 0 then NR_REQUEST else NR_REQUEST * 2 / 3

end Rw

/-- A `struct buffer_head`, without the dirty bit, which is in `Blk`, and the lists of buffers. -/
structure BufferHead where
  data : Word
  blocknr : Word
  dev : BitVec 16
  uptodate : Byte
  lock : Byte

/-- The fields of a `struct request` that `add_request` does not use. -/
structure RequestRest where
  errors : ℤ
  nrSectors : ℕ
  buffer : Word
  waiting : Option ℕ

/-- The requests and the buffers. -/
structure Disk where
  blk : Blk
  rest : ReqPtr → RequestRest
  bh : ℕ → BufferHead

/-- `req_tbl + n` -/
def reqAt (n : ℕ) : ReqPtr := ⟨n % NR_REQUEST, Nat.mod_lt n (by decide)⟩

/-- `req->dev` of an entry, by its index. -/
def Blk.devAt (s : Blk) (n : ℕ) : ℤ := (s.req (reqAt n)).dev

/-- `blk_dev_init` -/
def Blk.devInit (s : Blk) : Blk :=
  { s with req := fun i => { s.req i with dev := -1, next := none } }

/-- The inner loop of the search, with `req` at the entry `n`: the index of the entry at which it
    ends, or -1, and `available`. -/
def searchLoop (dev : ℕ → ℤ) : ℕ → Bool → ℤ × Bool
  | 0, available => (-1, available)
  | n + 1, available => if dev n < 0 then (n, available) else searchLoop dev n true

/-- How the search ends: at an entry, with `available` set; below the table, with `available` set;
    or below the table without it. -/
inductive Found
  | entry (i : ReqPtr)
  | below
  | full

/-- The outer loop of the search. A round that ends without `available` in the table changes
    nothing. -/
def search (bound : ℕ) (dev : ℕ → ℤ) : ℕ → Option Found
  | 0 => none
  | fuel + 1 =>
    let (req, available) := searchLoop dev bound false
    if available then some (if req < 0 then .below else .entry (reqAt req.toNat))
    else if req < 0 then some .full
    else search bound dev fuel

/-- What `make_request` does: it returns; it calls `add_request` with an entry; it fills an entry
    below the table, and nothing is known after that; or it sleeps until an entry is free. -/
inductive Made
  | returned (s : Disk)
  | added (i : ReqPtr) (s : Disk)
  | overrun
  | asleep (s : Disk)

namespace Disk

/-- Set `b_lock` of a buffer. -/
def setLock (s : Disk) (b : ℕ) (v : Byte) : Disk :=
  { s with bh := Function.update s.bh b { s.bh b with lock := v } }

/-- `lock_buffer`. If it sleeps, `woken` is the state in which it finds the buffer unlocked. -/
def lockBuffer (woken s : Disk) (b : ℕ) : Disk :=
  if (s.bh b).lock ≠ 0 then woken.setLock b 1 else s.setLock b 1

/-- `unlock_buffer` of a locked buffer. -/
def unlockBuffer (s : Disk) (b : ℕ) : Disk := s.setLock b 0

/-- The buffer has to be written, or read. -/
def needsIo (s : Disk) (rw : Rw) (b : ℕ) : Bool :=
  !((rw.cmd == 1 && s.blk.dirt b == 0) || (rw.cmd == 0 && (s.bh b).uptodate != 0))

/-- The entry that has been found is filled. -/
def fillRequest (s : Disk) (i : ReqPtr) (rw : Rw) (b : ℕ) : Disk :=
  { s with
    blk := s.blk.fill
      (i, ⟨((s.bh b).dev.toNat : ℤ), rw.cmd, ((s.bh b).blocknr <<< 1).toNat, some b, none⟩)
    rest := Function.update s.rest i ⟨0, 2, (s.bh b).data, none⟩ }

/-- The end of `make_request`, after the search. -/
def afterSearch (s : Disk) (rw : Rw) (b : ℕ) : Found → Made
  | .entry i => .added i (s.fillRequest i rw b)
  | .below => .overrun
  | .full => if rw.ahead then .returned (s.unlockBuffer b) else .asleep s

/-- `make_request` after `lock_buffer`, with at most `fuel` rounds of the search. -/
def requestLocked (s : Disk) (rw : Rw) (b fuel : ℕ) : Option Made :=
  if s.needsIo rw b then (search rw.bound s.blk.devAt fuel).map (s.afterSearch rw b)
  else some (.returned (s.unlockBuffer b))

/-- `make_request` -/
def makeRequest (woken s : Disk) (rw : Rw) (b fuel : ℕ) : Option Made :=
  if rw.ahead && (s.bh b).lock != 0 then some (.returned s)
  else (lockBuffer woken s b).requestLocked rw b fuel

/-! ## What it is meant to do -/

/-- No entry that the command may use is free. -/
def Full (s : Disk) (rw : Rw) : Prop := ∀ j, j < rw.bound → 0 ≤ s.blk.devAt j

/-- What is meant to be done with a locked buffer. The entry that is taken is one that the command
    may use, it has been free, and it is for the buffer now; the other entries stay, and the buffer
    stays locked. Without an entry, the buffer is unlocked; if it has to be read or written, the
    table is full, and only a command that does so ahead returns. Another one sleeps. -/
def LegalLocked (s : Disk) (rw : Rw) (b : ℕ) : Made → Prop
  | .returned s' => (s'.bh b).lock = 0 ∧ (s.needsIo rw b → rw.ahead ∧ s.Full rw)
  | .added i s' => (i : ℕ) < rw.bound ∧ (s.blk.req i).dev < 0 ∧ (s'.blk.req i).bh = some b ∧
      (∀ j, j ≠ i → s'.blk.req j = s.blk.req j ∧ s'.rest j = s.rest j) ∧ (s'.bh b).lock = 1
  | .overrun => False
  | .asleep _ => ¬rw.ahead ∧ s.Full rw

/-- What `make_request` is meant to do: to read or to write ahead, it does nothing with a buffer
    that another call has locked. -/
def Legal (woken s : Disk) (rw : Rw) (b : ℕ) (m : Made) : Prop :=
  (rw.ahead ∧ (s.bh b).lock ≠ 0 ∧ m = .returned s) ∨ (lockBuffer woken s b).LegalLocked rw b m

end Disk

/-! ## The search -/

variable {dev : ℕ → ℤ} {n j : ℕ} {available : Bool}

/-- Without a free entry, the loop ends below the table. -/
theorem searchLoop_full (h : ∀ j, j < n → 0 ≤ dev j) (hn : n ≠ 0) :
    searchLoop dev n available = (-1, true) := by
  induction n generalizing available with
  | zero => exact absurd rfl hn
  | succ n ih =>
    rw [searchLoop, if_neg (not_lt.2 (h n (Nat.lt_succ_self n)))]
    by_cases h0 : n = 0
    · rw [h0]
      rfl
    · exact ih (fun j hj => h j (Nat.lt_succ_of_lt hj)) h0

/-- The loop ends at the last free entry, and `available` says that there are others after it. -/
theorem searchLoop_free (hfree : dev j < 0) (hj : j < n) (h : ∀ i, j < i → i < n → 0 ≤ dev i) :
    searchLoop dev n available = ((j : ℤ), available || decide (j + 1 ≠ n)) := by
  induction n generalizing available with
  | zero => exact absurd hj (Nat.not_lt_zero j)
  | succ n ih =>
    rw [searchLoop]
    by_cases heq : j = n
    · subst heq
      have hself : decide (j + 1 ≠ j + 1) = false := decide_eq_false (not_not.2 rfl)
      rw [if_pos hfree, hself, Bool.or_false]
    · have hlt : j < n := by omega
      have hother : decide (j + 1 ≠ n + 1) = true := decide_eq_true (by omega)
      rw [if_neg (not_lt.2 (h n hlt (Nat.lt_succ_self n))),
        ih hlt fun i hi hin => h i hi (Nat.lt_succ_of_lt hin), hother, Bool.true_or, Bool.or_true]

theorem exists_last_free (h : ∃ j, j < n ∧ dev j < 0) :
    ∃ j, j < n ∧ dev j < 0 ∧ ∀ i, j < i → i < n → 0 ≤ dev i := by
  obtain ⟨j, hj, hfree⟩ := h
  have hle : j ≤ n - 1 := Nat.le_sub_one_of_lt hj
  have hlast := Nat.findGreatest_le (P := fun i => dev i < 0) (n - 1)
  refine ⟨Nat.findGreatest (fun i => dev i < 0) (n - 1), by omega,
    Nat.findGreatest_spec (P := fun i => dev i < 0) hle hfree, fun i hi hin => ?_⟩
  exact not_lt.1 (Nat.findGreatest_is_greatest hi (Nat.le_sub_one_of_lt hin))

/-- If the last entry is free, no round of the search ends it. -/
theorem search_last_free (hfree : dev n < 0) (fuel : ℕ) : search (n + 1) dev fuel = none := by
  have hround : searchLoop dev (n + 1) false = ((n : ℤ), false) := by rw [searchLoop, if_pos hfree]
  induction fuel with
  | zero => rfl
  | succ fuel ih =>
    rw [search, hround]
    dsimp only
    -- neither test ends the round: the entry is in the table, and `available` is not set
    rw [if_neg Bool.false_ne_true, if_neg (by omega)]
    exact ih

/-- If no entry is free, the search takes one below the table. -/
theorem search_full (h : ∀ j, j < n → 0 ≤ dev j) (hn : n ≠ 0) (fuel : ℕ) :
    search n dev (fuel + 1) = some .below := by
  rw [search, searchLoop_full h hn]
  rfl

/-- If the last entry is not free, the search finds the last one that is. -/
theorem search_free (hj : j + 1 < n) (hfree : dev j < 0) (h : ∀ i, j < i → i < n → 0 ≤ dev i)
    (fuel : ℕ) : search n dev (fuel + 1) = some (.entry (reqAt j)) := by
  have hmore : decide (j + 1 ≠ n) = true := decide_eq_true (by omega)
  rw [search, searchLoop_free hfree (by omega) h, hmore, Bool.false_or]
  dsimp only
  rw [if_pos rfl, if_neg (by omega), Int.toNat_natCast]

namespace Disk

variable {woken s : Disk} {rw : Rw} {b : ℕ}

theorem bound_spec (rw : Rw) : 1 < rw.bound ∧ rw.bound ≤ NR_REQUEST := by
  cases rw <;> decide

theorem lock_setLock (v : Byte) : ((s.setLock b v).bh b).lock = v := by
  have hself : (s.setLock b v).bh b = { s.bh b with lock := v } := Function.update_self _ _ _
  rw [hself]

theorem lock_lockBuffer : ((lockBuffer woken s b).bh b).lock = 1 := by
  rw [lockBuffer]
  split_ifs <;> exact lock_setLock 1

/-- The search finds a free entry exactly if the last entry is not free, but another one is. -/
theorem requestLocked_iff (hlock : (s.bh b).lock = 1) (hneeds : s.needsIo rw b) :
    (∃ m, (∀ n, s.requestLocked rw b (n + 1) = some m) ∧ s.LegalLocked rw b m) ↔
      0 ≤ s.blk.devAt (rw.bound - 1) ∧ ∃ j, j < rw.bound ∧ s.blk.devAt j < 0 := by
  obtain ⟨hone, hmax⟩ := bound_spec rw
  simp only [requestLocked, if_pos hneeds]
  by_cases hlast : s.blk.devAt (rw.bound - 1) < 0
  · -- the search does not end
    obtain ⟨k, hk⟩ : ∃ k, rw.bound = k + 1 := ⟨rw.bound - 1, by omega⟩
    rw [hk, Nat.add_sub_cancel] at hlast ⊢
    refine iff_of_false ?_ fun h => absurd hlast (not_lt.2 h.1)
    rintro ⟨m, hm, -⟩
    have h0 := hm 0
    rw [search_last_free hlast] at h0
    cases h0
  by_cases hany : ∃ j, j < rw.bound ∧ s.blk.devAt j < 0
  · obtain ⟨j, hj, hfree, hrest⟩ := exists_last_free hany
    have hne : j ≠ rw.bound - 1 := by
      rintro rfl
      exact hlast hfree
    have hlt : j < NR_REQUEST := lt_of_lt_of_le hj hmax
    have hval : (reqAt j : ℕ) = j := Nat.mod_eq_of_lt hlt
    refine iff_of_true ⟨.added _ (s.fillRequest (reqAt j) rw b), fun n => ?_, ?_,
      hfree, ?_, ?_, hlock⟩ ⟨not_lt.1 hlast, hany⟩
    · rw [search_free (by omega) hfree hrest]
      rfl
    · rw [hval]
      exact hj
    · have hself : (s.fillRequest (reqAt j) rw b).blk.req (reqAt j) = _ :=
        Function.update_self _ _ _
      rw [hself]
    · exact fun i hi => ⟨Function.update_of_ne hi _ _, Function.update_of_ne hi _ _⟩
  · refine iff_of_false ?_ fun h => hany h.2
    rintro ⟨m, hm, hlegal⟩
    have h0 := hm 0
    rw [search_full (fun j hj => not_lt.1 fun hfree => hany ⟨j, hj, hfree⟩) (by omega)] at h0
    obtain rfl := Option.some.inj h0
    exact hlegal

/-- `make_request` does what it is meant to do exactly if it returns before the search, or the last
    entry that the command may use is not free, but another one of them is. -/
theorem makeRequest_iff (woken s : Disk) (rw : Rw) (b : ℕ) :
    (∃ m, (∀ n, makeRequest woken s rw b (n + 1) = some m) ∧ Legal woken s rw b m) ↔
      (rw.ahead ∧ (s.bh b).lock ≠ 0) ∨ ¬(lockBuffer woken s b).needsIo rw b ∨
        (0 ≤ (lockBuffer woken s b).blk.devAt (rw.bound - 1) ∧
          ∃ j, j < rw.bound ∧ (lockBuffer woken s b).blk.devAt j < 0) := by
  have htest : (rw.ahead && (s.bh b).lock != 0) = true ↔ rw.ahead ∧ (s.bh b).lock ≠ 0 := by
    rw [Bool.and_eq_true, bne_iff_ne]
  by_cases hskip : rw.ahead ∧ (s.bh b).lock ≠ 0
  · refine iff_of_true ⟨.returned s, fun n => ?_, .inl ⟨hskip.1, hskip.2, rfl⟩⟩ (.inl hskip)
    rw [makeRequest, if_pos (htest.2 hskip)]
  have hlegal : ∀ m, Legal woken s rw b m ↔ (lockBuffer woken s b).LegalLocked rw b m := fun m =>
    ⟨fun h => h.resolve_left fun hs => hskip ⟨hs.1, hs.2.1⟩, .inr⟩
  simp only [makeRequest, if_neg (htest.not.2 hskip), hlegal]
  by_cases hneeds : (lockBuffer woken s b).needsIo rw b
  · rw [requestLocked_iff lock_lockBuffer hneeds]
    exact ⟨fun h => .inr (.inr h), fun h => (h.resolve_left hskip).resolve_left (not_not.2 hneeds)⟩
  · refine iff_of_true ⟨.returned ((lockBuffer woken s b).unlockBuffer b), fun n => ?_,
      lock_setLock 0, fun h => absurd h hneeds⟩ (.inr (.inl hneeds))
    rw [requestLocked, if_neg hneeds]

/-- After `blk_dev_init`, all entries are free, and the search for one does not end. -/
theorem search_loops : ∃ woken s : Disk, (s.bh 0).lock = 0 ∧ (∃ blk : Blk, s.blk = blk.devInit) ∧
    s.needsIo .read 0 ∧
    ¬∃ m, (∀ n, makeRequest woken s .read 0 (n + 1) = some m) ∧ Legal woken s .read 0 m := by
  obtain ⟨s, hs⟩ : ∃ s : Disk, s =
      ⟨Blk.devInit ⟨fun _ => ⟨0, 0, 0, none, none⟩, fun _ => none, fun _ => 0⟩,
      fun _ => ⟨0, 0, 0, none⟩, fun _ => ⟨0, 0, 0x301, 0, 0⟩⟩ := ⟨_, rfl⟩
  have hneeds : s.needsIo .read 0 := by rw [hs]; rfl
  have hlocked : (lockBuffer s s 0).needsIo .read 0 := by rw [hs]; rfl
  refine ⟨s, s, by rw [hs], ⟨_, by rw [hs]⟩, hneeds, ?_⟩
  rintro ⟨m, hm, hlegal⟩
  have hfree := (requestLocked_iff lock_lockBuffer hlocked).1
    ⟨m, hm, hlegal.resolve_left fun h => Bool.false_ne_true h.1⟩
  rw [hs] at hfree
  exact absurd hfree.1 (by decide)

end Disk

end NeuOs
