import NeuOs.Tty.Queue

/-!
# Reading from a terminal (kernel/chr_drv/tty_io.c)

The keyboard interrupt edits the buffer of the terminal, one character at a time
(`copyToBuffer`), while a process reads from it (`Reader`). The reader takes the
characters out of the buffer as they come. What it takes after it has got as many as it
wants, up to the end of the line, it keeps in `tmpbuf` and pushes back at the front
later.

A `Terminal` also records what the reader has delivered, the keystrokes, and the
characters that the interrupt has added to the buffer.
-/

namespace NeuOs

open Transition

/-- `'\n'` -/
abbrev newline : Byte := 10

/-- `'\b'` -/
abbrev backspace : Byte := 8

/-- The character -1. -/
abbrev EOF : Byte := -1

/-- A line ends with `'\n'`, or with EOF. -/
def ends (ch : Byte) : Bool := ch == newline || ch == EOF

/-! ## The keyboard interrupt -/

/-- What `copy_to_buffer` does to the buffer with one character. If there is nothing to
    erase, the loop goes on, and nothing is echoed. -/
def edit (buffer : TtyQueue) (ch : Byte) : Option TtyQueue :=
  if ch = backspace then
    if buffer.isEmpty then none
    else if buffer.buf buffer.tail.toNat = newline then none
    else some { buffer with tail := (buffer.tail - 1) % TTY_BUF_SIZE }
  else if ends ch then some (buffer.push ch).2
  else if buffer.isFull then some buffer
  else some (buffer.push ch).2

/-- `copy_to_buffer`, from the raw queue to the buffer, with the characters that are
    echoed. -/
def copyToBuffer : ℕ → TtyQueue → TtyQueue → TtyQueue × TtyQueue × List Byte
  | 0, readQ, buffer => (readQ, buffer, [])
  | fuel + 1, readQ, buffer =>
    if readQ.isEmpty then (readQ, buffer, [])
    else
      let (ch, readQ) := readQ.take
      match edit buffer ch with
      | none => copyToBuffer fuel readQ buffer
      | some buffer =>
        let (readQ, buffer, echo) := copyToBuffer fuel readQ buffer
        (readQ, buffer, ch :: echo)

/-- The interrupt of a key: its character goes to the raw queue, and from there to the
    buffer. -/
def keyboard (readQ buffer : TtyQueue) (ch : Byte) : TtyQueue × TtyQueue × List Byte :=
  copyToBuffer TTY_BUF_SIZE (readQ.push ch).2 buffer

/-! ## The reader -/

/-- Where a process is in `tty_read`: outside of it; before a pop, in it after
    `sleep_if_empty`, or after it has loaded the character; before the push of `tmpbuf[i]`
    for some `i` below `n`, or in the push of `tmpbuf[n]`, after the test or after the move
    of the head. After a store past the end of `tmpbuf`, nothing is known. -/
inductive Pc
  | outside
  | loop
  | awake
  | loaded (ch : Byte)
  | pushing (n : ℕ)
  | tested (n : ℕ)
  | moved (n : ℕ)
  | overrun
  deriving DecidableEq

/-- The local variables of `tty_read`. (The characters that are put to `buf`, of which
    there are `len`, are those that are delivered.) -/
structure Reader where
  pc : Pc
  nr : Int
  tmpbuf : List Byte

/-- A call of `tty_read`. -/
def Reader.call (nr : Int) : Reader :=
  if nr < 0 then ⟨.outside, nr, []⟩ else ⟨.loop, nr, []⟩

/-- What `tty_read` does with a character that it has taken out of the buffer, and the
    characters that it delivers. -/
def Reader.got (r : Reader) (ch : Byte) : Reader × List Byte :=
  if r.nr ≤ 0 then
    if r.tmpbuf.length < TTY_BUF_SIZE then
      let tmpbuf := r.tmpbuf ++ [ch]
      if ends ch then (⟨.pushing tmpbuf.length, r.nr, tmpbuf⟩, []) else (⟨.loop, r.nr, tmpbuf⟩, [])
    else ({ r with pc := .overrun }, [])
  else if ends ch then
    (⟨if r.nr - 1 ≤ 0 then .outside else .loop, r.nr - 1, r.tmpbuf⟩, [ch])
  else (⟨.loop, r.nr - 1, r.tmpbuf⟩, [ch])

/-- The reader, after it has pushed back `tmpbuf[n]`. -/
def Reader.pushed (r : Reader) (n : ℕ) : Reader :=
  { r with pc := if n = 0 then .outside else .pushing n }

/-- The reader is in the loop, and has not taken the next character yet. -/
def Reader.Reads (r : Reader) : Prop :=
  match r.pc with
  | .loop | .awake | .loaded _ => True
  | _ => False

/-- While the reader pushes back: the number of characters that are left. -/
def Reader.left (r : Reader) : Option ℕ :=
  match r.pc with
  | .pushing n => some n
  | .tested n | .moved n => some (n + 1)
  | _ => none

/-- What the reader has put aside, and has not pushed back yet. -/
def Reader.aside (r : Reader) : List Byte :=
  match r.pc with
  | .loop | .awake | .loaded _ => r.tmpbuf
  | .pushing n | .moved n => r.tmpbuf.take n
  | .tested n => r.tmpbuf.take (n + 1)
  | .outside | .overrun => []

/-! ## The terminal -/

/-- A terminal and its reader, with their history. -/
structure Terminal where
  readQ : TtyQueue
  buffer : TtyQueue
  reader : Reader
  delivered : List Byte
  keys : List Byte
  accepted : List Byte

inductive TtyAction
  /-- The interrupt of a key. -/
  | key (ch : Byte)
  /-- A call of `tty_read`. -/
  | call (nr : Int)
  /-- `sleep_if_empty` returns. -/
  | wake
  /-- `ch = q->buf[q->head]` -/
  | load
  /-- `tty_pop_q` moves the head, and `tty_read` gets the character. -/
  | pop
  /-- `tty_isfull_q` returns in `tty_push_q_front`. -/
  | test
  /-- `tty_push_q_front` moves the head. -/
  | moveFront
  /-- `tty_push_q_front` stores the character. -/
  | storeFront

theorem dropLast_eq_self {l : List Byte} : l.dropLast = l ↔ l = [] := by
  constructor
  · intro h
    have hlen := congrArg List.length h
    rw [List.length_dropLast] at hlen
    exact List.length_eq_zero_iff.1 (by omega)
  · rintro rfl
    rfl

namespace Terminal

/-- The steps. Interrupts are enabled between any two accesses of the reader to the buffer,
    but for the test and the sleep of `sleep_if_empty`. No signal is pending, so a pop waits
    for a character. -/
def Step (s : Terminal) (a : TtyAction) (s' : Terminal) : Prop :=
  match a with
  | .key ch => s' = { s with
      readQ := (keyboard s.readQ s.buffer ch).1
      buffer := (keyboard s.readQ s.buffer ch).2.1
      keys := s.keys ++ [ch]
      accepted := if ch = backspace ∨ s.buffer.isFull then s.accepted else s.accepted ++ [ch] }
  | .call nr => s.reader.pc = .outside ∧ s' = { s with reader := .call nr }
  | .wake => s.reader.pc = .loop ∧ ¬s.buffer.sleepIfEmpty 0 ∧
      s' = { s with reader := { s.reader with pc := .awake } }
  | .load => s.reader.pc = .awake ∧
      s' = { s with reader := { s.reader with pc := .loaded s.buffer.take.1 } }
  | .pop => ∃ ch, s.reader.pc = .loaded ch ∧ s' = { s with
      buffer := s.buffer.take.2
      reader := (s.reader.got ch).1
      delivered := s.delivered ++ (s.reader.got ch).2 }
  | .test => ∃ n, s.reader.pc = .pushing (n + 1) ∧ s' = { s with
      reader := if s.buffer.isFull then s.reader.pushed n else { s.reader with pc := .tested n } }
  | .moveFront => ∃ n, s.reader.pc = .tested n ∧ s' = { s with
      buffer := s.buffer.moveFront
      reader := { s.reader with pc := .moved n } }
  | .storeFront => ∃ n, s.reader.pc = .moved n ∧ s' = { s with
      buffer := s.buffer.storeFront (s.reader.tmpbuf[n]?.getD 0)
      reader := s.reader.pushed n }

/-- The buffer, when a push to its front that has moved the head has also stored the
    character. -/
def held (s : Terminal) : TtyQueue :=
  match s.reader.pc with
  | .moved n => s.buffer.storeFront (s.reader.tmpbuf[n]?.getD 0)
  | _ => s.buffer

/-- All characters, from those that are delivered on. -/
def stream (s : Terminal) : List Byte := s.delivered ++ s.reader.aside ++ s.held.content

/-- What holds of every terminal: the queues are bounded, and the raw queue is empty
    between two interrupts; the reader puts nothing aside before it has got as many
    characters as it wants, and pushes back the rest of a line. -/
structure Inv (s : Terminal) : Prop where
  readQ : s.readQ.Bounded
  empty : s.readQ.content = []
  buffer : s.buffer.Bounded
  reads : s.reader.Reads → 0 < s.reader.nr → s.reader.tmpbuf = []
  left : ∀ n, s.reader.left = some n → n ≤ s.reader.tmpbuf.length ∧ s.reader.nr ≤ 0 ∧
    ∃ ch, s.reader.tmpbuf.getLast? = some ch ∧ ends ch

/-- The head has not been moved to the tail. -/
def Whole (s : Terminal) : Prop := ∀ n, s.reader.pc = .moved n → s.buffer.content ≠ []

/-- What has been loaded is still the first character in the buffer. -/
def Fresh (s : Terminal) : Prop :=
  ∀ ch, s.reader.pc = .loaded ch → s.buffer.content.head? = some ch

variable {s s' : Terminal} {a : TtyAction} {ch : Byte}

/-! ## What the steps do -/

/-- Erasing removes the last character, unless `buf[tail]` is a `'\n'`. -/
theorem edit_backspace {q : TtyQueue} (h : q.Bounded) :
    ((edit q backspace).getD q).Bounded ∧ ((edit q backspace).getD q).content =
      if q.buf q.tail.toNat = newline then q.content else q.content.dropLast := by
  rw [edit, if_pos rfl]
  by_cases hemp : q.isEmpty
  · rw [if_pos hemp, (TtyQueue.isEmpty_iff h).1 hemp]
    refine ⟨h, ?_⟩
    rw [List.dropLast_nil, ite_self]
    exact (TtyQueue.isEmpty_iff h).1 hemp
  · rw [if_neg hemp]
    by_cases hnl : q.buf q.tail.toNat = newline
    · rw [if_pos hnl, if_pos hnl]
      exact ⟨h, rfl⟩
    · rw [if_neg hnl, if_neg hnl]
      have hne : q.head.toNat ≠ q.tail.toNat := fun heq =>
        hemp ((TtyQueue.isEmpty_iff h).2 ((Ring.content_eq_nil h.head).2 heq))
      have htail := TtyQueue.toNat_prev h.tail
      refine ⟨⟨h.head, htail.trans_lt (Ring.prev_lt h.tail)⟩, ?_⟩
      have hc : q.content = _ ++ [_] := Ring.content_unpush h.head h.tail hne
      rw [← htail] at hc
      rw [hc, List.dropLast_concat]
      rfl

/-- Other characters are added to the buffer, unless it is full. -/
theorem edit_of_ne {q : TtyQueue} (h : q.Bounded) (hch : ch ≠ backspace) :
    ((edit q ch).getD q).Bounded ∧ ((edit q ch).getD q).content =
      if q.isFull then q.content else q.content ++ [ch] := by
  have hpush : (q.push ch).2.content = if q.isFull then q.content else q.content ++ [ch] := by
    by_cases hfull : q.isFull
    · rw [TtyQueue.push_of_isFull hfull, if_pos hfull]
    · rw [(TtyQueue.push_spec h hfull).2, if_neg hfull]
  rw [edit, if_neg hch]
  by_cases hend : ends ch
  · rw [if_pos hend]
    exact ⟨h.push, hpush⟩
  · rw [if_neg hend]
    by_cases hfull : q.isFull
    · rw [if_pos hfull, if_pos hfull]
      exact ⟨h, rfl⟩
    · rw [if_neg hfull]
      exact ⟨h.push, hpush⟩

/-- The loop ends when the raw queue is empty. -/
theorem copyToBuffer_nil {readQ : TtyQueue} (h : readQ.Bounded) (hc : readQ.content = [])
    (n : ℕ) (buffer : TtyQueue) : copyToBuffer n readQ buffer = (readQ, buffer, []) := by
  cases n with
  | zero => rfl
  | succ n => rw [copyToBuffer, if_pos ((TtyQueue.isEmpty_iff h).2 hc)]

/-- A round takes a character, edits the buffer with it, and echoes it unless it is skipped. -/
theorem copyToBuffer_cons {readQ : TtyQueue} {l : List Byte} (h : readQ.Bounded)
    (hc : readQ.content = ch :: l) (n : ℕ) (buffer : TtyQueue) : copyToBuffer (n + 1) readQ buffer =
      (let r := copyToBuffer n readQ.take.2 ((edit buffer ch).getD buffer)
      (r.1, r.2.1, if (edit buffer ch).isSome then ch :: r.2.2 else r.2.2)) := by
  have hne : ¬readQ.isEmpty := fun hemp =>
    List.cons_ne_nil ch l (hc.symm.trans ((TtyQueue.isEmpty_iff h).1 hemp))
  rw [copyToBuffer, if_neg hne]
  dsimp only
  rw [(TtyQueue.take_cons h hc).1]
  cases edit buffer ch with
  | none => rfl
  | some buffer' => rfl

/-- The interrupt edits the buffer with one character, and leaves the raw queue empty. -/
theorem keyboard_spec {readQ : TtyQueue} (h : readQ.Bounded) (hnil : readQ.content = [])
    (buffer : TtyQueue) (ch : Byte) : (keyboard readQ buffer ch).1.Bounded ∧
      (keyboard readQ buffer ch).1.content = [] ∧
      (keyboard readQ buffer ch).2.1 = (edit buffer ch).getD buffer := by
  have hfull : ¬readQ.isFull := by
    rw [TtyQueue.isFull_iff h, hnil]
    decide
  obtain ⟨q, hq⟩ : ∃ q, q = (readQ.push ch).2 := ⟨_, rfl⟩
  have hb : q.Bounded := hq ▸ h.push
  have hc : q.content = [ch] := by rw [hq, (TtyQueue.push_spec h hfull).2, hnil]; rfl
  obtain ⟨-, hb', hrest⟩ := TtyQueue.take_cons hb hc
  -- the round for the character, and the end of the loop
  have hloop : copyToBuffer (1023 + 1) q buffer = _ := copyToBuffer_cons hb hc 1023 buffer
  rw [copyToBuffer_nil hb' hrest] at hloop
  have hkey : keyboard readQ buffer ch = copyToBuffer (1023 + 1) q buffer := by rw [keyboard, ← hq]
  rw [hkey, hloop]
  exact ⟨hb', hrest, rfl⟩

/-- The interrupt edits the end of the buffer. -/
theorem buffer_key (hs : s.Inv) (hst : s.Step (.key ch) s') : s'.buffer.Bounded ∧
    s'.buffer.content = (if ch = backspace then
      if s.buffer.buf s.buffer.tail.toNat = newline then s.buffer.content
      else s.buffer.content.dropLast
    else if s.buffer.isFull then s.buffer.content else s.buffer.content ++ [ch]) := by
  obtain rfl := hst
  dsimp only
  rw [(keyboard_spec hs.readQ hs.empty s.buffer ch).2.2]
  by_cases hch : ch = backspace
  · subst hch
    rw [if_pos rfl]
    exact edit_backspace hs.buffer
  · rw [if_neg hch]
    exact edit_of_ne hs.buffer hch

theorem held_moved {n : ℕ} (h : s.reader.pc = .moved n) :
    s.held = s.buffer.storeFront (s.reader.tmpbuf[n]?.getD 0) := by rw [held, h]

theorem held_of_ne (h : ∀ n, s.reader.pc ≠ .moved n) : s.held = s.buffer := by
  rw [held]
  split
  · next n heq => exact absurd heq (h n)
  · rfl

/-- A store that is still to come does not matter to the end of the buffer. -/
theorem held_key (hs : s.Inv) (hw : s.Whole) (hst : s.Step (.key ch) s') :
    s'.held.content = (if ch = backspace then
      if s.buffer.buf s.buffer.tail.toNat = newline then s.held.content
      else s.held.content.dropLast
    else if s.buffer.isFull then s.held.content else s.held.content ++ [ch]) := by
  obtain ⟨hb, hc⟩ := buffer_key hs hst
  have hr : s'.reader = s.reader := by rw [hst]
  by_cases hmoved : ∃ n, s.reader.pc = .moved n
  · obtain ⟨n, hn⟩ := hmoved
    obtain ⟨x, hx⟩ : ∃ x, x = s.reader.tmpbuf[n]?.getD 0 := ⟨_, rfl⟩
    obtain ⟨c, l, hcl⟩ := List.exists_cons_of_ne_nil (hw n hn)
    rw [held_moved hn, held_moved (hr ▸ hn), hr, ← hx, TtyQueue.content_storeFront hs.buffer hcl]
    rw [hcl] at hc
    split_ifs at hc ⊢
    · exact TtyQueue.content_storeFront hb hc
    · cases l with
      | nil => exact TtyQueue.content_storeFront_nil hb hc
      | cons y l => exact TtyQueue.content_storeFront hb hc
    · exact TtyQueue.content_storeFront hb hc
    · exact TtyQueue.content_storeFront hb hc
  · have hne : ∀ n, s.reader.pc ≠ .moved n := fun n hn => hmoved ⟨n, hn⟩
    rw [held_of_ne hne, held_of_ne (hr ▸ hne)]
    exact hc

theorem content_ne_nil_of_wake (hs : s.Inv) (hst : s.Step .wake s') : s.buffer.content ≠ [] := by
  intro hnil
  refine hst.2.1 ?_
  rw [TtyQueue.sleepIfEmpty, (TtyQueue.isEmpty_iff hs.buffer).2 hnil]
  rfl

/-- A pop moves a character to what is delivered, or put aside. -/
theorem stream_pop (hs : s.Inv) (hf : s.Fresh) (hst : s.Step .pop s') : ∃ ch,
    s.buffer.content = ch :: s'.buffer.content ∧ s'.reader = (s.reader.got ch).1 ∧
      s'.delivered = s.delivered ++ (s.reader.got ch).2 := by
  obtain ⟨ch, hch, rfl⟩ := hst
  obtain ⟨c, l, hcl⟩ := List.exists_cons_of_ne_nil (l := s.buffer.content) fun hnil => by
    cases (hnil ▸ hf ch hch : [].head? = some ch)
  obtain rfl : c = ch := Option.some.inj ((congrArg List.head? hcl).symm.trans (hf ch hch))
  exact ⟨c, hcl.trans (congrArg _ (TtyQueue.take_cons hs.buffer hcl).2.2.symm), rfl, rfl⟩

theorem aside_of_reads {r : Reader} (h : r.Reads) : r.aside = r.tmpbuf := by
  obtain ⟨pc, nr, tmpbuf⟩ := r
  cases pc with
  | loop => rfl
  | awake => rfl
  | loaded ch => rfl
  | _ => exact h.elim

theorem left_of_reads {r : Reader} (h : r.Reads) : r.left = none := by
  obtain ⟨pc, nr, tmpbuf⟩ := r
  cases pc with
  | loop => rfl
  | awake => rfl
  | loaded ch => rfl
  | _ => exact h.elim

theorem got_aside {r : Reader} (ch : Byte) (hr : r.Reads) (hempty : 0 < r.nr → r.tmpbuf = [])
    (hroom : r.nr ≤ 0 → r.tmpbuf.length < TTY_BUF_SIZE) :
    (r.got ch).2 ++ (r.got ch).1.aside = r.aside ++ [ch] ∧ (r.got ch).1.pc ≠ .overrun := by
  rw [aside_of_reads hr, Reader.got]
  by_cases hnr : r.nr ≤ 0
  · rw [if_pos hnr, if_pos (hroom hnr)]
    dsimp only
    split_ifs
    · refine ⟨?_, nofun⟩
      rw [Reader.aside]
      exact List.take_length
    · exact ⟨rfl, nofun⟩
  · rw [if_neg hnr, hempty (by omega)]
    split_ifs <;> exact ⟨rfl, nofun⟩

theorem got_overrun {r : Reader} (ch : Byte) (hnr : r.nr ≤ 0)
    (hroom : ¬r.tmpbuf.length < TTY_BUF_SIZE) : (r.got ch).1.pc = .overrun := by
  rw [Reader.got, if_pos hnr, if_neg hroom]

/-- After a pop, the reader is outside of the queue. -/
theorem got_pc (r : Reader) (ch : Byte) : (r.got ch).1.pc ≠ .awake ∧
    (∀ c, (r.got ch).1.pc ≠ .loaded c) ∧ (∀ n, (r.got ch).1.pc ≠ .tested n) ∧
      ∀ n, (r.got ch).1.pc ≠ .moved n := by
  rw [Reader.got]
  split_ifs <;> exact ⟨nofun, nofun, nofun, nofun⟩

theorem pushed_pc (r : Reader) (n : ℕ) :
    (r.pushed n).pc = .outside ∨ (r.pushed n).pc = .pushing n := by
  rw [Reader.pushed]
  split_ifs
  · exact .inl rfl
  · exact .inr rfl

theorem pushed_aside (r : Reader) (n : ℕ) : (r.pushed n).aside = r.tmpbuf.take n := by
  rw [Reader.aside, Reader.pushed]
  by_cases h0 : n = 0
  · rw [h0]
    rfl
  · rw [if_neg h0]

/-- The reader keeps the invariant of `tmpbuf`. -/
theorem got_inv {r : Reader} (ch : Byte) (hempty : 0 < r.nr → r.tmpbuf = []) :
    ((r.got ch).1.Reads → 0 < (r.got ch).1.nr → (r.got ch).1.tmpbuf = []) ∧
      ∀ n, (r.got ch).1.left = some n → n ≤ (r.got ch).1.tmpbuf.length ∧ (r.got ch).1.nr ≤ 0 ∧
        ∃ c, (r.got ch).1.tmpbuf.getLast? = some c ∧ ends c := by
  rw [Reader.got]
  by_cases hnr : r.nr ≤ 0
  · rw [if_pos hnr]
    split_ifs with hroom hend
    · exact ⟨nofun, fun n hn => ⟨(Option.some.inj hn).ge, hnr, ch, List.getLast?_concat, hend⟩⟩
    · exact ⟨fun _ h => absurd h (not_lt.2 hnr), nofun⟩
    · exact ⟨nofun, nofun⟩
  · rw [if_neg hnr]
    have hnil := hempty (by omega)
    split_ifs
    · exact ⟨nofun, nofun⟩
    · exact ⟨fun _ _ => hnil, nofun⟩
    · exact ⟨fun _ _ => hnil, nofun⟩

theorem Inv.pushed (hs : s.Inv) {n : ℕ} (hn : s.reader.left = some (n + 1)) {q : TtyQueue}
    (hq : q.Bounded) : Inv { s with buffer := q, reader := s.reader.pushed n } := by
  obtain ⟨hle, hnr, hend⟩ := hs.left _ hn
  refine ⟨hs.readQ, hs.empty, hq, fun hreads => ?_, fun m hm => ?_⟩
  · rw [Reader.Reads] at hreads
    rcases pushed_pc s.reader n with hpc | hpc <;> rw [hpc] at hreads <;> exact hreads.elim
  · rw [Reader.left] at hm
    rcases pushed_pc s.reader n with hpc | hpc <;> rw [hpc] at hm <;> cases hm
    exact ⟨(Nat.le_succ n).trans hle, hnr, hend⟩

theorem Inv.step (hs : s.Inv) (hst : s.Step a s') : s'.Inv := by
  cases a with
  | key ch =>
    have hb := (buffer_key hs hst).1
    obtain rfl := hst
    have hk := keyboard_spec hs.readQ hs.empty s.buffer ch
    exact ⟨hk.1, hk.2.1, hb, hs.reads, hs.left⟩
  | call nr =>
    obtain ⟨-, rfl⟩ := hst
    refine ⟨hs.readQ, hs.empty, hs.buffer, fun _ _ => ?_, fun n hn => ?_⟩
    · exact apply_ite Reader.tmpbuf _ _ _ |>.trans (ite_self _)
    · dsimp only [Reader.call] at hn
      split_ifs at hn <;> cases hn
  | wake =>
    obtain ⟨hpc, -, rfl⟩ := hst
    exact ⟨hs.readQ, hs.empty, hs.buffer, fun _ => hs.reads (by rw [Reader.Reads, hpc]; trivial),
      nofun⟩
  | load =>
    obtain ⟨hpc, rfl⟩ := hst
    exact ⟨hs.readQ, hs.empty, hs.buffer, fun _ => hs.reads (by rw [Reader.Reads, hpc]; trivial),
      nofun⟩
  | pop =>
    obtain ⟨ch, hpc, rfl⟩ := hst
    have hg := got_inv ch (hs.reads (by rw [Reader.Reads, hpc]; trivial))
    exact ⟨hs.readQ, hs.empty, hs.buffer.take, hg.1, hg.2⟩
  | test =>
    obtain ⟨n, hn, rfl⟩ := hst
    have hleft : s.reader.left = some (n + 1) := by rw [Reader.left, hn]
    by_cases hfull : s.buffer.isFull
    · rw [if_pos hfull]
      exact hs.pushed hleft hs.buffer
    · rw [if_neg hfull]
      exact ⟨hs.readQ, hs.empty, hs.buffer, nofun,
        fun m hm => hs.left m (hleft.trans hm)⟩
  | moveFront =>
    obtain ⟨n, hn, rfl⟩ := hst
    have hleft : s.reader.left = some (n + 1) := by rw [Reader.left, hn]
    exact ⟨hs.readQ, hs.empty, hs.buffer.moveFront, nofun, fun m hm => hs.left m (hleft.trans hm)⟩
  | storeFront =>
    obtain ⟨n, hn, rfl⟩ := hst
    exact hs.pushed (by rw [Reader.left, hn]) hs.buffer.storeFront

/-- The test of a push changes nothing, or gives the character up. -/
theorem stream_test (hs : s.Inv) (hst : s.Step .test s') : s'.delivered = s.delivered ∧
    s'.reader.pc ≠ .overrun ∧ s'.held = s.held ∧
      if s.buffer.isFull then ∃ ch, s.reader.aside = s'.reader.aside ++ [ch]
      else s'.reader.aside = s.reader.aside := by
  obtain ⟨n, hn, rfl⟩ := hst
  have hlt : n < s.reader.tmpbuf.length := (hs.left _ (by rw [Reader.left, hn])).1
  have haside : s.reader.aside = s.reader.tmpbuf.take (n + 1) := by rw [Reader.aside, hn]
  have hheld : s.held = s.buffer := held_of_ne fun m hm => by cases hn.symm.trans hm
  rw [hheld, haside]
  by_cases hfull : s.buffer.isFull
  · rw [if_pos hfull, if_pos hfull]
    have hpc := pushed_pc s.reader n
    refine ⟨rfl, fun h => ?_, held_of_ne fun m hm => ?_, s.reader.tmpbuf[n], ?_⟩
    · rcases hpc with hpc | hpc <;> cases hpc.symm.trans h
    · rcases hpc with hpc | hpc <;> cases hpc.symm.trans hm
    · rw [pushed_aside]
      exact (List.take_append_getElem hlt).symm
  · rw [if_neg hfull, if_neg hfull]
    exact ⟨rfl, nofun, rfl, rfl⟩

/-- The move of the head makes room for the character, unless the ring is full. -/
theorem stream_moveFront (hs : s.Inv) (hst : s.Step .moveFront s') :
    s'.delivered = s.delivered ∧ s'.reader.pc ≠ .overrun ∧
      ∃ ch, s.reader.aside = s'.reader.aside ++ [ch] ∧
        s'.held.content = if s.buffer.isFull then [] else ch :: s.held.content := by
  obtain ⟨n, hn, rfl⟩ := hst
  have hlt : n < s.reader.tmpbuf.length := (hs.left _ (by rw [Reader.left, hn])).1
  have haside : s.reader.aside = s.reader.tmpbuf.take (n + 1) := by rw [Reader.aside, hn]
  have hheld : s.held = s.buffer := held_of_ne fun m hm => by cases hn.symm.trans hm
  refine ⟨rfl, nofun, s.reader.tmpbuf[n], ?_, ?_⟩
  · rw [haside]
    exact (List.take_append_getElem hlt).symm
  · rw [held_moved rfl, hheld]
    dsimp only
    rw [List.getElem?_eq_getElem hlt, Option.getD_some]
    by_cases hfull : s.buffer.isFull
    · rw [if_pos hfull]
      exact TtyQueue.content_storeFront_nil hs.buffer.moveFront
        (TtyQueue.content_moveFront_of_isFull hs.buffer hfull)
    · rw [if_neg hfull]
      exact TtyQueue.content_storeFront hs.buffer.moveFront
        (TtyQueue.content_moveFront hs.buffer hfull)

/-- The store does not change the stream. -/
theorem stream_storeFront (hst : s.Step .storeFront s') : s'.delivered = s.delivered ∧
    s'.reader.pc ≠ .overrun ∧ s'.held = s.held ∧ s'.reader.aside = s.reader.aside := by
  obtain ⟨n, hn, rfl⟩ := hst
  have hpc := pushed_pc s.reader n
  refine ⟨rfl, fun h => ?_, ?_, ?_⟩
  · rcases hpc with hpc | hpc <;> cases hpc.symm.trans h
  · rw [held_moved hn]
    refine held_of_ne fun m hm => ?_
    rcases hpc with hpc | hpc <;> cases hpc.symm.trans hm
  · exact (pushed_aside s.reader n).trans (by rw [Reader.aside, hn])

/-! ## A read loses nothing -/

/-- Steps during one call of `tty_read`, in which nothing is erased. -/
def ReadStep (s : Terminal) (a : TtyAction) (s' : Terminal) : Prop :=
  (∀ nr, a ≠ .call nr) ∧ a ≠ .key backspace ∧ s.Step a s'

/-- Every index into `tmpbuf` has been in it, and the stream has all the characters that
    were in the buffer at first, or that have been added to it since. -/
def Kept (l : List Byte) (s : Terminal) : Prop :=
  s.reader.pc ≠ .overrun ∧ s.stream = l ++ s.accepted

/-- When a character is put aside there is room for it in `tmpbuf`. -/
def RoomAside (s : Terminal) : TtyAction → Prop
  | .pop => s.reader.nr ≤ 0 → s.reader.tmpbuf.length < TTY_BUF_SIZE
  | _ => True

/-- When a character is put aside there is room for it in `tmpbuf`, and when one is pushed
    back there is room for it in the buffer: at the test, and still when the head moves. -/
def Room (s : Terminal) : TtyAction → Prop
  | .pop => s.reader.nr ≤ 0 → s.reader.tmpbuf.length < TTY_BUF_SIZE
  | .test | .moveFront => ¬s.buffer.isFull
  | _ => True

/-- What holds while nothing is erased: a pop finds the character that it has waited for,
    and the stream never has more characters than it should; it has less if the head has been
    moved to the tail. -/
structure Sparse (l : List Byte) (s : Terminal) : Prop where
  inv : s.Inv
  awake : s.reader.pc = .awake → s.buffer.content ≠ []
  fresh : s.Fresh
  length : s.stream.length ≤ l.length + s.accepted.length
  lost : ¬s.Whole → s.stream.length < l.length + s.accepted.length

variable {l : List Byte}

theorem whole_of_ne (h : ∀ n, s.reader.pc ≠ .moved n) : s.Whole := fun n hn => absurd hn (h n)

/-- What a step does to the stream during a read: what is accepted is added to it; it stays; or,
    where there is no room, it gets shorter. -/
def Moves (s : Terminal) (a : TtyAction) (s' : Terminal) : Prop :=
  (∃ l, s'.stream = s.stream ++ l ∧ s'.accepted = s.accepted ++ l ∧ s'.reader.pc = s.reader.pc ∧
    s.Room a) ∨
  (s'.accepted = s.accepted ∧ s'.stream = s.stream ∧ s.reader.pc ≠ .overrun ∧
    s'.reader.pc ≠ .overrun ∧ s.Room a) ∨
  (s'.accepted = s.accepted ∧ s'.stream.length < s.stream.length ∧ ¬s.Room a)

/-- What is typed goes to the end of the stream, if the buffer takes it. -/
theorem moves_key (hs : s.Inv) (hw : s.Whole) (hch : ch ≠ backspace) (hst : s.Step (.key ch) s') :
    s.Moves (.key ch) s' := by
  have hc := held_key hs hw hst
  rw [if_neg hch] at hc
  have hd : s'.delivered = s.delivered := by rw [hst]
  have hr : s'.reader = s.reader := by rw [hst]
  have hacc : s'.accepted = if ch = backspace ∨ s.buffer.isFull then s.accepted
    else s.accepted ++ [ch] := by rw [hst]
  refine Or.inl ⟨if s.buffer.isFull then [] else [ch], ?_, ?_, by rw [hr], trivial⟩
  · rw [Terminal.stream, Terminal.stream, hd, hr, hc]
    by_cases hfull : s.buffer.isFull
    · rw [if_pos hfull, if_pos hfull, List.append_nil]
    · rw [if_neg hfull, if_neg hfull]
      exact (List.append_assoc _ _ _).symm
  · rw [hacc]
    by_cases hfull : s.buffer.isFull
    · rw [if_pos (Or.inr hfull), if_pos hfull, List.append_nil]
    · rw [if_neg (fun h => h.elim hch hfull), if_neg hfull]

/-- The character moves out of the buffer, to `delivered` or to `tmpbuf`; if there is no place
    left in `tmpbuf`, it is gone. -/
theorem moves_pop (hs : s.Inv) (hf : s.Fresh) (hst : s.Step .pop s') : s.Moves .pop s' := by
  obtain ⟨ch, hc, hr, hd⟩ := stream_pop hs hf hst
  obtain ⟨c, hpc, heq⟩ := hst
  have hreads : s.reader.Reads := by rw [Reader.Reads, hpc]; trivial
  have hacc : s'.accepted = s.accepted := by rw [heq]
  have hheld : s.held = s.buffer := held_of_ne fun n hn => by cases hpc.symm.trans hn
  have hheld' : s'.held = s'.buffer := held_of_ne (hr ▸ (got_pc s.reader ch).2.2.2)
  refine Or.inr ?_
  by_cases hroom : s.Room .pop
  · obtain ⟨haside, hpc'⟩ := got_aside ch hreads (hs.reads hreads) hroom
    refine Or.inl ⟨hacc, ?_, hpc ▸ nofun, hr ▸ hpc', hroom⟩
    rw [Terminal.stream, Terminal.stream, hheld, hheld', hd, hr, hc,
      List.append_assoc s.delivered, haside]
    simp only [List.append_assoc, List.singleton_append]
  · rw [Room, Classical.not_imp] at hroom
    refine Or.inr ⟨hacc, ?_, fun h => hroom.2 (h hroom.1)⟩
    have hover := got_overrun ch hroom.1 hroom.2
    have hnone : (s.reader.got ch).2 = [] := by
      rw [Reader.got, if_pos hroom.1, if_neg hroom.2]
    rw [Terminal.stream, Terminal.stream, hheld, hheld', hd, hr, hc, hnone, Reader.aside, hover]
    simp only [List.length_append, List.length_cons, List.length_nil]
    omega

/-- A full buffer drops the character. -/
theorem moves_test (hs : s.Inv) (hst : s.Step .test s') : s.Moves .test s' := by
  obtain ⟨hd, hpc', hheld, haside⟩ := stream_test hs hst
  obtain ⟨n, hn, heq⟩ := hst
  have hacc : s'.accepted = s.accepted := by rw [heq]
  refine Or.inr ?_
  rw [Terminal.stream, Terminal.stream, hd, hheld, Room]
  by_cases hfull : s.buffer.isFull
  · rw [if_pos hfull] at haside
    obtain ⟨ch, haside⟩ := haside
    refine Or.inr ⟨hacc, ?_, fun h => h hfull⟩
    rw [haside]
    simp only [List.length_append, List.length_cons, List.length_nil]
    omega
  · rw [if_neg hfull] at haside
    exact Or.inl ⟨hacc, by rw [haside], hn ▸ nofun, hpc', hfull⟩

/-- The character moves back to the buffer; in a full buffer, all others are lost. -/
theorem moves_moveFront (hs : s.Inv) (hst : s.Step .moveFront s') : s.Moves .moveFront s' := by
  obtain ⟨hd, hpc', ch, ha, hc⟩ := stream_moveFront hs hst
  obtain ⟨n, hn, heq⟩ := hst
  have hacc : s'.accepted = s.accepted := by rw [heq]
  refine Or.inr ?_
  rw [Terminal.stream, Terminal.stream, hd, ha, hc, Room]
  by_cases hfull : s.buffer.isFull
  · refine Or.inr ⟨hacc, ?_, fun h => h hfull⟩
    rw [if_pos hfull]
    simp only [List.length_append, List.length_cons, List.length_nil]
    omega
  · refine Or.inl ⟨hacc, ?_, hn ▸ nofun, hpc', hfull⟩
    rw [if_neg hfull]
    simp only [List.append_assoc, List.singleton_append]

theorem moves_storeFront (hst : s.Step .storeFront s') : s.Moves .storeFront s' := by
  obtain ⟨hd, hpc', hheld, haside⟩ := stream_storeFront hst
  obtain ⟨n, hn, heq⟩ := hst
  refine Or.inr (Or.inl ⟨by rw [heq], ?_, hn ▸ nofun, hpc', trivial⟩)
  rw [Terminal.stream, Terminal.stream, hd, hheld, haside]

theorem ReadStep.moves (hs : s.Inv) (hf : s.Fresh) (hw : s.Whole) (h : s.ReadStep a s') :
    s.Moves a s' := by
  obtain ⟨hcall, hback, hst⟩ := h
  cases a with
  | key ch => exact moves_key hs hw (fun heq => hback (congrArg _ heq)) hst
  | call nr => exact absurd rfl (hcall nr)
  | wake =>
    obtain ⟨hpc, -, rfl⟩ := hst
    refine Or.inr (Or.inl ⟨rfl, ?_, hpc ▸ nofun, nofun, trivial⟩)
    rw [Terminal.stream, Terminal.stream, Reader.aside, Reader.aside, held, held, hpc]
  | load =>
    obtain ⟨hpc, rfl⟩ := hst
    refine Or.inr (Or.inl ⟨rfl, ?_, hpc ▸ nofun, nofun, trivial⟩)
    rw [Terminal.stream, Terminal.stream, Reader.aside, Reader.aside, held, held, hpc]
  | pop => exact moves_pop hs hf hst
  | test => exact moves_test hs hst
  | moveFront => exact moves_moveFront hs hst
  | storeFront => exact moves_storeFront hst

/-- After the head has been moved to the tail, nothing comes back. -/
theorem ReadStep.lost (hs : s.Inv) (hw : ¬s.Whole) (h : s.ReadStep a s') :
    s'.stream.length + s.accepted.length = s.stream.length + s'.accepted.length ∧ s.Room a := by
  obtain ⟨hcall, hback, hst⟩ := h
  obtain ⟨n, hn, hnil⟩ : ∃ n, s.reader.pc = .moved n ∧ s.buffer.content = [] := by
    rw [Whole] at hw
    push Not at hw
    exact hw
  cases a with
  | key ch =>
    have hch : ch ≠ backspace := fun heq => hback (congrArg _ heq)
    have hfull : ¬s.buffer.isFull := by rw [TtyQueue.isFull_iff hs.buffer, hnil]; decide
    obtain ⟨hb, hc⟩ := buffer_key hs hst
    rw [if_neg hch, if_neg hfull, hnil] at hc
    have hd : s'.delivered = s.delivered := by rw [hst]
    have hr : s'.reader = s.reader := by rw [hst]
    have hacc : s'.accepted = s.accepted ++ [ch] := by
      rw [hst]
      exact if_neg fun h => h.elim hch hfull
    -- the character that is typed will be overwritten
    refine ⟨?_, trivial⟩
    rw [Terminal.stream, Terminal.stream, hd, hr, hacc, held_moved hn, held_moved (hr ▸ hn),
      TtyQueue.content_storeFront_nil hs.buffer hnil, TtyQueue.content_storeFront hb hc]
    simp only [List.length_append, List.length_cons, List.length_nil]
    omega
  | call nr => exact absurd rfl (hcall nr)
  | storeFront =>
    obtain ⟨hd, -, hheld, haside⟩ := stream_storeFront hst
    have hacc : s'.accepted = s.accepted := by obtain ⟨_, -, rfl⟩ := hst; rfl
    refine ⟨?_, trivial⟩
    rw [Terminal.stream, Terminal.stream, hd, hheld, haside, hacc]
  | wake => cases hn.symm.trans hst.1
  | load => cases hn.symm.trans hst.1
  | pop =>
    obtain ⟨_, hpc, -⟩ := hst
    cases hn.symm.trans hpc
  | test =>
    obtain ⟨_, hpc, -⟩ := hst
    cases hn.symm.trans hpc
  | moveFront =>
    obtain ⟨_, hpc, -⟩ := hst
    cases hn.symm.trans hpc

theorem ReadStep.awake (hs : s.Inv) (h : s.ReadStep a s')
    (ha : s.reader.pc = .awake → s.buffer.content ≠ []) :
    s'.reader.pc = .awake → s'.buffer.content ≠ [] := by
  obtain ⟨hcall, hback, hst⟩ := h
  intro hpc'
  cases a with
  | key ch =>
    have hc := (buffer_key hs hst).2
    rw [if_neg fun heq => hback (congrArg _ heq)] at hc
    have hne := ha (by rw [hst] at hpc'; exact hpc')
    rw [hc]
    split_ifs
    · exact hne
    · exact List.append_ne_nil_of_left_ne_nil hne _
  | call nr => exact absurd rfl (hcall nr)
  | wake =>
    have hne := content_ne_nil_of_wake hs hst
    obtain ⟨-, -, rfl⟩ := hst
    exact hne
  | load => obtain ⟨-, rfl⟩ := hst; cases hpc'
  | pop => obtain ⟨ch, -, rfl⟩ := hst; exact absurd hpc' (got_pc s.reader ch).1
  | test =>
    obtain ⟨n, -, rfl⟩ := hst
    dsimp only at hpc'
    split_ifs at hpc'
    rcases pushed_pc s.reader n with hpc | hpc <;> cases hpc.symm.trans hpc'
  | moveFront => obtain ⟨n, -, rfl⟩ := hst; cases hpc'
  | storeFront =>
    obtain ⟨n, -, rfl⟩ := hst
    rcases pushed_pc s.reader n with hpc | hpc <;> cases hpc.symm.trans hpc'

/-- Typed characters do not change the first one. -/
theorem ReadStep.fresh (hs : s.Inv) (h : s.ReadStep a s')
    (ha : s.reader.pc = .awake → s.buffer.content ≠ []) (hf : s.Fresh) : s'.Fresh := by
  obtain ⟨hcall, hback, hst⟩ := h
  intro c hpc'
  cases a with
  | key ch =>
    have hc := (buffer_key hs hst).2
    rw [if_neg fun heq => hback (congrArg _ heq)] at hc
    have hfirst := hf c (by rw [hst] at hpc'; exact hpc')
    rw [hc]
    split_ifs
    · exact hfirst
    · rw [List.head?_append, hfirst]
      rfl
  | call nr => exact absurd rfl (hcall nr)
  | wake => obtain ⟨-, -, rfl⟩ := hst; cases hpc'
  | load =>
    obtain ⟨hpc, rfl⟩ := hst
    obtain rfl := Pc.loaded.inj hpc'
    exact congrArg List.head? (TtyQueue.content_take hs.buffer (ha hpc))
  | pop => obtain ⟨ch, -, rfl⟩ := hst; exact absurd hpc' ((got_pc s.reader ch).2.1 c)
  | test =>
    obtain ⟨n, -, rfl⟩ := hst
    dsimp only at hpc'
    split_ifs at hpc'
    rcases pushed_pc s.reader n with hpc | hpc <;> cases hpc.symm.trans hpc'
  | moveFront => obtain ⟨n, -, rfl⟩ := hst; cases hpc'
  | storeFront =>
    obtain ⟨n, -, rfl⟩ := hst
    rcases pushed_pc s.reader n with hpc | hpc <;> cases hpc.symm.trans hpc'

/-- The head is moved to the tail in the full ring only. -/
theorem ReadStep.not_whole (hs : s.Inv) (hw : s.Whole) (h : s.ReadStep a s') (hw' : ¬s'.Whole) :
    ¬s.Room a := by
  obtain ⟨hcall, hback, hst⟩ := h
  obtain ⟨n, hn, hnil⟩ : ∃ n, s'.reader.pc = .moved n ∧ s'.buffer.content = [] := by
    rw [Whole] at hw'
    push Not at hw'
    exact hw'
  cases a with
  | key ch =>
    have hc := (buffer_key hs hst).2
    rw [if_neg fun heq => hback (congrArg _ heq), hnil] at hc
    have hne := hw n (by rw [hst] at hn; exact hn)
    split_ifs at hc
    · exact absurd hc.symm hne
    · exact absurd hc.symm (List.append_ne_nil_of_left_ne_nil hne _)
  | call nr => exact absurd rfl (hcall nr)
  | wake => obtain ⟨-, -, rfl⟩ := hst; cases hn
  | load => obtain ⟨-, rfl⟩ := hst; cases hn
  | pop => obtain ⟨ch, -, rfl⟩ := hst; exact absurd hn ((got_pc s.reader ch).2.2.2 n)
  | test =>
    obtain ⟨m, -, rfl⟩ := hst
    dsimp only at hn
    split_ifs at hn
    rcases pushed_pc s.reader m with hpc | hpc <;> cases hpc.symm.trans hn
  | moveFront =>
    obtain ⟨m, -, rfl⟩ := hst
    intro hfull
    rw [TtyQueue.content_moveFront hs.buffer hfull] at hnil
    cases hnil
  | storeFront =>
    obtain ⟨m, -, rfl⟩ := hst
    rcases pushed_pc s.reader m with hpc | hpc <;> cases hpc.symm.trans hn

theorem Sparse.step (h : Sparse l s) (hst : s.ReadStep a s') : Sparse l s' := by
  have hle := h.length
  by_cases hw : s.Whole
  · refine ⟨h.inv.step hst.2.2, hst.awake h.inv h.awake, hst.fresh h.inv h.awake h.fresh, ?_,
      fun hw' => ?_⟩ <;>
    rcases hst.moves h.inv h.fresh hw with ⟨l', hs, ha, -, hroom⟩ | ⟨ha, hs, -, -, hroom⟩ |
      ⟨ha, hlt, -⟩
    · rw [hs, ha, List.length_append, List.length_append]
      omega
    · rw [hs, ha]
      exact hle
    · rw [ha]
      omega
    · exact absurd hroom (hst.not_whole h.inv hw hw')
    · exact absurd hroom (hst.not_whole h.inv hw hw')
    · rw [ha]
      omega
  · have hlt := h.lost hw
    have heq := (hst.lost h.inv hw).1
    exact ⟨h.inv.step hst.2.2, hst.awake h.inv h.awake, hst.fresh h.inv h.awake h.fresh, by omega,
      fun _ => by omega⟩

/-- Steps with room keep all characters, and the others lose some. -/
theorem ReadStep.kept_iff (h : Sparse l s) (hst : s.ReadStep a s') :
    s'.Kept l ↔ s.Kept l ∧ s.Room a := by
  have hle := h.length
  have hlen : ∀ {s : Terminal}, s.Kept l → s.stream.length = l.length + s.accepted.length :=
    fun hk => (congrArg List.length hk.2).trans List.length_append
  by_cases hw : s.Whole
  · rcases hst.moves h.inv h.fresh hw with ⟨l', hs, ha, hpc, hroom⟩ | ⟨ha, hs, hpc, hpc', hroom⟩ |
      ⟨ha, hlt, hroom⟩
    · rw [Kept, Kept, hs, ha, hpc, ← List.append_assoc, List.append_left_inj]
      exact ⟨fun h => ⟨h, hroom⟩, And.left⟩
    · rw [Kept, Kept, hs, ha]
      exact ⟨fun h => ⟨⟨hpc, h.2⟩, hroom⟩, fun h => ⟨hpc', h.1.2⟩⟩
    · refine ⟨fun hk => ?_, fun hk => absurd hk.2 hroom⟩
      have heq := hlen hk
      rw [ha] at heq
      omega
  · have hlt := h.lost hw
    have heq := (hst.lost h.inv hw).1
    refine ⟨fun hk => ?_, fun hk => ?_⟩
    · have := hlen hk
      omega
    · have := hlen hk.1
      omega

/-- A step stores past the end of `tmpbuf` if there is no room in it. -/
theorem ReadStep.inside_iff (hs : s.Inv) (hpc : s.reader.pc ≠ .overrun) (h : s.ReadStep a s') :
    s'.reader.pc ≠ .overrun ↔ s.RoomAside a := by
  obtain ⟨hcall, -, hst⟩ := h
  cases a with
  | key ch => exact iff_of_true (by rw [hst]; exact hpc) trivial
  | call nr => exact absurd rfl (hcall nr)
  | wake => obtain ⟨-, -, rfl⟩ := hst; exact iff_of_true nofun trivial
  | load => obtain ⟨-, rfl⟩ := hst; exact iff_of_true nofun trivial
  | pop =>
    obtain ⟨ch, hch, rfl⟩ := hst
    have hreads : s.reader.Reads := by rw [Reader.Reads, hch]; trivial
    refine ⟨fun hne hnr => ?_, fun hroom => (got_aside ch hreads (hs.reads hreads) hroom).2⟩
    by_contra hroom
    exact hne (got_overrun ch hnr hroom)
  | test => exact iff_of_true (stream_test hs hst).2.1 trivial
  | moveFront => exact iff_of_true (stream_moveFront hs hst).2.1 trivial
  | storeFront => exact iff_of_true (stream_storeFront hst).2.1 trivial

/-- In every run within a call of `tty_read`: the indices into `tmpbuf` are in it exactly as
    long as there is room for every character that is put aside; besides, no character is
    lost exactly as long as there is room for every character that is pushed back. When the
    call has returned, the latter shows in what it has delivered and left in the buffer. -/
theorem read_keeps_iff (s₀ s₁ : Terminal) (nr : Int) (l : List (TtyAction × Terminal))
    (hs : s₀.Inv) (hnr : 0 ≤ nr) (hcall : s₀.Step (.call nr) s₁) (hd : s₀.delivered = [])
    (hacc : s₀.accepted = []) (h : Run ReadStep s₁ l) :
    ((∀ x ∈ l, x.2.reader.pc ≠ .overrun) ↔ Along RoomAside s₁ l) ∧
    ((∀ x ∈ l, x.2.reader.pc ≠ .overrun ∧ x.2.stream = s₀.buffer.content ++ x.2.accepted) ↔
      Along Room s₁ l) ∧
    ∀ a s, l.getLast? = some (a, s) → s.reader.pc = .outside →
      (((∀ x ∈ l, x.2.reader.pc ≠ .overrun) ∧
        s.delivered ++ s.buffer.content = s₀.buffer.content ++ s.accepted) ↔ Along Room s₁ l) := by
  obtain ⟨init, hinit⟩ : ∃ init, init = s₀.buffer.content := ⟨_, rfl⟩
  rw [← hinit]
  have hs₁ := hs.step hcall
  have hr₁ : s₁.reader = ⟨.loop, nr, []⟩ := by
    rw [hcall.2, Reader.call, if_neg (not_lt.2 hnr)]
  have hpc₁ : s₁.reader.pc = .loop := by rw [hr₁]
  -- after the call, the stream is what the buffer had before
  have hk₁ : s₁.Kept init := by
    rw [Kept, Terminal.stream, held, hr₁, hcall.2, hd, hacc, hinit]
    exact ⟨nofun, (List.append_nil _).symm⟩
  have hsp₁ : Sparse init s₁ := by
    refine ⟨hs₁, fun hpc => ?_, fun ch hpc => ?_, ?_,
      fun hw => absurd (whole_of_ne fun n hn => ?_) hw⟩
    · cases hpc₁.symm.trans hpc
    · cases hpc₁.symm.trans hpc
    · rw [hk₁.2, List.length_append]
    · cases hpc₁.symm.trans hn
  have hinv : ∀ s a s', Sparse init s → ReadStep s a s' → Sparse init s' :=
    fun s a s' h hst => h.step hst
  have hiff : (∀ x ∈ l, x.2.Kept init) ↔ Along Room s₁ l :=
    h.forall_iff_along hk₁ hsp₁ hinv
      fun s a s' hsp hk hst => (hst.kept_iff hsp).trans ⟨And.right, fun hr => ⟨hk, hr⟩⟩
  refine ⟨h.forall_iff_along (J := Inv) (P := fun s => s.reader.pc ≠ .overrun) hk₁.1 hs₁
    (fun s a s' hs hst => hs.step hst.2.2) fun s a s' hs hpc hst => hst.inside_iff hs hpc, hiff,
    fun a s hlast hret => ?_⟩
  rw [← hiff]
  -- when the call has returned, nothing is put aside
  have hstream : s.stream = s.delivered ++ s.buffer.content := by
    rw [Terminal.stream, Reader.aside, held, hret, List.append_nil]
  have hmem : (a, s) ∈ l := List.mem_of_getLast? hlast
  constructor
  · -- a lost character is never found again, so the last state decides
    rintro ⟨hpc, heq⟩
    exact (h.forall_of_getLast hsp₁ hinv (fun s a s' hsp hst hk => ((hst.kept_iff hsp).1 hk).1)
      hlast ⟨hpc _ hmem, by rw [hstream, heq]⟩).2
  · intro hk
    exact ⟨fun x hx => (hk x hx).1, by rw [← hstream, (hk _ hmem).2]⟩

/-- The steps of the reader during a call of `tty_read`. -/
def Inner : TtyAction → Prop
  | .key _ | .call _ => False
  | _ => True

theorem Step.readStep (h : s.Step a s') (ha : Inner a) : s.ReadStep a s' :=
  ⟨fun _ heq => (by rw [heq] at ha; exact ha), fun heq => (by rw [heq] at ha; exact ha), h⟩

/-- The terminal with the reader at another place. -/
def withPc (s : Terminal) (pc : Pc) : Terminal := { s with reader := { s.reader with pc := pc } }

/-- The terminal after a pop of `ch`. -/
def afterPop (s : Terminal) (ch : Byte) : Terminal :=
  { s with
    buffer := s.buffer.take.2
    reader := (s.reader.got ch).1
    delivered := s.delivered ++ (s.reader.got ch).2 }

/-- A pop with no interrupt in it. -/
theorem pop_steps {l : List Byte} (hs : s.Inv) (hloop : s.reader.pc = .loop)
    (hc : s.buffer.content = ch :: l) : s.Step .wake (s.withPc .awake) ∧
      (s.withPc .awake).Step .load (s.withPc (.loaded ch)) ∧
      (s.withPc (.loaded ch)).Step .pop (s.afterPop ch) ∧ (s.afterPop ch).buffer.content = l := by
  have hne : ¬s.buffer.sleepIfEmpty 0 := fun hw => by
    have hemp := (TtyQueue.isEmpty_iff hs.buffer).1 (Bool.and_eq_true_iff.1 hw).2
    cases hc.symm.trans hemp
  obtain ⟨hch, -, hl⟩ := TtyQueue.take_cons hs.buffer hc
  exact ⟨⟨hloop, hne, rfl⟩, ⟨rfl, congrArg (fun c => s.withPc (.loaded c)) hch.symm⟩,
    ⟨ch, rfl, rfl⟩, hl⟩

/-- A terminal before a call of `tty_read`, with a number of line ends in the buffer. -/
def waiting (tail : Word) : Terminal :=
  ⟨⟨fun _ => 0, 0, 0⟩, ⟨fun _ => newline, 0, tail⟩, ⟨.outside, 0, []⟩, [], [], []⟩

theorem inv_waiting {t : Word} (ht : t.toNat < TTY_BUF_SIZE) : (waiting t).Inv := by
  have hzero : (0 : Word).toNat < TTY_BUF_SIZE := by decide
  exact ⟨⟨hzero, hzero⟩, rfl, ⟨hzero, ht⟩, nofun, nofun⟩

/-- A line end is put aside and pushed back. -/
theorem read_keeps_iff_newline : ∃ s₁ l, (waiting 2).Step (.call 0) s₁ ∧ Run ReadStep s₁ l ∧
    l.map Prod.fst = [.wake, .load, .pop, .test, .moveFront, .storeFront] ∧ Along Room s₁ l ∧
    ∀ x ∈ l, x.2.reader.pc ≠ .overrun ∧ x.2.stream = [newline, newline] ++ x.2.accepted := by
  have hs := inv_waiting (t := 2) (by decide)
  obtain ⟨s₁, hs₁⟩ : ∃ s₁, s₁ = { waiting 2 with reader := .call 0 } := ⟨_, rfl⟩
  have hcall : (waiting 2).Step (.call 0) s₁ := ⟨rfl, hs₁⟩
  obtain ⟨hwake, hload, hpop, hc⟩ := @pop_steps s₁ newline [newline] (hs.step hcall)
    (by rw [hs₁]; rfl) (by rw [hs₁]; decide)
  obtain ⟨s₄, hs₄⟩ : ∃ s₄, s₄ = s₁.afterPop newline := ⟨_, rfl⟩
  rw [← hs₄] at hpop hc
  have hr : s₄.reader = ⟨.pushing 1, 0, [newline]⟩ := by rw [hs₄, hs₁]; rfl
  have hb : s₄.buffer.Bounded := (((hs.step hcall).step hwake).step hload).step hpop |>.buffer
  have hfull : ¬s₄.buffer.isFull := by rw [TtyQueue.isFull_iff hb, hc]; decide
  have htest : s₄.Step .test (s₄.withPc (.tested 0)) :=
    ⟨0, by rw [hr], by rw [if_neg hfull]; rfl⟩
  obtain ⟨s₆, hmove, hpc⟩ : ∃ s₆, (s₄.withPc (.tested 0)).Step .moveFront s₆ ∧
    s₆.reader.pc = .moved 0 := ⟨_, ⟨0, rfl, rfl⟩, rfl⟩
  have hstore : s₆.Step .storeFront _ := ⟨0, hpc, rfl⟩
  have hrun : Run ReadStep s₁ _ := .cons (hwake.readStep trivial) (.cons (hload.readStep trivial)
    (.cons (hpop.readStep trivial) (.cons (htest.readStep trivial) (.cons (hmove.readStep trivial)
      (.cons (hstore.readStep trivial) (.nil _))))))
  have hroom : s₁.reader.nr ≤ 0 → s₁.reader.tmpbuf.length < TTY_BUF_SIZE := by rw [hs₁]; decide
  have hkeeps := (read_keeps_iff _ _ 0 _ hs (by decide) hcall rfl rfl hrun).2.1
  suffices halong : Along Room s₁ _ from ⟨s₁, _, hcall, hrun, rfl, halong, hkeeps.2 halong⟩
  exact ⟨trivial, trivial, hroom, hfull, hfull, trivial, trivial⟩

/-- A character is typed, and put aside. -/
theorem exists_aside (hs : s.Inv) (hloop : s.reader.pc = .loop)
    (hnil : s.buffer.content = []) : ∃ l, Run ReadStep s l ∧
      ∃ x ∈ l, l.getLast? = some x ∧ x.2.Inv ∧ x.2.buffer.content = [] ∧
        x.2.reader = (s.reader.got 97).1 := by
  obtain ⟨s₁, hst⟩ : ∃ s₁, s.Step (.key 97) s₁ := ⟨_, rfl⟩
  have hs₁ := hs.step hst
  have hfull : ¬s.buffer.isFull := by rw [TtyQueue.isFull_iff hs.buffer, hnil]; decide
  have hc := (buffer_key hs hst).2
  rw [if_neg (by decide), if_neg hfull, hnil] at hc
  have hr : s₁.reader = s.reader := by rw [hst]
  obtain ⟨hwake, hload, hpop, hc'⟩ := pop_steps hs₁ (hr ▸ hloop) hc
  have h97 : TtyAction.key 97 ≠ .key backspace := fun h =>
    absurd (TtyAction.key.inj h) (by decide)
  have hkey : s.ReadStep (.key 97) s₁ := ⟨nofun, h97, hst⟩
  exact ⟨_, .cons hkey (.cons (hwake.readStep trivial) (.cons (hload.readStep trivial)
    (.cons (hpop.readStep trivial) (.nil _)))), _, by simp, rfl,
    ((hs₁.step hwake).step hload).step hpop, hc', by rw [← hr]; rfl⟩

/-- With `n` places left in `tmpbuf`, `n + 1` more characters of a line run past its end. -/
theorem exists_run_overrun (n : Nat) (hs : s.Inv) (hloop : s.reader.pc = .loop)
    (hnr : s.reader.nr ≤ 0) (hnil : s.buffer.content = [])
    (hlen : s.reader.tmpbuf.length + n = TTY_BUF_SIZE) :
    ∃ l, Run ReadStep s l ∧ ∃ x ∈ l, x.2.reader.pc = .overrun := by
  obtain ⟨l, hl, x, hx, hlast, hs', hnil', hr⟩ := exists_aside hs hloop hnil
  induction n generalizing s l x with
  | zero =>
    refine ⟨l, hl, x, hx, ?_⟩
    rw [hr]
    exact got_overrun 97 hnr (by omega)
  | succ n ih =>
    -- no line end has come, so the reader stays in its loop
    have hgot : (s.reader.got 97).1 = ⟨.loop, s.reader.nr, s.reader.tmpbuf ++ [97]⟩ := by
      rw [Reader.got, if_pos hnr, if_pos (by omega), if_neg (by decide)]
    rw [hgot] at hr
    have hloop' : x.2.reader.pc = .loop := by rw [hr]
    have hnr' : x.2.reader.nr ≤ 0 := by rw [hr]; exact hnr
    have hlen' : x.2.reader.tmpbuf.length + n = TTY_BUF_SIZE := by
      rw [hr, List.length_append, List.length_singleton]
      omega
    obtain ⟨l₂, hl₂, y, hy, hlast₂, hs₂, hnil₂, hr₂⟩ := exists_aside hs' hloop' hnil'
    obtain ⟨l', hl', z, hz, hpc⟩ :=
      ih hs' hloop' hnr' hnil' hlen' l₂ hl₂ y hy hlast₂ hs₂ hnil₂ hr₂
    exact ⟨l ++ l', hl.append hlast hl', z, List.mem_append_right _ hz, hpc⟩

/-- A line of 1025 characters is typed while a process reads: the last one is stored past
    the end of `tmpbuf`. -/
theorem exists_overrun : ∃ (s₀ s₁ : Terminal) (l : _), s₀.Inv ∧ s₀.Step (.call 0) s₁ ∧
    Run ReadStep s₁ l ∧
    ∃ x ∈ l, x.2.reader.pc = .overrun := by
  have hs := inv_waiting (t := 0) (by decide)
  obtain ⟨s₁, hst⟩ : ∃ s₁, (waiting 0).Step (.call 0) s₁ := ⟨_, rfl, rfl⟩
  have hr : s₁.reader = ⟨.loop, 0, []⟩ := by rw [hst.2]; rfl
  have hc : s₁.buffer.content = [] := by rw [hst.2]; rfl
  obtain ⟨l, hl, hx⟩ := exists_run_overrun 1024 (hs.step hst) (by rw [hr]) (by rw [hr]) hc
    (by rw [hr]; rfl)
  exact ⟨_, s₁, l, hs, hst, hl, hx⟩

end Terminal

end NeuOs
