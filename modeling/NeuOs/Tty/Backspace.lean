import NeuOs.Tty.Read

/-!
# Erasing in the input buffer (kernel/chr_drv/tty_io.c)

With no reader running, the characters of the raw queue are meant to edit the buffer like
a line editor (`lineEdit`): a backspace erases the last character, but not the end of a
line.

`copy_to_buffer` looks for the end of the line in the cell after the last character, where
there is what earlier characters have left. `lineEdit_iff` says exactly when this makes no
difference.
-/

namespace NeuOs

/-- What a character is meant to do to the buffer. -/
def lineEdit (l : List Byte) (ch : Byte) : List Byte :=
  if ch = backspace then
    if l.getLast? = some newline then l else l.dropLast
  else if l.length < TTY_BUF_SIZE - 1 then l ++ [ch]
  else l

/-- The raw queue after some rounds of the loop of `copy_to_buffer`. -/
def readQAfter (readQ buffer : TtyQueue) (n : ℕ) : TtyQueue := (copyToBuffer n readQ buffer).1

/-- The buffer after some rounds of the loop of `copy_to_buffer`. -/
def bufferAfter (readQ buffer : TtyQueue) (n : ℕ) : TtyQueue := (copyToBuffer n readQ buffer).2.1

/-- A backspace finds a `'\n'` in the cell after the last character exactly if the last
    character is one. -/
def LooksAtLast (q : TtyQueue) (ch : Byte) : Prop :=
  ch = backspace → q.content ≠ [] →
    (q.buf q.tail.toNat = newline ↔ q.content.getLast? = some newline)

variable {readQ buffer q : TtyQueue} {ch : Byte} {l : List Byte} {n : ℕ}

/-! ## The rounds of the loop -/

/-- The next round takes the next character. -/
theorem content_readQAfter (h : readQ.Bounded) (n : ℕ) : (readQAfter readQ buffer n).Bounded ∧
    (readQAfter readQ buffer n).content = readQ.content.drop n := by
  rw [readQAfter]
  induction n generalizing readQ buffer with
  | zero => exact ⟨h, rfl⟩
  | succ n ih =>
    cases hc : readQ.content with
    | nil =>
      rw [Terminal.copyToBuffer_nil h hc]
      exact ⟨h, hc⟩
    | cons ch l =>
      obtain ⟨-, hb, hrest⟩ := TtyQueue.take_cons h hc
      rw [Terminal.copyToBuffer_cons h hc, List.drop_succ_cons, ← hrest]
      exact ih hb

/-- The rounds edit the buffer with one character after the other. -/
theorem bufferAfter_eq_foldl (h : readQ.Bounded) (n : ℕ) : bufferAfter readQ buffer n =
    (readQ.content.take n).foldl (fun q ch => (edit q ch).getD q) buffer := by
  rw [bufferAfter]
  induction n generalizing readQ buffer with
  | zero => rfl
  | succ n ih =>
    cases hc : readQ.content with
    | nil =>
      rw [Terminal.copyToBuffer_nil h hc]
      rfl
    | cons ch l =>
      obtain ⟨-, hb, hrest⟩ := TtyQueue.take_cons h hc
      rw [Terminal.copyToBuffer_cons h hc, List.take_succ_cons, List.foldl_cons, ← hrest]
      exact ih hb

theorem take_succ_of_getElem? {l : List Byte} (hch : l[n]? = some ch) :
    l.take (n + 1) = l.take n ++ [ch] := by
  rw [List.take_add_one, hch]
  rfl

/-- A round with a character. -/
theorem bufferAfter_succ (h : readQ.Bounded) (hch : readQ.content[n]? = some ch) :
    bufferAfter readQ buffer (n + 1) =
      (edit (bufferAfter readQ buffer n) ch).getD (bufferAfter readQ buffer n) := by
  rw [bufferAfter_eq_foldl h, bufferAfter_eq_foldl h, take_succ_of_getElem? hch, List.foldl_append]
  rfl

theorem bounded_edit (h : q.Bounded) (ch : Byte) : ((edit q ch).getD q).Bounded := by
  by_cases hch : ch = backspace
  · rw [hch]
    exact (Terminal.edit_backspace h).1
  · exact (Terminal.edit_of_ne h hch).1

theorem bounded_bufferAfter (h : readQ.Bounded) (hb : buffer.Bounded) (n : ℕ) :
    (bufferAfter readQ buffer n).Bounded := by
  rw [bufferAfter_eq_foldl h]
  generalize readQ.content.take n = l
  induction l generalizing buffer with
  | nil => exact hb
  | cons ch l ih => exact ih (bounded_edit hb ch)

/-! ## The buffer -/

/-- One character edits the buffer as it is meant to exactly if a backspace looks at the last
    character. -/
theorem content_edit_iff (h : q.Bounded) :
    ((edit q ch).getD q).content = lineEdit q.content ch ↔ LooksAtLast q ch := by
  by_cases hch : ch = backspace
  · subst hch
    rw [(Terminal.edit_backspace h).2, lineEdit, if_pos rfl, LooksAtLast]
    by_cases hnil : q.content = []
    · rw [hnil, List.dropLast_nil, ite_self, ite_self]
      exact ⟨fun _ _ hne => absurd rfl hne, fun _ => rfl⟩
    have hdrop : q.content.dropLast ≠ q.content := dropLast_eq_self.not.2 hnil
    by_cases hcell : q.buf q.tail.toNat = newline
    · rw [if_pos hcell]
      by_cases hlast : q.content.getLast? = some newline
      · rw [if_pos hlast]
        exact ⟨fun _ _ _ => ⟨fun _ => hlast, fun _ => hcell⟩, fun _ => rfl⟩
      · rw [if_neg hlast]
        exact ⟨fun heq => absurd heq.symm hdrop, fun hiff => absurd ((hiff rfl hnil).1 hcell) hlast⟩
    · rw [if_neg hcell]
      by_cases hlast : q.content.getLast? = some newline
      · rw [if_pos hlast]
        exact ⟨fun heq => absurd heq hdrop, fun hiff => absurd ((hiff rfl hnil).2 hlast) hcell⟩
      · rw [if_neg hlast]
        exact ⟨fun _ _ _ => ⟨fun h => absurd h hcell, fun h => absurd h hlast⟩, fun _ => rfl⟩
  · refine ⟨fun _ hb => absurd hb hch, fun _ => ?_⟩
    have hlt := TtyQueue.length_content_lt h
    have hfull := TtyQueue.isFull_iff h
    rw [(Terminal.edit_of_ne h hch).2, lineEdit, if_neg hch]
    by_cases hroom : q.isFull
    · have hlen := hfull.1 hroom
      rw [if_pos hroom, if_neg (by omega)]
    · have hlen := hfull.not.1 hroom
      rw [if_neg hroom, if_pos (by omega)]

/-- After every round of `copy_to_buffer`, the buffer has the characters that it is meant to
    have, exactly if every backspace looks at the last character. -/
theorem lineEdit_iff (readQ buffer : TtyQueue) (h : readQ.Bounded) (hb : buffer.Bounded) :
    (∀ n, (bufferAfter readQ buffer n).content =
      (readQ.content.take n).foldl lineEdit buffer.content) ↔
    ∀ n ch, readQ.content[n]? = some ch → LooksAtLast (bufferAfter readQ buffer n) ch := by
  constructor
  · intro hall n ch hch
    have hnext := hall (n + 1)
    rw [bufferAfter_succ h hch, take_succ_of_getElem? hch, List.foldl_append, ← hall n] at hnext
    exact (content_edit_iff (bounded_bufferAfter h hb n)).1 hnext
  · intro hlooks n
    induction n with
    | zero => rfl
    | succ n ih =>
      cases hch : readQ.content[n]? with
      | none =>
        -- the loop has ended
        have hlen := List.getElem?_eq_none_iff.1 hch
        rw [bufferAfter_eq_foldl h, List.take_of_length_le hlen] at ih
        rw [bufferAfter_eq_foldl h, List.take_of_length_le (Nat.le_succ_of_le hlen), ih]
      | some ch =>
        have hedit := (content_edit_iff (bounded_bufferAfter h hb n)).2 (hlooks n ch hch)
        rw [bufferAfter_succ h hch, take_succ_of_getElem? hch, List.foldl_append, ← ih, hedit]
        rfl

/-- In particular, the last round leaves the raw queue empty. -/
theorem readQAfter_empty (h : readQ.Bounded) :
    (readQAfter readQ buffer TTY_BUF_SIZE).content = [] := by
  rw [(content_readQAfter h _).2]
  exact List.drop_eq_nil_iff.2 (Nat.le_of_lt (TtyQueue.length_content_lt h))

/-- An `a` is erased from a buffer whose unused cells are not `'\n'`. -/
theorem lineEdit_iff_char : ∃ readQ buffer : TtyQueue, readQ.content = [97, backspace] ∧
    ∀ n, (bufferAfter readQ buffer n).content =
      (readQ.content.take n).foldl lineEdit buffer.content := by
  obtain ⟨readQ, hreadQ⟩ : ∃ q : TtyQueue, q = ⟨fun i => if i = 0 then 97 else backspace, 0, 2⟩ :=
    ⟨_, rfl⟩
  obtain ⟨buffer, hbuffer⟩ : ∃ q : TtyQueue, q = ⟨fun _ => 0, 5, 5⟩ := ⟨_, rfl⟩
  have hc : readQ.content = [97, backspace] := by rw [hreadQ]; decide
  refine ⟨readQ, buffer, hc, (lineEdit_iff readQ buffer ?_ ?_).2 fun n ch hch hback _ => ?_⟩
  · rw [hreadQ]
    exact ⟨by decide, by decide⟩
  · rw [hbuffer]
    exact ⟨by decide, by decide⟩
  · rw [hc] at hch
    have hn : n = 1 := by
      subst hback
      rcases n with _ | _ | n
      · exact absurd (Option.some.inj hch) (by decide)
      · rfl
      · cases hch
    rw [hn, hreadQ, hbuffer]
    decide

/-- A backspace erases the `'\n'` of a line that has ended. -/
theorem newline_erased : ∃ readQ buffer : TtyQueue, readQ.Bounded ∧ buffer.Bounded ∧
    readQ.content = [newline, backspace] ∧
      (bufferAfter readQ buffer TTY_BUF_SIZE).content = [] ∧
        readQ.content.foldl lineEdit buffer.content = [newline] :=
  ⟨⟨fun i => if i = 0 then newline else backspace, 0, 2⟩, ⟨fun _ => 0, 0, 0⟩,
    ⟨by decide, by decide⟩, ⟨by decide, by decide⟩, by decide, by decide, by decide⟩

end NeuOs
