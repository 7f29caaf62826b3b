import NeuOs.Tty.Backspace
import NeuOs.Tty.UserWrite

/-!
# The echo of the input (kernel/chr_drv/tty_io.c)

The characters that change the buffer of a terminal are meant to be echoed if `TTY_ECHO` is
set, and no others (`Tty.expected`).

`copy_to_buffer` tests `tty->flags | TTY_ECHO`, which always holds, and it echoes all
characters that get to this test. `echo_iff` says exactly when these are the characters
that are meant to be echoed.
-/

namespace NeuOs

abbrev TTY_ECHO : Word := 1

/-- A `struct tty_struct` that writes to the console, with the console and the characters that
    have been passed to `video_putchar`. -/
structure Tty where
  flags : Word
  readQ : TtyQueue
  writeQ : TtyQueue
  buffer : TtyQueue
  console : Console
  passed : List Byte

namespace Tty

/-! ## The code -/

/-- `tty->write(tty)` -/
def write (t : Tty) : Tty :=
  { t with
    writeQ := (Console.conWrite TTY_BUF_SIZE t.writeQ t.console).1
    console := (Console.conWrite TTY_BUF_SIZE t.writeQ t.console).2
    passed := t.passed ++ Console.drained TTY_BUF_SIZE t.writeQ }

/-- The end of the loop of `copy_to_buffer`. -/
def echo (t : Tty) (ch : Byte) : Tty :=
  if t.flags ||| TTY_ECHO ≠ 0 then { t with writeQ := (t.writeQ.push ch).2 }.write else t

/-- `copy_to_buffer`, with the echo. -/
def copyToBuffer : ℕ → Tty → Tty
  | 0, t => t
  | fuel + 1, t =>
    if t.readQ.isEmpty then t
    else
      let (ch, readQ) := t.readQ.take
      match edit t.buffer ch with
      | none => copyToBuffer fuel { t with readQ := readQ }
      | some buffer => copyToBuffer fuel ({ t with readQ := readQ, buffer := buffer }.echo ch)

/-! ## What should be echoed -/

/-- The characters of a list with a property of the buffer before them and the character. -/
def sent (p : TtyQueue → Byte → Bool) (q : TtyQueue) : List Byte → List Byte
  | [] => []
  | ch :: l =>
    if p q ch then ch :: sent p ((edit q ch).getD q) l else sent p ((edit q ch).getD q) l

/-- A character changes the buffer: it is stored, or it erases one. -/
def changes (q : TtyQueue) (ch : Byte) : Bool := ((edit q ch).getD q).content != q.content

/-- What should be passed to `video_putchar`. -/
def expected (t : Tty) : List Byte :=
  if t.flags &&& TTY_ECHO ≠ 0 then sent changes t.buffer t.readQ.content else []

/-- With `TTY_ECHO`, a character other than a backspace finds room in the buffer. Without it,
    all characters are backspaces that `copy_to_buffer` skips. -/
def Echoes (flags : Word) (q : TtyQueue) (ch : Byte) : Prop :=
  if flags &&& TTY_ECHO ≠ 0 then ch = backspace ∨ ¬q.isFull
  else ch = backspace ∧ (q.isEmpty ∨ q.buf q.tail.toNat = newline)

variable {t : Tty} {q : TtyQueue} {p p' : TtyQueue → Byte → Bool} {ch : Byte} {fuel : ℕ}

/-! ## What is echoed -/

/-- The test of the flags holds for all flags. -/
theorem flags_or_ne (flags : Word) : flags ||| TTY_ECHO ≠ 0 := by
  intro h
  have hbit := congrArg (BitVec.getLsbD · 0) h
  rw [BitVec.getLsbD_or] at hbit
  exact absurd hbit (by generalize flags.getLsbD 0 = b; revert b; decide)

/-- An echo passes the character, and leaves the queue empty. -/
theorem echo_spec (hb : t.writeQ.Bounded) (hempty : t.writeQ.content = []) (ch : Byte) :
    (t.echo ch).passed = t.passed ++ [ch] ∧ (t.echo ch).writeQ.Bounded ∧
      (t.echo ch).writeQ.content = [] := by
  have hfull : ¬t.writeQ.isFull := by
    rw [TtyQueue.isFull_iff hb, hempty]
    decide
  have hc : (t.writeQ.push ch).2.content = [ch] := by
    rw [(TtyQueue.push_spec hb hfull).2, hempty]
    rfl
  have hfuel : (t.writeQ.push ch).2.content.length ≤ TTY_BUF_SIZE := by
    rw [hc]
    exact Nat.le_add_left 1 1023
  rw [echo, if_pos (flags_or_ne t.flags)]
  refine ⟨?_, Console.bounded_conWrite hb.push _, (Console.conWrite_spec hb.push hfuel _).1⟩
  exact congrArg (t.passed ++ ·) ((Console.drained_spec hb.push hfuel).trans hc)

theorem echo_frame (t : Tty) (ch : Byte) : (t.echo ch).flags = t.flags ∧
    (t.echo ch).readQ = t.readQ ∧ (t.echo ch).buffer = t.buffer := by
  rw [echo]
  split_ifs <;> exact ⟨rfl, rfl, rfl⟩

/-- The queues and the echo are those of `copy_to_buffer` without a console. -/
theorem copyToBuffer_spec (hb : t.writeQ.Bounded) (hempty : t.writeQ.content = []) :
    (t.copyToBuffer fuel).readQ = (NeuOs.copyToBuffer fuel t.readQ t.buffer).1 ∧
      (t.copyToBuffer fuel).buffer = (NeuOs.copyToBuffer fuel t.readQ t.buffer).2.1 ∧
      (t.copyToBuffer fuel).passed = t.passed ++ (NeuOs.copyToBuffer fuel t.readQ t.buffer).2.2 ∧
      (t.copyToBuffer fuel).writeQ.content = [] := by
  induction fuel generalizing t with
  | zero => exact ⟨rfl, rfl, (List.append_nil _).symm, hempty⟩
  | succ fuel ih =>
    rw [copyToBuffer, NeuOs.copyToBuffer]
    by_cases hemp : t.readQ.isEmpty
    · rw [if_pos hemp, if_pos hemp]
      exact ⟨rfl, rfl, (List.append_nil _).symm, hempty⟩
    · rw [if_neg hemp, if_neg hemp]
      dsimp only
      cases edit t.buffer t.readQ.take.1 with
      | none => exact ih hb hempty
      | some buffer =>
        obtain ⟨hpassed, hb', hempty'⟩ := echo_spec
          (t := { t with readQ := t.readQ.take.2, buffer := buffer }) hb hempty t.readQ.take.1
        obtain ⟨-, hr, hbuf⟩ := echo_frame { t with readQ := t.readQ.take.2, buffer := buffer }
          t.readQ.take.1
        have hrest := ih hb' hempty'
        rw [hr, hbuf, hpassed] at hrest
        refine ⟨hrest.1, hrest.2.1, hrest.2.2.1.trans ?_, hrest.2.2.2⟩
        rw [List.append_assoc]
        rfl

/-- All characters that are not skipped are echoed. -/
theorem echo_eq_sent {readQ : TtyQueue} (h : readQ.Bounded) (hfuel : readQ.content.length ≤ fuel) :
    (NeuOs.copyToBuffer fuel readQ q).2.2 =
      sent (fun q ch => (edit q ch).isSome) q readQ.content := by
  induction fuel generalizing readQ q with
  | zero =>
    have hnil := List.length_eq_zero_iff.1 (Nat.le_zero.1 hfuel)
    rw [hnil]
    rfl
  | succ fuel ih =>
    cases hc : readQ.content with
    | nil =>
      rw [Terminal.copyToBuffer_nil h hc]
      rfl
    | cons ch l =>
      obtain ⟨-, hb, hrest⟩ := TtyQueue.take_cons h hc
      rw [hc, List.length_cons] at hfuel
      have hecho := ih (q := (edit q ch).getD q) hb (by rw [hrest]; omega)
      rw [Terminal.copyToBuffer_cons h hc, sent, ← hrest, ← hecho]

/-! ## When they agree -/

theorem length_sent_le (hpp : ∀ q ch, p q ch → p' q ch) (q : TtyQueue) (l : List Byte) :
    (sent p q l).length ≤ (sent p' q l).length := by
  induction l generalizing q with
  | nil => exact le_refl _
  | cons ch l ih =>
    have hle := ih ((edit q ch).getD q)
    rw [sent, sent]
    by_cases h : p q ch
    · rw [if_pos h, if_pos (hpp q ch h)]
      exact Nat.succ_le_succ hle
    · rw [if_neg h]
      split_ifs
      · exact Nat.le_succ_of_le hle
      · exact hle

/-- If one property implies another one, the same characters have both exactly if they agree
    at each character. -/
theorem sent_eq_iff (hpp : ∀ q ch, p q ch → p' q ch) (q : TtyQueue) (l : List Byte) :
    sent p' q l = sent p q l ↔ ∀ n ch, l[n]? = some ch →
      (p' ((l.take n).foldl (fun q ch => (edit q ch).getD q) q) ch →
        p ((l.take n).foldl (fun q ch => (edit q ch).getD q) q) ch) := by
  induction l generalizing q with
  | nil => exact ⟨fun _ n ch hch => (by cases hch), fun _ => rfl⟩
  | cons ch l ih =>
    have hle := length_sent_le hpp ((edit q ch).getD q) l
    have hsucc : (∀ n x, (ch :: l)[n]? = some x →
        (p' (((ch :: l).take n).foldl (fun q ch => (edit q ch).getD q) q) x →
          p (((ch :: l).take n).foldl (fun q ch => (edit q ch).getD q) q) x)) ↔
        (p' q ch → p q ch) ∧ sent p' ((edit q ch).getD q) l = sent p ((edit q ch).getD q) l := by
      rw [ih]
      constructor
      · exact fun h => ⟨h 0 ch rfl, fun n x hx => h (n + 1) x hx⟩
      · rintro ⟨h0, hrest⟩ n x hx
        cases n with
        | zero =>
          obtain rfl := Option.some.inj hx
          exact h0
        | succ n => exact hrest n x hx
    rw [hsucc, sent, sent]
    by_cases h' : p' q ch
    · rw [if_pos h']
      by_cases h : p q ch
      · rw [if_pos h, List.cons_inj_right]
        exact ⟨fun heq => ⟨fun _ => h, heq⟩, fun hand => hand.2⟩
      · -- the list of the weaker property is longer
        rw [if_neg h]
        refine ⟨fun heq => ?_, fun hand => absurd (hand.1 h') h⟩
        have hlen := congrArg List.length heq
        rw [List.length_cons] at hlen
        omega
    · rw [if_neg h', if_neg fun h => h' (hpp q ch h)]
      exact ⟨fun heq => ⟨fun h => absurd h h', heq⟩, fun hand => hand.2⟩

/-- A character that changes the buffer is not skipped. -/
theorem isSome_of_changes (h : changes q ch) : (edit q ch).isSome := by
  rw [changes] at h
  cases hedit : edit q ch with
  | none =>
    rw [hedit] at h
    exact absurd h (by simp)
  | some q' => rfl

/-- The characters that change the buffer, of those that are not skipped. -/
theorem changes_iff (hq : q.Bounded) :
    ((edit q ch).isSome → changes q ch) ↔ ch = backspace ∨ ¬q.isFull := by
  by_cases hch : ch = backspace
  · refine iff_of_true (fun hsome => ?_) (.inl hch)
    subst hch
    rw [changes, bne_iff_ne, (Terminal.edit_backspace hq).2]
    rw [edit, if_pos rfl] at hsome
    by_cases hemp : q.isEmpty
    · rw [if_pos hemp] at hsome
      cases hsome
    rw [if_neg hemp] at hsome
    by_cases hcell : q.buf q.tail.toNat = newline
    · rw [if_pos hcell] at hsome
      cases hsome
    rw [if_neg hcell]
    -- a backspace that is not skipped finds a character to erase
    exact dropLast_eq_self.not.2 fun hnil => hemp ((TtyQueue.isEmpty_iff hq).2 hnil)
  · have hsome : (edit q ch).isSome := by
      rw [edit, if_neg hch]
      split_ifs <;> rfl
    -- an ordinary character is lost only in a full buffer, but is never skipped
    have hc := (Terminal.edit_of_ne hq hch).2
    rw [changes, hc, bne_iff_ne]
    by_cases hfull : q.isFull
    · rw [if_pos hfull]
      exact iff_of_false (fun h => h hsome rfl) fun h => h.elim hch fun h => h hfull
    · rw [if_neg hfull]
      refine iff_of_true (fun _ heq => ?_) (.inr hfull)
      exact List.cons_ne_nil _ _ (List.append_right_eq_self.1 heq)

/-- The characters that are skipped. -/
theorem edit_eq_none_iff : ((edit q ch).isSome → false) ↔
    ch = backspace ∧ (q.isEmpty ∨ q.buf q.tail.toNat = newline) := by
  rw [edit]
  by_cases hch : ch = backspace
  · rw [if_pos hch]
    by_cases hemp : q.isEmpty
    · rw [if_pos hemp]
      exact iff_of_true (fun h => h) ⟨hch, .inl hemp⟩
    · rw [if_neg hemp]
      by_cases hcell : q.buf q.tail.toNat = newline
      · rw [if_pos hcell]
        exact iff_of_true (fun h => h) ⟨hch, .inr hcell⟩
      · rw [if_neg hcell]
        exact iff_of_false (fun h => Bool.noConfusion (h rfl)) fun h => h.2.elim hemp hcell
  · rw [if_neg hch]
    refine iff_of_false (fun h => Bool.noConfusion (h ?_)) fun h => hch h.1
    split_ifs <;> rfl

theorem sent_false (q : TtyQueue) (l : List Byte) : sent (fun _ _ => false) q l = [] := by
  induction l generalizing q with
  | nil => rfl
  | cons ch l ih => exact ih _

/-- `copy_to_buffer` echoes the characters that should be echoed exactly if, with `TTY_ECHO`, no
    character finds the buffer full, and without it, every character is skipped. -/
theorem echo_iff (t : Tty) (hr : t.readQ.Bounded) (hw : t.writeQ.Bounded) (hb : t.buffer.Bounded)
    (hempty : t.writeQ.isEmpty) :
    (t.copyToBuffer TTY_BUF_SIZE).passed = t.passed ++ t.expected ↔
      ∀ n ch, t.readQ.content[n]? = some ch →
        Echoes t.flags (bufferAfter t.readQ t.buffer n) ch := by
  have hlen := Nat.le_of_lt (TtyQueue.length_content_lt hr)
  rw [(copyToBuffer_spec hw ((TtyQueue.isEmpty_iff hw).1 hempty)).2.2.1, echo_eq_sent hr hlen,
    List.append_cancel_left_eq, expected]
  by_cases hflag : t.flags &&& TTY_ECHO ≠ 0
  · rw [if_pos hflag, sent_eq_iff fun _ _ => isSome_of_changes]
    refine forall₃_congr fun n ch _ => ?_
    rw [← bufferAfter_eq_foldl hr, changes_iff (bounded_bufferAfter hr hb n), Echoes, if_pos hflag]
  · rw [if_neg hflag, ← sent_false t.buffer t.readQ.content,
      sent_eq_iff fun _ _ h => Bool.noConfusion h]
    refine forall₃_congr fun n ch _ => ?_
    rw [← bufferAfter_eq_foldl hr, edit_eq_none_iff, Echoes, if_neg hflag]

/-- A terminal with an `a` in the raw queue, and nothing in the other queues. -/
def typed (flags : Word) (c : Console) : Tty :=
  ⟨flags, ⟨fun _ => 97, 0, 1⟩, ⟨fun _ => 0, 0, 0⟩, ⟨fun _ => 0, 0, 0⟩, c, []⟩

theorem typed_spec (flags : Word) (c : Console) : (typed flags c).readQ.Bounded ∧
    (typed flags c).readQ.content = [97] ∧ (typed flags c).writeQ.Bounded ∧
      (typed flags c).buffer.Bounded ∧ (typed flags c).writeQ.isEmpty := by
  have hkey : TtyQueue.Bounded ⟨fun _ => 97, 0, 1⟩ := ⟨by decide, by decide⟩
  have hzero : TtyQueue.Bounded ⟨fun _ => 0, 0, 0⟩ := ⟨by decide, by decide⟩
  exact ⟨hkey, rfl, hzero, hzero, rfl⟩

/-- An `a` is echoed with `TTY_ECHO`. -/
theorem echo_iff_char : ∃ t : Tty, t.flags = TTY_ECHO ∧ t.readQ.content = [97] ∧
    (t.copyToBuffer TTY_BUF_SIZE).passed = t.passed ++ t.expected := by
  obtain ⟨c⟩ : Nonempty Console := ⟨⟨fun _ => 0, 0, 0, 0, 0⟩⟩
  obtain ⟨hr, hc, hw, hb, hempty⟩ := typed_spec TTY_ECHO c
  refine ⟨typed TTY_ECHO c, rfl, hc, (echo_iff _ hr hw hb hempty).2 fun n ch hch => ?_⟩
  rw [hc] at hch
  cases n with
  | zero =>
    have hon : (TTY_ECHO : Word) &&& TTY_ECHO ≠ 0 := by decide
    exact (if_pos hon).mpr (.inr Bool.noConfusion)
  | succ n => cases hch

/-- Without `TTY_ECHO`, an `a` is echoed all the same. -/
theorem echo_without_flag : ∃ t : Tty, t.readQ.Bounded ∧ t.writeQ.Bounded ∧ t.buffer.Bounded ∧
    t.writeQ.isEmpty ∧ t.flags = 0 ∧
      (t.copyToBuffer TTY_BUF_SIZE).passed ≠ t.passed ++ t.expected := by
  obtain ⟨c⟩ : Nonempty Console := ⟨⟨fun _ => 0, 0, 0, 0, 0⟩⟩
  obtain ⟨hr, hc, hw, hb, hempty⟩ := typed_spec 0 c
  refine ⟨typed 0 c, hr, hw, hb, hempty, rfl, fun h => ?_⟩
  have hlen := Nat.le_of_lt (TtyQueue.length_content_lt hr)
  have hnone : (typed 0 c).expected = [] := if_neg (not_not.2 (BitVec.zero_and (x := TTY_ECHO)))
  rw [(copyToBuffer_spec hw ((TtyQueue.isEmpty_iff hw).1 hempty)).2.2.1, echo_eq_sent hr hlen,
    hnone, List.append_cancel_left_eq, hc] at h
  exact List.cons_ne_nil _ _ h

end Tty

end NeuOs
