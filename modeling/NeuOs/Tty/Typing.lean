import NeuOs.Tty.Getline
import NeuOs.Tty.Keyboard

/-!
# From the keyboard to the lines that are read

The whole way of a key: `do_keyboard_interrupt` decodes its scancode, `copy_to_buffer` edits the
buffer of the terminal and echoes, and a process reads lines with `getline`.

The interrupts of the keyboard are the keystrokes of a `LineReader` (`Desk.key_step`,
`Desk.reachable_process`): a modifier or a release is none, and any other scancode is one, since the
raw queue is empty between two interrupts. So the process gets the lines of the edited characters
that have been decoded (`lines_typed`).
-/

namespace NeuOs

open Transition

/-- The queue that is written stays bounded. -/
theorem Tty.bounded_copyToBuffer {t : Tty} (hb : t.writeQ.Bounded) (fuel : ℕ) :
    (t.copyToBuffer fuel).writeQ.Bounded := by
  induction fuel generalizing t with
  | zero => exact hb
  | succ fuel ih =>
    rw [copyToBuffer]
    split_ifs
    · exact hb
    · dsimp only
      cases edit t.buffer t.readQ.take.1 with
      | none => exact ih hb
      | some buffer =>
        refine ih ?_
        rw [echo, if_pos (flags_or_ne t.flags)]
        exact Console.bounded_conWrite hb.push _

/-- An interrupt enqueues one character or none. -/
theorem Keyboard.length_queued_le (around : Table → ℕ → Byte) (k : Keyboard) (scancode : Byte) :
    (k.doKeyboardInterrupt around scancode).2.queued.length ≤ 1 := by
  by_cases hs : Silent scancode
  · rw [(@silent_spec scancode around k hs).2]
    exact Nat.zero_le 1
  · rw [(@press_spec scancode around k hs).2]
    dsimp only
    split_ifs
    · exact le_rfl
    · exact Nat.zero_le 1

/-- Each scancode has enqueued one character or none, which is what it should enqueue if it is
    decodable after the scancodes before it. -/
inductive Decoding : List Byte → List Byte → Prop
  | nil : Decoding [] []
  | key {h l : List Byte} {scancode : Byte} {d : Decoded} : Decoding h l → d.queued.length ≤ 1 →
      (Decodable h scancode → Decodes h scancode d) → Decoding (h ++ [scancode]) (l ++ d.queued)

/-! ## The desk -/

/-- A keyboard with its terminal, and a process that reads lines from it; the scancodes, and the
    characters that the interrupts have enqueued. -/
structure Desk where
  keyboard : Keyboard
  reader : Reader
  delivered : List Byte
  phase : Phase
  ch : Byte
  str : List Byte
  returned : List Gotten
  codes : List Byte
  typed : List Byte

inductive DeskAction
  /-- The interrupt of the keyboard. -/
  | key (scancode : Byte)
  /-- A step of the process. -/
  | process (a : LineAction)

namespace Desk

/-- The process with the queues of the terminal. -/
def process (d : Desk) (accepted : List Byte) : LineReader where
  terminal :=
    ⟨d.keyboard.tty.readQ, d.keyboard.tty.buffer, d.reader, d.delivered, d.typed, accepted⟩
  phase := d.phase
  ch := d.ch
  str := d.str
  returned := d.returned

/-- The desk after a step of the process, which changes the buffer of the terminal. -/
def withProcess (d : Desk) (s : LineReader) : Desk where
  keyboard := { d.keyboard with tty := { d.keyboard.tty with buffer := s.terminal.buffer } }
  reader := s.terminal.reader
  delivered := s.terminal.delivered
  phase := s.phase
  ch := s.ch
  str := s.str
  returned := s.returned
  codes := d.codes
  typed := d.typed

/-- The steps: an interrupt, or a step of the process that is no keystroke. -/
def Step (around : Table → ℕ → Byte) (d : Desk) (a : DeskAction) (d' : Desk) : Prop :=
  match a with
  | .key scancode => d' = { d with
      keyboard := (d.keyboard.doKeyboardInterrupt around scancode).1
      codes := d.codes ++ [scancode]
      typed := d.typed ++ (d.keyboard.doKeyboardInterrupt around scancode).2.queued }
  | .process a => (∀ ch, a ≠ .terminal (.key ch)) ∧
      ∃ s, (d.process []).Step a s ∧ d' = d.withProcess s

/-- Reads and keystrokes commute. -/
def Settled (around : Table → ℕ → Byte) (d : Desk) : DeskAction → Prop
  | .key scancode => ∀ ch ∈ (d.keyboard.doKeyboardInterrupt around scancode).2.queued,
      (d.process []).terminal.Settled (.key ch)
  | .process a => (d.process []).Settled a

/-- The desk at the boot, with `tty_table[0]`. -/
def boot (c : Console) : Desk where
  keyboard := .boot ⟨TTY_ECHO, ⟨fun _ => 0, 0, 0⟩, ⟨fun _ => 0, 0, 0⟩, ⟨fun _ => 0, 0, 0⟩, c, []⟩
  reader := ⟨.outside, 0, []⟩
  delivered := []
  phase := .outside
  ch := 0
  str := []
  returned := []
  codes := []
  typed := []

/-- The states that are reached in settled steps. -/
abbrev Reachable (around : Table → ℕ → Byte) (c : Console) : Desk → Prop :=
  Transition.Reachable (· = boot c) fun d a d' => d.Step around a d' ∧ d.Settled around a

variable {around : Table → ℕ → Byte} {c : Console} {d d' : Desk} {a : LineAction} {s : LineReader}
  {accepted : List Byte} {h : List Byte}

/-! ## The interrupt is a keystroke -/

/-- An interrupt is a keystroke, or it does not reach the terminal; and it leaves nothing to
    write. -/
theorem key_step (hk : Keyboard.Inv h d.keyboard) (hb : d.keyboard.tty.writeQ.Bounded)
    (hempty : d.keyboard.tty.writeQ.content = []) (accepted : List Byte) {scancode : Byte}
    (hst : d.Step around (.key scancode) d') : d'.keyboard.tty.writeQ.Bounded ∧
      d'.keyboard.tty.writeQ.content = [] ∧ (d'.process accepted = d.process accepted ∨
        ∃ ch accepted', (d.keyboard.doKeyboardInterrupt around scancode).2.queued = [ch] ∧
          (d.process accepted).Step (.terminal (.key ch)) (d'.process accepted')) := by
  obtain rfl := hst
  by_cases hs : Silent scancode
  · obtain ⟨htty, hdecoded⟩ := @Keyboard.silent_spec scancode around d.keyboard hs
    refine ⟨htty ▸ hb, htty ▸ hempty, .inl ?_⟩
    rw [process, process, htty, hdecoded, List.append_nil]
  · obtain ⟨htty, -⟩ := @Keyboard.press_spec scancode around d.keyboard hs
    have hqueued : (d.keyboard.doKeyboardInterrupt around scancode).2.queued =
        [(d.keyboard.decode around scancode).1] := by rw [hk.press hs]
    obtain ⟨ch, hch⟩ : ∃ ch, ch = (d.keyboard.decode around scancode).1 := ⟨_, rfl⟩
    rw [← hch] at htty hqueued
    obtain ⟨t, ht⟩ : ∃ t : Tty, t = { d.keyboard.tty with
      readQ := (d.keyboard.tty.readQ.push ch).2 } := ⟨_, rfl⟩
    rw [← ht] at htty
    have hb' : t.writeQ.Bounded := ht ▸ hb
    have hempty' : t.writeQ.content = [] := ht ▸ hempty
    obtain ⟨hreadQ, hbuffer, -, hwritten⟩ := @Tty.copyToBuffer_spec t TTY_BUF_SIZE hb' hempty'
    refine ⟨htty ▸ Tty.bounded_copyToBuffer hb' _, htty ▸ hwritten, .inr ⟨ch,
      if ch = backspace ∨ d.keyboard.tty.buffer.isFull then accepted else accepted ++ [ch], hqueued,
      fun nr hc => (by cases hc), _, rfl, ?_⟩⟩
    -- the queues are those of the keystroke, which has no echo
    rw [process, process, htty, hqueued, hreadQ, hbuffer, ht]
    rfl

/-- A step of the process does not depend on what has been accepted. -/
theorem process_step (ha : ∀ ch, a ≠ .terminal (.key ch)) (hst : (d.process []).Step a s)
    (accepted : List Byte) :
    (d.process accepted).Step a ((d.withProcess s).process accepted) := by
  cases a with
  | terminal a =>
    obtain ⟨hcall, t, ht, rfl⟩ := hst
    refine ⟨hcall, _, ?_, rfl⟩
    cases a with
    | key ch => exact absurd rfl (ha ch)
    | call nr => exact absurd rfl (hcall nr)
    | wake =>
      obtain ⟨hpc, hne, rfl⟩ := ht
      exact ⟨hpc, hne, rfl⟩
    | load =>
      obtain ⟨hpc, rfl⟩ := ht
      exact ⟨hpc, rfl⟩
    | pop =>
      obtain ⟨ch, hpc, rfl⟩ := ht
      exact ⟨ch, hpc, rfl⟩
    | test =>
      obtain ⟨n, hn, rfl⟩ := ht
      exact ⟨n, hn, rfl⟩
    | moveFront =>
      obtain ⟨n, hn, rfl⟩ := ht
      exact ⟨n, hn, rfl⟩
    | storeFront =>
      obtain ⟨n, hn, rfl⟩ := ht
      exact ⟨n, hn, rfl⟩
  | enter ch =>
    obtain ⟨hphase, rfl⟩ := hst
    exact ⟨hphase, rfl⟩
  | call =>
    obtain ⟨hphase, hch, t, ⟨hpc, rfl⟩, rfl⟩ := hst
    exact ⟨hphase, hch, _, ⟨hpc, rfl⟩, rfl⟩
  | got =>
    obtain ⟨mark, hphase, hpc, rfl⟩ := hst
    exact ⟨mark, hphase, hpc, rfl⟩
  | leave =>
    obtain ⟨hphase, hch, rfl⟩ := hst
    exact ⟨hphase, hch, rfl⟩

/-- A step of the process leaves the raw queue alone. -/
theorem inv_withProcess (hk : Keyboard.Inv h d.keyboard) (s : LineReader) :
    Keyboard.Inv h (d.withProcess s).keyboard :=
  ⟨hk.caps, hk.lshift, hk.lctrl, hk.lalt, hk.right, hk.bounded, hk.empty⟩

/-- The process runs as if the characters were typed. -/
theorem reachable_process (hd : Reachable around c d) : Keyboard.Inv d.codes d.keyboard ∧
    d.keyboard.tty.writeQ.Bounded ∧ d.keyboard.tty.writeQ.content = [] ∧
    Decoding d.codes d.typed ∧
    ∃ accepted, LineReader.Reachable (fun _ => 0) (fun _ => 0) (d.process accepted) := by
  induction hd with
  | init hd =>
    obtain rfl := hd
    exact ⟨Keyboard.inv_boot _, ⟨Nat.zero_lt_succ 1023, Nat.zero_lt_succ 1023⟩, rfl, .nil, [],
      .init rfl⟩
  | @step d d' a _ hst ih =>
    obtain ⟨hk, hb, hempty, hdecoding, accepted, hreach⟩ := ih
    obtain ⟨hst, hset⟩ := hst
    cases a with
    | key scancode =>
      obtain ⟨hb', hempty', hkey⟩ := key_step hk hb hempty accepted hst
      have hk' : Keyboard.Inv d'.codes d'.keyboard := by
        rw [hst]
        exact hk.key scancode
      have hdecoding' : Decoding d'.codes d'.typed := by
        rw [hst]
        exact hdecoding.key (d.keyboard.length_queued_le around scancode) (hk.decodes scancode).2
      refine ⟨hk', hb', hempty', hdecoding', ?_⟩
      rcases hkey with heq | ⟨ch, accepted', hqueued, hstep⟩
      · exact ⟨accepted, heq ▸ hreach⟩
      · refine ⟨accepted', hreach.step ⟨hstep, ?_⟩⟩
        exact hset ch (hqueued ▸ List.mem_singleton_self ch)
    | process a =>
      obtain ⟨ha, s, hs, rfl⟩ := hst
      refine ⟨inv_withProcess hk s, hb, hempty, hdecoding, accepted,
        hreach.step ⟨process_step ha hs accepted, ?_⟩⟩
      exact hset

/-- However interrupts of the keyboard and steps of the process are interleaved, as long as they
    commute: `getline` has returned the first lines of the characters that the interrupts have
    decoded, after line editing; and outside of `getline` the rest of them is in the buffer. -/
theorem lines_typed (hd : Reachable around c d) : Decoding d.codes d.typed ∧ ∃ lines,
    (d.process []).Got lines ∧ LineReader.text lines <+: (edited d.typed).1 ∧
      (d.phase = .outside → LineReader.text lines ++ d.keyboard.tty.buffer.content =
        (edited d.typed).1 ++ (edited d.typed).2) := by
  obtain ⟨-, -, -, hdecoding, accepted, hreach⟩ := reachable_process hd
  obtain ⟨lines, hgot, hpre, hrest⟩ := hreach.got
  exact ⟨hdecoding, lines, ⟨hgot.line, hgot.returned, hgot.refused⟩, hpre, hrest⟩

/-- The key Enter is pressed. -/
theorem lines_typed_enter : ∃ around c d, Reachable around c d ∧ d.codes = [0x1c] ∧
    d.typed = [newline] ∧ Decoding d.codes d.typed ∧ ∃ lines, (d.process []).Got lines ∧
      LineReader.text lines <+: (edited d.typed).1 ∧
      (d.phase = .outside → LineReader.text lines ++ d.keyboard.tty.buffer.content =
        (edited d.typed).1 ++ (edited d.typed).2) := by
  obtain ⟨c⟩ : Nonempty Console := ⟨⟨fun _ => 0, 0, 0, 0, 0⟩⟩
  obtain ⟨around, haround⟩ : ∃ around : Table → ℕ → Byte, around = fun _ _ => 0 := ⟨_, rfl⟩
  have hqueued : ((boot c).keyboard.doKeyboardInterrupt around 0x1c).2.queued = [newline] := rfl
  obtain ⟨d, hst⟩ : ∃ d, (boot c).Step around (.key 0x1c) d := ⟨_, rfl⟩
  have hset : (boot c).Settled around (.key 0x1c) := by
    intro ch hch
    rw [hqueued] at hch
    rw [List.mem_singleton.1 hch, Terminal.Settled, if_neg (by decide)]
    exact show ¬TtyQueue.isFull ⟨fun _ => 0, 0, 0⟩ by decide
  have hboot : Reachable around c (boot c) := .init rfl
  have hreach : Reachable around c d := hboot.step ⟨hst, hset⟩
  refine ⟨around, c, d, hreach, ?_, ?_, lines_typed hreach⟩
  · rw [hst]
    rfl
  · rw [hst]
    exact hqueued

end Desk

end NeuOs
