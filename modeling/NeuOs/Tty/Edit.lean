import Mathlib.Data.List.Induction
import NeuOs.Tty.Read

/-!
# Line editing and reading

What readers should get are the keystrokes after line editing (`edited`), up to the last
line that has ended, however the reads and the keystrokes interleave. The characters that
are delivered, put aside, and in the buffer are then the edited keystrokes at any time
(`Commutes`).

The reader takes characters out of the buffer before their line has ended, where they can
not be erased any more; and the interrupt looks for the `'\n'` that may not be erased in
the cell after the last character. Also, an interrupt in a pop can erase the character that
is being taken, and one in a push can fill the place for the character. `commutes_iff` says
exactly which steps keep the edited keystrokes.
-/

namespace NeuOs

open Transition

/-- The lines that have ended, and the line that has not, after one more keystroke. -/
def editKey : List Byte × List Byte → Byte → List Byte × List Byte
  | (done, line), ch =>
    if ch = backspace then (done, line.dropLast)
    else if ends ch then (done ++ line ++ [ch], [])
    else (done, line ++ [ch])

/-- The keystrokes after line editing. -/
def edited (keys : List Byte) : List Byte × List Byte := keys.foldl editKey ([], [])

/-- A list of characters that is empty, or that ends with the end of a line. -/
def Ended (l : List Byte) : Prop := ∀ ch, l.getLast? = some ch → ends ch

theorem edited_concat (keys : List Byte) (ch : Byte) :
    edited (keys ++ [ch]) = editKey (edited keys) ch := List.foldl_append

/-- The lines that have ended end with the end of a line, and the line that has not does
    not have one. -/
theorem edited_spec (keys : List Byte) :
    Ended (edited keys).1 ∧ ∀ ch ∈ (edited keys).2, ¬ends ch := by
  induction keys using List.reverseRecOn with
  | nil => exact ⟨nofun, nofun⟩
  | append_singleton keys ch ih =>
    rw [edited_concat, editKey]
    split_ifs with hb he
    · exact ⟨ih.1, fun x hx => ih.2 x ((List.dropLast_sublist _).subset hx)⟩
    · refine ⟨fun x hx => ?_, nofun⟩
      rw [List.getLast?_concat] at hx
      exact Option.some.inj hx ▸ he
    · refine ⟨ih.1, fun x hx => ?_⟩
      rcases List.mem_append.1 hx with hx | hx
      · exact ih.2 x hx
      · exact List.mem_singleton.1 hx ▸ he

/-- Where the lines that have ended stop. -/
theorem ended_append {l done line : List Byte} (h : done ++ line = l) (hdone : Ended done)
    (hline : ∀ ch ∈ line, ¬ends ch) : Ended l ↔ line = [] := by
  subst h
  constructor
  · intro hl
    by_contra hne
    obtain ⟨l', x, rfl⟩ := List.eq_nil_or_concat' line |>.resolve_left hne
    refine hline x (by simp) (hl x ?_)
    rw [← List.append_assoc, List.getLast?_concat]
  · rintro rfl
    rwa [List.append_nil]

namespace Terminal

variable {s s' : Terminal} {a : TtyAction} {ch : Byte}

/-- What has been delivered is part of lines that have ended, and the reads and the
    keystrokes up to now commute: all characters together are the edited keystrokes. -/
def Commutes (s : Terminal) : Prop :=
  s.reader.pc ≠ .overrun ∧ s.delivered <+: (edited s.keys).1 ∧
    s.stream = (edited s.keys).1 ++ (edited s.keys).2

/-- A reader takes the character that it has loaded, and one that it wants from a line that
    has ended; what it puts aside, what it pushes back and what is typed has room; and an
    erase looks at the right character: it erases nothing exactly if the last character, in
    the buffer or else put aside, is the end of a line. -/
def Settled (s : Terminal) : TtyAction → Prop
  | .key ch =>
    if ch = backspace then
      if s.held.content = [] then Ended s.reader.aside
      else s.buffer.buf s.buffer.tail.toNat = newline ↔ Ended s.held.content
    else ¬s.buffer.isFull
  | .pop => s.Fresh ∧
    if s.reader.nr ≤ 0 then s.reader.tmpbuf.length < TTY_BUF_SIZE
    else ∃ ch ∈ s.buffer.content, ends ch
  | .test | .moveFront => ¬s.buffer.isFull
  | .call _ | .wake | .load | .storeFront => True

/-- While the reader pushes back a line, the end of the line is among what it has put aside, or
    in the buffer. -/
def Backed (s : Terminal) : Prop :=
  s.reader.left.isSome → s.reader.aside = s.reader.tmpbuf ∨ ∃ ch ∈ s.held.content, ends ch

theorem Backed.whole (h : s.Backed) (hs : s.Inv) : s.Whole := by
  intro n hn hnil
  have hleft : s.reader.left = some (n + 1) := by rw [Reader.left, hn]
  have hle := (hs.left _ hleft).1
  rcases h (by rw [hleft]; rfl) with haside | ⟨ch, hch, -⟩
  · have hlen := congrArg List.length haside
    rw [Reader.aside, hn, List.length_take] at hlen
    omega
  · rw [held_moved hn, TtyQueue.content_storeFront_nil hs.buffer hnil] at hch
    cases hch

/-- The line that has not ended is empty exactly if the last character is the end of a
    line. -/
theorem Commutes.line_eq_nil (h : s.Commutes) : (edited s.keys).2 = [] ↔
    if s.held.content = [] then Ended s.reader.aside else Ended s.held.content := by
  obtain ⟨-, hpre, hstream⟩ := h
  obtain ⟨hdone, hline⟩ := edited_spec s.keys
  have hlast : Ended s.stream ↔ (edited s.keys).2 = [] := ended_append hstream.symm hdone hline
  rw [← hlast]
  by_cases hc : s.held.content = []
  · rw [if_pos hc]
    rw [stream, hc, List.append_nil] at hlast ⊢
    by_cases ha : s.reader.aside = []
    · -- nothing is put aside, so everything has been delivered
      rw [ha, List.append_nil] at hlast ⊢
      refine ⟨fun _ ch hch => (by cases hch), fun _ => hlast.2 ?_⟩
      have hle := hpre.length_le
      have heq := congrArg List.length hstream
      rw [stream, hc, ha, List.append_nil, List.append_nil, List.length_append] at heq
      exact List.length_eq_zero_iff.1 (by omega)
    · rw [Ended, Ended, List.getLast?_append_of_ne_nil _ ha]
  · rw [if_neg hc, stream, Ended, Ended, List.getLast?_append_of_ne_nil _ hc]

/-- The delivered characters stop in the lines that have ended exactly if a line in the
    rest of the stream has ended. -/
theorem prefix_iff {done line l l' : List Byte} (hdone : Ended done)
    (hline : ∀ ch ∈ line, ¬ends ch) (hpre : l <+: done) (h : l ++ ch :: l' = done ++ line) :
    l ++ [ch] <+: done ↔ ∃ x ∈ ch :: l', ends x := by
  obtain ⟨rest, rfl⟩ := hpre
  rw [List.append_assoc, List.append_cancel_left_eq] at h
  rw [List.prefix_append_right_inj]
  cases rest with
  | nil =>
    refine ⟨fun hp => absurd hp.length_le (by simp), fun ⟨x, hx, hend⟩ => ?_⟩
    rw [List.nil_append] at h
    exact absurd hend (hline x (h ▸ hx))
  | cons y rest =>
    obtain ⟨rfl, hl'⟩ := List.cons.inj h
    refine ⟨fun _ => ?_, fun _ => ⟨rest, rfl⟩⟩
    obtain ⟨l₀, x, hx⟩ := List.eq_nil_or_concat' (ch :: rest) |>.resolve_left (List.cons_ne_nil _ _)
    refine ⟨x, ?_, hdone x ?_⟩
    · rw [h]
      exact List.mem_append_left _ (hx ▸ by simp)
    · rw [hx, ← List.append_assoc, List.getLast?_concat]

/-- A keystroke that erases. -/
theorem Commutes.erase_iff (h : s.Commutes) (hs : s.Inv) (hw : s.Whole)
    (hst : s.Step (.key backspace) s') :
    s'.Commutes ↔ s.Settled (.key backspace) := by
  obtain ⟨hpc, hpre, hstream⟩ := id h
  have hc := held_key hs hw hst
  have hkeys : s'.keys = s.keys ++ [backspace] := by rw [hst]
  have hd : s'.delivered = s.delivered := by rw [hst]
  have hr : s'.reader = s.reader := by rw [hst]
  rw [if_pos rfl] at hc
  have hgoal : s'.Commutes ↔ s.delivered ++ s.reader.aside ++ s'.held.content =
      (edited s.keys).1 ++ (edited s.keys).2.dropLast := by
    rw [Commutes, hkeys, edited_concat, editKey, if_pos rfl, hr, hd, stream, hd, hr]
    exact ⟨fun h => h.2.2, fun h => ⟨hpc, hpre, h⟩⟩
  have hsame : s.stream = (edited s.keys).1 ++ (edited s.keys).2.dropLast ↔
      (edited s.keys).2 = [] := by
    rw [hstream, List.append_cancel_left_eq, eq_comm, dropLast_eq_self]
  have hnil := h.line_eq_nil
  rw [hgoal, Settled, if_pos rfl]
  by_cases hempty : s.held.content = []
  · rw [if_pos hempty] at hnil ⊢
    rw [hempty, List.dropLast_nil, ite_self] at hc
    rw [hc, ← hnil, ← hsame, stream, hempty]
  · rw [if_neg hempty] at hnil ⊢
    rw [hc, ← hnil]
    by_cases hnl : s.buffer.buf s.buffer.tail.toNat = newline
    · rw [if_pos hnl]
      exact hsame.trans ⟨fun h => ⟨fun _ => h, fun _ => hnl⟩, fun h => h.1 hnl⟩
    · -- the last character goes, which has to be one of the line that has not ended
      rw [if_neg hnl, ← List.dropLast_append_of_ne_nil hempty]
      change s.stream.dropLast = _ ↔ _
      rw [hstream]
      constructor
      · intro heq
        refine ⟨fun h => absurd h hnl, fun hline => ?_⟩
        rw [hline, List.append_nil, List.dropLast_nil, List.append_nil, dropLast_eq_self] at heq
        rw [hline, heq] at hstream
        exact absurd (List.append_eq_nil_iff.1 hstream).2 hempty
      · intro hiff
        exact List.dropLast_append_of_ne_nil fun hline => hnl (hiff.2 hline)

/-- A keystroke that is stored. -/
theorem Commutes.store_iff (h : s.Commutes) (hs : s.Inv) (hw : s.Whole)
    (hch : ch ≠ backspace) (hst : s.Step (.key ch) s') : s'.Commutes ↔ s.Settled (.key ch) := by
  obtain ⟨hpc, hpre, hstream⟩ := h
  have hc := held_key hs hw hst
  have hkeys : s'.keys = s.keys ++ [ch] := by rw [hst]
  have hd : s'.delivered = s.delivered := by rw [hst]
  have hr : s'.reader = s.reader := by rw [hst]
  rw [if_neg hch] at hc
  -- the keystroke ends the line, or is added to it
  have hdone : s.delivered <+: (edited s'.keys).1 := by
    rw [hkeys, edited_concat, editKey, if_neg hch]
    split_ifs
    · exact hpre.trans ⟨_, (List.append_assoc _ _ _).symm⟩
    · exact hpre
  have hall : (edited s'.keys).1 ++ (edited s'.keys).2 = s.stream ++ [ch] := by
    rw [hkeys, edited_concat, editKey, if_neg hch, hstream]
    split_ifs
    · exact List.append_nil _
    · exact (List.append_assoc _ _ _).symm
  rw [Commutes, hall, hr, hd, stream, hd, hr, hc, Settled, if_neg hch]
  by_cases hfull : s.buffer.isFull
  · -- the character is lost, which shows in the length
    rw [if_pos hfull]
    refine ⟨fun h => ?_, fun h => absurd hfull h⟩
    have hlen := congrArg List.length h.2.2
    simp only [stream, List.length_append, List.length_singleton] at hlen
    omega
  · rw [if_neg hfull]
    exact ⟨fun _ => hfull, fun _ => ⟨hpc, hdone, (List.append_assoc _ _ _).symm⟩⟩

/-- Steps that change neither the stream nor what has been delivered. -/
theorem Commutes.of_stream (h : s.Commutes) (hpc : s'.reader.pc ≠ .overrun)
    (hkeys : s'.keys = s.keys) (hd : s'.delivered = s.delivered) (hstream : s'.stream = s.stream) :
    s'.Commutes := by
  rw [Commutes, hkeys, hd, hstream]
  exact ⟨hpc, h.2⟩

/-- Steps that shorten the stream. -/
theorem Commutes.not_of_length (h : s.Commutes) (hkeys : s'.keys = s.keys)
    (hlt : s'.stream.length < s.stream.length) : ¬s'.Commutes := fun h' => by
  have heq := congrArg List.length h'.2.2
  rw [hkeys, ← h.2.2] at heq
  omega

/-- The call of a read. -/
theorem Commutes.call {nr : Int} (h : s.Commutes) (hst : s.Step (.call nr) s') : s'.Commutes := by
  obtain ⟨hout, rfl⟩ := hst
  have hcall : (Reader.call nr).aside = [] ∧ (Reader.call nr).pc ≠ .overrun ∧
      ∀ n, (Reader.call nr).pc ≠ .moved n := by
    rw [Reader.call]
    split_ifs <;> exact ⟨rfl, (by rintro ⟨⟩), by rintro n ⟨⟩⟩
  have hne : ∀ n, s.reader.pc ≠ .moved n := fun n h => by cases hout.symm.trans h
  refine h.of_stream hcall.2.1 rfl rfl ?_
  rw [stream, stream, held_of_ne hcall.2.2, held_of_ne hne, hcall.1, Reader.aside, hout]

/-- `sleep_if_empty` returns, and the character is loaded. -/
theorem Commutes.wake (h : s.Commutes) (hst : s.Step .wake s') : s'.Commutes := by
  obtain ⟨hpc, -, rfl⟩ := hst
  refine h.of_stream nofun rfl rfl ?_
  rw [stream, stream, Reader.aside, Reader.aside, held, held, hpc]

theorem Commutes.load (h : s.Commutes) (hst : s.Step .load s') : s'.Commutes := by
  obtain ⟨hpc, rfl⟩ := hst
  refine h.of_stream nofun rfl rfl ?_
  rw [stream, stream, Reader.aside, Reader.aside, held, held, hpc]

/-- If another character is first in the buffer, it is not the one that the reader gets. -/
theorem Commutes.fresh (h : s.Commutes) (hs : s.Inv) (hst : s.Step .pop s') (h' : s'.Commutes) :
    s.Fresh := by
  obtain ⟨ch, hch, heq⟩ := hst
  have hr : s'.reader = (s.reader.got ch).1 := by rw [heq]
  have hd : s'.delivered = s.delivered ++ (s.reader.got ch).2 := by rw [heq]
  have hkeys : s'.keys = s.keys := by rw [heq]
  have hheld : s.held = s.buffer := held_of_ne fun n hn => by cases hch.symm.trans hn
  have hreads : s.reader.Reads := by rw [Reader.Reads, hch]; trivial
  have hroom : s.reader.nr ≤ 0 → s.reader.tmpbuf.length < TTY_BUF_SIZE := fun hnr => by
    by_contra hroom
    exact h'.1 (hr ▸ got_overrun ch hnr hroom)
  have haside := (got_aside ch hreads (hs.reads hreads) hroom).1
  -- the stream now has the character that was loaded in place of the first one
  have hstream : s'.stream = s.stream := h'.2.2.trans (by rw [hkeys, h.2.2])
  rw [stream, stream, hheld, hd, hr, List.append_assoc s.delivered, haside, ← List.append_assoc,
    List.append_assoc _ [ch], List.append_cancel_left_eq] at hstream
  intro c hc
  obtain rfl := Pc.loaded.inj (hch.symm.trans hc)
  exact congrArg List.head? hstream.symm

/-- The reader takes a character. -/
theorem Commutes.pop_iff (h : s.Commutes) (hs : s.Inv) (hst : s.Step .pop s') :
    s'.Commutes ↔ s.Settled .pop := by
  by_cases hf : s.Fresh
  swap
  · exact iff_of_false (fun h' => hf (h.fresh hs hst h')) fun h' => hf h'.1
  obtain ⟨-, hpre, hstream⟩ := h
  obtain ⟨ch, hc, hr, hd⟩ := stream_pop hs hf hst
  obtain ⟨_, hpc, heq⟩ := hst
  have hreads : s.reader.Reads := by rw [Reader.Reads, hpc]; trivial
  have hkeys : s'.keys = s.keys := by rw [heq]
  have hheld : s.held = s.buffer := held_of_ne fun n hn => by cases hpc.symm.trans hn
  have hheld' : s'.held = s'.buffer := held_of_ne (hr ▸ (got_pc s.reader ch).2.2.2)
  have hempty := hs.reads hreads
  rw [Settled, and_iff_right hf]
  by_cases hroom : s.reader.nr ≤ 0 → s.reader.tmpbuf.length < TTY_BUF_SIZE
  · obtain ⟨heq, hpc'⟩ := got_aside ch hreads hempty hroom
    have hstream' : s'.stream = s.stream := by
      rw [stream, stream, hheld, hheld', hd, hr, hc, List.append_assoc s.delivered, heq]
      simp only [List.append_assoc, List.singleton_append]
    rw [Commutes, hstream', hkeys, hr, hd]
    by_cases hnr : s.reader.nr ≤ 0
    · -- it puts the character aside
      have hnone : (s.reader.got ch).2 = [] := by
        rw [Reader.got, if_pos hnr, if_pos (hroom hnr)]
        split_ifs <;> rfl
      rw [if_pos hnr, hnone, List.append_nil]
      exact ⟨fun _ => hroom hnr, fun _ => ⟨hpc', hpre, hstream⟩⟩
    · -- it delivers the character, which has to be one of a line that has ended
      have hsome : (s.reader.got ch).2 = [ch] := by
        rw [Reader.got, if_neg hnr]
        split_ifs <;> rfl
      have haside : s.reader.aside = [] := (aside_of_reads hreads).trans (hempty (by omega))
      have hstream₂ := hstream
      rw [stream, haside, hheld, List.append_nil, hc] at hstream₂
      rw [if_neg hnr, hsome, hc, ← prefix_iff (edited_spec s.keys).1 (edited_spec s.keys).2 hpre
        hstream₂]
      exact ⟨fun h => h.2.1, fun h => ⟨hpc', h, hstream⟩⟩
  · -- `tmpbuf` is full
    rw [Classical.not_imp] at hroom
    rw [if_pos hroom.1]
    exact ⟨fun h => absurd (hr ▸ got_overrun ch hroom.1 hroom.2) h.1, fun h => absurd h hroom.2⟩

/-- The test of a push, which gives the character up if the buffer is full. -/
theorem Commutes.test_iff (h : s.Commutes) (hs : s.Inv) (hst : s.Step .test s') :
    s'.Commutes ↔ s.Settled .test := by
  obtain ⟨hd, hpc, hheld, haside⟩ := stream_test hs hst
  have hkeys : s'.keys = s.keys := by obtain ⟨_, -, rfl⟩ := hst; rfl
  rw [Settled]
  by_cases hfull : s.buffer.isFull
  · rw [if_pos hfull] at haside
    obtain ⟨ch, haside⟩ := haside
    refine iff_of_false (h.not_of_length hkeys ?_) fun h => h hfull
    rw [stream, stream, hd, hheld, haside]
    simp only [List.length_append, List.length_cons, List.length_nil]
    omega
  · rw [if_neg hfull] at haside
    exact iff_of_true (h.of_stream hpc hkeys hd (by rw [stream, stream, hd, hheld, haside])) hfull

/-- The move of the head in a push. -/
theorem Commutes.moveFront_iff (h : s.Commutes) (hs : s.Inv) (hst : s.Step .moveFront s') :
    s'.Commutes ↔ s.Settled .moveFront := by
  obtain ⟨hd, hpc, ch, ha, hc⟩ := stream_moveFront hs hst
  have hkeys : s'.keys = s.keys := by obtain ⟨_, -, rfl⟩ := hst; rfl
  rw [Settled]
  by_cases hfull : s.buffer.isFull
  · rw [if_pos hfull] at hc
    refine iff_of_false (h.not_of_length hkeys ?_) fun h => h hfull
    rw [stream, stream, hd, ha, hc]
    simp only [List.length_append, List.length_cons, List.length_nil]
    omega
  · rw [if_neg hfull] at hc
    refine iff_of_true (h.of_stream hpc hkeys hd ?_) hfull
    rw [stream, stream, hd, ha, hc]
    simp only [List.append_assoc, List.singleton_append]

/-- The store of a push. -/
theorem Commutes.storeFront (h : s.Commutes) (hst : s.Step .storeFront s') : s'.Commutes := by
  obtain ⟨hd, hpc, hheld, haside⟩ := stream_storeFront hst
  have hkeys : s'.keys = s.keys := by obtain ⟨_, -, rfl⟩ := hst; rfl
  exact h.of_stream hpc hkeys hd (by rw [stream, stream, hd, hheld, haside])

/-- A step keeps the reads and the keystrokes commuting exactly if it is settled. -/
theorem Commutes.step_iff (hs : s.Inv) (hb : s.Backed) (h : s.Commutes) (hst : s.Step a s') :
    s'.Commutes ↔ s.Settled a := by
  cases a with
  | key ch =>
    by_cases hch : ch = backspace
    · subst hch
      exact h.erase_iff hs (hb.whole hs) hst
    · exact h.store_iff hs (hb.whole hs) hch hst
  | call nr => exact iff_of_true (h.call hst) trivial
  | wake => exact iff_of_true (h.wake hst) trivial
  | load => exact iff_of_true (h.load hst) trivial
  | pop => exact h.pop_iff hs hst
  | test => exact h.test_iff hs hst
  | moveFront => exact h.moveFront_iff hs hst
  | storeFront => exact iff_of_true (h.storeFront hst) trivial

/-- A settled keystroke does not erase the end of a line. -/
theorem Backed.key (h : s.Backed) (hs : s.Inv) (hset : s.Settled (.key ch))
    (hst : s.Step (.key ch) s') : s'.Backed := by
  have hc := held_key hs (h.whole hs) hst
  have hr : s'.reader = s.reader := by rw [hst]
  rw [Backed, hr, hc]
  intro hleft
  refine (h hleft).imp_right fun ⟨x, hx, hend⟩ => ⟨x, ?_, hend⟩
  split_ifs with hback hnl
  · exact hx
  · -- the last character is not the end of a line
    rw [Settled, if_pos hback, if_neg (List.ne_nil_of_mem hx)] at hset
    obtain ⟨l, y, hly⟩ := List.eq_nil_or_concat' s.held.content |>.resolve_left
      (List.ne_nil_of_mem hx)
    rw [hly] at hx hset ⊢
    rw [List.dropLast_concat]
    refine (List.mem_append.1 hx).resolve_right fun hxy => hnl (hset.2 fun z hz => ?_)
    rw [List.getLast?_concat] at hz
    rw [← Option.some.inj hz, ← List.mem_singleton.1 hxy]
    exact hend
  · exact hx
  · exact List.mem_append_left _ hx

theorem Backed.step (h : s.Backed) (hs : s.Inv) (hset : s.Settled a) (hst : s.Step a s') :
    s'.Backed := by
  cases a with
  | key ch => exact h.key hs hset hst
  | call nr =>
    obtain ⟨-, rfl⟩ := hst
    dsimp only [Backed, Reader.call]
    split_ifs <;> nofun
  | wake => obtain ⟨-, -, rfl⟩ := hst; exact nofun
  | load => obtain ⟨-, rfl⟩ := hst; exact nofun
  | pop =>
    obtain ⟨ch, -, rfl⟩ := hst
    dsimp only [Backed, Reader.got]
    split_ifs
    · exact fun _ => .inl List.take_length
    all_goals nofun
  | test =>
    obtain ⟨-, -, hheld, haside⟩ := stream_test hs hst
    obtain ⟨n, hn, heq⟩ := hst
    have hfull : ¬s.buffer.isFull := hset
    have htmpbuf : s'.reader.tmpbuf = s.reader.tmpbuf := by rw [heq, if_neg hfull]
    rw [if_neg hfull] at haside
    rw [Backed, hheld, haside, htmpbuf]
    exact fun _ => h (by rw [Reader.left, hn]; rfl)
  | moveFront =>
    obtain ⟨-, -, c, ha, hc⟩ := stream_moveFront hs hst
    obtain ⟨n, hn, heq⟩ := hst
    have hleft : s.reader.left = some (n + 1) := by rw [Reader.left, hn]
    obtain ⟨-, -, e, hlast, hend⟩ := hs.left _ hleft
    have hfull : ¬s.buffer.isFull := hset
    rw [if_neg hfull] at hc
    rw [Backed, hc]
    refine fun _ => .inr ?_
    rcases h (by rw [hleft]; rfl) with haside | ⟨x, hx, hxend⟩
    · -- the end of the line is pushed back first
      rw [← haside, ha, List.getLast?_concat] at hlast
      exact ⟨c, List.mem_cons_self, Option.some.inj hlast ▸ hend⟩
    · exact ⟨x, List.mem_cons_of_mem _ hx, hxend⟩
  | storeFront =>
    obtain ⟨-, -, hheld, haside⟩ := stream_storeFront hst
    obtain ⟨n, hn, rfl⟩ := hst
    rw [Backed, hheld, haside]
    exact fun _ => h (by rw [Reader.left, hn]; rfl)

/-- The terminal at the boot. -/
def boot (b₁ b₂ : ℕ → Byte) : Terminal :=
  ⟨⟨b₁, 0, 0⟩, ⟨b₂, 0, 0⟩, ⟨.outside, 0, []⟩, [], [], []⟩

theorem inv_boot (b₁ b₂ : ℕ → Byte) : (boot b₁ b₂).Inv := by
  have hzero : (0 : Word).toNat < TTY_BUF_SIZE := by decide
  exact ⟨⟨hzero, hzero⟩, rfl, ⟨hzero, hzero⟩, nofun, nofun⟩

theorem backed_boot (b₁ b₂ : ℕ → Byte) : (boot b₁ b₂).Backed := nofun

/-- In every run of reads and keystrokes from the boot, what readers get are lines of the
    edited keystrokes that have ended, and the rest of the edited keystrokes is put aside
    or in the buffer, exactly as long as every step is settled. -/
theorem commutes_iff (b₁ b₂ : ℕ → Byte) (l : List (TtyAction × Terminal))
    (h : Run Step (boot b₁ b₂) l) :
    (∀ x ∈ l, x.2.Commutes) ↔ Along Settled (boot b₁ b₂) l :=
  h.forall_iff_along_of (J := fun s => s.Inv ∧ s.Backed) ⟨nofun, ⟨[], rfl⟩, rfl⟩
    ⟨inv_boot b₁ b₂, backed_boot b₁ b₂⟩
    (fun _ _ _ hJ hk hst hk' =>
      ⟨hJ.1.step hst, hJ.2.step hJ.1 ((hk.step_iff hJ.1 hJ.2 hst).1 hk') hst⟩)
    fun _ _ _ hJ hk hst => hk.step_iff hJ.1 hJ.2 hst

/-- An empty line is typed, and read. -/
theorem commutes_iff_newline : ∃ l, Run Step (boot (fun _ => 0) fun _ => 0) l ∧
    l.map Prod.fst = [.key newline, .call 1, .wake, .load, .pop] ∧
    (∃ x ∈ l, x.2.delivered = [newline]) ∧ ∀ x ∈ l, x.2.Commutes := by
  have hs₀ := inv_boot (fun _ => 0) fun _ => 0
  obtain ⟨s₁, h₁⟩ : ∃ s₁, (boot (fun _ => 0) fun _ => 0).Step (.key newline) s₁ := ⟨_, rfl⟩
  have hc₁ : s₁.buffer.content = [newline] := (buffer_key hs₀ h₁).2.trans (by decide)
  have hr₁ : s₁.reader = ⟨.outside, 0, []⟩ := by rw [h₁]; rfl
  have hd₁ : s₁.delivered = [] := by rw [h₁]; rfl
  obtain ⟨s₂, hs₂⟩ : ∃ s₂, s₂ = { s₁ with reader := .call 1 } := ⟨_, rfl⟩
  have h₂ : s₁.Step (.call 1) s₂ := ⟨by rw [hr₁], hs₂⟩
  have hr₂ : s₂.reader = ⟨.loop, 1, []⟩ := by rw [hs₂]; rfl
  have hc₂ : s₂.buffer.content = [newline] := by rw [hs₂]; exact hc₁
  obtain ⟨hwake, hload, hpop, -⟩ := pop_steps ((hs₀.step h₁).step h₂) (by rw [hr₂]) hc₂
  have hrun := Run.cons h₁ (.cons h₂ (.cons hwake (.cons hload (.cons hpop (.nil _)))))
  have hkey : (boot (fun _ => 0) fun _ => 0).Settled (.key newline) := by
    rw [Settled, if_neg (by decide)]
    exact fun hfull => absurd hfull (by decide)
  have hsettled : (s₂.withPc (.loaded newline)).Settled .pop := by
    have hnr : ¬(s₂.withPc (.loaded newline)).reader.nr ≤ 0 := by
      rw [withPc, hr₂]
      exact (by decide : ¬(1 : ℤ) ≤ 0)
    rw [Settled, if_neg hnr]
    refine ⟨fun ch hch => ?_, newline, ?_, by decide⟩ <;> rw [withPc, hc₂]
    · exact congrArg some (Pc.loaded.inj hch)
    · exact List.mem_cons_self
  refine ⟨_, hrun, rfl, ⟨_, List.mem_of_getLast? rfl, ?_⟩,
    (commutes_iff _ _ _ hrun).2 ⟨hkey, trivial, trivial, trivial, hsettled, trivial⟩⟩
  rw [afterPop, hr₂, hs₂, hd₁]
  rfl

/-- An `a` is read before its line has ended; then it is erased, and the line ends. The
    edited keystrokes are an empty line, but the reader has got the `a`. -/
theorem erased_delivered : ∃ l, Run Step (boot (fun _ => 0) fun _ => 0) l ∧
    ∃ x ∈ l, x.2.delivered = [97] ∧ (edited x.2.keys).1 = [newline] := by
  have hs₀ := inv_boot (fun _ => 0) fun _ => 0
  obtain ⟨s₁, h₁⟩ : ∃ s₁, (boot (fun _ => 0) fun _ => 0).Step (.key 97) s₁ := ⟨_, rfl⟩
  have hc₁ : s₁.buffer.content = [97] := (buffer_key hs₀ h₁).2.trans (by decide)
  have hr₁ : s₁.reader = ⟨.outside, 0, []⟩ := by rw [h₁]; rfl
  have hd₁ : s₁.delivered = [] := by rw [h₁]; rfl
  have hk₁ : s₁.keys = [97] := by rw [h₁]; rfl
  obtain ⟨s₂, hs₂⟩ : ∃ s₂, s₂ = { s₁ with reader := .call 1 } := ⟨_, rfl⟩
  have h₂ : s₁.Step (.call 1) s₂ := ⟨by rw [hr₁], hs₂⟩
  have hr₂ : s₂.reader = ⟨.loop, 1, []⟩ := by rw [hs₂]; rfl
  have hc₂ : s₂.buffer.content = [97] := by rw [hs₂]; exact hc₁
  obtain ⟨hwake, hload, hpop, -⟩ := pop_steps ((hs₀.step h₁).step h₂) (by rw [hr₂]) hc₂
  obtain ⟨s₃, h₃⟩ : ∃ s₃, (s₂.afterPop 97).Step (.key backspace) s₃ := ⟨_, rfl⟩
  obtain ⟨s₄, h₄⟩ : ∃ s₄, s₃.Step (.key newline) s₄ := ⟨_, rfl⟩
  refine ⟨_, .cons h₁ (.cons h₂ (.cons hwake (.cons hload (.cons hpop
    (.cons h₃ (.cons h₄ (.nil _))))))), (.key newline, s₄), by simp, ?_, ?_⟩
  · rw [h₄, h₃, afterPop, hr₂, hs₂, hd₁]
    rfl
  · have hkeys : s₄.keys = s₁.keys ++ [backspace] ++ [newline] := by rw [h₄, h₃, afterPop, hs₂]
    rw [hkeys, hk₁]
    decide

end Terminal

end NeuOs
