import NeuOs.Tty.Read

/-!
# Reads in several calls (kernel/chr_drv/tty_io.c)

`readLoop` is a whole call of `tty_read`, with no signal pending, and with no input in the
meantime. It runs through three loops, which have a lemma each: for the characters that are
delivered (`readLoop_wanted`), for the rest of the line, which is put aside
(`readLoop_aside`), and for the characters that are pushed back (`readLoop_pushing`).

A read delivers the characters that it asks for, also across the ends of lines, if there is
the end of a line after them, and leaves the others in the buffer (`ttyRead_spec`). So two
reads deliver what one read does (`ttyRead_split`).
-/

namespace NeuOs

/-! ## The code -/

/-- The steps of a reader until it returns, or sleeps: where it is then, the buffer, and the
    characters that it has delivered. -/
def readLoop : ℕ → Reader → TtyQueue → Reader × TtyQueue × List Byte
  | 0, r, q => (r, q, [])
  | fuel + 1, r, q =>
    match r.pc with
    | .loop =>
      match q.pop 0 with
      | none => (r, q, [])
      | some (ch, q) =>
        let (r', q', l) := readLoop fuel (r.got ch).1 q
        (r', q', (r.got ch).2 ++ l)
    | .pushing (n + 1) => readLoop fuel (r.pushed n) (q.pushFront (r.tmpbuf[n]?.getD 0)).2
    | _ => (r, q, [])

/-- `tty_read`, if it returns: the result, the characters that are delivered, and the buffer.
    There are at most as many pops and pushes as there is room for in the buffer. -/
def ttyRead (nr : ℤ) (q : TtyQueue) : Option (ℤ × List Byte × TtyQueue) :=
  let (r, q, l) := readLoop (2 * TTY_BUF_SIZE) (Reader.call nr) q
  if r.pc = .outside then some (if nr < 0 then -1 else l.length, l, q) else none

/-! ## Pops -/

variable {q : TtyQueue} {ch : Byte} {fuel : ℕ} {l rest : List Byte}

/-- The buffer after some pops. -/
def popped : ℕ → TtyQueue → TtyQueue
  | 0, q => q
  | n + 1, q => popped n q.take.2

theorem pop_cons (h : q.Bounded) (hc : q.content = ch :: rest) :
    q.pop 0 = some (ch, q.take.2) ∧ q.take.2.Bounded ∧ q.take.2.content = rest := by
  obtain ⟨hch, hb, hrest⟩ := TtyQueue.take_cons h hc
  have hwait : ¬q.sleepIfEmpty 0 := fun hw =>
    List.cons_ne_nil ch rest
      (hc.symm.trans ((TtyQueue.isEmpty_iff h).1 (Bool.and_eq_true_iff.1 hw).2))
  refine ⟨?_, hb, hrest⟩
  rw [TtyQueue.pop, if_neg hwait]
  exact congrArg some (Prod.ext hch rfl)

theorem popped_spec (h : q.Bounded) (hc : q.content = l ++ rest) :
    (popped l.length q).Bounded ∧ (popped l.length q).content = rest := by
  induction l generalizing q with
  | nil => exact ⟨h, hc⟩
  | cons ch l ih =>
    obtain ⟨-, hb, hc'⟩ := pop_cons h hc
    exact ih hb hc'

/-! ## The loops -/

theorem readLoop_outside {r : Reader} (hr : r.pc = .outside) : readLoop fuel r q = (r, q, []) := by
  cases fuel with
  | zero => rfl
  | succ fuel => rw [readLoop, hr]

theorem readLoop_pop {r : Reader} (h : q.Bounded) (hr : r.pc = .loop)
    (hc : q.content = ch :: rest) :
    readLoop (fuel + 1) r q =
      ((readLoop fuel (r.got ch).1 q.take.2).1, (readLoop fuel (r.got ch).1 q.take.2).2.1,
        (r.got ch).2 ++ (readLoop fuel (r.got ch).1 q.take.2).2.2) := by
  rw [readLoop, hr, (pop_cons h hc).1]

/-- A character that the reader wants is delivered. -/
theorem got_wanted (n : ℕ) (ch : Byte) : (Reader.mk .loop (n + 1 : ℕ) []).got ch =
    (⟨if ends ch ∧ n = 0 then .outside else .loop, n, []⟩, [ch]) := by
  have hpos : ¬((n + 1 : ℕ) : ℤ) ≤ 0 := by omega
  have hless : ((n + 1 : ℕ) : ℤ) - 1 = n := by
    push_cast
    exact add_sub_cancel_right _ _
  rw [Reader.got, if_neg hpos]
  dsimp only
  rw [hless]
  by_cases hend : ends ch
  · rw [if_pos hend]
    by_cases hn : n = 0
    · rw [if_pos (by omega), if_pos ⟨hend, hn⟩]
    · rw [if_neg (by omega), if_neg fun h => hn h.2]
  · rw [if_neg hend, if_neg fun h => hend h.1]

/-- All characters that the reader wants are delivered, also across the ends of lines. The reader
    returns if the last one is the end of a line. -/
theorem readLoop_wanted (fuel : ℕ) (h : q.Bounded) (hc : q.content = l ++ ch :: rest) :
    readLoop (fuel + (l.length + 1)) ⟨.loop, (l.length + 1 : ℕ), []⟩ q =
      (let R := readLoop fuel ⟨if ends ch then .outside else .loop, 0, []⟩ (popped (l.length + 1) q)
      (R.1, R.2.1, l ++ ch :: R.2.2)) := by
  induction l generalizing q with
  | nil =>
    rw [← add_assoc, readLoop_pop h rfl hc, got_wanted]
    simp only [List.length_nil, and_true]
    rfl
  | cons c l ih =>
    obtain ⟨-, hb, hc'⟩ := pop_cons h hc
    have hrest := ih hb hc'
    rw [← add_assoc, readLoop_pop h rfl hc, got_wanted, if_neg fun h => Nat.succ_ne_zero _ h.2]
    dsimp only
    rw [List.length_cons, hrest]
    rfl

/-- The rest of the line is put aside. -/
theorem readLoop_aside (fuel : ℕ) {tmpbuf : List Byte} (h : q.Bounded)
    (hc : q.content = l ++ ch :: rest) (hl : ∀ c ∈ l, ¬ends c) (hend : ends ch)
    (hroom : tmpbuf.length + l.length < TTY_BUF_SIZE) :
    readLoop (fuel + (l.length + 1)) ⟨.loop, 0, tmpbuf⟩ q =
      readLoop fuel ⟨.pushing (tmpbuf ++ l ++ [ch]).length, 0, tmpbuf ++ l ++ [ch]⟩
        (popped (l.length + 1) q) := by
  induction l generalizing q tmpbuf with
  | nil =>
    -- the end of the line: what is put aside is pushed back from here on
    have hgot : (Reader.mk .loop 0 tmpbuf).got ch =
        (⟨.pushing (tmpbuf ++ [ch]).length, 0, tmpbuf ++ [ch]⟩, []) := by
      have hroom' : tmpbuf.length < TTY_BUF_SIZE := hroom
      rw [Reader.got, if_pos (le_refl 0), if_pos hroom']
      exact if_pos hend
    rw [List.length_nil, ← add_assoc, readLoop_pop h rfl hc, hgot, List.append_nil]
    rfl
  | cons c l ih =>
    obtain ⟨-, hb, hc'⟩ := pop_cons h hc
    rw [List.length_cons] at hroom
    have hgot : (Reader.mk .loop 0 tmpbuf).got c = (⟨.loop, 0, tmpbuf ++ [c]⟩, []) := by
      rw [Reader.got, if_pos (le_refl 0), if_pos (by dsimp only; omega)]
      exact if_neg (hl c List.mem_cons_self)
    have hroom' : (tmpbuf ++ [c]).length + l.length < TTY_BUF_SIZE := by
      rw [List.length_append, List.length_singleton]
      omega
    have hrest := ih hb hc' (fun x hx => hl x (List.mem_cons_of_mem c hx)) hroom'
    have hassoc : tmpbuf ++ [c] ++ l = tmpbuf ++ c :: l := by
      rw [List.append_assoc, List.singleton_append]
    rw [hassoc] at hrest
    rw [List.length_cons, ← add_assoc, readLoop_pop h rfl hc, hgot]
    dsimp only
    rw [hrest]
    rfl

/-- What has been put aside is pushed back, the last character first. -/
theorem readLoop_pushing (fuel : ℕ) {n : ℕ} {tmpbuf : List Byte} (h : q.Bounded)
    (hn : n < tmpbuf.length) (hroom : n + 1 + q.content.length < TTY_BUF_SIZE) : ∃ r q',
      readLoop (fuel + (n + 1)) ⟨.pushing (n + 1), 0, tmpbuf⟩ q = (r, q', []) ∧ r.pc = .outside ∧
        q'.Bounded ∧ q'.content = tmpbuf.take (n + 1) ++ q.content := by
  induction n generalizing q with
  | zero =>
    have hfull : ¬q.isFull := (TtyQueue.isFull_iff h).not.2 (by omega)
    have hpush : (q.pushFront tmpbuf[0]).2.content = tmpbuf[0] :: q.content :=
      (TtyQueue.pushFront_spec h hfull).2
    have hstep : readLoop (fuel + 1) ⟨.pushing 1, 0, tmpbuf⟩ q =
        readLoop fuel ⟨.outside, 0, tmpbuf⟩ (q.pushFront (tmpbuf[0]?.getD 0)).2 := rfl
    rw [List.getElem?_eq_getElem hn, Option.getD_some] at hstep
    refine ⟨_, _, hstep.trans (readLoop_outside rfl), rfl, h.pushFront, ?_⟩
    rw [hpush, ← List.take_append_getElem hn]
    rfl
  | succ n ih =>
    -- the queue has held these characters before, so it is not full
    have hfull : ¬q.isFull := (TtyQueue.isFull_iff h).not.2 (by omega)
    have hpush : (q.pushFront tmpbuf[n + 1]).2.content = tmpbuf[n + 1] :: q.content :=
      (TtyQueue.pushFront_spec h hfull).2
    have hstep : readLoop (fuel + (n + 1 + 1)) ⟨.pushing (n + 1 + 1), 0, tmpbuf⟩ q =
        readLoop (fuel + (n + 1)) ⟨.pushing (n + 1), 0, tmpbuf⟩
          (q.pushFront (tmpbuf[n + 1]?.getD 0)).2 := rfl
    rw [List.getElem?_eq_getElem hn, Option.getD_some] at hstep
    have hbounded : (q.pushFront tmpbuf[n + 1]).2.Bounded := h.pushFront
    obtain ⟨r, q', heq, hr, hb, hc⟩ := ih hbounded (by omega)
      (by rw [hpush, List.length_cons]; omega)
    refine ⟨r, q', hstep.trans heq, hr, hb, ?_⟩
    rw [hc, hpush, ← List.take_append_getElem hn, List.append_assoc, List.singleton_append]

/-! ## A whole read -/

/-- The first end of a line. -/
theorem exists_line {l : List Byte} (h : ∃ ch ∈ l, ends ch) :
    ∃ line ch rest, l = line ++ ch :: rest ∧ ends ch ∧ ∀ c ∈ line, ¬ends c := by
  obtain ⟨ch, hfind⟩ := Option.isSome_iff_exists.1 (List.find?_isSome.2 h)
  obtain ⟨hend, line, rest, hl, hline⟩ := List.find?_eq_some_iff_append.1 hfind
  exact ⟨line, ch, rest, hl, hend, fun c hc => by simpa using hline c hc⟩

/-- The rest of a line is put aside and pushed back, and the reader returns. -/
theorem readLoop_rest (h : q.Bounded) (hend : ∃ c ∈ q.content, ends c)
    (hfuel : 2 * q.content.length ≤ fuel) : ∃ r q',
      readLoop fuel ⟨.loop, 0, []⟩ q = (r, q', []) ∧ r.pc = .outside ∧ q'.Bounded ∧
        q'.content = q.content := by
  obtain ⟨line, ch, rest, hl, hch, hline⟩ := exists_line hend
  have hlen := TtyQueue.length_content_lt h
  have hcount : q.content.length = line.length + 1 + rest.length := by
    rw [hl, List.length_append, List.length_cons]
    omega
  have htmp : (line ++ [ch]).length = line.length + 1 := by
    rw [List.length_append, List.length_singleton]
  obtain ⟨hb, hc⟩ := popped_spec h (hl.trans (List.append_cons _ _ _))
  rw [htmp] at hb hc
  obtain ⟨f, rfl⟩ : ∃ f, fuel = f + (line.length + 1) + (line.length + 1) :=
    ⟨fuel - (line.length + 1) - (line.length + 1), by omega⟩
  -- a line that was in the queue fits in `tmpbuf`
  have hroom : ([] : List Byte).length + line.length < TTY_BUF_SIZE := by
    rw [List.length_nil]
    omega
  have haside := readLoop_aside (f + (line.length + 1)) h hl hline hch hroom
  rw [List.nil_append, htmp] at haside
  have hlast : line.length < (line ++ [ch]).length := htmp.symm ▸ Nat.lt_succ_self _
  obtain ⟨r, q', heq, hr, hb', hc'⟩ := readLoop_pushing f hb hlast (by rw [hc]; omega)
  refine ⟨r, q', haside.trans heq, hr, hb', ?_⟩
  rw [hc', hc, hl, List.take_of_length_le htmp.le, List.append_assoc, List.singleton_append]

/-- A read delivers the characters that it asks for, if there is the end of a line at the last
    of them, or after it. -/
theorem ttyRead_spec (h : q.Bounded) {nr : ℕ} (hnr : 1 ≤ nr)
    (hend : ∃ i ch, nr ≤ i + 1 ∧ q.content[i]? = some ch ∧ ends ch) :
    ∃ q', ttyRead nr q = some ((nr : ℤ), q.content.take nr, q') ∧ q'.Bounded ∧
      q'.content = q.content.drop nr := by
  obtain ⟨i, c, hi, hget, hc⟩ := hend
  obtain ⟨n, rfl⟩ : ∃ n, nr = n + 1 := ⟨nr - 1, by omega⟩
  have hlen : q.content.length < 1024 := TtyQueue.length_content_lt h
  obtain ⟨hilt, hieq⟩ := List.getElem?_eq_some_iff.1 hget
  have hn : n < q.content.length := by omega
  have hsplit : q.content = q.content.take n ++ q.content[n] :: q.content.drop (n + 1) := by
    rw [← List.drop_eq_getElem_cons hn, List.take_append_drop]
  have hcount : (q.content.take n).length = n := List.length_take_of_le hn.le
  have htake : q.content.take (n + 1) = q.content.take n ++ [q.content[n]] :=
    (List.take_append_getElem hn).symm
  have hsize : (q.content.take (n + 1)).length = n + 1 := List.length_take_of_le hn
  obtain ⟨hb, hrest⟩ := popped_spec h (List.take_append_drop (n + 1) q.content).symm
  rw [hsize] at hb hrest
  -- the loop after the last character that is delivered
  suffices hloop : ∃ r q', readLoop (2047 - n)
      ⟨if ends q.content[n] then .outside else .loop, 0, []⟩ (popped (n + 1) q) = (r, q', []) ∧
        r.pc = .outside ∧ q'.Bounded ∧ q'.content = q.content.drop (n + 1) by
    obtain ⟨r, q', heq, hr, hb', hc'⟩ := hloop
    have hwanted := readLoop_wanted (2047 - n) h hsplit
    have hfuel : 2047 - n + (n + 1) = 2 * 1024 := by omega
    have hpos : ¬((n + 1 : ℕ) : ℤ) < 0 := by omega
    rw [hcount, heq, hfuel] at hwanted
    refine ⟨q', ?_, hb', hc'⟩
    rw [ttyRead, Reader.call, if_neg hpos, hwanted]
    dsimp only
    rw [if_pos hr, if_neg hpos, ← htake, hsize]
  by_cases hlast : ends q.content[n]
  · rw [if_pos hlast, readLoop_outside rfl]
    exact ⟨_, _, rfl, rfl, hb, hrest⟩
  · -- the end of the line is after the last character, and the rest is put aside
    have hne : i ≠ n := by
      rintro rfl
      exact hlast (hieq ▸ hc)
    have hafter : ∃ c ∈ (popped (n + 1) q).content, ends c := by
      refine ⟨c, ?_, hc⟩
      rw [hrest, List.mem_iff_getElem?]
      refine ⟨i - (n + 1), ?_⟩
      rw [List.getElem?_drop, ← hget]
      congr 1
      omega
    have hfuel : 2 * (popped (n + 1) q).content.length ≤ 2047 - n := by
      rw [hrest, List.length_drop]
      omega
    obtain ⟨r, q', heq, hr, hb', hc'⟩ := readLoop_rest hb hafter hfuel
    rw [if_neg hlast]
    exact ⟨r, q', heq, hr, hb', hc'.trans hrest⟩

/-- Two reads deliver the characters that one read delivers, and leave the same characters in the
    buffer. -/
theorem ttyRead_split (q : TtyQueue) (h : q.Bounded) (m n : ℕ) (hm : 1 ≤ m) (hn : 1 ≤ n)
    (hend : ∃ i ch, m + n ≤ i + 1 ∧ q.content[i]? = some ch ∧ ends ch) :
    ∃ l₁ l₂ q₁ q₂ q', ttyRead m q = some ((m : ℤ), l₁, q₁) ∧
      ttyRead n q₁ = some ((n : ℤ), l₂, q₂) ∧
      ttyRead (m + n : ℕ) q = some (((m + n : ℕ) : ℤ), l₁ ++ l₂, q') ∧
      l₁ ++ l₂ = q.content.take (m + n) ∧ q₂.content = q'.content ∧
      q'.content = q.content.drop (m + n) := by
  obtain ⟨i, ch, hi, hget, hch⟩ := hend
  obtain ⟨q₁, hread₁, hb₁, hc₁⟩ := ttyRead_spec h hm ⟨i, ch, by omega, hget, hch⟩
  obtain ⟨q', hread, -, hc'⟩ := ttyRead_spec h (by omega : 1 ≤ m + n) ⟨i, ch, hi, hget, hch⟩
  have hget₁ : q₁.content[i - m]? = some ch := by
    rw [hc₁, List.getElem?_drop, ← hget]
    congr 1
    omega
  obtain ⟨q₂, hread₂, -, hc₂⟩ := ttyRead_spec hb₁ hn ⟨i - m, ch, by omega, hget₁, hch⟩
  have htake : q.content.take m ++ q₁.content.take n = q.content.take (m + n) := by
    rw [hc₁, List.take_add]
  refine ⟨_, _, q₁, q₂, q', hread₁, hread₂, htake ▸ hread, htake, ?_, hc'⟩
  rw [hc₂, hc₁, hc', List.drop_drop]

/-- A line with one character is read in two calls. -/
theorem ttyRead_split_line : ∃ q : TtyQueue, q.content = [97, newline] ∧
    ∃ l₁ l₂ q₁ q₂ q', ttyRead (1 : ℕ) q = some (((1 : ℕ) : ℤ), l₁, q₁) ∧
      ttyRead (1 : ℕ) q₁ = some (((1 : ℕ) : ℤ), l₂, q₂) ∧
      ttyRead (1 + 1 : ℕ) q = some (((1 + 1 : ℕ) : ℤ), l₁ ++ l₂, q') ∧
      l₁ ++ l₂ = q.content.take (1 + 1) ∧ q₂.content = q'.content ∧
      q'.content = q.content.drop (1 + 1) := by
  obtain ⟨q, hq⟩ : ∃ q : TtyQueue, q = ⟨fun i => if i = 1023 then 97 else newline, 1023, 1⟩ :=
    ⟨_, rfl⟩
  have hb : q.Bounded := by rw [hq]; exact ⟨by decide, by decide⟩
  have hc : q.content = [97, newline] := by rw [hq]; decide
  exact ⟨q, hc, ttyRead_split q hb 1 1 (le_refl 1) (le_refl 1)
    ⟨1, newline, le_refl 2, by rw [hc]; rfl, by decide⟩⟩

end NeuOs
