import NeuOs.Tty.Edit
import NeuOs.Tty.Split

/-!
# Reading lines (lib/getline.c)

`getline` reads the characters of a line one by one. Each call of `tty_read` delivers one of them,
puts the rest of the line aside, and pushes it back.

If there is a line in the buffer, `getline` gets it, and leaves what follows (`getline_spec`). With
keystrokes in the meantime, the calls of `getline` get the lines of the edited keystrokes, one after
the other: none is lost, cut or joined with the next one, as long as reads and keystrokes commute
(`lines_read`).

The variable `ch` of `getline` is not initialised. If it happens to be the end of a line at the
call, nothing is read, and the 0 is stored in front of `str`.
-/

namespace NeuOs

open Transition

/-! ## The code -/

/-- What `getline` returns, the bytes that it has stored at `str`, and whether it has stored one in
    front of `str`. -/
structure Gotten where
  value : ℤ
  str : List Byte
  underrun : Bool

/-- The end of `getline`, when `str` has been stored: `*(p - 1) = '\0'` and `return len - 1`. -/
def terminate (str : List Byte) : Gotten where
  value := str.length - 1
  str := str.set (str.length - 1) 0
  underrun := str.isEmpty

/-- The loop of `getline`, with no signal pending and no input in the meantime: the bytes that it
    has stored, and the buffer. -/
def getlineLoop : ℕ → (ch : Byte) → (str : List Byte) → TtyQueue → Option (List Byte × TtyQueue)
  | 0, _, _, _ => none
  | fuel + 1, ch, str, q =>
    if ends ch then some (str, q)
    else (ttyRead 1 q).bind fun (_, buf, q) =>
      let ch := buf.headD 0
      getlineLoop fuel ch (str ++ [ch]) q

/-- `getline`, with the byte that is in `ch` at the call. -/
def getline (fuel : ℕ) (ch : Byte) (q : TtyQueue) : Option (Gotten × TtyQueue) :=
  (getlineLoop fuel ch [] q).map fun (str, q) => (terminate str, q)

/-! ## A line in the buffer -/

variable {q : TtyQueue} {ch e : Byte} {str line rest : List Byte}

/-- A line without its end is stored as a string. -/
theorem terminate_line (line : List Byte) (e : Byte) :
    terminate (line ++ [e]) = ⟨line.length, line ++ [0], false⟩ := by
  have hlen : (line ++ [e]).length = line.length + 1 := List.length_append
  rw [terminate, hlen, Nat.add_sub_cancel, List.set_append_right _ _ le_rfl, Nat.sub_self]
  congr 1
  · push_cast
    exact add_sub_cancel_right _ _
  · cases line <;> rfl

/-- A read of one character, if there is the end of a line in the buffer. -/
theorem ttyRead_one (h : q.Bounded) (hc : q.content = ch :: rest) (hend : ∃ e ∈ q.content, ends e) :
    ∃ q', ttyRead 1 q = some (1, [ch], q') ∧ q'.Bounded ∧ q'.content = rest := by
  obtain ⟨e, hmem, he⟩ := hend
  obtain ⟨i, hi⟩ := List.mem_iff_getElem?.1 hmem
  obtain ⟨q', hread, hb, hrest⟩ := ttyRead_spec h (le_refl 1) ⟨i, e, Nat.le_add_left 1 i, hi, he⟩
  rw [hc] at hread hrest
  exact ⟨q', hread, hb, hrest⟩

theorem getlineLoop_line (h : q.Bounded) (hc : q.content = line ++ e :: rest)
    (hline : ∀ c ∈ line, ¬ends c) (he : ends e) (hch : ¬ends ch) :
    ∃ q', getlineLoop (line.length + 2) ch str q = some (str ++ line ++ [e], q') ∧ q'.Bounded ∧
      q'.content = rest := by
  have hend : ∃ e ∈ q.content, ends e := ⟨e, by rw [hc]; simp, he⟩
  induction line generalizing q ch str with
  | nil =>
    obtain ⟨q', hread, hb, hrest⟩ := ttyRead_one h hc hend
    refine ⟨q', ?_, hb, hrest⟩
    rw [List.length_nil, getlineLoop, if_neg hch, hread, Option.bind_some]
    dsimp only [List.headD_cons]
    rw [getlineLoop, if_pos he, List.append_nil]
  | cons c line ih =>
    obtain ⟨q₁, hread, hb₁, hc₁⟩ := ttyRead_one h hc hend
    obtain ⟨q', hloop, hb, hrest⟩ := @ih q₁ c (str ++ [c]) hb₁ hc₁
      (fun x hx => hline x (List.mem_cons_of_mem c hx)) (hline c List.mem_cons_self)
      ⟨e, by rw [hc₁]; simp, he⟩
    refine ⟨q', ?_, hb, hrest⟩
    rw [List.length_cons, getlineLoop, if_neg hch, hread, Option.bind_some]
    dsimp only [List.headD_cons]
    rw [hloop, List.append_assoc str [c], List.singleton_append]

/-- If there is a line in the buffer, `getline` returns its length, and has stored it as a string;
    what follows is still in the buffer. Or, if `ch` is the end of a line at the call, it reads
    nothing, and the 0 is in front of the string. -/
theorem getline_spec (h : q.Bounded) (hc : q.content = line ++ e :: rest)
    (hline : ∀ c ∈ line, ¬ends c) (he : ends e) (ch : Byte) :
    if ends ch then getline (line.length + 2) ch q = some (⟨-1, [], true⟩, q)
    else ∃ q', getline (line.length + 2) ch q = some (⟨line.length, line ++ [0], false⟩, q') ∧
      q'.Bounded ∧ q'.content = rest := by
  split_ifs with hch
  · rw [getline, getlineLoop, if_pos hch]
    rfl
  · obtain ⟨q', hloop, hb, hrest⟩ := @getlineLoop_line q ch e [] line rest h hc hline he hch
    refine ⟨q', ?_, hb, hrest⟩
    rw [List.nil_append] at hloop
    rw [getline, hloop, Option.map_some]
    dsimp only
    rw [terminate_line]

/-- The line `a` is read. -/
theorem getline_spec_line : ∃ q q' : TtyQueue, q.content = [97, newline] ∧
    getline 3 0 q = some (⟨1, [97, 0], false⟩, q') ∧ q'.content = [] := by
  obtain ⟨q, hq⟩ : ∃ q : TtyQueue, q = ⟨fun i => if i = 1023 then 97 else newline, 1023, 1⟩ :=
    ⟨_, rfl⟩
  have hb : q.Bounded := by rw [hq]; exact ⟨by decide, by decide⟩
  have hc : q.content = [97] ++ newline :: [] := by rw [hq]; decide
  have hspec := getline_spec hb hc (by decide) (by decide) 0
  rw [if_neg (by decide)] at hspec
  obtain ⟨q', hget, -, hrest⟩ := hspec
  exact ⟨q, q', hc, hget, hrest⟩

/-! ## A process that reads lines -/

/-- Where the process is: outside of `getline`, before the condition of its loop, or in `tty_read`,
    with the number of characters that had been delivered at its call. -/
inductive Phase
  | outside
  | loop
  | reading (mark : ℕ)

/-- A terminal, and a process that calls `getline` again and again; the local variables of
    `getline`, and what the calls have returned. -/
structure LineReader where
  terminal : Terminal
  phase : Phase
  ch : Byte
  str : List Byte
  returned : List Gotten

inductive LineAction
  /-- A key, or a step of `tty_read`. -/
  | terminal (a : TtyAction)
  /-- The call of `getline`, with the byte that is in `ch`. -/
  | enter (ch : Byte)
  /-- The call of `tty_read`. -/
  | call
  /-- `tty_read` returns, and `getline` stores the character. -/
  | got
  /-- `getline` returns. -/
  | leave

namespace LineReader

/-- The steps of the process and of the keyboard. -/
def Step (s : LineReader) (a : LineAction) (s' : LineReader) : Prop :=
  match a with
  | .terminal a => (∀ nr, a ≠ .call nr) ∧ ∃ t, s.terminal.Step a t ∧ s' = { s with terminal := t }
  | .enter ch => s.phase = .outside ∧ s' = { s with phase := .loop, ch := ch, str := [] }
  | .call => s.phase = .loop ∧ ¬ends s.ch ∧ ∃ t, s.terminal.Step (.call 1) t ∧
      s' = { s with terminal := t, phase := .reading s.terminal.delivered.length }
  | .got => ∃ mark, s.phase = .reading mark ∧ s.terminal.reader.pc = .outside ∧
      s' = { s with
        phase := .loop
        ch := s.terminal.delivered.getD mark 0
        str := s.str ++ [s.terminal.delivered.getD mark 0] }
  | .leave => s.phase = .loop ∧ ends s.ch ∧
      s' = { s with phase := .outside, returned := s.returned ++ [terminate s.str] }

/-- Reads and keystrokes commute. -/
def Settled (s : LineReader) : LineAction → Prop
  | .terminal a => s.terminal.Settled a
  | _ => True

/-- The process before its first call, at the boot. -/
def boot (b₁ b₂ : ℕ → Byte) : LineReader := ⟨.boot b₁ b₂, .outside, 0, [], []⟩

/-- The states that are reached in settled steps. -/
abbrev Reachable (b₁ b₂ : ℕ → Byte) : LineReader → Prop :=
  Transition.Reachable (· = boot b₁ b₂) fun s a s' => s.Step a s' ∧ s.Settled a

variable {s s' : LineReader} {a : LineAction} {l : List Byte}

/-! ## The lines -/

/-- Lines, each with its end. -/
def text (lines : List (List Byte × Byte)) : List Byte := lines.flatMap fun x => x.1 ++ [x.2]

/-- The process has got these lines, in this order. -/
structure Got (s : LineReader) (lines : List (List Byte × Byte)) : Prop where
  line : ∀ x ∈ lines, (∀ c ∈ x.1, ¬ends c) ∧ ends x.2
  returned : s.returned.filter (fun r => !r.underrun) =
    lines.map fun x => ⟨x.1.length, x.1 ++ [0], false⟩
  refused : ∀ r ∈ s.returned, r.underrun → r = ⟨-1, [], true⟩

/-- What has been delivered, when `l` has been delivered before the present call of `getline`. -/
def AtPhase (s : LineReader) (l : List Byte) : Prop :=
  match s.phase with
  | .outside => s.terminal.reader.pc = .outside ∧ s.terminal.delivered = l
  | .loop => s.terminal.reader.pc = .outside ∧ s.terminal.delivered = l ++ s.str ∧
      (s.str = [] ∨ ∃ line, s.str = line ++ [s.ch] ∧ ∀ c ∈ line, ¬ends c)
  | .reading mark => mark = (l ++ s.str).length ∧ (∀ c ∈ s.str, ¬ends c) ∧
      (s.terminal.reader.Reads ∧ s.terminal.reader.nr = 1 ∧
          s.terminal.delivered = l ++ s.str ∨
        ∃ c, s.terminal.reader.nr = 0 ∧ s.terminal.delivered = l ++ s.str ++ [c])

theorem AtPhase.before (h : s.AtPhase l) : l <+: s.terminal.delivered := by
  rw [AtPhase] at h
  split at h
  · exact h.2 ▸ List.prefix_rfl
  · exact h.2.1 ▸ List.prefix_append _ _
  · obtain ⟨-, -, ⟨-, -, hd⟩ | ⟨c, -, hd⟩⟩ := h
    · exact hd ▸ List.prefix_append _ _
    · rw [hd, List.append_assoc]
      exact List.prefix_append _ _

/-- A read is not running outside of `tty_read`. -/
theorem AtPhase.reading (h : s.AtPhase l) (hpc : s.terminal.reader.pc ≠ .outside) :
    ∃ mark, s.phase = .reading mark := by
  rw [AtPhase] at h
  split at h
  · exact absurd h.1 hpc
  · exact absurd h.1 hpc
  · exact ⟨_, by assumption⟩

/-- A step of a push delivers nothing. -/
theorem AtPhase.pushes {t : Terminal} (h : s.AtPhase l) (hleft : s.terminal.reader.left.isSome)
    (hnr : t.reader.nr = s.terminal.reader.nr) (hd : t.delivered = s.terminal.delivered) :
    AtPhase { s with terminal := t } l := by
  have hpc : s.terminal.reader.pc ≠ .outside := fun hpc => by
    rw [Reader.left, hpc] at hleft
    cases hleft
  obtain ⟨mark, hmark⟩ := h.reading hpc
  simp only [AtPhase, hmark, hnr, hd] at h ⊢
  obtain ⟨hlen, hstr, ⟨hreads, -⟩ | hafter⟩ := h
  · rw [Terminal.left_of_reads hreads] at hleft
    cases hleft
  · exact ⟨hlen, hstr, .inr hafter⟩

/-- A step of the terminal is a step of the present read. -/
theorem AtPhase.terminal {a : TtyAction} {t : Terminal} (h : s.AtPhase l)
    (ha : ∀ nr, a ≠ .call nr) (hst : s.terminal.Step a t) :
    AtPhase { s with terminal := t } l := by
  cases a with
  | key ch => exact hst ▸ h
  | call nr => exact absurd rfl (ha nr)
  | wake =>
    obtain ⟨hpc, -, rfl⟩ := hst
    obtain ⟨mark, hmark⟩ := h.reading (hpc ▸ nofun)
    simp only [AtPhase, hmark] at h ⊢
    exact ⟨h.1, h.2.1, h.2.2.imp_left fun h => ⟨trivial, h.2⟩⟩
  | load =>
    obtain ⟨hpc, rfl⟩ := hst
    obtain ⟨mark, hmark⟩ := h.reading (hpc ▸ nofun)
    simp only [AtPhase, hmark] at h ⊢
    exact ⟨h.1, h.2.1, h.2.2.imp_left fun h => ⟨trivial, h.2⟩⟩
  | pop =>
    obtain ⟨ch, hpc, rfl⟩ := hst
    obtain ⟨mark, hmark⟩ := h.reading (hpc ▸ nofun)
    simp only [AtPhase, hmark] at h ⊢
    obtain ⟨hlen, hstr, ⟨-, hnr, hbefore⟩ | ⟨c, hnr, hbefore⟩⟩ := h
    · -- the character that the read delivers
      have hpos : ¬s.terminal.reader.nr ≤ 0 := by omega
      refine ⟨hlen, hstr, .inr ⟨ch, ?_, ?_⟩⟩
      · rw [Reader.got, if_neg hpos]
        split_ifs <;> exact (by rw [hnr]; rfl)
      · rw [hbefore, Reader.got, if_neg hpos]
        split_ifs <;> rfl
    · -- a character that is put aside
      have hle : s.terminal.reader.nr ≤ 0 := hnr.le
      refine ⟨hlen, hstr, .inr ⟨c, ?_, ?_⟩⟩
      · rw [Reader.got, if_pos hle]
        split_ifs <;> exact hnr
      · rw [hbefore, Reader.got, if_pos hle]
        split_ifs <;> exact List.append_nil _
  | test =>
    obtain ⟨n, hpc, rfl⟩ := hst
    refine h.pushes (by rw [Reader.left, hpc]; rfl) ?_ rfl
    dsimp only
    split_ifs <;> rfl
  | moveFront =>
    obtain ⟨n, hpc, rfl⟩ := hst
    exact h.pushes (by rw [Reader.left, hpc]; rfl) rfl rfl
  | storeFront =>
    obtain ⟨n, hpc, rfl⟩ := hst
    exact h.pushes (by rw [Reader.left, hpc]; rfl) rfl rfl

/-- What holds of every state: the terminal commutes, and the process has got some lines. -/
def Inv (s : LineReader) : Prop :=
  s.terminal.Inv ∧ s.terminal.Backed ∧ s.terminal.Commutes ∧
    ∃ lines, s.Got lines ∧ s.AtPhase (text lines)

theorem inv_boot (b₁ b₂ : ℕ → Byte) : (boot b₁ b₂).Inv :=
  ⟨Terminal.inv_boot b₁ b₂, Terminal.backed_boot b₁ b₂,
    ⟨fun h => (by cases h), List.prefix_rfl, rfl⟩, [],
    ⟨fun _ h => (by cases h), rfl, fun _ h => (by cases h)⟩, rfl, rfl⟩

/-- `getline` returns a line, or it has read nothing. -/
theorem Got.leave {lines : List (List Byte × Byte)} (h : s.Got lines) (hphase : s.phase = .loop)
    (hat : s.AtPhase (text lines)) (hch : ends s.ch) :
    ∃ lines', Got { s with phase := .outside, returned := s.returned ++ [terminate s.str] } lines' ∧
      AtPhase { s with phase := .outside, returned := s.returned ++ [terminate s.str] }
        (text lines') := by
  simp only [AtPhase, hphase] at hat
  obtain ⟨hpc, hd, hstr | ⟨line, hstr, hline⟩⟩ := hat
  · rw [hstr] at hd ⊢
    refine ⟨lines, ⟨h.line, ?_, fun r hr hu => ?_⟩, hpc, hd.trans (List.append_nil _)⟩
    · rw [List.filter_append, h.returned]
      exact List.append_nil _
    · rcases List.mem_append.1 hr with hr | hr
      · exact h.refused r hr hu
      · exact List.mem_singleton.1 hr
  · rw [hstr, terminate_line]
    refine ⟨lines ++ [(line, s.ch)], ⟨fun x hx => ?_, ?_, fun r hr hu => ?_⟩, hpc, ?_⟩
    · rcases List.mem_append.1 hx with hx | hx
      · exact h.line x hx
      · rw [List.mem_singleton.1 hx]
        exact ⟨hline, hch⟩
    · rw [List.filter_append, h.returned, List.map_append]
      rfl
    · rcases List.mem_append.1 hr with hr | hr
      · exact h.refused r hr hu
      · rw [List.mem_singleton.1 hr] at hu
        cases hu
    · rw [text, List.flatMap_append, List.flatMap_singleton]
      exact hstr ▸ hd

theorem Inv.step (h : s.Inv) (hst : s.Step a s') (hset : s.Settled a) : s'.Inv := by
  obtain ⟨hs, hb, hc, lines, hgot, hat⟩ := h
  cases a with
  | terminal a =>
    obtain ⟨ha, t, ht, rfl⟩ := hst
    exact ⟨hs.step ht, hb.step hs hset ht, (hc.step_iff hs hb ht).2 hset, lines,
      ⟨hgot.line, hgot.returned, hgot.refused⟩, hat.terminal ha ht⟩
  | enter ch =>
    obtain ⟨hphase, rfl⟩ := hst
    simp only [AtPhase, hphase] at hat
    exact ⟨hs, hb, hc, lines, ⟨hgot.line, hgot.returned, hgot.refused⟩, hat.1,
      hat.2.trans (List.append_nil _).symm, .inl rfl⟩
  | call =>
    obtain ⟨hphase, hch, t, ht, rfl⟩ := hst
    refine ⟨hs.step ht, hb.step hs (show s.terminal.Settled (.call 1) from trivial) ht, hc.call ht,
      lines, ⟨hgot.line, hgot.returned, hgot.refused⟩, ?_⟩
    simp only [AtPhase, hphase] at hat
    obtain ⟨-, rfl⟩ := ht
    refine ⟨congrArg List.length hat.2.1, fun c hc => ?_, .inl ⟨trivial, rfl, hat.2.1⟩⟩
    obtain hstr | ⟨line, hstr, hline⟩ := hat.2.2
    · rw [hstr] at hc
      cases hc
    · rw [hstr] at hc
      rcases List.mem_append.1 hc with hc | hc
      · exact hline c hc
      · exact List.mem_singleton.1 hc ▸ hch
  | got =>
    obtain ⟨mark, hphase, hpc, rfl⟩ := hst
    refine ⟨hs, hb, hc, lines, ⟨hgot.line, hgot.returned, hgot.refused⟩, ?_⟩
    simp only [AtPhase, hphase] at hat
    obtain ⟨hmark, hstr, ⟨hreads, -⟩ | ⟨c, -, hd⟩⟩ := hat
    · rw [Reader.Reads, hpc] at hreads
      exact hreads.elim
    · have hget : s.terminal.delivered.getD mark 0 = c := by
        rw [hd, hmark]
        simp
      dsimp only [AtPhase]
      rw [hget]
      exact ⟨hpc, hd.trans (List.append_assoc _ _ _), .inr ⟨s.str, rfl, hstr⟩⟩
  | leave =>
    obtain ⟨hphase, hch, rfl⟩ := hst
    exact ⟨hs, hb, hc, hgot.leave hphase hat hch⟩

theorem Reachable.got {b₁ b₂ : ℕ → Byte} (h : Reachable b₁ b₂ s) :
    ∃ lines, s.Got lines ∧ text lines <+: (edited s.terminal.keys).1 ∧
      (s.phase = .outside → text lines ++ s.terminal.buffer.content =
        (edited s.terminal.keys).1 ++ (edited s.terminal.keys).2) := by
  have hinv : s.Inv := h.invariant (P := Inv) (fun s hs => hs ▸ inv_boot b₁ b₂)
    fun s a s' hs hst => hs.step hst.1 hst.2
  obtain ⟨-, -, ⟨-, hpre, hstream⟩, lines, hgot, hat⟩ := hinv
  refine ⟨lines, hgot, hat.before.trans hpre, fun hphase => ?_⟩
  simp only [AtPhase, hphase] at hat
  rw [← hstream, Terminal.stream, Terminal.held, Reader.aside, hat.1, hat.2, List.append_nil]

/-- However keystrokes and reads are interleaved, as long as they commute: what `getline` has
    returned are the first lines of the edited keystrokes, as strings, with their lengths (unless it
    has read nothing); and outside of `getline` the rest of the edited keystrokes is in the
    buffer. -/
theorem lines_read {b₁ b₂ : ℕ → Byte} (h : Reachable b₁ b₂ s) :
    ∃ lines, s.Got lines ∧ text lines <+: (edited s.terminal.keys).1 ∧
      (s.phase = .outside → text lines ++ s.terminal.buffer.content =
        (edited s.terminal.keys).1 ++ (edited s.terminal.keys).2) := h.got

/-- An empty line is typed and read. -/
theorem lines_read_newline : ∃ s, Reachable (fun _ => 0) (fun _ => 0) s ∧
    s.returned = [⟨0, [0], false⟩] ∧ ∃ lines, s.Got lines ∧
      text lines <+: (edited s.terminal.keys).1 ∧
      (s.phase = .outside → text lines ++ s.terminal.buffer.content =
        (edited s.terminal.keys).1 ++ (edited s.terminal.keys).2) := by
  obtain ⟨s₀, hs₀⟩ : ∃ s₀, s₀ = Terminal.boot (fun _ => 0) fun _ => 0 := ⟨_, rfl⟩
  have hinv₀ : s₀.Inv := hs₀ ▸ Terminal.inv_boot _ _
  obtain ⟨t₁, h₁⟩ : ∃ t₁, s₀.Step (.key newline) t₁ := ⟨_, rfl⟩
  have hc₁ : t₁.buffer.content = [newline] :=
    (Terminal.buffer_key hinv₀ h₁).2.trans (by rw [hs₀]; decide)
  have hr₁ : t₁.reader = ⟨.outside, 0, []⟩ := by rw [h₁, hs₀]; rfl
  have hd₁ : t₁.delivered = [] := by rw [h₁, hs₀]; rfl
  obtain ⟨t₂, ht₂⟩ : ∃ t₂, t₂ = { t₁ with reader := .call 1 } := ⟨_, rfl⟩
  have h₂ : t₁.Step (.call 1) t₂ := ⟨by rw [hr₁], ht₂⟩
  have hr₂ : t₂.reader = ⟨.loop, 1, []⟩ := by rw [ht₂]; rfl
  have hc₂ : t₂.buffer.content = [newline] := by rw [ht₂]; exact hc₁
  obtain ⟨hwake, hload, hpop, -⟩ :=
    Terminal.pop_steps ((hinv₀.step h₁).step h₂) (by rw [hr₂]) hc₂
  obtain ⟨t₅, ht₅⟩ : ∃ t₅, t₅ = t₂.afterPop newline := ⟨_, rfl⟩
  rw [← ht₅] at hpop
  have hpc₅ : t₅.reader.pc = .outside := by rw [ht₅, Terminal.afterPop, hr₂]; rfl
  have hd₅ : t₅.delivered = [newline] := by rw [ht₅, Terminal.afterPop, hr₂, ht₂, hd₁]; rfl
  have hsettled : (t₂.withPc (.loaded newline)).Settled .pop := by
    have hnr : ¬(t₂.withPc (.loaded newline)).reader.nr ≤ 0 := by
      rw [Terminal.withPc, hr₂]
      exact (by decide : ¬(1 : ℤ) ≤ 0)
    rw [Terminal.Settled, if_neg hnr]
    refine ⟨fun ch hch => ?_, newline, ?_, by decide⟩ <;> rw [Terminal.withPc, hc₂]
    · exact congrArg some (Pc.loaded.inj hch)
    · exact List.mem_cons_self
  -- the key, the call of `getline`, that of `tty_read`, its pop, and the two returns
  have hreach : Reachable (fun _ => 0) (fun _ => 0)
      ⟨t₅, .outside, newline, [newline], [⟨0, [0], false⟩]⟩ := by
    refine .step (s := ⟨t₅, .loop, newline, [newline], []⟩) (a := .leave) ?_
      ⟨⟨rfl, show ends newline by decide, rfl⟩, trivial⟩
    refine .step (s := ⟨t₅, .reading 0, 0, [], []⟩) (a := .got) ?_
      ⟨⟨0, rfl, hpc₅, by rw [hd₅]; rfl⟩, trivial⟩
    refine .step (s := ⟨_, .reading 0, 0, [], []⟩) (a := .terminal .pop) ?_
      ⟨⟨(by rintro n ⟨⟩), t₅, hpop, rfl⟩, by exact hsettled⟩
    refine .step (s := ⟨_, .reading 0, 0, [], []⟩) (a := .terminal .load) ?_
      ⟨⟨(by rintro n ⟨⟩), _, hload, rfl⟩, trivial⟩
    refine .step (s := ⟨t₂, .reading 0, 0, [], []⟩) (a := .terminal .wake) ?_
      ⟨⟨(by rintro n ⟨⟩), _, hwake, rfl⟩, trivial⟩
    refine .step (s := ⟨t₁, .loop, 0, [], []⟩) (a := .call) ?_
      ⟨⟨rfl, show ¬ends 0 by decide, t₂, h₂, by rw [hd₁]; rfl⟩, trivial⟩
    refine .step (s := ⟨t₁, .outside, 0, [], []⟩) (a := .enter 0) ?_ ⟨⟨rfl, rfl⟩, trivial⟩
    refine .step (s := boot _ _) (a := .terminal (.key newline)) (.init rfl)
      ⟨⟨(by rintro n ⟨⟩), t₁, (by rw [hs₀] at h₁; exact h₁), rfl⟩, ?_⟩
    rw [Settled, Terminal.Settled, if_neg (by decide)]
    exact fun hfull => absurd hfull (by decide)
  exact ⟨_, hreach, rfl, lines_read hreach⟩

end LineReader

end NeuOs
