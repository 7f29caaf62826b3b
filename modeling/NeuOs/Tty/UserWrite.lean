import NeuOs.Tty.Console

/-!
# Writing to a terminal (kernel/chr_drv/tty_io.c)

`_user_tty_write` puts all bytes of the user into the queue of the terminal, and then the
console takes the queue. The characters that get to `video_putchar` are those in the queue
(`drained_spec`), which are as many of the bytes as there is room for
(`content_pushBytes`).

The result is the number of bytes that are asked for. `displays_iff` says that this is
what is displayed, in order, exactly up to 1023 bytes.
-/

namespace NeuOs

namespace Console

/-- The characters that `con_write` passes to `video_putchar`. -/
def drained : ℕ → TtyQueue → List Byte
  | 0, _ => []
  | fuel + 1, q => if q.isEmpty then [] else q.take.1 :: drained fuel q.take.2

variable {q : TtyQueue} {fuel : ℕ}

/-- `con_write` does nothing else to the console. -/
theorem conWrite_eq_foldl (c : Console) :
    (conWrite fuel q c).2 = (drained fuel q).foldl putchar c := by
  induction fuel generalizing q c with
  | zero => rfl
  | succ fuel ih =>
    rw [conWrite, drained]
    split_ifs
    · rfl
    · exact ih _

/-- They are the characters of the queue. -/
theorem drained_spec (hq : q.Bounded) (hfuel : q.content.length ≤ fuel) :
    drained fuel q = q.content := by
  induction fuel generalizing q with
  | zero =>
    have hnil := List.length_eq_zero_iff.1 (Nat.le_zero.1 hfuel)
    rw [drained, hnil]
  | succ fuel ih =>
    rw [drained]
    by_cases hemp : q.isEmpty
    · rw [if_pos hemp, (TtyQueue.isEmpty_iff hq).1 hemp]
    · have hne : q.content ≠ [] := fun hnil => hemp ((TtyQueue.isEmpty_iff hq).2 hnil)
      have htake := TtyQueue.content_take hq hne
      rw [htake, List.length_cons] at hfuel
      rw [if_neg hemp, ih hq.take (by omega), ← htake]

theorem bounded_conWrite (hq : q.Bounded) (c : Console) : (conWrite fuel q c).1.Bounded := by
  induction fuel generalizing q c with
  | zero => exact hq
  | succ fuel ih =>
    rw [conWrite]
    split_ifs
    · exact hq
    · exact ih hq.take _

end Console

/-! ## The code -/

/-- The loop of `_user_tty_write`: it does not look at what `tty_push_q` returns. -/
def pushBytes (q : TtyQueue) (buf : ℕ → Byte) (n : ℕ) : TtyQueue :=
  (List.range n).foldl (fun q i => (q.push (buf i)).2) q

/-- The effects of `_user_tty_write`: the result, the queue, the console, and the characters
    that have been passed to `video_putchar`. -/
structure UserWrite where
  result : ℤ
  writeQ : TtyQueue
  console : Console
  passed : List Byte

/-- `_user_tty_write` -/
def userTtyWrite (writeQ : TtyQueue) (c : Console) (buf : ℕ → Byte) (nr : ℤ) : UserWrite :=
  let q := pushBytes writeQ buf nr.toNat
  ⟨nr, (Console.conWrite TTY_BUF_SIZE q c).1, (Console.conWrite TTY_BUF_SIZE q c).2,
    Console.drained TTY_BUF_SIZE q⟩

/-- The bytes of the user are displayed, in order, nothing is left in the queue, and the
    result is the number of bytes that are displayed. -/
structure UserWrite.Displays (w : UserWrite) (buf : ℕ → Byte) (nr : ℤ) : Prop where
  passed : w.passed = (List.range nr.toNat).map buf
  empty : w.writeQ.isEmpty
  result : w.result = w.passed.length

/-! ## What is displayed -/

variable {q : TtyQueue} {buf : ℕ → Byte}

/-- The loop fills the queue with as many bytes as there is room for. -/
theorem content_pushBytes (hq : q.Bounded) (buf : ℕ → Byte) (n : ℕ) :
    (pushBytes q buf n).Bounded ∧
    (pushBytes q buf n).content =
      q.content ++ ((List.range n).map buf).take (TTY_BUF_SIZE - 1 - q.content.length) := by
  induction n with
  | zero =>
    rw [List.range_zero, List.map_nil, List.take_nil, List.append_nil]
    exact ⟨hq, rfl⟩
  | succ n ih =>
    obtain ⟨hb, hc⟩ := ih
    have hlt := TtyQueue.length_content_lt hq
    have hstep : pushBytes q buf (n + 1) = ((pushBytes q buf n).push (buf n)).2 := by
      rw [pushBytes, pushBytes, List.range_succ, List.foldl_append]
      rfl
    have hlen : ((List.range n).map buf).length = n := by rw [List.length_map, List.length_range]
    have hfull : (pushBytes q buf n).isFull ↔ TTY_BUF_SIZE - 1 - q.content.length ≤ n := by
      rw [TtyQueue.isFull_iff hb, hc, List.length_append, List.length_take, hlen]
      omega
    rw [hstep, List.range_succ, List.map_append]
    refine ⟨hb.push, ?_⟩
    by_cases hroom : (pushBytes q buf n).isFull
    · -- a byte that finds the ring full is dropped
      have hle := hfull.1 hroom
      rw [TtyQueue.push_of_isFull hroom, hc, List.take_append_of_le_length (hlen.symm ▸ hle)]
    · have hgt := not_le.1 (hfull.not.1 hroom)
      rw [(TtyQueue.push_spec hb hroom).2, hc, List.append_assoc]
      rw [List.take_of_length_le (by rw [hlen]; omega), List.take_of_length_le]
      · rfl
      · rw [List.length_append, hlen, List.length_map, List.length_singleton]
        omega

/-- What `_user_tty_write` does with an empty queue. -/
theorem userTtyWrite_spec (hq : q.Bounded) (hnil : q.content = []) (c : Console) (buf : ℕ → Byte)
    (nr : ℤ) :
    (userTtyWrite q c buf nr).passed = ((List.range nr.toNat).map buf).take (TTY_BUF_SIZE - 1) ∧
      (userTtyWrite q c buf nr).writeQ.isEmpty ∧
      (userTtyWrite q c buf nr).console =
        (userTtyWrite q c buf nr).passed.foldl Console.putchar c := by
  obtain ⟨hb, hc⟩ := content_pushBytes hq buf nr.toNat
  have hfuel := Nat.le_of_lt (TtyQueue.length_content_lt hb)
  rw [hnil] at hc
  refine ⟨(Console.drained_spec hb hfuel).trans hc, ?_, Console.conWrite_eq_foldl c⟩
  have hempty := (Console.conWrite_spec hb hfuel c).1
  exact (TtyQueue.isEmpty_iff (Console.bounded_conWrite hb c)).2 hempty

/-- The bytes of the user are displayed exactly if there are not more of them than the queue
    has room for. -/
theorem displays_iff (q : TtyQueue) (hq : q.Bounded) (hempty : q.isEmpty) (c : Console)
    (buf : ℕ → Byte) (nr : ℤ) (hnr : 0 ≤ nr) :
    (userTtyWrite q c buf nr).Displays buf nr ↔ nr ≤ TTY_BUF_SIZE - 1 := by
  have hnil := (TtyQueue.isEmpty_iff hq).1 hempty
  obtain ⟨hpassed, hdone, -⟩ := userTtyWrite_spec hq hnil c buf nr
  have hlen : ((List.range nr.toNat).map buf).length = nr.toNat := by
    rw [List.length_map, List.length_range]
  have hsize : (TTY_BUF_SIZE : ℤ) - 1 = 1023 := rfl
  have hcap : TTY_BUF_SIZE - 1 = 1023 := rfl
  rw [hsize]
  rw [hcap] at hpassed
  constructor
  · intro h
    have hcount := congrArg List.length hpassed
    rw [h.passed, List.length_take, hlen] at hcount
    omega
  · intro hle
    have hall : ((List.range nr.toNat).map buf).take 1023 = (List.range nr.toNat).map buf :=
      List.take_of_length_le (by rw [hlen]; omega)
    rw [hall] at hpassed
    refine ⟨hpassed, hdone, ?_⟩
    rw [hpassed, hlen]
    exact (Int.toNat_of_nonneg hnr).symm

/-- One byte is displayed. -/
theorem displays_iff_one : ∃ (q : TtyQueue) (c : Console),
    (userTtyWrite q c (fun _ => 65) 1).Displays (fun _ => 65) 1 := by
  obtain ⟨c⟩ : Nonempty Console := ⟨⟨fun _ => 0, 0, 0, 0, 0⟩⟩
  have hb : TtyQueue.Bounded ⟨fun _ => 0, 1023, 1023⟩ := ⟨by decide, by decide⟩
  exact ⟨_, c, (displays_iff _ hb (by decide) c (fun _ => 65) 1 (by decide)).2 (by decide)⟩

/-- Of 1024 bytes, the last one is lost, and `_user_tty_write` returns 1024. -/
theorem write_truncated : ∃ (q : TtyQueue) (c : Console), q.Bounded ∧ q.isEmpty ∧
    (userTtyWrite q c (fun _ => 65) 1024).result = 1024 ∧
      ¬(userTtyWrite q c (fun _ => 65) 1024).Displays (fun _ => 65) 1024 := by
  obtain ⟨c⟩ : Nonempty Console := ⟨⟨fun _ => 0, 0, 0, 0, 0⟩⟩
  have hb : TtyQueue.Bounded ⟨fun _ => 0, 0, 0⟩ := ⟨by decide, by decide⟩
  have hnil : TtyQueue.content ⟨fun _ => 0, 0, 0⟩ = [] := rfl
  refine ⟨_, c, hb, by decide, rfl, fun h => ?_⟩
  have hcount := congrArg List.length
    (userTtyWrite_spec hb hnil c (fun _ => 65) 1024).1
  rw [h.passed, List.length_take, List.length_map, List.length_range] at hcount
  exact absurd hcount (by decide)

end NeuOs
