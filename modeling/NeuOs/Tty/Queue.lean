import NeuOs.Lib.Ring
import NeuOs.Lib.Run
import NeuOs.Mm.Memory

/-!
# The queues of a terminal (kernel/chr_drv/tty_queue.c)

A `tty_queue` is a ring of characters. It is meant to be a queue with two ends, of at
most 1023 characters (`content`), in which a pop of the empty queue waits.

The wait ends when a signal is pending, and the pop then takes a character from the
empty queue: the head passes the tail. `refines_iff` says that the queue is the queue
with two ends exactly as long as this does not happen.
-/

namespace NeuOs

open Transition

abbrev TTY_BUF_SIZE : ℕ := 1024

/-- A `struct tty_queue`. (The processes that wait are those of the scheduler.) -/
structure TtyQueue where
  buf : ℕ → Byte
  head : Word
  tail : Word

namespace TtyQueue

/-- `tty_isempty_q` -/
def isEmpty (q : TtyQueue) : Bool := q.head == q.tail

/-- `tty_isfull_q` -/
def isFull (q : TtyQueue) : Bool := (q.tail + 1) % TTY_BUF_SIZE == q.head

/-- The condition of the loop of `sleep_if_empty`: the process goes on sleeping. -/
def sleepIfEmpty (q : TtyQueue) (signal : Word) : Bool := signal == 0 && q.isEmpty

/-- What `tty_pop_q` does after `sleep_if_empty`. -/
def take (q : TtyQueue) : Byte × TtyQueue :=
  (q.buf q.head.toNat, { q with head := (q.head + 1) % TTY_BUF_SIZE })

/-- `tty_pop_q`, unless the process sleeps; it calls it again when it is woken. -/
def pop (q : TtyQueue) (signal : Word) : Option (Byte × TtyQueue) :=
  if q.sleepIfEmpty signal then none else some q.take

/-- `tty_push_q`, with the return value. -/
def push (q : TtyQueue) (ch : Byte) : Int × TtyQueue :=
  if q.isFull then (-1, q)
  else (0, { q with
    buf := Function.update q.buf q.tail.toNat ch
    tail := (q.tail + 1) % TTY_BUF_SIZE })

/-- `tty_push_q_front`, with the return value. -/
def pushFront (q : TtyQueue) (ch : Byte) : Int × TtyQueue :=
  if q.isFull then (-1, q)
  else
    let head := (q.head - 1) % TTY_BUF_SIZE
    (0, { q with buf := Function.update q.buf head.toNat ch, head := head })

/-- The second statement of `tty_push_q_front`: the head moves. -/
def moveFront (q : TtyQueue) : TtyQueue := { q with head := (q.head - 1) % TTY_BUF_SIZE }

/-- The third statement of `tty_push_q_front`: the character is stored. -/
def storeFront (q : TtyQueue) (ch : Byte) : TtyQueue :=
  { q with buf := Function.update q.buf q.head.toNat ch }

/-! ## The content -/

/-- The indices are in the buffer. -/
structure Bounded (q : TtyQueue) : Prop where
  head : q.head.toNat < TTY_BUF_SIZE
  tail : q.tail.toNat < TTY_BUF_SIZE

/-- The characters in the queue. -/
def content (q : TtyQueue) : List Byte :=
  Ring.content TTY_BUF_SIZE q.buf q.head.toNat q.tail.toNat

variable {q : TtyQueue} {ch : Byte} {signal : Word}

theorem toNat_next {i : Word} (hi : i.toNat < TTY_BUF_SIZE) :
    ((i + 1) % TTY_BUF_SIZE).toNat = Ring.next TTY_BUF_SIZE i.toNat := by
  have h1 : (i + 1).toNat = i.toNat + 1 := by
    rw [BitVec.toNat_add]
    exact Nat.mod_eq_of_lt (by rw [TTY_BUF_SIZE] at hi; exact Nat.lt_of_le_of_lt hi (by decide))
  rw [BitVec.toNat_umod, h1]
  rfl

theorem toNat_prev {i : Word} (hi : i.toNat < TTY_BUF_SIZE) :
    ((i - 1) % TTY_BUF_SIZE).toNat = Ring.prev TTY_BUF_SIZE i.toNat := by
  have h1 : (1 : Word).toNat = 1 := rfl
  have h1024 : ((TTY_BUF_SIZE : Word)).toNat = 1024 := rfl
  have hi : i.toNat < 1024 := hi
  rw [BitVec.toNat_umod, BitVec.toNat_sub, h1, h1024, Ring.prev]
  change (2 ^ 32 - 1 + i.toNat) % 2 ^ 32 % 1024 = (i.toNat + 1024 - 1) % 1024
  omega

theorem isEmpty_iff (h : q.Bounded) : q.isEmpty ↔ q.content = [] := by
  rw [isEmpty, beq_iff_eq, content, Ring.content_eq_nil h.head, BitVec.toNat_inj]

theorem isFull_iff (h : q.Bounded) : q.isFull ↔ q.content.length = TTY_BUF_SIZE - 1 := by
  rw [isFull, beq_iff_eq, content, Ring.length_content, ← Ring.next_eq_head h.head h.tail,
    ← toNat_next h.tail, BitVec.toNat_inj]

theorem length_content_lt (h : q.Bounded) : q.content.length < TTY_BUF_SIZE := by
  rw [content, Ring.length_content]
  exact Ring.len_lt h.head h.tail

theorem Bounded.take (h : q.Bounded) : q.take.2.Bounded :=
  ⟨(toNat_next h.head).trans_lt (Ring.next_lt h.head), h.tail⟩

/-- The first character is taken. -/
theorem content_take (h : q.Bounded) (hne : q.content ≠ []) :
    q.content = q.take.1 :: q.take.2.content := by
  have hht : q.head.toNat ≠ q.tail.toNat := fun heq => hne ((Ring.content_eq_nil h.head).2 heq)
  rw [content, Ring.content_pop h.head h.tail hht, ← toNat_next h.head]
  rfl

theorem take_cons {l : List Byte} (h : q.Bounded) (hc : q.content = ch :: l) :
    q.take.1 = ch ∧ q.take.2.Bounded ∧ q.take.2.content = l := by
  have hne : q.content ≠ [] := hc ▸ List.cons_ne_nil ch l
  obtain ⟨hch, hl⟩ := List.cons.inj ((content_take h hne).symm.trans hc)
  exact ⟨hch, h.take, hl⟩

theorem Bounded.push (h : q.Bounded) : (q.push ch).2.Bounded := by
  rw [TtyQueue.push]
  split_ifs
  · exact h
  · exact ⟨h.head, (toNat_next h.tail).trans_lt (Ring.next_lt h.tail)⟩

theorem push_of_isFull (hfull : q.isFull) : q.push ch = (-1, q) := if_pos hfull

theorem next_ne (h : q.Bounded) (hfull : ¬q.isFull) :
    Ring.next TTY_BUF_SIZE q.tail.toNat ≠ q.head.toNat := fun heq =>
  hfull ((isFull_iff h).2 (Ring.length_content.trans ((Ring.next_eq_head h.head h.tail).1 heq)))

/-- A character is added at the end. -/
theorem push_spec (h : q.Bounded) (hfull : ¬q.isFull) :
    (q.push ch).1 = 0 ∧ (q.push ch).2.content = q.content ++ [ch] := by
  rw [TtyQueue.push, if_neg hfull]
  refine ⟨rfl, ?_⟩
  rw [content]
  dsimp only
  rw [toNat_next h.tail, Ring.content_push h.head h.tail (next_ne h hfull)]
  rfl

theorem Bounded.pushFront (h : q.Bounded) : (q.pushFront ch).2.Bounded := by
  rw [TtyQueue.pushFront]
  split_ifs
  · exact h
  · exact ⟨(toNat_prev h.head).trans_lt (Ring.prev_lt h.head), h.tail⟩

theorem pushFront_of_isFull (hfull : q.isFull) : q.pushFront ch = (-1, q) := if_pos hfull

/-- A character is added in front. -/
theorem pushFront_spec (h : q.Bounded) (hfull : ¬q.isFull) :
    (q.pushFront ch).1 = 0 ∧ (q.pushFront ch).2.content = ch :: q.content := by
  rw [TtyQueue.pushFront, if_neg hfull]
  refine ⟨rfl, ?_⟩
  rw [content]
  dsimp only
  rw [toNat_prev h.head, Ring.content_pushFront h.head h.tail (next_ne h hfull)]
  rfl

/-! ### The statements one by one -/

theorem pushFront_of_not_isFull (hfull : ¬q.isFull) :
    q.pushFront ch = (0, q.moveFront.storeFront ch) := if_neg hfull

theorem Bounded.moveFront (h : q.Bounded) : q.moveFront.Bounded :=
  ⟨(toNat_prev h.head).trans_lt (Ring.prev_lt h.head), h.tail⟩

theorem Bounded.storeFront (h : q.Bounded) : (q.storeFront ch).Bounded := ⟨h.head, h.tail⟩

/-- Moving the head adds what is in the cell before it. -/
theorem content_moveFront (h : q.Bounded) (hfull : ¬q.isFull) :
    q.moveFront.content = q.buf q.moveFront.head.toNat :: q.content := by
  have hspec := (@pushFront_spec q (q.buf q.moveFront.head.toNat) h hfull).2
  rw [pushFront_of_not_isFull hfull, storeFront] at hspec
  dsimp only at hspec
  rw [← hspec]
  exact congrArg content (congrArg (TtyQueue.mk · q.moveFront.head q.tail)
    (Function.update_eq_self _ _).symm)

/-- In the full ring, the head moves to the tail. -/
theorem content_moveFront_of_isFull (h : q.Bounded) (hfull : q.isFull) :
    q.moveFront.content = [] := by
  rw [content, Ring.content_eq_nil h.moveFront.head]
  have hhead : (q.moveFront.head).toNat = Ring.prev TTY_BUF_SIZE q.head.toNat := toNat_prev h.head
  have hnext : Ring.next TTY_BUF_SIZE q.tail.toNat = q.head.toNat := by
    rw [← toNat_next h.tail]
    exact congrArg BitVec.toNat (beq_iff_eq.1 hfull)
  rw [hhead, ← hnext]
  exact Ring.prev_next h.tail

/-- The store goes to the first cell. -/
theorem content_storeFront {l : List Byte} {c : Byte} (h : q.Bounded) (hc : q.content = c :: l) :
    (q.storeFront ch).content = ch :: l := by
  have hne : q.head.toNat ≠ q.tail.toNat := fun heq =>
    List.cons_ne_nil c l (hc.symm.trans ((Ring.content_eq_nil h.head).2 heq))
  have hlen := Ring.len_pop h.head h.tail hne
  rw [content, Ring.content_pop h.head h.tail hne] at hc
  obtain ⟨-, hl⟩ := List.cons.inj hc
  rw [content, storeFront]
  dsimp only
  rw [Ring.content_pop h.head h.tail hne, Function.update_self,
    Ring.content_update (Ring.next_lt h.head) h.tail, hl]
  intro m hm heq
  have hlt := Ring.len_lt h.head h.tail
  have hhead : q.head.toNat < TTY_BUF_SIZE := h.head
  rw [Ring.after_next h.head (by omega), Ring.after] at heq
  split_ifs at heq <;> omega

theorem content_storeFront_nil (h : q.Bounded) (hc : q.content = []) :
    (q.storeFront ch).content = [] :=
  (Ring.content_eq_nil h.head).2 ((Ring.content_eq_nil h.head).1 hc)

/-! ## Refinement -/

/-- The operations on a queue. A pop sees the pending signals of the process. -/
inductive Op
  | push (ch : Byte)
  | pushFront (ch : Byte)
  | pop (signal : Word)

/-- What an operation returns; a pop may have to wait. -/
inductive Result
  | code (n : Int)
  | char (ch : Byte)
  | waits
  deriving DecidableEq

/-- An operation on the ring. -/
def exec (q : TtyQueue) : Op → Result × TtyQueue
  | .push ch => (.code (q.push ch).1, (q.push ch).2)
  | .pushFront ch => (.code (q.pushFront ch).1, (q.pushFront ch).2)
  | .pop signal =>
    match q.pop signal with
    | none => (.waits, q)
    | some (ch, q) => (.char ch, q)

/-- An operation on a queue with two ends that holds at most 1023 characters. -/
def spec (l : List Byte) : Op → Result × List Byte
  | .push ch => if l.length = TTY_BUF_SIZE - 1 then (.code (-1), l) else (.code 0, l ++ [ch])
  | .pushFront ch => if l.length = TTY_BUF_SIZE - 1 then (.code (-1), l) else (.code 0, ch :: l)
  | .pop _ =>
    match l with
    | [] => (.waits, [])
    | ch :: l => (.char ch, l)

/-- A pop does not take a character from the empty queue. -/
def Guarded (q : TtyQueue) : Op → Prop
  | .pop signal => q.isEmpty → signal = 0
  | _ => True

/-- One operation does the same on the ring and on its content, unless it is a pop of the
    empty ring that does not wait. -/
theorem exec_spec (h : q.Bounded) (op : Op) (hop : q.Guarded op) :
    spec q.content op = ((q.exec op).1, (q.exec op).2.content) := by
  cases op with
  | push ch =>
    rw [spec, exec]
    by_cases hfull : q.isFull
    · rw [if_pos ((isFull_iff h).1 hfull), push_of_isFull hfull]
    · rw [if_neg fun hlen => hfull ((isFull_iff h).2 hlen), (push_spec h hfull).1,
        (push_spec h hfull).2]
  | pushFront ch =>
    rw [spec, exec]
    by_cases hfull : q.isFull
    · rw [if_pos ((isFull_iff h).1 hfull), pushFront_of_isFull hfull]
    · rw [if_neg fun hlen => hfull ((isFull_iff h).2 hlen), (pushFront_spec h hfull).1,
        (pushFront_spec h hfull).2]
  | pop signal =>
    rw [exec, pop, sleepIfEmpty]
    by_cases hnil : q.content = []
    · have hemp := (isEmpty_iff h).2 hnil
      rw [hop hemp, hemp, hnil]
      exact congrArg (Prod.mk _) hnil.symm
    · have hemp : ¬q.isEmpty := fun hemp => hnil ((isEmpty_iff h).1 hemp)
      rw [Bool.not_eq_true] at hemp
      rw [content_take h hnil, hemp, Bool.and_false]
      rfl

theorem Bounded.exec (h : q.Bounded) (op : Op) : (q.exec op).2.Bounded := by
  cases op with
  | push ch => exact h.push
  | pushFront ch => exact h.pushFront
  | pop signal =>
    rw [TtyQueue.exec, pop]
    split_ifs
    · exact h
    · exact h.take

/-- A ring and a queue with two ends, and what has been returned from them so far. -/
structure Pair where
  ring : TtyQueue
  deque : List Byte
  results : List (Result × Result)

/-- A step does an operation on both. -/
def Pair.Step (s : Pair) (op : Op) (s' : Pair) : Prop :=
  s' = ⟨(s.ring.exec op).2, (spec s.deque op).2,
    s.results ++ [((s.ring.exec op).1, (spec s.deque op).1)]⟩

/-- The ring holds the queue, and both have returned the same. -/
def Pair.Refines (s : Pair) : Prop :=
  s.ring.content = s.deque ∧ ∀ r ∈ s.results, r.1 = r.2

/-- The empty queue at the boot. -/
def init (buf : ℕ → Byte) : Pair := ⟨⟨buf, 0, 0⟩, [], []⟩

theorem Pair.refines_step {s s' : Pair} {op : Op} (hb : s.ring.Bounded) (h : s.Refines)
    (hst : s.Step op s') : s'.Refines ↔ s.ring.Guarded op := by
  obtain rfl := hst
  constructor
  · rintro ⟨-, hres⟩
    have hlast := hres _ (List.mem_append_right _ List.mem_cons_self)
    cases op with
    | push ch => trivial
    | pushFront ch => trivial
    | pop signal =>
      intro hemp
      by_contra hsig
      have hnil := (isEmpty_iff hb).1 hemp
      have hgo : s.ring.exec (.pop signal) = (.char s.ring.take.1, s.ring.take.2) := by
        rw [exec, pop, sleepIfEmpty, hemp, Bool.and_true, if_neg (by simpa using hsig)]
      rw [hgo, ← h.1, hnil] at hlast
      cases hlast
  · intro hop
    have hspec := exec_spec hb op hop
    rw [h.1] at hspec
    refine ⟨(congrArg Prod.snd hspec).symm, ?_⟩
    intro r hr
    rcases List.mem_append.1 hr with hr | hr
    · exact h.2 r hr
    · rw [List.mem_singleton.1 hr]
      exact (congrArg Prod.fst hspec).symm

/-- In every run from the empty queue, the indices stay in the buffer; and the ring is the
    queue with two ends, which holds at most 1023 characters, exactly as long as no pop
    takes a character from the empty ring because a signal is pending. -/
theorem refines_iff (buf : ℕ → Byte) (l : List (Op × Pair)) (h : Run Pair.Step (init buf) l) :
    (∀ x ∈ l, x.2.ring.Bounded) ∧
    ((∀ x ∈ l, x.2.Refines) ↔ Along (fun s op => s.ring.Guarded op) (init buf) l) := by
  have hzero : (0 : Word).toNat < TTY_BUF_SIZE := by decide
  have hinit : (init buf).ring.Bounded := ⟨hzero, hzero⟩
  have hinv : ∀ s op s', s.ring.Bounded → Pair.Step s op s' → s'.ring.Bounded := by
    rintro s op s' hb rfl
    exact hb.exec op
  refine ⟨h.invariant (J := fun s => s.ring.Bounded) hinit hinv,
    h.forall_iff_along (J := fun s => s.ring.Bounded) ?_ hinit hinv ?_⟩
  · exact ⟨(Ring.content_eq_nil hinit.head).2 rfl, fun r hr => absurd hr List.not_mem_nil⟩
  · exact fun s op s' hb hs hst => Pair.refines_step hb hs hst

/-- A character is typed, another one is put in front of it, and both are taken, the first of
    them with a signal pending; then the queue is empty. -/
theorem refines_iff_pop : ∃ l s, Run Pair.Step (init fun _ => 0) l ∧
    l.getLast? = some (.pop 0, s) ∧
    s.results.map Prod.fst = [.code 0, .code 0, .char 98, .char 97, .waits] ∧ s.Refines := by
  have hrun : Run Pair.Step (init fun _ => 0)
      [(.push 97, _), (.pushFront 98, _), (.pop 1, _), (.pop 0, _), (.pop 0, _)] :=
    .cons rfl (.cons rfl (.cons rfl (.cons rfl (.cons rfl (.nil _)))))
  have hrefines := (refines_iff _ _ hrun).2.2
    ⟨trivial, trivial, fun hemp => absurd hemp (by decide), fun _ => rfl, fun _ => rfl, trivial⟩
  exact ⟨_, _, hrun, rfl, by decide, hrefines _ (List.mem_of_getLast? rfl)⟩

/-- With a signal pending, a pop takes a character from the empty queue, which then seems
    to hold 1023 characters. -/
theorem pop_empty : ∃ l, Run Pair.Step (init fun _ => 0) l ∧ ∃ x ∈ l, ¬x.2.Refines := by
  refine ⟨[(.pop 1, _)], .cons rfl (.nil _), _, List.mem_cons_self, fun h => ?_⟩
  have hres := h.2 _ List.mem_cons_self
  exact absurd hres (by decide)

end TtyQueue

end NeuOs
