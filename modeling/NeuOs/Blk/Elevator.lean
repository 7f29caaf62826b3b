import Mathlib.Data.Fintype.Card
import Mathlib.Data.Prod.Lex
import Mathlib.Order.Lex
import NeuOs.Lib.Run
import NeuOs.Lib.Scan

/-!
# The request queue of a block device (kernel/blk_drv/request_scan_algo.c)

The requests of a device are linked by their `next` pointers. `addRequest` inserts a
request at a place that it finds with the test `IN_ORDER`, which is meant to be the
lexicographic order of command, device and sector. In the macro, the comparison of the
sectors does not ask for equal commands.

Inserting never loses or reorders requests (`Inserts`); the queue stays in SCAN order
exactly as long as the new requests fit (`Fits`) at the places that `IN_ORDER` finds.
-/

namespace NeuOs

open Scan Transition

abbrev NR_REQUEST : ℕ := 32
abbrev NR_BLK_DEV : ℕ := 7

/-- A pointer to an entry of `req_tbl`. -/
abbrev ReqPtr := Fin NR_REQUEST

/-- A `struct request`, as far as `add_request` uses it. -/
structure Request where
  dev : ℤ
  cmd : ℤ
  sector : ℕ
  /-- The buffer of the request, by the number of its `buffer_head`. -/
  bh : Option ℕ
  next : Option ReqPtr
  deriving DecidableEq

namespace Request

/-- The macro `IN_ORDER`. -/
def inOrder (s₁ s₂ : Request) : Bool :=
  s₁.cmd < s₂.cmd || ((s₁.cmd = s₂.cmd && s₁.dev < s₂.dev) ||
    (s₁.dev = s₂.dev && s₁.sector < s₂.sector))

/-- What requests are ordered by. -/
def key (s : Request) : ℤ ×ₗ ℤ ×ₗ ℕ := toLex (s.cmd, toLex (s.dev, s.sector))

variable {s₁ s₂ : Request}

theorem key_lt_iff : s₁.key < s₂.key ↔ s₁.cmd < s₂.cmd ∨ (s₁.cmd = s₂.cmd ∧
    (s₁.dev < s₂.dev ∨ (s₁.dev = s₂.dev ∧ s₁.sector < s₂.sector))) := by
  rw [key, key, Prod.Lex.toLex_lt_toLex, Prod.Lex.toLex_lt_toLex]

theorem inOrder_congr {t₁ t₂ : Request} (h₁ : s₁.key = t₁.key) (h₂ : s₂.key = t₂.key) :
    s₁.inOrder s₂ = t₁.inOrder t₂ := by
  obtain ⟨hcmd₁, hrest₁⟩ := Prod.mk.inj (congrArg ofLex h₁)
  obtain ⟨hcmd₂, hrest₂⟩ := Prod.mk.inj (congrArg ofLex h₂)
  obtain ⟨hdev₁, hsector₁⟩ := Prod.mk.inj (congrArg ofLex hrest₁)
  obtain ⟨hdev₂, hsector₂⟩ := Prod.mk.inj (congrArg ofLex hrest₂)
  rw [inOrder, inOrder, hcmd₁, hcmd₂, hdev₁, hdev₂, hsector₁, hsector₂]

/-- The macro is the order, unless the two requests are for the same device, the one with
    the larger command first and at the smaller sector. -/
theorem inOrder_iff (h : ¬(s₁.dev = s₂.dev ∧ s₂.cmd < s₁.cmd ∧ s₁.sector < s₂.sector)) :
    s₁.inOrder s₂ ↔ s₁.key < s₂.key := by
  rw [key_lt_iff]
  simp only [inOrder, Bool.or_eq_true, Bool.and_eq_true, decide_eq_true_eq]
  omega

end Request

/-- The requests, the first request of every device, and the dirty bits of the buffers. -/
structure Blk where
  req : ReqPtr → Request
  current : Fin NR_BLK_DEV → Option ReqPtr
  dirt : ℕ → BitVec 8

namespace Blk

/-- `IN_ORDER` of two pointers. -/
abbrev inOrder (s : Blk) (i j : ReqPtr) : Bool := (s.req i).inOrder (s.req j)

/-- Set the `next` pointer of a request. -/
def setNext (s : Blk) (i : ReqPtr) (p : Option ReqPtr) : Blk :=
  { s with req := Function.update s.req i { s.req i with next := p } }

/-- Set the dirty bit of a buffer, if there is one. -/
def setDirt (s : Blk) : Option ℕ → BitVec 8 → Blk
  | none, _ => s
  | some bh, v => { s with dirt := Function.update s.dirt bh v }

/-- The loop of `add_request`: the request to insert `r` after. -/
def findPlace (s : Blk) (r : ReqPtr) : ℕ → ReqPtr → Option ReqPtr
  | 0, _ => none
  | fuel + 1, tmp =>
    match (s.req tmp).next with
    | none => some tmp
    | some next =>
      if (s.inOrder tmp r || !s.inOrder tmp next) && s.inOrder r next then some tmp
      else findPlace s r fuel next

/-- `add_request`. The functions `requestFn` of the devices, which serve the requests, are
    those of the drivers. -/
def addRequest (requestFn : Fin NR_BLK_DEV → Blk → Blk) (s : Blk) (dev : Fin NR_BLK_DEV)
    (r : ReqPtr) (fuel : ℕ) : Option Blk :=
  let s := s.setNext r none
  let s := s.setDirt (s.req r).bh 0
  match s.current dev with
  | none => some (requestFn dev { s with current := Function.update s.current dev (some r) })
  | some tmp => (s.findPlace r fuel tmp).map fun tmp =>
    (s.setNext r (s.req tmp).next).setNext tmp (some r)

/-! ## The queue of a device -/

variable {s s' : Blk} {dev : Fin NR_BLK_DEV} {r : ReqPtr} {l : List ReqPtr}

/-- The keys of the requests. -/
abbrev key (s : Blk) (i : ReqPtr) : ℤ ×ₗ ℤ ×ₗ ℕ := (s.req i).key

/-- The queue of a device. -/
def Queue (s : Blk) (dev : Fin NR_BLK_DEV) (l : List ReqPtr) : Prop :=
  Linked (fun i => (s.req i).next) (s.current dev) l

/-! ## Adding a request -/

theorem req_setNext (i : ReqPtr) (p : Option ReqPtr) :
    (s.setNext i p).req = Function.update s.req i { s.req i with next := p } := rfl

/-- Setting a pointer keeps the other fields of all requests. -/
theorem setNext_fields {α : Type} {f : Request → α} (hf : ∀ q p, f { q with next := p } = f q)
    (i : ReqPtr) (p : Option ReqPtr) (j : ReqPtr) : f ((s.setNext i p).req j) = f (s.req j) := by
  rw [req_setNext]
  by_cases hj : j = i
  · rw [hj, Function.update_self, hf]
  · rw [Function.update_of_ne hj]

theorem setNext_key (i : ReqPtr) (p : Option ReqPtr) : (s.setNext i p).key = s.key :=
  funext fun j => setNext_fields (f := Request.key) (fun _ _ => rfl) i p j

theorem setNext_inOrder (i : ReqPtr) (p : Option ReqPtr) : (s.setNext i p).inOrder = s.inOrder := by
  funext j j'
  rw [inOrder, Request.inOrder, setNext_fields (f := Request.cmd) fun _ _ => rfl,
    setNext_fields (f := Request.cmd) fun _ _ => rfl,
    setNext_fields (f := Request.dev) fun _ _ => rfl,
    setNext_fields (f := Request.dev) fun _ _ => rfl,
    setNext_fields (f := Request.sector) fun _ _ => rfl,
    setNext_fields (f := Request.sector) fun _ _ => rfl]
  rfl

theorem next_setNext (i : ReqPtr) (p : Option ReqPtr) :
    (fun j => ((s.setNext i p).req j).next) = Function.update (fun j => (s.req j).next) i p := by
  funext j
  rw [req_setNext]
  by_cases hj : j = i
  · rw [hj, Function.update_self, Function.update_self]
  · rw [Function.update_of_ne hj, Function.update_of_ne hj]

theorem setDirt_req (p : Option ℕ) (v : BitVec 8) : (s.setDirt p v).req = s.req := by
  cases p <;> rfl

theorem setDirt_current (p : Option ℕ) (v : BitVec 8) :
    (s.setDirt p v).current = s.current := by
  cases p <;> rfl

/-- The loop finds the place of `scanInsert`, in as many rounds as there are requests. -/
theorem findPlace_spec {a : ReqPtr} (h : Linked (fun i => (s.req i).next) (some a) (a :: l))
    {fuel : ℕ} (hfuel : l.length < fuel) : ∃ l₁ tmp l₂, a :: l = l₁ ++ tmp :: l₂ ∧
      s.findPlace r fuel a = some tmp ∧
        scanInsert (s.inOrder · ·) r (a :: l) = l₁ ++ tmp :: r :: l₂ := by
  induction fuel generalizing a l with
  | zero => omega
  | succ fuel ih =>
    cases h with
    | cons h =>
      cases l with
      | nil =>
        refine ⟨[], a, [], rfl, ?_, rfl⟩
        rw [findPlace]
        generalize (s.req a).next = p at h
        cases h
        rfl
      | cons b l =>
        have hb : (s.req a).next = some b := by
          generalize (s.req a).next = p at h
          cases h
          rfl
        rw [hb] at h
        simp only [findPlace, hb, scanInsert]
        -- the test of the loop, as `Between` has it
        have htest : ((s.inOrder a r || !s.inOrder a b) && s.inOrder r b) ↔
            Between (s.inOrder · ·) r a b := by
          simp [Between]
        by_cases hbt : Between (s.inOrder · ·) r a b
        · rw [if_pos hbt, if_pos (htest.2 hbt)]
          exact ⟨[], a, b :: l, rfl, rfl, rfl⟩
        · rw [if_neg hbt, if_neg fun h => hbt (htest.1 h)]
          obtain ⟨l₁, tmp, l₂, hl, hfind, hins⟩ := ih h (Nat.lt_of_succ_lt_succ hfuel)
          exact ⟨a :: l₁, tmp, l₂, by rw [hl]; rfl, hfind, by rw [hins]; rfl⟩

/-- Adding a request to a queue that is not empty inserts it there. -/
theorem addRequest_spec (requestFn : Fin NR_BLK_DEV → Blk → Blk) (h : s.Queue dev l) (hne : l ≠ [])
    (hnd : l.Nodup) (hr : r ∉ l) {fuel : ℕ} (hfuel : l.length ≤ fuel) :
    ∃ s', s.addRequest requestFn dev r fuel = some s' ∧ s'.key = s.key ∧
      s'.Queue dev (scanInsert (s.inOrder · ·) r l) := by
  obtain ⟨a, l, rfl⟩ := List.exists_cons_of_ne_nil hne
  obtain ⟨s₁, hs₁⟩ : ∃ s₁, s₁ = (s.setNext r none).setDirt ((s.setNext r none).req r).bh 0 :=
    ⟨_, rfl⟩
  have hreq : s₁.req = (s.setNext r none).req := by rw [hs₁, setDirt_req]
  have hcur : s₁.current = s.current := by rw [hs₁, setDirt_current]; rfl
  have ha : s.current dev = some a := by
    rw [Queue] at h
    generalize s.current dev = p at h
    cases h
    rfl
  have hkey : s₁.key = s.key := by
    have heq : s₁.key = (s.setNext r none).key := by funext j; rw [key, hreq]
    rw [heq, setNext_key]
  have hio : s₁.inOrder = s.inOrder := by
    have heq : s₁.inOrder = (s.setNext r none).inOrder := by funext j j'; rw [inOrder, hreq]
    rw [heq, setNext_inOrder]
  -- the links of the queue stay, as the new request is not in it
  have hlink : Linked (fun i => (s₁.req i).next) (some a) (a :: l) := by
    rw [hreq, next_setNext, ← ha]
    refine h.congr fun b hb => Function.update_of_ne ?_ _ _
    rintro rfl
    exact hr hb
  obtain ⟨l₁, tmp, l₂, hl, hfind, hins⟩ := findPlace_spec (r := r) hlink
    (Nat.lt_of_succ_le hfuel)
  refine ⟨(s₁.setNext r (s₁.req tmp).next).setNext tmp (some r), ?_, ?_, ?_⟩
  · rw [addRequest, ← hs₁]
    rw [hcur, ha]
    exact congrArg (Option.map _) hfind
  · rw [setNext_key, setNext_key, hkey]
  · rw [hio] at hins
    rw [hins, Queue, next_setNext, next_setNext]
    have hcur' : ((s₁.setNext r (s₁.req tmp).next).setNext tmp (some r)).current dev = some a :=
      (congrFun hcur dev).trans ha
    rw [hcur']
    rw [hl] at hlink hnd hr
    exact hlink.insert hnd hr

/-! ## Runs -/

variable {requestFn : Fin NR_BLK_DEV → Blk → Blk}

/-- A device has a queue of requests with different keys, which is not empty. -/
def Ready (s : Blk) (dev : Fin NR_BLK_DEV) : Prop :=
  ∃ l, s.Queue dev l ∧ l ≠ [] ∧ (l.map s.key).Nodup

/-- A request to add: an entry of the table, and what it is filled with. -/
abbrev Adds := ReqPtr × Request

/-- The entry is filled. -/
def fill (s : Blk) (a : Adds) : Blk := { s with req := Function.update s.req a.1 a.2 }

/-- The entry is not in the queue yet, nor is a request with its key. -/
def Fresh (s : Blk) (dev : Fin NR_BLK_DEV) (a : Adds) : Prop :=
  ∀ l, s.Queue dev l → a.1 ∉ l ∧ a.2.key ∉ l.map s.key

/-- A step fills an entry, and adds it to the queue. The loop visits each of the entries at
    most once. -/
def Step (requestFn : Fin NR_BLK_DEV → Blk → Blk) (dev : Fin NR_BLK_DEV) (s : Blk) (a : Adds)
    (s' : Blk) : Prop :=
  s.Fresh dev a ∧ (s.fill a).addRequest requestFn dev a.1 NR_REQUEST = some s'

/-- The head of the queue stays, and all requests stay, in the order in which they were;
    the new request is one of them. -/
def Inserts (dev : Fin NR_BLK_DEV) (s : Blk) (a : Adds) (s' : Blk) : Prop :=
  ∀ l, s.Queue dev l → (∀ i ∈ l, s'.key i = s.key i) ∧ s'.key a.1 = a.2.key ∧
    ∃ i l₁ l₂, l = i :: l₁ ++ l₂ ∧ s'.Queue dev (i :: l₁ ++ a.1 :: l₂)

/-- The queue is in SCAN order. -/
def Scanned (s : Blk) (dev : Fin NR_BLK_DEV) : Prop := ∀ l, s.Queue dev l → descents s.key l ≤ 1

/-- The queue is one ascending run, or a new request fits between its neighbours at the
    first place where `IN_ORDER` puts it. -/
def Placed (dev : Fin NR_BLK_DEV) (s : Blk) (a : Adds) : Prop :=
  ∀ l, s.Queue dev l → descents s.key l = 0 ∨
    Fits (s.fill a).key ((s.fill a).inOrder · ·) a.1 l

/-- Among a new request and the queued ones, no two are for the same device with the larger
    command at the smaller sector. -/
def Agrees (dev : Fin NR_BLK_DEV) (s : Blk) (a : Adds) : Prop :=
  ∀ l, s.Queue dev l → ∀ i ∈ a.1 :: l, ∀ j ∈ a.1 :: l,
    ¬(((s.fill a).req i).dev = ((s.fill a).req j).dev ∧
      ((s.fill a).req j).cmd < ((s.fill a).req i).cmd ∧
      ((s.fill a).req i).sector < ((s.fill a).req j).sector)

variable {a : Adds}

theorem fill_key_self : (s.fill a).key a.1 = a.2.key :=
  congrArg Request.key (Function.update_self _ _ _)

/-- Filling an entry keeps the requests of a queue without it. -/
theorem fill_key (ha : a.1 ∉ l) : ∀ i ∈ l, (s.fill a).key i = s.key i := by
  rintro i hi
  refine congrArg Request.key (Function.update_of_ne ?_ _ _)
  rintro rfl
  exact ha hi

theorem Queue.fill (h : s.Queue dev l) (ha : a.1 ∉ l) : (s.fill a).Queue dev l := by
  refine h.congr fun i hi => congrArg Request.next (Function.update_of_ne ?_ _ _)
  rintro rfl
  exact ha hi

/-- What a step does. -/
theorem exists_step (requestFn : Fin NR_BLK_DEV → Blk → Blk) (hs : s.Ready dev)
    (ha : s.Fresh dev a) :
    ∃ s', Step requestFn dev s a s' ∧ s'.key = (s.fill a).key ∧ ∀ l, s.Queue dev l →
      s'.Queue dev (scanInsert ((s.fill a).inOrder · ·) a.1 l) := by
  obtain ⟨l, hl, hne, hnd⟩ := hs
  obtain ⟨hal, -⟩ := ha l hl
  have hnd' : l.Nodup := .of_map _ hnd
  have hlen : l.length ≤ NR_REQUEST :=
    List.Nodup.length_le_card hnd' |>.trans_eq (Fintype.card_fin _)
  obtain ⟨s', hs', hkey, hq⟩ := addRequest_spec requestFn (hl.fill hal) hne hnd' hal hlen
  exact ⟨s', ⟨ha, hs'⟩, hkey, fun l' hl' => hl.unique hl' ▸ hq⟩

theorem Step.spec (hs : s.Ready dev) (h : Step requestFn dev s a s') :
    s'.key = (s.fill a).key ∧ ∀ l, s.Queue dev l →
      s'.Queue dev (scanInsert ((s.fill a).inOrder · ·) a.1 l) := by
  obtain ⟨s'', hst, hspec⟩ := exists_step requestFn hs h.1
  obtain rfl : s'' = s' := Option.some.inj (hst.2.symm.trans h.2)
  exact hspec

theorem Step.inserts (hs : s.Ready dev) (h : Step requestFn dev s a s') : Inserts dev s a s' := by
  intro l hl
  obtain ⟨hkey, hq⟩ := h.spec hs
  obtain ⟨l', hl', hne, -⟩ := hs
  obtain rfl := hl.unique hl'
  obtain ⟨i, l, rfl⟩ := List.exists_cons_of_ne_nil hne
  obtain ⟨l₁, l₂, heq, hins⟩ := exists_scanInsert (R := ((s.fill a).inOrder · ·)) (r := a.1) i l
  rw [hkey]
  exact ⟨fill_key (h.1 _ hl).1, fill_key_self, i, l₁, l₂, heq, hins ▸ hq _ hl⟩

theorem Step.ready (hs : s.Ready dev) (h : Step requestFn dev s a s') : s'.Ready dev := by
  obtain ⟨l, hl, hne, hnd⟩ := id hs
  obtain ⟨hkey, hself, i, l₁, l₂, rfl, hq⟩ := h.inserts hs l hl
  refine ⟨_, hq, List.cons_ne_nil _ _, ?_⟩
  have hfresh := (h.1 _ hl).2
  have hperm : (i :: l₁ ++ a.1 :: l₂).Perm (a.1 :: (i :: l₁ ++ l₂)) := List.perm_middle
  rw [(hperm.map _).nodup_iff, List.map_cons, hself, List.map_congr_left hkey]
  exact List.nodup_cons.2 ⟨hfresh, hnd⟩

/-- A step keeps the SCAN order exactly if the new request is placed. -/
theorem Step.scanned_iff (hs : s.Ready dev) (h : Step requestFn dev s a s')
    (hscan : s.Scanned dev) : s'.Scanned dev ↔ Placed dev s a := by
  obtain ⟨l, hl, hne, hnd⟩ := id hs
  obtain ⟨hkey, hq⟩ := h.spec hs
  have hfill := descents_congr (fill_key (s := s) (h.1 l hl).1)
  have hiff := descents_scanInsert_le_iff (R := ((s.fill a).inOrder · ·)) (r := a.1)
    (hfill.trans_le (hscan l hl))
  rw [hfill] at hiff
  constructor
  · intro hs' l' hl'
    obtain rfl := hl.unique hl'
    exact hiff.1 (hkey ▸ hs' _ (hq l hl))
  · intro hp l' hl'
    obtain rfl := (hq l hl).unique hl'
    rw [hkey]
    exact hiff.2 (hp l hl)

/-- `IN_ORDER` is the order on the requests, where no two are for the same device with the
    larger command at the smaller sector. -/
theorem placed_of_agrees (ha : s.Fresh dev a) (hscan : s.Scanned dev) (h : Agrees dev s a) :
    Placed dev s a := by
  intro l hl
  obtain ⟨hal, hkey⟩ := ha l hl
  have hfill := fill_key (s := s) hal
  rw [← descents_congr hfill]
  refine fits_of_agrees ((descents_congr hfill).trans_le (hscan l hl)) ?_
    fun i hi j hj => Request.inOrder_iff (h l hl i hi j hj)
  intro i hi heq
  rw [hfill i hi, fill_key_self] at heq
  exact hkey (heq ▸ List.mem_map_of_mem hi)

/-- From a queue that is not empty, adding requests never moves the head, nor loses or
    reorders requests. In a run, the queue stays in SCAN order exactly as long as the new
    requests are placed; and they are, as long as they agree with the queued ones. -/
theorem elevator_iff (requestFn : Fin NR_BLK_DEV → Blk → Blk) (dev : Fin NR_BLK_DEV) (s : Blk)
    (hs : s.Ready dev) :
    (∀ a, s.Fresh dev a → ∃ s', Step requestFn dev s a s' ∧ s'.Ready dev ∧ Inserts dev s a s') ∧
    (s.Scanned dev → ∀ l, Run (Step requestFn dev) s l →
      ((∀ x ∈ l, x.2.Scanned dev) ↔ Along (Placed dev) s l) ∧
      (Along (Agrees dev) s l → ∀ x ∈ l, x.2.Scanned dev)) := by
  constructor
  · intro a ha
    obtain ⟨s', hst, -⟩ := exists_step requestFn hs ha
    exact ⟨s', hst, hst.ready hs, hst.inserts hs⟩
  · intro hscan l hrun
    refine ⟨hrun.forall_iff_along (J := fun s => s.Ready dev) hscan hs
      (fun _ _ _ hs hst => hst.ready hs) fun _ _ _ hs hscan hst => hst.scanned_iff hs hscan, ?_⟩
    intro hagrees x hx
    refine (hrun.forall_of_along (P := fun s => s.Ready dev ∧ s.Scanned dev) ⟨hs, hscan⟩ ?_
      hagrees x hx).2
    rintro s a s' ⟨hs, hscan⟩ ha hst
    exact ⟨hst.ready hs, (hst.scanned_iff hs hscan).2 (placed_of_agrees hst.1 hscan ha)⟩

/-- A request to read or to write at a sector of the first hard disk. -/
def request (cmd : ℤ) (sector : ℕ) : Request := ⟨0x301, cmd, sector, none, none⟩

/-- The queue of a device with a single request. -/
def single : Blk := ⟨fun _ => request 1 18, fun _ => some 0, fun _ => 0⟩

theorem queue_single (dev : Fin NR_BLK_DEV) : single.Queue dev [0] := .cons .nil

theorem ready_single (dev : Fin NR_BLK_DEV) : single.Ready dev :=
  ⟨[0], queue_single dev, by simp, by simp⟩

theorem scanned_single (dev : Fin NR_BLK_DEV) : single.Scanned dev := by
  intro l hl
  obtain rfl := hl.unique (queue_single dev)
  exact Nat.zero_le _

/-- A read of the sector 4 is added. -/
theorem exists_pair : ∃ s, Step (fun _ s => s) 3 single (1, request 0 4) s ∧ s.Ready 3 ∧
    s.key 0 = (request 1 18).key ∧ s.key 1 = (request 0 4).key ∧ s.Queue 3 [0, 1] := by
  have hfresh : single.Fresh 3 (1, request 0 4) := by
    intro l hl
    obtain rfl := hl.unique (queue_single 3)
    decide
  obtain ⟨s, hst, hkey, hq⟩ := exists_step (fun _ s => s) (ready_single 3) hfresh
  exact ⟨s, hst, hst.ready (ready_single 3), congrFun hkey 0, congrFun hkey 1,
    hq _ (queue_single 3)⟩

/-- A read of the sector 2 gets before that of the sector 4. -/
theorem elevator_iff_reads : ∃ s₁ s₂, Run (Step (fun _ s => s) 3) single
    [((1, request 0 4), s₁), ((2, request 0 2), s₂)] ∧ s₂.Queue 3 [0, 2, 1] ∧ s₂.Scanned 3 := by
  obtain ⟨s₁, hst₁, hs₁, h₀, h₁, hq₁⟩ := exists_pair
  have hfresh : s₁.Fresh 3 (2, request 0 2) := by
    intro l hl
    obtain rfl := hl.unique hq₁
    rw [List.map_cons, List.map_cons, List.map_nil, h₀, h₁]
    decide
  obtain ⟨s₂, hst₂, -, hq₂⟩ := exists_step (fun _ s => s) hs₁ hfresh
  have h₀ : (s₁.fill (2, request 0 2)).key 0 = (request 1 18).key := h₀
  have h₁ : (s₁.fill (2, request 0 2)).key 1 = (request 0 4).key := h₁
  have h₂ : (s₁.fill (2, request 0 2)).key 2 = (request 0 2).key := rfl
  have hbetween : Between ((s₁.fill (2, request 0 2)).inOrder · ·) 2 0 1 := by
    refine ⟨Or.inr ?_, (Request.inOrder_congr h₂ h₁).trans (by decide)⟩
    exact Bool.not_eq_true _ ▸ (Request.inOrder_congr h₀ h₁).trans (by decide)
  have hrun := Run.cons hst₁ (.cons hst₂ (.nil _))
  refine ⟨s₁, s₂, hrun, (if_pos hbetween).subst (hq₂ _ hq₁), ?_⟩
  refine ((elevator_iff _ 3 single (ready_single 3)).2 (scanned_single 3) _ hrun).1.2
    ⟨fun l hl => ?_, fun l hl => ?_, trivial⟩ _ (List.mem_cons_of_mem _ List.mem_cons_self)
  · obtain rfl := hl.unique (queue_single 3)
    exact .inl rfl
  · obtain rfl := hl.unique hq₁
    rw [Fits, if_pos hbetween, h₀, h₁, h₂]
    exact .inr (by decide)

/-- A read of the sector 4 and a write of the sector 2, added to a queue with a write of
    the sector 18: the write of the sector 2 gets between the two others. -/
theorem mixed_not_scanned : ∃ s : Blk, s.Ready 3 ∧ s.Scanned 3 ∧
    ∃ l, Run (Step (fun _ s => s) 3) s l ∧ ∃ x ∈ l, ¬x.2.Scanned 3 := by
  obtain ⟨s₁, hst₁, hs₁, h₀, h₁, hq₁⟩ := exists_pair
  have hfresh : s₁.Fresh 3 (2, request 1 2) := by
    intro l hl
    obtain rfl := hl.unique hq₁
    rw [List.map_cons, List.map_cons, List.map_nil, h₀, h₁]
    decide
  obtain ⟨s₂, hst₂, hkey₂, hq₂⟩ := exists_step (fun _ s => s) hs₁ hfresh
  have h₀ : (s₁.fill (2, request 1 2)).key 0 = (request 1 18).key := h₀
  have h₁ : (s₁.fill (2, request 1 2)).key 1 = (request 0 4).key := h₁
  have h₂ : (s₁.fill (2, request 1 2)).key 2 = (request 1 2).key := rfl
  have hq₂ : s₂.Queue 3 [0, 2, 1] := by
    refine (if_pos ?_).subst (hq₂ _ hq₁)
    refine ⟨Or.inr ?_, ?_⟩
    · exact Bool.not_eq_true _ ▸ (Request.inOrder_congr h₀ h₁).trans (by decide)
    · exact (Request.inOrder_congr h₂ h₁).trans (by decide)
  refine ⟨single, ready_single 3, scanned_single 3, _, .cons hst₁ (.cons hst₂ (.nil _)),
    _, List.mem_cons_of_mem _ List.mem_cons_self, fun hscan => ?_⟩
  have hle := hscan _ hq₂
  rw [hkey₂] at hle
  simp only [descents, h₀, h₁, h₂] at hle
  exact absurd hle (by decide)

end Blk

end NeuOs
