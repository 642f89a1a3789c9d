import Vpp.Lib.Cyclic
import Vpp.Lib.Run

/-!
# Message queues

The operations of `svm/message_queue.c`: a cyclic queue of descriptors and, beside it, rings of
message elements. A producer allocates an element of a ring, fills it and adds its descriptor to the
queue; the consumer takes descriptors off the queue, one by one or in batches, and frees the
elements. Every operation is one step here, on a queue and rings that are apart from each other. Signals
to the other side do not change the queue and are left out, and so is the contents of the elements.
-/

namespace Vpp.Svm

open Vpp.Lib Nat
open List hiding after
open BitVec (eq_of_toNat_eq le_def lt_def ofNat_toNat toNat_ofNat toNat_pos_of_ne_zero toNat_sub_of_le
  toNat_umod)

/-- `svm_msg_q_msg_t`: the descriptor of a message. -/
structure Msg where
  ringIndex : BitVec 32
  eltIndex : BitVec 32
deriving DecidableEq, Repr

/-- `svm_msg_q_shared_queue_t`. -/
structure SharedQueue where
  head : BitVec 32
  tail : BitVec 32
  cursize : BitVec 32
  maxsize : BitVec 32
  data : Nat → Msg

/-- `svm_msg_q_ring_shared_t`. -/
structure Ring where
  cursize : BitVec 32
  nitems : BitVec 32
  head : BitVec 32
  tail : BitVec 32
deriving DecidableEq, Repr

/-- The lock of the queue: a producer keeps it from the allocation of a message to `svm_msg_q_add_and_unlock`,
and a failed `svm_msg_q_add` never gives it back. -/
inductive Lock
  | unlocked
  | allocated
  | lost
deriving DecidableEq, Repr

/-- `svm_msg_q_t`. -/
structure MsgQ where
  q : SharedQueue
  rings : List Ring
  lock : Lock

/-- A new queue, whose places hold `data`. -/
def newQueue (qNitems : BitVec 32) (nitems : List (BitVec 32)) (data : Nat → Msg) : MsgQ :=
  ⟨⟨0#32, 0#32, 0#32, qNitems, data⟩, nitems.map fun n => ⟨0#32, n, 0#32, 0#32⟩, .unlocked⟩

/-- What a call did: `waits` for one that blocks and has not happened yet, `fault` for a ring that
does not exist. -/
inductive Event
  | allocated (msg : Msg)
  | enqueued (msg : Msg)
  | dequeued (msgs : List Msg)
  | freed (msg : Msg)
  | failed (rv : Int)
  | waits
  | fault
deriving DecidableEq, Repr

/-! ## Producers -/

def SharedQueue.isFull (q : SharedQueue) : Bool := q.cursize == q.maxsize

def Ring.isFull (r : Ring) : Bool := decide (r.cursize ≥ r.nitems)

def Ring.alloc (r : Ring) : Ring :=
  { r with tail := (r.tail + 1#32) % r.nitems, cursize := r.cursize + 1#32 }

def svmMsgQAllocMsgWRing (mq : MsgQ) (ringIndex : BitVec 32) : MsgQ × Event :=
  match mq.rings[ringIndex.toNat]? with
  | none => (mq, .fault)
  | some r =>
    ({ mq with rings := mq.rings.set ringIndex.toNat r.alloc }, .allocated ⟨ringIndex, r.tail⟩)

def svmMsgQLockAndAllocMsgWRing (mq : MsgQ) (ringIndex : BitVec 32) (noblock : Bool) : MsgQ × Event :=
  match mq.rings[ringIndex.toNat]? with
  | none => (mq, .fault)
  | some r =>
    if mq.lock ≠ .unlocked then (mq, if noblock then .failed (-1) else .waits)
    else if mq.q.isFull || r.isFull then (mq, if noblock then .failed (-2) else .waits)
    else svmMsgQAllocMsgWRing { mq with lock := .allocated } ringIndex

def svmMsgQAddRaw (q : SharedQueue) (msg : Msg) : SharedQueue :=
  { q with
    data := Function.update q.data q.tail.toNat msg
    tail := (q.tail + 1#32) % q.maxsize
    cursize := q.cursize + 1#32 }

def svmMsgQAdd (mq : MsgQ) (msg : Msg) (nowait : Bool) : MsgQ × Event :=
  if mq.lock ≠ .unlocked then (mq, if nowait then .failed (-1) else .waits)
  else if mq.q.isFull then
    -- the error return keeps the lock
    if nowait then ({ mq with lock := .lost }, .failed (-2)) else (mq, .waits)
  else ({ mq with q := svmMsgQAddRaw mq.q msg }, .enqueued msg)

def svmMsgQAddAndUnlock (mq : MsgQ) (msg : Msg) : MsgQ × Event :=
  ({ mq with q := svmMsgQAddRaw mq.q msg, lock := .unlocked }, .enqueued msg)

/-! ## The consumer -/

def svmMsgQSubRaw (q : SharedQueue) : SharedQueue × Msg :=
  ({ q with head := (q.head + 1#32) % q.maxsize, cursize := q.cursize - 1#32 }, q.data q.head.toNat)

/-- `n` descriptors copied from place `i` of the queue on. -/
def SharedQueue.copy (q : SharedQueue) (i n : Nat) : List Msg := (List.range' i n).map q.data

def svmMsgQSubRawBatch (q : SharedQueue) (nMsgs : BitVec 32) : SharedQueue × List Msg :=
  let toDeq := if q.cursize < nMsgs then q.cursize else nMsgs
  if q.head + toDeq < q.maxsize then
    ({ q with head := q.head + toDeq, cursize := q.cursize - toDeq },
      q.copy q.head.toNat toDeq.toNat)
  else
    let firstBatch := q.maxsize - q.head
    ({ q with head := (q.head + toDeq) % q.maxsize, cursize := q.cursize - toDeq },
      q.copy q.head.toNat firstBatch.toNat ++ q.copy 0 (toDeq - firstBatch).toNat)

/-- The ring after an element is freed; one that is out of order is only reported. -/
def Ring.free (r : Ring) (eltIndex : BitVec 32) : Ring :=
  { r with
    head := if eltIndex = r.head then (r.head + 1#32) % r.nitems else r.head
    cursize := r.cursize - 1#32 }

def svmMsgQFreeMsg (mq : MsgQ) (msg : Msg) : MsgQ × Event :=
  match mq.rings[msg.ringIndex.toNat]? with
  | none => (mq, .fault)
  | some r =>
    ({ mq with rings := mq.rings.set msg.ringIndex.toNat (r.free msg.eltIndex) }, .freed msg)

/-! ## Runs -/

inductive Op
  | allocMsgWRing (ringIndex : BitVec 32)
  | lockAndAllocMsgWRing (ringIndex : BitVec 32) (noblock : Bool)
  | add (msg : Msg) (nowait : Bool)
  | addAndUnlock (msg : Msg)
  | subRaw
  | subRawBatch (nMsgs : BitVec 32)
  | freeMsg (msg : Msg)
deriving DecidableEq, Repr

def step (mq : MsgQ) : Op → MsgQ × Event
  | .allocMsgWRing i => svmMsgQAllocMsgWRing mq i
  | .lockAndAllocMsgWRing i noblock => svmMsgQLockAndAllocMsgWRing mq i noblock
  | .add msg nowait => svmMsgQAdd mq msg nowait
  | .addAndUnlock msg => svmMsgQAddAndUnlock mq msg
  | .subRaw => ({ mq with q := (svmMsgQSubRaw mq.q).1 }, .dequeued [(svmMsgQSubRaw mq.q).2])
  | .subRawBatch n =>
    ({ mq with q := (svmMsgQSubRawBatch mq.q n).1 }, .dequeued (svmMsgQSubRawBatch mq.q n).2)
  | .freeMsg msg => svmMsgQFreeMsg mq msg

/-- The calls the functions allow: their ASSERTs hold, `svm_msg_q_add_and_unlock` is called by the producer
that holds the lock, and elements are freed in the order of their ring. -/
def Proper (mq : MsgQ) : Op → Prop
  | .allocMsgWRing i => ∃ r ∈ mq.rings[i.toNat]?, r.cursize < r.nitems
  | .addAndUnlock _ => mq.lock = .allocated
  | .subRaw => mq.q.cursize ≠ 0#32
  | .subRawBatch _ => mq.q.cursize ≠ 0#32
  | .freeMsg msg => ∃ r ∈ mq.rings[msg.ringIndex.toNat]?, r.cursize ≠ 0#32 ∧ msg.eltIndex = r.head
  | _ => True

/-! ## The queue of descriptors -/

variable {x cap head tail maxsize : BitVec 32} {q : SharedQueue} {k : Nat} {r : Ring} {rv : Int} {mq : MsgQ}
  {nitems : List (BitVec 32)} {e : Event}

theorem toNat_succ (h : x.toNat < cap.toNat) : (x + 1#32).toNat = x.toNat + 1 := by
  exact BitVec.toNat_add_of_lt (by simp; omega)

theorem toNat_next (h : x.toNat < cap.toNat) :
    ((x + 1#32) % cap).toNat = (x.toNat + 1) % cap.toNat := by
  rw [toNat_umod, toNat_succ h]

theorem toNat_pred (h : x ≠ 0#32) : (x - 1#32).toNat = x.toNat - 1 :=
  toNat_sub_of_le (le_def.mpr (toNat_pos_of_ne_zero h))

theorem push_word (h : Cyclic cap.toNat head.toNat tail.toNat x.toNat) (hlt : x.toNat < cap.toNat) :
    Cyclic cap.toNat head.toNat ((tail + 1#32) % cap).toNat (x + 1#32).toNat ∧
      places cap.toNat head.toNat (x + 1#32).toNat =
        places cap.toNat head.toNat x.toNat ++ [tail.toNat] := by
  rw [toNat_next (h.tail_lt (zero_lt_of_lt hlt)), toNat_succ hlt]
  exact ⟨h.push hlt, h.places_push⟩

theorem pop_word (h : Cyclic cap.toNat head.toNat tail.toNat x.toNat) (hne : x ≠ 0#32) :
    Cyclic cap.toNat ((head + 1#32) % cap).toNat tail.toNat (x - 1#32).toNat ∧
      places cap.toNat head.toNat x.toNat =
        head.toNat :: places cap.toNat ((head + 1#32) % cap).toNat (x - 1#32).toNat := by
  have hpos := toNat_pos_of_ne_zero hne
  have hhead := h.head_lt (lt_of_lt_of_le hpos h.size_le)
  rw [toNat_next hhead, toNat_pred hne, ← places_succ' hhead, Nat.sub_add_cancel hpos]
  exact ⟨h.pop hpos, rfl⟩

def SharedQueue.Ok (q : SharedQueue) : Prop :=
  Cyclic q.maxsize.toNat q.head.toNat q.tail.toNat q.cursize.toNat

def SharedQueue.contents (q : SharedQueue) : List Msg :=
  (places q.maxsize.toNat q.head.toNat q.cursize.toNat).map q.data

theorem SharedQueue.length_contents : q.contents.length = q.cursize.toNat := by
  rw [contents, length_map, length_places]

theorem svmMsgQAddRaw_spec (h : q.Ok) (hlt : q.cursize.toNat < q.maxsize.toNat)
    (msg : Msg) : (svmMsgQAddRaw q msg).Ok ∧ (svmMsgQAddRaw q msg).contents = q.contents ++ [msg] := by
  obtain ⟨hok, hplaces⟩ := push_word h hlt
  refine ⟨hok, ?_⟩
  show (places q.maxsize.toNat q.head.toNat (q.cursize + 1#32).toNat).map
    (Function.update q.data q.tail.toNat msg) = _
  rw [hplaces, map_append, map_singleton, Function.update_self]
  congr 1
  refine map_congr_left fun i hi => Function.update_of_ne ?_ _ _
  rintro rfl
  exact h.tail_notMem hlt hi

theorem svmMsgQSubRaw_spec (h : q.Ok) (hne : q.cursize ≠ 0#32) :
    (svmMsgQSubRaw q).1.Ok ∧ q.contents = (svmMsgQSubRaw q).2 :: (svmMsgQSubRaw q).1.contents := by
  obtain ⟨hok, hplaces⟩ := pop_word h hne
  refine ⟨hok, ?_⟩
  rw [SharedQueue.contents, hplaces]
  rfl

/-- `k` calls of `svm_msg_q_sub_raw`. -/
def subRaws : Nat → SharedQueue → SharedQueue × List Msg
  | 0, q => (q, [])
  | k + 1, q =>
    let r := subRaws k (svmMsgQSubRaw q).1
    (r.1, (svmMsgQSubRaw q).2 :: r.2)

theorem subRaw_of_lt (h : q.Ok) (hk : k < q.cursize.toNat) :
    ((svmMsgQSubRaw q).1.Ok ∧ q.contents = (svmMsgQSubRaw q).2 :: (svmMsgQSubRaw q).1.contents) ∧
      k ≤ (svmMsgQSubRaw q).1.cursize.toNat := by
  have hne : q.cursize ≠ 0#32 := by
    rintro h0
    rw [h0] at hk
    exact absurd hk (not_lt_zero k)
  refine ⟨svmMsgQSubRaw_spec h hne, ?_⟩
  show k ≤ (q.cursize - 1#32).toNat
  rw [toNat_pred hne]
  omega

theorem subRaws_spec (h : q.Ok) (hk : k ≤ q.cursize.toNat) :
    (subRaws k q).1.Ok ∧ q.contents = (subRaws k q).2 ++ (subRaws k q).1.contents := by
  induction k generalizing q with
  | zero => exact ⟨h, rfl⟩
  | succ k ih =>
    obtain ⟨⟨hok, hcontents⟩, hle⟩ := subRaw_of_lt h hk
    obtain ⟨hok', hcontents'⟩ := ih hok hle
    refine ⟨hok', ?_⟩
    rw [hcontents, hcontents']
    rfl

theorem subRaws_eq (h : q.Ok) (hk : k ≤ q.cursize.toNat) :
    subRaws k q =
      ({ q with
          head := BitVec.ofNat 32 ((q.head.toNat + k) % q.maxsize.toNat)
          cursize := q.cursize - BitVec.ofNat 32 k },
        (places q.maxsize.toNat q.head.toNat k).map q.data) := by
  induction k generalizing q with
  | zero =>
    have hhead : q.head.toNat % q.maxsize.toNat = q.head.toNat := by
      rcases Nat.eq_zero_or_pos q.maxsize.toNat with h0 | hpos
      · rw [h0, mod_zero]
      · exact mod_eq_of_lt (h.head_lt hpos)
    simp only [subRaws, add_zero, hhead, ofNat_toNat, BitVec.setWidth_eq, places_zero,
      map_nil, BitVec.sub_zero]
  | succ k ih =>
    have hhead := h.head_lt (lt_of_lt_of_le (zero_lt_of_lt hk) h.size_le)
    obtain ⟨⟨hok, -⟩, hle⟩ := subRaw_of_lt h hk
    have hrest := ih hok hle
    have hsize : q.cursize - 1#32 - BitVec.ofNat 32 k = q.cursize - BitVec.ofNat 32 (k + 1) := by
      bv_omega
    simp only [svmMsgQSubRaw, toNat_next hhead, mod_add_mod, hsize] at hrest
    rw [add_assoc, add_comm 1 k] at hrest
    simp only [subRaws, svmMsgQSubRaw, hrest, places_succ' hhead, map_cons]

/-- **A batch is that many single calls**, if the sum of head and batch does not overflow. -/
theorem svmMsgQSubRawBatch_eq (h : q.Ok) (hne : q.cursize ≠ 0#32) (hmax : q.maxsize.toNat ≤ 2 ^ 31)
    {nMsgs : BitVec 32} : svmMsgQSubRawBatch q nMsgs = subRaws (min nMsgs.toNat q.cursize.toNat) q := by
  have hpos := toNat_pos_of_ne_zero hne
  have hsize := h.size_le
  have hhead := h.head_lt (lt_of_lt_of_le hpos hsize)
  unfold svmMsgQSubRawBatch
  dsimp only
  generalize heq : (if q.cursize < nMsgs then q.cursize else nMsgs) = toDeq
  have hmin : toDeq.toNat = min nMsgs.toNat q.cursize.toNat := by
    simp only [lt_def] at heq
    split at heq
    all_goals
      subst heq
      omega
  have hle : toDeq.toNat ≤ q.cursize.toNat := hmin ▸ min_le_right ..
  have hsum : (q.head + toDeq).toNat = q.head.toNat + toDeq.toNat :=
    BitVec.toNat_add_of_lt (by omega)
  rw [← hmin, subRaws_eq h hle, ofNat_toNat]
  split
  · rename_i hlt
    rw [lt_def, hsum] at hlt
    rw [places_eq_range' (le_of_lt hlt), mod_eq_of_lt hlt, ← hsum, ofNat_toNat]
    rfl
  · rename_i hge
    rw [lt_def] at hge
    have hfirst : (q.maxsize - q.head).toNat = q.maxsize.toNat - q.head.toNat :=
      toNat_sub_of_le (le_def.mpr (le_of_lt hhead))
    have hsecond : (toDeq - (q.maxsize - q.head)).toNat =
        toDeq.toNat - (q.maxsize.toNat - q.head.toNat) := by
      rw [toNat_sub_of_le (le_def.mpr (by omega)), hfirst]
    have hnext : (q.head + toDeq) % q.maxsize =
        BitVec.ofNat 32 ((q.head.toNat + toDeq.toNat) % q.maxsize.toNat) := by
      apply eq_of_toNat_eq
      rw [toNat_umod, hsum, toNat_ofNat, mod_eq_of_lt (lt_of_le_of_lt
        (mod_le ..) (by omega))]
    rw [hnext, hfirst, hsecond, places_eq_append hhead (by omega) (by omega), map_append]
    rfl

/-! ## The rings of elements -/

def Ring.Ok (r : Ring) : Prop := Cyclic r.nitems.toNat r.head.toNat r.tail.toNat r.cursize.toNat

/-- The elements that are allocated and not freed yet, in order. -/
def Ring.outstanding (r : Ring) : List Nat := places r.nitems.toNat r.head.toNat r.cursize.toNat

theorem Ring.alloc_spec (h : r.Ok) (hlt : r.cursize.toNat < r.nitems.toNat) :
    r.alloc.Ok ∧ r.alloc.outstanding = r.outstanding ++ [r.tail.toNat] := by
  exact push_word h hlt

theorem Ring.free_spec (h : r.Ok) (hne : r.cursize ≠ 0#32) :
    (r.free r.head).Ok ∧ r.outstanding = r.head.toNat :: (r.free r.head).outstanding := by
  rw [Ring.free, if_pos rfl]
  exact pop_word h hne

/-! ## Histories -/

def Event.enqueuedMsgs : Event → List Msg
  | .enqueued msg => [msg]
  | _ => []

def Event.dequeuedMsgs : Event → List Msg
  | .dequeued msgs => msgs
  | _ => []

/-- The elements of ring `i` allocated by a call. -/
def Event.allocatedElts (i : Nat) : Event → List Nat
  | .allocated msg => if msg.ringIndex.toNat = i then [msg.eltIndex.toNat] else []
  | _ => []

/-- The elements of ring `i` freed by a call. -/
def Event.freedElts (i : Nat) : Event → List Nat
  | .freed msg => if msg.ringIndex.toNat = i then [msg.eltIndex.toNat] else []
  | _ => []

/-- A queue of `maxsize` places and rings of `nitems` elements each is consistent: a producer that holds the
lock has a place left. -/
structure MsgQ.Ok (maxsize : BitVec 32) (nitems : List (BitVec 32)) (mq : MsgQ) : Prop where
  queue : mq.q.Ok
  maxsize_eq : mq.q.maxsize = maxsize
  rings : ∀ r ∈ mq.rings, r.Ok
  nitems_eq : mq.rings.map Ring.nitems = nitems
  room : mq.lock = .allocated → mq.q.cursize.toNat < mq.q.maxsize.toNat

/-- What has gone in has come out or is still there, in the queue and in every ring. -/
structure Conserves (mq : MsgQ) (es : List Event) : Prop where
  fifo : es.flatMap Event.enqueuedMsgs = es.flatMap Event.dequeuedMsgs ++ mq.q.contents
  ring_order : ∀ i r, mq.rings[i]? = some r →
    es.flatMap (Event.allocatedElts i) = es.flatMap (Event.freedElts i) ++ r.outstanding

/-- A bounded FIFO: the queue and the rings never hold more than they have room for, and no element
is outstanding twice. -/
structure BoundedFifo (maxsize : BitVec 32) (nitems : List (BitVec 32)) (mq : MsgQ) (es : List Event) :
    Prop extends Conserves mq es where
  size_le : mq.q.contents.length ≤ maxsize.toNat
  nitems_eq : mq.rings.map Ring.nitems = nitems
  ring_size_le : ∀ r ∈ mq.rings, r.outstanding.length ≤ r.nitems.toNat
  ring_nodup : ∀ r ∈ mq.rings, r.outstanding.Nodup

/-! ## What a call can do -/

/-- The five things a proper call can do to the queue and the rings. -/
inductive Moves : MsgQ → Event → MsgQ → Prop
  | idle {mq : MsgQ} {lock : Lock} {e : Event} (hlock : lock = .allocated → mq.lock = .allocated)
      (he : e = .waits ∨ e = .fault ∨ ∃ rv, e = .failed rv) : Moves mq e { mq with lock := lock }
  | enqueue {mq : MsgQ} (msg : Msg) (hlt : mq.q.cursize.toNat < mq.q.maxsize.toNat) :
      Moves mq (.enqueued msg) { mq with q := svmMsgQAddRaw mq.q msg, lock := .unlocked }
  | dequeue {mq : MsgQ} {k : Nat} (hk : k ≤ mq.q.cursize.toNat) :
      Moves mq (.dequeued (subRaws k mq.q).2) { mq with q := (subRaws k mq.q).1 }
  | alloc {mq : MsgQ} {i : BitVec 32} {r : Ring} {lock : Lock} (hr : mq.rings[i.toNat]? = some r)
      (hlt : r.cursize.toNat < r.nitems.toNat)
      (hlock : lock = mq.lock ∨ mq.q.cursize.toNat < mq.q.maxsize.toNat) :
      Moves mq (.allocated ⟨i, r.tail⟩)
        { mq with rings := mq.rings.set i.toNat r.alloc, lock := lock }
  | free {mq : MsgQ} {i : BitVec 32} {r : Ring} (hr : mq.rings[i.toNat]? = some r)
      (hne : r.cursize ≠ 0#32) :
      Moves mq (.freed ⟨i, r.head⟩) { mq with rings := mq.rings.set i.toNat (r.free r.head) }

theorem SharedQueue.lt_of_not_isFull (h : q.Ok) (hfull : q.isFull = false) :
    q.cursize.toNat < q.maxsize.toNat := by
  have hle : q.cursize.toNat ≤ q.maxsize.toNat := h.size_le
  have hne : q.cursize ≠ q.maxsize := by simpa [SharedQueue.isFull] using hfull
  exact lt_of_le_of_ne hle fun heq => hne (eq_of_toNat_eq heq)

theorem idle_outcome {b : Bool} :
    (if b then Event.failed rv else .waits) = .waits ∨
      (if b then Event.failed rv else .waits) = .fault ∨
      ∃ rv', (if b then Event.failed rv else .waits) = .failed rv' := by
  cases b with
  | false => exact .inl rfl
  | true => exact .inr (.inr ⟨rv, rfl⟩)

variable {qNitems i : BitVec 32} {data : Nat → Msg} {es : List Event} {noblock : Bool}

theorem lockAndAlloc_moves (h : mq.q.Ok) :
    Moves mq (svmMsgQLockAndAllocMsgWRing mq i noblock).2
      (svmMsgQLockAndAllocMsgWRing mq i noblock).1 := by
  unfold svmMsgQLockAndAllocMsgWRing
  split
  · exact .idle id (.inr (.inl rfl))
  rename_i r hr
  split
  · exact .idle id idle_outcome
  split
  · exact .idle id idle_outcome
  rename_i hfull
  rw [Bool.not_eq_true, Bool.or_eq_false_iff] at hfull
  have hring : r.cursize.toNat < r.nitems.toNat := by
    have := hfull.2
    unfold Ring.isFull at this
    rw [decide_eq_false_iff_not, ge_iff_le, le_def] at this
    omega
  simp only [svmMsgQAllocMsgWRing, hr]
  exact .alloc hr hring (.inr (SharedQueue.lt_of_not_isFull h hfull.1))

theorem add_moves (h : mq.q.Ok) {msg : Msg} {nowait : Bool} :
    Moves mq (svmMsgQAdd mq msg nowait).2 (svmMsgQAdd mq msg nowait).1 := by
  unfold svmMsgQAdd
  split
  · exact .idle id idle_outcome
  rename_i hlock
  rw [not_not] at hlock
  split
  · split
    · exact .idle (fun h => nomatch h) (.inr (.inr ⟨_, rfl⟩))
    · exact .idle id (.inl rfl)
  · rename_i hfull
    have := Moves.enqueue msg (SharedQueue.lt_of_not_isFull h (Bool.not_eq_true _ ▸ hfull))
    rw [← hlock] at this
    exact this

theorem step_moves
    (h : mq.Ok maxsize nitems) (hmax : maxsize.toNat ≤ 2 ^ 31) {op : Op} (hop : Proper mq op) :
    Moves mq (step mq op).2 (step mq op).1 := by
  cases op with
  | allocMsgWRing i =>
    obtain ⟨r, hr, hlt⟩ := hop
    rw [Option.mem_def] at hr
    simp only [step, svmMsgQAllocMsgWRing, hr]
    exact .alloc hr (lt_def.mp hlt) (.inl rfl)
  | lockAndAllocMsgWRing i noblock => exact lockAndAlloc_moves h.queue
  | add msg nowait => exact add_moves h.queue
  | addAndUnlock msg => exact .enqueue msg (h.room hop)
  | subRaw =>
    have hpos := toNat_pos_of_ne_zero hop
    exact Moves.dequeue hpos
  | subRawBatch n =>
    simp only [step, svmMsgQSubRawBatch_eq h.queue hop (h.maxsize_eq ▸ hmax)]
    exact .dequeue (min_le_right ..)
  | freeMsg msg =>
    obtain ⟨r, hr, hne, helt⟩ := hop
    rw [Option.mem_def] at hr
    obtain ⟨i, elt⟩ := msg
    subst helt
    simp only [step, svmMsgQFreeMsg, hr]
    exact .free hr hne

theorem subRaws_size (h : q.Ok) (hk : k ≤ q.cursize.toNat) :
    (subRaws k q).1.maxsize = q.maxsize ∧ (subRaws k q).1.cursize.toNat ≤ q.cursize.toNat := by
  have hofNat : (BitVec.ofNat 32 k).toNat = k := by
    rw [toNat_ofNat, mod_eq_of_lt (by omega)]
  rw [subRaws_eq h hk]
  refine ⟨rfl, ?_⟩
  rw [toNat_sub_of_le (le_def.mpr (by omega))]
  exact sub_le ..

theorem MsgQ.Ok.set_ring (h : mq.Ok maxsize nitems) {i : Nat} {r' : Ring} (hr : mq.rings[i]? = some r)
    (hok : r'.Ok) (hsize : r'.nitems = r.nitems) :
    (∀ s ∈ mq.rings.set i r', s.Ok) ∧ (mq.rings.set i r').map Ring.nitems = nitems := by
  refine ⟨fun s hs => ?_, ?_⟩
  · rcases mem_or_eq_of_mem_set hs with hs | rfl
    · exact h.rings s hs
    · exact hok
  · obtain ⟨hi, rfl⟩ := List.getElem?_eq_some_iff.mp hr
    have hi' : i < (mq.rings.map Ring.nitems).length := by rwa [length_map]
    have hsame : mq.rings[i].nitems = (mq.rings.map Ring.nitems)[i] := by rw [getElem_map]
    rw [map_set, hsize, hsame, set_getElem_self, h.nitems_eq]

variable {mq' : MsgQ}

theorem Moves.ok (h : mq.Ok maxsize nitems) (hm : Moves mq e mq') : mq'.Ok maxsize nitems := by
  cases hm with
  | idle hlock he => exact ⟨h.queue, h.maxsize_eq, h.rings, h.nitems_eq, fun hl => h.room (hlock hl)⟩
  | enqueue msg hlt =>
    exact ⟨(svmMsgQAddRaw_spec h.queue hlt msg).1, h.maxsize_eq, h.rings, h.nitems_eq,
      fun hl => nomatch hl⟩
  | dequeue hk =>
    obtain ⟨hmax, hsize⟩ := subRaws_size h.queue hk
    refine ⟨(subRaws_spec h.queue hk).1, hmax.trans h.maxsize_eq, h.rings, h.nitems_eq, fun hl => ?_⟩
    rw [hmax]
    exact lt_of_le_of_lt hsize (h.room hl)
  | alloc hr hlt hlock =>
    have hok := h.rings _ (mem_of_getElem? hr)
    obtain ⟨hrings, hnitems⟩ := h.set_ring hr (Ring.alloc_spec hok hlt).1 rfl
    refine ⟨h.queue, h.maxsize_eq, hrings, hnitems, fun hl => ?_⟩
    rcases hlock with rfl | hroom
    · exact h.room hl
    · exact hroom
  | free hr hne =>
    have hok := h.rings _ (mem_of_getElem? hr)
    obtain ⟨hrings, hnitems⟩ := h.set_ring hr (Ring.free_spec hok hne).1 rfl
    exact ⟨h.queue, h.maxsize_eq, hrings, hnitems, h.room⟩

theorem Conserves.append (h : Conserves mq es)
    (hq : mq.q.contents ++ e.enqueuedMsgs = e.dequeuedMsgs ++ mq'.q.contents)
    (hr : ∀ i s, mq'.rings[i]? = some s → ∃ r, mq.rings[i]? = some r ∧ r.outstanding ++ e.allocatedElts i =
      e.freedElts i ++ s.outstanding) : Conserves mq' (es ++ [e]) := by
  refine ⟨?_, fun i s hs => ?_⟩
  · rw [flatMap_append, flatMap_append, flatMap_singleton, flatMap_singleton, h.fifo, append_assoc, hq,
      append_assoc]
  · obtain ⟨r, hi, heq⟩ := hr i s hs
    rw [flatMap_append, flatMap_append, flatMap_singleton, flatMap_singleton, h.ring_order i r hi,
      append_assoc, heq, append_assoc]

theorem ring_of_set {rings : List Ring} {i j : Nat} {s : Ring} (h : (rings.set i r)[j]? = some s) :
    i = j ∧ r = s ∨ i ≠ j ∧ rings[j]? = some s := by
  rw [getElem?_set] at h
  split at h
  · rename_i hij
    split at h
    · exact .inl ⟨hij, Option.some.inj h⟩
    · cases h
  · rename_i hij
    exact .inr ⟨hij, h⟩

theorem Moves.conserves (hq : mq.q.Ok) (hrings : ∀ r ∈ mq.rings, r.Ok) (h : Conserves mq es)
    (hm : Moves mq e mq') : Conserves mq' (es ++ [e]) := by
  cases hm with
  | idle hlock he =>
    rcases he with rfl | rfl | ⟨rv, rfl⟩
    all_goals exact h.append (append_nil _) fun i s hs => ⟨s, hs, append_nil _⟩
  | enqueue msg hlt =>
    exact h.append (svmMsgQAddRaw_spec hq hlt msg).2.symm fun i s hs => ⟨s, hs, append_nil _⟩
  | dequeue hk =>
    exact h.append ((append_nil _).trans (subRaws_spec hq hk).2) fun i s hs => ⟨s, hs, append_nil _⟩
  | @alloc i r _ hr hlt hlock =>
    refine h.append (append_nil _) fun j s hs => ?_
    simp only [Event.allocatedElts, Event.freedElts]
    rcases ring_of_set hs with ⟨rfl, rfl⟩ | ⟨hij, hs⟩
    · refine ⟨r, hr, ?_⟩
      rw [if_pos rfl, (Ring.alloc_spec (hrings r (mem_of_getElem? hr)) hlt).2]
      rfl
    · exact ⟨s, hs, by rw [if_neg hij, append_nil]; rfl⟩
  | @free i r hr hne =>
    refine h.append (append_nil _) fun j s hs => ?_
    simp only [Event.allocatedElts, Event.freedElts]
    rcases ring_of_set hs with ⟨rfl, rfl⟩ | ⟨hij, hs⟩
    · refine ⟨r, hr, ?_⟩
      rw [if_pos rfl, append_nil]
      exact (Ring.free_spec (hrings r (mem_of_getElem? hr)) hne).2
    · exact ⟨s, hs, by rw [if_neg hij, append_nil]; rfl⟩

/-! ## New queues -/

theorem newQueue_ok (nitems : List (BitVec 32)) (data : Nat → Msg) :
    (newQueue qNitems nitems data).Ok qNitems nitems := by
  have hempty : ∀ n : BitVec 32, Cyclic n.toNat (0#32).toNat (0#32).toNat (0#32).toNat :=
    fun n => ⟨id, (zero_mod _).symm, Nat.zero_le _⟩
  refine ⟨hempty qNitems, rfl, fun r hr => ?_, ?_, fun hl => nomatch hl⟩
  · obtain ⟨n, -, rfl⟩ := mem_map.mp hr
    exact hempty n
  · simp only [newQueue, map_map, Function.comp_def, map_id']

theorem newQueue_conserves : Conserves (newQueue qNitems nitems data) [] := by
  refine ⟨rfl, fun i r hr => ?_⟩
  obtain ⟨n, -, rfl⟩ := mem_map.mp (mem_of_getElem? hr)
  rfl

/-! ## Error returns -/

/-- A failed call has given back what it took, and a message that was added is the last one of a
queue nobody holds. -/
def Releases (mq : MsgQ) (msg : Msg) (r : MsgQ × Event) : Prop :=
  (∀ rv, r.2 = .failed rv → r.1 = mq) ∧
    ∀ m, r.2 = .enqueued m →
      r.1.lock = .unlocked ∧ r.1.rings = mq.rings ∧ r.1.q.contents = mq.q.contents ++ [msg]

theorem lockAndAlloc_failed (h : (svmMsgQLockAndAllocMsgWRing mq i noblock).2 = .failed rv) :
    (svmMsgQLockAndAllocMsgWRing mq i noblock).1 = mq := by
  unfold svmMsgQLockAndAllocMsgWRing at h ⊢
  split
  · rfl
  rename_i r hr
  simp only [hr] at h
  split
  · rfl
  rename_i hlock
  rw [if_neg hlock] at h
  split
  · rfl
  · rename_i hfull
    rw [if_neg hfull] at h
    simp only [svmMsgQAllocMsgWRing, hr] at h
    cases h

/-- **Error returns release the lock**, all but one: `svm_msg_q_add` without waiting on a full queue
that it has just locked. -/
theorem failed_calls_release_iff {mq : MsgQ} (h : mq.q.Ok) :
    (∀ i noblock rv, (svmMsgQLockAndAllocMsgWRing mq i noblock).2 = .failed rv →
      (svmMsgQLockAndAllocMsgWRing mq i noblock).1 = mq) ∧
    ∀ msg nowait, Releases mq msg (svmMsgQAdd mq msg nowait) ↔
      ¬ (nowait = true ∧ mq.lock = .unlocked ∧ mq.q.isFull = true) := by
  refine ⟨fun _ _ _ => lockAndAlloc_failed, fun msg nowait => ?_⟩
  unfold svmMsgQAdd
  split
  · rename_i hlock
    have hkept : Releases mq msg (mq, if nowait then .failed (-1) else .waits) :=
      ⟨fun _ _ => rfl, fun m hm => by cases nowait <;> cases hm⟩
    exact iff_of_true hkept fun hbad => hlock hbad.2.1
  · rename_i hlock
    rw [not_not] at hlock
    split
    · rename_i hfull
      cases nowait with
      | false =>
        exact iff_of_true ⟨fun _ hm => (nomatch hm), fun _ hm => (nomatch hm)⟩ fun hbad => nomatch hbad.1
      | true =>
        refine iff_of_false (fun hrel => ?_) fun hgood => hgood ⟨rfl, hlock, hfull⟩
        have hsame := congrArg MsgQ.lock (hrel.1 _ rfl)
        rw [hlock] at hsame
        cases hsame
    · rename_i hfull
      have hlt := SharedQueue.lt_of_not_isFull h (Bool.not_eq_true _ ▸ hfull)
      have hadded := (svmMsgQAddRaw_spec h hlt msg).2
      exact iff_of_true ⟨fun _ hm => (nomatch hm), fun _ _ => ⟨hlock, rfl, hadded⟩⟩
        fun hbad => hfull hbad.2.2

/-- The second message of a queue with one place is refused, and nobody can lock the queue again. -/
theorem full_queue_keeps_lock :
    let mq := (svmMsgQAdd (newQueue 1#32 [] fun _ => ⟨0#32, 0#32⟩) ⟨0#32, 0#32⟩ true).1
    mq.lock = .unlocked ∧ (svmMsgQAdd mq ⟨0#32, 1#32⟩ true).2 = .failed (-2) ∧
      (svmMsgQAdd mq ⟨0#32, 1#32⟩ true).1.lock ≠ .unlocked := by
  decide

/-- A full queue that another producer has locked refuses a message, and stays as it is. -/
theorem failed_calls_release_iff_locked :
    let mq := { (svmMsgQAdd (newQueue 1#32 [] fun _ => ⟨0#32, 0#32⟩) ⟨0#32, 0#32⟩ true).1 with
      lock := .allocated }
    (svmMsgQAdd mq ⟨0#32, 7#32⟩ true).2 = .failed (-1) ∧
      Releases mq ⟨0#32, 7#32⟩ (svmMsgQAdd mq ⟨0#32, 7#32⟩ true) := by
  have hok := (svmMsgQAddRaw_spec (@newQueue_ok 1#32 [] fun _ => ⟨0#32, 0#32⟩).queue
    (by decide) ⟨0#32, 0#32⟩).1
  exact ⟨rfl, ((failed_calls_release_iff hok).2 _ _).mpr (by decide)⟩

end Vpp.Svm
