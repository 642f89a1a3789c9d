import Vpp.Lib.Stores
import Vpp.Svm.MessageQueue

/-!
# Message queues in shared memory

`svm_msg_q_init` lays the queue and its rings one behind the other, at distances that it computes in 32
bits. Where none of these overflows, the parts are apart and the queue is a bounded FIFO; where one does,
a ring comes to lie on the queue or on another ring.
-/

namespace Vpp.Svm

open Vpp.Lib
open List hiding after

/-- `svm_msg_q_ring_cfg_t` -/
structure RingCfg where
  nitems : BitVec 32
  elsize : BitVec 32
deriving DecidableEq, Repr

/-- `svm_msg_q_ring_t`: a ring as it is attached, and the address of its shared part. -/
structure RingAt where
  nitems : BitVec 32
  elsize : BitVec 32
  shr : Nat
deriving DecidableEq, Repr

/-- The shared memory, in words under the addresses of their first bytes from `smq->q` on, and what a process
has attached of it. -/
structure SharedMem where
  mem : Nat → BitVec 32
  rings : List RingAt
  lock : Lock

/-- The rings from the address on, with `offset` in 32 bits. -/
def placeRings (addr : Nat) : List RingCfg → List RingAt
  | [] => []
  | c :: cs => ⟨c.nitems, c.elsize, addr⟩ :: placeRings (addr + (20#32 + c.nitems * c.elsize).toNat) cs

/-- The words of a new ring. -/
def RingAt.init (r : RingAt) : List (Nat × BitVec 32) :=
  [(r.shr + 16, r.elsize), (r.shr + 4, r.nitems), (r.shr + 12, 0#32), (r.shr + 8, 0#32), (r.shr, 0#32)]

def svmMsgQInit (qNitems : BitVec 32) (cfgs : List RingCfg) (mem : Nat → BitVec 32) : Nat → BitVec 32 :=
  let qSz := 112#32 + qNitems * 8#32
  store mem ([(88, 0#32), (92, 0#32), (96, 0#32), (104, 8#32), (100, qNitems)] ++
    (placeRings qSz.toNat cfgs).flatMap RingAt.init)

/-- The rings found from the address on. -/
def attachRings (mem : Nat → BitVec 32) (addr : Nat) : Nat → List RingAt
  | 0 => []
  | nRings + 1 => ⟨mem (addr + 4), mem (addr + 16), addr⟩ ::
    attachRings mem (addr + (20#32 + mem (addr + 4) * mem (addr + 16)).toNat) nRings

def svmMsgQAttach (mem : Nat → BitVec 32) (nRings : Nat) : SharedMem :=
  let qSz := 112#32 + mem 100 * 8#32
  ⟨mem, attachRings mem qSz.toNat nRings, .unlocked⟩

/-- A new queue, attached. -/
def newMsgQ (qNitems : BitVec 32) (cfgs : List RingCfg) (mem : Nat → BitVec 32) : SharedMem :=
  svmMsgQAttach (svmMsgQInit qNitems cfgs mem) cfgs.length

/-- What is found in the memory. -/
def SharedMem.view (s : SharedMem) : MsgQ where
  q :=
    { head := s.mem 88, tail := s.mem 92, cursize := s.mem 96, maxsize := s.mem 100
      data := fun i =>
        if i < (s.mem 100).toNat then ⟨s.mem (112 + 8 * i), s.mem (112 + 8 * i + 4)⟩ else ⟨0#32, 0#32⟩ }
  rings := s.rings.map fun r => ⟨s.mem r.shr, r.nitems, s.mem (r.shr + 8), s.mem (r.shr + 12)⟩
  lock := s.lock

def SharedMem.ringWrites (s : SharedMem) (mq : MsgQ) (i : Nat) : List (Nat × BitVec 32) :=
  match s.rings[i]?, mq.rings[i]? with
  | some a, some r => [(a.shr + 8, r.head), (a.shr + 12, r.tail), (a.shr, r.cursize)]
  | _, _ => []

/-- What a call writes that leaves the queue as `mq`. -/
def SharedMem.writes (s : SharedMem) (mq : MsgQ) : Event → List (Nat × BitVec 32)
  | .enqueued msg =>
    let tailp := 112 + 8 * (s.mem 92).toNat
    [(tailp, msg.ringIndex), (tailp + 4, msg.eltIndex), (92, mq.q.tail), (96, mq.q.cursize)]
  | .dequeued _ => [(88, mq.q.head), (96, mq.q.cursize)]
  | .allocated msg | .freed msg => s.ringWrites mq msg.ringIndex.toNat
  | .failed _ | .waits | .fault => []

/-- A call on the shared memory. -/
def SharedMem.step (s : SharedMem) (op : Op) : SharedMem × Event :=
  let r := Svm.step s.view op
  (⟨store s.mem (s.writes r.1 r.2), s.rings, r.1.lock⟩, r.2)

/-! ## Parts that are apart -/

/-- The rings are behind the places of the queue and one behind the other. -/
structure SharedMem.Apart (s : SharedMem) : Prop where
  queue : ∀ r ∈ s.rings, 112 + 8 * (s.mem 100).toNat ≤ r.shr
  rings : s.rings.Pairwise fun r t => r.shr + 20 ≤ t.shr

/-- None of the distances overflows. -/
def Fits (qNitems : BitVec 32) (cfgs : List RingCfg) : Prop :=
  112 + 8 * qNitems.toNat < 2 ^ 32 ∧ ∀ c ∈ cfgs.dropLast, 20 + c.nitems.toNat * c.elsize.toNat < 2 ^ 32

instance (qNitems : BitVec 32) (cfgs : List RingCfg) : Decidable (Fits qNitems cfgs) :=
  inferInstanceAs (Decidable (_ ∧ _))

variable {s : SharedMem} {mq : MsgQ} {e : Event} {addr : Nat} {cfgs : List RingCfg} {maxsize qNitems : BitVec 32}
  {nitems : List (BitVec 32)}

theorem placeRings_apart (h : ∀ c ∈ cfgs.dropLast, 20 + c.nitems.toNat * c.elsize.toNat < 2 ^ 32) :
    (∀ r ∈ placeRings addr cfgs, addr ≤ r.shr) ∧
      (placeRings addr cfgs).Pairwise fun r t => r.shr + 20 ≤ t.shr := by
  induction cfgs generalizing addr with
  | nil => exact ⟨fun r hr => (by cases hr), .nil⟩
  | cons c cs ih =>
    rw [placeRings, pairwise_cons, forall_mem_cons]
    cases cs with
    | nil => exact ⟨⟨le_rfl, fun r hr => (by cases hr)⟩, fun r hr => (by cases hr), .nil⟩
    | cons d ds =>
      rw [dropLast_cons_cons, forall_mem_cons] at h
      have hoffset : (20#32 + c.nitems * c.elsize).toNat = 20 + c.nitems.toNat * c.elsize.toNat := by
        rw [BitVec.toNat_add, BitVec.toNat_mul]
        exact (Nat.add_mod_mod ..).trans (Nat.mod_eq_of_lt h.1)
      obtain ⟨hge, hpair⟩ := @ih (addr + (20#32 + c.nitems * c.elsize).toNat) h.2
      exact ⟨⟨le_rfl, fun r hr => by have := hge r hr; omega⟩, fun r hr => by
        have := hge r hr
        show addr + 20 ≤ r.shr
        omega, hpair⟩

theorem placeRings_nitems : (placeRings addr cfgs).map RingAt.nitems = cfgs.map RingCfg.nitems := by
  induction cfgs generalizing addr with
  | nil => rfl
  | cons c cs ih => rw [placeRings, map_cons, map_cons, ih]

theorem attachRings_eq {mem : Nat → BitVec 32}
    (h : ∀ r ∈ placeRings addr cfgs, mem (r.shr + 4) = r.nitems ∧ mem (r.shr + 16) = r.elsize) :
    attachRings mem addr cfgs.length = placeRings addr cfgs := by
  induction cfgs generalizing addr with
  | nil => rfl
  | cons c cs ih =>
    rw [placeRings, forall_mem_cons] at h
    obtain ⟨⟨hn, he⟩, hrest⟩ := h
    dsimp only at hn he
    rw [length_cons, attachRings, placeRings, hn, he, ih hrest]

theorem SharedMem.view_eq (s : SharedMem) :
    s.view = ⟨⟨s.mem 88, s.mem 92, s.mem 96, s.mem 100, s.view.q.data⟩, s.view.rings, s.lock⟩ := rfl

/-! ## New queues -/

theorem store_rings_below {rings : List RingAt} {a : Nat} (h : ∀ r ∈ rings, a < r.shr) (m : Nat → BitVec 32) :
    store m (rings.flatMap RingAt.init) a = m a := by
  refine store_of_notMem ?_ m
  intro hmem
  obtain ⟨w, hw, rfl⟩ := mem_map.mp hmem
  obtain ⟨r, hr, hin⟩ := mem_flatMap.mp hw
  have := h r hr
  simp only [RingAt.init, mem_cons, not_mem_nil, or_false] at hin
  rcases hin with rfl | rfl | rfl | rfl | rfl
  all_goals
    dsimp only at this
    omega

theorem store_rings {rings : List RingAt} (h : rings.Pairwise fun r t => r.shr + 20 ≤ t.shr)
    (m : Nat → BitVec 32) : ∀ r ∈ rings, store m (rings.flatMap RingAt.init) r.shr = 0#32 ∧
      store m (rings.flatMap RingAt.init) (r.shr + 8) = 0#32 ∧
      store m (rings.flatMap RingAt.init) (r.shr + 12) = 0#32 ∧
      store m (rings.flatMap RingAt.init) (r.shr + 4) = r.nitems ∧
      store m (rings.flatMap RingAt.init) (r.shr + 16) = r.elsize := by
  induction rings generalizing m with
  | nil => exact fun r hr => (by cases hr)
  | cons t rings ih =>
    rw [pairwise_cons] at h
    rw [forall_mem_cons, flatMap_cons, store_append]
    refine ⟨?_, ih h.2 _⟩
    have hbelow : ∀ k < 20, store (store m t.init) (rings.flatMap RingAt.init) (t.shr + k) =
        store m t.init (t.shr + k) := fun k hk =>
      store_rings_below (fun r hr => by have := h.1 r hr; omega) _
    have h0 := hbelow 0 (by decide)
    rw [Nat.add_zero] at h0
    rw [h0, hbelow 8 (by decide), hbelow 12 (by decide), hbelow 4 (by decide), hbelow 16 (by decide)]
    simp [store, RingAt.init]

theorem newMsgQ_view (h : Fits qNitems cfgs) (mem : Nat → BitVec 32) :
    (newMsgQ qNitems cfgs mem).Apart ∧
      ∃ data, (newMsgQ qNitems cfgs mem).view = newQueue qNitems (cfgs.map RingCfg.nitems) data := by
  have hqsz : (112#32 + qNitems * 8#32).toNat = 112 + 8 * qNitems.toNat := by
    have := h.1
    rw [BitVec.toNat_add, BitVec.toNat_mul]
    simp only [BitVec.toNat_ofNat]
    omega
  obtain ⟨hge, hpair⟩ := @placeRings_apart (112 + 8 * qNitems.toNat) cfgs h.2
  have hword : ∀ a < 112, svmMsgQInit qNitems cfgs mem a =
      store mem [(88, 0#32), (92, 0#32), (96, 0#32), (104, 8#32), (100, qNitems)] a := by
    intro a ha
    rw [svmMsgQInit, hqsz, store_append]
    exact store_rings_below (fun r hr => by have := hge r hr; omega) _
  have hring : ∀ r ∈ placeRings (112 + 8 * qNitems.toNat) cfgs, svmMsgQInit qNitems cfgs mem r.shr = 0#32 ∧
      svmMsgQInit qNitems cfgs mem (r.shr + 8) = 0#32 ∧ svmMsgQInit qNitems cfgs mem (r.shr + 12) = 0#32 ∧
      svmMsgQInit qNitems cfgs mem (r.shr + 4) = r.nitems ∧
      svmMsgQInit qNitems cfgs mem (r.shr + 16) = r.elsize := by
    rw [svmMsgQInit, hqsz, store_append]
    exact store_rings hpair _
  have hmax : svmMsgQInit qNitems cfgs mem 100 = qNitems := hword 100 (by decide)
  have hmem : (newMsgQ qNitems cfgs mem).mem = svmMsgQInit qNitems cfgs mem := rfl
  have hatt : (newMsgQ qNitems cfgs mem).rings = placeRings (112 + 8 * qNitems.toNat) cfgs := by
    simp only [newMsgQ, svmMsgQAttach, hmax, hqsz]
    exact attachRings_eq fun r hr => (hring r hr).2.2.2
  refine ⟨⟨?_, ?_⟩, (newMsgQ qNitems cfgs mem).view.q.data, ?_⟩
  · rw [hatt, hmem, hmax]
    exact hge
  · rw [hatt]
    exact hpair
  · have hrings : (newMsgQ qNitems cfgs mem).view.rings =
        (cfgs.map RingCfg.nitems).map fun n => ⟨0#32, n, 0#32, 0#32⟩ := by
      rw [← @placeRings_nitems (112 + 8 * qNitems.toNat), map_map, SharedMem.view, hatt]
      refine map_congr_left fun r hr => ?_
      obtain ⟨h0, h8, h12, -⟩ := hring r hr
      rw [hmem, h0, h8, h12]
      rfl
    refine (SharedMem.view_eq _).trans ?_
    rw [hmem, hword 88 (by decide), hword 92 (by decide), hword 96 (by decide), hmax, hrings]
    rfl

/-! ## Calls -/

theorem SharedMem.view_ring {i : Nat} {r : Ring} (h : s.view.rings[i]? = some r) :
    ∃ a, s.rings[i]? = some a ∧ r = ⟨s.mem a.shr, a.nitems, s.mem (a.shr + 8), s.mem (a.shr + 12)⟩ := by
  simp only [SharedMem.view, getElem?_map, Option.map_eq_some_iff] at h
  obtain ⟨a, ha, rfl⟩ := h
  exact ⟨a, ha, rfl⟩

/-- What is written behind the queue leaves it as it is. -/
theorem SharedMem.view_q {m : Nat → BitVec 32} (lock : Lock)
    (h : ∀ b < 112 + 8 * (s.mem 100).toNat, m b = s.mem b) :
    (SharedMem.mk m s.rings lock).view.q = s.view.q := by
  simp only [SharedMem.view, h 88 (by omega), h 92 (by omega), h 96 (by omega), h 100 (by omega)]
  congr 1
  funext i
  split
  · rename_i hi
    rw [h (112 + 8 * i) (by omega), h (112 + 8 * i + 4) (by omega)]
  · rfl

/-- What is written before the rings leaves them as they are. -/
theorem SharedMem.view_rings {m : Nat → BitVec 32} (hap : s.Apart) (lock : Lock)
    (h : ∀ b, 112 + 8 * (s.mem 100).toNat ≤ b → m b = s.mem b) :
    (SharedMem.mk m s.rings lock).view.rings = s.view.rings := by
  refine map_congr_left fun r hr => ?_
  have hq := hap.queue r hr
  dsimp only
  rw [h _ hq, h (r.shr + 8) (by omega), h (r.shr + 12) (by omega)]

/-- Writing one ring changes this ring alone. -/
theorem SharedMem.view_ringWrites (hap : s.Apart) {i : Nat} {r : Ring} (hr : s.view.rings[i]? = some r)
    (r' : Ring) (hn : r'.nitems = r.nitems) (lock : Lock) :
    (SharedMem.mk (store s.mem (s.ringWrites ⟨s.view.q, s.view.rings.set i r', lock⟩ i)) s.rings lock).view =
      ⟨s.view.q, s.view.rings.set i r', lock⟩ := by
  obtain ⟨a, ha, rfl⟩ := SharedMem.view_ring hr
  have hi := (List.getElem?_eq_some_iff.mp ha).1
  have hset : (s.view.rings.set i r')[i]? = some r' := getElem?_set_self (by simpa [SharedMem.view] using hi)
  have hmem : ∀ b, store s.mem (s.ringWrites ⟨s.view.q, s.view.rings.set i r', lock⟩ i) b =
      if b = a.shr then r'.cursize else if b = a.shr + 12 then r'.tail else
        if b = a.shr + 8 then r'.head else s.mem b := by
    intro b
    simp only [ringWrites, ha, hset, store, foldl_cons, foldl_nil, Function.update_apply]
  generalize store s.mem (s.ringWrites ⟨s.view.q, s.view.rings.set i r', lock⟩ i) = m at hmem ⊢
  have hq := hap.queue a (mem_of_getElem? ha)
  have hrings : (SharedMem.mk m s.rings lock).view.rings = s.view.rings.set i r' := by
    refine ext_getElem? fun j => ?_
    simp only [view, getElem?_map, getElem?_set, length_map]
    by_cases hij : i = j
    · subst hij
      rw [if_pos rfl, if_pos hi, ha, Option.map_some, hmem, hmem, hmem, if_pos rfl,
        if_neg (by omega), if_neg (by omega), if_pos rfl, if_neg (by omega), if_pos rfl,
        show a.nitems = r'.nitems from hn.symm]
    rw [if_neg hij]
    cases ht : s.rings[j]? with
    | none => rfl
    | some t =>
      have hapart : a.shr + 20 ≤ t.shr ∨ t.shr + 20 ≤ a.shr := by
        obtain ⟨hj, rfl⟩ := List.getElem?_eq_some_iff.mp ht
        obtain ⟨_, rfl⟩ := List.getElem?_eq_some_iff.mp ha
        rcases Nat.lt_or_gt_of_ne hij with hlt | hgt
        · exact .inl (pairwise_iff_getElem.mp hap.rings i j hi hj hlt)
        · exact .inr (pairwise_iff_getElem.mp hap.rings j i hj hi hgt)
      simp (disch := omega) only [Option.map_some, hmem, if_neg]
  have hsame := @SharedMem.view_q s m lock fun b hb => (hmem b).trans (by
    rw [if_neg (by omega), if_neg (by omega), if_neg (by omega)])
  exact congrArg₂ (fun q rings => (⟨q, rings, lock⟩ : MsgQ)) hsame hrings

theorem SharedMem.view_dequeue (hap : s.Apart) (head cursize : BitVec 32) (msgs : List Msg) :
    (SharedMem.mk (store s.mem (s.writes ⟨{ s.view.q with head, cursize }, s.view.rings, s.lock⟩
        (.dequeued msgs))) s.rings s.lock).view =
      ⟨{ s.view.q with head, cursize }, s.view.rings, s.lock⟩ := by
  have hmem : ∀ b, store s.mem (s.writes ⟨{ s.view.q with head, cursize }, s.view.rings, s.lock⟩
      (.dequeued msgs)) b = if b = 96 then cursize else if b = 88 then head else s.mem b := by
    intro b
    simp only [writes, store, foldl_cons, foldl_nil, Function.update_apply]
  generalize store s.mem (s.writes ⟨{ s.view.q with head, cursize }, s.view.rings, s.lock⟩
    (.dequeued msgs)) = m at hmem ⊢
  have hrings := @view_rings s m hap s.lock fun b hb => (hmem b).trans (by
    simp (disch := omega) only [if_neg])
  have hq : (SharedMem.mk m s.rings s.lock).view.q = { s.view.q with head, cursize } := by
    simp (disch := omega) only [view, hmem, if_neg, if_true]
  exact congrArg₂ (fun q rings => (⟨q, rings, s.lock⟩ : MsgQ)) hq hrings

/-- **A proper call on the shared memory** leaves in it what the call on the queue leaves. -/
theorem SharedMem.view_writes (hap : s.Apart) (hok : s.view.Ok maxsize nitems) (hm : Moves s.view e mq) :
    (SharedMem.mk (store s.mem (s.writes mq e)) s.rings mq.lock).view = mq := by
  cases hm with
  | idle hlock he =>
    rcases he with rfl | rfl | ⟨rv, rfl⟩
    all_goals rfl
  | enqueue msg hlt =>
    have htail : (s.mem 92).toNat < (s.mem 100).toNat := hok.queue.tail_lt (Nat.zero_lt_of_lt hlt)
    have hmem : ∀ b, store s.mem (s.writes ⟨svmMsgQAddRaw s.view.q msg, s.view.rings, .unlocked⟩
        (.enqueued msg)) b =
        if b = 96 then s.mem 96 + 1#32 else if b = 92 then (s.mem 92 + 1#32) % s.mem 100 else
          if b = 112 + 8 * (s.mem 92).toNat + 4 then msg.eltIndex else
          if b = 112 + 8 * (s.mem 92).toNat then msg.ringIndex else s.mem b := by
      intro b
      simp only [writes, svmMsgQAddRaw, view, store, foldl_cons, foldl_nil, Function.update_apply]
    generalize store s.mem (s.writes ⟨svmMsgQAddRaw s.view.q msg, s.view.rings, .unlocked⟩
      (.enqueued msg)) = m at hmem ⊢
    have hrings := @view_rings s m hap .unlocked fun b hb => (hmem b).trans (by
      simp (disch := omega) only [if_neg])
    have hq : (SharedMem.mk m s.rings .unlocked).view.q = svmMsgQAddRaw s.view.q msg := by
      simp (disch := omega) only [view, svmMsgQAddRaw, hmem, if_neg, if_true]
      congr 1
      funext i
      rw [Function.update_apply]
      by_cases hi : i = (s.mem 92).toNat
      · subst hi
        simp (disch := omega) only [if_pos, if_true]
      · simp (disch := omega) only [if_neg hi, if_neg]
    exact congrArg₂ (fun q rings => (⟨q, rings, .unlocked⟩ : MsgQ)) hq hrings
  | dequeue hk =>
    rw [subRaws_eq hok.queue hk]
    exact view_dequeue hap _ _ _
  | @alloc i r lock hr hlt hlock => exact view_ringWrites hap hr r.alloc rfl lock
  | @free i r hr hne => exact view_ringWrites hap hr (r.free r.head) rfl s.lock

/-! ## Runs -/

/-- **Message queues are bounded FIFOs.** Over every run of proper calls on a queue whose parts fit, and a batch
is as good as single calls. -/
theorem run_boundedFifo (qNitems : BitVec 32) (cfgs : List RingCfg) (mem : Nat → BitVec 32)
    (hfits : Fits qNitems cfgs) (ops : List Op)
    (hops : Along SharedMem.step (fun s => Proper s.view) (newMsgQ qNitems cfgs mem) ops) :
    BoundedFifo qNitems (cfgs.map RingCfg.nitems)
        (after SharedMem.step (newMsgQ qNitems cfgs mem) ops).view
        (outputs SharedMem.step (newMsgQ qNitems cfgs mem) ops) ∧
      ∀ nMsgs, (after SharedMem.step (newMsgQ qNitems cfgs mem) ops).view.q.cursize ≠ 0#32 →
        svmMsgQSubRawBatch (after SharedMem.step (newMsgQ qNitems cfgs mem) ops).view.q nMsgs =
          subRaws (min nMsgs.toNat
              (after SharedMem.step (newMsgQ qNitems cfgs mem) ops).view.q.cursize.toNat)
            (after SharedMem.step (newMsgQ qNitems cfgs mem) ops).view.q := by
  have hmax : qNitems.toNat ≤ 2 ^ 31 := by
    have := hfits.1
    omega
  obtain ⟨hap, data, hview⟩ := newMsgQ_view hfits mem
  obtain ⟨-, hok, hcons⟩ := hops.history
    (fun s es => s.Apart ∧ s.view.Ok qNitems (cfgs.map RingCfg.nitems) ∧ Conserves s.view es)
    (fun s op es h hop => by
      have hm := step_moves h.2.1 hmax hop
      have hnext : (s.step op).1.view = (Svm.step s.view op).1 := SharedMem.view_writes h.1 h.2.1 hm
      have hok := hm.ok h.2.1
      have hsize : (s.step op).1.mem 100 = s.mem 100 :=
        (congrArg (·.q.maxsize) hnext).trans (hok.maxsize_eq.trans h.2.1.maxsize_eq.symm)
      rw [hnext]
      exact ⟨⟨fun r hr => hsize ▸ h.1.queue r hr, h.1.rings⟩, hok,
        hm.conserves h.2.1.queue h.2.1.rings h.2.2⟩)
    ⟨hap, hview ▸ newQueue_ok _ data, hview ▸ newQueue_conserves⟩
  generalize (after SharedMem.step (newMsgQ qNitems cfgs mem) ops).view = mq at hok hcons ⊢
  refine ⟨⟨hcons, ?_, hok.nitems_eq, fun r hr => ?_, fun r hr => ?_⟩, fun n hne => ?_⟩
  · rw [SharedQueue.length_contents, ← hok.maxsize_eq]
    exact hok.queue.size_le
  · rw [Ring.outstanding, length_places]
    exact (hok.rings r hr).size_le
  · exact nodup_places _ (hok.rings r hr).size_le
  · exact svmMsgQSubRawBatch_eq hok.queue hne (hok.maxsize_eq ▸ hmax)

/-- A message of the second ring goes through a queue. -/
def oneMessage : List Op :=
  [.lockAndAllocMsgWRing 1#32 true, .addAndUnlock ⟨1#32, 0#32⟩, .subRawBatch 5#32, .freeMsg ⟨1#32, 0#32⟩]

theorem run_boundedFifo_small :
    BoundedFifo 2#32 [1#32, 1#32]
      (after SharedMem.step (newMsgQ 2#32 [⟨1#32, 16#32⟩, ⟨1#32, 256#32⟩] fun _ => 7#32) oneMessage).view
      (outputs SharedMem.step (newMsgQ 2#32 [⟨1#32, 16#32⟩, ⟨1#32, 256#32⟩] fun _ => 7#32)
        oneMessage) :=
  (run_boundedFifo 2#32 [⟨1#32, 16#32⟩, ⟨1#32, 256#32⟩] (fun _ => 7#32) (by decide) oneMessage
    ⟨trivial, by rfl, (by decide : ¬ _ = 0#32), ⟨_, rfl, by decide, by decide⟩, trivial⟩).1

/-- A queue of `2 ^ 29` places with one ring. -/
def hugeQueue : SharedMem := newMsgQ 0x20000000#32 [⟨2#32, 8#32⟩] fun _ => 0#32

/-- The size of the queue is taken for 112 bytes, so that the ring lies on its first places: the second element
that is allocated changes the descriptor of the first. -/
theorem ring_on_queue :
    ∃ ops, Along SharedMem.step (fun s => Proper s.view) hugeQueue ops ∧
      outputs SharedMem.step hugeQueue ops = [.allocated ⟨0#32, 0#32⟩, .enqueued ⟨0#32, 0#32⟩,
        .allocated ⟨0#32, 1#32⟩, .dequeued [⟨1#32, 0#32⟩]] ∧
      ¬ BoundedFifo 0x20000000#32 [2#32] (after SharedMem.step hugeQueue ops).view
        (outputs SharedMem.step hugeQueue ops) := by
  refine ⟨[.lockAndAllocMsgWRing 0#32 true, .addAndUnlock ⟨0#32, 0#32⟩, .allocMsgWRing 0#32, .subRaw],
    ⟨trivial, by rfl, ⟨_, rfl, by decide⟩, (by decide : ¬ _ = 0#32), trivial⟩, by rfl, fun h => ?_⟩
  have hfirst := congrArg head? h.fifo
  cases hfirst

end Vpp.Svm
