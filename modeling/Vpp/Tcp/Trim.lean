import Vpp.Vlib.Buffer

/-!
# Trimming a received segment

`tcp_buffer_discard_bytes` of `vnet/tcp/tcp_input.c` takes the bytes before `rcv_nxt` off a segment,
which lies in a chain of buffers; then the chain goes to the fifo of the session. The loops along the
chain are given fuel, and `none` is a call that does not return.
-/

namespace Vpp.Tcp

open Lib Vlib
open List hiding IsChain
open Function (update update_self update_of_ne)

/-- The buffers, and `tcp.data_len` in the metadata of each. -/
structure Received where
  buffer : Memory
  dataLen : Nat → BitVec 16

/-- `vlib_buffer_advance`. -/
def bufferAdvance (b : Buffer) (n : Nat) : Buffer :=
  { b with currentData := b.currentData + n, currentLength := b.currentLength - n }

/-- The loop for segments of several buffers: the buffers, with `b` and `n_bytes_to_drop` behind it. -/
def discardLoop : Nat → Memory → Nat → Nat → Option (Memory × Nat × Nat)
  | 0, _, _, _ => none
  | fuel + 1, mem, b, nBytesToDrop =>
    let discard := min nBytesToDrop (mem b).currentLength
    let mem := update mem b (bufferAdvance (mem b) discard)
    let b := (mem b).nextBuffer
    let nBytesToDrop := nBytesToDrop - discard
    if nBytesToDrop ≠ 0 then discardLoop fuel mem b nBytesToDrop else some (mem, b, nBytesToDrop)

/-- `tcp_buffer_discard_bytes`, with the value that it returns. -/
def tcpBufferDiscardBytes (fuel : Nat) (s : Received) (b nBytesToDrop : Nat) : Option (Int × Received) :=
  let first := (s.buffer b).currentLength
  if nBytesToDrop > first then
    if (s.buffer b).hasNext then
      (discardLoop fuel s.buffer b nBytesToDrop).map fun (mem, b, nBytesToDrop) =>
        (0, { buffer := if nBytesToDrop > first then
                update mem b { mem b with
                  totalLength := (mem b).totalLength - BitVec.ofNat 32 (nBytesToDrop - first) }
              else mem
              dataLen := update s.dataLen b (s.dataLen b - BitVec.ofNat 16 nBytesToDrop) })
    else some (-1, s)
  else
    some (0, { buffer := update s.buffer b (bufferAdvance (s.buffer b) nBytesToDrop)
               dataLen := update s.dataLen b (s.dataLen b - BitVec.ofNat 16 nBytesToDrop) })

/-- `session_enqueue_chain_tail`, in order: what a fifo is given that takes all of it. -/
def sessionEnqueueChainTail : Nat → Memory → Nat → Option (List U8)
  | 0, _, _ => none
  | fuel + 1, mem, chainBi =>
    match (mem chainBi).next? with
    | none => some (mem chainBi).bytes
    | some next =>
      if next = 0 then some (mem chainBi).bytes
      else (sessionEnqueueChainTail fuel mem next).map ((mem chainBi).bytes ++ ·)

/-- `session_enqueue_stream_connection`, in order. -/
def sessionEnqueueStreamConnection (fuel : Nat) (mem : Memory) (b : Nat) : Option (List U8) :=
  match (mem b).next? with
  | none => some (mem b).bytes
  | some next => (sessionEnqueueChainTail fuel mem next).map ((mem b).bytes ++ ·)

/-- A segment in a chain of buffers, none of them buffer 0, which is not in use. -/
structure Accounted (s : Received) (b : Nat) (c : List Nat) : Prop where
  chain : IsChain s.buffer (b :: c)
  nodup : (b :: c).Nodup
  used : 0 ∉ c
  dataLen : (s.dataLen b).toNat = (content s.buffer (b :: c)).length
  total : (s.buffer b).totalLength.toNat = (c.map fun x => (s.buffer x).currentLength).sum

/-- A segment is left without its first `n` bytes, and that is what goes to the fifo. -/
structure Trims (fuel : Nat) (s s' : Received) (b : Nat) (c : List Nat) (n : Nat) : Prop where
  accounted : Accounted s' b c
  content_eq : content s'.buffer (b :: c) = (content s.buffer (b :: c)).drop n
  enqueued : sessionEnqueueStreamConnection fuel s'.buffer b = some (content s'.buffer (b :: c))

variable {mem : Memory} {b j n fuel : Nat} {c : List Nat} {s : Received}

theorem bytes_bufferAdvance {b : Buffer} (hn : n ≤ b.currentLength) :
    (bufferAdvance b n).bytes = b.bytes.drop n := by
  obtain ⟨k, hk⟩ := Nat.exists_eq_add_of_le hn
  have hlen : (window b.data b.currentData n).length = n := by rw [window, length_map, length_range]
  rw [Buffer.bytes, Buffer.bytes, hk, window_add, drop_left' hlen]
  simp only [bufferAdvance, hk, Nat.add_sub_cancel_left]

theorem content_cons : content mem (b :: c) = (mem b).bytes ++ content mem c := rfl

theorem chainTail_spec (hc : IsChain mem (b :: c)) (h0 : 0 ∉ c) :
    sessionEnqueueChainTail (c.length + fuel + 1) mem b = some (content mem (b :: c)) := by
  induction c generalizing b with
  | nil =>
    have hnext : (mem b).next? = none := hc
    rw [sessionEnqueueChainTail, hnext]
    exact congrArg some (append_nil _).symm
  | cons j c ih =>
    have hnext : (mem b).next? = some j := hc.1
    rw [mem_cons, not_or] at h0
    rw [sessionEnqueueChainTail, hnext]
    simp only
    rw [if_neg (Ne.symm h0.1), length_cons, Nat.add_right_comm, ih hc.2 h0.2]
    rfl

theorem enqueue_spec (hc : IsChain mem (b :: c)) (h0 : 0 ∉ c) (hfuel : c.length ≤ fuel) :
    sessionEnqueueStreamConnection fuel mem b = some (content mem (b :: c)) := by
  unfold sessionEnqueueStreamConnection
  cases c with
  | nil =>
    have hnext : (mem b).next? = none := hc
    rw [hnext]
    exact congrArg some (append_nil _).symm
  | cons j c =>
    have hnext : (mem b).next? = some j := hc.1
    obtain ⟨fuel, rfl⟩ := Nat.exists_eq_add_of_le hfuel
    rw [length_cons, Nat.add_right_comm, hnext]
    simp only
    rw [chainTail_spec hc.2 fun h => h0 (mem_cons_of_mem j h)]
    rfl

theorem discardLoop_dropped {r : Memory × Nat × Nat} (h : discardLoop fuel mem b n = some r) : r.2.2 = 0 := by
  induction fuel generalizing mem b n with
  | zero => cases h
  | succ fuel ih =>
    simp only [discardLoop] at h
    split at h
    · exact ih h
    · rename_i hz
      cases h
      exact not_not.mp hz

theorem Accounted.advance (h : Accounted s b c) (hn : n ≤ (s.buffer b).currentLength) (hfuel : c.length ≤ fuel) :
    Trims fuel s ⟨update s.buffer b (bufferAdvance (s.buffer b) n),
      update s.dataLen b (s.dataLen b - BitVec.ofNat 16 n)⟩ b c n := by
  have hself := update_self b (bufferAdvance (s.buffer b) n) s.buffer
  have hrest : ∀ x ∈ c, update s.buffer b (bufferAdvance (s.buffer b) n) x = s.buffer x := by
    intro x hx
    refine update_of_ne ?_ _ _
    rintro rfl
    exact (nodup_cons.mp h.nodup).1 hx
  generalize update s.buffer b (bufferAdvance (s.buffer b) n) = mem' at hself hrest
  have hlen : (s.buffer b).bytes.length = (s.buffer b).currentLength := by
    rw [Buffer.bytes, window, length_map, length_range]
  have hdata := h.dataLen
  rw [content_cons, length_append] at hdata
  have hcontent : content mem' (b :: c) = (content s.buffer (b :: c)).drop n := by
    rw [content_cons, content_cons, drop_append_of_le_length (by omega), hself, bytes_bufferAdvance hn]
    exact congrArg _ (flatMap_congr fun x hx => by rw [hrest x hx])
  have hchain : IsChain mem' (b :: c) := by
    refine h.chain.congr fun x hx => ?_
    rcases mem_cons.mp hx with rfl | hx
    · rw [hself]
      rfl
    · rw [hrest x hx]
  refine ⟨⟨hchain, h.nodup, h.used, ?_, ?_⟩, hcontent, enqueue_spec hchain h.used hfuel⟩
  · simp only [update_self]
    rw [hcontent, length_drop, ← h.dataLen, BitVec.toNat_sub, BitVec.toNat_ofNat]
    omega
  · simp only [hself]
    rw [map_congr_left fun x hx => by rw [hrest x hx]]
    exact h.total

/-- **Trimming** is right just if the bytes to drop are all in the first buffer. -/
theorem discard_trims_iff (h : Accounted s b c) (hn : n < (s.dataLen b).toNat) (hfuel : c.length ≤ fuel) :
    (∃ s', tcpBufferDiscardBytes fuel s b n = some (0, s') ∧ Trims fuel s s' b c n) ↔
      n ≤ (s.buffer b).currentLength := by
  refine ⟨fun ⟨s', heq, ht⟩ => ?_, fun hle => ⟨_, if_neg (Nat.not_lt.mpr hle), h.advance hle hfuel⟩⟩
  by_contra hgt
  simp only [tcpBufferDiscardBytes, if_pos (Nat.not_le.mp hgt)] at heq
  split at heq
  · obtain ⟨⟨mem', b', k⟩, hloop, hs⟩ := Option.map_eq_some_iff.mp heq
    obtain rfl : k = 0 := discardLoop_dropped hloop
    -- nothing is left to drop when `data_len` is set
    have hsame : s'.dataLen = s.dataLen := by
      rw [← (Prod.mk.inj hs).2]
      rw [BitVec.sub_zero, Function.update_eq_self]
    have hlen := ht.accounted.dataLen
    rw [hsame, ht.content_eq, length_drop, ← h.dataLen] at hlen
    omega
  · cases (Prod.mk.inj (Option.some.inj heq)).1

def twoBuffers : Received where
  buffer i := ⟨0, i, if i = 1 then nextPresent else 0, 1, 0, 2, [], 0, 2, [], fun j => BitVec.ofInt 8 j⟩
  dataLen _ := 3

theorem accounted_twoBuffers : Accounted twoBuffers 1 [2] :=
  ⟨⟨rfl, rfl⟩, by decide, by decide, by decide, by decide⟩

theorem discard_trims_one :
    ∃ s', tcpBufferDiscardBytes 1 twoBuffers 1 1 = some (0, s') ∧ Trims 1 twoBuffers s' 1 [2] 1 :=
  (discard_trims_iff accounted_twoBuffers (by decide) (by decide)).mpr (by decide)

/-- Two bytes are dropped and one is left, but `data_len` is 3 still, and the length of the buffers
behind the first 2. -/
theorem discard_two_unaccounted : Accounted twoBuffers 1 [2] ∧
    ((tcpBufferDiscardBytes 2 twoBuffers 1 2).map fun r =>
      (r.1, content r.2.buffer [1, 2], r.2.dataLen 1, (r.2.buffer 1).totalLength)) =
    some (0, [1], 3, 2) :=
  ⟨accounted_twoBuffers, by decide⟩

end Vpp.Tcp
