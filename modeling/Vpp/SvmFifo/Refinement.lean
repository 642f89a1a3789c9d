import Vpp.SvmFifo.Produce
import Vpp.SvmFifo.Consume

/-!
# A fifo is a byte stream

Every operation on a fifo that carries a stream does to the stream what `Stream.Step` says, so a run
of operations from a fresh fifo is a run of the stream. The bytes read are the bytes written, the
return values say how far head and tail moved, and the out-of-order segments are the parts of the
stream written past the tail.
-/

namespace Vpp.SvmFifo

open Lib Lib.Blocks
open List hiding after

/-- What an operation needs of its arguments and of the chunk allocator: where nothing is written, there is a
tail chunk all the same. In-order dequeues are not combined with peeks that use the lookup tree. -/
def Allowed (f : Fifo) : Op → Prop
  | .enqueue answer len _ =>
    (∀ cs ∈ answer, GoodAnswer f.chunks (f.allocSize (minW f.fFreeCount len)) cs) ∧
      (len = 0 → f.tailChunk ≠ none)
  | .enqueueSegments answer segs allowPartial =>
    (∀ cs ∈ answer, GoodAnswer f.chunks
      (f.allocSize (minW f.fFreeCount (segs.map Fifo.FifoSeg.len).sum)) cs) ∧
      gatherLen segs < 2 ^ 32 ∧ (allowPartial = false → ∀ s ∈ segs.getLast?, s.len = 0 →
        f.tail + (segs.map Fifo.FifoSeg.len).sum ≠ f.segsEnd answer (segs.map Fifo.FifoSeg.len).sum)
  | .enqueueWithOffset answer offset len _ =>
    (∀ cs ∈ answer, GoodAnswer f.chunks (f.allocSize (offset + len)) cs) ∧
      0 < offset.toNat ∧ 0 < len.toNat ∧ offset.toNat + len.toNat < 2 ^ 32
  | .dequeue _ => f.oooDeqLookup.nodes = []
  | .peek offset _ => offset.toNat < (fCursize f.head f.tail).toNat
  | .dequeueDrop _ => True

def Carries (f : Fifo) (s : Stream) : Prop := ∃ base l enq deq, Rep f s base l enq deq

/-- The stream answers an operation; a fault is no answer. -/
def Stream.Answers (size : Nat) (s : Stream) (op : Op) (out : Option Out) (s' : Stream) : Prop :=
  ∃ o, out = some o ∧ s.Step size op o s'

section Step

variable {f : Fifo} {s : Stream} {op : Op}

theorem step_of_exec (f' : Fifo) (out : Out) (h : exec f op = some (f', out)) :
    step f op = (f', some out) := by
  rw [step, h]

/-- **One operation.** It does not fault, and does to the stream what it should. -/
theorem step_carries (h : Carries f s) (hop : Allowed f op) :
    ∃ s', s.Answers f.size.toNat op (step f op).2 s' ∧ Carries (step f op).1 s' ∧
      (step f op).1.size = f.size := by
  obtain ⟨base, l, enq, deq, h⟩ := h
  cases op with
  | enqueue answer len src =>
    obtain ⟨f', ret, s', l', enq', hres, hstep, hrep, hkept, -⟩ :=
      h.svmFifoEnqueue src hop.1 hop.2
    rw [step_of_exec f' ⟨ret, []⟩ (by rw [exec, hres]; rfl)]
    exact ⟨s', ⟨_, rfl, hstep⟩, ⟨base, l', enq', deq, hrep⟩, hkept.size⟩
  | enqueueSegments answer segs allowPartial =>
    obtain ⟨f', ret, s', l', enq', hres, hstep, hrep, hkept, -⟩ :=
      h.svmFifoEnqueueSegments hop.1 hop.2.1 hop.2.2
    rw [step_of_exec f' ⟨ret, []⟩ (by rw [exec, hres]; rfl)]
    exact ⟨s', ⟨_, rfl, hstep⟩, ⟨base, l', enq', deq, hrep⟩, hkept.size⟩
  | enqueueWithOffset answer offset len src =>
    obtain ⟨hans, hoffset, hlen, hlt⟩ := hop
    obtain ⟨f', ret, s', l', enq', hres, hstep, hrep, hkept, -⟩ :=
      h.svmFifoEnqueueWithOffset src hans hoffset hlen hlt
    rw [step_of_exec f' ⟨ret, []⟩ (by rw [exec, hres]; rfl)]
    exact ⟨s', ⟨_, rfl, hstep⟩, ⟨base, l', enq', deq, hrep⟩, hkept.size⟩
  | dequeue len =>
    have hdeq : deq = [] := map_eq_nil_iff.mp (h.deq_registers.nodes.symm.trans hop)
    subst hdeq
    obtain ⟨f', ret, bytes, s', base', deq', hres, hstep, hrep, hdr⟩ := h.svmFifoDequeue len
    rw [step_of_exec f' ⟨ret, bytes⟩ (by rw [exec, hres]; rfl)]
    exact ⟨s', ⟨_, rfl, hstep⟩, ⟨base', l, enq, deq', hrep⟩, hdr.size⟩
  | peek offset len =>
    have htail := h.tail_le
    have hdef : s.cursize = s.tail - s.head := rfl
    have hoffset : offset.toNat < s.cursize := h.toNat_cursize ▸ hop
    obtain ⟨f', ret, bytes, deq', hres, -, -, hstep, hrep, -, -, -, hsize, -⟩ :=
      h.svmFifoPeek len (le_of_lt hoffset) (by omega)
    rw [step_of_exec f' ⟨ret, bytes⟩ (by rw [exec, hres]; rfl)]
    exact ⟨s, ⟨_, rfl, hstep⟩, ⟨base, l, enq, deq', hrep⟩, hsize⟩
  | dequeueDrop len =>
    obtain ⟨f', ret, s', base', deq', hres, hstep, hrep, hdr⟩ :=
      h.svmFifoDequeueDrop len
    rw [step_of_exec f' ⟨ret, []⟩ (by rw [exec, hres]; rfl)]
    exact ⟨s', ⟨_, rfl, hstep⟩, ⟨base', l, enq, deq', hrep⟩, hdr.size⟩

end Step

/-- What `svm_fifo_init` is given: a size positions can tell apart, and a list of non-empty chunks,
none twice. -/
structure Fresh (size : BitVec 32) (cs : List NewChunk) : Prop where
  size_lt : size.toNat < 2 ^ 31
  ne : cs ≠ []
  pos : ∀ c ∈ cs, 0 < c.2.toNat
  nodup : (cs.map Prod.fst).Nodup
  lt : (cs.map fun c => c.2.toNat).sum < 2 ^ 31

theorem rep_init {size : BitVec 32} {cs : List NewChunk} (h : Fresh size cs) (mem : Memory)
    (enqLookup deqLookup : Bool) :
    Rep (svmFifoInit size cs mem enqLookup deqLookup) Stream.empty 0 [] [] [] := by
  obtain ⟨hlaid, haddr, htotal⟩ := layOut_spec 0 cs h.pos
  have hne : layOut (wrap32 0) cs ≠ [] := fun hnil => by
    rw [hnil] at haddr
    exact h.ne (map_eq_nil_iff.mp haddr.symm)
  have hptr : fCsptr (layOut (wrap32 0) cs) = ptr 0 (layOut (wrap32 0) cs) 0 := by
    obtain ⟨c, rest, hcs⟩ := exists_cons_of_ne_nil hne
    rw [hcs] at hlaid ⊢
    have hpos := hlaid.2.1
    rw [ptr, seek, if_pos (by omega)]
  exact
    { layout := ⟨hlaid, htotal ▸ h.lt, haddr ▸ h.nodup, hne⟩
      size_lt := h.size_lt
      base_le := le_refl 0
      head_le := le_refl 0
      tail_le := Nat.zero_le _
      room := Nat.zero_le _
      head_eq := rfl
      tail_eq := rfl
      headChunk := .inr hptr
      tailChunk := hptr
      pending := Pending.empty ..
      pending_le := by rintro _ ⟨⟩
      oooEnq := .inl rfl
      oooDeq := .inl rfl
      enq_registers := Registers.empty ..
      enq_prefix := nil_prefix
      enq_le := by rintro _ _ _ _ ⟨⟩
      deq_registers := Registers.empty ..
      deq_prefix := nil_prefix
      written_lt := fun _ hp => absurd hp (Nat.not_lt_zero _)
      written_iff := fun p _ => ⟨fun h => absurd rfl h, fun h => absurd h (covered_nil p)⟩
      data := by rintro _ _ _ ⟨⟩ }

section Run

variable {size : BitVec 32} {cs : List NewChunk}

theorem run_carries (h : Fresh size cs) (mem : Memory) (enqLookup deqLookup : Bool) {ops : List Op}
    (hops : Along step Allowed (svmFifoInit size cs mem enqLookup deqLookup) ops) :
    ∃ s, Behaves (Stream.Answers size.toNat) Stream.empty ops
        (outputs step (svmFifoInit size cs mem enqLookup deqLookup) ops) s ∧
      Carries (after step (svmFifoInit size cs mem enqLookup deqLookup) ops) s ∧
      (after step (svmFifoInit size cs mem enqLookup deqLookup) ops).size = size := by
  refine hops.simulates (fun f s => Carries f s ∧ f.size = size) ?_
    ⟨⟨0, [], [], [], rep_init h mem enqLookup deqLookup⟩, rfl⟩
  rintro f s op ⟨hcarries, rfl⟩ hop
  exact step_carries hcarries hop

/-- **The fifo is a byte stream.** Whatever the operations of a run from a fresh fifo, they answer as the
stream does: a read gives what was last written there, the tail moves over written positions only, and the
return values are the distances moved. Head and tail are those of the stream modulo 2^32. -/
theorem fifo_refines_stream (h : Fresh size cs) (mem : Memory) (enqLookup deqLookup : Bool)
    (ops : List Op) (hops : Along step Allowed (svmFifoInit size cs mem enqLookup deqLookup) ops) :
    ∃ s, Behaves (Stream.Answers size.toNat) Stream.empty ops
        (outputs step (svmFifoInit size cs mem enqLookup deqLookup) ops) s ∧
      (after step (svmFifoInit size cs mem enqLookup deqLookup) ops).head = wrap32 s.head ∧
      (after step (svmFifoInit size cs mem enqLookup deqLookup) ops).tail = wrap32 s.tail ∧
      s.head ≤ s.tail ∧ s.tail ≤ s.head + size.toNat ∧ ∀ p, p < s.tail → s.written p ≠ none := by
  obtain ⟨s, hbeh, ⟨base, l, enq, deq, hrep⟩, hsize⟩ := run_carries h mem enqLookup deqLookup hops
  exact ⟨s, hbeh, hrep.head_eq, hrep.tail_eq, hrep.head_le, hsize ▸ hrep.room, hrep.written_lt⟩

/-- Three bytes in, two out. -/
theorem fifo_refines_stream_three :
    ∃ s, Behaves (Stream.Answers 64) Stream.empty
        [.enqueue none 3 fun i => UInt8.ofNat (i + 7), .dequeue 2]
        [some ⟨3, []⟩, some ⟨2, [7, 8]⟩] s ∧ 2 = wrap32 s.head ∧ 3 = wrap32 s.tail := by
  have hfresh : Fresh 64 [(1, 16)] := ⟨by decide, by decide, by decide, by decide, by decide⟩
  obtain ⟨s, hbeh, hhead, htail, -⟩ := fifo_refines_stream hfresh (fun _ _ => 0) false
    false [.enqueue none 3 fun i => UInt8.ofNat (i + 7), .dequeue 2]
    ⟨⟨fun _ h => (nomatch h), fun h => absurd h (by decide)⟩, rfl, trivial⟩
  exact ⟨s, hbeh, hhead, htail⟩

/-- Two runs outside the conditions. With nothing to write and the chunks filled up to the tail, the
missing tail chunk is followed; and with 2^31 bytes free the test for growth is blind to a write of
that length. -/
theorem missing_tail_chunk :
    outputs step (svmFifoInit 8192 [(1, 4096)] (fun _ _ => 0) false false)
        [.enqueue none 4096 fun _ => 0, .enqueue none 0 fun _ => 0] = [some ⟨4096, []⟩, none] ∧
      outputs step (svmFifoInit (2 ^ 31) [(1, 4096)] (fun _ _ => 0) false false)
        [.enqueue none 4096 fun _ => 0, .dequeueDrop 4096,
          .enqueue (some [(2, 2 ^ 31)]) (2 ^ 31) fun _ => 0] =
        [some ⟨4096, []⟩, some ⟨4096, []⟩, none] := by
  decide +kernel

/-- **The out-of-order list.** After any run it is well linked and holds every element of its pool, in
increasing order with gaps, from after the tail to the end of the free space; its segments are exactly the
positions written past the tail. -/
theorem ooo_segments_written (h : Fresh size cs) (mem : Memory) (enqLookup deqLookup : Bool)
    (ops : List Op) (hops : Along step Allowed (svmFifoInit size cs mem enqLookup deqLookup) ops) :
    ∃ s l, Behaves (Stream.Answers size.toNat) Stream.empty ops
        (outputs step (svmFifoInit size cs mem enqLookup deqLookup) ops) s ∧
      (after step (svmFifoInit size cs mem enqLookup deqLookup) ops).tail = wrap32 s.tail ∧
      Chained (after step (svmFifoInit size cs mem enqLookup deqLookup) ops).ooo.pool
        (after step (svmFifoInit size cs mem enqLookup deqLookup) ops).ooo.head (segs l) ∧
      Apart l ∧
      (∀ x ∈ l, s.tail < x.2.lo ∧ x.2.hi ≤ s.tail + s.free size.toNat) ∧
      ∀ p, Occupied l p ↔ s.tail ≤ p ∧ s.written p ≠ none := by
  obtain ⟨s, hbeh, ⟨base, l, enq, deq, hrep⟩, hsize⟩ := run_carries h mem enqLookup deqLookup hops
  refine ⟨s, l, hbeh, hrep.tail_eq, hrep.pending.chained, hrep.pending.apart, fun x hx => ?_,
    fun p => ⟨fun hocc => ?_, fun ⟨hle, hw⟩ => (hrep.written_iff p hle).mp hw⟩⟩
  · have hwithin := hrep.pending.within x hx
    have hroom := hrep.room
    rw [hsize] at hwithin hroom
    rw [Stream.free]
    exact ⟨hrep.pending.after x hx, by omega⟩
  · obtain ⟨x, hx, hle, -⟩ := occupied_iff.mp hocc
    have hafter := hrep.pending.after x hx
    have hle : s.tail ≤ p := by omega
    exact ⟨hle, (hrep.written_iff p hle).mpr hocc⟩

/-- A segment two past the tail, in a list of its own. -/
theorem ooo_segments_written_one :
    ∃ (s : Stream) (l : List (Nat × Span)),
      Behaves (Stream.Answers 64) Stream.empty [.enqueueWithOffset none 2 3 fun _ => 5]
        [some ⟨0, []⟩] s ∧ 0 = wrap32 s.tail ∧ Apart l ∧
      ∀ p, Occupied l p ↔ s.tail ≤ p ∧ s.written p ≠ none := by
  have hfresh : Fresh 64 [(1, 16)] := ⟨by decide, by decide, by decide, by decide, by decide⟩
  obtain ⟨s, l, hbeh, htail, -, hapart, -, hocc⟩ := ooo_segments_written hfresh (fun _ _ => 0) false
    false [.enqueueWithOffset none 2 3 fun _ => 5]
    ⟨⟨fun _ h => (nomatch h), by decide, by decide, by decide⟩, trivial⟩
  exact ⟨s, l, hbeh, htail, hapart, hocc⟩

/-- A run outside the conditions. The chunks reach 2^31 positions past the tail, so the end of the list seems
to lie before it; an enqueue of one byte then moves the tail past a segment that stays. -/
theorem tail_past_segment :
    let f := after step (svmFifoInit (2 ^ 31) [(1, 4096)] (fun _ _ => 0) false false)
      [.enqueueWithOffset (some [(2, 2 ^ 31)]) 1 (2 ^ 31 - 1) fun _ => 0,
        .enqueue none 1 fun _ => 0]
    f.tail = 2 ^ 31 + 4096 ∧ f.ooo.head = some 0 ∧
      (f.ooo.pool.elts 0).map Node.val = some ⟨1, 2 ^ 31 - 1⟩ := by
  decide +kernel

end Run

/-! ## Peeks at the tail -/

/-- A chunk of the list holds the position `offset` past the head. -/
def Fifo.Holds (f : Fifo) (offset : BitVec 32) : Prop :=
  ∃ c ∈ f.chunks, c.fChunkIncludesPos (f.head + offset) = true

/-- `svm_fifo_peek` reads from the chunk that holds the position, to the end, and returns how much is
there, up to `len`. -/
def Fifo.PeeksInside (f : Fifo) (offset len : BitVec 32) : Prop :=
  ∃ rt d c f' bytes, f.oooDeqChunk (f.head + offset) (f.peekLen offset len) = some (rt, d) ∧
    (fCptr f.chunks d).head? = some c ∧ c.fChunkIncludesPos (f.head + offset) = true ∧
    f.svmFifoPeek offset len = some (f', (f.peekLen offset len).toInt, bytes)

/-- The same, with peeks up to the tail where a chunk holds it. -/
def PeekAllowed (f : Fifo) : Op → Prop
  | .peek offset _ => offset ≤ fCursize f.head f.tail → f.Holds offset
  | op => Allowed f op

section Peek

variable {f : Fifo} {s : Stream} {base : Nat} {l : List (Nat × Span)} {enq deq : List Chunk}
  {offset : BitVec 32}

theorem Rep.find?_chunk (h : Rep f s base l enq deq) (ho : offset.toNat ≤ s.cursize) :
    f.chunks.find? (·.fChunkIncludesPos (f.head + offset)) =
      (seek Chunk.len base f.chunks (s.head + offset.toNat)).head? := by
  have hbase := h.base_le
  have htail := h.tail_le
  have hle := h.head_le
  have hlt := h.layout.lt
  have hdef : s.cursize = s.tail - s.head := rfl
  have hpos : f.head + offset = wrap32 (s.head + offset.toNat) := by
    rw [h.head_eq, ← wrap32_add, wrap32_toNat]
  rw [hpos]
  exact find?_includesPos h.layout.laid (by omega) (by omega) hlt

theorem Rep.holds_iff (h : Rep f s base l enq deq) (ho : offset.toNat ≤ s.cursize) :
    f.Holds offset ↔ s.head + offset.toNat < base + total Chunk.len f.chunks := by
  rw [Fifo.Holds, ← find?_isSome, h.find?_chunk ho]
  refine ⟨fun hsome => Nat.lt_of_not_le fun hle => ?_, fun hlt => ?_⟩
  · rw [seek_eq_nil hle] at hsome
    exact Bool.false_ne_true hsome
  · rw [Option.isSome_iff_ne_none]
    exact fun hnone => ptr_ne_none (Nat.le_add_right_of_le h.base_le) hlt (by rw [ptr, fCsptr, hnone]; rfl)

theorem carries_of_peekAllowed {op : Op} (h : Carries f s) (hop : PeekAllowed f op) :
    ∃ s', Carries (step f op).1 s' := by
  cases op with
  | peek offset len =>
    obtain ⟨base, l, enq, deq, h⟩ := h
    by_cases ho : offset ≤ fCursize f.head f.tail
    · have hoff : offset.toNat ≤ s.cursize := h.toNat_cursize ▸ ho
      obtain ⟨f', ret, bytes, deq', hres, -, -, -, hrep, -⟩ :=
        h.svmFifoPeek len hoff ((h.holds_iff hoff).mp (hop ho))
      rw [step_of_exec f' ⟨ret, bytes⟩ (by rw [exec, hres]; rfl)]
      exact ⟨s, base, l, enq, deq', hrep⟩
    · rw [step_of_exec f ⟨svmFifoEempty, []⟩ (by
        rw [exec, Fifo.svmFifoPeek, if_pos (BitVec.not_le.mp ho)]; rfl)]
      exact ⟨s, base, l, enq, deq, h⟩
  | _ =>
    refine (step_carries h ?_).imp fun _ h => h.2.1
    exact hop

end Peek

/-- **Peeks read inside the chunks** exactly where a chunk holds the position: everywhere in front of the
tail, and at the tail unless it is the end of the chunk list. -/
theorem peek_inside_iff {size : BitVec 32} {cs : List NewChunk} (h : Fresh size cs) (mem : Memory)
    (enqLookup deqLookup : Bool) (ops : List Op)
    (hops : Along step PeekAllowed (svmFifoInit size cs mem enqLookup deqLookup) ops) {f : Fifo}
    (hf : f = after step (svmFifoInit size cs mem enqLookup deqLookup) ops) {offset : BitVec 32}
    (ho : offset ≤ fCursize f.head f.tail) (len : BitVec 32) :
    (f.PeeksInside offset len ↔ f.Holds offset) ∧
      (offset < fCursize f.head f.tail → f.Holds offset) := by
  obtain ⟨⟨s, base, l, enq, deq, hrep⟩, -⟩ := hops.invariant (fun f => ∃ s, Carries f s)
    (fun _ => True) (fun f op ⟨s, hs⟩ hop => ⟨carries_of_peekAllowed hs hop, trivial⟩)
    ⟨_, 0, [], [], [], rep_init h mem enqLookup deqLookup⟩
  rw [← hf] at hrep
  have hoff : offset.toNat ≤ s.cursize := hrep.toNat_cursize ▸ ho
  have hfind := hrep.find?_chunk hoff
  refine ⟨⟨?_, fun hholds => ?_⟩, fun hlt => ?_⟩
  · rintro ⟨rt, d, c, f', bytes, -, hc, hinc, -⟩
    refine ⟨c, ?_, hinc⟩
    cases d with
    | none => cases hc
    | some a => exact (dropWhile_suffix _).subset (mem_of_head? hc)
  · obtain ⟨f', ret, bytes, deq', hres, rfl, hchunk, -⟩ :=
      hrep.svmFifoPeek len hoff ((hrep.holds_iff hoff).mp hholds)
    obtain ⟨⟨rt, d⟩, hlook, rfl⟩ := Option.map_eq_some_iff.mp hchunk
    obtain ⟨c, hc⟩ := Option.isSome_iff_exists.mp (find?_isSome.mpr hholds)
    refine ⟨rt, _, c, f', bytes, hlook, ?_, by simpa using find?_some hc, hres⟩
    rw [fCptr_ptr hrep.layout.nodup, ← hfind, hc]
  · have htail := hrep.tail_le
    have hsub : s.cursize = s.tail - s.head := rfl
    have hlt : offset.toNat < s.cursize := hrep.toNat_cursize ▸ hlt
    exact (hrep.holds_iff hoff).mpr (by omega)

/-- A peek at the tail, three bytes into a chunk of 16. -/
theorem peek_inside_iff_three :
    (after step (svmFifoInit 64 [(1, 16)] (fun _ _ => 0) false false)
      [.enqueue none 3 fun _ => 7, .peek 1 8]).PeeksInside 3 5 := by
  have hfresh : Fresh 64 [(1, 16)] := ⟨by decide, by decide, by decide, by decide, by decide⟩
  refine (peek_inside_iff hfresh _ _ _ _ ?_ rfl (by decide +kernel) 5).1.mpr ?_
  · exact ⟨⟨fun _ h => (nomatch h), fun h => absurd h (by decide)⟩,
      fun _ => ⟨_, mem_cons_self, by decide +kernel⟩, trivial⟩
  · exact ⟨_, mem_cons_self, by decide +kernel⟩

/-- A fifo that was filled to the end of its chunk and emptied: a peek at its head, which is its tail,
follows a null pointer. -/
theorem peek_past_chunks :
    outputs step (svmFifoInit 8192 [(1, 4096)] (fun _ _ => 0) false false)
      [.enqueue none 4096 fun _ => 0, .dequeueDrop 4096, .peek 0 1] =
      [some ⟨4096, []⟩, some ⟨4096, []⟩, none] := by
  decide +kernel

end Vpp.SvmFifo
