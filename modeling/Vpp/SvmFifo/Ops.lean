import Vpp.SvmFifo.Lookup
import Vpp.SvmFifo.OooSegments
import Vpp.Lib.Run
import Vpp.Lib.Word

/-!
# Fifo operations

The producer and consumer side of `svm_fifo.c` for one fifo: in-order and out-of-order enqueue,
dequeue, peek and drop, growth of the chunk list by allocation and unlinking of consumed chunks,
and the sanity check. What the chunk allocator answers is an input of the operations that may call
it; chunks given back to it leave the model. Tracing, notifications and subscribers are left out.

An operation answers `none` where the C would follow a null pointer or touch memory outside a
chunk; `step` then leaves the fifo alone.
-/

namespace Vpp.SvmFifo

open Lib Lib.Blocks

/-- `svm_fifo_t` and its shared header. The list holds the chunks from `start_chunk` to
`end_chunk`. -/
structure Fifo where
  size : BitVec 32
  minAlloc : BitVec 32
  chunks : List Chunk
  headChunk : Option Nat
  head : BitVec 32
  tailChunk : Option Nat
  tail : BitVec 32
  oooEnqLookup : Lookup
  oooDeqLookup : Lookup
  oooDeq : Option Nat
  oooEnq : Option Nat
  ooo : OooList
  mem : Memory

/-- The error codes of `svm_fifo_err_t` -/
def svmFifoEfull : Int := -2

@[inherit_doc svmFifoEfull] def svmFifoEempty : Int := -3

@[inherit_doc svmFifoEfull] def svmFifoEgrow : Int := -4

/-- `clib_max` -/
def clibMax (a b : BitVec 32) : BitVec 32 := if a > b then a else b

/-- `f_cursize` -/
def fCursize (head tail : BitVec 32) : BitVec 32 := tail - head

/-- Chunks as the allocator hands them out, by address and length. -/
abbrev NewChunk := Nat × BitVec 32

/-- Give each chunk of a list the start byte after the one before it. -/
def layOut : BitVec 32 → List NewChunk → List Chunk
  | _, [] => []
  | start, (addr, length) :: cs => ⟨addr, start, length⟩ :: layOut (start + length) cs

/-- `svm_fifo_init` over a chunk list, with `svm_fifo_init_ooo_lookup` called or not for the two
lookup trees. -/
def svmFifoInit (size : BitVec 32) (chunks : List NewChunk) (mem : Memory)
    (enqLookup deqLookup : Bool) : Fifo :=
  let chunks := layOut 0 chunks
  let minAlloc := if size > 32 <<< 10 then size >>> 3 else 4096
  { size
    minAlloc := minW minAlloc (64 <<< 10)
    chunks
    headChunk := fCsptr chunks
    head := 0
    tailChunk := fCsptr chunks
    tail := 0
    oooEnqLookup := Lookup.empty enqLookup
    oooDeqLookup := Lookup.empty deqLookup
    oooDeq := none
    oooEnq := none
    ooo := OooList.empty
    mem }

namespace Fifo

/-- `f_free_count` -/
def fFreeCount (f : Fifo) : BitVec 32 := f.size - fCursize f.head f.tail

/-- `f_chunk_end (f_end_cptr (f))` -/
def endPos (f : Fifo) : BitVec 32 := (f.chunks.getLast?.map Chunk.fChunkEnd).getD 0

/-- `f_chunk_end (f_start_cptr (f))` -/
def startEnd (f : Fifo) : BitVec 32 := (f.chunks.head?.map Chunk.fChunkEnd).getD 0

/-- How much `f_try_chunk_alloc` asks the allocator for. -/
def allocSize (f : Fifo) (len : BitVec 32) : BitVec 32 :=
  let freeAlloced := f.endPos - f.tail
  clibMax (minW f.minAlloc (f.size - (f.tail - f.head))) (len - freeAlloced)

/-- Link chunks in at the end; the first is the tail chunk if there was none. -/
def linkChunks (f : Fifo) (cs : List Chunk) : Fifo :=
  { f with
    chunks := f.chunks ++ cs
    oooEnqLookup := f.oooEnqLookup.reset cs
    oooDeqLookup := f.oooDeqLookup.reset cs
    tailChunk := f.tailChunk <|> fCsptr cs }

/-- `f_try_chunk_alloc` with the allocator's answer; `none` if it has no chunks. -/
def fTryChunkAlloc (f : Fifo) (answer : Option (List NewChunk)) : Option Fifo :=
  answer.map fun cs => f.linkChunks (layOut f.endPos cs)

/-- `svm_fifo_copy_to_chunk` at the tail chunk, which then follows the tail. -/
def copyToTail (f : Fifo) (tail : BitVec 32) (src : Nat → UInt8) (len : BitVec 32) :
    Option Fifo := do
  let (mem, last) ← svmFifoCopyToChunk f.mem (fCptr f.chunks f.tailChunk) tail src len
  some { f with mem, tailChunk := last.getD f.tailChunk }

/-- The end of `svm_fifo_enqueue` and `svm_fifo_enqueue_segments`: out-of-order segments are
collected and the tail is stored. -/
def finishEnqueue (f : Fifo) (oldTailC : Option Nat) (len tail : BitVec 32) :
    Option (Fifo × Int) :=
  if f.ooo.head = none then some ({ f with tail }, len.toInt)
  else do
    let (ooo, bytes) ← f.ooo.oooSegmentTryCollect len tail
    let tail := tail + bytes
    let (rt, tailC) := fLookupClearEnqChunks f.oooEnqLookup (fCptr f.chunks oldTailC) tail
      ooo.head.isNone
    some ({ f with
      ooo, tail
      oooEnqLookup := rt
      tailChunk := fCsptr tailC
      oooEnq := none }, (len + bytes).toInt)

/-- `f->ooos_newest = OOO_SEGMENT_INVALID_INDEX` -/
def resetNewest (f : Fifo) : Fifo := { f with ooo := { f.ooo with newest := none } }

/-- `svm_fifo_enqueue` once there are chunks for `len` bytes -/
def enqueueCopy (f : Fifo) (len : BitVec 32) (src : Nat → UInt8) : Option (Fifo × Int) := do
  let f' ← f.copyToTail f.tail src len
  f'.finishEnqueue f.tailChunk len (f.tail + len)

/-- `svm_fifo_enqueue` -/
def svmFifoEnqueue (f : Fifo) (answer : Option (List NewChunk)) (len : BitVec 32)
    (src : Nat → UInt8) : Option (Fifo × Int) :=
  let f := f.resetNewest
  let freeCount := f.fFreeCount
  if freeCount = 0 then some (f, svmFifoEfull)
  else
    let len := minW freeCount len
    if seqGt (f.tail + len) f.endPos then
      match f.fTryChunkAlloc answer with
      | some f => f.enqueueCopy len src
      | none =>
        let len := f.endPos - f.tail
        if len = 0 then some (f, svmFifoEgrow) else f.enqueueCopy len src
    else f.enqueueCopy len src

/-- The chunk out-of-order data is written to: the cached one if it holds `enq_pos`, or what
`f_update_ooo_enq` finds. -/
def oooEnqChunk (f : Fifo) (enqPos len : BitVec 32) : Option (Lookup × Option Nat) :=
  if (fCptr f.chunks f.oooEnq).head?.any (·.fChunkIncludesPos enqPos) then
    some (f.oooEnqLookup, f.oooEnq)
  else
    fUpdateOoo f.chunks (fCptr f.chunks f.tailChunk) f.oooEnqLookup f.oooEnq enqPos (enqPos + len)

/-- `svm_fifo_enqueue_with_offset` once there are chunks for the data -/
def offsetCopy (f : Fifo) (offset len : BitVec 32) (src : Nat → UInt8) : Option (Fifo × Int) := do
  let ooo ← f.ooo.oooSegmentAdd offset f.tail len
  let (rt, oooEnq) ← f.oooEnqChunk (f.tail + offset) len
  let (mem, last) ← svmFifoCopyToChunk f.mem (fCptr f.chunks oooEnq) (f.tail + offset) src len
  some ({ f with ooo, mem, oooEnqLookup := rt, oooEnq := last.getD oooEnq }, 0)

/-- `svm_fifo_enqueue_with_offset` -/
def svmFifoEnqueueWithOffset (f : Fifo) (answer : Option (List NewChunk)) (offset len : BitVec 32)
    (src : Nat → UInt8) : Option (Fifo × Int) :=
  let f := f.resetNewest
  if len + offset > f.fFreeCount then some (f, svmFifoEfull)
  else if seqGt (f.tail + offset + len) f.endPos then
    match f.fTryChunkAlloc answer with
    | some f => f.offsetCopy offset len src
    | none => some (f, svmFifoEgrow)
  else f.offsetCopy offset len src

/-- `svm_fifo_seg_t` -/
structure FifoSeg where
  len : BitVec 32
  data : Nat → UInt8

/-- The copy loop of `svm_fifo_enqueue_segments` without `allow_partial` -/
def copySegs : Fifo → BitVec 32 → List FifoSeg → Option (Fifo × BitVec 32)
  | f, tail, [] => some (f, tail)
  | f, tail, s :: segs => do
    let f ← f.copyToTail tail s.data s.len
    copySegs f (tail + s.len) segs

/-- The copy loop of `svm_fifo_enqueue_segments` with `allow_partial`; past the last segment it
would read outside the array. -/
def copySegsPartial : Fifo → BitVec 32 → BitVec 32 → List FifoSeg → Option (Fifo × BitVec 32)
  | f, tail, nLeft, [] => if nLeft = 0 then some (f, tail) else none
  | f, tail, nLeft, s :: segs =>
    if nLeft = 0 then some (f, tail)
    else do
      let toCopy := minW s.len nLeft
      let f ← f.copyToTail tail s.data toCopy
      copySegsPartial f (tail + toCopy) (nLeft - toCopy) segs

/-- `svm_fifo_enqueue_segments` without `allow_partial`, once there are chunks. The old tail chunk was loaded
before they were allocated. -/
def segsCopy (f : Fifo) (oldTailC : Option Nat) (len : BitVec 32) (segs : List FifoSeg) :
    Option (Fifo × Int) := do
  let (f, tail) ← copySegs f f.tail segs
  f.finishEnqueue oldTailC len tail

/-- The same with `allow_partial` -/
def segsCopyPartial (f : Fifo) (oldTailC : Option Nat) (nLeft : BitVec 32) (segs : List FifoSeg) :
    Option (Fifo × Int) := do
  let (f, tail) ← copySegsPartial f f.tail nLeft segs
  f.finishEnqueue oldTailC nLeft tail

/-- `svm_fifo_enqueue_segments` -/
def svmFifoEnqueueSegments (f : Fifo) (answer : Option (List NewChunk)) (segs : List FifoSeg)
    (allowPartial : Bool) : Option (Fifo × Int) :=
  let f := f.resetNewest
  let freeCount := f.fFreeCount
  if freeCount = 0 then some (f, svmFifoEfull)
  else
    let len := (segs.map FifoSeg.len).sum
    let oldTailC := f.tailChunk
    if allowPartial then
      let nLeft := minW freeCount len
      if seqGt (f.tail + nLeft) f.endPos then
        match f.fTryChunkAlloc answer with
        | some f => f.segsCopyPartial oldTailC nLeft segs
        | none =>
          let nLeft := f.endPos - f.tail
          if nLeft = 0 then some (f, svmFifoEgrow) else f.segsCopyPartial oldTailC nLeft segs
      else f.segsCopyPartial oldTailC nLeft segs
    else if freeCount < len then some (f, svmFifoEfull)
    else if seqGt (f.tail + len) f.endPos then
      match f.fTryChunkAlloc answer with
      | some f => f.segsCopy oldTailC len segs
      | none => some (f, svmFifoEgrow)
    else f.segsCopy oldTailC len segs

end Fifo

/-- The loop of `f_unlink_chunks`: the tree, and the chunks from `c` on. -/
def unlinkLoop (endPos : BitVec 32) (maybeOoo : Bool) : Lookup → List Chunk → Lookup × List Chunk
  | rt, [] => (rt, [])
  | rt, [c] => (if maybeOoo then rt.del c else rt, [c])
  | rt, c :: d :: cs =>
    let rt := if maybeOoo then rt.del c else rt
    if d.fChunkIncludesPos endPos then (rt, d :: cs) else unlinkLoop endPos maybeOoo rt (d :: cs)

namespace Fifo

/-- `f_unlink_chunks`; the chunks before the new start chunk go back to the allocator. -/
def fUnlinkChunks (f : Fifo) (endPos : BitVec 32) (maybeOoo : Bool) : Option Fifo := do
  let (rt, rest) := unlinkLoop endPos maybeOoo f.oooDeqLookup f.chunks
  let c ← rest.head?
  let oooDeq ←
    match f.oooDeq with
    | none => some none
    | some a =>
      if maybeOoo then do
        let d ← (fCptr f.chunks (some a)).head?
        some (if seqLt d.startByte c.fChunkEnd then none else some a)
      else some none
  some { f with chunks := rest, oooDeqLookup := rt, oooDeq }

/-- `svm_fifo_dequeue`: the fifo, the return value and the bytes at `dst` -/
def svmFifoDequeue (f : Fifo) (len : BitVec 32) : Option (Fifo × Int × List UInt8) :=
  let cursize := fCursize f.head f.tail
  if cursize = 0 then some (f, svmFifoEempty, [])
  else do
    let len := minW cursize len
    let headChunk := f.headChunk <|> (f.chunks.find? (·.fChunkIncludesPos f.head)).map Chunk.addr
    let (bytes, last) ← svmFifoCopyFromChunk f.mem (fCptr f.chunks headChunk) f.head len
    let f := { f with headChunk := last.getD headChunk }
    let head := f.head + len
    let f ← if seqGeq head f.startEnd then f.fUnlinkChunks head false else some f
    some ({ f with head }, len.toInt, bytes)

/-- The chunk data is peeked from: the cached one if it holds `head_idx`, or what
`f_update_ooo_deq` finds. -/
def oooDeqChunk (f : Fifo) (headIdx len : BitVec 32) : Option (Lookup × Option Nat) :=
  if (fCptr f.chunks f.oooDeq).head?.any (·.fChunkIncludesPos headIdx) then
    some (f.oooDeqLookup, f.oooDeq)
  else fUpdateOoo f.chunks f.chunks f.oooDeqLookup f.oooDeq headIdx (headIdx + len)

/-- `svm_fifo_peek` -/
def svmFifoPeek (f : Fifo) (offset len : BitVec 32) : Option (Fifo × Int × List UInt8) :=
  let cursize := fCursize f.head f.tail
  if cursize < offset then some (f, svmFifoEempty, [])
  else do
    let len := minW (cursize - offset) len
    let (rt, oooDeq) ← f.oooDeqChunk (f.head + offset) len
    let (bytes, last) ← svmFifoCopyFromChunk f.mem (fCptr f.chunks oooDeq) (f.head + offset) len
    some ({ f with oooDeqLookup := rt, oooDeq := last.getD oooDeq }, len.toInt, bytes)

/-- `svm_fifo_dequeue_drop` from the test on the start chunk on, without the store of the head -/
def dropChunks (f : Fifo) (head : BitVec 32) : Option Fifo :=
  if seqGeq head f.startEnd then do
    let f ← f.fUnlinkChunks head true
    let inStart := f.chunks.head?.any (·.fChunkIncludesPos head)
    some { f with headChunk := if inStart then fCsptr f.chunks else none }
  else some f

/-- `svm_fifo_dequeue_drop` -/
def svmFifoDequeueDrop (f : Fifo) (len : BitVec 32) : Option (Fifo × Int) :=
  let cursize := fCursize f.head f.tail
  if cursize = 0 then some (f, svmFifoEempty)
  else do
    let totalDropBytes := minW cursize len
    let head := f.head + totalDropBytes
    let f ← f.dropChunks head
    some ({ f with head }, totalDropBytes.toInt)

end Fifo

/-- The operations on a fifo. -/
inductive Op where
  | enqueue (answer : Option (List NewChunk)) (len : BitVec 32) (src : Nat → UInt8)
  | enqueueSegments (answer : Option (List NewChunk)) (segs : List Fifo.FifoSeg)
      (allowPartial : Bool)
  | enqueueWithOffset (answer : Option (List NewChunk)) (offset len : BitVec 32)
      (src : Nat → UInt8)
  | dequeue (len : BitVec 32)
  | peek (offset len : BitVec 32)
  | dequeueDrop (len : BitVec 32)

/-- What an operation gives its caller: the return value, and the bytes it copied out. -/
structure Out where
  ret : Int
  bytes : List UInt8
deriving DecidableEq, Repr

def exec (f : Fifo) : Op → Option (Fifo × Out)
  | .enqueue answer len src => (f.svmFifoEnqueue answer len src).map fun r => (r.1, ⟨r.2, []⟩)
  | .enqueueSegments answer segs allowPartial =>
    (f.svmFifoEnqueueSegments answer segs allowPartial).map fun r => (r.1, ⟨r.2, []⟩)
  | .enqueueWithOffset answer offset len src =>
    (f.svmFifoEnqueueWithOffset answer offset len src).map fun r => (r.1, ⟨r.2, []⟩)
  | .dequeue len => (f.svmFifoDequeue len).map fun r => (r.1, ⟨r.2.1, r.2.2⟩)
  | .peek offset len => (f.svmFifoPeek offset len).map fun r => (r.1, ⟨r.2.1, r.2.2⟩)
  | .dequeueDrop len => (f.svmFifoDequeueDrop len).map fun r => (r.1, ⟨r.2, []⟩)

/-- One operation as a step of a run: a fault leaves the fifo alone and gives nothing. -/
def step (f : Fifo) (op : Op) : Fifo × Option Out :=
  match exec f op with
  | some (f', out) => (f', some out)
  | none => (f, none)

end Vpp.SvmFifo
