import Vpp.Lib.Bins
import Vpp.Lib.Run
import Vpp.Lib.Word

/-!
# Chunks of a fifo segment

The chunk allocator of `svm/fifo_segment.c`. A segment is memory that is handed out from the front,
carved into chunks of eleven sizes; each slice of the segment keeps a list of free chunks for every
size. A request is served from the list of its size, from a new batch carved for that list, from
several smaller chunks, from one larger one, or from a batch of the smallest size carved out of what
memory is left.

Counters are `u32` or `uword` as in the source and wrap where they do. Fifo headers, `num_chunks` and
the tags in the list heads are left out. `carved` is a history variable: every chunk created so far.
-/

namespace Vpp.Svm

open Vpp.Lib

/-- `svm_fifo_chunk_t`, at an offset of the segment. -/
structure FreeChunk where
  offset : Nat
  length : Nat
deriving DecidableEq, Repr

/-- `sizeof (svm_fifo_chunk_t)`. -/
def chunkHdrSize : Nat := 24

def fsChunkVecLen : Nat := 11

def minLog2FifoSize : Nat := 12

def minFifoSize : Nat := 4096

def allocBatchSize : Nat := 32

/-- `fifo_segment_slice_t`. -/
structure Slice where
  freeChunks : Nat → List FreeChunk
  nFlChunkBytes : Nat

/-- `fifo_segment_header_t`. -/
structure SegmentHeader where
  nCachedBytes : Nat
  byteIndex : Nat
  maxByteIndex : Nat
  carved : List FreeChunk

/-- A segment as the functions see it that work on one of its slices. -/
structure Fs where
  fsh : SegmentHeader
  fss : Slice

/-! ## Free lists -/

def maxLog2 (x : Nat) : Nat := if x > 2 ^ Nat.log2 x then Nat.log2 x + 1 else Nat.log2 x

def fsFreelistForSize (size : Nat) : Nat :=
  if size < minFifoSize then 0 else min (maxLog2 size - minLog2FifoSize) (fsChunkVecLen - 1)

def fsFreelistIndexToSize (flIndex : Nat) : Nat := 2 ^ (flIndex + minLog2FifoSize)

/-- `fss_chunk_free_list_push`. -/
def Slice.push (fss : Slice) (flIndex : Nat) (c : FreeChunk) : Slice :=
  { fss with freeChunks := Function.update fss.freeChunks flIndex (c :: fss.freeChunks flIndex) }

def Slice.setList (fss : Slice) (flIndex : Nat) (l : List FreeChunk) : Slice :=
  { fss with freeChunks := Function.update fss.freeChunks flIndex l }

/-- `fss_fl_chunk_bytes_sub` and `fsh_cached_bytes_sub`. -/
def Fs.bytesSub (fs : Fs) (n : Nat) : Fs :=
  ⟨{ fs.fsh with nCachedBytes := subW 64 fs.fsh.nCachedBytes n },
    { fs.fss with nFlChunkBytes := subW 64 fs.fss.nFlChunkBytes n }⟩

/-- `fss_fl_chunk_bytes_add` and `fsh_cached_bytes_add`. -/
def Fs.bytesAdd (fs : Fs) (n : Nat) : Fs :=
  ⟨{ fs.fsh with nCachedBytes := addW 64 fs.fsh.nCachedBytes n },
    { fs.fss with nFlChunkBytes := addW 64 fs.fss.nFlChunkBytes n }⟩

/-- The block at `free_list` in `fsh_try_alloc_chunk`: one chunk off a list. -/
def Fs.takeOne (fs : Fs) (flIndex : Nat) : Option (Fs × List FreeChunk) :=
  match fs.fss.freeChunks flIndex with
  | [] => none
  | c :: l =>
    some (({ fs with fss := fs.fss.setList flIndex l }).bytesSub (fsFreelistIndexToSize flIndex), [c])

/-! ## Several chunks -/

/-- The turns of the loop of `fs_try_alloc_multi_chunk` with one `fl_index`: chunks are taken while bytes are
wanted. Returns the rest of the list, the chunks taken (the last one first), `n_alloc` and `req_bytes`. -/
def takeWhileWanted (flSize : Nat) :
    List FreeChunk → List FreeChunk → Nat → Nat → List FreeChunk × List FreeChunk × Nat × Nat
  | [], first, nAlloc, req => ([], first, nAlloc, req)
  | c :: l, first, nAlloc, req =>
    if req = 0 then (c :: l, first, nAlloc, req)
    else takeWhileWanted flSize l (c :: first) (addW 32 nAlloc flSize) (req - min flSize req)

/-- The loop of `fs_try_alloc_multi_chunk`, from `fl_index` down. -/
def multiChunkLoop : Nat → Slice → List FreeChunk → Nat → Nat → Slice × List FreeChunk × Nat × Nat
  | flIndex, fss, first, nAlloc, req =>
    let r := takeWhileWanted (fsFreelistIndexToSize flIndex) (fss.freeChunks flIndex) first nAlloc req
    let fss := fss.setList flIndex r.1
    match flIndex with
    | 0 => (fss, r.2)
    | k + 1 => if r.2.2.2 = 0 then (fss, r.2) else multiChunkLoop k fss r.2.1 r.2.2.1 r.2.2.2

def Slice.pushAll (fss : Slice) (cs : List FreeChunk) : Slice :=
  cs.foldl (fun fss c => fss.push (fsFreelistForSize c.length) c) fss

/-- The last attempt of `fs_try_alloc_multi_chunk`: one chunk of the next larger size. -/
def takeLarger (fs : Fs) (dataBytes : Nat) : Fs × List FreeChunk :=
  let flIndex := fsFreelistForSize dataBytes + 1
  if flIndex < fsChunkVecLen then (fs.takeOne flIndex).getD (fs, []) else (fs, [])

def fsTryAllocMultiChunk (fs : Fs) (dataBytes : Nat) : Fs × List FreeChunk :=
  let r := multiChunkLoop (fsFreelistForSize dataBytes - 1) fs.fss [] 0 dataBytes
  if r.2.2.2 = 0 then (({ fs with fss := r.1 }).bytesSub r.2.2.1, r.2.1)
  else takeLarger { fs with fss := r.1.pushAll r.2.1 } dataBytes

/-! ## New chunks -/

/-- `round_pow2_u64 (x, 8)`. -/
def roundPow2 (x : Nat) : Nat := (x + 7) / 8 * 8

/-- The chunks carved from `pos` on, in order. -/
def carve (pos dataSize batch : Nat) : List FreeChunk :=
  (List.range batch).map fun i => ⟨pos + i * (chunkHdrSize + dataSize), dataSize⟩

/-- `fsh_try_alloc_chunk_batch`. The chunk carved last is the new head of the list; with a batch of
zero there is none and the list ends there. -/
def fshTryAllocChunkBatch (fs : Fs) (flIndex batch : Nat) : Option Fs :=
  let dataSize := fsFreelistIndexToSize flIndex
  let pos := roundPow2 fs.fsh.byteIndex
  let newPos := pos + roundPow2 ((chunkHdrSize + dataSize) * batch)
  if newPos ≥ fs.fsh.maxByteIndex then none
  else
    let cs := carve pos dataSize batch
    let l := if batch = 0 then [] else cs.reverse ++ fs.fss.freeChunks flIndex
    some (Fs.bytesAdd ⟨{ fs.fsh with byteIndex := newPos, carved := cs ++ fs.fsh.carved },
      fs.fss.setList flIndex l⟩ (batch * dataSize))

def fshNFreeBytes (fsh : SegmentHeader) : Nat := fsh.maxByteIndex - fsh.byteIndex

/-- The first attempt of `fsh_try_alloc_chunk` on an empty list: a batch for that list. -/
def refill (fs : Fs) (flIndex nFree : Nat) : Option Fs :=
  let chunkSize := fsFreelistIndexToSize flIndex
  if chunkSize ≤ nFree then
    fshTryAllocChunkBatch fs flIndex
      (if wrap 32 (chunkSize * allocBatchSize) ≤ nFree then allocBatchSize else 1)
  else none

/-- The last attempt of `fsh_try_alloc_chunk`: what is missing, in chunks of the smallest size. -/
def lastAttempt (fs : Fs) (dataBytes nFree : Nat) : Fs × List FreeChunk :=
  if dataBytes ≤ fs.fss.nFlChunkBytes + nFree then
    if nFree < minFifoSize then (fs, [])
    else
      let batch := wrap 32 (subW 64 dataBytes fs.fss.nFlChunkBytes / minFifoSize)
      match fshTryAllocChunkBatch fs 0 (min (addW 32 batch 1) (nFree / minFifoSize)) with
      | none => (fs, [])
      | some fs' => fsTryAllocMultiChunk fs' dataBytes
  else (fs, [])

/-- The attempts of `fsh_try_alloc_chunk` after the first. -/
def fallBack (fs : Fs) (dataBytes nFree : Nat) : Fs × List FreeChunk :=
  if dataBytes ≤ fs.fss.nFlChunkBytes then
    let r := fsTryAllocMultiChunk fs dataBytes
    if r.2 ≠ [] then r
    else
      let batch := wrap 32 (nFree / minFifoSize)
      if batch = 0 then (r.1, [])
      else match fshTryAllocChunkBatch r.1 0 batch with
        | none => (r.1, [])
        | some fs' => lastAttempt fs' dataBytes nFree
  else lastAttempt fs dataBytes nFree

/-- `fsh_try_alloc_chunk`: the chunks returned, linked in this order; none for NULL. -/
def fshTryAllocChunk (fs : Fs) (dataBytes : Nat) : Fs × List FreeChunk :=
  let flIndex := fsFreelistForSize dataBytes
  match fs.takeOne flIndex with
  | some r => r
  | none =>
    match refill fs flIndex (fshNFreeBytes fs.fsh) with
    -- back to `free_list`, which has just been filled
    | some fs' => (fs'.takeOne flIndex).getD (fs', [])
    | none => fallBack fs dataBytes (fshNFreeBytes fs.fsh)

/-- The loop of `fsh_slice_collect_chunks`, with `n_collect`. -/
def collectLoop : List FreeChunk → Slice → Nat → Slice × Nat
  | [], fss, nCollect => (fss, nCollect)
  | c :: cs, fss, nCollect =>
    let flIndex := fsFreelistForSize c.length
    collectLoop cs (fss.push flIndex c) (addW 32 nCollect (fsFreelistIndexToSize flIndex))

def fshSliceCollectChunks (fs : Fs) (cs : List FreeChunk) : Fs :=
  let r := collectLoop cs fs.fss 0
  ({ fs with fss := r.1 } : Fs).bytesAdd r.2

end Vpp.Svm
