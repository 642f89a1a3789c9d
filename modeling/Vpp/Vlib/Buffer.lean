import Vpp.Lib.Linked
import Vpp.Lib.Window

/-!
# Packet buffers

A packet is a chain of buffers, each with a header and data around a current position; the data before
position zero is the headroom. A buffer may be part of several chains, which its reference count of
eight bits counts. Freeing a chain drops a reference of each of its buffers and puts those that have
none left back into their pools, with the header of the pool's template.

`vlib_buffer_free_inline` gathers the buffers for a pool in a queue, and treats several at a time that
are single and not shared. How many buffers an allocation gets is up to the pools: `grants` has the
numbers for the allocations to come. A loop along a chain is given fuel, and `none` is a call that
does not return.
-/

namespace Vpp.Vlib

open Lib

abbrev U8 := BitVec 8
abbrev U32 := BitVec 32

/-- `vlib_buffer_t`. Generic flow, error and feature data, which nothing here reads, are left out. -/
structure Buffer where
  currentData : Int
  currentLength : Nat
  flags : U32
  refCount : U8
  bufferPoolIndex : U8
  nextBuffer : Nat
  opaqueData : List U32
  traceHandle : U32
  /-- `total_length_not_including_first_buffer` -/
  totalLength : U32
  opaqueData2 : List U32
  data : Int → U8

/-! ## Flags -/

def isTraced : U32 := 1#32 <<< 0
def nextPresent : U32 := 1#32 <<< 1
def totalLengthValid : U32 := 1#32 <<< 2
def flagsAll : U32 := 0x0f#32

namespace Buffer

def hasNext (b : Buffer) : Bool := b.flags.getLsbD 1

def next? (b : Buffer) : Option Nat := if b.hasNext then some b.nextBuffer else none

def bytes (b : Buffer) : List U8 := window b.data b.currentData b.currentLength

def copyTemplate (b : Buffer) (pool : U8) : Buffer :=
  { b with
    currentData := 0
    currentLength := 0
    flags := 0
    refCount := 1
    bufferPoolIndex := pool
    nextBuffer := 0
    opaqueData := List.replicate 10 0 }

end Buffer

abbrev Memory := Nat → Buffer

def IsChain (mem : Memory) (c : List Nat) : Prop := Links (fun i => (mem i).next?) c

def content (mem : Memory) (c : List Nat) : List U8 := c.flatMap fun i => (mem i).bytes

structure Vm where
  buffer : Memory
  /-- the buffers in a pool -/
  free : U8 → List Nat
  /-- the pool for the numa node -/
  numaPool : U8
  defaultDataSize : Nat
  grants : List Nat

namespace Vm

variable (vm : Vm)

def allocFromPool (n : Nat) (pool : U8) : List Nat × Vm :=
  let m := min n (vm.grants.headD 0)
  ((vm.free pool).take m,
    { vm with
      free := Function.update vm.free pool ((vm.free pool).drop m)
      grants := vm.grants.tail })

/-- `vlib_buffer_alloc`. -/
def alloc (n : Nat) : List Nat × Vm := vm.allocFromPool n vm.numaPool

def poolPut (pool : U8) (buffers : List Nat) : Vm :=
  { vm with free := Function.update vm.free pool (buffers ++ vm.free pool) }

def setBuffer (i : Nat) (b : Buffer) : Vm := { vm with buffer := Function.update vm.buffer i b }

end Vm

/-! ## Freeing -/

/-- The vector instructions that the code is built for. -/
inductive Simd where
  | vec512
  | vec128
  | scalar

def Simd.width : Simd → Nat
  | .vec512 => 8
  | _ => 4

def queueSize : Nat := 128

structure FreeState where
  vm : Vm
  bufferPoolIndex : U8
  queue : List Nat

namespace FreeState

variable (s : FreeState)

def flush : FreeState := { s with vm := s.vm.poolPut s.bufferPoolIndex s.queue, queue := [] }

def switchPool (pool : U8) : FreeState :=
  if s.bufferPoolIndex ≠ pool then
    { (if s.queue ≠ [] then s.flush else s) with bufferPoolIndex := pool }
  else s

/-- A reference is dropped; with the last one the buffer goes to the queue. -/
def dropRef (i : Nat) : FreeState :=
  let b := s.vm.buffer i
  if b.refCount - 1 = 0 then
    { s with
      vm := s.vm.setBuffer i (b.copyTemplate s.bufferPoolIndex)
      queue := s.queue ++ [i] }
  else { s with vm := s.vm.setBuffer i { b with refCount := b.refCount - 1 } }

/-- One buffer from the label `next_in_chain` on. -/
def freeOne (i : Nat) : FreeState :=
  let s' := (s.switchPool (s.vm.buffer i).bufferPoolIndex).dropRef i
  if s'.queue.length = queueSize then s'.flush else s'

/-- A chain, from the label `one_by_one` on. -/
def freeChain : Nat → FreeState → Nat → Option FreeState
  | 0, _, _ => none
  | fuel + 1, s, i =>
    match (s.vm.buffer i).next? with
    | none => some (s.freeOne i)
    | some j => freeChain fuel (s.freeOne i) j

/-- The check that several buffers are single, not shared and of the pool at hand. With vectors a count of
zero passes; else the check is on a sum. -/
def allSingle (simd : Simd) (is : List Nat) : Bool :=
  let bs := is.map s.vm.buffer
  match simd with
  | .scalar =>
    let flags := bs.foldl (fun r b => r ||| b.flags) 0 &&& nextPresent
    let sum := bs.foldl (fun r b => r + (b.refCount.setWidth 32 - 1)) flags
    bs.foldl (fun r b => r ||| (b.bufferPoolIndex ^^^ s.bufferPoolIndex).setWidth 32) sum == 0
  | _ =>
    bs.all fun b =>
      b.bufferPoolIndex == s.bufferPoolIndex && !b.hasNext && b.refCount &&& ~~~(1#8) == 0

def freeSingles (is : List Nat) : FreeState :=
  let s' : FreeState :=
    { s with
      vm := { s.vm with
        buffer := fun i =>
          if i ∈ is then (s.vm.buffer i).copyTemplate s.bufferPoolIndex else s.vm.buffer i }
      queue := s.queue ++ is }
  if queueSize ≤ s'.queue.length then s'.flush else s'

/-- The loop over the buffers, of which there are at most as many as the first argument says. -/
def freeLoop (simd : Simd) (fuel : Nat) : Nat → FreeState → List Nat → Option FreeState
  | _, s, [] => some s
  | 0, _, _ :: _ => none
  | n + 1, s, i :: is =>
    if simd.width ≤ (i :: is).length ∧ s.allSingle simd ((i :: is).take simd.width) = true then
      freeLoop simd fuel n (s.freeSingles ((i :: is).take simd.width)) ((i :: is).drop simd.width)
    else
      match freeChain fuel s i with
      | none => none
      | some s' => freeLoop simd fuel n s' is

end FreeState

def bufferFree (simd : Simd) (fuel : Nat) (vm : Vm) (buffers : List Nat) : Option Vm :=
  match buffers with
  | [] => some vm
  | i :: _ =>
    match FreeState.freeLoop simd fuel buffers.length ⟨vm, (vm.buffer i).bufferPoolIndex, []⟩ buffers with
    | none => none
    | some s => some (if s.queue ≠ [] then s.flush.vm else s.vm)

end Vpp.Vlib
