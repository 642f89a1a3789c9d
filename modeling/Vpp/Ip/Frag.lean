import Vpp.Lib.Pieces
import Vpp.Lib.ByteOrder
import Vpp.Lib.OnesComplement

/-!
# IP fragmentation

`vnet/ip/ip_frag.c`. A packet lies in a chain of buffers; the first one holds the encapsulation and
the fixed header, which are copied to the front of every fragment. The payload is copied through a
cursor that walks the chain. The free buffers are a list, each with what its memory holds.
-/

namespace Vpp.Ip.Frag

open Lib

/-- `ip_frag_error_t`, the values that the two functions return. -/
inductive IpFragError
  | none
  | malformed
  | cantFragmentHeader
  | dontFragmentSet
  | memory
  deriving DecidableEq, Repr

/-! ## The chain of buffers -/

/-- Where the copy stands: `from_data`, `ptr`, `left_in_from_buffer` and the buffers behind
`from_b`. -/
structure Cursor where
  fromData : List (BitVec 8)
  ptr : Nat
  leftInFromBuffer : Nat
  next : List (List (BitVec 8))

/-- Spin through from buffers filling up the to buffer; nothing if the chain ends before. -/
def fill : List (List (BitVec 8)) → List (BitVec 8) → Nat → Nat → Nat →
    Option (List (BitVec 8) × Cursor)
  | next, fromData, ptr, leftInFromBuffer, leftInToBuffer =>
    let bytesToCopy := if leftInToBuffer ≤ leftInFromBuffer then leftInToBuffer else leftInFromBuffer
    let copied := (fromData.drop ptr).take bytesToCopy
    if leftInToBuffer - bytesToCopy = 0 then
      some (copied, ⟨fromData, ptr + bytesToCopy, leftInFromBuffer - bytesToCopy, next⟩)
    else
      match next with
      | [] => Option.none
      | b :: next =>
        (fill next b 0 b.length (leftInToBuffer - bytesToCopy)).map fun r => (copied ++ r.1, r.2)

/-- The loop of both functions, `while (rem)`: one free buffer for every fragment. `emit` finishes a fragment
in a buffer with the given memory: its offset `fo`, its bytes and whether `len != rem`. The buffers of
finished fragments are returned with the error. -/
def fragLoop {P : Type} (max : Nat)
    (emit : (Nat → BitVec 8) → Nat → List (BitVec 8) → Bool → P) :
    List (Nat → BitVec 8) → Nat → Nat → Cursor → IpFragError × List P
  | [], rem, _, _ => if rem = 0 then (.none, []) else (.memory, [])
  | mem :: pool, rem, fo, c =>
    if rem = 0 then (.none, [])
    else
      let len := if rem > max then max else rem
      let len := if len ≠ rem then len / 8 * 8 else len
      match fill c.next c.fromData c.ptr c.leftInFromBuffer len with
      | Option.none => (.malformed, [])
      | some (copied, c) =>
        let r := fragLoop max emit pool (rem - len) (fo + len) c
        (r.1, emit mem fo copied (len ≠ rem) :: r.2)

/-! ## IPv4 -/

/-- `ip4_header_t`, the fields in host byte order but `fragment_id` and `checksum`, which are only copied. -/
structure Ip4Header where
  version : BitVec 4
  ihl : BitVec 4
  tos : BitVec 8
  length : BitVec 16
  fragmentId : BitVec 16
  flagsAndFragmentOffset : BitVec 16
  ttl : BitVec 8
  protocol : BitVec 8
  checksum : BitVec 16
  srcAddress : BitVec 32
  dstAddress : BitVec 32
  deriving DecidableEq, Repr

/-- An IPv4 packet, or its first buffer: the encapsulation of `l2unfragmentablesize` bytes, the fixed header,
and what follows. -/
structure Ip4Packet where
  encap : List (BitVec 8)
  ip4 : Ip4Header
  data : List (BitVec 8)
  deriving DecidableEq, Repr

def Ip4Packet.currentLength (p : Ip4Packet) : Nat := p.encap.length + 20 + p.data.length

def ip4HeaderFlagDontFragment : BitVec 16 := 1 <<< 14
def ip4HeaderFlagMoreFragments : BitVec 16 := 1 <<< 13

def ip4GetFragmentOffset (h : Ip4Header) : BitVec 16 := h.flagsAndFragmentOffset &&& 0x1fff

def ip4IsFragment (h : Ip4Header) : Bool :=
  h.flagsAndFragmentOffset &&& (0x1fff ||| ip4HeaderFlagMoreFragments) != 0

def net16 (x : BitVec 16) : List (BitVec 8) := [(x >>> 8).setWidth 8, x.setWidth 8]

def net32 (x : BitVec 32) : List (BitVec 8) :=
  net16 ((x >>> 16).setWidth 16) ++ net16 (x.setWidth 16)

def Ip4Header.bytes (h : Ip4Header) : List (BitVec 8) :=
  [(h.version ++ h.ihl : BitVec 8), h.tos] ++ net16 h.length ++ net16 (swapBytes h.fragmentId) ++
    net16 h.flagsAndFragmentOffset ++ [h.ttl, h.protocol, 0, 0] ++ net32 h.srcAddress ++
    net32 h.dstAddress

/-- `ip4_header_checksum`: the 32-bit words of the header but for the checksum, with up to ten words of
options in `mem`. -/
def ip4HeaderChecksum (h : Ip4Header) (mem : Nat → BitVec 8) : BitVec 16 :=
  let optionLen := min (h.ihl.toNat - 5) 10
  let sum := digitSum 4 0 (h.bytes ++ (List.range (4 * optionLen)).map mem)
  let sum := sum % 2 ^ 32 + sum / 2 ^ 32
  let sum := sum % 2 ^ 16 + sum / 2 ^ 16
  let sum := sum % 2 ^ 16 + sum / 2 ^ 16
  ~~~ BitVec.ofNat 16 sum

/-- What memory holds from `to_data` on after the copy. -/
def overwrite (mem : Nat → BitVec 8) (bytes : List (BitVec 8)) : Nat → BitVec 8 :=
  fun j => bytes[j]?.getD (mem j)

/-- The numbers that `ip4_frag_do_fragment` works with. -/
structure Ip4Plan where
  rem : Nat
  max : Nat
  ipFragId : BitVec 16
  ipFragOffset : BitVec 16
  more : Bool

/-- `(clib_min (mtu, default_data_size) - head_bytes) & ~0x7`. -/
def fragMax (mtu : BitVec 16) (dataSize headBytes : Nat) : Nat :=
  ((BitVec.ofNat 16 (min mtu.toNat dataSize) - BitVec.ofNat 16 headBytes) &&& ~~~ 7#16).toNat

def ip4Plan (dataSize : Nat) (fragmentId : BitVec 32) (first : Ip4Packet) (mtu : BitVec 16) :
    Ip4Plan where
  rem := (first.ip4.length - 20#16).toNat
  max := fragMax mtu dataSize (20 + first.encap.length)
  ipFragId := if ip4IsFragment first.ip4 then first.ip4.fragmentId else fragmentId.setWidth 16
  ipFragOffset := if ip4IsFragment first.ip4 then ip4GetFragmentOffset first.ip4 else 0
  more := ip4IsFragment first.ip4 &&
    first.ip4.flagsAndFragmentOffset &&& ip4HeaderFlagMoreFragments != 0

/-- A finished fragment: the copy of the head with the fields of the fragment. -/
def ip4Emit (first : Ip4Packet) (plan : Ip4Plan) (mem : Nat → BitVec 8) (fo : Nat)
    (copied : List (BitVec 8)) (notLast : Bool) : Ip4Packet :=
  let ip4 := { first.ip4 with
    fragmentId := plan.ipFragId
    flagsAndFragmentOffset := (BitVec.ofNat 16 (fo / 8) + plan.ipFragOffset) |||
      (if notLast || plan.more then 1#16 <<< 13 else 0)
    length := BitVec.ofNat 16 (copied.length + 20) }
  let ip4 := { ip4 with checksum := ip4HeaderChecksum ip4 (overwrite mem copied) }
  ⟨first.encap, ip4, copied⟩

def lengthInChain (current : Nat) (next : List (List (BitVec 8))) : Nat := current + next.flatten.length

/-- `ip4_frag_do_fragment`, with the value of `running_fragment_id` after it. -/
def ip4FragDoFragment (dataSize : Nat) (pool : List (Nat → BitVec 8))
    (runningFragmentId : BitVec 32) (first : Ip4Packet) (next : List (List (BitVec 8)))
    (mtu : BitVec 16) : (IpFragError × List Ip4Packet) × BitVec 32 :=
  let plan := ip4Plan dataSize (runningFragmentId + 1) first mtu
  if plan.rem > lengthInChain first.currentLength next - 20 then
    ((.malformed, []), runningFragmentId)
  else if mtu < 20 then ((.cantFragmentHeader, []), runningFragmentId)
  else if first.ip4.flagsAndFragmentOffset &&& ip4HeaderFlagDontFragment != 0 then
    ((.dontFragmentSet, []), runningFragmentId)
  else
    let headBytes := 20 + first.encap.length
    let c : Cursor := ⟨first.data, 0, first.currentLength - headBytes, next⟩
    (fragLoop plan.max (ip4Emit first plan) pool plan.rem 0 c,
      if ip4IsFragment first.ip4 then runningFragmentId else runningFragmentId + 1)

/-! ## IPv6 -/

/-- `ip6_header_t`. -/
structure Ip6Header where
  ipVersionTrafficClassAndFlowLabel : BitVec 32
  payloadLength : BitVec 16
  protocol : BitVec 8
  hopLimit : BitVec 8
  srcAddress : BitVec 128
  dstAddress : BitVec 128
  deriving DecidableEq, Repr

/-- `ip6_frag_hdr_t`. -/
structure Ip6FragHdr where
  nextHdr : BitVec 8
  rsv : BitVec 8
  fragmentOffsetAndMore : BitVec 16
  identification : BitVec 32
  deriving DecidableEq, Repr

structure Ip6Packet where
  encap : List (BitVec 8)
  ip6 : Ip6Header
  data : List (BitVec 8)
  deriving DecidableEq, Repr

structure Ip6Frag extends Ip6Packet where
  fragHdr : Ip6FragHdr
  deriving DecidableEq, Repr

def Ip6Packet.currentLength (p : Ip6Packet) : Nat := p.encap.length + 40 + p.data.length

/-- `current_length` of a fragment, with its fragment header. -/
def Ip6Frag.currentLength (p : Ip6Frag) : Nat := p.encap.length + 40 + 8 + p.data.length

def ipProtocolIpv6Fragmentation : BitVec 8 := 44

def ip6FragHdrOffsetAndMore (offset : BitVec 16) (more : Bool) : BitVec 16 :=
  offset <<< 3 + if more then 1 else 0

def ip6Emit (first : Ip6Packet) (ipFragId : BitVec 16) (_ : Nat → BitVec 8) (fo : Nat)
    (copied : List (BitVec 8)) (notLast : Bool) : Ip6Frag where
  encap := first.encap
  ip6 := { first.ip6 with
    payloadLength := BitVec.ofNat 16 (copied.length + 8)
    protocol := ipProtocolIpv6Fragmentation }
  fragHdr :=
    { nextHdr := first.ip6.protocol
      rsv := 0
      fragmentOffsetAndMore := ip6FragHdrOffsetAndMore (BitVec.ofNat 16 (fo / 8)) notLast
      identification := ipFragId.setWidth 32 }
  data := copied

/-- `ip6_frag_do_fragment`, with the value of `running_fragment_id` after it. -/
def ip6FragDoFragment (dataSize : Nat) (pool : List (Nat → BitVec 8))
    (runningFragmentId : BitVec 32) (first : Ip6Packet) (next : List (List (BitVec 8)))
    (mtu : BitVec 16) : (IpFragError × List Ip6Frag) × BitVec 32 :=
  let rem := first.ip6.payloadLength.toNat
  let max := fragMax mtu dataSize (40 + 8 + first.encap.length)
  if rem > lengthInChain first.currentLength next - 40 then ((.malformed, []), runningFragmentId)
  else if first.ip6.protocol = ipProtocolIpv6Fragmentation then
    ((.malformed, []), runningFragmentId)
  else
    let left := first.currentLength - (first.encap.length + 40)
    let ipFragId := (runningFragmentId + 1).setWidth 16
    let c : Cursor := ⟨first.data, 0, left, next⟩
    (fragLoop max (ip6Emit first ipFragId) pool rem 0 c, runningFragmentId + 1)

end Vpp.Ip.Frag
