import Mathlib.Data.BitVec

/-!
# The IPv4 mtrie

`ip4_mtrie.c` keeps the forwarding table of a FIB as a trie of plies. A ply of 256 slots consumes one
byte of the address; the root ply of the 16-8-8 trie consumes two. A slot holds a leaf, which is either
the adjacency index of a prefix or a further ply, and the length of that prefix. Adding and deleting a
route rewrites the slots its prefix spans, and pushes the new leaf into the plies below them.

A ply here holds the plies below it, where the source holds their indices in `ip4_ply_pool`: a ply is
made for one slot, stays in that slot, and is put back when the slot is rewritten. `Ply k` is a ply with
`k` bytes of the address left, so that a slot of the last ply can only be terminal.
-/

namespace Vpp.Ip.Mtrie

open Function (update)

/-! ## Addresses -/

abbrev Ip4Address := BitVec 32

namespace Ip4Address

/-- Byte `i` in network order. -/
def asU8 (a : Ip4Address) (i : Nat) : Nat := a.toNat / 2 ^ (24 - 8 * i) % 256

def asU16 (a : Ip4Address) : Nat := a.asU8 0 + 256 * a.asU8 1

end Ip4Address

/-- `clib_net_to_host_u16` and `clib_host_to_net_u16`. -/
def swapU16 (x : Nat) : Nat := x % 256 * 256 + x / 256 % 256

/-- `fib_masks` of `ip4_main`. -/
def fibMasks (len : Nat) : Ip4Address := BitVec.ofNat 32 ((2 ^ len - 1) * 2 ^ (32 - len))

/-! ## Leaves and plies -/

inductive Leaf (S : Type) where
  | terminal (adjIndex : Nat)
  | nextPly (ply : S)

/-- The adjacency index is kept as `1 + 2 * adj_index` in 32 bits. -/
def leafSetAdjIndex {S : Type} (adjIndex : Nat) : Leaf S :=
  .terminal ((1 + 2 * adjIndex) % 2 ^ 32 / 2)

structure Ply8 (S : Type) where
  leaves : Nat → Leaf S
  dstAddressBitsOfLeaves : Nat → Nat
  nNonEmptyLeafs : Int
  dstAddressBitsBase : Nat

def Ply : Nat → Type
  | 0 => Empty
  | k + 1 => Ply8 (Ply k)

structure Ply16 where
  leaves : Nat → Leaf (Ply 2)
  dstAddressBitsOfLeaves : Nat → Nat

namespace Ply8

variable {S : Type}

/-- `ip4_mtrie_leaf_is_non_empty`: the leaf is more specific than what covers the whole ply. -/
def leafIsNonEmpty (ply : Ply8 S) (i : Nat) : Int :=
  if ply.dstAddressBitsOfLeaves i > ply.dstAddressBitsBase then 1 else 0

/-- `ply_8_init`. -/
def init (leaf : Leaf S) (prefixLen plyBaseLen : Nat) : Ply8 S :=
  { leaves := fun _ => leaf
    dstAddressBitsOfLeaves := fun _ => prefixLen
    nNonEmptyLeafs := if prefixLen > plyBaseLen then 256 else 0
    dstAddressBitsBase := plyBaseLen }

def putLeaf (ply : Ply8 S) (i : Nat) (leaf : Leaf S) : Ply8 S :=
  { ply with leaves := update ply.leaves i leaf }

def putSlot (ply : Ply8 S) (i : Nat) (leaf : Leaf S) (bits : Nat) : Ply8 S :=
  { ply with
    leaves := update ply.leaves i leaf
    dstAddressBitsOfLeaves := update ply.dstAddressBitsOfLeaves i bits }

def replaceSlot (ply : Ply8 S) (i : Nat) (leaf : Leaf S) (bits : Nat) : Ply8 S :=
  let out := { ply with nNonEmptyLeafs := ply.nNonEmptyLeafs - ply.leafIsNonEmpty i }.putSlot i leaf bits
  { out with nNonEmptyLeafs := out.nNonEmptyLeafs + out.leafIsNonEmpty i }

end Ply8

/-! ## Adding a route -/

structure SetUnsetLeafArgs where
  dstAddress : Ip4Address
  dstAddressLength : Nat
  adjIndex : Nat
  coverAddressLength : Nat
  coverAdjIndex : Nat

/-- The slots of a loop that starts at `first` and makes `n` turns. -/
def slots (first n : Nat) : List Nat := (List.range n).map (first + ·)

/-- One turn of the loop of `set_ply_with_more_specific_leaf`; `recurse` is the call one ply below. -/
def setMoreSpecificSlot {S : Type} (recurse : S → S) (newAdj newBits : Nat) (ply : Ply8 S) (i : Nat) :
    Ply8 S :=
  match ply.leaves i with
  | .nextPly subPly => ply.putLeaf i (.nextPly (recurse subPly))
  | .terminal _ =>
    if newBits ≥ ply.dstAddressBitsOfLeaves i then
      let out := ply.putSlot i (leafSetAdjIndex newAdj) newBits
      { out with nNonEmptyLeafs := out.nNonEmptyLeafs + out.leafIsNonEmpty i }
    else ply

def setPlyWithMoreSpecificLeaf (newAdj newBits : Nat) : (k : Nat) → Ply k → Ply k
  | 0, ply => ply
  | k + 1, ply =>
    (slots 0 256).foldl
      (setMoreSpecificSlot (setPlyWithMoreSpecificLeaf newAdj newBits k) newAdj newBits) ply

/-- One turn of the loop of `set_leaf`, with the two calls it makes for a ply in the slot. -/
def setLeafSlot {S : Type} (moreSpecific recurse : S → S) (a : SetUnsetLeafArgs) (ply : Ply8 S)
    (i : Nat) : Ply8 S :=
  if a.dstAddressLength ≥ ply.dstAddressBitsOfLeaves i then
    match ply.leaves i with
    | .terminal _ => ply.replaceSlot i (leafSetAdjIndex a.adjIndex) a.dstAddressLength
    | .nextPly newPly => ply.putLeaf i (.nextPly (moreSpecific newPly))
  else
    match ply.leaves i with
    | .nextPly newPly => ply.putLeaf i (.nextPly (recurse newPly))
    | .terminal _ => ply

/-- The ply in a slot, made from the leaf in the slot if there is none. -/
def plyOfSlot {k : Nat} (leaf : Leaf (Ply (k + 1))) (bits plyBaseLen : Nat) : Ply (k + 1) :=
  match leaf with
  | .terminal adj => Ply8.init (.terminal adj) bits plyBaseLen
  | .nextPly newPly => newPly

/-- Put the ply of a slot where `set_leaf` goes down; a terminal leaf becomes a new ply. -/
def descendSlot : {k : Nat} → (recurse : Ply k → Ply k) → (plyBaseLen : Nat) → Ply8 (Ply k) →
    (i : Nat) → Ply8 (Ply k)
  | 0, _, _, ply, _ => ply  -- a length of at most 32 ends in the last ply
  | _ + 1, recurse, plyBaseLen, ply, i =>
    let newPly := recurse (plyOfSlot (ply.leaves i) (ply.dstAddressBitsOfLeaves i) plyBaseLen)
    match ply.leaves i with
    | .terminal _ => ply.replaceSlot i (.nextPly newPly) plyBaseLen
    | .nextPly _ => ply.putLeaf i (.nextPly newPly)

def setLeaf (a : SetUnsetLeafArgs) : (k : Nat) → Ply k → (dstAddressByteIndex : Nat) → Ply k
  | 0, oldPly, _ => oldPly
  | k + 1, oldPly, dstAddressByteIndex =>
    let nDstBitsNextPlies : Int := a.dstAddressLength - 8 * (dstAddressByteIndex + 1)
    let dstByte := a.dstAddress.asU8 dstAddressByteIndex
    let recurse := fun newPly => setLeaf a k newPly (dstAddressByteIndex + 1)
    if nDstBitsNextPlies ≤ 0 then
      let nDstBitsThisPly := min 8 (-nDstBitsNextPlies).toNat
      (slots dstByte (2 ^ nDstBitsThisPly)).foldl
        (setLeafSlot (setPlyWithMoreSpecificLeaf a.adjIndex a.dstAddressLength k) recurse a) oldPly
    else descendSlot recurse (8 * (dstAddressByteIndex + 1)) oldPly dstByte

namespace Ply16

def putLeaf (ply : Ply16) (i : Nat) (leaf : Leaf (Ply 2)) : Ply16 :=
  { ply with leaves := update ply.leaves i leaf }

def putSlot (ply : Ply16) (i : Nat) (leaf : Leaf (Ply 2)) (bits : Nat) : Ply16 :=
  { leaves := update ply.leaves i leaf
    dstAddressBitsOfLeaves := update ply.dstAddressBitsOfLeaves i bits }

/-- `ply_16_init`. -/
def init (leaf : Leaf (Ply 2)) (prefixLen : Nat) : Ply16 :=
  { leaves := fun _ => leaf, dstAddressBitsOfLeaves := fun _ => prefixLen }

end Ply16

/-- The slot `i` places after that of `dst_byte`, counted in host order. -/
def rootSlot (dstByte i : Nat) : Nat := swapU16 ((swapU16 dstByte + i) % 2 ^ 16)

/-- One turn of the loop of `set_root_leaf`. -/
def setRootLeafSlot (a : SetUnsetLeafArgs) (ply : Ply16) (slot : Nat) : Ply16 :=
  if a.dstAddressLength ≥ ply.dstAddressBitsOfLeaves slot then
    match ply.leaves slot with
    | .terminal _ => ply.putSlot slot (leafSetAdjIndex a.adjIndex) a.dstAddressLength
    | .nextPly newPly =>
      ply.putLeaf slot
        (.nextPly (setPlyWithMoreSpecificLeaf a.adjIndex a.dstAddressLength 2 newPly))
  else
    match ply.leaves slot with
    | .nextPly newPly => ply.putLeaf slot (.nextPly (setLeaf a 2 newPly 2))
    | .terminal _ => ply

def setRootLeaf (a : SetUnsetLeafArgs) (oldPly : Ply16) : Ply16 :=
  let nDstBitsNextPlies : Int := a.dstAddressLength - 16
  let dstByte := a.dstAddress.asU16
  if nDstBitsNextPlies ≤ 0 then
    let nDstBitsThisPly := 16 - a.dstAddressLength
    (List.range (2 ^ nDstBitsThisPly)).foldl
      (fun ply i => setRootLeafSlot a ply (rootSlot dstByte i)) oldPly
  else
    let newPly := plyOfSlot (oldPly.leaves dstByte) (oldPly.dstAddressBitsOfLeaves dstByte) 16
    match oldPly.leaves dstByte with
    | .terminal _ => oldPly.putSlot dstByte (.nextPly (setLeaf a 2 newPly 2)) 16
    | .nextPly _ => oldPly.putLeaf dstByte (.nextPly (setLeaf a 2 newPly 2))

/-! ## Deleting a route -/

/-- What a slot holds after the delete of `unset_leaf` has looked at it: whether it is to get the cover, and
the leaf as the call for its ply left it. -/
def unsetSlot {S : Type} (recurse : S → S × Bool) (adjIndex : Nat) : Leaf S → Leaf S × Bool
  | .terminal adj => (.terminal adj, adj == (1 + 2 * adjIndex) % 2 ^ 32 / 2)
  | .nextPly subPly => (.nextPly (recurse subPly).1, (recurse subPly).2)

/-- One turn of the loop of `unset_leaf`; the flag, which ends it, says that the ply has been deleted. -/
def unsetLeafSlot {S : Type} (recurse : S → S × Bool) (a : SetUnsetLeafArgs)
    (dstAddressByteIndex : Nat) (s : Ply8 S × Bool) (i : Nat) : Ply8 S × Bool :=
  if s.2 then s else
    match unsetSlot recurse a.adjIndex (s.1.leaves i) with
    | (_, true) =>
      let ply := s.1.replaceSlot i (leafSetAdjIndex a.coverAdjIndex) a.coverAddressLength
      (ply, ply.nNonEmptyLeafs == 0 && dstAddressByteIndex > 0)
    | (leaf, false) => (s.1.putLeaf i leaf, false)

def unsetLeaf (a : SetUnsetLeafArgs) : (k : Nat) → Ply k → (dstAddressByteIndex : Nat) → Ply k × Bool
  | 0, oldPly, _ => (oldPly, false)
  | k + 1, oldPly, dstAddressByteIndex =>
    let nDstBitsNextPlies : Int := a.dstAddressLength - 8 * (dstAddressByteIndex + 1)
    let mask := (-nDstBitsNextPlies).toNat
    -- the low bits of the byte are cleared
    let dstByte := a.dstAddress.asU8 dstAddressByteIndex / 2 ^ mask * 2 ^ mask
    let nDstBitsThisPly := min 8 mask
    (slots dstByte (2 ^ nDstBitsThisPly)).foldl
      (unsetLeafSlot (fun subPly => unsetLeaf a k subPly (dstAddressByteIndex + 1)) a
        dstAddressByteIndex) (oldPly, false)

/-- One turn of the loop of `unset_root_leaf`. -/
def unsetRootLeafSlot (a : SetUnsetLeafArgs) (ply : Ply16) (slot : Nat) : Ply16 :=
  match unsetSlot (fun subPly => unsetLeaf a 2 subPly 2) a.adjIndex (ply.leaves slot) with
  | (_, true) => ply.putSlot slot (leafSetAdjIndex a.coverAdjIndex) a.coverAddressLength
  | (leaf, false) => ply.putLeaf slot leaf

def unsetRootLeaf (a : SetUnsetLeafArgs) (oldPly : Ply16) : Ply16 :=
  let nDstBitsNextPlies : Int := a.dstAddressLength - 16
  let dstByte := a.dstAddress.asU16
  let nDstBitsThisPly := if nDstBitsNextPlies ≤ 0 then 16 - a.dstAddressLength else 0
  (List.range (2 ^ nDstBitsThisPly)).foldl
    (fun ply i => unsetRootLeafSlot a ply (rootSlot dstByte i)) oldPly

/-! ## The two tries -/

structure Mtrie16 where
  rootPly : Ply16

structure Mtrie8 where
  rootPly : Ply 4

namespace Mtrie16

def init : Mtrie16 := ⟨Ply16.init (leafSetAdjIndex 0) 0⟩

def routeAdd (m : Mtrie16) (dstAddress : Ip4Address) (dstAddressLength adjIndex : Nat) : Mtrie16 :=
  ⟨setRootLeaf
    { dstAddress := dstAddress &&& fibMasks dstAddressLength
      dstAddressLength, adjIndex, coverAddressLength := 0, coverAdjIndex := 0 } m.rootPly⟩

def routeDel (m : Mtrie16) (dstAddress : Ip4Address)
    (dstAddressLength adjIndex coverAddressLength coverAdjIndex : Nat) : Mtrie16 :=
  ⟨unsetRootLeaf
    { dstAddress := dstAddress &&& fibMasks dstAddressLength
      dstAddressLength, adjIndex, coverAddressLength, coverAdjIndex } m.rootPly⟩

end Mtrie16

namespace Mtrie8

def init : Mtrie8 := ⟨Ply8.init (leafSetAdjIndex 0) 0 0⟩

def routeAdd (m : Mtrie8) (dstAddress : Ip4Address) (dstAddressLength adjIndex : Nat) : Mtrie8 :=
  ⟨setLeaf
    { dstAddress := dstAddress &&& fibMasks dstAddressLength
      dstAddressLength, adjIndex, coverAddressLength := 0, coverAdjIndex := 0 } 4 m.rootPly 0⟩

def routeDel (m : Mtrie8) (dstAddress : Ip4Address)
    (dstAddressLength adjIndex coverAddressLength coverAdjIndex : Nat) : Mtrie8 :=
  ⟨(unsetLeaf
    { dstAddress := dstAddress &&& fibMasks dstAddressLength
      dstAddressLength, adjIndex, coverAddressLength, coverAdjIndex } 4 m.rootPly 0).1⟩

end Mtrie8

/-! ## Lookup -/

/-- `ip4_mtrie_16_lookup_step` and `ip4_mtrie_8_lookup_step`. -/
def lookupStep {k : Nat} (currentLeaf : Leaf (Ply (k + 1))) (dstAddress : Ip4Address)
    (dstAddressByteIndex : Nat) : Leaf (Ply k) :=
  match currentLeaf with
  | .nextPly ply => ply.leaves (dstAddress.asU8 dstAddressByteIndex)
  | .terminal adj => .terminal adj

def leafGetAdjIndex : Leaf (Ply 0) → Nat
  | .terminal adj => adj

def Mtrie16.lookupStepOne (m : Mtrie16) (dstAddress : Ip4Address) : Leaf (Ply 2) :=
  m.rootPly.leaves dstAddress.asU16

def Mtrie16.lookup (m : Mtrie16) (dstAddress : Ip4Address) : Nat :=
  let leaf := m.lookupStepOne dstAddress
  let leaf := lookupStep leaf dstAddress 2
  let leaf := lookupStep leaf dstAddress 3
  leafGetAdjIndex leaf

def Mtrie8.lookupStepOne (m : Mtrie8) (dstAddress : Ip4Address) : Leaf (Ply 3) :=
  Ply8.leaves m.rootPly (dstAddress.asU8 0)

def Mtrie8.lookup (m : Mtrie8) (dstAddress : Ip4Address) : Nat :=
  let leaf := m.lookupStepOne dstAddress
  let leaf := lookupStep leaf dstAddress 1
  let leaf := lookupStep leaf dstAddress 2
  let leaf := lookupStep leaf dstAddress 3
  leafGetAdjIndex leaf

end Vpp.Ip.Mtrie
