import Vpp.Lib.Loop
import Vpp.Lib.Wire

/-!
# Payloads of IKEv2 messages

`ikev2_payload.c` writes the payloads of a message one after the other and takes received ones apart. A
parser is given the bytes from the header of its payload to the end of the message; `rlen` is their
number. A vector of the source is a list, and a null pointer the empty one.
-/

namespace Vpp.Ikev2

open Lib

abbrev Byte := BitVec 8

inductive Fault
  /-- Bytes outside the message were read. -/
  | outside
  /-- The result of a parser that had failed was used. -/
  | null
  /-- A loop has gone round the given number of times. -/
  | unfinished
deriving DecidableEq, Repr

structure Transform where
  type : Byte
  transformId : BitVec 16
  attrs : List Byte
deriving DecidableEq, Repr

structure Proposal where
  proposalNum : Byte
  protocolId : Byte
  spi : BitVec 32
  transforms : List Transform
deriving DecidableEq, Repr

/-- A traffic selector; a port is its two bytes in memory. -/
structure Ts where
  tsType : Byte
  protocolId : Byte
  startPort : List Byte
  endPort : List Byte
  startAddr : List Byte
  endAddr : List Byte
deriving DecidableEq, Repr

structure Notify where
  msgType : Nat
  protocolId : Byte
  spi : Nat
  data : List Byte
deriving DecidableEq, Repr

structure Delete where
  protocolId : Byte
  spi : Nat
deriving DecidableEq, Repr

def protocolIke : Byte := 1
def protocolEsp : Byte := 3
def payloadSa : Byte := 33
def tsIpv4AddrRange : Byte := 7
def tsIpv6AddrRange : Byte := 8

/-! ## Writing -/

structure PayloadChain where
  firstPayloadType : Byte
  data : List Byte
  lastHdrOff : Nat
deriving DecidableEq, Repr

/-- `ike_payload_header_t`, cleared up to the length. -/
def payloadHeader (len : Nat) : List Byte := [0, 0] ++ bytesOf 2 len ++ List.replicate (len - 4) 0

def payloadAddHdr (c : PayloadChain) (payloadType : Byte) (len : Nat) : PayloadChain :=
  { firstPayloadType := if c.data = [] then payloadType else c.firstPayloadType
    data := c.data.set c.lastHdrOff payloadType ++ payloadHeader len
    lastHdrOff := c.data.length }

def payloadAddData (c : PayloadChain) (data : List Byte) : PayloadChain :=
  let all := c.data ++ data
  let len := number (slice all (c.lastHdrOff + 2) 2)
  { c with data := patch all (c.lastHdrOff + 2) (bytesOf 2 (len + data.length)) }

def spiSize (p : Proposal) : Nat := if p.protocolId = protocolEsp then 4 else 0

/-- `ike_sa_transform_data_t` with its attributes, of transform `i` of `n`. -/
def transformBytes (n : Nat) (t : Transform) (i : Nat) : List Byte :=
  [if i + 1 < n then 3 else 0, 0] ++ bytesOf 2 (8 + t.attrs.length) ++ [t.type, 0] ++
    bytesOf 2 t.transformId.toNat ++ t.attrs

/-- `tr_data`. -/
def transformsBytes (p : Proposal) : List Byte :=
  p.transforms.zipIdx.flatMap fun x => transformBytes p.transforms.length x.1 x.2

/-- `pr_data`, of proposal `i` of `n`. The distance to the first proposal is taken the wrong way round and
never positive. -/
def proposalBytes (n : Nat) (p : Proposal) (i : Nat) : List Byte :=
  [if (0 - i + 1 : Int) < n then 2 else 0, 0] ++
    bytesOf 2 ((transformsBytes p).length + (8 + spiSize p)) ++
    [p.proposalNum, p.protocolId, BitVec.ofNat 8 (spiSize p), BitVec.ofNat 8 p.transforms.length] ++
    bytesOf (spiSize p) p.spi.toNat

def payloadAddSa (c : PayloadChain) (proposals : List Proposal) : PayloadChain :=
  proposals.zipIdx.foldl
    (fun c x =>
      payloadAddData (payloadAddData c (proposalBytes proposals.length x.1 x.2)) (transformsBytes x.1))
    (payloadAddHdr c payloadSa 4)

/-! ## Parsing -/

def read (bytes : List Byte) (p n : Nat) : Except Fault (List Byte) := fetch bytes .outside p n

def byteAt (bytes : List Byte) (p : Nat) : Byte := bytes.getD p 0

def wordAt (bytes : List Byte) (p n : Nat) : Nat := number (slice bytes p n)

def payloadLength (ikep : List Byte) : Nat := wordAt ikep 2 2

/-- `ikev2_check_payload_length`: the length of the payload if it is one. -/
def checkPayloadLength (ikep : List Byte) : Except Fault (Option Nat) :=
  if 4 > ikep.length then .ok none
  else do
    let header ← read ikep 0 4
    let plen := payloadLength header
    return if plen < 4 ∨ plen > ikep.length then none else some plen

/-- `ike_sa_proposal_data_t` -/
structure SaProposalData where
  lastOrMore : Byte
  proposalLen : Nat
  proposalNum : Byte
  protocolId : Byte
  spiSize : Nat
  numTransforms : Nat
deriving DecidableEq, Repr

def SaProposalData.ofBytes (b : List Byte) : SaProposalData :=
  { lastOrMore := byteAt b 0
    proposalLen := wordAt b 2 2
    proposalNum := byteAt b 4
    protocolId := byteAt b 5
    spiSize := (byteAt b 6).toNat
    numTransforms := (byteAt b 7).toNat }

/-- `ike_sa_transform_data_t` -/
structure SaTransformData where
  transformLen : Nat
  transformType : Byte
  transformId : BitVec 16
deriving DecidableEq, Repr

def SaTransformData.ofBytes (b : List Byte) : SaTransformData :=
  { transformLen := wordAt b 2 2
    transformType := byteAt b 4
    transformId := BitVec.ofNat 16 (wordAt b 6 2) }

/-- The transforms of a proposal from `p` on, if they are not corrupted. -/
def parseTransforms (ikep : List Byte) : Nat → Nat → Except Fault (Option (List Transform))
  | 0, _ => .ok (some [])
  | n + 1, p =>
    if p + 8 > ikep.length - 4 then .ok none
    else do
      let tr := SaTransformData.ofBytes (← read ikep (4 + p) 8)
      if tr.transformLen < 8 then return none
      else if p + tr.transformLen > ikep.length - 4 then return none
      else
        let attrs ← read ikep (4 + p + 8) (tr.transformLen - 8)
        let rest ← parseTransforms ikep n (p + tr.transformLen)
        return rest.map (⟨tr.transformType, tr.transformId, attrs⟩ :: ·)

/-- The SPI at `p`, if there is one. -/
def parseSpi (ikep : List Byte) (p size : Nat) : Except Fault Nat :=
  if size = 4 then number <$> read ikep p 4 else .ok 0

/-- The proposal at `p`, if it is not corrupted. -/
def parseProposal (ikep : List Byte) (p : Nat) : Except Fault (Option (SaProposalData × Proposal)) :=
  if p + 8 > ikep.length - 4 then .ok none
  else do
    let sap := SaProposalData.ofBytes (← read ikep (4 + p) 8)
    if sap.protocolId = protocolIke ∧ sap.spiSize ≠ 0 then return none
    else if sap.protocolId = protocolEsp ∧ sap.spiSize ≠ 4 then return none
    else if p + 8 + sap.spiSize > ikep.length - 4 then return none
    else
      let spi ← parseSpi ikep (4 + p + 8) sap.spiSize
      let transforms ← parseTransforms ikep sap.numTransforms (p + 8 + sap.spiSize)
      return transforms.map fun ts => (sap, ⟨sap.proposalNum, sap.protocolId, BitVec.ofNat 32 spi, ts⟩)

/-- `plen - sizeof (*ikep)`, in the 64 bits of `sizeof`. -/
def bodyLength (plen : Nat) : Nat := (plen + (2 ^ 64 - 4)) % 2 ^ 64

/-- The `do … while` over the proposals, with `proposal_ptr` and the proposals so far. -/
def proposalStep (ikep : List Byte) (plen : Nat) (s : Nat × List Proposal) :
    Except Fault ((Nat × List Proposal) ⊕ List Proposal) := do
  match ← parseProposal ikep s.1 with
  | none => return .inr []
  | some (sap, proposal) =>
    let p := s.1 + sap.proposalLen
    let v := s.2 ++ [proposal]
    if p < bodyLength plen ∧ sap.lastOrMore = 2 then return .inl (p, v)
    else if p ≠ bodyLength plen ∨ sap.lastOrMore ≠ 0 then return .inr []
    else return .inr v

def finish {A : Type} : Option (Except Fault A) → Except Fault A
  | none => .error .unfinished
  | some r => r

/-- `ikev2_parse_sa_payload`, with a limit on the turns of its loop. -/
def parseSaPayload (turns : Nat) (ikep : List Byte) : Except Fault (List Proposal) := do
  let plen := payloadLength (← read ikep 0 4)
  finish (loop (proposalStep ikep plen) turns (0, []))

/-- The `while` of `ikev2_parse_ts_payload`, for `n_left` selectors from `p` on. -/
def parseSelectors (ikep : List Byte) : Nat → Nat → Except Fault (Option (List Ts))
  | 0, _ => .ok (some [])
  | nLeft + 1, p =>
    if p + 8 < ikep.length - 8 then do
      let pe ← read ikep (8 + p) 8
      let tsType := byteAt pe 0
      if tsType ≠ tsIpv4AddrRange ∧ tsType ≠ tsIpv6AddrRange then return none
      else
        let size := if tsType = tsIpv4AddrRange then 4 else 16
        let startAddr ← read ikep (8 + p + 8) size
        let endAddr ← read ikep (8 + p + 8 + size) size
        let rest ← parseSelectors ikep nLeft (p + 8 + 2 * size)
        return rest.map (⟨tsType, byteAt pe 1, slice pe 4 2, slice pe 6 2, startAddr, endAddr⟩ :: ·)
    else .ok none

def parseTsPayload (ikep : List Byte) : Except Fault (List Ts) :=
  if 8 > ikep.length then .ok []
  else do
    let numTs ← read ikep 4 1
    let selectors ← parseSelectors ikep (byteAt numTs 0).toNat 0
    return selectors.getD []

def parseNotifyData (ikep : List Byte) (plen size : Nat) : Except Fault (List Byte) :=
  if plen > 8 + size then read ikep (8 + size) (plen - 8 - size) else .ok []

def parseNotifyPayload (ikep : List Byte) : Except Fault (Option Notify) := do
  let plen := payloadLength (← read ikep 0 4)
  if 8 > ikep.length then return none
  else
    let n ← read ikep 4 4
    let size := (byteAt n 1).toNat
    if size = 4 ∧ 12 > ikep.length then return none
    else if size = 4 ∨ size = 0 then
      let spi ← parseSpi ikep 8 size
      let data ← parseNotifyData ikep plen size
      return some ⟨wordAt n 2 2, byteAt n 0, spi, data⟩
    else return none

/-- The SPIs from number `i` on. -/
def parseSpis (ikep : List Byte) (protocolId : Byte) : Nat → Nat → Except Fault (List Delete)
  | 0, _ => .ok []
  | n + 1, i => do
    let spi ← read ikep (8 + 4 * i) 4
    let rest ← parseSpis ikep protocolId n (i + 1)
    return ⟨protocolId, number spi⟩ :: rest

def parseDeletePayload (ikep : List Byte) : Except Fault (List Delete) :=
  if ikep.length < 8 then .ok []
  else do
    let d ← read ikep 4 4
    let numOfSpi := wordAt d 2 2
    if byteAt d 0 = protocolIke then return [⟨1, 0⟩]
    else if 8 + numOfSpi * 4 > ikep.length then return []
    else parseSpis ikep (byteAt d 0) numOfSpi 0

/-! ## What the reads come to -/

section Reads

variable {ikep : List Byte} {p n : Nat}

theorem read_ok (h : p + n ≤ ikep.length) : read ikep p n = .ok (slice ikep p n) := fetch_ok h

theorem read_ok_iff (hn : n ≠ 0) {bytes : List Byte} :
    read ikep p n = .ok bytes ↔ p + n ≤ ikep.length ∧ bytes = slice ikep p n := fetch_ok_iff hn

theorem byteAt_slice (k : Nat) (hk : k < n) : byteAt (slice ikep p n) k = byteAt ikep (p + k) := by
  simp [byteAt, slice, hk]

theorem wordAt_slice (k m : Nat) (hk : k + m ≤ n) :
    wordAt (slice ikep p n) k m = wordAt ikep (p + k) m := by
  rw [wordAt, wordAt, slice_add]
  simp only [slice, List.drop_take, List.take_take]
  rw [Nat.min_eq_left (by omega)]

end Reads

end Vpp.Ikev2
