import Vpp.Tcp.Connection

/-!
# Sending

The functions of `tcp_output.c` and `tcp.c` that move `snd_nxt` or decide how much may be sent.
Whether a buffer can be allocated is an argument; so is what the pacer and the floating point part of
the recovery code answer. A function returns the connection and the segments it hands to output.
-/

namespace Vpp.Tcp

open Vpp.Lib

def rxtMaxBurst : Nat := 10

def rtoBoffMax : Nat := 8

def dupackThreshold : BitVec 32 := 3

/-! ## New data -/

/-- `tcp_push_hdr_i` for new data: the segment carries `snd_nxt`, which moves over it. -/
def tcpPushHdr (tc : Connection) (len : Nat) : Connection × Segment :=
  (tc.advance len, .data tc.sndNxt len)

/-- `tcp_session_push_header`, buffer by buffer. The data is peeked behind what is in flight, so it is at most
`budget` bytes. -/
def tcpSessionPushHeader : Connection → Nat → List Nat → Connection × List Segment
  | tc, _, [] => (tc, [])
  | tc, budget, len :: lens =>
    let len := min len budget
    if len = 0 then (tc, [])
    else
      let (tc, seg) := tcpPushHdr tc len
      let (tc, segs) := tcpSessionPushHeader tc (budget - len) lens
      (tc, seg :: segs)

/-- `tcp_prepare_segment`: the bytes of the segment at `offset` in the transmit fifo, 0 without a
buffer. -/
def tcpPrepareSegment (tc : Connection) (offset maxDeqBytes : Nat) (alloc : Bool) : Nat :=
  if alloc then min maxDeqBytes (tc.maxDeq - offset) else 0

/-- The loop of `tcp_transmit_unsent`: up to `n` segments from `offset` on, as long as there are
buffers. -/
def tcpTransmitLoop : Nat → Nat → Nat → Connection → Connection × List Segment
  | 0, _, _, tc => (tc, [])
  | n + 1, nBufs, offset, tc =>
    let nWritten := tcpPrepareSegment tc offset tc.sndMss (decide (0 < nBufs))
    if nWritten = 0 then (tc, [])
    else
      let seg := .data (tc.sndUna + BitVec.ofNat 32 offset) nWritten
      let (tc, segs) := tcpTransmitLoop n (nBufs - 1) (offset + nWritten) (tc.advance nWritten)
      (tc, seg :: segs)

/-- `tcp_transmit_unsent`; the number of segments sent is the length of the list. -/
def tcpTransmitUnsent (tc : Connection) (burstSize nBufs : Nat) : Connection × List Segment :=
  let availableWnd := tc.sndWnd - tc.flight
  tcpTransmitLoop (min burstSize (availableWnd.toNat / tc.sndMss)) nBufs tc.flight.toNat tc

abbrev BufferBytes := { n : Nat // 0 < n }

/-- `max_snd_bytes` of the persist handler. -/
def persistBytes (tc : Connection) (bytesPerBuffer : BufferBytes) : Nat :=
  let maxSndBytes := min (min tc.sndMss.val tc.maxDeq) bytesPerBuffer
  if tc.sndWnd.toNat > 0 then min tc.sndWnd.toNat maxSndBytes else maxSndBytes

/-- `tcp_timer_persist_handler`, in the part that sends. -/
def tcpTimerPersistHandler (tc : Connection) (bytesPerBuffer : BufferBytes) (alloc : Bool) :
    Connection × List Segment :=
  if tc.state = .closed ∨ tc.sndWnd.toNat > tc.sndMss ∨ tc.finsnt then (tc, [])
  else if tc.maxDeq = 0 then (tc, [])
  else if tc.maxDeq ≤ tc.flight.toNat then (tc, [])
  else
    let tc := { tc with rtoBoff := tc.rtoBoff + 1 }
    if alloc then
      let (tc, seg) :=
        tcpPushHdr tc (min (persistBytes tc bytesPerBuffer) (tc.maxDeq - tc.flight.toNat))
      (tc, [seg])
    else (tc, [])

/-! ## FIN and the retransmit timer -/

def tcpSendFin (tc : Connection) (alloc : Bool) : Connection × List Segment :=
  let finSnt := tc.finsnt
  let tc := if finSnt then { tc with sndNxt := tc.sndNxt - 1 } else tc
  if alloc then
    let seg := .fin tc.sndNxt
    let tc := { tc with sndNxt := tc.sndNxt + 1 }
    (if finSnt then tc else { tc with finsnt := true, finpndg := false }, [seg])
  else
    (if finSnt then { tc with sndNxt := tc.sndNxt + 1 } else { tc with finsnt := true }, [])

/-- `tcp_prepare_retransmit_segment` at `offset`; the bytes of the segment. -/
def tcpPrepareRetransmitSegment (tc : Connection) (offset maxDeqBytes : Nat) (alloc : Bool) :
    Connection × Nat :=
  let availableBytes := tc.maxDeq - offset
  if availableBytes = 0 then (tc, 0)
  else
    let n := tcpPrepareSegment tc offset (min availableBytes (min tc.sndMss.val maxDeqBytes)) alloc
    ({ tc with cc := { tc.cc with sndRxtBytes := tc.cc.sndRxtBytes + BitVec.ofNat 32 n } }, n)

/-- `tcp_cc_init_rxt_timeout` on the first timeout in a row; `cc` is what the congestion control
algorithm and the scoreboard make of it. -/
def tcpCcInitRxtTimeout (tc : Connection) (cc : Cc) : Connection :=
  if tc.rtoBoff = 1 then
    { tc with cc := { cc with sndCongestion := tc.sndNxt, reorder := dupackThreshold,
                              recovery := true } }
  else tc

/-- The first unacked segment is sent again and the timer backs off. -/
def rxtFirstUnacked (tc : Connection) (alloc : Bool) (cc : Cc) : Connection × List Segment :=
  let tc := { tc with cc := { tc.cc with sndCongestion := tc.sndNxt } }
  let (tc, n) := tcpPrepareRetransmitSegment tc 0 (min tc.sndMss.val tc.flight.toNat) alloc
  if n = 0 then (tc, [])
  else (tcpCcInitRxtTimeout { tc with rtoBoff := tc.rtoBoff + 1 } cc, [.rxt tc.sndUna n])

def clearBackoff (tc : Connection) : Connection :=
  if !tc.cc.recovery && decide (tc.rtoBoff > 0) then { tc with rtoBoff := 0 } else tc

/-- `tcp_timer_retransmit_handler` on a synchronized connection. -/
def tcpTimerRetransmitHandler (tc : Connection) (alloc : Bool) (cc : Cc) :
    Connection × List Segment :=
  if tc.state.synchronized then
    if tc.finsnt then
      let (tc, segs) := tcpSendFin tc alloc
      ({ tc with rtoBoff := tc.rtoBoff + 1 }, segs)
    else if tc.sndUna = tc.sndNxt then ({ tc with rtoBoff := 0 }, [])
    else
      let tc := clearBackoff tc
      if tc.rtoBoff ≥ rtoBoffMax then ({ tc with state := .closed }, [])
      else rxtFirstUnacked tc alloc cc
  else (tc, [])

/-! ## How much may be sent -/

def tcpBytesOut (tc : Connection) : BitVec 32 :=
  if tc.cc.sackPermitted then tc.cc.sackedBytes + tc.cc.lostBytes
  else minW (tc.cc.rcvDupacks.setWidth 32 * tc.mss32) tc.flight

def tcpFlightSize (tc : Connection) : BitVec 32 :=
  tc.flight - tcpBytesOut tc + tc.cc.sndRxtBytes - tc.cc.rxtDelivered

def tcpAvailableSndWnd (tc : Connection) : BitVec 32 := minW tc.cc.cwnd tc.sndWnd

def tcpAvailableOutputSndSpace (tc : Connection) : BitVec 32 :=
  if tcpAvailableSndWnd tc ≤ tc.flight then 0 else tcpAvailableSndWnd tc - tc.flight

def tcpAvailableCcSndSpace (tc : Connection) : BitVec 32 :=
  if tcpAvailableSndWnd tc ≤ tcpFlightSize tc then 0 else tcpAvailableSndWnd tc - tcpFlightSize tc

def tcpRoundSndSpace (tc : Connection) (sndSpace : BitVec 32) : BitVec 32 :=
  if tc.sndWnd < tc.mss32 then
    if tc.sndWnd ≤ sndSpace then tc.sndWnd else 0
  else if sndSpace < tc.mss32 then
    if sndSpace < tc.cc.cwnd then 0 else sndSpace
  else sndSpace - sndSpace % tc.mss32

/-- The segments limited transmit may have out: `n_pkts`, times the mss. -/
def limitedTransmitBytes (tc : Connection) : BitVec 32 :=
  (if tc.cc.sackPermitted then tc.cc.reorder - 1 else 2) * tc.mss32

/-- Limited transmit starts over when it is too old or out of place. -/
def limitedTransmitStart (tc : Connection) : BitVec 32 :=
  if seqLt tc.cc.limitedTransmit (tc.sndNxt - limitedTransmitBytes tc) ||
      seqGt tc.cc.limitedTransmit tc.sndNxt then tc.sndNxt
  else tc.cc.limitedTransmit

/-- `clib_max (n_pkts * tc->snd_mss - snt_limited, 0)`, in signed arithmetic. -/
def limitedTransmitSpace (tc : Connection) : BitVec 32 :=
  let space := limitedTransmitBytes tc - (tc.sndNxt - limitedTransmitStart tc)
  if space.toInt < 0 then 0 else space

/-- Duplicate ACKs or sacked bytes without recovery: limited transmit decides. -/
def limitsTransmit (tc : Connection) : Bool :=
  tc.cc.rcvDupacks != 0 || tc.cc.sackedBytes != 0

def tcpSndSpaceInline (tc : Connection) : Connection × BitVec 32 :=
  if tc.cc.inCongRecovery || tc.state == .closed then (tc, 0)
  else if limitsTransmit tc then
    ({ tc with cc := { tc.cc with limitedTransmit := limitedTransmitStart tc } },
      tcpRoundSndSpace tc (limitedTransmitSpace tc))
  else (tc, tcpRoundSndSpace tc (tcpAvailableOutputSndSpace tc))

/-- What `tcp_session_send_params` tells the session layer. -/
structure SendParams where
  sndSpace : BitVec 32
  txOffset : BitVec 32
deriving DecidableEq, Repr

/-- `tcp_session_send_params`; `mss` is what the options leave of the segment size now. -/
def tcpSessionSendParams (tc : Connection) (mss : Mss) : Connection × SendParams :=
  let tc := { tc with sndMss := mss }
  let (tc, sndSpace) := tcpSndSpaceInline tc
  (tc, ⟨minW sndSpace (tc.sndWnd - tc.flight), tc.flight⟩)

/-! ## Loss recovery -/

/-- What `scoreboard_next_rxt_hole` answers to one turn of the retransmit loop, and whether there is a
buffer for what follows. -/
inductive NextHole
  /-- A hole with `bytes` left from `offset` on. -/
  | hole (offset : Nat) (bytes : BitVec 32) (sndLimited alloc : Bool)
  /-- No hole is left; `offset` and `bytes` are the end of the last one. -/
  | none (canRescue rescueValid : Bool) (offset : Nat) (bytes : BitVec 32) (alloc : Bool)
deriving DecidableEq, Repr

/-- The answers the recovery functions get from the pacer, the scoreboard and the buffer pool. -/
structure Recovery where
  /-- `transport_connection_tx_pacer_burst`. -/
  burstBytes : BitVec 32
  /-- `tcp_fastrecovery_prr_snd_space`. -/
  prrSndSpace : Int
  /-- `snd_una` looks like a lost retransmit; with a buffer for it. -/
  retryHead : Option Bool
  holes : List NextHole
  /-- Buffers there are for retransmits without SACKs. -/
  rxtBufs : Nat
  /-- Buffers there are for new data. -/
  nBufs : Nat
deriving DecidableEq, Repr

/-- New data of `tcp_retransmit_sack`, once no lost hole is left. -/
def tcpRetransmitSackUnsent (tc : Connection) (sndSpace : Int) (maxDeq : BitVec 32)
    (burstLeft nBufs : Nat) : Connection × List Segment :=
  let avWnd := max (tc.sndWnd - tc.flight - tc.mss32).toInt 0
  let sndSpace := min sndSpace avWnd
  let sndSpace := min maxDeq.toNat sndSpace.toNat
  tcpTransmitUnsent tc (min (min burstLeft (sndSpace / tc.sndMss)) rxtMaxBurst) nBufs

/-- The loop of `tcp_retransmit_sack`; `n` segments may still be sent. -/
def tcpRetransmitSackLoop (maxDeq : BitVec 32) (nBufs : Nat) :
    List NextHole → Nat → Int → Connection → Connection × List Segment
  | [], _, _, tc => (tc, [])
  | _, 0, _, tc => (tc, [])
  | .none canRescue rescueValid offset bytes alloc :: _, n + 1, sndSpace, tc =>
    if sndSpace ≤ 0 then (tc, [])
    else if maxDeq.toNat > tc.sndMss then tcpRetransmitSackUnsent tc sndSpace maxDeq (n + 1) nBufs
    else if tc.cc.recovery || !canRescue || rescueValid then (tc, [])
    else
      let maxBytes := min (min tc.sndMss.val bytes.toNat) sndSpace.toNat
      let (tc, nWritten) := tcpPrepareRetransmitSegment tc offset maxBytes alloc
      if nWritten = 0 then (tc, [])
      else (tc, [.rxt (tc.sndUna + BitVec.ofNat 32 offset) nWritten])
  | .hole offset bytes sndLimited alloc :: holes, n + 1, sndSpace, tc =>
    if sndSpace ≤ 0 then (tc, [])
    else
      let maxBytes := min bytes.toNat sndSpace.toNat
      let maxBytes := if sndLimited then min maxBytes tc.sndMss else maxBytes
      if maxBytes = 0 then (tc, [])
      else
        let (tc, nWritten) := tcpPrepareRetransmitSegment tc offset maxBytes alloc
        if nWritten = 0 then (tc, [])
        else
          let (tc, segs) := tcpRetransmitSackLoop maxDeq nBufs holes n (sndSpace - nWritten) tc
          (tc, .rxt (tc.sndUna + BitVec.ofNat 32 offset) nWritten :: segs)

def tcpRetransmitSack (tc : Connection) (burstSize : Nat) (r : Recovery) :
    Connection × List Segment :=
  let burstSize := min burstSize (r.burstBytes.toNat / tc.sndMss)
  let sndSpace := if tc.cc.recovery then (tcpAvailableCcSndSpace tc).toInt else r.prrSndSpace
  let maxDeq := BitVec.ofNat 32 tc.maxDeq - tc.flight
  if burstSize = 0 ∨ sndSpace < tc.sndMss then (tc, [])
  else
    match r.retryHead with
    | Option.none =>
      let tc := { tc with cc := { tc.cc with frxtFirst := false } }
      tcpRetransmitSackLoop maxDeq r.nBufs r.holes burstSize sndSpace tc
    | some alloc =>
      let (tc, nWritten) := tcpPrepareRetransmitSegment tc 0 (min tc.sndMss.val tc.flight.toNat) alloc
      if nWritten = 0 then (tc, [])
      else
        let tc := { tc with cc := { tc.cc with
          rxtDelivered := tc.cc.rxtDelivered + BitVec.ofNat 32 nWritten, frxtFirst := false } }
        let (tc, segs) :=
          tcpRetransmitSackLoop maxDeq r.nBufs r.holes (burstSize - 1) sndSpace tc
        (tc, .rxt tc.sndUna nWritten :: segs)

/-- The retransmit loop of `tcp_retransmit_no_sack`: the segments, the space and the burst left. -/
def tcpRetransmitNoSackLoop :
    Nat → Nat → Nat → Int → Connection → Connection × List Segment × Int × Nat
  | 0, _, _, sndSpace, tc => (tc, [], sndSpace, 0)
  | n + 1, nBufs, offset, sndSpace, tc =>
    if sndSpace ≤ 0 then (tc, [], sndSpace, n + 1)
    else
      let maxBytes := min tc.sndMss.val
        (tc.cc.sndCongestion - tc.sndUna - BitVec.ofNat 32 offset).toNat
      if maxBytes = 0 then (tc, [], sndSpace, n + 1)
      else
        let (tc, nWritten) := tcpPrepareRetransmitSegment tc offset maxBytes (decide (0 < nBufs))
        if nWritten = 0 then (tc, [], sndSpace, n + 1)
        else
          let (tc, segs, sndSpace, left) :=
            tcpRetransmitNoSackLoop n (nBufs - 1) (offset + nWritten) (sndSpace - nWritten) tc
          (tc, .rxt (tc.sndUna + BitVec.ofNat 32 offset) nWritten :: segs, sndSpace, left)

def tcpRetransmitNoSack (tc : Connection) (burstSize : Nat) (r : Recovery) :
    Connection × List Segment :=
  let burstSize := min burstSize (r.burstBytes.toNat / tc.sndMss)
  if burstSize = 0 then (tc, [])
  else
    let sndSpace := (tcpAvailableCcSndSpace tc).toInt
    let (tc, segs, sndSpace, left) :=
      if tc.cc.frxtFirst then
        tcpRetransmitNoSackLoop burstSize r.rxtBufs 0 sndSpace tc
      else (tc, [], sndSpace, burstSize)
    let maxDeq := BitVec.ofNat 32 tc.maxDeq - tc.flight
    let off (tc : Connection) := { tc with cc := { tc.cc with frxtFirst := false } }
    if left = 0 ∨ sndSpace < tc.sndMss ∨ maxDeq = 0 then (off tc, segs)
    else
      let sndSpace := min maxDeq.toNat sndSpace.toNat
      let (tc, new) := tcpTransmitUnsent tc (min left (sndSpace / tc.sndMss)) r.nBufs
      (off tc, segs ++ new)

end Vpp.Tcp
