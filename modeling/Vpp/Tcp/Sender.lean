import Vpp.Lib.Run
import Vpp.Tcp.Input
import Vpp.Tcp.Output

/-!
# The sender as a machine

Everything that moves the sender's part of the sequence space, as inputs of one step function: data
written by the application, the three paths that send new data, the retransmit timer, `tcp_send_fin`
and received ACKs. Congestion control, the scoreboard and the connection's state are replaced
arbitrarily by `feedback` and `setState`.
-/

namespace Vpp.Tcp

open Vpp.Lib

/-- The size of a transmit fifo, at most `FIFO_SEGMENT_MAX_FIFO_SIZE`. -/
abbrev FifoSize := { n : Nat // n ≤ 2 ^ 31 }

inductive Input
  /-- The application writes to the transmit fifo. -/
  | enqueue (n : Nat)
  | feedback (cc : Cc)
  | setState (s : State)
  /-- The session layer asks for the send parameters and pushes buffers of these lengths. -/
  | sessionTx (mss : Mss) (lens : List Nat)
  | persist (bytesPerBuffer : BufferBytes) (alloc : Bool)
  /-- Loss recovery sends new data. -/
  | transmitUnsent (burstSize nBufs : Nat)
  | retransmitTimeout (alloc : Bool) (cc : Cc)
  | sendFin (alloc : Bool)
  | ack (seq ack : BitVec 32) (window : BitVec 16) (cc : Cc)

inductive Output
  | sent (segs : List Segment)
  | ack (r : AckResult)
deriving DecidableEq, Repr

/-- The states in which ACKs go through `tcp_rcv_ack_no_cc`. -/
def State.acksNoCc : State → Bool
  | .finWait2 | .closing | .lastAck | .timeWait => true
  | _ => false

def rcvProcessAck (tc : Connection) (seq ack : BitVec 32) (window : BitVec 16) (cc : Cc) :
    Connection × AckResult :=
  if tc.state.acksNoCc then tcpRcvAckNoCc tc ack else tcpRcvAck tc seq ack window cc

/-- The session layer's turn: at most the send space, and only data that is in the fifo behind what
is in flight. -/
def sessionTx (tc : Connection) (mss : Mss) (lens : List Nat) : Connection × List Segment :=
  let (tc, sp) := tcpSessionSendParams tc mss
  tcpSessionPushHeader tc (min sp.sndSpace.toNat (tc.maxDeq - sp.txOffset.toNat)) lens

def sent (r : Connection × List Segment) : Connection × Output := (r.1, .sent r.2)

def step (size : FifoSize) (tc : Connection) : Input → Connection × Output
  | .enqueue n => ({ tc with maxDeq := tc.maxDeq + min n (size - tc.maxDeq) }, .sent [])
  | .feedback cc => ({ tc with cc := cc }, .sent [])
  | .setState s => ({ tc with state := s }, .sent [])
  | .sessionTx mss lens => sent (sessionTx tc mss lens)
  | .persist bytesPerBuffer alloc => sent (tcpTimerPersistHandler tc bytesPerBuffer alloc)
  | .transmitUnsent burstSize nBufs => sent (tcpTransmitUnsent tc burstSize nBufs)
  | .retransmitTimeout alloc cc => sent (tcpTimerRetransmitHandler tc alloc cc)
  | .sendFin alloc => sent (tcpSendFin tc alloc)
  | .ack seq ack window cc =>
    let (tc, r) := rcvProcessAck tc seq ack window cc
    (tc, .ack r)

/-! ## What a step does to the sequence space -/

def newBytes : List Segment → Nat
  | [] => 0
  | .data _ len :: segs => len + newBytes segs
  | _ :: segs => newBytes segs

@[simp] theorem newBytes_append (l₁ l₂ : List Segment) :
    newBytes (l₁ ++ l₂) = newBytes l₁ + newBytes l₂ := by
  induction l₁ with
  | nil => simp [newBytes]
  | cons s l₁ ih => cases s <;> simp [newBytes, ih, Nat.add_assoc]

/-- Segments of new data one behind the other, from `seq` on. -/
def Consecutive : BitVec 32 → List Segment → Prop
  | _, [] => True
  | seq, .data s len :: segs => s = seq ∧ 0 < len ∧ Consecutive (seq + BitVec.ofNat 32 len) segs
  | _, _ => False

/-- Nothing of the sequence space, the window or the fifo differs. -/
structure SameSpace (tc tc' : Connection) : Prop where
  sndUna : tc'.sndUna = tc.sndUna
  sndNxt : tc'.sndNxt = tc.sndNxt
  sndWnd : tc'.sndWnd = tc.sndWnd
  maxDeq : tc'.maxDeq = tc.maxDeq
  finsnt : tc'.finsnt = tc.finsnt

theorem SameSpace.rfl' (tc : Connection) : SameSpace tc tc := ⟨rfl, rfl, rfl, rfl, rfl⟩

theorem SameSpace.withCc (tc : Connection) (cc : Cc) : SameSpace tc { tc with cc := cc } :=
  ⟨rfl, rfl, rfl, rfl, rfl⟩

theorem SameSpace.withState (tc : Connection) (s : State) : SameSpace tc { tc with state := s } :=
  ⟨rfl, rfl, rfl, rfl, rfl⟩

theorem SameSpace.withRtoBoff (tc : Connection) (n : Nat) : SameSpace tc { tc with rtoBoff := n } :=
  ⟨rfl, rfl, rfl, rfl, rfl⟩

theorem SameSpace.trans {tc tc' tc'' : Connection} (h : SameSpace tc tc') (h' : SameSpace tc' tc'') :
    SameSpace tc tc'' :=
  ⟨h'.sndUna.trans h.sndUna, h'.sndNxt.trans h.sndNxt, h'.sndWnd.trans h.sndWnd,
    h'.maxDeq.trans h.maxDeq, h'.finsnt.trans h.finsnt⟩

variable {tc tc' : Connection} {r : Connection × List Segment}

theorem SameSpace.flight (h : SameSpace tc tc') : tc'.flight = tc.flight := by
  rw [Connection.flight, Connection.flight, h.sndUna, h.sndNxt]

theorem SameSpace.fifoLeft (h : SameSpace tc tc') :
    BitVec.ofNat 32 tc.maxDeq - tc.flight = BitVec.ofNat 32 tc'.maxDeq - tc'.flight := by
  rw [h.maxDeq, h.flight]

theorem clearBackoff_sameSpace (tc : Connection) : SameSpace tc (clearBackoff tc) := by
  unfold clearBackoff
  split
  · exact ⟨rfl, rfl, rfl, rfl, rfl⟩
  · exact .rfl' tc

theorem tcpCcInitRxtTimeout_sameSpace (cc : Cc) : SameSpace tc (tcpCcInitRxtTimeout tc cc) := by
  unfold tcpCcInitRxtTimeout
  split
  · exact ⟨rfl, rfl, rfl, rfl, rfl⟩
  · exact .rfl' tc

/-- A send path for new data: `snd_nxt` moves over new data taken from the fifo behind what is in flight, and
nothing else of the sequence space changes. -/
structure SendsNew (tc : Connection) (r : Connection × List Segment) : Prop where
  consecutive : Consecutive tc.sndNxt r.2
  sndNxt : r.1.sndNxt = tc.sndNxt + BitVec.ofNat 32 (newBytes r.2)
  bound : newBytes r.2 ≤ tc.maxDeq - tc.flight.toNat
  sndUna : r.1.sndUna = tc.sndUna
  sndWnd : r.1.sndWnd = tc.sndWnd
  maxDeq : r.1.maxDeq = tc.maxDeq
  finsnt : r.1.finsnt = tc.finsnt

theorem sendsNew_nil (h1 : tc'.sndNxt = tc.sndNxt)
    (h2 : tc'.sndUna = tc.sndUna) (h3 : tc'.sndWnd = tc.sndWnd) (h4 : tc'.maxDeq = tc.maxDeq)
    (h5 : tc'.finsnt = tc.finsnt) : SendsNew tc (tc', []) :=
  ⟨trivial, by simp [newBytes, h1], Nat.zero_le _, h2, h3, h4, h5⟩

theorem SendsNew.cons (tc : Connection) {len : Nat}
    (hpos : 0 < len) (hlen : len ≤ tc.maxDeq - tc.flight.toNat) (hmax : tc.maxDeq < 2 ^ 32)
    (h : SendsNew (tc.advance len) r) : SendsNew tc (r.1, .data tc.sndNxt len :: r.2) := by
  have hb := h.bound
  rw [tc.toNat_flight_advance (by omega), Connection.advance_maxDeq] at hb
  refine ⟨⟨rfl, hpos, h.consecutive⟩, ?_, ?_, h.sndUna, h.sndWnd, h.maxDeq, h.finsnt⟩
  · rw [h.sndNxt]
    simp only [newBytes, Connection.advance_sndNxt, BitVec.ofNat_add, BitVec.add_assoc]
  · simp only [newBytes]
    omega

variable {lens : List Nat}

theorem tcpSessionPushHeader_sendsNew {budget : Nat} (hb : budget ≤ tc.maxDeq - tc.flight.toNat)
    (hmax : tc.maxDeq < 2 ^ 32) : SendsNew tc (tcpSessionPushHeader tc budget lens) := by
  induction lens generalizing tc budget with
  | nil => exact sendsNew_nil rfl rfl rfl rfl rfl
  | cons len lens ih =>
    simp only [tcpSessionPushHeader]
    split
    · exact sendsNew_nil rfl rfl rfl rfl rfl
    · refine SendsNew.cons _ (by omega) (by omega) hmax (ih ?_ hmax)
      rw [tc.toNat_flight_advance (by omega), Connection.advance_maxDeq]
      omega

theorem tcpPrepareSegment_le (tc : Connection) (offset n : Nat) (alloc : Bool) :
    tcpPrepareSegment tc offset n alloc ≤ min n (tc.maxDeq - offset) := by
  unfold tcpPrepareSegment
  split <;> omega

theorem tcpTransmitLoop_sendsNew (n nBufs : Nat) {offset : Nat} (ho : offset = tc.flight.toNat)
    (hmax : tc.maxDeq < 2 ^ 32) : SendsNew tc (tcpTransmitLoop n nBufs offset tc) := by
  induction n generalizing nBufs offset tc with
  | zero => exact sendsNew_nil rfl rfl rfl rfl rfl
  | succ n ih =>
    subst ho
    simp only [tcpTransmitLoop]
    split
    · exact sendsNew_nil rfl rfl rfl rfl rfl
    · have hlen := tcpPrepareSegment_le tc tc.flight.toNat tc.sndMss (decide (0 < nBufs))
      rw [tc.sndUna_add_flight]
      refine SendsNew.cons _ (by omega) (by omega) hmax (ih _ ?_ hmax)
      exact (tc.toNat_flight_advance (by omega)).symm

theorem tcpTransmitUnsent_sendsNew (burstSize nBufs : Nat) (hmax : tc.maxDeq < 2 ^ 32) :
    SendsNew tc (tcpTransmitUnsent tc burstSize nBufs) :=
  tcpTransmitLoop_sendsNew _ _ rfl hmax

theorem newBytes_tcpTransmitLoop_le (n nBufs offset : Nat) (tc : Connection) :
    newBytes (tcpTransmitLoop n nBufs offset tc).2 ≤ n * tc.sndMss := by
  induction n generalizing nBufs offset tc with
  | zero => simp [tcpTransmitLoop, newBytes]
  | succ n ih =>
    simp only [tcpTransmitLoop]
    split
    · simp [newBytes]
    have hlen := tcpPrepareSegment_le tc offset tc.sndMss (decide (0 < nBufs))
    have hrest := ih (nBufs - 1)
      (offset + tcpPrepareSegment tc offset tc.sndMss (decide (0 < nBufs)))
      (tc.advance (tcpPrepareSegment tc offset tc.sndMss (decide (0 < nBufs))))
    rw [Connection.advance_sndMss] at hrest
    simp only [newBytes, Nat.succ_mul]
    omega

theorem tcpSessionSendParams_sameSpace (tc : Connection) (mss : Mss) :
    SameSpace tc (tcpSessionSendParams tc mss).1 := by
  unfold tcpSessionSendParams tcpSndSpaceInline
  dsimp only
  split
  · exact ⟨rfl, rfl, rfl, rfl, rfl⟩
  split
  · exact ⟨rfl, rfl, rfl, rfl, rfl⟩
  · exact ⟨rfl, rfl, rfl, rfl, rfl⟩

theorem tcpPrepareRetransmitSegment_spec (tc : Connection) (offset n : Nat) (alloc : Bool) :
    SameSpace tc (tcpPrepareRetransmitSegment tc offset n alloc).1 ∧
      (tcpPrepareRetransmitSegment tc offset n alloc).2 ≤ n := by
  simp only [tcpPrepareRetransmitSegment]
  split
  · exact ⟨.rfl' tc, Nat.zero_le _⟩
  · refine ⟨⟨rfl, rfl, rfl, rfl, rfl⟩, ?_⟩
    have := tcpPrepareSegment_le tc offset (min (tc.maxDeq - offset) (min tc.sndMss.val n)) alloc
    omega

theorem tcpPrepareRetransmitSegment_sndMss (tc : Connection) (offset n : Nat) (alloc : Bool) :
    (tcpPrepareRetransmitSegment tc offset n alloc).1.sndMss = tc.sndMss := by
  simp only [tcpPrepareRetransmitSegment]
  split <;> rfl

theorem SendsNew.of_sameSpace (hs : SameSpace tc tc') (h : SendsNew tc' r) : SendsNew tc r := by
  have hb := h.bound
  rw [hs.maxDeq, hs.flight] at hb
  exact ⟨hs.sndNxt ▸ h.consecutive, by rw [h.sndNxt, hs.sndNxt], hb, by rw [h.sndUna, hs.sndUna],
    by rw [h.sndWnd, hs.sndWnd], by rw [h.maxDeq, hs.maxDeq], by rw [h.finsnt, hs.finsnt]⟩

theorem sessionTx_sendsNew (mss : Mss) (hmax : tc.maxDeq < 2 ^ 32) : SendsNew tc (sessionTx tc mss lens) := by
  have hs := tcpSessionSendParams_sameSpace tc mss
  exact SendsNew.of_sameSpace hs (tcpSessionPushHeader_sendsNew (min_le_right _ _)
    (by rw [hs.maxDeq]; exact hmax))

theorem tcpTimerPersistHandler_sendsNew (bytesPerBuffer : BufferBytes) (alloc : Bool)
    (hmax : tc.maxDeq < 2 ^ 32) : SendsNew tc (tcpTimerPersistHandler tc bytesPerBuffer alloc) := by
  simp only [tcpTimerPersistHandler]
  split
  · exact sendsNew_nil rfl rfl rfl rfl rfl
  split
  · exact sendsNew_nil rfl rfl rfl rfl rfl
  split
  · exact sendsNew_nil rfl rfl rfl rfl rfl
  split
  · have hpos : 0 < min (persistBytes tc bytesPerBuffer) (tc.maxDeq - tc.flight.toNat) := by
      have h1 := tc.sndMss.2.1
      simp only [persistBytes]
      split <;> omega
    have h := SendsNew.cons { tc with rtoBoff := tc.rtoBoff + 1 } hpos
      (min_le_right (persistBytes tc bytesPerBuffer) _) hmax
      (sendsNew_nil rfl rfl rfl rfl rfl)
    exact SendsNew.of_sameSpace (.withRtoBoff tc _) h
  · exact sendsNew_nil rfl rfl rfl rfl rfl

end Vpp.Tcp
