import Vpp.Lib.Serial
import Vpp.Lib.Word

/-!
# TCP connections, as the sender sees them

The fields of `tcp_connection_t` that the send path and ACK processing read and write. What the
congestion control algorithm and the SACK scoreboard decide is gathered in `Cc`: the sender's
functions read it, and the rest of the stack may replace it at any time. `maxDeq` stands for
`transport_max_tx_dequeue`: the bytes in the transmit fifo.
-/

namespace Vpp.Tcp

open Vpp.Lib

/-- `tcp_state_t`. -/
inductive State
  | closed
  | listen
  | synSent
  | synRcvd
  | established
  | closeWait
  | finWait1
  | lastAck
  | closing
  | finWait2
  | timeWait
deriving DecidableEq, Repr

/-- `state >= TCP_STATE_ESTABLISHED`. -/
def State.synchronized : State → Bool
  | .closed | .listen | .synSent | .synRcvd => false
  | _ => true

/-- A send mss: positive, 16 bit (`ASSERT (tc->snd_mss > 0)`). -/
abbrev Mss := { m : Nat // 0 < m ∧ m < 2 ^ 16 }

structure Cc where
  cwnd : BitVec 32
  sndCongestion : BitVec 32
  /-- `snd_nxt` when limited transmit started. -/
  limitedTransmit : BitVec 32
  sndRxtBytes : BitVec 32
  rxtDelivered : BitVec 32
  rcvDupacks : BitVec 16
  sackPermitted : Bool
  sackedBytes : BitVec 32
  lostBytes : BitVec 32
  reorder : BitVec 32
  /-- `TCP_CONN_RECOVERY`. -/
  recovery : Bool
  /-- `TCP_CONN_FAST_RECOVERY`. -/
  fastRecovery : Bool
  /-- `TCP_CONN_FRXT_FIRST`. -/
  frxtFirst : Bool
deriving DecidableEq, Repr

def Cc.inCongRecovery (cc : Cc) : Bool := cc.recovery || cc.fastRecovery

/-- The sender's part of `tcp_connection_t`. -/
structure Connection where
  state : State
  sndUna : BitVec 32
  sndNxt : BitVec 32
  sndWnd : BitVec 32
  sndWl1 : BitVec 32
  sndWl2 : BitVec 32
  /-- At most `TCP_MAX_WND_SCALE`. -/
  sndWscale : Fin 15
  sndMss : Mss
  rcvWnd : BitVec 32
  bytesAcked : BitVec 32
  rtoBoff : Nat
  /-- `TCP_CONN_FINSNT`. -/
  finsnt : Bool
  /-- `TCP_CONN_FINPNDG`. -/
  finpndg : Bool
  cc : Cc
  maxDeq : Nat
deriving DecidableEq, Repr

/-- A segment handed to the output node. -/
inductive Segment
  /-- Data sent for the first time. -/
  | data (seq : BitVec 32) (len : Nat)
  /-- Data sent again. -/
  | rxt (seq : BitVec 32) (len : Nat)
  | fin (seq : BitVec 32)
deriving DecidableEq, Repr

namespace Connection

variable (tc : Connection)

/-- `snd_nxt - snd_una`. -/
def flight : BitVec 32 := tc.sndNxt - tc.sndUna

def mss32 : BitVec 32 := BitVec.ofNat 32 tc.sndMss

/-- `snd_nxt += n`. -/
def advance (n : Nat) : Connection := { tc with sndNxt := tc.sndNxt + BitVec.ofNat 32 n }

theorem toNat_flight : tc.flight.toNat = dist tc.sndUna tc.sndNxt := rfl

theorem toNat_mss32 : tc.mss32.toNat = tc.sndMss := by
  have := tc.sndMss.2.2
  rw [mss32, BitVec.toNat_ofNat]
  omega

@[simp] theorem advance_sndNxt (n : Nat) :
    (tc.advance n).sndNxt = tc.sndNxt + BitVec.ofNat 32 n := rfl

@[simp] theorem advance_sndMss (n : Nat) : (tc.advance n).sndMss = tc.sndMss := rfl

@[simp] theorem advance_maxDeq (n : Nat) : (tc.advance n).maxDeq = tc.maxDeq := rfl

theorem toNat_flight_advance {n : Nat} (h : tc.flight.toNat + n < 2 ^ 32) :
    (tc.advance n).flight.toNat = tc.flight.toNat + n :=
  dist_add _ _ _ h

theorem sndUna_add_flight : tc.sndUna + BitVec.ofNat 32 tc.flight.toNat = tc.sndNxt :=
  (eq_add_dist tc.sndUna tc.sndNxt).symm

end Connection

end Vpp.Tcp
