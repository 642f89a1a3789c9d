import Vpp.Tcp.Connection

/-!
# Receiving acknowledgements

`tcp_update_snd_wnd`, `tcp_rcv_ack` and `tcp_rcv_ack_no_cc` of `tcp_input.c`. What congestion control
and the scoreboard make of an ACK is an argument. The bytes that an ACK covers are dropped from the
transmit fifo at the end of the input burst, before anything is sent, so the drop is part of
`tcp_rcv_ack` here. `tcp_rcv_ack_no_cc` asks for no drop.
-/

namespace Vpp.Tcp

open Vpp.Lib

def tcpUpdateSndWnd (tc : Connection) (seq ack sndWnd : BitVec 32) : Connection :=
  if seqLt tc.sndWl1 seq || (tc.sndWl1 == seq && seqLeq tc.sndWl2 ack) then
    let tc := { tc with sndWnd := sndWnd, sndWl1 := seq, sndWl2 := ack }
    if !decide (tc.sndWnd < tc.mss32) && !tc.cc.recovery && decide (tc.rtoBoff > 0) then
      { tc with rtoBoff := 0 }
    else tc
  else tc

/-- What became of an ACK. -/
inductive AckResult
  /-- `TCP_ERROR_ACK_FUTURE` or `TCP_ERROR_ACK_INVALID`. -/
  | invalid
  /-- `TCP_ERROR_ACK_OLD`. -/
  | old
  /-- Accepted, with `bytes_acked`. -/
  | acked (n : BitVec 32)
deriving DecidableEq, Repr

/-- The accepted part of both ACK functions: `snd_una` moves. -/
def ackTo (tc : Connection) (ack : BitVec 32) : Connection × AckResult :=
  let n := ack - tc.sndUna
  ({ tc with bytesAcked := n, sndUna := ack }, .acked n)

def tcpRcvAck (tc : Connection) (seq ack : BitVec 32) (window : BitVec 16) (cc : Cc) :
    Connection × AckResult :=
  let processAck (tc : Connection) : Connection × AckResult :=
    let tc := tcpUpdateSndWnd tc seq ack (window.setWidth 32 <<< tc.sndWscale.val)
    let (tc, r) := ackTo tc ack
    ({ tc with cc := cc, maxDeq := tc.maxDeq - tc.bytesAcked.toNat }, r)
  if seqGt ack tc.sndNxt then
    if seqLeq ack tc.sndNxt && seqGt ack tc.sndUna then processAck { tc with sndNxt := ack }
    else (tc, .invalid)
  else if seqLt ack tc.sndUna then
    if seqLt ack (tc.sndUna - tc.rcvWnd) then (tc, .old)
    else if tc.cc.inCongRecovery then ({ tc with bytesAcked := 0, cc := cc }, .old)
    else (tc, .old)
  else processAck tc

def tcpRcvAckNoCc (tc : Connection) (ack : BitVec 32) : Connection × AckResult :=
  if !(seqLeq tc.sndUna ack && seqLeq ack tc.sndNxt) then
    if seqLeq ack tc.sndNxt && seqGt ack tc.sndUna then ackTo { tc with sndNxt := ack } ack
    else (tc, .invalid)
  else ackTo tc ack

section Fields

variable (tc : Connection) (seq ack wnd : BitVec 32)

theorem tcpUpdateSndWnd_eq : ∃ w l1 l2 b,
    tcpUpdateSndWnd tc seq ack wnd =
      { tc with sndWnd := w, sndWl1 := l1, sndWl2 := l2, rtoBoff := b } := by
  unfold tcpUpdateSndWnd
  split
  · dsimp only
    split
    · exact ⟨_, _, _, _, rfl⟩
    · exact ⟨_, _, _, _, rfl⟩
  · exact ⟨_, _, _, _, rfl⟩

@[simp] theorem tcpUpdateSndWnd_sndUna : (tcpUpdateSndWnd tc seq ack wnd).sndUna = tc.sndUna := by
  obtain ⟨w, l1, l2, b, h⟩ := tcpUpdateSndWnd_eq tc seq ack wnd
  rw [h]

@[simp] theorem tcpUpdateSndWnd_sndNxt : (tcpUpdateSndWnd tc seq ack wnd).sndNxt = tc.sndNxt := by
  obtain ⟨w, l1, l2, b, h⟩ := tcpUpdateSndWnd_eq tc seq ack wnd
  rw [h]

@[simp] theorem tcpUpdateSndWnd_maxDeq : (tcpUpdateSndWnd tc seq ack wnd).maxDeq = tc.maxDeq := by
  obtain ⟨w, l1, l2, b, h⟩ := tcpUpdateSndWnd_eq tc seq ack wnd
  rw [h]

@[simp] theorem tcpUpdateSndWnd_finsnt : (tcpUpdateSndWnd tc seq ack wnd).finsnt = tc.finsnt := by
  obtain ⟨w, l1, l2, b, h⟩ := tcpUpdateSndWnd_eq tc seq ack wnd
  rw [h]

end Fields

end Vpp.Tcp
