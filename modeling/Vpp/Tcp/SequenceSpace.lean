import Vpp.Tcp.Sender

/-!
# The sender's sequence space over whole runs

What a run has sent and what was acknowledged are read off its outputs, as unbounded numbers; the
32-bit `snd_una` and `snd_nxt` are these numbers from the initial `snd_una` on. A FIN stands right
behind all data of the run.

`tcp_send_fin` without a buffer sets `FINSNT` on the first attempt and leaves `snd_nxt` alone, and the
next attempt takes `snd_nxt - 1` for the FIN: the number of the last data byte. `Orderly` leaves that
out, along with data sent behind a FIN (`tcp_rcv_ack_no_cc` leaves acknowledged bytes in the fifo,
which then look unsent) and one ACK that `tcp_rcv_ack_no_cc` mistakes for a valid one.
-/

namespace Vpp.Tcp

open Vpp.Lib
open List hiding after

/-! ## Reading the outputs of a run -/

def Output.segments : Output → List Segment
  | .sent segs => segs
  | .ack _ => []

def segments (outs : List Output) : List Segment := outs.flatMap Output.segments

def dataBytes (outs : List Output) : Nat := newBytes (segments outs)

def Output.ackedBytes : Output → Nat
  | .ack (.acked n) => n.toNat
  | _ => 0

/-- The sum of `bytes_acked` over the accepted ACKs. -/
def ackedBytes (outs : List Output) : Nat := (outs.map Output.ackedBytes).sum

def Segment.isFin : Segment → Bool
  | .fin _ => true
  | _ => false

def finEmitted (outs : List Output) : Bool := (segments outs).any Segment.isFin

/-- The sequence space taken: all data, and the FIN once. -/
def spaceSent (outs : List Output) : Nat := dataBytes outs + (finEmitted outs).toNat

section Append

variable (outs : List Output) (o : Output)

@[simp] theorem segments_append : segments (outs ++ [o]) = segments outs ++ o.segments := by
  simp [segments]

@[simp] theorem dataBytes_append :
    dataBytes (outs ++ [o]) = dataBytes outs + newBytes o.segments := by
  simp [dataBytes]

@[simp] theorem ackedBytes_append : ackedBytes (outs ++ [o]) = ackedBytes outs + o.ackedBytes := by
  simp [ackedBytes]

@[simp] theorem finEmitted_append :
    finEmitted (outs ++ [o]) = (finEmitted outs || o.segments.any Segment.isFin) := by
  simp [finEmitted]

end Append

/-! ## The condition -/

/-- No input that the sequence space does not survive: `tcp_send_fin` gets a buffer on its first attempt, no
data is left to send behind a FIN, and `tcp_rcv_ack_no_cc` gets no ACK half the sequence space away when
nothing is in flight. -/
def Orderly (tc : Connection) : Input → Prop
  | .sendFin alloc => alloc = false → tc.finsnt = true
  | .sessionTx _ _ | .transmitUnsent _ _ => tc.finsnt = true → tc.maxDeq ≤ tc.flight.toNat
  | .ack _ ack _ _ => tc.state.acksNoCc = true → tc.sndUna = tc.sndNxt → ack ≠ tc.sndUna + 2 ^ 31
  | _ => True

instance (tc : Connection) : (i : Input) → Decidable (Orderly tc i)
  | .sendFin _ => inferInstanceAs (Decidable (_ → _))
  | .sessionTx _ _ => inferInstanceAs (Decidable (_ → _))
  | .transmitUnsent _ _ => inferInstanceAs (Decidable (_ → _))
  | .ack _ _ _ _ => inferInstanceAs (Decidable (_ → _ → _))
  | .enqueue _ => inferInstanceAs (Decidable True)
  | .feedback _ => inferInstanceAs (Decidable True)
  | .setState _ => inferInstanceAs (Decidable True)
  | .persist _ _ => inferInstanceAs (Decidable True)
  | .retransmitTimeout _ _ => inferInstanceAs (Decidable True)

/-- A connection that has just been established: nothing in flight and no FIN. -/
structure Established (size : FifoSize) (tc : Connection) : Prop where
  idle : tc.sndNxt = tc.sndUna
  finsnt : tc.finsnt = false
  maxDeq : tc.maxDeq ≤ size

/-! ## The invariant -/

/-- Where the connection stands after a run with these outputs. -/
structure Inv (base : BitVec 32) (tc : Connection) (outs : List Output) : Prop where
  una : tc.sndUna = base + BitVec.ofNat 32 (ackedBytes outs)
  nxt : tc.sndNxt = base + BitVec.ofNat 32 (spaceSent outs)
  le : ackedBytes outs ≤ spaceSent outs
  fifo : dataBytes outs ≤ ackedBytes outs + tc.maxDeq
  size : tc.maxDeq ≤ 2 ^ 31
  finsnt : tc.finsnt = finEmitted outs
  fins : ∀ seq, .fin seq ∈ segments outs → seq = base + BitVec.ofNat 32 (dataBytes outs)
  datas : ∀ seq len, .data seq len ∈ segments outs ∨ .rxt seq len ∈ segments outs →
    ∃ p, seq = base + BitVec.ofNat 32 p ∧ p + len ≤ dataBytes outs

variable {outs : List Output} {base seq : BitVec 32} {r : Connection × List Segment} {cc : Cc}

theorem Inv.flight {tc : Connection} (h : Inv base tc outs) :
    tc.flight.toNat = spaceSent outs - ackedBytes outs ∧
      spaceSent outs - ackedBytes outs < 2 ^ 32 := by
  have hb : spaceSent outs - ackedBytes outs < 2 ^ 32 := by
    have := h.fifo
    have := h.size
    have := (finEmitted outs).toNat_le
    unfold spaceSent
    omega
  rw [Connection.toNat_flight, h.una, h.nxt]
  exact ⟨dist_add_add base h.le hb, hb⟩

variable {tc tc' : Connection} {segs : List Segment}

/-- One more output. No data is new once a FIN has been sent. -/
theorem Inv.append (h : Inv base tc outs) {o : Output}
    (hnew : tc.finsnt = true → newBytes o.segments = 0)
    (una : tc'.sndUna = tc.sndUna + BitVec.ofNat 32 o.ackedBytes)
    (nxt : tc'.sndNxt =
      base + BitVec.ofNat 32 (dataBytes outs + newBytes o.segments + tc'.finsnt.toNat))
    (le : ackedBytes outs + o.ackedBytes ≤
      dataBytes outs + newBytes o.segments + tc'.finsnt.toNat)
    (fifo : dataBytes outs + newBytes o.segments ≤ ackedBytes outs + o.ackedBytes + tc'.maxDeq)
    (size : tc'.maxDeq ≤ 2 ^ 31)
    (finsnt : tc'.finsnt = (tc.finsnt || o.segments.any Segment.isFin))
    (fins : ∀ seq, .fin seq ∈ o.segments →
      seq = base + BitVec.ofNat 32 (dataBytes outs + newBytes o.segments))
    (datas : ∀ seq len, .data seq len ∈ o.segments ∨ .rxt seq len ∈ o.segments →
      ∃ p, seq = base + BitVec.ofNat 32 p ∧ p + len ≤ dataBytes outs + newBytes o.segments) :
    Inv base tc' (outs ++ [o]) := by
  have hem : tc'.finsnt = finEmitted (outs ++ [o]) := by rw [finsnt, h.finsnt, finEmitted_append]
  rw [hem] at nxt le
  refine ⟨?_, by rw [nxt, spaceSent, dataBytes_append], by simpa [spaceSent] using le,
    by simpa using fifo, size, hem, fun seq hs => ?_, fun seq len hs => ?_⟩
  · rw [una, h.una, ackedBytes_append, BitVec.add_assoc, ← BitVec.ofNat_add]
  · rw [segments_append, mem_append] at hs
    rw [dataBytes_append]
    rcases hs with hs | hs
    · have hsent : finEmitted outs = true := any_eq_true.mpr ⟨_, hs, rfl⟩
      rw [hnew (h.finsnt.trans hsent)]
      exact h.fins seq hs
    · exact fins seq hs
  · simp only [segments_append, mem_append] at hs
    rw [dataBytes_append]
    have hcases : (.data seq len ∈ segments outs ∨ .rxt seq len ∈ segments outs) ∨
        (.data seq len ∈ o.segments ∨ .rxt seq len ∈ o.segments) := by tauto
    rcases hcases with hs | hs
    · obtain ⟨p, hp, hle⟩ := h.datas seq len hs
      exact ⟨p, hp, by omega⟩
    · exact datas seq len hs

theorem Inv.nxt_eq (h : Inv base tc outs) :
    tc.sndNxt = base + BitVec.ofNat 32 (dataBytes outs + tc.finsnt.toNat) := by
  rw [h.nxt, spaceSent, h.finsnt]

theorem Inv.le_space (h : Inv base tc outs) :
    ackedBytes outs ≤ dataBytes outs + tc.finsnt.toNat := by
  rw [h.finsnt]
  exact h.le

theorem Inv.idle (h : Inv base tc outs) (h1 : tc'.sndUna = tc.sndUna) (h2 : tc'.sndNxt = tc.sndNxt)
    (h3 : tc.maxDeq ≤ tc'.maxDeq) (h4 : tc'.maxDeq ≤ 2 ^ 31) (h5 : tc'.finsnt = tc.finsnt) {o : Output}
    (ho : o.segments = []) (ha : o.ackedBytes = 0) : Inv base tc' (outs ++ [o]) := by
  have hfifo := h.fifo
  refine h.append (fun _ => by rw [ho]; rfl) ?_ ?_ ?_ ?_ h4 ?_ ?_ ?_ <;>
    simp only [ho, ha, newBytes, Nat.add_zero, h5]
  · exact h1.trans (BitVec.add_zero _).symm
  · exact h2.trans h.nxt_eq
  · exact h.le_space
  · omega
  · exact (Bool.or_false _).symm
  · exact fun _ hs => absurd hs not_mem_nil
  · exact fun _ _ hs => absurd hs (by simp)

/-! ## New data -/

theorem newBytes_pos_of_consecutive (h : Consecutive seq segs) (hz : newBytes segs = 0) : segs = [] := by
  cases segs with
  | nil => rfl
  | cons s segs =>
    cases s with
    | data s len =>
      have := h.2.1
      simp only [newBytes] at hz
      omega
    | rxt => exact h.elim
    | fin => exact h.elim

theorem Consecutive.mem {p : Nat} (h : Consecutive (base + BitVec.ofNat 32 p) segs) :
    ∀ s ∈ segs, ∃ q len, s = .data (base + BitVec.ofNat 32 q) len ∧ q + len ≤ p + newBytes segs := by
  induction segs generalizing p with
  | nil => exact fun _ hs => nomatch hs
  | cons s segs ih =>
    cases s with
    | data seq len =>
      obtain ⟨rfl, -, hrest⟩ := h
      rw [BitVec.add_assoc, ← BitVec.ofNat_add] at hrest
      intro s hs
      rcases mem_cons.mp hs with rfl | hs
      · exact ⟨p, len, rfl, by simp only [newBytes]; omega⟩
      · obtain ⟨q, len', rfl, hq⟩ := ih hrest s hs
        exact ⟨q, len', rfl, by simp only [newBytes]; omega⟩
    | rxt => exact h.elim
    | fin => exact h.elim

theorem Inv.sendsNew (h : Inv base tc outs) (hr : SendsNew tc r)
    (hfin : tc.finsnt = true → tc.maxDeq ≤ tc.flight.toNat) : Inv base r.1 (outs ++ [.sent r.2]) := by
  by_cases hz : newBytes r.2 = 0
  · have hnil := newBytes_pos_of_consecutive hr.consecutive hz
    have hnxt := hr.sndNxt
    rw [hz, BitVec.add_zero] at hnxt
    exact h.idle hr.sndUna hnxt (le_of_eq hr.maxDeq.symm) (by rw [hr.maxDeq]; exact h.size) hr.finsnt hnil
      rfl
  · have hb := hr.bound
    have hno : tc.finsnt = false := by
      cases hf : tc.finsnt
      · rfl
      · have := hfin hf
        omega
    have hnxt := h.nxt_eq
    have hle := h.le_space
    have hfl := h.flight
    rw [hno, Bool.toNat_false, Nat.add_zero] at hnxt hle
    have hmem : ∀ s ∈ r.2, ∃ q len, s = .data (base + BitVec.ofNat 32 q) len ∧
        q + len ≤ dataBytes outs + newBytes r.2 := by
      have hc := hr.consecutive
      rw [hnxt] at hc
      exact hc.mem
    have hnofin : r.2.any Segment.isFin = false := by
      rw [any_eq_false]
      intro s hs
      obtain ⟨q, len, rfl, -⟩ := hmem s hs
      exact Bool.false_ne_true
    have hsp : spaceSent outs = dataBytes outs := by rw [spaceSent, ← h.finsnt, hno]; rfl
    refine h.append ?_ ?_ ?_ ?_ ?_ (hr.maxDeq ▸ h.size) ?_ ?_ ?_ <;>
      simp only [Output.segments, Output.ackedBytes, hr.finsnt, hno, hr.maxDeq, Bool.toNat_false,
        Nat.add_zero]
    · exact fun ht => absurd ht Bool.false_ne_true
    · exact hr.sndUna.trans (BitVec.add_zero _).symm
    · rw [hr.sndNxt, hnxt, BitVec.add_assoc, ← BitVec.ofNat_add]
    · omega
    · omega
    · exact hnofin.symm
    · intro seq hs
      obtain ⟨q, len, he, -⟩ := hmem _ hs
      cases he
    · rintro seq len (hs | hs)
      · obtain ⟨q, len', he, hq⟩ := hmem _ hs
        cases he
        exact ⟨q, rfl, hq⟩
      · obtain ⟨q, len', he, hq⟩ := hmem _ hs
        cases he

/-! ## FIN and timeouts -/

theorem Inv.emitFin (h : Inv base tc outs) (hseq : seq = base + BitVec.ofNat 32 (dataBytes outs))
    (h1 : tc'.sndUna = tc.sndUna) (h2 : tc'.sndNxt = seq + 1) (h3 : tc'.maxDeq = tc.maxDeq)
    (h4 : tc'.finsnt = true) : Inv base tc' (outs ++ [.sent [.fin seq]]) := by
  have hle := h.le_space
  have hb := tc.finsnt.toNat_le
  refine h.append (fun _ => rfl) ?_ ?_ ?_ ?_ (h3 ▸ h.size) ?_ ?_ ?_ <;>
    simp only [Output.segments, Output.ackedBytes, newBytes, h4, Nat.add_zero, Bool.toNat_true]
  · exact h1.trans (BitVec.add_zero _).symm
  · rw [h2, hseq, BitVec.ofNat_add, BitVec.add_assoc]
    rfl
  · omega
  · rw [h3]
    exact h.fifo
  · exact (Bool.or_true _).symm
  · intro s hs
    cases mem_singleton.mp hs
    exact hseq
  · exact fun s len hs => absurd hs (by simp)

theorem Inv.sendFin (h : Inv base tc outs) (alloc : Bool) (hok : alloc = false → tc.finsnt = true) :
    Inv base (tcpSendFin tc alloc).1 (outs ++ [.sent (tcpSendFin tc alloc).2]) := by
  cases hf : tc.finsnt with
  | true =>
    have hem : finEmitted outs = true := by rw [← h.finsnt, hf]
    cases alloc with
    | true =>
      have hseq : tc.sndNxt - 1 = base + BitVec.ofNat 32 (dataBytes outs) := by
        rw [h.nxt, spaceSent, hem, BitVec.ofNat_add, ← BitVec.add_assoc]
        exact BitVec.add_sub_cancel _ _
      simp only [tcpSendFin, hf]
      exact h.emitFin hseq rfl rfl rfl rfl
    | false =>
      simp only [tcpSendFin, hf]
      refine h.idle ?_ ?_ ?_ ?_ ?_ rfl rfl
      · rfl
      · exact BitVec.sub_add_cancel _ _
      · exact le_refl _
      · exact h.size
      · exact hf.symm
  | false =>
    cases alloc with
    | true =>
      have hem : finEmitted outs = false := by rw [← h.finsnt, hf]
      have hseq : tc.sndNxt = base + BitVec.ofNat 32 (dataBytes outs) := by
        rw [h.nxt, spaceSent, hem, Bool.toNat_false, Nat.add_zero]
      simp only [tcpSendFin, hf]
      exact h.emitFin hseq rfl rfl rfl rfl
    | false =>
      have := hok rfl
      rw [hf] at this
      cases this

theorem Inv.rxt {n : Nat} (h : Inv base tc outs) (hfin : tc.finsnt = false) (hn : n ≤ tc.flight.toNat)
    (hsame : SameSpace tc tc') : Inv base tc' (outs ++ [.sent [.rxt tc.sndUna n]]) := by
  have hle := h.le
  have hfl := h.flight.1
  have hsp : spaceSent outs = dataBytes outs := by rw [spaceSent, ← h.finsnt, hfin]; rfl
  refine h.append (fun _ => rfl) ?_ ?_ ?_ ?_ (hsame.maxDeq ▸ h.size) ?_ ?_ ?_ <;>
    simp only [Output.segments, Output.ackedBytes, newBytes, hsame.finsnt, hsame.maxDeq, Nat.add_zero]
  · exact hsame.sndUna.trans (BitVec.add_zero _).symm
  · exact hsame.sndNxt.trans h.nxt_eq
  · exact h.le_space
  · exact h.fifo
  · exact (Bool.or_false _).symm
  · exact fun s hs => absurd hs (by simp)
  · rintro s len (hs | hs)
    · exact absurd hs (by simp)
    · cases mem_singleton.mp hs
      exact ⟨ackedBytes outs, h.una, by omega⟩

theorem Inv.same (h : Inv base tc outs) (hs : SameSpace tc tc') {o : Output} (ho : o.segments = [])
    (ha : o.ackedBytes = 0) : Inv base tc' (outs ++ [o]) :=
  h.idle hs.sndUna hs.sndNxt (le_of_eq hs.maxDeq.symm) (hs.maxDeq ▸ h.size) hs.finsnt ho ha

theorem Inv.rxtSegment {n : Nat} (h : Inv base tc outs) (hfin : tc.finsnt = false) (hs : SameSpace tc tc')
    (hn : n ≤ tc.flight.toNat)
    (hr : r = if n = 0 then (tc', []) else (tcpCcInitRxtTimeout { tc' with rtoBoff := tc'.rtoBoff + 1 } cc,
      [.rxt tc'.sndUna n])) : Inv base r.1 (outs ++ [.sent r.2]) := by
  subst hr
  split
  · exact h.same hs rfl rfl
  · have hb := hs.trans (.withRtoBoff tc' (tc'.rtoBoff + 1))
    have hrxt := h.rxt hfin hn (hb.trans (tcpCcInitRxtTimeout_sameSpace cc))
    rw [← hs.sndUna] at hrxt
    exact hrxt

theorem Inv.rxtFirstUnacked (h : Inv base tc outs) (hfin : tc.finsnt = false) (hs : SameSpace tc tc')
    (alloc : Bool) (cc : Cc) :
    Inv base (rxtFirstUnacked tc' alloc cc).1 (outs ++ [.sent (rxtFirstUnacked tc' alloc cc).2]) := by
  obtain ⟨hprep, hn⟩ := tcpPrepareRetransmitSegment_spec
    { tc' with cc := { tc'.cc with sndCongestion := tc'.sndNxt } } 0
    (min tc'.sndMss.val tc'.flight.toNat) alloc
  have hfl : min tc'.sndMss.val tc'.flight.toNat ≤ tc.flight.toNat := by
    rw [← hs.flight]
    exact min_le_right _ _
  exact h.rxtSegment hfin ((hs.trans (.withCc tc' _)).trans hprep) (le_trans hn hfl) rfl

theorem Inv.retransmitTimeout (h : Inv base tc outs) (alloc : Bool) (cc : Cc) :
    Inv base (tcpTimerRetransmitHandler tc alloc cc).1
      (outs ++ [.sent (tcpTimerRetransmitHandler tc alloc cc).2]) := by
  simp only [tcpTimerRetransmitHandler]
  split
  · split
    · rename_i hfin
      have hi := h.sendFin alloc fun _ => hfin
      exact ⟨hi.una, hi.nxt, hi.le, hi.fifo, hi.size, hi.finsnt, hi.fins, hi.datas⟩
    rename_i hfin
    split
    · exact h.same (.withRtoBoff tc 0) rfl rfl
    split
    · exact h.same ((clearBackoff_sameSpace tc).trans (.withState _ .closed)) rfl rfl
    · exact h.rxtFirstUnacked (by simpa using hfin) (clearBackoff_sameSpace tc) alloc cc
  · exact h.same (.rfl' tc) rfl rfl

/-! ## ACKs -/

/-- The ACK changed nothing of the sequence space or the window. -/
structure Ignored (tc : Connection) (r : Connection × AckResult) : Prop where
  same : SameSpace tc r.1
  result : (Output.ack r.2).ackedBytes = 0

/-- The ACK was in the window and moved `snd_una` to it. -/
structure Accepted (tc : Connection) (ack : BitVec 32) (r : Connection × AckResult) : Prop where
  inside : dist tc.sndUna ack ≤ tc.flight.toNat
  sndUna : r.1.sndUna = ack
  sndNxt : r.1.sndNxt = tc.sndNxt
  maxDeq : r.1.maxDeq ≤ tc.maxDeq ∧ tc.maxDeq ≤ dist tc.sndUna ack + r.1.maxDeq
  finsnt : r.1.finsnt = tc.finsnt
  result : r.2 = .acked (ack - tc.sndUna)

theorem tcpRcvAck_cases (ack : BitVec 32) (window : BitVec 16) :
    Ignored tc (tcpRcvAck tc seq ack window cc) ∨ Accepted tc ack (tcpRcvAck tc seq ack window cc) := by
  simp only [tcpRcvAck]
  split
  · rename_i hgt
    split
    · rename_i hboth
      -- the branch asks for an ACK both above and not above `snd_nxt`
      simp only [seqLeq, seqGt, Bool.and_eq_true, decide_eq_true_eq] at hboth hgt
      omega
    · exact .inl ⟨⟨rfl, rfl, rfl, rfl, rfl⟩, rfl⟩
  · rename_i hgt
    split
    · left
      split
      · exact ⟨⟨rfl, rfl, rfl, rfl, rfl⟩, rfl⟩
      split
      · exact ⟨⟨rfl, rfl, rfl, rfl, rfl⟩, rfl⟩
      · exact ⟨⟨rfl, rfl, rfl, rfl, rfl⟩, rfl⟩
    · rename_i hlt
      right
      have hin := inside_of_not (by simpa using hgt) (by simpa using hlt)
      refine ⟨hin, rfl, ?_, ?_, ?_, ?_⟩
      · simp [ackTo]
      · simp only [ackTo, tcpUpdateSndWnd_sndUna, tcpUpdateSndWnd_maxDeq]
        exact ⟨Nat.sub_le _ _, Nat.sub_le_iff_le_add'.mp le_rfl⟩
      · simp [ackTo]
      · simp [ackTo]

theorem tcpRcvAckNoCc_cases {ack : BitVec 32} (hok : tc.sndUna = tc.sndNxt → ack ≠ tc.sndUna + 2 ^ 31) :
    Ignored tc (tcpRcvAckNoCc tc ack) ∨ Accepted tc ack (tcpRcvAckNoCc tc ack) := by
  have hd := dist_lt tc.sndUna ack
  have hau := dist_eq tc.sndUna ack tc.sndUna
  have hna := dist_eq tc.sndUna tc.sndNxt ack
  rw [dist_self] at hau
  simp only [tcpRcvAckNoCc]
  split
  · rename_i hout
    split
    · rename_i hin
      simp only [Bool.not_eq_true', Bool.and_eq_true, seqLeq_iff, seqGt_iff, ← Bool.not_eq_true]
        at hout hin
      omega
    · exact .inl ⟨⟨rfl, rfl, rfl, rfl, rfl⟩, rfl⟩
  · rename_i hin
    simp only [Bool.not_eq_true', Bool.not_eq_false, Bool.and_eq_true, seqLeq_iff] at hin
    right
    refine ⟨?_, rfl, rfl, ⟨le_rfl, Nat.le_add_left _ _⟩, rfl, rfl⟩
    rw [Connection.toNat_flight]
    by_contra hlt
    -- only an ACK half the space away from an empty window passes both tests outside it
    have h0 : dist tc.sndUna tc.sndNxt = 0 := by omega
    have h31 : dist tc.sndUna ack = 2 ^ 31 := by omega
    refine hok ?_ ?_
    · have := eq_add_dist tc.sndUna tc.sndNxt
      rw [h0, BitVec.add_zero] at this
      exact this.symm
    · rw [eq_add_dist tc.sndUna ack, h31]
      rfl

theorem Inv.ack {ack : BitVec 32} {r : Connection × AckResult} (h : Inv base tc outs)
    (hr : Ignored tc r ∨ Accepted tc ack r) : Inv base r.1 (outs ++ [.ack r.2]) := by
  rcases hr with hr | hr
  · exact h.same hr.same rfl hr.result
  have hfl := h.flight
  have hin := hr.inside
  have hle := h.le
  have hfifo := h.fifo
  have hsz := h.size
  have hdeq := hr.maxDeq
  have hout : (Output.ack r.2).ackedBytes = dist tc.sndUna ack := by
    rw [hr.result]
    rfl
  refine h.append (fun _ => rfl) ?_ ?_ ?_ ?_ (le_trans hdeq.1 h.size) ?_ ?_ ?_ <;>
    simp only [Output.segments, hout, newBytes, hr.finsnt, Nat.add_zero]
  · exact hr.sndUna.trans (eq_add_dist tc.sndUna ack)
  · exact hr.sndNxt.trans h.nxt_eq
  · have := h.le_space
    have hsp : spaceSent outs = dataBytes outs + tc.finsnt.toNat := by rw [spaceSent, h.finsnt]
    omega
  · omega
  · exact (Bool.or_false _).symm
  · exact fun _ hs => absurd hs not_mem_nil
  · exact fun s len hs => absurd hs (by simp)

theorem rcvProcessAck_cases {ack : BitVec 32} {window : BitVec 16}
    (hok : Orderly tc (.ack seq ack window cc)) :
    Ignored tc (rcvProcessAck tc seq ack window cc) ∨
      Accepted tc ack (rcvProcessAck tc seq ack window cc) := by
  unfold rcvProcessAck
  split
  · rename_i hst
    exact tcpRcvAckNoCc_cases (hok hst)
  · exact tcpRcvAck_cases ack window

/-! ## Runs -/

theorem Inv.step {size : FifoSize} {i : Input} (h : Inv base tc outs) (hok : Orderly tc i) :
    Inv base (Tcp.step size tc i).1 (outs ++ [(Tcp.step size tc i).2]) := by
  have hmax : tc.maxDeq < 2 ^ 32 := lt_of_le_of_lt h.size (by decide)
  cases i with
  | enqueue n =>
    refine h.idle ?_ ?_ ?_ ?_ ?_ rfl rfl
    · rfl
    · rfl
    · exact Nat.le_add_right _ _
    · have := h.size
      simp only [Tcp.step]
      omega
    · rfl
  | feedback cc => exact h.same (.withCc tc cc) rfl rfl
  | setState s => exact h.same (.withState tc s) rfl rfl
  | sessionTx mss lens => exact h.sendsNew (sessionTx_sendsNew mss hmax) hok
  | persist bytesPerBuffer alloc =>
    cases hf : tc.finsnt with
    | true =>
      have hnil : tcpTimerPersistHandler tc bytesPerBuffer alloc = (tc, []) := by
        simp [tcpTimerPersistHandler, hf]
      simp only [Tcp.step, hnil]
      exact h.same (.rfl' tc) rfl rfl
    | false =>
      refine h.sendsNew (tcpTimerPersistHandler_sendsNew bytesPerBuffer alloc hmax) fun ht => ?_
      rw [hf] at ht
      cases ht
  | transmitUnsent burstSize nBufs =>
    exact h.sendsNew (tcpTransmitUnsent_sendsNew burstSize nBufs hmax) hok
  | retransmitTimeout alloc cc => exact h.retransmitTimeout alloc cc
  | sendFin alloc => exact h.sendFin alloc hok
  | ack seq ack window cc => exact h.ack (rcvProcessAck_cases hok)

theorem Inv.established {size : FifoSize} (h : Established size tc) : Inv tc.sndUna tc [] := by
  refine ⟨?_, ?_, le_refl _, Nat.zero_le _, le_trans h.maxDeq size.2, h.finsnt, ?_, ?_⟩
  · exact (BitVec.add_zero _).symm
  · exact h.idle.trans (BitVec.add_zero _).symm
  · intro seq hmem
    cases hmem
  · intro seq len hmem
    rcases hmem with hmem | hmem <;> cases hmem

theorem Inv.run {size : FifoSize} {ins : List Input} (hest : Established size tc)
    (hok : Along (Tcp.step size) Orderly tc ins) :
    Inv tc.sndUna (after (Tcp.step size) tc ins) (outputs (Tcp.step size) tc ins) := by
  have h := Along.history (Inv tc.sndUna) (fun _ _ _ h hok => h.step hok) (.established hest) hok
  rwa [nil_append] at h

/-- A connection right after the handshake, with a window of ten segments. -/
def Connection.opened : Connection where
  state := .established
  sndUna := 0
  sndNxt := 0
  sndWnd := 10000
  sndWl1 := 0
  sndWl2 := 0
  sndWscale := 0
  sndMss := ⟨1000, by decide⟩
  rcvWnd := 10000
  bytesAcked := 0
  rtoBoff := 0
  finsnt := false
  finpndg := false
  cc := ⟨10000, 0, 0, 0, 0, 0, false, 0, 0, 3, false, false, false⟩
  maxDeq := 0

/-- 2000 bytes and a FIN; the FIN is lost, the data acknowledged, and the FIN sent again without a
buffer and then with one. -/
def finLost : List Input :=
  [.enqueue 2000, .sessionTx ⟨1000, by decide⟩ [1000, 1000], .sendFin true,
    .ack 0 2000 10000 Connection.opened.cc, .retransmitTimeout false Connection.opened.cc,
    .retransmitTimeout true Connection.opened.cc]

/-- 2000 bytes, a FIN that finds no buffer, and the timeout that sends it. -/
def finWithoutBuffer : List Input :=
  [.enqueue 2000, .sessionTx ⟨1000, by decide⟩ [1000, 1000], .sendFin false,
    .retransmitTimeout true Connection.opened.cc]

end Vpp.Tcp
