import Vpp.Tcp.SequenceSpace

/-!
# New data and the peer's window

`tcp_session_send_params`, `tcp_retransmit_sack` and `tcp_retransmit_no_sack` in every state a
connection can get into. All of them take `snd_wnd - (snd_nxt - snd_una)` in 32 bits, which wraps once
the window has shrunk below the data in flight. `tcp_retransmit_sack` compares the difference as a
signed number and is safe; the others are when something else keeps them from sending.
-/

namespace Vpp.Tcp

open Vpp.Lib Nat

/-! ## Reachable states -/

/-- The sender's inputs and the two recovery functions. -/
inductive Event
  | input (i : Input)
  | retransmitSack (burstSize : Nat) (r : Recovery)
  | retransmitNoSack (burstSize : Nat) (r : Recovery)

def stepEvent (size : FifoSize) (tc : Connection) : Event → Connection × Output
  | .input i => step size tc i
  | .retransmitSack burstSize r => sent (tcpRetransmitSack tc burstSize r)
  | .retransmitNoSack burstSize r => sent (tcpRetransmitNoSack tc burstSize r)

/-- The fifo holds no more than its limit, and the window came from a 16-bit field. -/
structure Bounded (tc : Connection) : Prop where
  maxDeq : tc.maxDeq ≤ 2 ^ 31
  sndWnd : tc.sndWnd.toNat < 2 ^ 30

/-- Neither the window nor the fifo changes, and new data keeps to the window. -/
structure Within (tc : Connection) (r : Connection × List Segment) : Prop where
  sndWnd : r.1.sndWnd = tc.sndWnd
  maxDeq : r.1.maxDeq = tc.maxDeq
  flight : 0 < newBytes r.2 → r.1.flight.toNat ≤ r.1.sndWnd.toNat

/-! ## Send parameters -/

/-- What makes a send space too small to be worth it: the window is closed or the space does not fill it and,
unless the window is smaller than a segment, not a segment nor, if it is not 0, `cwnd`. -/
def TooSmall (tc : Connection) (sndSpace : BitVec 32) : Prop :=
  tc.sndWnd = 0 ∨ sndSpace < tc.sndWnd ∧
    (tc.sndWnd < tc.mss32 ∨ sndSpace < tc.mss32 ∧ (sndSpace < tc.cc.cwnd ∨ sndSpace = 0))

instance (tc : Connection) (sndSpace : BitVec 32) : Decidable (TooSmall tc sndSpace) :=
  inferInstanceAs (Decidable (_ ∨ _))

/-- What `tcp_session_send_params` needs to keep to the window: it is not exceeded yet, the connection is in
recovery or closed, limited transmit does not apply, or too little is left of its segments. -/
def OffersWithin (tc : Connection) (mss : Mss) : Prop :=
  tc.flight ≤ tc.sndWnd ∨ tc.cc.inCongRecovery = true ∨ tc.state = .closed ∨
    limitsTransmit tc = false ∨
    TooSmall { tc with sndMss := mss } (limitedTransmitSpace { tc with sndMss := mss })

instance (tc : Connection) (mss : Mss) : Decidable (OffersWithin tc mss) :=
  inferInstanceAs (Decidable (_ ∨ _))

theorem tcpRoundSndSpace_eq_zero_iff {tc : Connection} {sndSpace : BitVec 32} :
    tcpRoundSndSpace tc sndSpace = 0 ↔ TooSmall tc sndSpace := by
  have hpos : 0 < tc.mss32.toNat := tc.toNat_mss32 ▸ tc.sndMss.2.1
  have hzero : (0 : BitVec 32).toNat = 0 := rfl
  unfold tcpRoundSndSpace TooSmall
  simp only [BitVec.lt_def, BitVec.le_def, ← BitVec.toNat_inj, hzero]
  split
  · split <;> omega
  split
  · split <;> omega
  · have hmod := mod_lt sndSpace.toNat hpos
    have hle : sndSpace % tc.mss32 ≤ sndSpace := mod_le _ _
    rw [BitVec.toNat_sub_of_le hle, BitVec.toNat_umod]
    omega

theorem tcpRoundSndSpace_zero {tc : Connection} : tcpRoundSndSpace tc 0 = 0 := by
  have hpos : 0 < tc.mss32.toNat := tc.toNat_mss32 ▸ tc.sndMss.2.1
  have hzero : (0 : BitVec 32).toNat = 0 := rfl
  rw [tcpRoundSndSpace_eq_zero_iff, TooSmall]
  simp only [BitVec.lt_def, ← BitVec.toNat_inj, hzero, or_true, and_true]
  omega

variable {tc : Connection} {r : Connection × List Segment} {maxDeq : BitVec 32}

theorem tcpAvailableOutputSndSpace_eq_zero (h : ¬ tc.flight ≤ tc.sndWnd) :
    tcpAvailableOutputSndSpace tc = 0 := by
  have hle : tcpAvailableSndWnd tc ≤ tc.flight := by
    rw [BitVec.le_def] at h ⊢
    rw [tcpAvailableSndWnd, toNat_minW]
    omega
  rw [tcpAvailableOutputSndSpace, if_pos hle]

theorem tcpSndSpaceInline_eq_zero_iff (tc : Connection) (h : ¬ tc.flight ≤ tc.sndWnd) :
    (tcpSndSpaceInline tc).2 = 0 ↔ tc.cc.inCongRecovery = true ∨ tc.state = .closed ∨
      limitsTransmit tc = false ∨ TooSmall tc (limitedTransmitSpace tc) := by
  rw [← tcpRoundSndSpace_eq_zero_iff]
  unfold tcpSndSpaceInline
  split
  · rename_i hrec
    simp only [Bool.or_eq_true, beq_iff_eq] at hrec
    tauto
  rename_i hrec
  simp only [Bool.or_eq_true, beq_iff_eq, not_or] at hrec
  split
  · rename_i hlim
    simp only [hrec.1, hrec.2, hlim, false_or, Bool.true_eq_false, Bool.false_eq_true]
  · rename_i hlim
    simp only [tcpAvailableOutputSndSpace_eq_zero h, tcpRoundSndSpace_zero, true_iff]
    exact .inr (.inr (.inl (by simpa using hlim)))

theorem tcpSessionSendParams_within_iff {mss : Mss} :
    (0 < (tcpSessionSendParams tc mss).2.sndSpace.toNat →
      (tcpSessionSendParams tc mss).2.txOffset.toNat +
        (tcpSessionSendParams tc mss).2.sndSpace.toNat ≤ tc.sndWnd.toNat) ↔ OffersWithin tc mss := by
  have hs := tcpSessionSendParams_sameSpace tc mss
  have hoff : (tcpSessionSendParams tc mss).2.txOffset = tc.flight := hs.flight
  have hsp : (tcpSessionSendParams tc mss).2.sndSpace =
      minW (tcpSndSpaceInline { tc with sndMss := mss }).2 (tc.sndWnd - tc.flight) := by
    have h1 := hs.flight
    have h2 := hs.sndWnd
    simp only [tcpSessionSendParams] at h1 h2 ⊢
    rw [h1, h2]
  have hsub := BitVec.toNat_sub tc.sndWnd tc.flight
  rw [hoff, hsp, toNat_minW]
  unfold OffersWithin
  by_cases hle : tc.flight ≤ tc.sndWnd
  · simp only [hle, true_or, iff_true]
    rw [BitVec.le_def] at hle
    omega
  have hz := tcpSndSpaceInline_eq_zero_iff { tc with sndMss := mss } hle
  simp only [hle, false_or]
  rw [BitVec.le_def] at hle
  refine Iff.trans ?_ hz
  rw [← BitVec.toNat_inj]
  show _ ↔ _ = 0
  omega

/-! ## New data in loss recovery -/

theorem SendsNew.toNat_flight
    (h : SendsNew tc r) (hmax : tc.maxDeq < 2 ^ 32) (hpos : 0 < newBytes r.2) :
    r.1.flight.toNat = tc.flight.toNat + newBytes r.2 := by
  have hb := h.bound
  rw [← tc.toNat_flight_advance (by omega), Connection.flight, h.sndNxt, h.sndUna]
  rfl

variable {burstSize nBufs : Nat} {sndSpace : Int}

/-- New data keeps to a window that is not exceeded yet, and there is none in an empty burst or when
all of the fifo is in flight. -/
theorem tcpTransmitUnsent_within (nBufs : Nat) (hb : Bounded tc)
    (h : tc.flight ≤ tc.sndWnd ∨ burstSize = 0 ∨ tc.maxDeq ≤ tc.flight.toNat) :
    Within tc (tcpTransmitUnsent tc burstSize nBufs) := by
  have hmax : tc.maxDeq < 2 ^ 32 := lt_of_le_of_lt hb.maxDeq (by decide)
  have hs := tcpTransmitUnsent_sendsNew burstSize nBufs hmax
  have hle : newBytes (tcpTransmitUnsent tc burstSize nBufs).2 ≤ _ := newBytes_tcpTransmitLoop_le _ _ _ _
  refine ⟨hs.sndWnd, hs.maxDeq, fun hpos => ?_⟩
  rcases h with h | rfl | h
  · rw [hs.toNat_flight hmax hpos, hs.sndWnd]
    have hsub := BitVec.toNat_sub_of_le h
    have hdiv := div_mul_le_self (tc.sndWnd - tc.flight).toNat tc.sndMss
    have hmul : min burstSize ((tc.sndWnd - tc.flight).toNat / tc.sndMss) * tc.sndMss ≤
        (tc.sndWnd - tc.flight).toNat / tc.sndMss * tc.sndMss :=
      Nat.mul_le_mul_right _ (min_le_right _ _)
    omega
  · rw [Nat.zero_min] at hle
    omega
  · have := hs.bound
    omega

variable {tc' : Connection}

theorem Within.of_sameSpace (hs : SameSpace tc tc') (h : Within tc' r) : Within tc r :=
  ⟨h.sndWnd.trans hs.sndWnd, h.maxDeq.trans hs.maxDeq, h.flight⟩

theorem within_nil (hs : SameSpace tc tc') : Within tc (tc', []) :=
  ⟨hs.sndWnd, hs.maxDeq, fun h => nomatch h⟩

theorem Within.rxt (h : Within tc r)
    (seq : BitVec 32) (len : Nat) : Within tc (r.1, .rxt seq len :: r.2) :=
  ⟨h.sndWnd, h.maxDeq, h.flight⟩

theorem Bounded.of_sameSpace (h : Bounded tc) (hs : SameSpace tc tc') : Bounded tc' :=
  ⟨hs.maxDeq ▸ h.maxDeq, hs.sndWnd ▸ h.sndWnd⟩

/-- The signed difference keeps the new data of `tcp_retransmit_sack` within the window: the flight is less
than half the sequence space ahead of it. -/
theorem tcpRetransmitSackUnsent_within (hb : Bounded tc)
    (hmax : maxDeq = BitVec.ofNat 32 tc.maxDeq - tc.flight) (hmss : maxDeq.toNat > tc.sndMss)
    {burstLeft : Nat} : Within tc (tcpRetransmitSackUnsent tc sndSpace maxDeq burstLeft nBufs) := by
  refine tcpTransmitUnsent_within nBufs hb ?_
  by_cases hle : tc.flight ≤ tc.sndWnd
  · exact .inl hle
  by_cases hfifo : tc.maxDeq ≤ tc.flight.toNat
  · exact .inr (.inr hfifo)
  have hdeq := hb.maxDeq
  have hleft : maxDeq.toNat = tc.maxDeq - tc.flight.toNat := by
    rw [hmax, BitVec.toNat_sub, BitVec.toNat_ofNat]
    omega
  have hneg : (tc.sndWnd - tc.flight - tc.mss32).toInt ≤ 0 := by
    rw [BitVec.le_def] at hle
    rw [BitVec.toInt_eq_toNat_cond, BitVec.toNat_sub, BitVec.toNat_sub, tc.toNat_mss32]
    split <;> omega
  have hspace : min maxDeq.toNat
      (min sndSpace (max (tc.sndWnd - tc.flight - tc.mss32).toInt 0)).toNat = 0 := by omega
  rw [hspace, Nat.zero_div]
  omega

theorem tcpRetransmitSackLoop_within {n : Nat} {holes : List NextHole} (hb : Bounded tc)
    (hmax : maxDeq = BitVec.ofNat 32 tc.maxDeq - tc.flight) :
    Within tc (tcpRetransmitSackLoop maxDeq nBufs holes n sndSpace tc) := by
  induction holes generalizing n sndSpace tc with
  | nil => exact within_nil (.rfl' tc)
  | cons hole holes ih =>
    cases n with
    | zero => exact within_nil (.rfl' tc)
    | succ n =>
      cases hole with
      | none canRescue rescueValid offset bytes alloc =>
        simp only [tcpRetransmitSackLoop]
        split
        · exact within_nil (.rfl' tc)
        split
        · rename_i hmss
          exact tcpRetransmitSackUnsent_within hb hmax hmss
        split
        · exact within_nil (.rfl' tc)
        have hp := (tcpPrepareRetransmitSegment_spec tc offset
          (min (min tc.sndMss.val bytes.toNat) sndSpace.toNat) alloc).1
        split
        · exact within_nil hp
        · exact (within_nil hp).rxt _ _
      | hole offset bytes sndLimited alloc =>
        simp only [tcpRetransmitSackLoop]
        generalize (if sndLimited = true then _ else _ : Nat) = maxBytes
        split
        · exact within_nil (.rfl' tc)
        split
        · exact within_nil (.rfl' tc)
        have hp := (tcpPrepareRetransmitSegment_spec tc offset maxBytes alloc).1
        split
        · exact within_nil hp
        · refine Within.of_sameSpace hp (Within.rxt (ih (hb.of_sameSpace hp) ?_) _ _)
          rw [hmax, hp.fifoLeft]

theorem tcpRetransmitSack_within (hb : Bounded tc) (burstSize : Nat) (r : Recovery) :
    Within tc (tcpRetransmitSack tc burstSize r) := by
  simp only [tcpRetransmitSack]
  generalize (if tc.cc.recovery = true then _ else _ : Int) = sndSpace
  split
  · exact within_nil (.rfl' tc)
  split
  · have hs := SameSpace.withCc tc { tc.cc with frxtFirst := false }
    exact Within.of_sameSpace hs (tcpRetransmitSackLoop_within (hb.of_sameSpace hs) rfl)
  rename_i alloc _
  have hp := (tcpPrepareRetransmitSegment_spec tc 0 (min tc.sndMss.val tc.flight.toNat) alloc).1
  split
  · exact within_nil hp
  · have hs := fun cc => hp.trans (.withCc _ cc)
    refine Within.of_sameSpace (hs _)
      (Within.rxt (tcpRetransmitSackLoop_within (hb.of_sameSpace (hs _)) ?_) _ _)
    exact (hs _).fifoLeft

theorem tcpRetransmitNoSackLoop_spec (n nBufs offset : Nat) (sndSpace : Int) (tc : Connection) :
    let r := tcpRetransmitNoSackLoop n nBufs offset sndSpace tc
    SameSpace tc r.1 ∧ r.1.sndMss = tc.sndMss ∧ newBytes r.2.1 = 0 ∧ r.2.2.1 ≤ sndSpace := by
  induction n generalizing nBufs offset sndSpace tc with
  | zero => exact ⟨.rfl' tc, rfl, rfl, Int.le_refl _⟩
  | succ n ih =>
    simp only [tcpRetransmitNoSackLoop]
    generalize (min tc.sndMss.val _ : Nat) = maxBytes
    split
    · exact ⟨.rfl' tc, rfl, rfl, Int.le_refl _⟩
    split
    · exact ⟨.rfl' tc, rfl, rfl, Int.le_refl _⟩
    have hp := (tcpPrepareRetransmitSegment_spec tc offset maxBytes (decide (0 < nBufs))).1
    have hm := tcpPrepareRetransmitSegment_sndMss tc offset maxBytes (decide (0 < nBufs))
    generalize tcpPrepareRetransmitSegment tc offset maxBytes (decide (0 < nBufs)) = p at hp hm ⊢
    split
    · exact ⟨hp, hm, rfl, Int.le_refl _⟩
    · obtain ⟨hs, hmss, hnew, hle⟩ := ih (nBufs - 1) (offset + p.2) (sndSpace - p.2) p.1
      exact ⟨hp.trans hs, hmss.trans hm, hnew, Int.le_trans hle (by omega)⟩

/-- What `tcp_retransmit_no_sack` needs to keep to the window: it is not exceeded yet, or congestion control or
the fifo leave less than a segment to send. -/
def SendsWithin (tc : Connection) : Prop :=
  tc.flight ≤ tc.sndWnd ∨ tcpAvailableCcSndSpace tc < tc.mss32 ∨
    tc.maxDeq < tc.flight.toNat + tc.sndMss

theorem toInt_le_toNat (x : BitVec 32) : x.toInt ≤ x.toNat := by
  rw [BitVec.toInt_eq_toNat_cond]
  split <;> omega

theorem tcpRetransmitNoSack_spec (hb : Bounded tc) (burstSize : Nat) (r : Recovery) :
    (tcpRetransmitNoSack tc burstSize r).1.sndWnd = tc.sndWnd ∧
      (tcpRetransmitNoSack tc burstSize r).1.maxDeq = tc.maxDeq ∧
      (SendsWithin tc → Within tc (tcpRetransmitNoSack tc burstSize r)) := by
  simp only [tcpRetransmitNoSack]
  split
  · exact ⟨rfl, rfl, fun _ => within_nil (.rfl' tc)⟩
  have hspec : ∀ p, p = (if tc.cc.frxtFirst = true then
        tcpRetransmitNoSackLoop (min burstSize (r.burstBytes.toNat / tc.sndMss)) r.rxtBufs 0
          (tcpAvailableCcSndSpace tc).toInt tc
      else (tc, [], (tcpAvailableCcSndSpace tc).toInt,
        min burstSize (r.burstBytes.toNat / tc.sndMss))) →
      SameSpace tc p.1 ∧ p.1.sndMss = tc.sndMss ∧ newBytes p.2.1 = 0 ∧
        p.2.2.1 ≤ (tcpAvailableCcSndSpace tc).toInt := by
    rintro p rfl
    split
    · exact tcpRetransmitNoSackLoop_spec _ _ _ _ tc
    · exact ⟨.rfl' tc, rfl, rfl, Int.le_refl _⟩
  generalize hp : (if tc.cc.frxtFirst = true then _ else _ : Connection × List Segment × Int × Nat) = p
  obtain ⟨hs, hmss, hnew, hle⟩ := hspec p hp.symm
  obtain ⟨tc', segs, sndSpace, left⟩ := p
  dsimp only at hs hmss hnew hle ⊢
  split
  · refine ⟨hs.sndWnd, hs.maxDeq, fun _ => ⟨hs.sndWnd, hs.maxDeq, fun hpos => ?_⟩⟩
    simp only [hnew] at hpos
    omega
  rename_i hgo
  simp only [not_or, hmss] at hgo
  have hnx := fun burst => tcpTransmitUnsent_sendsNew burst r.nBufs
    (lt_of_le_of_lt (hb.of_sameSpace hs).maxDeq (by decide))
  refine ⟨(hnx _).sndWnd.trans hs.sndWnd, (hnx _).maxDeq.trans hs.maxDeq, fun h => ?_⟩
  have hcase : tc'.flight ≤ tc'.sndWnd ∨
      min left (min (BitVec.ofNat 32 tc'.maxDeq - tc'.flight).toNat sndSpace.toNat / tc'.sndMss.val)
        = 0 ∨ tc'.maxDeq ≤ tc'.flight.toNat := by
    rw [hs.flight, hs.sndWnd, hs.maxDeq, hmss]
    have hdeq := hb.maxDeq
    rcases h with h | h | h
    · exact .inl h
    · have hspace := toInt_le_toNat (tcpAvailableCcSndSpace tc)
      rw [BitVec.lt_def, tc.toNat_mss32] at h
      omega
    by_cases hfl : tc.maxDeq ≤ tc.flight.toNat
    · exact .inr (.inr hfl)
    have hleft : (BitVec.ofNat 32 tc.maxDeq - tc.flight).toNat = tc.maxDeq - tc.flight.toNat := by
      rw [BitVec.toNat_sub, BitVec.toNat_ofNat]
      omega
    rw [hleft, div_eq_of_lt (by omega)]
    exact .inr (.inl (Nat.min_zero _))
  have hw := tcpTransmitUnsent_within r.nBufs (hb.of_sameSpace hs) hcase
  refine ⟨hw.sndWnd.trans hs.sndWnd, hw.maxDeq.trans hs.maxDeq, fun hpos => hw.flight ?_⟩
  simpa only [newBytes_append, hnew, Nat.zero_add] using hpos

/-- The burst that brings it out: one segment, and no buffer for a retransmit before it. -/
def oneNew (tc : Connection) : Recovery := ⟨tc.mss32, 0, none, [], 0, 1⟩

theorem tcpRetransmitNoSackLoop_noBuffer (n offset : Nat) (sndSpace : Int) (tc : Connection) :
    ∃ tc', SameSpace tc tc' ∧ tc'.sndMss = tc.sndMss ∧
      tcpRetransmitNoSackLoop (n + 1) 0 offset sndSpace tc = (tc', [], sndSpace, n + 1) := by
  simp only [tcpRetransmitNoSackLoop]
  generalize (min tc.sndMss.val _ : Nat) = maxBytes
  split
  · exact ⟨tc, .rfl' tc, rfl, rfl⟩
  split
  · exact ⟨tc, .rfl' tc, rfl, rfl⟩
  have hnone : (tcpPrepareRetransmitSegment tc offset maxBytes false).2 = 0 := by
    simp only [tcpPrepareRetransmitSegment]
    split <;> rfl
  exact ⟨_, (tcpPrepareRetransmitSegment_spec tc offset maxBytes false).1,
    tcpPrepareRetransmitSegment_sndMss tc offset maxBytes false, if_pos hnone⟩

theorem toInt_tcpAvailableCcSndSpace (hb : Bounded tc) :
    (tcpAvailableCcSndSpace tc).toInt = (tcpAvailableCcSndSpace tc).toNat := by
  have hwnd := hb.sndWnd
  have hav : (tcpAvailableSndWnd tc).toNat ≤ tc.sndWnd.toNat := by
    rw [tcpAvailableSndWnd, toNat_minW]
    exact min_le_right _ _
  refine BitVec.toInt_eq_toNat_of_lt ?_
  unfold tcpAvailableCcSndSpace
  split
  · decide
  · rename_i hgt
    rw [BitVec.toNat_sub_of_le (BitVec.le_of_lt (BitVec.not_le.mp hgt))]
    omega

theorem newBytes_tcpTransmitUnsent_one
    (hdeq : tc.flight.toNat + tc.sndMss ≤ tc.maxDeq) (hwnd : tc.sndMss ≤ (tc.sndWnd - tc.flight).toNat) :
    0 < newBytes (tcpTransmitUnsent tc 1 1).2 := by
  have hmss := tc.sndMss.2.1
  have hone : min 1 ((tc.sndWnd - tc.flight).toNat / tc.sndMss) = 1 :=
    min_eq_left ((Nat.one_le_div_iff hmss).mpr hwnd)
  have hlen : tcpPrepareSegment tc tc.flight.toNat tc.sndMss (decide (0 < 1)) = tc.sndMss :=
    min_eq_left (by omega)
  rw [tcpTransmitUnsent, hone]
  simp only [tcpTransmitLoop, hlen, if_neg hmss.ne', newBytes]
  omega

/-- **Past the window.** Otherwise a segment goes out behind the data in flight. -/
theorem tcpRetransmitNoSack_past (hb : Bounded tc) (h : ¬ SendsWithin tc) :
    0 < newBytes (tcpRetransmitNoSack tc 1 (oneNew tc)).2 ∧
      tc.sndWnd.toNat < (tcpRetransmitNoSack tc 1 (oneNew tc)).1.flight.toNat := by
  simp only [SendsWithin, not_or, BitVec.le_def, BitVec.lt_def, tc.toNat_mss32] at h
  have hmss := tc.sndMss.2.1
  have hburst : min 1 ((oneNew tc).burstBytes.toNat / tc.sndMss) = 1 := by
    rw [oneNew, tc.toNat_mss32, Nat.div_self hmss, min_self]
  obtain ⟨tc', hs, hm, hloop⟩ : ∃ tc', SameSpace tc tc' ∧ tc'.sndMss = tc.sndMss ∧
      (if tc.cc.frxtFirst = true then tcpRetransmitNoSackLoop 1 (oneNew tc).rxtBufs 0
        (tcpAvailableCcSndSpace tc).toInt tc else (tc, [], (tcpAvailableCcSndSpace tc).toInt, 1)) =
        (tc', [], (tcpAvailableCcSndSpace tc).toInt, 1) := by
    split
    · exact tcpRetransmitNoSackLoop_noBuffer 0 0 _ tc
    · exact ⟨tc, .rfl' tc, rfl, rfl⟩
  have hspace := toInt_tcpAvailableCcSndSpace hb
  have hdeq := hb.maxDeq
  have hfl : tc'.flight.toNat = tc.flight.toNat := congrArg BitVec.toNat hs.flight
  have hmax : tc'.maxDeq < 2 ^ 32 := by
    rw [hs.maxDeq]
    omega
  have hleft : (BitVec.ofNat 32 tc'.maxDeq - tc'.flight).toNat = tc.maxDeq - tc.flight.toNat := by
    rw [BitVec.toNat_sub, BitVec.toNat_ofNat, hs.maxDeq, hfl]
    omega
  have hone : min 1 (min (tc.maxDeq - tc.flight.toNat) (tcpAvailableCcSndSpace tc).toNat / tc.sndMss) = 1 :=
    min_eq_left ((Nat.one_le_div_iff hmss).mpr (by omega))
  have hgo : ¬ ((1 = 0) ∨ ((tcpAvailableCcSndSpace tc).toNat : Int) < tc.sndMss ∨
      BitVec.ofNat 32 tc'.maxDeq - tc'.flight = 0) := by
    rw [← BitVec.toNat_inj, hleft]
    show ¬ (_ ∨ _ ∨ _ = 0)
    omega
  have hnew := newBytes_tcpTransmitUnsent_one (by rw [hfl, hs.maxDeq, hm]; omega) (by
    rw [hs.sndWnd, hs.flight, hm, BitVec.toNat_sub]
    omega)
  have hflight := (tcpTransmitUnsent_sendsNew 1 1 hmax).toNat_flight hmax hnew
  simp only [tcpRetransmitNoSack]
  rw [hburst, if_neg one_ne_zero, hloop]
  simp only [hspace, hm, if_neg hgo, hleft, Int.toNat_natCast, hone, List.nil_append]
  refine ⟨hnew, ?_⟩
  show tc.sndWnd.toNat < (tcpTransmitUnsent tc' 1 1).1.flight.toNat
  omega

/-! ## Runs -/

theorem tcpUpdateSndWnd_sndWnd {seq ack wnd : BitVec 32} :
    (tcpUpdateSndWnd tc seq ack wnd).sndWnd = tc.sndWnd ∨
      (tcpUpdateSndWnd tc seq ack wnd).sndWnd = wnd := by
  unfold tcpUpdateSndWnd
  split
  · dsimp only
    split
    · exact .inr rfl
    · exact .inr rfl
  · exact .inl rfl

theorem toNat_shiftLeft_lt {window : BitVec 16} {scale : Fin 15} :
    (window.setWidth 32 <<< scale.val).toNat < 2 ^ 30 := by
  have hw := window.isLt
  have hpow : 2 ^ scale.val ≤ 2 ^ 14 := Nat.pow_le_pow_right (by decide) (by omega)
  have hmul := Nat.mul_le_mul (Nat.le_of_lt_succ hw) hpow
  rw [BitVec.toNat_shiftLeft, BitVec.toNat_setWidth]
  exact lt_of_le_of_lt (mod_le _ _) (by
    rw [mod_eq_of_lt (by omega)]
    omega)

section

variable (hb : Bounded tc)
include hb

theorem Bounded.ackTo (ack : BitVec 32) : Bounded (ackTo tc ack).1 := ⟨hb.maxDeq, hb.sndWnd⟩

theorem Bounded.drop (cc : Cc) (n : Nat) : Bounded { tc with cc := cc, maxDeq := tc.maxDeq - n } :=
  ⟨(Nat.sub_le _ _).trans hb.maxDeq, hb.sndWnd⟩

theorem Bounded.updateSndWnd (seq ack : BitVec 32) (window : BitVec 16) :
    Bounded (tcpUpdateSndWnd tc seq ack (window.setWidth 32 <<< tc.sndWscale.val)) := by
  refine ⟨by rw [tcpUpdateSndWnd_maxDeq]; exact hb.maxDeq, ?_⟩
  rcases tcpUpdateSndWnd_sndWnd with h | h
  · rw [h]
    exact hb.sndWnd
  · rw [h]
    exact toNat_shiftLeft_lt

theorem Bounded.rcvProcessAck (seq ack : BitVec 32)
    (window : BitVec 16) (cc : Cc) : Bounded (rcvProcessAck tc seq ack window cc).1 := by
  have hack := fun {tc : Connection} (hb : Bounded tc) n =>
    ((hb.updateSndWnd seq ack window).ackTo ack).drop cc n
  have hnxt : Bounded { tc with sndNxt := ack } := ⟨hb.maxDeq, hb.sndWnd⟩
  unfold Tcp.rcvProcessAck
  split
  · unfold tcpRcvAckNoCc
    split
    · split
      · exact hnxt.ackTo ack
      · exact hb
    · exact hb.ackTo ack
  · simp only [tcpRcvAck]
    split
    · split
      · exact hack hnxt _
      · exact hb
    split
    · split
      · exact hb
      split
      · exact ⟨hb.maxDeq, hb.sndWnd⟩
      · exact hb
    · exact hack hb _

theorem Bounded.sendFin (alloc : Bool) : Bounded (tcpSendFin tc alloc).1 := by
  unfold tcpSendFin
  cases tc.finsnt <;> cases alloc <;> exact ⟨hb.maxDeq, hb.sndWnd⟩

theorem Bounded.retransmitTimeout (alloc : Bool) (cc : Cc) :
    Bounded (tcpTimerRetransmitHandler tc alloc cc).1 := by
  have hclear := clearBackoff_sameSpace tc
  simp only [tcpTimerRetransmitHandler]
  split
  · split
    · exact (hb.sendFin alloc).of_sameSpace (.withRtoBoff _ _)
    split
    · exact hb.of_sameSpace (.withRtoBoff tc 0)
    split
    · exact hb.of_sameSpace (hclear.trans (.withState _ .closed))
    have hp := fun tc' n => (tcpPrepareRetransmitSegment_spec tc' 0 n alloc).1
    unfold Tcp.rxtFirstUnacked
    dsimp only
    split
    · exact hb.of_sameSpace ((hclear.trans (.withCc _ _)).trans (hp _ _))
    · exact hb.of_sameSpace ((((hclear.trans (.withCc _ _)).trans (hp _ _)).trans
        (.withRtoBoff _ _)).trans (tcpCcInitRxtTimeout_sameSpace cc))
  · exact hb

theorem Bounded.of_sendsNew (h : SendsNew tc r) : Bounded r.1 :=
  ⟨h.maxDeq ▸ hb.maxDeq, h.sndWnd ▸ hb.sndWnd⟩

theorem Bounded.step (size : FifoSize) (i : Input) : Bounded (Tcp.step size tc i).1 := by
  have hmax : tc.maxDeq < 2 ^ 32 := lt_of_le_of_lt hb.maxDeq (by decide)
  cases i with
  | enqueue n =>
    refine ⟨?_, hb.sndWnd⟩
    have := hb.maxDeq
    simp only [Tcp.step]
    omega
  | feedback cc => exact hb.of_sameSpace (.withCc tc cc)
  | setState s => exact hb.of_sameSpace (.withState tc s)
  | sessionTx mss lens => exact hb.of_sendsNew (sessionTx_sendsNew mss hmax)
  | persist bytesPerBuffer alloc =>
    exact hb.of_sendsNew (tcpTimerPersistHandler_sendsNew bytesPerBuffer alloc hmax)
  | transmitUnsent burstSize nBufs =>
    exact hb.of_sendsNew (tcpTransmitUnsent_sendsNew burstSize nBufs hmax)
  | retransmitTimeout alloc cc => exact hb.retransmitTimeout alloc cc
  | sendFin alloc => exact hb.sendFin alloc
  | ack seq ack window cc => exact hb.rcvProcessAck seq ack window cc

theorem Bounded.stepEvent (size : FifoSize) (e : Event) : Bounded (Tcp.stepEvent size tc e).1 := by
  cases e with
  | input i => exact hb.step size i
  | retransmitSack burstSize r =>
    have h := tcpRetransmitSack_within hb burstSize r
    exact ⟨h.maxDeq ▸ hb.maxDeq, h.sndWnd ▸ hb.sndWnd⟩
  | retransmitNoSack burstSize r =>
    obtain ⟨hw, hd, -⟩ := tcpRetransmitNoSack_spec hb burstSize r
    exact ⟨hd ▸ hb.maxDeq, hw ▸ hb.sndWnd⟩

theorem Bounded.run (size : FifoSize) (es : List Event) :
    Bounded (after (Tcp.stepEvent size) tc es) := by
  induction es generalizing tc with
  | nil => exact hb
  | cons e es ih => exact ih (hb.stepEvent size e)

end

/-- Ten segments fill the window, and an ACK shrinks it to four of them. -/
def windowShrinks : List Event :=
  [.input (.enqueue 20000), .input (.sessionTx Connection.opened.sndMss (List.replicate 10 1000)),
    .input (.ack 0 0 4000 Connection.opened.cc)]

/-- The duplicate ACK with this number; the third starts fast recovery. -/
def dupack (n : Nat) : Event :=
  .input (.ack 0 0 4000 <| if n < 3 then
    { Connection.opened.cc with rcvDupacks := BitVec.ofNat 16 n, cwnd := BitVec.ofNat 32 (10000 + 1000 * n) }
  else { Connection.opened.cc with
    rcvDupacks := BitVec.ofNat 16 n, cwnd := 6500, sndCongestion := 10000, fastRecovery := true })

end Vpp.Tcp
