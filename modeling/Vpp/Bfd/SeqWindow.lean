import Vpp.Bfd.Session
import Vpp.Lib.Run
import Vpp.Lib.Serial

/-!
# The window of sequence numbers

A packet is accepted if its number is ahead of the last one by at most three times the detect multiplier,
and, with meticulous authentication, by at least one. `bfd_verify_pkt_auth_seq_num` takes the window
apart where it goes through `2 ^ 32`; there it accepts one number too many, and every number if the last
one was `2 ^ 32 - 1`.
-/

namespace Vpp.Bfd

open Lib BitVec

def maxU32 : U32 := 0xffffffff

def Session.bfdVerifyPktAuthSeqNum (bs : Session) (now : Nat) (receivedSeqNum : U32)
    (isMeticulous : Bool) : Session × Bool :=
  let bs :=
    if now - bs.lastRxNsec > bs.detectionTimeNsec * 2 then
      { bs with auth := { bs.auth with remoteSeqNumberKnown := false } }
    else bs
  let threeMult := BitVec.ofNat 32 (3 * bs.localDetectMult)
  let meticulous := BitVec.ofNat 32 isMeticulous.toNat
  if bs.auth.remoteSeqNumberKnown then
    if bs.auth.remoteSeqNumber > maxU32 - threeMult then
      let z := maxU32 - bs.auth.remoteSeqNumber
      let x := threeMult - z
      if receivedSeqNum > x ∧ receivedSeqNum < bs.auth.remoteSeqNumber + meticulous then (bs, false)
      else (bs, true)
    else
      let min := bs.auth.remoteSeqNumber + meticulous
      let max := bs.auth.remoteSeqNumber + threeMult
      if receivedSeqNum < min ∨ receivedSeqNum > max then (bs, false) else (bs, true)
  else (bs, true)

/-! ## One number -/

/-- `s` is `r + k` for a `k` in the window. -/
def InWindow (r : U32) (m : Nat) (isMeticulous : Bool) (s : U32) : Prop :=
  ∃ k, isMeticulous.toNat ≤ k ∧ k ≤ 3 * m ∧ s = r + BitVec.ofNat 32 k

def SeqServed (r : U32) (m : Nat) (isMeticulous : Bool) (s : U32) : Prop :=
  r.toNat + 3 * m < 2 ^ 32 ∨
    if isMeticulous ∧ r = maxU32 then s.toNat < 3 * m else s ≠ r + BitVec.ofNat 32 (3 * m + 1)

/-- The peer's number is known and it was heard within twice the detection time. -/
structure Session.Heard (bs : Session) (now : Nat) : Prop where
  known : bs.auth.remoteSeqNumberKnown = true
  recent : now - bs.lastRxNsec ≤ bs.detectionTimeNsec * 2

variable {bs : Session} {now m : Nat} {r s : U32} {isMeticulous : Bool}

theorem inWindow_iff (hm : m ≤ 255) :
    InWindow r m isMeticulous s ↔ isMeticulous.toNat ≤ dist r s ∧ dist r s ≤ 3 * m := by
  constructor
  · rintro ⟨k, hlow, hhigh, rfl⟩
    have : dist r (r + BitVec.ofNat 32 k) = k := by
      unfold Lib.dist
      rw [show r + BitVec.ofNat 32 k - r = BitVec.ofNat 32 k by bv_omega, toNat_ofNat]
      omega
    omega
  · rintro ⟨hlow, hhigh⟩
    refine ⟨dist r s, hlow, hhigh, ?_⟩
    unfold Lib.dist
    bv_omega

theorem bfdVerifyPktAuthSeqNum_iff (h : bs.Heard now) (hpos : 1 ≤ bs.localDetectMult)
    (hm : bs.localDetectMult ≤ 255) :
    (bs.bfdVerifyPktAuthSeqNum now s isMeticulous).2 = true ↔
      if bs.auth.remoteSeqNumber.toNat + 3 * bs.localDetectMult < 2 ^ 32 then
        isMeticulous.toNat ≤ dist bs.auth.remoteSeqNumber s ∧
          dist bs.auth.remoteSeqNumber s ≤ 3 * bs.localDetectMult
      else (isMeticulous ∧ bs.auth.remoteSeqNumber = maxU32) ∨
        isMeticulous.toNat ≤ dist bs.auth.remoteSeqNumber s ∧
          dist bs.auth.remoteSeqNumber s ≤ 3 * bs.localDetectMult + 1 := by
  have hrecent : ¬ now - bs.lastRxNsec > bs.detectionTimeNsec * 2 := not_lt.mpr h.recent
  simp only [Session.bfdVerifyPktAuthSeqNum, if_neg hrecent, h.known, if_true]
  generalize bs.auth.remoteSeqNumber = r
  generalize bs.localDetectMult = m at hpos hm ⊢
  have hmet : isMeticulous.toNat ≤ 1 := Bool.toNat_le _
  have hmax : maxU32.toNat = 2 ^ 32 - 1 := rfl
  have hreq : r = maxU32 ↔ r.toNat = 2 ^ 32 - 1 := by rw [← toNat_inj, hmax]
  have hbool : (isMeticulous = true) ↔ isMeticulous.toNat = 1 := by cases isMeticulous <;> decide
  have hthree : (BitVec.ofNat 32 (3 * m)).toNat = 3 * m := by
    rw [toNat_ofNat]
    omega
  have hone : (BitVec.ofNat 32 isMeticulous.toNat).toNat = isMeticulous.toNat := by
    rw [toNat_ofNat]
    omega
  rw [hreq, hbool]
  unfold Lib.dist
  have hspecial : r > maxU32 - BitVec.ofNat 32 (3 * m) ↔ ¬ r.toNat + 3 * m < 2 ^ 32 := by
    rw [gt_iff_lt, lt_def, toNat_sub, hthree, hmax]
    omega
  by_cases hwrap : r.toNat + 3 * m < 2 ^ 32
  · rw [if_pos hwrap, if_neg (by rw [hspecial]; omega)]
    have hlow : (r + BitVec.ofNat 32 isMeticulous.toNat).toNat = r.toNat + isMeticulous.toNat := by
      rw [toNat_add, hone]
      omega
    have hhigh : (r + BitVec.ofNat 32 (3 * m)).toNat = r.toNat + 3 * m := by
      rw [toNat_add, hthree]
      omega
    rw [toNat_sub]
    split
    · rename_i hout
      rw [gt_iff_lt, lt_def, lt_def, hlow, hhigh] at hout
      simp only [Bool.false_eq_true, false_iff]
      omega
    · rename_i hin
      rw [gt_iff_lt, lt_def, lt_def, hlow, hhigh] at hin
      simp only [true_iff]
      omega
  · rw [if_neg hwrap, if_pos (hspecial.mpr hwrap)]
    have hx : (BitVec.ofNat 32 (3 * m) - (maxU32 - r)).toNat = 3 * m + r.toNat + 1 - 2 ^ 32 := by
      rw [toNat_sub, toNat_sub, hthree, hmax]
      omega
    have hlow : (r + BitVec.ofNat 32 isMeticulous.toNat).toNat =
        if r.toNat + isMeticulous.toNat = 2 ^ 32 then 0 else r.toNat + isMeticulous.toNat := by
      rw [toNat_add, hone]
      split <;> omega
    rw [toNat_sub]
    split
    · rename_i hout
      rw [gt_iff_lt, lt_def, lt_def, hlow, hx] at hout
      simp only [Bool.false_eq_true, false_iff]
      split at hout <;> omega
    · rename_i hin
      rw [gt_iff_lt, lt_def, lt_def, hlow, hx] at hin
      simp only [true_iff]
      split at hin <;> omega

/-- **The check is right** exactly when it is served. -/
theorem verify_right_iff (h : bs.Heard now) (hpos : 1 ≤ bs.localDetectMult)
    (hm : bs.localDetectMult ≤ 255) :
    ((bs.bfdVerifyPktAuthSeqNum now s isMeticulous).2 = true ↔
      InWindow bs.auth.remoteSeqNumber bs.localDetectMult isMeticulous s) ↔
      SeqServed bs.auth.remoteSeqNumber bs.localDetectMult isMeticulous s := by
  rw [bfdVerifyPktAuthSeqNum_iff h hpos hm, inWindow_iff hm]
  generalize bs.auth.remoteSeqNumber = r
  generalize bs.localDetectMult = m at hpos hm ⊢
  have hmet : isMeticulous.toNat ≤ 1 := Bool.toNat_le _
  unfold SeqServed
  by_cases hwrap : r.toNat + 3 * m < 2 ^ 32
  · rw [if_pos hwrap]
    exact ⟨fun _ => .inl hwrap, fun _ => Iff.rfl⟩
  rw [if_neg hwrap]
  by_cases hlast : isMeticulous = true ∧ r = maxU32
  · obtain ⟨rfl, rfl⟩ := hlast
    have hd : dist maxU32 s = if s.toNat = 2 ^ 32 - 1 then 0 else s.toNat + 1 := by
      unfold Lib.dist
      rw [toNat_sub, show maxU32.toNat = 2 ^ 32 - 1 from rfl]
      split <;> omega
    rw [if_pos ⟨rfl, rfl⟩, hd, Bool.toNat_true]
    constructor
    · intro hiff
      have := hiff.mp (.inl ⟨rfl, rfl⟩)
      split at this <;> omega
    · rintro (h | h)
      · exact absurd h hwrap
      · split <;> omega
  · have hd : s = r + BitVec.ofNat 32 (3 * m + 1) ↔ dist r s = 3 * m + 1 := by
      constructor
      · rintro rfl
        rw [Lib.dist_add _ _ _ (by rw [Lib.dist_self]; omega), Lib.dist_self, Nat.zero_add]
      · intro h
        rw [← h]
        exact eq_add_dist r s
    rw [if_neg hlast, ne_eq, hd]
    simp only [hlast, false_or]
    omega

/-! ## What leaves the authentication alone -/

namespace Session

variable (bs : Session) (env : Env)

@[simp] theorem auth_bfdRecalcDetectionTime : bs.bfdRecalcDetectionTime.auth = bs.auth := by
  unfold bfdRecalcDetectionTime
  split <;> rfl

@[simp] theorem auth_bfdSetEffectiveDesiredMinTx (n : Nat) :
    (bs.bfdSetEffectiveDesiredMinTx env n).auth = bs.auth := by
  simp [bfdSetEffectiveDesiredMinTx, bfdCalcNextTx, bfdRecalcEchoTxInterval, bfdRecalcTxInterval]

@[simp] theorem auth_bfdSetEffectiveRequiredMinRx (n : Nat) :
    (bs.bfdSetEffectiveRequiredMinRx n).auth = bs.auth := by
  simp [bfdSetEffectiveRequiredMinRx]

@[simp] theorem auth_bfdSetRemoteRequiredMinRx (n : Nat) :
    (bs.bfdSetRemoteRequiredMinRx n).auth = bs.auth := by
  unfold bfdSetRemoteRequiredMinRx
  split
  · simp [bfdRecalcTxInterval]
  · rfl

@[simp] theorem auth_bfdSetRemoteRequiredMinEchoRx (n : Nat) :
    (bs.bfdSetRemoteRequiredMinEchoRx n).auth = bs.auth := by
  unfold bfdSetRemoteRequiredMinEchoRx
  split <;> rfl

@[simp] theorem auth_bfdOnStateChange : (bs.bfdOnStateChange env).auth = bs.auth := by
  unfold bfdOnStateChange
  split
  · simp
  · simp
  · simp
  · simp only
    split <;> simp

@[simp] theorem auth_bfdSetState (st : State) : (bs.bfdSetState env st).auth = bs.auth := by
  unfold bfdSetState
  split
  · simp
  · rfl

@[simp] theorem auth_bfdSessionSetFlags (up : Bool) :
    (bs.bfdSessionSetFlags env up).auth = bs.auth := by
  unfold bfdSessionSetFlags
  split <;> simp [bfdCalcNextTx, bfdSetDiag]

@[simp] theorem auth_bfdSessionSetParams (n m k : Nat) :
    (bs.bfdSessionSetParams n m k).auth = bs.auth := by
  unfold bfdSessionSetParams
  simp only
  split
  · split
    · split <;> rfl
    · rfl
    · rfl
    · split <;> rfl
  · rfl

@[simp] theorem auth_bfdOnConfigChange : (bs.bfdOnConfigChange env).auth = bs.auth := by
  unfold bfdOnConfigChange
  simp only [auth_bfdRecalcDetectionTime]
  split <;> rfl

@[simp] theorem auth_bfdSendPeriodic : (bs.bfdSendPeriodic env).auth = bs.auth := by
  unfold bfdSendPeriodic
  split
  · rfl
  split
  · rfl
  split
  · split <;> rfl
  · rfl

@[simp] theorem auth_bfdSendEcho : (bs.bfdSendEcho env).auth = bs.auth := by
  unfold bfdSendEcho
  split
  · rfl
  split
  · split <;> rfl
  · rfl

@[simp] theorem auth_bfdCheckRxTimeout : (bs.bfdCheckRxTimeout env).auth = bs.auth := by
  unfold bfdCheckRxTimeout
  split
  · simp [bfdSetDiag]
  split
  · simp [bfdSetDiag]
  · rfl

@[simp] theorem auth_bfdSwitchOnEcho : (bs.bfdSwitchOnEcho env).auth = bs.auth := by
  unfold bfdSwitchOnEcho
  split
  · simp [bfdSetPollState]
  · rfl

@[simp] theorem auth_bfdOnTimeout : (bs.bfdOnTimeout env).auth = bs.auth := by
  unfold bfdOnTimeout
  split
  · simp
  · simp
  · simp
  · simp only
    split <;> simp

@[simp] theorem auth_takeRemoteIntervals (pkt : Pkt) : (bs.takeRemoteIntervals pkt).auth = bs.auth := by
  simp [takeRemoteIntervals]

@[simp] theorem auth_finishPoll (pkt : Pkt) : (bs.finishPoll env pkt).auth = bs.auth := by
  unfold finishPoll
  split
  · split
    · simp only
      split <;> simp [bfdSetPollState]
    · rfl
    · rfl
    · rfl
  · rfl

@[simp] theorem auth_followRemoteState : (bs.followRemoteState env).auth = bs.auth := by
  unfold followRemoteState
  split
  · rfl
  split
  · simp [bfdSetDiag]
  split
  · rfl
  · split <;> simp [bfdSetDiag]
  · split <;> simp [bfdSetDiag]
  · split <;> simp [bfdSetDiag]

theorem auth_handle {ev : Event} (h : ∀ pkt, ev ≠ .packet pkt) : (bs.handle env ev).auth = bs.auth := by
  cases ev with
  | packet pkt => exact absurd rfl (h pkt)
  | timeout => exact auth_bfdOnTimeout bs env
  | setParams n m k => exact auth_bfdSessionSetParams bs n m k
  | configChanged => exact auth_bfdOnConfigChange bs env
  | setFlags up => exact auth_bfdSessionSetFlags bs env up
  | finalFrame => rfl
  | echoPacket expire =>
    simp only [handle, bfdConsumeEchoPkt]
    split <;> rfl

end Session

/-! ## Runs -/

/-- An event of a session with meticulous authentication; the number of an accepted packet. -/
def Session.receive (bs : Session) (e : Env × Event) : Session × Option U32 :=
  match e.2 with
  | .packet pkt =>
    let (bs, ok) := bs.bfdVerifyPktAuthSeqNum e.1.now pkt.seqNum true
    if ok then (bs.bfdConsumePkt e.1 pkt, some pkt.seqNum) else (bs, none)
  | ev => (bs.handle e.1 ev, none)

/-- A packet for the session, with meticulous authentication, whose number is served, while the peer is
heard. -/
structure PacketServed (bs : Session) (env : Env) (pkt : Pkt) : Prop where
  heard : bs.Heard env.now
  mult_pos : 1 ≤ bs.localDetectMult
  mult_le : bs.localDetectMult ≤ 255
  served : SeqServed bs.auth.remoteSeqNumber bs.localDetectMult true pkt.seqNum
  authPresent : pkt.getAuthPresent = true
  authType : pkt.authType = .meticulousKeyedSha1
  yourDisc : pkt.yourDisc = 0 ∨ pkt.yourDisc = bs.localDiscr

def EventServed (bs : Session) (e : Env × Event) : Prop :=
  match e.2 with
  | .packet pkt => PacketServed bs e.1 pkt
  | _ => True

theorem bfdVerifyPktAuthSeqNum_session (h : bs.Heard now) :
    (bs.bfdVerifyPktAuthSeqNum now s isMeticulous).1 = bs := by
  have hrecent : ¬ now - bs.lastRxNsec > bs.detectionTimeNsec * 2 := not_lt.mpr h.recent
  simp only [Session.bfdVerifyPktAuthSeqNum, if_neg hrecent, h.known, if_true]
  split
  · split <;> rfl
  · split <;> rfl

theorem receive_cases (e : Env × Event) (h : EventServed bs e) :
    (bs.receive e).2 = none ∧ (bs.receive e).1.auth.remoteSeqNumber = bs.auth.remoteSeqNumber ∨
      ∃ s, (bs.receive e).2 = some s ∧ (bs.receive e).1.auth.remoteSeqNumber = s ∧
        1 ≤ dist bs.auth.remoteSeqNumber s := by
  obtain ⟨env, ev⟩ := e
  by_cases hpkt : ∃ pkt, ev = .packet pkt
  · obtain ⟨pkt, rfl⟩ := hpkt
    have hsession : (bs.bfdVerifyPktAuthSeqNum env.now pkt.seqNum true).1 = bs :=
      bfdVerifyPktAuthSeqNum_session h.heard
    simp only [Session.receive, hsession]
    split
    · rename_i hok
      refine .inr ⟨pkt.seqNum, rfl, ?_, ?_⟩
      · unfold Session.bfdConsumePkt
        rw [if_neg (by rcases h.yourDisc with h | h <;> simp [h])]
        simp [Session.bfdCalcNextTx, Session.rememberSeqNumber, h.authPresent, h.authType]
      · exact ((inWindow_iff h.mult_le).mp
          (((verify_right_iff h.heard h.mult_pos h.mult_le).mpr h.served).mp hok)).1
    · exact .inl ⟨rfl, rfl⟩
  · have hne : ∀ pkt, ev ≠ .packet pkt := fun pkt heq => hpkt ⟨pkt, heq⟩
    have hreceive : bs.receive (env, ev) = (bs.handle env ev, none) := by
      cases ev with
      | packet pkt => exact absurd rfl (hne pkt)
      | _ => rfl
    rw [hreceive]
    exact .inl ⟨rfl, by rw [bs.auth_handle env hne]⟩

def accepted (bs : Session) (es : List (Env × Event)) : List U32 :=
  (outputs Session.receive bs es).filterMap id

theorem isChain_accepted (es : List (Env × Event)) (h : Along Session.receive EventServed bs es) :
    (bs.auth.remoteSeqNumber :: accepted bs es).IsChain fun a b => 1 ≤ dist a b := by
  induction es generalizing bs with
  | nil => exact .singleton _
  | cons e es ih =>
    obtain ⟨he, hes⟩ := h
    have hrest := ih hes
    unfold accepted at hrest ⊢
    rcases receive_cases e he with ⟨hout, hseq⟩ | ⟨s, hout, hseq, hdist⟩
    · rw [hseq] at hrest
      simpa only [outputs, hout, List.filterMap_cons, id_eq] using hrest
    · rw [hseq] at hrest
      simp only [outputs, hout]
      exact .cons_cons hdist hrest

/-- A packet of a session that is up, with meticulous authentication. -/
def numbered (s : U32) : Pkt where
  versDiag := 0x20
  staFlags := 0xc4
  detectMult := 3
  length := 52
  myDisc := 2
  yourDisc := 1
  desMinTx := 100000
  reqMinRx := 100000
  reqMinEchoRx := 0
  authType := .meticulousKeyedSha1
  authLen := 28
  keyId := 1
  seqNum := s
  hash := []

/-- A session that has accepted the number `r`. -/
def hearing (r : U32) : Session :=
  { bfdAddAndStartSession 1 ⟨0, 1, 2⟩ 100000 100000 3 with
    auth := ⟨some 0, none, r, true, 1, 0, false⟩ }

def quietEnv : Env := ⟨0, fun _ n => n, true, false, false⟩

theorem hearing_heard : (hearing r).Heard 0 :=
  ⟨rfl, by exact Nat.zero_le _⟩

end Vpp.Bfd
