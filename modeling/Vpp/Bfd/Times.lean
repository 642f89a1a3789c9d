import Vpp.Bfd.Session
import Vpp.Lib.Run

/-!
# Negotiated times

The transmit interval, the echo transmit interval and the detection time are kept next to the values they
are made of, and each setter brings up to date what depends on its value. A packet changes the detect
multiplier and the desired interval of the peer without a setter: the detection time is stale until
something else recalculates it.
-/

namespace Vpp.Bfd

open Lib

namespace Session

variable (bs : Session)

def InitOrUp : Prop := bs.localState = .init ∨ bs.localState = .up

instance : Decidable bs.InitOrUp := inferInstanceAs (Decidable (_ ∨ _))

def TxRight : Prop := bs.transmitIntervalNsec = max bs.effectiveDesiredMinTxNsec bs.remoteMinRxNsec

def EchoRight : Prop :=
  bs.echoTransmitIntervalNsec = max bs.effectiveDesiredMinTxNsec bs.remoteMinEchoRxNsec

def DetectionRight : Prop :=
  bs.InitOrUp → bs.detectionTimeNsec =
    bs.remoteDetectMult * max bs.effectiveRequiredMinRxNsec bs.remoteDesiredMinTxNsec

/-- What the session has from the last packet. A session that has had none is down. -/
def Remembers : Option Pkt → Prop
  | some pkt =>
    bs.remoteDetectMult = pkt.detectMult ∧ bs.remoteDesiredMinTxNsec = bfdUsecToNsec pkt.desMinTx
  | none => ¬ bs.InitOrUp

/-- The intervals are right, the one for echo packets if it was ever calculated. -/
structure Intervals (echoed : Prop) (last : Option Pkt) : Prop where
  tx : bs.TxRight
  echo : echoed → bs.EchoRight
  remembers : bs.Remembers last

structure Timed (echoed : Prop) (last : Option Pkt) : Prop extends bs.Intervals echoed last where
  detection : bs.DetectionRight

end Session

variable {bs : Session} {env : Env} {echoed : Prop} {last : Option Pkt}

/-! ## Setters -/

theorem bfdRecalcDetectionTime_eq : bs.bfdRecalcDetectionTime =
    { bs with
      detectionTimeNsec :=
        if bs.InitOrUp then
          bs.remoteDetectMult * max bs.effectiveRequiredMinRxNsec bs.remoteDesiredMinTxNsec
        else bs.detectionTimeNsec } := by
  by_cases h : bs.InitOrUp
  · rw [if_pos h]
    exact if_pos h
  · rw [if_neg h]
    exact if_neg h

variable {n : Nat} {t : Session}

theorem remembers_congr (hstate : t.localState = bs.localState)
    (hmult : t.remoteDetectMult = bs.remoteDetectMult)
    (htx : t.remoteDesiredMinTxNsec = bs.remoteDesiredMinTxNsec) : t.Remembers last ↔ bs.Remembers last := by
  cases last with
  | none => simp only [Session.Remembers, Session.InitOrUp, hstate]
  | some pkt => simp only [Session.Remembers, hmult, htx]

theorem Session.Remembers.setEffectiveDesiredMinTx (h : bs.Remembers last) :
    (bs.bfdSetEffectiveDesiredMinTx env n).Timed echoed last := by
  simp only [Session.bfdSetEffectiveDesiredMinTx, bfdRecalcDetectionTime_eq]
  exact ⟨⟨rfl, fun _ => rfl, (remembers_congr rfl rfl rfl).mpr h⟩, fun hs => if_pos hs⟩

theorem Session.Intervals.recalcDetectionTime (h : bs.Intervals echoed last) :
    bs.bfdRecalcDetectionTime.Timed echoed last := by
  rw [bfdRecalcDetectionTime_eq]
  exact ⟨⟨h.tx, h.echo, (remembers_congr rfl rfl rfl).mpr h.remembers⟩, fun hs => if_pos hs⟩

theorem Session.Intervals.setEffectiveRequiredMinRx (h : bs.Intervals echoed last) :
    (bs.bfdSetEffectiveRequiredMinRx n).Timed echoed last := by
  have hset : { bs with effectiveRequiredMinRxNsec := n }.Intervals echoed last :=
    ⟨h.tx, h.echo, (remembers_congr rfl rfl rfl).mpr h.remembers⟩
  exact hset.recalcDetectionTime

theorem Session.Intervals.setRemoteRequiredMinRx (h : bs.Intervals echoed last) (n : Nat) :
    (bs.bfdSetRemoteRequiredMinRx n).Intervals echoed last := by
  unfold Session.bfdSetRemoteRequiredMinRx
  split
  · simp only [bfdRecalcDetectionTime_eq]
    exact ⟨rfl, h.echo, (remembers_congr rfl rfl rfl).mpr h.remembers⟩
  · exact h

theorem detectionRight_setRemoteRequiredMinRx (h : n = bs.remoteMinRxUsec → bs.DetectionRight) :
    (bs.bfdSetRemoteRequiredMinRx n).DetectionRight := by
  unfold Session.bfdSetRemoteRequiredMinRx
  split
  · simp only [bfdRecalcDetectionTime_eq]
    exact fun hs => if_pos hs
  · rename_i hsame
    exact h (not_not.mp hsame).symm

theorem Session.Timed.setRemoteRequiredMinRx (h : bs.Timed echoed last) (n : Nat) :
    (bs.bfdSetRemoteRequiredMinRx n).Timed echoed last :=
  ⟨h.toIntervals.setRemoteRequiredMinRx n, detectionRight_setRemoteRequiredMinRx fun _ => h.detection⟩

theorem Session.Intervals.setRemoteRequiredMinEchoRx (h : bs.Intervals echoed last) (n : Nat) :
    (bs.bfdSetRemoteRequiredMinEchoRx n).Intervals (echoed ∨ n ≠ bs.remoteMinEchoRxUsec) last := by
  unfold Session.bfdSetRemoteRequiredMinEchoRx
  split
  · exact ⟨h.tx, fun _ => rfl, (remembers_congr rfl rfl rfl).mpr h.remembers⟩
  · rename_i hsame
    exact ⟨h.tx, fun he => h.echo (he.resolve_right fun hne => hsame fun heq => hne heq.symm),
      h.remembers⟩

theorem detectionRight_setRemoteRequiredMinEchoRx :
    (bs.bfdSetRemoteRequiredMinEchoRx n).DetectionRight ↔ bs.DetectionRight := by
  unfold Session.bfdSetRemoteRequiredMinEchoRx
  split
  · exact Iff.rfl
  · exact Iff.rfl

/-! ## Changes of the state -/

theorem Session.Remembers.onStateChange (h : bs.Remembers last) :
    (bs.bfdOnStateChange env).Timed echoed last := by
  have hquiet : { bs with echo := false }.Remembers last := (remembers_congr rfl rfl rfl).mpr h
  unfold Session.bfdOnStateChange
  split
  · exact hquiet.setEffectiveDesiredMinTx.toIntervals.setEffectiveRequiredMinRx
  · exact hquiet.setEffectiveDesiredMinTx.toIntervals.setEffectiveRequiredMinRx
  · exact hquiet.setEffectiveDesiredMinTx
  · simp only
    split
    · exact h.setEffectiveDesiredMinTx.toIntervals.setEffectiveRequiredMinRx
    · exact h.setEffectiveDesiredMinTx

/-- The state `st` may be entered after the last packet. -/
def Enters (last : Option Pkt) (st : State) : Prop := last = none → st ≠ .init ∧ st ≠ .up

theorem Session.Intervals.setState (h : bs.Intervals echoed last) {st : State} (hst : Enters last st)
    (hd : st = bs.localState → bs.DetectionRight) :
    (bs.bfdSetState env st).Timed (echoed ∨ st ≠ bs.localState) last := by
  unfold Session.bfdSetState
  split
  · refine Session.Remembers.onStateChange ?_
    cases last with
    | none => exact not_or.mpr (hst rfl)
    | some pkt => exact h.remembers
  · rename_i hsame
    have hsame := (not_not.mp hsame).symm
    exact ⟨⟨h.tx, fun he => h.echo (he.resolve_right fun hne => hne hsame), h.remembers⟩, hd hsame⟩

theorem Session.Timed.weaken {weaker : Prop} (h : bs.Timed echoed last) (hw : weaker → echoed) :
    bs.Timed weaker last :=
  ⟨⟨h.tx, fun he => h.echo (hw he), h.remembers⟩, h.detection⟩

theorem Session.Timed.setState (h : bs.Timed echoed last) {st : State} (hst : Enters last st) :
    (bs.bfdSetState env st).Timed echoed last :=
  (h.toIntervals.setState hst fun _ => h.detection).weaken .inl

/-- What `Timed` is about. -/
def Session.times (bs : Session) : State × Nat × Nat × Nat × Nat × Nat × Nat × Nat × Nat × Nat :=
  (bs.localState, bs.remoteDetectMult, bs.remoteDesiredMinTxNsec, bs.transmitIntervalNsec,
    bs.echoTransmitIntervalNsec, bs.detectionTimeNsec, bs.effectiveDesiredMinTxNsec,
    bs.effectiveRequiredMinRxNsec, bs.remoteMinRxNsec, bs.remoteMinEchoRxNsec)

theorem Session.Intervals.congr (h : bs.Intervals echoed last) (heq : t.times = bs.times) :
    t.Intervals echoed last := by
  simp only [Session.times, Prod.mk.injEq] at heq
  obtain ⟨hstate, hmult, hremote, htx, hecho, -, hdesired, -, hmin, hminEcho⟩ := heq
  refine ⟨?_, fun he => ?_, (remembers_congr hstate hmult hremote).mpr h.remembers⟩
  · have := h.tx
    unfold Session.TxRight at this ⊢
    rw [htx, hdesired, hmin, this]
  · have := h.echo he
    unfold Session.EchoRight at this ⊢
    rw [hecho, hdesired, hminEcho, this]

theorem detectionRight_congr (heq : t.times = bs.times) : t.DetectionRight ↔ bs.DetectionRight := by
  simp only [Session.times, Prod.mk.injEq] at heq
  obtain ⟨hstate, hmult, hremote, -, -, hdetection, -, hrequired, -, -⟩ := heq
  unfold Session.DetectionRight Session.InitOrUp
  rw [hstate, hdetection, hmult, hremote, hrequired]

theorem Session.Timed.congr (h : bs.Timed echoed last) (heq : t.times = bs.times) : t.Timed echoed last :=
  ⟨h.toIntervals.congr heq, (detectionRight_congr heq).mpr h.detection⟩

/-! ## Events other than packets -/

theorem enters_down : Enters last .down := fun _ => ⟨State.noConfusion, State.noConfusion⟩

theorem enters_adminDown : Enters last .adminDown := fun _ => ⟨State.noConfusion, State.noConfusion⟩

theorem times_sendPeriodic : (bs.bfdSendPeriodic env).times = bs.times := by
  unfold Session.bfdSendPeriodic
  split
  · rfl
  split
  · rfl
  split
  · split <;> rfl
  · rfl

theorem times_sendEcho : (bs.bfdSendEcho env).times = bs.times := by
  unfold Session.bfdSendEcho
  split
  · rfl
  split
  · split <;> rfl
  · rfl

theorem times_setParams (a b c : Nat) : (bs.bfdSessionSetParams a b c).times = bs.times := by
  unfold Session.bfdSessionSetParams
  simp only
  split
  · split
    · split <;> rfl
    · rfl
    · rfl
    · split <;> rfl
  · rfl

section

variable (h : bs.Timed echoed last)
include h

theorem Session.Timed.checkRxTimeout : (bs.bfdCheckRxTimeout env).Timed echoed last := by
  unfold Session.bfdCheckRxTimeout
  split
  · have hdiag : ({ bs with remoteDiscr := 0 }.bfdSetDiag .detTimeExp).Timed echoed last := h.congr rfl
    exact (hdiag.setState enters_down).setRemoteRequiredMinRx 1
  split
  · have hdiag : (bs.bfdSetDiag .echoFailed).Timed echoed last := h.congr rfl
    exact hdiag.setState enters_down
  · exact h

theorem Session.Timed.switchOnEcho : (bs.bfdSwitchOnEcho env).Timed echoed last := by
  unfold Session.bfdSwitchOnEcho
  split
  · have hon : { bs with
        echo := true
        echoLastRxNsec := env.now
        echoTxTimeoutNsec := env.now }.Timed echoed last := h.congr rfl
    exact hon.toIntervals.setEffectiveRequiredMinRx.congr rfl
  · exact h

theorem Session.Timed.onTimeout : (bs.bfdOnTimeout env).Timed echoed last := by
  unfold Session.bfdOnTimeout
  split
  · exact h.congr times_sendPeriodic
  · exact h.congr times_sendPeriodic
  · exact h.checkRxTimeout.congr times_sendPeriodic
  have hsent : (((bs.bfdCheckRxTimeout env).bfdSwitchOnEcho env).bfdSendPeriodic env).Timed echoed
      last := h.checkRxTimeout.switchOnEcho.congr times_sendPeriodic
  simp only
  split
  · exact hsent.congr times_sendEcho
  · exact hsent

theorem Session.Timed.onConfigChange : (bs.bfdOnConfigChange env).Timed echoed last := by
  have hbefore : (if bs.remoteDemand && bs.pollState == .needed &&
      bs.pollStateStartOrTimeoutNsec < env.now then { bs with txTimeoutNsec := env.now }
      else bs).Timed echoed last := by
    split
    · exact h.congr rfl
    · exact h
  exact hbefore.toIntervals.recalcDetectionTime

end

/-- The state that `bfd_session_set_flags` sets. -/
def adminState (adminUpDown : Bool) : State := if adminUpDown then .down else .adminDown

theorem Session.Timed.setFlags (h : bs.Timed echoed last) (adminUpDown : Bool) :
    (bs.bfdSessionSetFlags env adminUpDown).Timed (echoed ∨ adminState adminUpDown ≠ bs.localState)
      last := by
  unfold Session.bfdSessionSetFlags adminState
  split
  · exact (h.toIntervals.setState enters_down fun _ => h.detection).congr rfl
  · have hdiag : (bs.bfdSetDiag .adminDown).Timed echoed last := h.congr rfl
    exact (hdiag.toIntervals.setState enters_adminDown fun _ => hdiag.detection).congr rfl

/-! ## Packets -/

def nextState (loc remote : State) : State :=
  if loc = .adminDown then .adminDown
  else if remote = .adminDown then .down
  else
    match loc, remote with
    | .down, .down => .init
    | .down, .init => .up
    | .init, .up | .init, .init => .up
    | .up, .down => .down
    | st, _ => st

theorem followRemoteState_eq (env : Env) : ∃ diag, bs.followRemoteState env =
    (bs.bfdSetDiag diag).bfdSetState env (nextState bs.localState bs.remoteState) := by
  have hstay : bs = (bs.bfdSetDiag bs.localDiag).bfdSetState env bs.localState :=
    (if_neg (not_not.mpr rfl)).symm
  unfold Session.followRemoteState nextState
  by_cases hadmin : bs.localState = .adminDown
  · rw [if_pos hadmin, if_pos hadmin]
    exact ⟨bs.localDiag, by rw [← hadmin]; exact hstay⟩
  rw [if_neg hadmin, if_neg hadmin]
  by_cases hremote : bs.remoteState = .adminDown
  · rw [if_pos hremote, if_pos hremote]
    exact ⟨_, rfl⟩
  cases hl : bs.localState with
  | adminDown => exact absurd hl hadmin
  | down =>
    rw [hl] at hstay
    cases hr : bs.remoteState with
    | adminDown => exact absurd hr hremote
    | down => exact ⟨_, rfl⟩
    | init => exact ⟨_, rfl⟩
    | up => exact ⟨bs.localDiag, hstay⟩
  | init =>
    rw [hl] at hstay
    cases hr : bs.remoteState with
    | adminDown => exact absurd hr hremote
    | down => exact ⟨bs.localDiag, hstay⟩
    | init => exact ⟨_, rfl⟩
    | up => exact ⟨_, rfl⟩
  | up =>
    rw [hl] at hstay
    cases hr : bs.remoteState with
    | adminDown => exact absurd hr hremote
    | down => exact ⟨_, rfl⟩
    | init => exact ⟨bs.localDiag, hstay⟩
    | up => exact ⟨bs.localDiag, hstay⟩

variable {pkt : Pkt}

theorem Session.Intervals.followRemoteState (h : bs.Intervals echoed (some pkt))
    (hd : nextState bs.localState bs.remoteState = bs.localState → bs.DetectionRight) :
    (bs.followRemoteState env).Timed
      (echoed ∨ nextState bs.localState bs.remoteState ≠ bs.localState) (some pkt) := by
  obtain ⟨diag, heq⟩ := followRemoteState_eq env
  have hdiag : (bs.bfdSetDiag diag).Intervals echoed (some pkt) := h.congr rfl
  rw [heq]
  exact hdiag.setState (fun hnone => nomatch hnone) hd

/-- The packet ends a poll sequence of a session that is up. -/
def Finishes (bs : Session) (pkt : Pkt) : Prop :=
  pkt.getFinal = true ∧ bs.pollState = .inProgress ∧ bs.localState = .up

theorem times_finishPoll (h : ¬ Finishes bs pkt) : (bs.finishPoll env pkt).times = bs.times := by
  unfold Session.finishPoll
  split
  · rename_i hfinal
    split
    · rename_i hpoll
      simp only
      split
      · rename_i hup
        exact absurd ⟨hfinal, hpoll, hup⟩ h
      · rfl
    · rfl
    · rfl
    · rfl
  · rfl

theorem Session.Remembers.finishPoll (h : bs.Remembers last) (hf : Finishes bs pkt) :
    (bs.finishPoll env pkt).Timed echoed last := by
  obtain ⟨hfinal, hpoll, hup⟩ := hf
  have hset : (bs.bfdSetPollState .notNeeded).Remembers last := (remembers_congr rfl rfl rfl).mpr h
  have hup' : (bs.bfdSetPollState .notNeeded).localState = .up := hup
  unfold Session.finishPoll
  simp only [hfinal, hpoll, hup']
  exact hset.setEffectiveDesiredMinTx.toIntervals.setEffectiveRequiredMinRx

def Session.sides (bs : Session) : State × State := (bs.localState, bs.remoteState)

theorem sides_setRemoteRequiredMinRx :
    (bs.bfdSetRemoteRequiredMinRx n).sides = bs.sides ∧
      (bs.bfdSetRemoteRequiredMinRx n).pollState = bs.pollState := by
  simp only [Session.bfdSetRemoteRequiredMinRx, bfdRecalcDetectionTime_eq]
  split <;> exact ⟨rfl, rfl⟩

theorem sides_setRemoteRequiredMinEchoRx :
    (bs.bfdSetRemoteRequiredMinEchoRx n).sides = bs.sides ∧
      (bs.bfdSetRemoteRequiredMinEchoRx n).pollState = bs.pollState := by
  simp only [Session.bfdSetRemoteRequiredMinEchoRx]
  split <;> exact ⟨rfl, rfl⟩

theorem sides_takeRemoteIntervals :
    (bs.takeRemoteIntervals pkt).sides = bs.sides ∧
      (bs.takeRemoteIntervals pkt).pollState = bs.pollState := by
  unfold Session.takeRemoteIntervals
  rw [sides_setRemoteRequiredMinEchoRx.1, sides_setRemoteRequiredMinEchoRx.2,
    sides_setRemoteRequiredMinRx.1, sides_setRemoteRequiredMinRx.2]
  exact ⟨rfl, rfl⟩

theorem sides_setEffectiveDesiredMinTx : (bs.bfdSetEffectiveDesiredMinTx env n).sides = bs.sides := by
  simp only [Session.bfdSetEffectiveDesiredMinTx, bfdRecalcDetectionTime_eq]
  rfl

theorem sides_setEffectiveRequiredMinRx : (bs.bfdSetEffectiveRequiredMinRx n).sides = bs.sides := by
  simp only [Session.bfdSetEffectiveRequiredMinRx, bfdRecalcDetectionTime_eq]
  rfl

theorem sides_finishPoll : (bs.finishPoll env pkt).sides = bs.sides := by
  unfold Session.finishPoll
  split
  · split
    · simp only
      split
      · rw [sides_setEffectiveRequiredMinRx, sides_setEffectiveDesiredMinTx]
        rfl
      · rfl
    · rfl
    · rfl
    · rfl
  · rfl

theorem Session.Intervals.takeRemoteIntervals (h : bs.Intervals echoed last) :
    (bs.takeRemoteIntervals pkt).Intervals (echoed ∨ pkt.reqMinEchoRx ≠ bs.remoteMinEchoRxUsec)
      (some pkt) := by
  have hset : { bs with
      remoteDesiredMinTxNsec := bfdUsecToNsec pkt.desMinTx
      remoteDetectMult := pkt.detectMult }.Intervals echoed (some pkt) := ⟨h.tx, h.echo, rfl, rfl⟩
  have hecho (t : Session) (n : Nat) :
      (t.bfdSetRemoteRequiredMinRx n).remoteMinEchoRxUsec = t.remoteMinEchoRxUsec := by
    simp only [Session.bfdSetRemoteRequiredMinRx, bfdRecalcDetectionTime_eq]
    split <;> rfl
  have hrx := (hset.setRemoteRequiredMinRx pkt.reqMinRx).setRemoteRequiredMinEchoRx pkt.reqMinEchoRx
  rw [hecho] at hrx
  exact hrx

def ForSession (bs : Session) (pkt : Pkt) : Prop := pkt.yourDisc = 0 ∨ pkt.yourDisc = bs.localDiscr

instance : Decidable (ForSession bs pkt) := inferInstanceAs (Decidable (_ ∨ _))

instance : Decidable (Finishes bs pkt) := inferInstanceAs (Decidable (_ ∧ _))

/-- A packet that leaves the session in Init or Up and makes no setter recalculate the detection time does not
change it. -/
def PacketTimed (bs : Session) (pkt : Pkt) : Prop :=
  ForSession bs pkt → nextState bs.localState pkt.getState = bs.localState →
    pkt.reqMinRx = bs.remoteMinRxUsec → ¬ Finishes bs pkt → bs.InitOrUp →
      pkt.detectMult * max bs.effectiveRequiredMinRxNsec (bfdUsecToNsec pkt.desMinTx) =
        bs.remoteDetectMult * max bs.effectiveRequiredMinRxNsec bs.remoteDesiredMinTxNsec

def PacketEchoes (bs : Session) (pkt : Pkt) : Prop :=
  nextState bs.localState pkt.getState ≠ bs.localState ∨ pkt.reqMinEchoRx ≠ bs.remoteMinEchoRxUsec ∨
    Finishes bs pkt

instance : Decidable (PacketEchoes bs pkt) := inferInstanceAs (Decidable (_ ∨ _))

/-- A packet for the session: fields are set that no time depends on, the peer's times are taken, and the
state machine goes on. -/
theorem bfdConsumePkt_eq (hfor : ForSession bs pkt) : ∃ t : Session,
    bs.bfdConsumePkt env pkt =
      (((t.takeRemoteIntervals pkt).finishPoll env pkt).bfdCalcNextTx env).followRemoteState env ∧
    t.times = bs.times ∧ t.sides = (bs.localState, pkt.getState) ∧ t.pollState = bs.pollState ∧
    t.remoteMinRxUsec = bs.remoteMinRxUsec ∧ t.remoteMinEchoRxUsec = bs.remoteMinEchoRxUsec := by
  refine ⟨Session.rememberSeqNumber { bs with
    remoteDiscr := pkt.myDisc
    remoteState := pkt.getState
    remoteDemand := pkt.getDemand
    remoteDiag := pkt.getDiagCode.toNat
    lastRxNsec := env.now } pkt, if_neg fun hne => hfor.elim hne.1 hne.2, ?_⟩
  unfold Session.rememberSeqNumber
  split <;> exact ⟨rfl, rfl, rfl, rfl, rfl⟩

theorem Session.Timed.takeAndFinish (h : bs.Timed echoed last) {t : Session} (htimes : t.times = bs.times)
    (hpoll : t.pollState = bs.pollState) (hrx : t.remoteMinRxUsec = bs.remoteMinRxUsec)
    (hecho : t.remoteMinEchoRxUsec = bs.remoteMinEchoRxUsec) :
    ((t.takeRemoteIntervals pkt).finishPoll env pkt).Intervals
        (echoed ∨ pkt.reqMinEchoRx ≠ bs.remoteMinEchoRxUsec ∨ Finishes bs pkt) (some pkt) ∧
      ((pkt.reqMinRx = bs.remoteMinRxUsec → ¬ Finishes bs pkt → bs.InitOrUp →
          pkt.detectMult * max bs.effectiveRequiredMinRxNsec (bfdUsecToNsec pkt.desMinTx) =
            bs.remoteDetectMult * max bs.effectiveRequiredMinRxNsec bs.remoteDesiredMinTxNsec) →
        ((t.takeRemoteIntervals pkt).finishPoll env pkt).DetectionRight) := by
  have hloc : t.localState = bs.localState := congrArg Prod.fst htimes
  have hfinishes : Finishes (t.takeRemoteIntervals pkt) pkt ↔ Finishes bs pkt := by
    have hlocal : (t.takeRemoteIntervals pkt).localState = t.localState :=
      congrArg Prod.fst sides_takeRemoteIntervals.1
    unfold Finishes
    rw [hlocal, sides_takeRemoteIntervals.2, hloc, hpoll]
  have htaken : (t.takeRemoteIntervals pkt).Intervals _ (some pkt) :=
    (h.toIntervals.congr htimes).takeRemoteIntervals
  rw [hecho] at htaken
  by_cases hf : Finishes bs pkt
  · have hdone : ((t.takeRemoteIntervals pkt).finishPoll env pkt).Timed
        (echoed ∨ pkt.reqMinEchoRx ≠ bs.remoteMinEchoRxUsec ∨ Finishes bs pkt) (some pkt) :=
      htaken.remembers.finishPoll (hfinishes.mpr hf)
    exact ⟨hdone.toIntervals, fun _ => hdone.detection⟩
  · have hsame : ((t.takeRemoteIntervals pkt).finishPoll env pkt).times =
        (t.takeRemoteIntervals pkt).times := times_finishPoll (mt hfinishes.mp hf)
    constructor
    · obtain ⟨htx, hech, hrem⟩ := htaken.congr hsame
      exact ⟨htx, fun he => hech (he.imp_right fun hor => hor.resolve_right hf), hrem⟩
    intro hproduct
    rw [detectionRight_congr hsame, Session.takeRemoteIntervals, detectionRight_setRemoteRequiredMinEchoRx]
    refine detectionRight_setRemoteRequiredMinRx fun hsameRx hs => ?_
    simp only [Session.times, Prod.mk.injEq] at htimes
    obtain ⟨-, -, -, -, -, hdetection, -, hrequired, -, -⟩ := htimes
    have hs : bs.InitOrUp := by
      unfold Session.InitOrUp at hs ⊢
      rwa [hloc] at hs
    rw [hdetection, hrequired, hproduct (hsameRx.trans hrx) hf hs]
    exact h.detection hs

theorem Session.Timed.consumePkt (h : bs.Timed echoed last) (hfor : ForSession bs pkt)
    (hpkt : PacketTimed bs pkt) :
    (bs.bfdConsumePkt env pkt).Timed (echoed ∨ PacketEchoes bs pkt) (some pkt) := by
  obtain ⟨t, heq, htimes, hsides, hpoll, hrx, hecho⟩ := @bfdConsumePkt_eq bs env pkt hfor
  obtain ⟨hintervals, hdetection⟩ := @takeAndFinish bs env echoed last pkt h t htimes hpoll hrx hecho
  have hboth : ((t.takeRemoteIntervals pkt).finishPoll env pkt).sides = (bs.localState, pkt.getState) := by
    rw [sides_finishPoll, sides_takeRemoteIntervals.1, hsides]
  obtain ⟨hloc, hremote⟩ := Prod.mk.inj hboth
  rw [heq]
  generalize (t.takeRemoteIntervals pkt).finishPoll env pkt = u at *
  have hnext : (u.bfdCalcNextTx env).Intervals
      (echoed ∨ pkt.reqMinEchoRx ≠ bs.remoteMinEchoRxUsec ∨ Finishes bs pkt) (some pkt) :=
    hintervals.congr rfl
  have hlocNext : (u.bfdCalcNextTx env).localState = bs.localState := hloc
  have hremoteNext : (u.bfdCalcNextTx env).remoteState = pkt.getState := hremote
  refine (hnext.followRemoteState ?_).weaken ?_
  · intro hstay
    rw [hlocNext, hremoteNext] at hstay
    exact hdetection fun hsameRx hf hs => hpkt hfor hstay hsameRx hf hs
  rw [hlocNext, hremoteNext]
  rintro (he | hstate | hechoes)
  · exact .inl (.inl he)
  · exact .inr hstate
  · exact .inl (.inr hechoes)

/-! ## Runs -/

/-- What can happen to a session; the checks of packets and the changes of keys set the authentication. -/
inductive Happening
  | event (env : Env) (ev : Event)
  | authChange (auth : Auth)

/-- A session, the last packet it accepted, and if its echo interval was ever calculated. -/
structure Watched where
  bs : Session
  last : Option Pkt
  echoed : Bool

def Echoes (bs : Session) : Event → Bool
  | .packet pkt => decide (ForSession bs pkt ∧ PacketEchoes bs pkt)
  | .setFlags adminUpDown => adminState adminUpDown ≠ bs.localState
  | _ => false

def Watched.step (w : Watched) : Happening → Watched × Unit
  | .event env ev =>
    ({ bs := w.bs.handle env ev
       last :=
        match ev with
        | .packet pkt => if ForSession w.bs pkt then some pkt else w.last
        | _ => w.last
       echoed := w.echoed || Echoes w.bs ev }, ())
  | .authChange auth => ({ w with bs := { w.bs with auth := auth } }, ())

def HappeningTimed (w : Watched) : Happening → Prop
  | .event _ (.packet pkt) => PacketTimed w.bs pkt
  | _ => True

def Watched.Timed (w : Watched) : Prop := w.bs.Timed (w.echoed = true) w.last

theorem Watched.Timed.step {w : Watched} (h : w.Timed) (a : Happening) (ha : HappeningTimed w a) :
    (w.step a).1.Timed := by
  cases a with
  | authChange auth => exact h.congr rfl
  | event env ev =>
    unfold Watched.Timed Watched.step
    simp only [Bool.or_eq_true]
    have hstill : ∀ {p : Prop}, p ∨ false = true → p := fun h => h.resolve_right Bool.false_ne_true
    cases ev with
    | packet pkt =>
      simp only [Echoes, decide_eq_true_eq]
      by_cases hfor : ForSession w.bs pkt
      · rw [if_pos hfor]
        exact (h.consumePkt hfor ha).weaken (.imp_right And.right)
      · rw [if_neg hfor]
        have hignored : w.bs.handle env (.packet pkt) = w.bs := if_pos (not_or.mp hfor)
        rw [hignored]
        exact h.weaken (·.resolve_right fun he => hfor he.1)
    | setFlags up =>
      simp only [Echoes, decide_eq_true_eq]
      exact h.setFlags up
    | timeout => exact h.onTimeout.weaken hstill
    | setParams a b c =>
      exact (h.congr (times_setParams a b c)).weaken hstill
    | configChanged => exact h.onConfigChange.weaken hstill
    | finalFrame =>
      have hsame : (w.bs.bfdInitFinalControlFrame env).times = w.bs.times := rfl
      exact (h.congr hsame).weaken hstill
    | echoPacket expire =>
      have hsame : (w.bs.bfdConsumeEchoPkt env expire).times = w.bs.times := by
        unfold Session.bfdConsumeEchoPkt
        split <;> rfl
      exact (h.congr hsame).weaken hstill

def Watched.start (localDiscr : U32) (udpKey : UdpKey) (desiredMinTxUsec requiredMinRxUsec detectMult : Nat) :
    Watched :=
  ⟨bfdAddAndStartSession localDiscr udpKey desiredMinTxUsec requiredMinRxUsec detectMult, none, false⟩

theorem timed_start (localDiscr : U32) (udpKey : UdpKey) (a b c : Nat) :
    (Watched.start localDiscr udpKey a b c).Timed := by
  have hdown : (Watched.start localDiscr udpKey a b c).bs.localState = .down := by
    have hset := congrArg Prod.fst (@times_setParams (bfdGetSession localDiscr udpKey) a b c)
    exact (congrArg Prod.fst sides_setEffectiveRequiredMinRx).trans hset
  have hidle : ¬ (Watched.start localDiscr udpKey a b c).bs.InitOrUp := by
    unfold Session.InitOrUp
    rw [hdown]
    exact fun h => h.elim State.noConfusion State.noConfusion
  exact ⟨⟨rfl, fun h => absurd h Bool.false_ne_true, hidle⟩, fun hs => absurd hs hidle⟩

/-- **Negotiated times.** In a run of timed packets the detection time is that of the last packet while in
Init or Up, the transmit interval is right, and so is the echo interval once it is calculated. -/
theorem times_follow_last_packet (localDiscr : U32) (udpKey : UdpKey)
    (desiredMinTxUsec requiredMinRxUsec detectMult : Nat) (hs : List Happening)
    (h : Along Watched.step HappeningTimed
      (Watched.start localDiscr udpKey desiredMinTxUsec requiredMinRxUsec detectMult) hs)
    (w : Watched) (hw : w = after Watched.step
      (Watched.start localDiscr udpKey desiredMinTxUsec requiredMinRxUsec detectMult) hs) :
    (w.bs.InitOrUp → ∃ pkt, w.last = some pkt ∧ w.bs.remoteDetectMult = pkt.detectMult ∧
      w.bs.detectionTimeNsec =
        pkt.detectMult * max w.bs.effectiveRequiredMinRxNsec (bfdUsecToNsec pkt.desMinTx)) ∧
    w.bs.transmitIntervalNsec = max w.bs.effectiveDesiredMinTxNsec w.bs.remoteMinRxNsec ∧
    (w.echoed = true → w.bs.echoTransmitIntervalNsec =
      max w.bs.effectiveDesiredMinTxNsec w.bs.remoteMinEchoRxNsec) := by
  have hinv := (h.invariant Watched.Timed (fun _ => True)
    (fun w a hw ha => ⟨hw.step a ha, trivial⟩) (timed_start localDiscr udpKey _ _ _)).1
  rw [← hw] at hinv
  refine ⟨fun hup => ?_, hinv.tx, hinv.echo⟩
  have hremembers := hinv.remembers
  cases hlast : w.last with
  | none =>
    rw [hlast] at hremembers
    exact absurd hup hremembers
  | some pkt =>
    rw [hlast] at hremembers
    obtain ⟨hmult, htx⟩ := hremembers
    exact ⟨pkt, rfl, hmult, by rw [← hmult, ← htx]; exact hinv.detection hup⟩

def helloPkt (detectMult : Nat) : Pkt where
  versDiag := 0x20
  staFlags := 0x40
  detectMult := detectMult
  length := 24
  myDisc := 2
  yourDisc := 0
  desMinTx := 100000
  reqMinRx := 100000
  reqMinEchoRx := 0
  authType := .reserved
  authLen := 0
  keyId := 0
  seqNum := 0
  hash := []

def startedAt : Watched := .start 1 ⟨0, 1, 2⟩ 100000 100000 3

def atOnce : Env := ⟨0, fun _ n => n, true, false, false⟩

theorem times_after_hello :
    (after Watched.step startedAt [.event atOnce (.packet (helloPkt 3))]).bs.localState = .init ∧
      (after Watched.step startedAt [.event atOnce (.packet (helloPkt 3))]).bs.detectionTimeNsec =
        3 * 10 ^ 8 ∧
      (after Watched.step startedAt [.event atOnce (.packet (helloPkt 3))]).bs.echoTransmitIntervalNsec =
        10 ^ 8 := by
  have htimed : Along Watched.step HappeningTimed startedAt [.event atOnce (.packet (helloPkt 3))] :=
    ⟨fun _ hstay => absurd hstay (by decide), trivial⟩
  obtain ⟨hdetection, -, hecho⟩ :=
    times_follow_last_packet 1 ⟨0, 1, 2⟩ 100000 100000 3 _ htimed _ rfl
  obtain ⟨pkt, hlast, -, htime⟩ := hdetection (by decide +kernel)
  obtain rfl : helloPkt 3 = pkt := Option.some.inj hlast
  refine ⟨by decide +kernel, htime.trans ?_, (hecho (by decide +kernel)).trans ?_⟩
  · decide +kernel
  · decide +kernel

/-- The second packet changes only the detect multiplier, and the detection time stays; after a timeout the
echo interval is still zero. -/
theorem detection_time_stale :
    (after Watched.step startedAt
        [.event atOnce (.packet (helloPkt 3)), .event atOnce (.packet (helloPkt 5))]).bs.detectionTimeNsec =
      3 * 10 ^ 8 ∧
    (after Watched.step startedAt
        [.event atOnce (.packet (helloPkt 3)), .event atOnce (.packet (helloPkt 5))]).bs.localState = .init ∧
    (after Watched.step startedAt
        [.event atOnce (.packet (helloPkt 3)), .event atOnce (.packet (helloPkt 5))]).bs.remoteDetectMult *
      max (after Watched.step startedAt
        [.event atOnce (.packet (helloPkt 3)),
          .event atOnce (.packet (helloPkt 5))]).bs.effectiveRequiredMinRxNsec
        (bfdUsecToNsec (helloPkt 5).desMinTx) = 5 * 10 ^ 8 ∧
    (after Watched.step startedAt [.event atOnce .timeout]).bs.echoTransmitIntervalNsec = 0 ∧
    (after Watched.step startedAt [.event atOnce .timeout]).bs.effectiveDesiredMinTxNsec = 10 ^ 9 := by
  decide +kernel

end Vpp.Bfd
