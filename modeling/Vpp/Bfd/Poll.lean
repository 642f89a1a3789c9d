import Vpp.Bfd.Times

/-!
# Poll sequences

A session that is up announces a change of its intervals by a poll sequence, and takes them when it is
finished. A final frame for the peer clears the need for a sequence, and echo may be given up without one:
the intervals in effect are then not those of the configuration.
-/

namespace Vpp.Bfd

open Lib

/-- What poll sequences are about. -/
structure Poll where
  state : State
  poll : PollState
  echo : Bool
  txUsec : Nat
  tx : Nat
  rxUsec : Nat
  rx : Nat
  effectiveTx : Nat
  effectiveRx : Nat

def Session.poll (bs : Session) : Poll :=
  ⟨bs.localState, bs.pollState, bs.echo, bs.configDesiredMinTxUsec, bs.configDesiredMinTxNsec,
    bs.configRequiredMinRxUsec, bs.configRequiredMinRxNsec, bs.effectiveDesiredMinTxNsec,
    bs.effectiveRequiredMinRxNsec⟩

/-- The configuration is in effect. -/
def Poll.Applied (v : Poll) : Prop :=
  v.effectiveTx = v.tx ∧
    v.effectiveRx = if v.echo then max minRequiredMinRxWhileEchoNsec v.rx else v.rx

structure Poll.Ok (v : Poll) : Prop where
  usec : v.tx = bfdUsecToNsec v.txUsec ∧ v.rx = bfdUsecToNsec v.rxUsec
  quiet : v.state ≠ .up → v.echo = false
  applied : v.state = .up → v.poll = .notNeeded → v.Applied

variable {bs : Session} {env : Env} {pkt : Pkt}

/-! ## Setters -/

theorem poll_recalcDetectionTime : bs.bfdRecalcDetectionTime.poll = bs.poll := by
  rw [bfdRecalcDetectionTime_eq]
  rfl

theorem poll_setEffectiveDesiredMinTx (n : Nat) :
    (bs.bfdSetEffectiveDesiredMinTx env n).poll = { bs.poll with effectiveTx := n } := by
  simp only [Session.bfdSetEffectiveDesiredMinTx, bfdRecalcDetectionTime_eq]
  rfl

theorem poll_setEffectiveRequiredMinRx (n : Nat) :
    (bs.bfdSetEffectiveRequiredMinRx n).poll = { bs.poll with effectiveRx := n } :=
  poll_recalcDetectionTime

theorem poll_setRemoteRequiredMinRx (n : Nat) : (bs.bfdSetRemoteRequiredMinRx n).poll = bs.poll := by
  unfold Session.bfdSetRemoteRequiredMinRx
  split
  · exact poll_recalcDetectionTime
  · rfl

theorem poll_takeRemoteIntervals : (bs.takeRemoteIntervals pkt).poll = bs.poll := by
  unfold Session.takeRemoteIntervals Session.bfdSetRemoteRequiredMinEchoRx
  dsimp only
  split <;> exact poll_setRemoteRequiredMinRx _

theorem Poll.Ok.setState (h : bs.poll.Ok) (st : State) : (bs.bfdSetState env st).poll.Ok := by
  unfold Session.bfdSetState
  split
  · rename_i hne
    cases st with
    | up =>
      have hquiet : bs.echo = false := h.quiet hne
      unfold Session.bfdOnStateChange
      dsimp only
      split
      · rw [poll_setEffectiveRequiredMinRx, poll_setEffectiveDesiredMinTx]
        refine ⟨h.usec, fun hdown => absurd rfl hdown, fun _ _ => ⟨rfl, ?_⟩⟩
        exact (if_neg (by rw [Bool.not_eq_true]; exact hquiet)).symm
      · rename_i hpoll
        rw [poll_setEffectiveDesiredMinTx]
        exact ⟨h.usec, fun hdown => absurd rfl hdown, fun _ hnone => absurd hnone hpoll⟩
    | init => exact poll_setEffectiveDesiredMinTx _ ▸ ⟨h.usec, fun _ => rfl, nofun⟩
    | down | adminDown =>
      unfold Session.bfdOnStateChange
      rw [poll_setEffectiveRequiredMinRx, poll_setEffectiveDesiredMinTx]
      exact ⟨h.usec, fun _ => rfl, nofun⟩
  · exact h

/-! ## Events -/

theorem Poll.Ok.setParams (h : bs.poll.Ok) (a b c : Nat) : (bs.bfdSessionSetParams a b c).poll.Ok := by
  have hquiet : bs.localState ≠ .up → bs.echo = false := h.quiet
  unfold Session.bfdSessionSetParams
  dsimp only
  split
  · split
    · rename_i hpoll
      split
      · exact ⟨⟨rfl, rfl⟩, hquiet, nofun⟩
      · rename_i hsame
        refine ⟨⟨rfl, rfl⟩, hquiet, fun hup _ => ?_⟩
        -- of a session that is up only the detect multiplier changes without a poll
        have happlied := h.applied hup hpoll
        obtain ⟨htx, hrx⟩ := not_or.mp fun hchange => hsame ⟨.inl hup, hchange⟩
        rw [Poll.Applied, h.usec.1, h.usec.2] at happlied
        rwa [← not_not.mp htx, ← not_not.mp hrx]
    · rename_i hpoll
      exact ⟨⟨rfl, rfl⟩, hquiet, fun _ hnone => nomatch hpoll.symm.trans hnone⟩
    · rename_i hpoll
      exact ⟨⟨rfl, rfl⟩, hquiet, fun _ hnone => nomatch hpoll.symm.trans hnone⟩
    · rename_i hpoll
      split
      · exact ⟨⟨rfl, rfl⟩, hquiet, nofun⟩
      · exact ⟨⟨rfl, rfl⟩, hquiet, fun _ hnone => nomatch hpoll.symm.trans hnone⟩
  · exact h

theorem Poll.Ok.sendPeriodic (h : bs.poll.Ok) : (bs.bfdSendPeriodic env).poll.Ok := by
  unfold Session.bfdSendPeriodic
  split
  · exact h
  split
  · exact h
  split
  · split
    · exact ⟨h.usec, h.quiet, nofun⟩
    · exact ⟨h.usec, h.quiet, h.applied⟩
  · exact h

theorem Poll.Ok.checkRxTimeout (h : bs.poll.Ok) : (bs.bfdCheckRxTimeout env).poll.Ok := by
  unfold Session.bfdCheckRxTimeout
  split
  · rw [poll_setRemoteRequiredMinRx]
    exact @Poll.Ok.setState ({ bs with remoteDiscr := 0 }.bfdSetDiag .detTimeExp) env h .down
  split
  · exact @Poll.Ok.setState (bs.bfdSetDiag .echoFailed) env h .down
  · exact h

theorem Poll.Ok.switchOnEcho (h : bs.poll.Ok) : (bs.bfdSwitchOnEcho env).poll.Ok := by
  unfold Session.bfdSwitchOnEcho
  split
  · rename_i hon
    have hup : bs.localState = .up := by
      have hpossible := hon.2.2
      simp only [Session.bfdIsEchoPossible, Bool.and_eq_true, beq_iff_eq] at hpossible
      exact hpossible.1.1.1
    have hview : (({ bs with
        echo := true
        echoLastRxNsec := env.now
        echoTxTimeoutNsec := env.now }.bfdSetEffectiveRequiredMinRx
          (max minRequiredMinRxWhileEchoNsec bs.configRequiredMinRxNsec)).bfdSetPollState .needed).poll =
        { bs.poll with
          echo := true
          poll := .needed
          effectiveRx := max minRequiredMinRxWhileEchoNsec bs.configRequiredMinRxNsec } :=
      congrArg (fun v : Poll => { v with poll := .needed }) (poll_setEffectiveRequiredMinRx _)
    rw [hview]
    exact ⟨h.usec, fun hdown => absurd hup hdown, nofun⟩
  · exact h

/-- Echo is not given up without a poll to come, unless the configured interval is as long as with echo. -/
def Session.EchoKept (bs : Session) (env : Env) : Prop :=
  bs.echo = true → bs.pollState = .notNeeded → (bs.bfdSendEcho env).echo = true ∨
    minRequiredMinRxWhileEchoNsec ≤ bs.configRequiredMinRxNsec

theorem poll_sendEcho : (bs.bfdSendEcho env).poll = { bs.poll with echo := (bs.bfdSendEcho env).echo } := by
  unfold Session.bfdSendEcho
  split
  · rfl
  split
  · split <;> rfl
  · rfl

theorem Poll.Ok.sendEcho (h : bs.poll.Ok) (hecho : bs.echo = true) (hkept : bs.EchoKept env) :
    (bs.bfdSendEcho env).poll.Ok := by
  have hkept := hkept hecho
  rw [poll_sendEcho]
  cases hsent : (bs.bfdSendEcho env).echo with
  | true => exact hecho ▸ h
  | false =>
    refine ⟨h.usec, fun _ => rfl, fun hup hnone => ?_⟩
    obtain ⟨htx, hrx⟩ := h.applied hup hnone
    refine ⟨htx, hrx.trans ?_⟩
    rw [if_pos (by exact hecho)]
    exact Nat.max_eq_right ((hkept hnone).resolve_left (by rw [hsent]; exact Bool.false_ne_true))

/-- The echo packet of a timeout, and a final frame, end no poll before the configuration is in effect. -/
def Session.Keeps (bs : Session) : Env × Event → Prop
  | (env, .timeout) => bs.localState = .up →
      (((bs.bfdCheckRxTimeout env).bfdSwitchOnEcho env).bfdSendPeriodic env).EchoKept env
  | (_, .finalFrame) => bs.localState = .up → bs.poll.Applied
  | _ => True

theorem Poll.Ok.onTimeout (h : bs.poll.Ok) (hk : bs.Keeps (env, .timeout)) :
    (bs.bfdOnTimeout env).poll.Ok := by
  unfold Session.bfdOnTimeout
  split
  · exact h.sendPeriodic
  · exact h.sendPeriodic
  · exact h.checkRxTimeout.sendPeriodic
  · rename_i hup
    dsimp only
    split
    · rename_i hecho
      exact h.checkRxTimeout.switchOnEcho.sendPeriodic.sendEcho hecho (hk hup)
    · exact h.checkRxTimeout.switchOnEcho.sendPeriodic

theorem Poll.Ok.finishPoll (h : bs.poll.Ok) : (bs.finishPoll env pkt).poll.Ok := by
  unfold Session.finishPoll
  split
  · split
    · dsimp only
      split
      · rename_i hup
        rw [poll_setEffectiveRequiredMinRx, poll_setEffectiveDesiredMinTx]
        refine ⟨h.usec, h.quiet, fun _ _ => ⟨rfl, ?_⟩⟩
        cases hecho : bs.echo with
        | true => simp [Session.bfdSetPollState, Session.poll, hecho]
        | false => simp [Session.bfdSetPollState, Session.poll, hecho]
      · rename_i hdown
        exact ⟨h.usec, h.quiet, fun hup => absurd hup hdown⟩
    · exact ⟨h.usec, h.quiet, nofun⟩
    · exact h
    · exact h
  · exact h

theorem Poll.Ok.consumePkt (h : bs.poll.Ok) : (bs.bfdConsumePkt env pkt).poll.Ok := by
  unfold Session.bfdConsumePkt
  split
  · exact h
  · dsimp only
    generalize hseq : Session.rememberSeqNumber _ pkt = t
    have ht : t.poll = bs.poll := by
      rw [← hseq]
      unfold Session.rememberSeqNumber
      split <;> rfl
    have hdone : ((t.takeRemoteIntervals pkt).finishPoll env pkt).poll.Ok :=
      Poll.Ok.finishPoll (by rw [poll_takeRemoteIntervals, ht]; exact h)
    generalize (t.takeRemoteIntervals pkt).finishPoll env pkt = u at hdone
    obtain ⟨diag, heq⟩ := @followRemoteState_eq (u.bfdCalcNextTx env) env
    rw [heq]
    exact @Poll.Ok.setState ((u.bfdCalcNextTx env).bfdSetDiag diag) env hdone _

theorem Poll.Ok.handle (h : bs.poll.Ok) (ev : Event) (hk : bs.Keeps (env, ev)) :
    (bs.handle env ev).poll.Ok := by
  cases ev with
  | packet pkt => exact h.consumePkt
  | timeout => exact h.onTimeout hk
  | setParams a b c => exact h.setParams a b c
  | configChanged =>
    change (bs.bfdOnConfigChange env).poll.Ok
    unfold Session.bfdOnConfigChange
    rw [poll_recalcDetectionTime]
    split <;> exact h
  | setFlags up =>
    cases up with
    | true => exact h.setState .down
    | false => exact @Poll.Ok.setState (bs.bfdSetDiag .adminDown) env h .adminDown
  | finalFrame => exact ⟨h.usec, h.quiet, fun hup _ => hk hup⟩
  | echoPacket expire =>
    change (bs.bfdConsumeEchoPkt env expire).poll.Ok
    unfold Session.bfdConsumeEchoPkt
    split <;> exact h

/-! ## Runs -/

def pollStep (bs : Session) (e : Env × Event) : Session × Unit := (bs.handle e.1 e.2, ())

/-- **Poll sequences apply the configuration**, in every run in which they are kept. -/
theorem poll_applies_configuration (localDiscr : U32) (udpKey : UdpKey) (tx rx mult : Nat)
    (evs : List (Env × Event))
    (h : Along pollStep Session.Keeps (bfdAddAndStartSession localDiscr udpKey tx rx mult) evs)
    (now : Session)
    (hnow : now = after pollStep (bfdAddAndStartSession localDiscr udpKey tx rx mult) evs)
    (hup : now.localState = .up) (hdone : now.pollState = .notNeeded) :
    now.effectiveDesiredMinTxNsec = now.configDesiredMinTxNsec ∧
      now.effectiveRequiredMinRxNsec =
        if now.echo then max minRequiredMinRxWhileEchoNsec now.configRequiredMinRxNsec
        else now.configRequiredMinRxNsec := by
  have hnew : (bfdGetSession localDiscr udpKey).poll.Ok :=
    ⟨⟨rfl, (Nat.zero_mul _).symm⟩, fun _ => rfl, nofun⟩
  have hset := hnew.setParams tx rx mult
  have hdown := congrArg Prod.fst (@times_setParams (bfdGetSession localDiscr udpKey) tx rx mult)
  have hstart : (bfdAddAndStartSession localDiscr udpKey tx rx mult).poll.Ok :=
    @poll_setEffectiveRequiredMinRx ((bfdGetSession localDiscr udpKey).bfdSessionSetParams tx rx mult) _ ▸ ⟨hset.usec, hset.quiet, fun hup => nomatch hdown.symm.trans hup⟩
  have hok : now.poll.Ok := by
    rw [hnow]
    exact (h.invariant (fun bs => bs.poll.Ok) (fun _ => True)
      (fun bs e hbs hk => ⟨hbs.handle e.2 hk, trivial⟩) hstart).1
  exact hok.applied hup hdone

def upPkt (staFlags : BitVec 8) : Pkt := { helloPkt 3 with staFlags := staFlags, reqMinEchoRx := 50000 }

def toUp : List (Env × Event) := [(atOnce, .packet (helloPkt 3)), (atOnce, .packet (upPkt 0xc0))]

def withEcho : Env := { atOnce with now := 2 * 10 ^ 8, isEchoAvailable := true, canTransportEcho := true }

/-- A change of an interval and its poll, the answer to a poll of the peer, and echo with the poll for it. -/
def polled : List (Env × Event) :=
  toUp ++ [(atOnce, .setParams 200000 100000 3), ({ atOnce with now := 10 ^ 8 }, .timeout),
    (atOnce, .packet (upPkt 0xd0)), (atOnce, .finalFrame), (withEcho, .timeout),
    ({ withEcho with now := 3 * 10 ^ 8 }, .timeout), (withEcho, .packet (upPkt 0xd0)),
    (withEcho, .echoPacket (3 * 10 ^ 8))]

theorem configuration_in_effect :
    ((after pollStep startedAt.bs polled).effectiveDesiredMinTxNsec =
        (after pollStep startedAt.bs polled).configDesiredMinTxNsec ∧
      (after pollStep startedAt.bs polled).effectiveRequiredMinRxNsec =
        if (after pollStep startedAt.bs polled).echo then
          max minRequiredMinRxWhileEchoNsec (after pollStep startedAt.bs polled).configRequiredMinRxNsec
        else (after pollStep startedAt.bs polled).configRequiredMinRxNsec) ∧
      (after pollStep startedAt.bs polled).configDesiredMinTxNsec = 2 * 10 ^ 8 ∧
      (after pollStep startedAt.bs polled).echo = true := by
  refine ⟨poll_applies_configuration 1 ⟨0, 1, 2⟩ 100000 100000 3 polled ⟨trivial, trivial, trivial,
    fun _ _ => ?_, trivial, fun _ => ⟨?_, ?_⟩, fun _ _ => ?_, fun _ _ => ?_, trivial, trivial, trivial⟩ _ rfl
    ?_ ?_, ?_, ?_⟩
  all_goals decide +kernel

/-- A change of the transmit interval is forgotten with a final frame; and when echo ends the interval for it
stays. -/
theorem configuration_not_in_effect :
    (let bs := after pollStep startedAt.bs
      (toUp ++ [(atOnce, .setParams 200000 100000 3), (atOnce, .finalFrame)])
    bs.localState = .up ∧ bs.pollState = .notNeeded ∧ bs.configDesiredMinTxNsec = 2 * 10 ^ 8 ∧
      bs.effectiveDesiredMinTxNsec = 10 ^ 8) ∧
    let bs := after pollStep startedAt.bs
      (toUp ++ [(withEcho, .timeout), (withEcho, .packet (upPkt 0xd0)),
        ({ withEcho with isEchoAvailable := false }, .timeout)])
    bs.localState = .up ∧ bs.pollState = .notNeeded ∧ bs.echo = false ∧
      bs.configRequiredMinRxNsec = 10 ^ 8 ∧ bs.effectiveRequiredMinRxNsec = 10 ^ 9 := by
  decide +kernel

end Vpp.Bfd
