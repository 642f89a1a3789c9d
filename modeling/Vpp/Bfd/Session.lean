import Mathlib.Data.BitVec

/-!
# BFD sessions

The state of a session and what packets, timeouts, changes of the configuration and administrative
actions do to it. Times are in nanoseconds. Timers are left out: a timeout may be handled at any time.
-/

namespace Vpp.Bfd

abbrev U32 := BitVec 32

inductive State
  | adminDown
  | down
  | init
  | up
deriving DecidableEq, Repr

inductive PollState
  | notNeeded
  | needed
  | inProgress
  | inProgressAndQueued
deriving DecidableEq, Repr

inductive DiagCode
  | noDiag
  | detTimeExp
  | echoFailed
  | neighborSigDown
  | adminDown
deriving DecidableEq, Repr

inductive AuthType
  | reserved
  | simplePassword
  | keyedMd5
  | meticulousKeyedMd5
  | keyedSha1
  | meticulousKeyedSha1
deriving DecidableEq, Repr

/-- `bs->auth`; a pointer to a key is its place in memory. -/
structure Auth where
  currKey : Option Nat
  nextKey : Option Nat
  remoteSeqNumber : U32
  remoteSeqNumberKnown : Bool
  currBfdKeyId : Nat
  nextBfdKeyId : Nat
  isDelayed : Bool
deriving DecidableEq, Repr

/-- `bs->udp.key` of a session over IPv4. -/
structure UdpKey where
  swIfIndex : Nat
  localAddr : U32
  peerAddr : U32
deriving DecidableEq, Repr

structure Session where
  localState : State
  remoteState : State
  localDiag : DiagCode
  remoteDiag : Nat
  localDiscr : U32
  remoteDiscr : U32
  configDesiredMinTxUsec : Nat
  configDesiredMinTxNsec : Nat
  effectiveDesiredMinTxNsec : Nat
  configRequiredMinRxUsec : Nat
  configRequiredMinRxNsec : Nat
  effectiveRequiredMinRxNsec : Nat
  remoteMinRxUsec : Nat
  remoteMinRxNsec : Nat
  remoteMinEchoRxUsec : Nat
  remoteMinEchoRxNsec : Nat
  remoteDesiredMinTxNsec : Nat
  localDetectMult : Nat
  remoteDemand : Bool
  remoteDetectMult : Nat
  echo : Bool
  transmitIntervalNsec : Nat
  txTimeoutNsec : Nat
  lastTxNsec : Nat
  lastRxNsec : Nat
  echoTransmitIntervalNsec : Nat
  echoTxTimeoutNsec : Nat
  echoLastTxNsec : Nat
  echoLastRxNsec : Nat
  detectionTimeNsec : Nat
  pollState : PollState
  pollStateStartOrTimeoutNsec : Nat
  auth : Auth
  udpKey : UdpKey
deriving DecidableEq, Repr

def nsecPerUsec : Nat := 1000

def bfdUsecToNsec (us : Nat) : Nat := us * nsecPerUsec

def bfdDefaultDesiredMinTxUsec : Nat := 1000000

/-- `bm->default_desired_min_tx_nsec` -/
def defaultDesiredMinTxNsec : Nat := bfdUsecToNsec bfdDefaultDesiredMinTxUsec

/-- `bm->min_required_min_rx_while_echo_nsec` -/
def minRequiredMinRxWhileEchoNsec : Nat := bfdUsecToNsec 1000000

/-- What a call finds: the time, the part of a transmit interval that is waited, with its jitter, and whether
buffers can be allocated and echo packets be sent. -/
structure Env where
  now : Nat
  jitter : Nat → Nat → Nat
  canAlloc : Bool
  isEchoAvailable : Bool
  canTransportEcho : Bool

/-! ## Intervals -/

namespace Session

variable (bs : Session)

def bfdRecalcTxInterval : Session :=
  { bs with transmitIntervalNsec := max bs.effectiveDesiredMinTxNsec bs.remoteMinRxNsec }

def bfdRecalcEchoTxInterval : Session :=
  { bs with echoTransmitIntervalNsec := max bs.effectiveDesiredMinTxNsec bs.remoteMinEchoRxNsec }

def bfdCalcNextTx (env : Env) : Session :=
  { bs with
    txTimeoutNsec :=
      max (bs.lastTxNsec + env.jitter bs.localDetectMult bs.transmitIntervalNsec) env.now }

def bfdCalcNextEchoTx (env : Env) : Session :=
  { bs with
    echoTxTimeoutNsec := max (bs.echoLastTxNsec + bs.echoTransmitIntervalNsec) env.now }

def bfdRecalcDetectionTime : Session :=
  if bs.localState = .init ∨ bs.localState = .up then
    { bs with
      detectionTimeNsec :=
        bs.remoteDetectMult * max bs.effectiveRequiredMinRxNsec bs.remoteDesiredMinTxNsec }
  else bs

def bfdSetEffectiveDesiredMinTx (env : Env) (desiredMinTxNsec : Nat) : Session :=
  let bs := { bs with effectiveDesiredMinTxNsec := desiredMinTxNsec }
  bs.bfdRecalcDetectionTime.bfdRecalcTxInterval.bfdRecalcEchoTxInterval.bfdCalcNextTx env

def bfdSetEffectiveRequiredMinRx (requiredMinRxNsec : Nat) : Session :=
  { bs with effectiveRequiredMinRxNsec := requiredMinRxNsec }.bfdRecalcDetectionTime

def bfdSetRemoteRequiredMinRx (remoteRequiredMinRxUsec : Nat) : Session :=
  if bs.remoteMinRxUsec ≠ remoteRequiredMinRxUsec then
    let bs := { bs with
      remoteMinRxUsec := remoteRequiredMinRxUsec
      remoteMinRxNsec := bfdUsecToNsec remoteRequiredMinRxUsec }
    bs.bfdRecalcDetectionTime.bfdRecalcTxInterval
  else bs

def bfdSetRemoteRequiredMinEchoRx (remoteRequiredMinEchoRxUsec : Nat) : Session :=
  if bs.remoteMinEchoRxUsec ≠ remoteRequiredMinEchoRxUsec then
    { bs with
      remoteMinEchoRxUsec := remoteRequiredMinEchoRxUsec
      remoteMinEchoRxNsec := bfdUsecToNsec remoteRequiredMinEchoRxUsec }.bfdRecalcEchoTxInterval
  else bs

/-! ## States -/

def bfdSetDiag (code : DiagCode) : Session := { bs with localDiag := code }

def bfdSetPollState (state : PollState) : Session := { bs with pollState := state }

def bfdOnStateChange (env : Env) : Session :=
  match bs.localState with
  | .adminDown | .down =>
    ({ bs with echo := false }.bfdSetEffectiveDesiredMinTx env
      (max bs.configDesiredMinTxNsec defaultDesiredMinTxNsec)).bfdSetEffectiveRequiredMinRx
        bs.configRequiredMinRxNsec
  | .init => { bs with echo := false }.bfdSetEffectiveDesiredMinTx env bs.configDesiredMinTxNsec
  | .up =>
    let bs := bs.bfdSetEffectiveDesiredMinTx env bs.configDesiredMinTxNsec
    if bs.pollState = .notNeeded then bs.bfdSetEffectiveRequiredMinRx bs.configRequiredMinRxNsec
    else bs

def bfdSetState (env : Env) (newState : State) : Session :=
  if bs.localState ≠ newState then { bs with localState := newState }.bfdOnStateChange env else bs

def bfdOnConfigChange (env : Env) : Session :=
  let bs :=
    if bs.remoteDemand && bs.pollState == .needed && bs.pollStateStartOrTimeoutNsec < env.now then
      { bs with txTimeoutNsec := env.now }
    else bs
  bs.bfdRecalcDetectionTime

def bfdSessionSetFlags (env : Env) (adminUpDown : Bool) : Session :=
  if adminUpDown then ((bs.bfdSetState env .down).bfdSetDiag .noDiag).bfdCalcNextTx env
  else ((bs.bfdSetDiag .adminDown).bfdSetState env .adminDown).bfdCalcNextTx env

def bfdSessionSetParams (desiredMinTxUsec requiredMinRxUsec detectMult : Nat) : Session :=
  let changesInterval := bs.configDesiredMinTxUsec ≠ desiredMinTxUsec ∨
    bs.configRequiredMinRxUsec ≠ requiredMinRxUsec
  if bs.localDetectMult ≠ detectMult ∨ changesInterval then
    let bs : Session :=
      match bs.pollState with
      | .notNeeded =>
        if (bs.localState = .up ∨ bs.localState = .init) ∧ changesInterval then
          bs.bfdSetPollState .needed
        else bs
      | .needed | .inProgressAndQueued => bs
      | .inProgress => if changesInterval then bs.bfdSetPollState .inProgressAndQueued else bs
    { bs with
      localDetectMult := detectMult
      configDesiredMinTxUsec := desiredMinTxUsec
      configDesiredMinTxNsec := bfdUsecToNsec desiredMinTxUsec
      configRequiredMinRxUsec := requiredMinRxUsec
      configRequiredMinRxNsec := bfdUsecToNsec requiredMinRxUsec }
  else bs

/-! ## Timeouts -/

/-- What sending a frame changes; the frame is left out. -/
def bfdSendPeriodic (env : Env) : Session :=
  if bs.remoteMinRxUsec = 0 ∧ bs.pollState = .notNeeded then bs
  else if bs.pollState = .notNeeded ∧ bs.remoteDemand ∧ bs.localState = .up ∧ bs.remoteState = .up then
    bs
  else if env.now ≥ bs.txTimeoutNsec ∧ env.canAlloc then
    let bs :=
      if bs.pollState = .needed ∧ ¬ env.now < bs.pollStateStartOrTimeoutNsec then
        { bs with pollStateStartOrTimeoutNsec := env.now }.bfdSetPollState .inProgress
      else bs
    { bs with lastTxNsec := env.now }.bfdCalcNextTx env
  else bs

def bfdInitFinalControlFrame (env : Env) : Session :=
  { bs with lastTxNsec := env.now }.bfdSetPollState .notNeeded

def bfdIsEchoPossible (env : Env) : Bool :=
  bs.localState == .up && bs.remoteState == .up && 0 < bs.remoteMinEchoRxUsec && env.isEchoAvailable

def bfdSendEcho (env : Env) : Session :=
  if !bs.bfdIsEchoPossible env then { bs with echo := false }
  else if env.now ≥ bs.echoTxTimeoutNsec ∧ env.canAlloc then
    if env.canTransportEcho then { bs with echoLastTxNsec := env.now }.bfdCalcNextEchoTx env
    else { bs with echo := false }
  else bs

def bfdCheckRxTimeout (env : Env) : Session :=
  if bs.lastRxNsec + bs.detectionTimeNsec ≤ env.now then
    (({ bs with remoteDiscr := 0 }.bfdSetDiag .detTimeExp).bfdSetState env
      .down).bfdSetRemoteRequiredMinRx 1
  else if bs.echo ∧
      bs.echoLastRxNsec + bs.echoTransmitIntervalNsec * bs.localDetectMult ≤ env.now then
    (bs.bfdSetDiag .echoFailed).bfdSetState env .down
  else bs

def bfdSwitchOnEcho (env : Env) : Session :=
  if bs.pollState = .notNeeded ∧ ¬ bs.echo ∧ bs.bfdIsEchoPossible env then
    ({ bs with
      echo := true
      echoLastRxNsec := env.now
      echoTxTimeoutNsec := env.now }.bfdSetEffectiveRequiredMinRx
        (max minRequiredMinRxWhileEchoNsec bs.configRequiredMinRxNsec)).bfdSetPollState .needed
  else bs

def bfdOnTimeout (env : Env) : Session :=
  match bs.localState with
  | .adminDown | .down => bs.bfdSendPeriodic env
  | .init => (bs.bfdCheckRxTimeout env).bfdSendPeriodic env
  | .up =>
    let bs := ((bs.bfdCheckRxTimeout env).bfdSwitchOnEcho env).bfdSendPeriodic env
    if bs.echo then bs.bfdSendEcho env else bs

end Session

/-! ## Packets -/

/-- A packet: the first two bytes of the header, the other fields as numbers, and the authentication section
behind. -/
structure Pkt where
  versDiag : BitVec 8
  staFlags : BitVec 8
  detectMult : Nat
  length : Nat
  myDisc : U32
  yourDisc : U32
  desMinTx : Nat
  reqMinRx : Nat
  reqMinEchoRx : Nat
  authType : AuthType
  authLen : Nat
  keyId : Nat
  seqNum : U32
  hash : List (BitVec 8)
deriving DecidableEq, Repr

namespace Pkt

variable (pkt : Pkt)

def getVersion : BitVec 8 := pkt.versDiag >>> 5

def getDiagCode : BitVec 8 := pkt.versDiag &&& 31

def getState : State :=
  match (pkt.staFlags >>> 6).toNat with
  | 0 => .adminDown
  | 1 => .down
  | 2 => .init
  | _ => .up

def getFinal : Bool := (pkt.staFlags >>> 4) &&& 1 == 1

def getAuthPresent : Bool := (pkt.staFlags >>> 2) &&& 1 == 1

def getDemand : Bool := (pkt.staFlags >>> 1) &&& 1 == 1

def getMultipoint : Bool := pkt.staFlags &&& 1 == 1

end Pkt

namespace Session

variable (bs : Session)

def rememberSeqNumber (pkt : Pkt) : Session :=
  if pkt.getAuthPresent ∧ (pkt.authType = .keyedSha1 ∨ pkt.authType = .meticulousKeyedSha1) then
    { bs with
      auth := { bs.auth with remoteSeqNumber := pkt.seqNum, remoteSeqNumberKnown := true } }
  else bs

def takeRemoteIntervals (pkt : Pkt) : Session :=
  let bs := { bs with
    remoteDesiredMinTxNsec := bfdUsecToNsec pkt.desMinTx
    remoteDetectMult := pkt.detectMult }
  (bs.bfdSetRemoteRequiredMinRx pkt.reqMinRx).bfdSetRemoteRequiredMinEchoRx pkt.reqMinEchoRx

def finishPoll (env : Env) (pkt : Pkt) : Session :=
  if pkt.getFinal then
    match bs.pollState with
    | .inProgress =>
      let bs := bs.bfdSetPollState .notNeeded
      if bs.localState = .up then
        (bs.bfdSetEffectiveDesiredMinTx env bs.configDesiredMinTxNsec).bfdSetEffectiveRequiredMinRx
          (max (bs.echo.toNat * minRequiredMinRxWhileEchoNsec) bs.configRequiredMinRxNsec)
      else bs
    | .inProgressAndQueued =>
      { bs with
        pollStateStartOrTimeoutNsec :=
          env.now + (env.now - bs.pollStateStartOrTimeoutNsec) }.bfdSetPollState .needed
    | .notNeeded | .needed => bs
  else bs

def followRemoteState (env : Env) : Session :=
  if bs.localState = .adminDown then bs
  else if bs.remoteState = .adminDown then (bs.bfdSetDiag .neighborSigDown).bfdSetState env .down
  else
    match bs.localState with
    | .adminDown => bs
    | .down =>
      match bs.remoteState with
      | .down => (bs.bfdSetDiag .noDiag).bfdSetState env .init
      | .init => (bs.bfdSetDiag .noDiag).bfdSetState env .up
      | .adminDown | .up => bs
    | .init =>
      match bs.remoteState with
      | .up | .init => (bs.bfdSetDiag .noDiag).bfdSetState env .up
      | .adminDown | .down => bs
    | .up =>
      match bs.remoteState with
      | .down => (bs.bfdSetDiag .neighborSigDown).bfdSetState env .down
      | .adminDown | .init | .up => bs

def bfdConsumePkt (env : Env) (pkt : Pkt) : Session :=
  if pkt.yourDisc ≠ 0 ∧ pkt.yourDisc ≠ bs.localDiscr then bs
  else
    let bs := { bs with
      remoteDiscr := pkt.myDisc
      remoteState := pkt.getState
      remoteDemand := pkt.getDemand
      remoteDiag := pkt.getDiagCode.toNat
      lastRxNsec := env.now }
    (((bs.rememberSeqNumber pkt).takeRemoteIntervals pkt).finishPoll env pkt |>.bfdCalcNextTx
      env).followRemoteState env

def bfdConsumeEchoPkt (env : Env) (expireTimeNsec : Nat) : Session :=
  if expireTimeNsec < env.now then bs else { bs with echoLastRxNsec := env.now }

end Session

/-! ## Events -/

/-- What can happen to a session. `packet` was accepted; `configChanged` comes some time after `setParams`. -/
inductive Event
  | packet (pkt : Pkt)
  | timeout
  | setParams (desiredMinTxUsec requiredMinRxUsec detectMult : Nat)
  | configChanged
  | setFlags (adminUpDown : Bool)
  | finalFrame
  | echoPacket (expireTimeNsec : Nat)

def Session.handle (bs : Session) (env : Env) : Event → Session
  | .packet pkt => bs.bfdConsumePkt env pkt
  | .timeout => bs.bfdOnTimeout env
  | .setParams a b c => bs.bfdSessionSetParams a b c
  | .configChanged => bs.bfdOnConfigChange env
  | .setFlags adminUpDown => bs.bfdSessionSetFlags env adminUpDown
  | .finalFrame => bs.bfdInitFinalControlFrame env
  | .echoPacket expire => bs.bfdConsumeEchoPkt env expire

/-! ## New sessions -/

/-- `bfd_get_session`: all zero but for the defaults. -/
def bfdGetSession (localDiscr : U32) (udpKey : UdpKey) : Session where
  localState := .down
  remoteState := .down
  localDiag := .noDiag
  remoteDiag := 0
  localDiscr := localDiscr
  remoteDiscr := 0
  configDesiredMinTxUsec := bfdDefaultDesiredMinTxUsec
  configDesiredMinTxNsec := defaultDesiredMinTxNsec
  effectiveDesiredMinTxNsec := defaultDesiredMinTxNsec
  configRequiredMinRxUsec := 0
  configRequiredMinRxNsec := 0
  effectiveRequiredMinRxNsec := 0
  remoteMinRxUsec := 1
  remoteMinRxNsec := bfdUsecToNsec 1
  remoteMinEchoRxUsec := 0
  remoteMinEchoRxNsec := 0
  remoteDesiredMinTxNsec := 0
  localDetectMult := 0
  remoteDemand := false
  remoteDetectMult := 0
  echo := false
  transmitIntervalNsec := 0
  txTimeoutNsec := 0
  lastTxNsec := 0
  lastRxNsec := 0
  echoTransmitIntervalNsec := 0
  echoTxTimeoutNsec := 0
  echoLastTxNsec := 0
  echoLastRxNsec := 0
  detectionTimeNsec := 0
  pollState := .notNeeded
  pollStateStartOrTimeoutNsec := 0
  auth := ⟨none, none, 0, false, 0, 0, false⟩
  udpKey := udpKey

def Session.bfdSessionStart (bs : Session) : Session :=
  (bs.bfdSetEffectiveRequiredMinRx bs.configRequiredMinRxNsec).bfdRecalcTxInterval

/-- `bfd_udp_add_and_start_session`, without authentication. -/
def bfdAddAndStartSession (localDiscr : U32) (udpKey : UdpKey)
    (desiredMinTxUsec requiredMinRxUsec detectMult : Nat) : Session :=
  ((bfdGetSession localDiscr udpKey).bfdSessionSetParams desiredMinTxUsec requiredMinRxUsec
    detectMult).bfdSessionStart

end Vpp.Bfd
