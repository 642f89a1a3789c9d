import Vpp.Bfd.SeqWindow
import Vpp.Lib.ByteOrder

/-!
# Packets over UDP

`bfd_udp4_scan` checks the headers of a packet, finds its session, verifies the authentication and last
the transport. The authentication may forget the number of the peer and switch to the next key before a
later check fails; and the length of the packet is compared with a UDP length in the wrong byte order.
-/

namespace Vpp.Bfd

open Lib

inductive UdpError
  | none
  | bad
  | version
  | length
  | detectMulti
  | multiPoint
  | myDisc
  | yourDisc
  | adminDown
  | noSession
  | failedVerification
  | srcMismatch
  | dstMismatch
  | ttl
deriving DecidableEq, Repr

structure AuthKey where
  useCount : U32
  key : List (BitVec 8)
  authType : AuthType
deriving DecidableEq, Repr

/-- What `bfd_main` and `bfd_udp_main` hold. -/
structure Main where
  sessions : Nat → Option Session
  sessionByDisc : U32 → Option Nat
  sessionIdxByBfdKey : UdpKey → Option Nat
  authKeys : Nat → AuthKey

/-- A buffer with its headers; `udpLength` is loaded from the UDP header without a change of byte order. -/
structure Udp4Buffer where
  currentData : Int
  currentLength : Nat
  l3HdrOffset : Int
  swIfIndex : Nat
  srcAddress : U32
  dstAddress : U32
  ttl : Nat
  udpLength : BitVec 16
  pkt : Pkt
deriving DecidableEq, Repr

def sizeofPkt : Nat := 24

def sizeofPktWithCommonAuth : Nat := 26

def sizeofPktWithSha1Auth : Nat := 52

def sizeofSha1Auth : Nat := 28

def bufferPreDataSize : Int := 128

/-! ## Authentication -/

def AuthType.isMeticulous : AuthType → Bool
  | .meticulousKeyedMd5 | .meticulousKeyedSha1 => true
  | _ => false

section Auth

-- `sha1` is the digest of the bytes of a packet with its authentication section.
variable (sha1 : Pkt → List (BitVec 8))

variable (now : Nat) (pkt : Pkt) (pktSize : Nat)

def bfdVerifyPktAuthKeySha1 (bfdKeyId : Nat) (authKey : AuthKey) : Bool :=
  if pktSize < sizeofPktWithCommonAuth then false
  else if pkt.authType ≠ authKey.authType then false
  else if pktSize < sizeofPktWithSha1Auth ∨ pkt.authLen < sizeofSha1Auth then false
  else if pkt.keyId ≠ bfdKeyId then false
  else sha1 { pkt with hash := authKey.key } == pkt.hash

def bfdVerifyPktAuthKey (bs : Session) (bfdKeyId : Nat) (authKey : AuthKey) : Session × Bool :=
  match authKey.authType with
  | .reserved | .simplePassword | .keyedMd5 | .meticulousKeyedMd5 => (bs, false)
  | .keyedSha1 | .meticulousKeyedSha1 =>
    let r := bs.bfdVerifyPktAuthSeqNum now pkt.seqNum authKey.authType.isMeticulous
    (r.1, r.2 && bfdVerifyPktAuthKeySha1 sha1 pkt pktSize bfdKeyId authKey)

def bfdSessionSwitchAuthToNext (bs : Session) (keys : Nat → AuthKey) : Session × (Nat → AuthKey) :=
  let keys :=
    match bs.auth.currKey with
    | some curr => Function.update keys curr { keys curr with useCount := (keys curr).useCount - 1 }
    | none => keys
  ({ bs with
    auth := { bs.auth with
      isDelayed := false
      currKey := bs.auth.nextKey
      nextKey := none
      currBfdKeyId := bs.auth.nextBfdKeyId } }, keys)

/-- A packet that the current key, if any, does not fit: a delayed switch may be due. -/
def tryNextKey (bs : Session) (keys : Nat → AuthKey) : (Session × (Nat → AuthKey)) × Bool :=
  match bs.auth.isDelayed, bs.auth.nextKey with
  | true, some next =>
    let r := bfdVerifyPktAuthKey sha1 now pkt pktSize bs bs.auth.nextBfdKeyId (keys next)
    if r.2 then (bfdSessionSwitchAuthToNext r.1 keys, true) else ((r.1, keys), false)
  | _, _ => ((bs, keys), false)

def bfdVerifyPktAuth (bs : Session) (keys : Nat → AuthKey) : (Session × (Nat → AuthKey)) × Bool :=
  if pkt.getAuthPresent then
    match bs.auth.currKey with
    | none => tryNextKey sha1 now pkt pktSize bs keys
    | some curr =>
      let r := bfdVerifyPktAuthKey sha1 now pkt pktSize bs bs.auth.currBfdKeyId (keys curr)
      if r.2 then ((r.1, keys), true) else tryNextKey sha1 now pkt pktSize r.1 keys
  else if pktSize > sizeofPkt then ((bs, keys), false)
  else
    match bs.auth.currKey with
    | some _ =>
      if bs.auth.isDelayed ∧ bs.auth.nextKey = none then (bfdSessionSwitchAuthToNext bs keys, true)
      else ((bs, keys), false)
    | none => ((bs, keys), true)

end Auth

/-! ## The scan -/

def bfdVerifyPktCommon (pkt : Pkt) : UdpError :=
  if pkt.getVersion ≠ 1 then .version
  else if pkt.length < sizeofPkt ∨ (pkt.getAuthPresent ∧ pkt.length < sizeofPktWithCommonAuth) then
    .length
  else if pkt.detectMult = 0 then .detectMulti
  else if pkt.getMultipoint then .multiPoint
  else if pkt.myDisc = 0 then .myDisc
  else if pkt.yourDisc = 0 ∧ pkt.getState ≠ .down ∧ pkt.getState ≠ .adminDown then .yourDisc
  else .none

namespace Udp4Buffer

variable (b : Udp4Buffer)

/-- `bfd_udp4_find_headers` finds both headers. -/
def bfdUdp4FindHeaders : Bool :=
  ¬ b.l3HdrOffset < -bufferPreDataSize ∧ ¬ b.l3HdrOffset > b.currentData

/-- `udp->length - sizeof (*udp)`. -/
def udpPayloadLength : U32 := b.udpLength.setWidth 32 - 8

def bfdUdp4VerifyTransport (key : UdpKey) : UdpError :=
  if b.srcAddress ≠ key.peerAddr then .srcMismatch
  else if b.dstAddress ≠ key.localAddr then .dstMismatch
  else if b.ttl ≠ 255 then .ttl
  else .none

def checkHeaders : UdpError :=
  if sizeofPkt > b.currentLength then .bad
  else if !b.bfdUdp4FindHeaders then .bad
  else if b.pkt.length > b.udpPayloadLength.toNat then .length
  else bfdVerifyPktCommon b.pkt

end Udp4Buffer

/-- What `bfd_consume_pkt` returns for a session. -/
def bfdConsumePktError (bs : Session) (pkt : Pkt) : UdpError :=
  if pkt.yourDisc ≠ 0 ∧ pkt.yourDisc ≠ bs.localDiscr then .yourDisc
  else if bs.localState = .adminDown then .adminDown
  else .none

namespace Main

variable (m : Main)

def bfdFindSession (b : Udp4Buffer) : Option Nat :=
  if b.pkt.yourDisc ≠ 0 then m.sessionByDisc b.pkt.yourDisc
  else m.sessionIdxByBfdKey ⟨b.swIfIndex, b.dstAddress, b.srcAddress⟩

def setSession (bsIdx : Nat) (bs : Session) : Main :=
  { m with sessions := Function.update m.sessions bsIdx (some bs) }

/-- The state after the scan, the error, and the session whose packet was consumed (`bs_out`). -/
def bfdUdp4Scan (sha1 : Pkt → List (BitVec 8)) (env : Env) (b : Udp4Buffer) :
    Main × UdpError × Option Nat :=
  if b.checkHeaders ≠ .none then (m, b.checkHeaders, none)
  else
    match m.bfdFindSession b with
    | none => (m, .noSession, none)
    | some bsIdx =>
      match m.sessions bsIdx with
      | none => (m, .noSession, none)
      | some bs =>
        let r := bfdVerifyPktAuth sha1 env.now b.pkt b.currentLength bs m.authKeys
        let m := { m.setSession bsIdx r.1.1 with authKeys := r.1.2 }
        if !r.2 then (m, .failedVerification, none)
        else if b.bfdUdp4VerifyTransport r.1.1.udpKey ≠ .none then
          (m, b.bfdUdp4VerifyTransport r.1.1.udpKey, none)
        else
          (m.setSession bsIdx (r.1.1.bfdConsumePkt env b.pkt), bfdConsumePktError r.1.1 b.pkt,
            some bsIdx)

end Main

/-! ## What the authentication decides and changes -/

def AuthType.IsSha1 (t : AuthType) : Prop := t = .keyedSha1 ∨ t = .meticulousKeyedSha1

/-- The peer was silent for longer than twice the detection time. -/
def Session.Silent (bs : Session) (now : Nat) : Prop := now - bs.lastRxNsec > bs.detectionTimeNsec * 2

def Session.forgetSeqNumber (bs : Session) : Session :=
  { bs with auth := { bs.auth with remoteSeqNumberKnown := false } }

section Decides

variable (sha1 : Pkt → List (BitVec 8)) (now : Nat) (pkt : Pkt) (pktSize : Nat)
  (bs : Session) (keys : Nat → AuthKey)

structure KeyFits (bfdKeyId : Nat) (authKey : AuthKey) : Prop where
  isSha1 : authKey.authType.IsSha1
  seqNum : (bs.bfdVerifyPktAuthSeqNum now pkt.seqNum authKey.authType.isMeticulous).2 = true
  digest : bfdVerifyPktAuthKeySha1 sha1 pkt pktSize bfdKeyId authKey = true

def CurrKeyFits : Prop :=
  ∃ curr, bs.auth.currKey = some curr ∧
    KeyFits sha1 now pkt pktSize bs bs.auth.currBfdKeyId (keys curr)

def NextKeyFits : Prop :=
  bs.auth.isDelayed = true ∧ ∃ next, bs.auth.nextKey = some next ∧
    KeyFits sha1 now pkt pktSize bs bs.auth.nextBfdKeyId (keys next)

def SeqNumTried : Prop :=
  pkt.getAuthPresent = true ∧
    ((∃ curr, bs.auth.currKey = some curr ∧ (keys curr).authType.IsSha1) ∨
      bs.auth.isDelayed = true ∧ ∃ next, bs.auth.nextKey = some next ∧ (keys next).authType.IsSha1)

def Switches : Prop :=
  if pkt.getAuthPresent then
    ¬ CurrKeyFits sha1 now pkt pktSize bs keys ∧ NextKeyFits sha1 now pkt pktSize bs keys
  else pktSize ≤ sizeofPkt ∧ bs.auth.currKey ≠ none ∧ bs.auth.isDelayed = true ∧ bs.auth.nextKey = none

def Authentic : Prop :=
  if pkt.getAuthPresent then
    CurrKeyFits sha1 now pkt pktSize bs keys ∨ NextKeyFits sha1 now pkt pktSize bs keys
  else pktSize ≤ sizeofPkt ∧
    (bs.auth.currKey = none ∨ bs.auth.isDelayed = true ∧ bs.auth.nextKey = none)

variable {sha1 now pkt pktSize bs keys} {bfdKeyId : Nat} {authKey : AuthKey}

@[simp] theorem forgetSeqNumber_known : bs.forgetSeqNumber.auth.remoteSeqNumberKnown = false := rfl

theorem forgetSeqNumber_of_unknown (h : bs.auth.remoteSeqNumberKnown = false) :
    bs.forgetSeqNumber = bs := by
  unfold Session.forgetSeqNumber
  rw [← h]

theorem forgetSeqNumber_ne (h : bs.auth.remoteSeqNumberKnown = true) {t : Session}
    (ht : t.auth.remoteSeqNumberKnown = false) : t ≠ bs := by
  rintro rfl
  rw [h] at ht
  cases ht

theorem seqNum_of_silent (h : bs.Silent now) (s : U32) (isMeticulous : Bool) :
    bs.bfdVerifyPktAuthSeqNum now s isMeticulous = (bs.forgetSeqNumber, true) := by
  unfold Session.Silent at h
  simp only [Session.bfdVerifyPktAuthSeqNum, if_pos h]
  rfl

theorem seqNum_of_not_silent (h : ¬ bs.Silent now) (s : U32) (isMeticulous : Bool) :
    (bs.bfdVerifyPktAuthSeqNum now s isMeticulous).1 = bs := by
  unfold Session.Silent at h
  simp only [Session.bfdVerifyPktAuthSeqNum, if_neg h]
  split
  · split
    · split <;> rfl
    · split <;> rfl
  · rfl

/-! ### One key -/

theorem verifyKey_iff :
    (bfdVerifyPktAuthKey sha1 now pkt pktSize bs bfdKeyId authKey).2 = true ↔
      KeyFits sha1 now pkt pktSize bs bfdKeyId authKey := by
  have hsha1 : KeyFits sha1 now pkt pktSize bs bfdKeyId authKey → authKey.authType.IsSha1 :=
    fun h => h.isSha1
  have hboth (h : authKey.authType.IsSha1) :
      KeyFits sha1 now pkt pktSize bs bfdKeyId authKey ↔
        (bs.bfdVerifyPktAuthSeqNum now pkt.seqNum authKey.authType.isMeticulous).2 = true ∧
          bfdVerifyPktAuthKeySha1 sha1 pkt pktSize bfdKeyId authKey = true :=
    ⟨fun hf => ⟨hf.seqNum, hf.digest⟩, fun hf => ⟨h, hf.1, hf.2⟩⟩
  unfold bfdVerifyPktAuthKey
  unfold AuthType.IsSha1 at hsha1 hboth
  cases ht : authKey.authType <;> simp only [ht] at hsha1 hboth ⊢
  case keyedSha1 => rw [hboth (.inl trivial), Bool.and_eq_true]
  case meticulousKeyedSha1 => rw [hboth (.inr trivial), Bool.and_eq_true]
  all_goals simpa using hsha1

theorem verifyKey_session (h : ¬ (bs.Silent now ∧ authKey.authType.IsSha1)) :
    (bfdVerifyPktAuthKey sha1 now pkt pktSize bs bfdKeyId authKey).1 = bs := by
  unfold bfdVerifyPktAuthKey
  unfold AuthType.IsSha1 at h
  cases ht : authKey.authType <;> simp only [ht] at h ⊢
  case keyedSha1 => exact seqNum_of_not_silent (by simpa using h) _ _
  case meticulousKeyedSha1 => exact seqNum_of_not_silent (by simpa using h) _ _

theorem verifyKey_session_of_silent (h : bs.Silent now) (ht : authKey.authType.IsSha1) :
    (bfdVerifyPktAuthKey sha1 now pkt pktSize bs bfdKeyId authKey).1 = bs.forgetSeqNumber := by
  unfold bfdVerifyPktAuthKey
  rcases ht with ht | ht
  · simp only [ht, seqNum_of_silent h]
  · simp only [ht, seqNum_of_silent h]

theorem keyFits_forgetSeqNumber (h : bs.Silent now) :
    KeyFits sha1 now pkt pktSize bs.forgetSeqNumber bfdKeyId authKey ↔
      KeyFits sha1 now pkt pktSize bs bfdKeyId authKey := by
  have hforget : bs.forgetSeqNumber.Silent now := h
  constructor
  · rintro ⟨hsha1, -, hdigest⟩
    exact ⟨hsha1, by rw [seqNum_of_silent h], hdigest⟩
  · rintro ⟨hsha1, -, hdigest⟩
    exact ⟨hsha1, by rw [seqNum_of_silent hforget], hdigest⟩

/-! ### The next key -/

theorem switch_known : (bfdSessionSwitchAuthToNext bs keys).1.auth.remoteSeqNumberKnown =
    bs.auth.remoteSeqNumberKnown := rfl

theorem tryNextKey_of_idle (h : bs.auth.isDelayed = false ∨ bs.auth.nextKey = none) :
    tryNextKey sha1 now pkt pktSize bs keys = ((bs, keys), false) := by
  unfold tryNextKey
  rcases h with h | h
  · rw [h]
  · rw [h]
    cases bs.auth.isDelayed <;> rfl

theorem tryNextKey_of_delayed (hd : bs.auth.isDelayed = true) {next : Nat}
    (hn : bs.auth.nextKey = some next) :
    tryNextKey sha1 now pkt pktSize bs keys =
      let r := bfdVerifyPktAuthKey sha1 now pkt pktSize bs bs.auth.nextBfdKeyId (keys next)
      if r.2 then (bfdSessionSwitchAuthToNext r.1 keys, true) else ((r.1, keys), false) := by
  unfold tryNextKey
  rw [hd, hn]

theorem idle_or_delayed : (bs.auth.isDelayed = false ∨ bs.auth.nextKey = none) ∨
    bs.auth.isDelayed = true ∧ ∃ next, bs.auth.nextKey = some next := by
  cases hd : bs.auth.isDelayed with
  | false => exact .inl (.inl rfl)
  | true =>
    cases hn : bs.auth.nextKey with
    | none => exact .inl (.inr rfl)
    | some next => exact .inr ⟨rfl, next, rfl⟩

theorem nextKeyFits_of_delayed (hd : bs.auth.isDelayed = true) {next : Nat}
    (hn : bs.auth.nextKey = some next) :
    NextKeyFits sha1 now pkt pktSize bs keys ↔
      KeyFits sha1 now pkt pktSize bs bs.auth.nextBfdKeyId (keys next) := by
  unfold NextKeyFits
  rw [hd, hn]
  simp

theorem not_nextKeyFits_of_idle (h : bs.auth.isDelayed = false ∨ bs.auth.nextKey = none) :
    ¬ NextKeyFits sha1 now pkt pktSize bs keys := by
  rintro ⟨hd, next, hn, -⟩
  simp [hd, hn] at h

theorem tryNextKey_iff :
    (tryNextKey sha1 now pkt pktSize bs keys).2 = true ↔ NextKeyFits sha1 now pkt pktSize bs keys := by
  rcases idle_or_delayed with h | ⟨hd, next, hn⟩
  · rw [tryNextKey_of_idle h]
    simpa using not_nextKeyFits_of_idle h
  rw [tryNextKey_of_delayed hd hn, nextKeyFits_of_delayed hd hn, ← verifyKey_iff]
  simp only
  split
  · rename_i hok
    simp [hok]
  · rename_i hok
    simp [hok]

theorem tryNextKey_known (h : bs.auth.remoteSeqNumberKnown = false) :
    (tryNextKey sha1 now pkt pktSize bs keys).1.1.auth.remoteSeqNumberKnown = false := by
  rcases idle_or_delayed with hidle | ⟨hd, next, hn⟩
  · rw [tryNextKey_of_idle hidle]
    exact h
  have hkey : (bfdVerifyPktAuthKey sha1 now pkt pktSize bs bs.auth.nextBfdKeyId (keys next)).1 =
      bs := by
    by_cases hboth : bs.Silent now ∧ (keys next).authType.IsSha1
    · rw [verifyKey_session_of_silent hboth.1 hboth.2, forgetSeqNumber_of_unknown h]
    · exact verifyKey_session hboth
  rw [tryNextKey_of_delayed hd hn]
  simp only [hkey]
  split
  · rw [switch_known, h]
  · exact h

theorem tryNextKey_unchanged_iff :
    (tryNextKey sha1 now pkt pktSize bs keys).1 = (bs, keys) ↔
      ¬ NextKeyFits sha1 now pkt pktSize bs keys ∧
        ¬ (bs.Silent now ∧ bs.auth.remoteSeqNumberKnown = true ∧ bs.auth.isDelayed = true ∧
          ∃ next, bs.auth.nextKey = some next ∧ (keys next).authType.IsSha1) := by
  rcases idle_or_delayed with h | ⟨hd, next, hn⟩
  · rw [tryNextKey_of_idle h]
    refine iff_of_true rfl ⟨not_nextKeyFits_of_idle h, ?_⟩
    rintro ⟨-, -, hd, next, hn, -⟩
    simp [hd, hn] at h
  rw [tryNextKey_of_delayed hd hn, nextKeyFits_of_delayed hd hn, ← verifyKey_iff]
  simp only
  split
  · -- a switch ends the delay
    rename_i hok
    refine iff_of_false ?_ (fun h => h.1 hok)
    intro heq
    have hdelayed := congrArg (fun s => s.1.auth.isDelayed) heq
    simp only [hd] at hdelayed
    cases hdelayed
  · rename_i hok
    by_cases hreset : bs.Silent now ∧ (keys next).authType.IsSha1
    · rw [verifyKey_session_of_silent hreset.1 hreset.2]
      cases hknown : bs.auth.remoteSeqNumberKnown with
      | false =>
        rw [forgetSeqNumber_of_unknown hknown]
        exact iff_of_true rfl ⟨hok, fun h => by cases h.2.1⟩
      | true =>
        refine iff_of_false (fun heq => ?_) (fun h => h.2 ⟨hreset.1, rfl, hd, next, hn, hreset.2⟩)
        exact forgetSeqNumber_ne hknown forgetSeqNumber_known (congrArg Prod.fst heq)
    · rw [verifyKey_session hreset]
      refine iff_of_true rfl ⟨hok, ?_⟩
      rintro ⟨hsilent, -, -, other, hother, hsha1⟩
      rw [hn] at hother
      obtain rfl := Option.some.inj hother
      exact hreset ⟨hsilent, hsha1⟩

/-! ### All keys -/

theorem currKeyFits_of_some {curr : Nat} (h : bs.auth.currKey = some curr) :
    CurrKeyFits sha1 now pkt pktSize bs keys ↔
      KeyFits sha1 now pkt pktSize bs bs.auth.currBfdKeyId (keys curr) := by
  unfold CurrKeyFits
  rw [h]
  simp

theorem not_currKeyFits_of_none (h : bs.auth.currKey = none) :
    ¬ CurrKeyFits sha1 now pkt pktSize bs keys := by
  rintro ⟨curr, hcurr, -⟩
  rw [h] at hcurr
  cases hcurr

theorem verifyKey_cases :
    (bfdVerifyPktAuthKey sha1 now pkt pktSize bs bfdKeyId authKey).1 = bs ∨
      bs.Silent now ∧ authKey.authType.IsSha1 ∧
        (bfdVerifyPktAuthKey sha1 now pkt pktSize bs bfdKeyId authKey).1 = bs.forgetSeqNumber := by
  by_cases h : bs.Silent now ∧ authKey.authType.IsSha1
  · exact .inr ⟨h.1, h.2, verifyKey_session_of_silent h.1 h.2⟩
  · exact .inl (verifyKey_session h)

theorem bfdVerifyPktAuth_iff :
    (bfdVerifyPktAuth sha1 now pkt pktSize bs keys).2 = true ↔
      Authentic sha1 now pkt pktSize bs keys := by
  unfold bfdVerifyPktAuth Authentic
  by_cases hpresent : pkt.getAuthPresent = true
  · rw [if_pos hpresent, if_pos hpresent]
    cases hcurr : bs.auth.currKey with
    | none =>
      simp only [tryNextKey_iff, not_currKeyFits_of_none hcurr, false_or]
    | some curr =>
      simp only
      rw [currKeyFits_of_some hcurr, ← verifyKey_iff]
      split
      · rename_i hok
        exact iff_of_true rfl (.inl hok)
      rename_i hok
      rw [tryNextKey_iff, or_iff_right hok]
      rcases @verifyKey_cases sha1 now pkt pktSize bs bs.auth.currBfdKeyId (keys curr)
        with hsame | ⟨hsilent, -, hforget⟩
      · rw [hsame]
      · rw [hforget]
        unfold NextKeyFits
        simp only [keyFits_forgetSeqNumber hsilent]
        exact Iff.rfl
  · rw [if_neg hpresent, if_neg hpresent]
    by_cases hsize : pktSize > sizeofPkt
    · rw [if_pos hsize]
      simp only [Bool.false_eq_true, false_iff]
      omega
    rw [if_neg hsize]
    have hle : pktSize ≤ sizeofPkt := not_lt.mp hsize
    cases hcurr : bs.auth.currKey with
    | none => simp [hle]
    | some curr =>
      by_cases hoff : bs.auth.isDelayed = true ∧ bs.auth.nextKey = none
      · simp [hle, hoff]
      · simp [hoff]

theorem bfdVerifyPktAuth_unchanged_iff :
    (bfdVerifyPktAuth sha1 now pkt pktSize bs keys).1 = (bs, keys) ↔
      ¬ Switches sha1 now pkt pktSize bs keys ∧
        ¬ (bs.Silent now ∧ bs.auth.remoteSeqNumberKnown = true ∧ SeqNumTried pkt bs keys) := by
  unfold bfdVerifyPktAuth Switches
  by_cases hpresent : pkt.getAuthPresent = true
  · rw [if_pos hpresent, if_pos hpresent]
    simp only [SeqNumTried, hpresent, true_and]
    cases hcurr : bs.auth.currKey with
    | none =>
      simp only [tryNextKey_unchanged_iff, not_currKeyFits_of_none hcurr, not_false_eq_true, true_and,
        reduceCtorEq, false_and, exists_false, false_or]
    | some curr =>
      have htried : (∃ c, some curr = some c ∧ (keys c).authType.IsSha1) ↔ (keys curr).authType.IsSha1 := by
        simp
      simp only
      rw [currKeyFits_of_some hcurr, htried]
      by_cases hreset : bs.Silent now ∧ (keys curr).authType.IsSha1
      · -- the current key makes the session forget the number, whatever comes then
        rw [verifyKey_session_of_silent hreset.1 hreset.2]
        cases hknown : bs.auth.remoteSeqNumberKnown with
        | false =>
          rw [forgetSeqNumber_of_unknown hknown]
          split
          · rename_i hok
            exact iff_of_true rfl ⟨fun h => h.1 (verifyKey_iff.mp hok), by simp⟩
          · rename_i hok
            rw [tryNextKey_unchanged_iff, hknown]
            simp [mt verifyKey_iff.mpr hok]
        | true =>
          refine iff_of_false (fun heq => ?_) (fun h => h.2 ⟨hreset.1, rfl, .inl hreset.2⟩)
          refine forgetSeqNumber_ne hknown ?_ (congrArg Prod.fst heq)
          split
          · exact forgetSeqNumber_known
          · exact tryNextKey_known forgetSeqNumber_known
      · rw [verifyKey_session hreset]
        split
        · rename_i hok
          have hfits := verifyKey_iff.mp hok
          exact iff_of_true rfl ⟨fun h => h.1 hfits, fun h => hreset ⟨h.1, hfits.isSha1⟩⟩
        rename_i hok
        rw [tryNextKey_unchanged_iff]
        have hfits := mt verifyKey_iff.mpr hok
        constructor
        · rintro ⟨hnext, hsilent⟩
          refine ⟨fun h => hnext h.2, ?_⟩
          rintro ⟨hs, hknown, hsha1 | htry⟩
          · exact hreset ⟨hs, hsha1⟩
          · exact hsilent ⟨hs, hknown, htry⟩
        · rintro ⟨hnext, hsilent⟩
          exact ⟨fun h => hnext ⟨hfits, h⟩, fun h => hsilent ⟨h.1, h.2.1, .inr h.2.2⟩⟩
  · rw [if_neg hpresent, if_neg hpresent]
    have htried : ¬ (bs.Silent now ∧ bs.auth.remoteSeqNumberKnown = true ∧ SeqNumTried pkt bs keys) :=
      fun h => hpresent h.2.2.1
    by_cases hsize : pktSize > sizeofPkt
    · rw [if_pos hsize]
      exact iff_of_true rfl ⟨fun h => not_lt.mpr h.1 hsize, htried⟩
    rw [if_neg hsize]
    cases hcurr : bs.auth.currKey with
    | none => exact iff_of_true rfl ⟨fun h => h.2.1 rfl, htried⟩
    | some curr =>
      simp only
      split
      · rename_i hoff
        refine iff_of_false (fun heq => ?_)
          (fun h => h.1 ⟨not_lt.mp hsize, Option.some_ne_none curr, hoff.1, hoff.2⟩)
        have hdelayed := congrArg (fun s => s.1.auth.isDelayed) heq
        simp only [hoff.1] at hdelayed
        cases hdelayed
      · rename_i hoff
        exact iff_of_true rfl ⟨fun h => hoff h.2.2, htried⟩

theorem authentic_of_switches (h : Switches sha1 now pkt pktSize bs keys) :
    Authentic sha1 now pkt pktSize bs keys := by
  unfold Switches at h
  unfold Authentic
  split at h
  · rename_i hpresent
    rw [if_pos hpresent]
    exact .inr h.2
  · rename_i hpresent
    rw [if_neg hpresent]
    exact ⟨h.1, .inr h.2.2⟩

theorem bfdVerifyPktAuth_udpKey :
    (bfdVerifyPktAuth sha1 now pkt pktSize bs keys).1.1.udpKey = bs.udpKey := by
  have hkey (t : Session) (id : Nat) (k : AuthKey) :
      (bfdVerifyPktAuthKey sha1 now pkt pktSize t id k).1.udpKey = t.udpKey := by
    rcases @verifyKey_cases sha1 now pkt pktSize t id k with h | ⟨-, -, h⟩
    · rw [h]
    · rw [h]
      rfl
  have hnext (t : Session) : (tryNextKey sha1 now pkt pktSize t keys).1.1.udpKey = t.udpKey := by
    rcases idle_or_delayed with h | ⟨hd, next, hn⟩
    · rw [tryNextKey_of_idle h]
    rw [tryNextKey_of_delayed hd hn]
    simp only
    split
    · exact hkey t _ _
    · exact hkey t _ _
  unfold bfdVerifyPktAuth
  split
  · split
    · exact hnext bs
    · simp only
      split
      · exact hkey bs _ _
      · rw [hnext, hkey]
  · split
    · rfl
    · split
      · split <;> rfl
      · rfl

end Decides

/-! ## Rejected packets -/

def Udp4Buffer.payload (b : Udp4Buffer) : Nat := (swapBytes b.udpLength).toNat - 8

/-- What is asked of a packet that gets as far as its session. -/
structure PacketRight (sha1 : Pkt → List (BitVec 8)) (now : Nat) (b : Udp4Buffer) (bs : Session)
    (keys : Nat → AuthKey) : Prop where
  /-- the number is forgotten only for a packet that is accepted -/
  forgets : bs.Silent now → bs.auth.remoteSeqNumberKnown = true → SeqNumTried b.pkt bs keys →
    Authentic sha1 now b.pkt b.currentLength bs keys ∧ b.bfdUdp4VerifyTransport bs.udpKey = .none
  /-- and so is the key switched -/
  switches : Switches sha1 now b.pkt b.currentLength bs keys → b.bfdUdp4VerifyTransport bs.udpKey = .none
  /-- an accepted packet is in the datagram -/
  fits : Authentic sha1 now b.pkt b.currentLength bs keys → b.bfdUdp4VerifyTransport bs.udpKey = .none →
    b.pkt.length ≤ b.payload

namespace Main

variable (m : Main) (sha1 : Pkt → List (BitVec 8)) (env : Env) (b : Udp4Buffer)

/-- A packet that passes the checks of its headers is right for its session. -/
def Right : Prop :=
  b.checkHeaders = .none → ∀ bsIdx bs, m.bfdFindSession b = some bsIdx → m.sessions bsIdx = some bs →
    PacketRight sha1 env.now b bs m.authKeys

variable {bsIdx : Nat} {bs : Session}

theorem setSession_eq_self_iff {t : Session} {keys : Nat → AuthKey} (h : m.sessions bsIdx = some bs) :
    { m.setSession bsIdx t with authKeys := keys } = m ↔ (t, keys) = (bs, m.authKeys) := by
  constructor
  · intro heq
    have hsession := congrArg (fun n => n.sessions bsIdx) heq
    have hkeys := congrArg Main.authKeys heq
    simp only [setSession, Function.update_self, h, Option.some.injEq] at hsession
    rw [hsession, ← hkeys]
  · intro heq
    obtain ⟨rfl, rfl⟩ := Prod.mk.inj heq
    unfold setSession
    rw [← h, Function.update_eq_self]

theorem bfdUdp4Scan_rejected (hheaders : b.checkHeaders = .none)
    (hfind : m.bfdFindSession b = some bsIdx) (hbs : m.sessions bsIdx = some bs)
    (h : ¬ (Authentic sha1 env.now b.pkt b.currentLength bs m.authKeys ∧
      b.bfdUdp4VerifyTransport bs.udpKey = .none)) :
    (m.bfdUdp4Scan sha1 env b).2.2 = none ∧
      (m.bfdUdp4Scan sha1 env b).1 =
        { m.setSession bsIdx (bfdVerifyPktAuth sha1 env.now b.pkt b.currentLength bs m.authKeys).1.1 with
          authKeys := (bfdVerifyPktAuth sha1 env.now b.pkt b.currentLength bs m.authKeys).1.2 } := by
  unfold bfdUdp4Scan
  rw [if_neg (not_not.mpr hheaders)]
  simp only [hfind, hbs, bfdVerifyPktAuth_udpKey]
  by_cases hok : Authentic sha1 env.now b.pkt b.currentLength bs m.authKeys
  · rw [if_neg (by simp [bfdVerifyPktAuth_iff.mpr hok]), if_pos (fun ht => h ⟨hok, ht⟩)]
    exact ⟨rfl, rfl⟩
  · have hfailed := Bool.eq_false_iff.mpr (mt bfdVerifyPktAuth_iff.mp hok)
    rw [if_pos (by rw [hfailed]; rfl)]
    exact ⟨rfl, rfl⟩

theorem bfdUdp4Scan_lost (h : b.checkHeaders ≠ .none ∨ (m.bfdFindSession b).bind m.sessions = none) :
    (m.bfdUdp4Scan sha1 env b).2.2 = none ∧ (m.bfdUdp4Scan sha1 env b).1 = m := by
  unfold bfdUdp4Scan
  by_cases hheaders : b.checkHeaders = .none
  · rw [if_neg (not_not.mpr hheaders)]
    have hlost := h.resolve_left (not_not.mpr hheaders)
    cases hfind : m.bfdFindSession b with
    | none => exact ⟨rfl, rfl⟩
    | some bsIdx =>
      rw [hfind, Option.bind_some] at hlost
      simp only [hlost, and_self]
  · rw [if_pos hheaders]
    exact ⟨rfl, rfl⟩

def single (bs : Session) : Main where
  sessions i := if i = 0 then some bs else none
  sessionByDisc disc := if disc = 1 then some 0 else none
  sessionIdxByBfdKey _ := none
  authKeys _ := ⟨1, [], .meticulousKeyedSha1⟩

/-- A datagram of 24 bytes from the peer of the session, with an unauthenticated packet. -/
def plainBuffer : Udp4Buffer where
  currentData := 28
  currentLength := 24
  l3HdrOffset := 0
  swIfIndex := 0
  srcAddress := 2
  dstAddress := 1
  ttl := 255
  udpLength := swapBytes 32
  pkt := { numbered 0 with staFlags := 0xc0, length := 24 }

def givingUp : Session :=
  { hearing 7 with auth := ⟨some 0, none, 7, true, 1, 0, true⟩ }

def otherKeyBuffer : Udp4Buffer :=
  { plainBuffer with
    currentLength := 52
    udpLength := swapBytes 60
    pkt := { numbered 8 with keyId := 2 } }

def farBuffer : Udp4Buffer := { plainBuffer with ttl := 254 }

def longPktBuffer : Udp4Buffer :=
  { plainBuffer with pkt := { plainBuffer.pkt with length := 200 } }

end Main

end Vpp.Bfd
