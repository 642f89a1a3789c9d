import Vpp.Ikev2.Bounds

/-!
# The IKE_SA_INIT request

`ikev2_process_sa_init_req` walks over the payloads of a request from anybody. It ends, reads inside the
message and uses no failed result exactly if no SA payload in its way has a proposal that it cannot get
past, every notification in its way is one that the parser accepts, and those on NAT detection carry a
whole hash.
-/

namespace Vpp.Ikev2

open Lib Relation

inductive State
  | unknown
  | saInit
  | deleted
  | authFailed
  | authenticated
  | notifyAndDelete
  | tsUnacceptable
  | noProposalChosen
deriving DecidableEq, Repr

inductive NattState
  | enabled
  | disabled
  | active
deriving DecidableEq, Repr

/-- `ikev2_sa_t`, as far as a request for a new SA sets it. -/
structure SaInit where
  state : State := .unknown
  unsupportedCp : Byte := 0
  ispi : Nat := 0
  iNonce : List Byte := []
  dhGroup : Nat := 0
  iDhData : List Byte := []
  iProposals : List Proposal := []
  lastSaInitReqPacketData : List Byte := []
  swIfIndex : BitVec 32 := 0
  nattState : NattState := .enabled
deriving DecidableEq, Repr

def payloadNone : Byte := 0
def payloadKe : Byte := 34
def payloadNonce : Byte := 40
def payloadNotify : Byte := 41
def payloadVendor : Byte := 43
def flagCritical : Byte := 0x80

def notifyNatDetectionSourceIp : Nat := 16388
def notifyNatDetectionDestinationIp : Nat := 16389

/-! ## The request -/

section Request

-- `ikev2_compute_nat_sha1` for the source or the destination of the request.
variable (natSha : Bool → Nat → List Byte)

/-- `ikev2_parse_ke_payload`; a negative number of bytes is not added. -/
def parseKePayload (ikep : List Byte) (plen : Nat) (sa : SaInit) : Except Fault (SaInit × Bool) :=
  if 8 > ikep.length then .ok (sa, false)
  else do
    let group ← read ikep 4 2
    let data ← read ikep 8 (plen - 8)
    return ({ sa with dhGroup := number group, iDhData := data }, true)

/-- `ikev2_parse_nonce_payload` and what the request does with it. -/
def parseNoncePayload (ikep : List Byte) (plen : Nat) (sa : SaInit) : Except Fault (SaInit × Bool) :=
  if plen - 4 < 16 ∨ plen - 4 > 256 then .ok ({ sa with iNonce := [] }, false)
  else do
    let nonce ← read ikep 4 (plen - 4)
    return ({ sa with iNonce := nonce }, true)

/-- The hash in a notification is compared with the one of the addresses of the request. -/
def detectNat (sa : SaInit) (sha data : List Byte) : Except Fault SaInit := do
  let received ← read data 0 20
  return if received ≠ sha ∧ sa.nattState = .enabled then { sa with nattState := .active } else sa

def processNotify (ikep : List Byte) (sa : SaInit) : Except Fault (SaInit × Bool) := do
  match ← parseNotifyPayload ikep with
  | none => .error .null
  | some n =>
    if n.msgType = notifyNatDetectionSourceIp then
      return (← detectNat sa (natSha true sa.ispi) n.data, true)
    else if n.msgType = notifyNatDetectionDestinationIp then
      return (← detectNat sa (natSha false sa.ispi) n.data, true)
    else return (sa, true)

def processPayload (turns : Nat) (payload : Byte) (ikep : List Byte) (plen : Nat) (sa : SaInit) :
    Except Fault (SaInit × Bool) :=
  if payload = payloadSa then do
    let proposals ← parseSaPayload turns ikep
    return ({ sa with iProposals := proposals }, true)
  else if payload = payloadKe then parseKePayload ikep plen sa
  else if payload = payloadNonce then parseNoncePayload ikep plen sa
  else if payload = payloadNotify then processNotify natSha ikep sa
  else if payload = payloadVendor then .ok (sa, true)
  else do
    let flags ← read ikep 1 1
    if byteAt flags 0 &&& flagCritical ≠ 0 then
      return ({ sa with state := .notifyAndDelete, unsupportedCp := payload }, false)
    else return (sa, true)

structure Walk where
  p : Nat
  payload : Byte
  sa : SaInit
deriving DecidableEq, Repr

/-- `while (p < len && payload != IKEV2_PAYLOAD_NONE)`, over what follows the header. -/
def saInitStep (turns : Nat) (body : List Byte) (s : Walk) : Except Fault (Walk ⊕ (Bool × SaInit)) :=
  if s.p < body.length ∧ s.payload ≠ payloadNone then do
    let ikep := body.drop s.p
    match ← checkPayloadLength ikep with
    | none => return .inr (false, s.sa)
    | some plen =>
      let (sa, goesOn) ← processPayload natSha turns s.payload ikep plen s.sa
      if goesOn then
        let next ← read ikep 0 1
        return .inl ⟨s.p + plen, byteAt next 0, sa⟩
      else return .inr (false, sa)
  else .ok (.inr (true, { s.sa with state := .saInit }))

/-- `ikev2_process_sa_init_req`, with a limit on the turns of each loop. -/
def processSaInitReq (turns : Nat) (swIfIndex : BitVec 32) (message : List Byte) (sa : SaInit) :
    Except Fault (Bool × SaInit) := do
  let header ← read message 0 17
  let sa := { sa with
    ispi := wordAt header 0 8, swIfIndex := swIfIndex, lastSaInitReqPacketData := message }
  if message.length < 28 then return (false, sa)
  else finish (loop (saInitStep natSha turns (message.drop 28)) turns ⟨0, byteAt header 16, sa⟩)

end Request

/-! ## Which payloads are safe -/

def PayloadFits (payload : Byte) (ikep : List Byte) : Prop :=
  (payload = payloadSa → ProposalsAdvance ikep) ∧
  (payload = payloadNotify → NotifyAccepted ikep ∧
    (wordAt ikep 6 2 = notifyNatDetectionSourceIp ∨ wordAt ikep 6 2 = notifyNatDetectionDestinationIp →
      20 ≤ payloadLength ikep - 8 - notifySpiSize ikep))

def GoesOn (payload : Byte) (ikep : List Byte) : Prop :=
  if payload = payloadSa ∨ payload = payloadNotify ∨ payload = payloadVendor then True
  else if payload = payloadKe then 8 ≤ ikep.length
  else if payload = payloadNonce then 16 ≤ payloadLength ikep - 4 ∧ payloadLength ikep - 4 ≤ 256
  else byteAt ikep 1 &&& flagCritical = 0

variable {sa : SaInit} {r : SaInit × Bool} {t : Nat × Byte} {turns : Nat}

theorem detectNat_inside_iff {sha data : List Byte} :
    (∃ r, detectNat sa sha data = .ok r) ↔ 20 ≤ data.length := by
  rw [detectNat, exists_bind_ok]
  simp only [read_ok_iff (show 20 ≠ 0 by decide)]
  exact ⟨fun ⟨_, ⟨h, _⟩, _⟩ => by omega, fun h => ⟨_, ⟨by omega, rfl⟩, _, rfl⟩⟩

section Safe

variable {natSha : Bool → Nat → List Byte} {ikep : List Byte} {sa : SaInit}

theorem processNotify_inside_iff (h : LengthFits ikep) :
    (∃ r, processNotify natSha ikep sa = .ok r) ↔
      NotifyAccepted ikep ∧ (wordAt ikep 6 2 = notifyNatDetectionSourceIp ∨
        wordAt ikep 6 2 = notifyNatDetectionDestinationIp →
        20 ≤ payloadLength ikep - 8 - notifySpiSize ikep) := by
  rw [processNotify]
  by_cases hn : NotifyAccepted ikep
  · obtain ⟨n, hparse, htype, hdata⟩ := parseNotifyPayload_of_accepted h hn
    rw [hparse, ok_bind, ← htype, ← hdata]
    dsimp only
    have hdetect (sha : List Byte) :
        (∃ r, (do return (← detectNat sa sha n.data, true) : Except Fault (SaInit × Bool)) = .ok r) ↔
          20 ≤ n.data.length := by
      rw [exists_bind_ok, ← detectNat_inside_iff]
      exact ⟨fun ⟨r, hr, _⟩ => ⟨r, hr⟩, fun ⟨r, hr⟩ => ⟨r, hr, _, rfl⟩⟩
    by_cases hsrc : n.msgType = notifyNatDetectionSourceIp
    · rw [if_pos hsrc, hdetect]
      exact ⟨fun h => ⟨hn, fun _ => h⟩, fun h => h.2 (.inl hsrc)⟩
    by_cases hdst : n.msgType = notifyNatDetectionDestinationIp
    · rw [if_neg hsrc, if_pos hdst, hdetect]
      exact ⟨fun h => ⟨hn, fun _ => h⟩, fun h => h.2 (.inr hdst)⟩
    · rw [if_neg hsrc, if_neg hdst]
      exact ⟨fun _ => ⟨hn, fun hor => absurd hor (not_or.mpr ⟨hsrc, hdst⟩)⟩, fun _ => ⟨_, rfl⟩⟩
  · rw [parseNotifyPayload_of_not_accepted h hn]
    exact ⟨fun ⟨_, hr⟩ => (by cases hr), fun h => absurd h.1 hn⟩

variable (natSha sa) in
theorem processPayload_inside_iff {payload : Byte} (h : LengthFits ikep) (hturns : ikep.length < turns) :
    (∃ r, processPayload natSha turns payload ikep (payloadLength ikep) sa = .ok r) ↔
      PayloadFits payload ikep := by
  have hfour := h.four_le
  have hplen := h.2
  rw [processPayload, PayloadFits]
  by_cases hsa : payload = payloadSa
  · have hother : payload ≠ payloadNotify := by rw [hsa]; decide
    rw [if_pos hsa, exists_bind_ok, ← parseSaPayload_inside_iff hfour hturns]
    exact ⟨fun ⟨v, hv, _⟩ => ⟨fun _ => ⟨v, hv⟩, fun h => absurd h hother⟩,
      fun h => (h.1 hsa).imp fun v hv => ⟨hv, _, rfl⟩⟩
  by_cases hnotify : payload = payloadNotify
  · rw [if_neg hsa, if_neg (by rw [hnotify]; decide), if_neg (by rw [hnotify]; decide), if_pos hnotify,
      processNotify_inside_iff h]
    exact ⟨fun h => ⟨fun h => absurd h hsa, fun _ => h⟩, fun h => h.2 hnotify⟩
  refine ⟨fun _ => ⟨fun h => absurd h hsa, fun h => absurd h hnotify⟩, fun _ => ?_⟩
  rw [if_neg hsa]
  split
  · rw [parseKePayload]
    split
    · exact ⟨_, rfl⟩
    · rw [read_ok (by omega), ok_bind, read_ok (by omega)]
      exact ⟨_, rfl⟩
  split
  · rw [parseNoncePayload]
    split
    · exact ⟨_, rfl⟩
    · rw [read_ok (by omega)]
      exact ⟨_, rfl⟩
  split
  · exact ⟨_, rfl⟩
  · rw [read_ok (by omega), ok_bind]
    split
    · exact ⟨_, rfl⟩
    · exact ⟨_, rfl⟩

theorem processNotify_goesOn (h : processNotify natSha ikep sa = .ok r) : r.2 = true := by
  obtain ⟨_ | n, _, h⟩ := bind_eq_ok.mp h
  · cases h
  dsimp only at h
  split at h
  · obtain ⟨_, _, h⟩ := bind_eq_ok.mp h
    cases h
    rfl
  split at h
  · obtain ⟨_, _, h⟩ := bind_eq_ok.mp h
    cases h
    rfl
  · cases h
    rfl

theorem processPayload_goesOn {payload : Byte} (h : LengthFits ikep)
    (hp : processPayload natSha turns payload ikep (payloadLength ikep) sa = .ok r) :
    r.2 = true ↔ GoesOn payload ikep := by
  have hfour := h.four_le
  have hplen := h.2
  unfold processPayload at hp
  unfold GoesOn
  by_cases hsa : payload = payloadSa
  · rw [if_pos hsa] at hp
    obtain ⟨v, _, hp⟩ := bind_eq_ok.mp hp
    cases hp
    rw [if_pos (.inl hsa)]
    exact ⟨fun _ => trivial, fun _ => rfl⟩
  by_cases hke : payload = payloadKe
  · rw [if_neg hsa, if_pos hke, parseKePayload] at hp
    rw [if_neg (by rw [hke]; decide), if_pos hke]
    split at hp
    · cases hp
      exact ⟨fun h => (by cases h), fun h => by omega⟩
    · rw [read_ok (by omega), read_ok (by omega)] at hp
      cases hp
      exact ⟨fun _ => by omega, fun _ => rfl⟩
  by_cases hnonce : payload = payloadNonce
  · rw [if_neg hsa, if_neg hke, if_pos hnonce, parseNoncePayload] at hp
    rw [if_neg (by rw [hnonce]; decide), if_neg hke, if_pos hnonce]
    split at hp
    · cases hp
      exact ⟨fun h => (by cases h), fun h => by omega⟩
    · rw [read_ok (by omega)] at hp
      cases hp
      exact ⟨fun _ => by omega, fun _ => rfl⟩
  by_cases hnotify : payload = payloadNotify
  · rw [if_neg hsa, if_neg hke, if_neg hnonce, if_pos hnotify] at hp
    rw [if_pos (.inr (.inl hnotify))]
    exact ⟨fun _ => trivial, fun _ => processNotify_goesOn hp⟩
  by_cases hvendor : payload = payloadVendor
  · rw [if_neg hsa, if_neg hke, if_neg hnonce, if_neg hnotify, if_pos hvendor] at hp
    cases hp
    rw [if_pos (.inr (.inr hvendor))]
    exact ⟨fun _ => trivial, fun _ => rfl⟩
  have hflag : byteAt (slice ikep 1 1) 0 = byteAt ikep 1 := byteAt_slice 0 (by omega)
  rw [if_neg hsa, if_neg hke, if_neg hnonce, if_neg hnotify, if_neg hvendor, read_ok (by omega), ok_bind,
    hflag] at hp
  rw [if_neg (not_or.mpr ⟨hsa, not_or.mpr ⟨hnotify, hvendor⟩⟩), if_neg hke, if_neg hnonce]
  split at hp
  · rename_i hcrit
    cases hp
    exact ⟨fun h => (by cases h), fun h => absurd h hcrit⟩
  · rename_i hcrit
    cases hp
    exact ⟨fun _ => not_not.mp hcrit, fun _ => rfl⟩

end Safe

/-! ## The walk over the payloads -/

/-- The payload that the request comes to behind the one of type `s.2` at `s.1`. -/
structure NextPayload (body : List Byte) (s t : Nat × Byte) : Prop where
  inside : s.1 < body.length
  some : s.2 ≠ payloadNone
  length : LengthFits (body.drop s.1)
  goesOn : GoesOn s.2 (body.drop s.1)
  next : t = (s.1 + payloadLength (body.drop s.1), byteAt body s.1)

/-- Every payload that the request comes to, from a payload of the given type on, fits. -/
def PayloadsFit (body : List Byte) (first : Byte) : Prop :=
  ∀ p payload, ReflTransGen (NextPayload body) (0, first) (p, payload) →
    p < body.length → payload ≠ payloadNone → LengthFits (body.drop p) →
    PayloadFits payload (body.drop p)

section Walks

variable {natSha : Bool → Nat → List Byte} {turns : Nat} {body : List Byte} {s : Walk}

theorem length_drop_lt (hturns : body.length < turns) : (body.drop s.p).length < turns := by
  rw [List.length_drop]
  omega

variable (natSha s) in
theorem saInitStep_goesOn (hturns : body.length < turns) (hnext : NextPayload body (s.p, s.payload) t)
    (hfits : PayloadFits s.payload (body.drop s.p)) :
    ∃ sa, saInitStep natSha turns body s = .ok (.inl ⟨t.1, t.2, sa⟩) := by
  obtain ⟨hp, hsome, hlen, hgoes, rfl⟩ := hnext
  obtain ⟨⟨sa, goesOn⟩, hr⟩ := (processPayload_inside_iff natSha s.sa hlen
    (length_drop_lt hturns)).mpr hfits
  obtain rfl : goesOn = true := (processPayload_goesOn hlen hr).mpr hgoes
  have hfour : 4 ≤ (body.drop s.p).length := hlen.four_le
  have hbyte : byteAt (slice (body.drop s.p) 0 1) 0 = byteAt body s.p := by
    rw [byteAt_slice 0 (by omega)]
    simp [byteAt, List.getD_eq_getElem?_getD]
  refine ⟨sa, ?_⟩
  rw [saInitStep, if_pos ⟨hp, hsome⟩]
  dsimp only
  rw [checkPayloadLength_of_fits hlen, ok_bind]
  dsimp only
  rw [hr, ok_bind]
  dsimp only
  rw [if_pos rfl, read_ok (by omega), ok_bind, hbyte]
  rfl

variable (natSha s) in
theorem saInitStep_error (hturns : body.length < turns) (hp : s.p < body.length)
    (hsome : s.payload ≠ payloadNone) (hlen : LengthFits (body.drop s.p))
    (hfits : ¬ PayloadFits s.payload (body.drop s.p)) :
    ¬ ∃ r, saInitStep natSha turns body s = .ok r := by
  rintro ⟨r, hr⟩
  rw [saInitStep, if_pos ⟨hp, hsome⟩] at hr
  dsimp only at hr
  rw [checkPayloadLength_of_fits hlen, ok_bind] at hr
  obtain ⟨b, hb, _⟩ := bind_eq_ok.mp hr
  exact hfits ((processPayload_inside_iff natSha s.sa hlen (length_drop_lt hturns)).mp ⟨b, hb⟩)

theorem saInitStep_ends (hturns : body.length < turns)
    (hfits : s.p < body.length → s.payload ≠ payloadNone → LengthFits (body.drop s.p) →
      PayloadFits s.payload (body.drop s.p)) (hlast : ∀ t, ¬ NextPayload body (s.p, s.payload) t) :
    ∃ r, saInitStep natSha turns body s = .ok (.inr r) := by
  rw [saInitStep]
  by_cases hguard : s.p < body.length ∧ s.payload ≠ payloadNone
  · rw [if_pos hguard]
    dsimp only
    by_cases hlen : LengthFits (body.drop s.p)
    · obtain ⟨⟨sa, goesOn⟩, hr⟩ := (processPayload_inside_iff natSha s.sa hlen
        (length_drop_lt hturns)).mpr (hfits hguard.1 hguard.2 hlen)
      have hstop : ¬ goesOn = true := fun hgoes =>
        hlast _ ⟨hguard.1, hguard.2, hlen, (processPayload_goesOn hlen hr).mp hgoes, rfl⟩
      rw [checkPayloadLength_of_fits hlen, ok_bind]
      dsimp only
      rw [hr, ok_bind]
      rw [if_neg hstop]
      exact ⟨_, rfl⟩
    · rw [checkPayloadLength_of_not_fits hlen]
      exact ⟨_, rfl⟩
  · rw [if_neg hguard]
    exact ⟨_, rfl⟩

theorem returns_along (hturns : body.length < turns) {r : Bool × SaInit}
    (h : Returns (saInitStep natSha turns body) s r)
    (ht : ReflTransGen (NextPayload body) (s.p, s.payload) t) :
    ∃ sa, Returns (saInitStep natSha turns body) ⟨t.1, t.2, sa⟩ r := by
  induction ht with
  | refl => exact ⟨s.sa, h⟩
  | @tail t t' _ hnext ih =>
    obtain ⟨sa, hret⟩ := ih
    have hfits : PayloadFits t.2 (body.drop t.1) := by
      by_contra hno
      refine saInitStep_error natSha ⟨t.1, t.2, sa⟩ hturns hnext.inside hnext.some
        hnext.length hno ?_
      cases hret with
      | stop h => exact ⟨_, h⟩
      | turn h _ => exact ⟨_, h⟩
    obtain ⟨sa', hstep⟩ := saInitStep_goesOn natSha ⟨t.1, t.2, sa⟩ hturns hnext hfits
    refine ⟨sa', ?_⟩
    cases hret with
    | stop h => rw [hstep] at h; cases h
    | turn h hret => rw [hstep] at h; cases h; exact hret

theorem loop_inside_iff (hturns : body.length < turns) (first : Byte) :
    (∃ r, loop (saInitStep natSha turns body) turns ⟨0, first, sa⟩ = some (.ok r)) ↔
      PayloadsFit body first := by
  refine ⟨fun ⟨r, hr⟩ p payload hreach hp hsome hlen => ?_, fun hall => ?_⟩
  · obtain ⟨sa', hret⟩ := returns_along hturns (Returns.of_loop hr) hreach
    by_contra hno
    refine saInitStep_error natSha ⟨p, payload, sa'⟩ hturns hp hsome hlen hno ?_
    cases hret with
    | stop h => exact ⟨_, h⟩
    | turn h _ => exact ⟨_, h⟩
  · refine exists_loop_of_measure
      (C := fun s : Walk => ReflTransGen (NextPayload body) (0, first) (s.p, s.payload))
      (fun s => body.length - s.p) (fun s hs => ?_) .refl hturns
    by_cases hnext : ∃ t, NextPayload body (s.p, s.payload) t
    · obtain ⟨t, hnext⟩ := hnext
      obtain ⟨sa', hstep⟩ := saInitStep_goesOn natSha s hturns hnext
        (hall _ _ hs hnext.inside hnext.some hnext.length)
      have hlt := hnext.inside
      have hfour := hnext.length.1
      refine .inl ⟨_, hstep, hs.tail hnext, ?_⟩
      rw [hnext.next]
      dsimp only at hlt hfour ⊢
      omega
    · exact .inr (saInitStep_ends hturns (hall _ _ hs) fun t ht => hnext ⟨t, ht⟩)

end Walks

theorem finish_ok_iff {A : Type} {x : Option (Except Fault A)} {a : A} :
    finish x = .ok a ↔ x = some (.ok a) := by
  cases x with
  | none => exact ⟨fun h => (by cases h), fun h => (by cases h)⟩
  | some r => exact ⟨fun h => congrArg some h, fun h => Option.some.inj h⟩

/-- **The request** ends inside the message exactly if the payloads in its way fit. -/
theorem processSaInitReq_inside_iff (natSha : Bool → Nat → List Byte) (swIfIndex : BitVec 32)
    (message : List Byte) :
    (∃ r, processSaInitReq natSha (message.length + 1) swIfIndex message sa = .ok r) ↔
      17 ≤ message.length ∧
        (28 ≤ message.length → PayloadsFit (message.drop 28) (byteAt message 16)) := by
  rw [processSaInitReq]
  by_cases hheader : 17 ≤ message.length
  · have hfirst : byteAt (slice message 0 17) 16 = byteAt message 16 := by
      rw [byteAt_slice 16 (by omega)]
    rw [read_ok (by omega), ok_bind, hfirst]
    by_cases hlen : message.length < 28
    · rw [if_pos hlen]
      exact ⟨fun _ => ⟨hheader, fun h => by omega⟩, fun _ => ⟨_, rfl⟩⟩
    · rw [if_neg hlen]
      simp only [finish_ok_iff]
      rw [loop_inside_iff (by rw [List.length_drop]; omega)]
      exact ⟨fun h => ⟨hheader, fun _ => h⟩, fun h => h.2 (by omega)⟩
  · refine ⟨fun ⟨r, hr⟩ => ?_, fun h => absurd h.1 hheader⟩
    obtain ⟨b, hb, _⟩ := bind_eq_ok.mp hr
    have := ((read_ok_iff (by decide)).mp hb).1
    omega

/-- Two proposals, with one transform each. -/
def twoProposals : List Byte :=
  [payloadNotify, 0, 0, 40] ++ [2, 0, 0, 20, 1, 1, 0, 1] ++ [0, 0, 0, 12, 1, 0, 0, 12, 0x80, 14, 1, 0] ++
    [0, 0, 0, 16, 2, 1, 0, 1] ++ [0, 0, 0, 8, 2, 0, 0, 5]

/-- A hash for NAT detection. -/
def natNotify : List Byte := [payloadNone, 0, 0, 28, 0, 0, 0x40, 4] ++ List.replicate 20 7

def initRequest : List Byte :=
  List.replicate 16 0 ++ [payloadSa, 0x20, 34, 8] ++ List.replicate 8 0 ++ twoProposals ++ natNotify

/-- A selector of IPv4 addresses and one of IPv6 addresses. -/
def twoSelectors : List Byte :=
  [0, 0, 0, 64, 2, 0, 0, 0] ++ [7, 0, 0, 16, 0, 0, 255, 255] ++ [10, 0, 0, 1] ++ [10, 0, 0, 9] ++
    [8, 0, 0, 40, 0, 0, 255, 255] ++ List.replicate 16 1 ++ List.replicate 16 2

/-- An SA payload with one proposal, of length zero and followed by another one. -/
def emptyProposal : List Byte := [0, 0, 0, 12, 2, 0, 0, 0, 1, 1, 0, 0]

def cutSelector : List Byte := [0, 0, 0, 17, 1, 0, 0, 0, 7, 0, 0, 16, 0, 0, 255, 255, 10]

def cutNotify : List Byte :=
  List.replicate 16 0 ++ [payloadNotify, 0x20, 34, 8] ++ List.replicate 7 0 ++ [32] ++ [0, 0, 0, 4]

end Vpp.Ikev2
