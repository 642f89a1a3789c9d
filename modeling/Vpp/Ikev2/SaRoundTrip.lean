import Vpp.Ikev2.Payload

/-!
# The SA payload, written and parsed

`ikev2_payload_add_sa` marks every proposal of a list of two or more as followed by another one, the last
one too, and the parser then finds the payload corrupted. The number of transforms is written to a byte.
What is left is one proposal with at most 255 transforms: it is read back as it was written.
-/

namespace Vpp.Ikev2

open Lib List

/-! ## What is written -/

def saBody (proposals : List Proposal) : List Byte :=
  proposals.zipIdx.flatMap fun x => proposalBytes proposals.length x.1 x.2 ++ transformsBytes x.1

def LastHolds (c : PayloadChain) (front body : List Byte) : Prop :=
  c.lastHdrOff = front.length ∧ c.data = front ++ [0, 0] ++ (bytesOf 2 (4 + body.length) ++ body)

variable {c : PayloadChain} {front body bytes rest ikep : List Byte} {n i plen : Nat}
  {t : Transform} {p q : Proposal}

theorem payloadAddData_holds (h : LastHolds c front body)
    (data : List Byte) : LastHolds (payloadAddData c data) front (body ++ data) := by
  obtain ⟨hoff, hdata⟩ := h
  have hpos : c.lastHdrOff + 2 = (front ++ [0, 0]).length := by rw [hoff, length_append]; rfl
  have hall : c.data ++ data
      = front ++ [0, 0] ++ (bytesOf 2 (4 + body.length) ++ (body ++ data)) := by
    simp only [hdata, append_assoc]
  have hlen : number (slice (c.data ++ data) (c.lastHdrOff + 2) 2) = (4 + body.length) % 256 ^ 2 := by
    rw [hall, slice_append_right hpos, slice_append_left (length_bytesOf _ _).symm, number_bytesOf]
  have hsum : bytesOf 2 ((4 + body.length) % 256 ^ 2 + data.length)
      = bytesOf 2 (4 + (body ++ data).length) := by
    rw [← bytesOf_mod, Nat.mod_add_mod, bytesOf_mod, length_append, add_assoc]
  refine ⟨hoff, ?_⟩
  change patch _ _ (bytesOf 2 (number (slice (c.data ++ data) _ _) + data.length)) = _
  rw [hlen, hsum, hall, patch_append hpos (by simp)]

theorem LastHolds.drop (h : LastHolds c front body) :
    c.data.drop c.lastHdrOff = 0 :: 0 :: (bytesOf 2 (4 + body.length) ++ body) := by
  rw [h.1, h.2, append_assoc, drop_left]
  rfl

theorem foldl_holds (n : Nat) (ps : List (Proposal × Nat)) (h : LastHolds c front body) :
    LastHolds (ps.foldl
      (fun c x => payloadAddData (payloadAddData c (proposalBytes n x.1 x.2)) (transformsBytes x.1)) c)
      front (body ++ ps.flatMap fun x => proposalBytes n x.1 x.2 ++ transformsBytes x.1) := by
  induction ps generalizing c body with
  | nil => rwa [flatMap_nil, append_nil]
  | cons p ps ih =>
    rw [flatMap_cons, ← append_assoc, ← append_assoc]
    exact ih (payloadAddData_holds (payloadAddData_holds h _) _)

variable {proposals : List Proposal} {turns : Nat}

theorem payloadAddSa_holds :
    LastHolds (payloadAddSa c proposals) (c.data.set c.lastHdrOff payloadSa) (saBody proposals) := by
  have hempty : LastHolds (payloadAddHdr c payloadSa 4) (c.data.set c.lastHdrOff payloadSa) [] := by
    refine ⟨(length_set ..).symm, ?_⟩
    rw [append_assoc]
    rfl
  have h := foldl_holds proposals.length proposals.zipIdx hempty
  rwa [nil_append] at h

def saPayload (c : PayloadChain) (proposals : List Proposal) : List Byte :=
  let c' := payloadAddSa c proposals
  c'.data.drop c'.lastHdrOff

theorem saPayload_eq :
    saPayload c proposals = 0 :: 0 :: (bytesOf 2 (4 + (saBody proposals).length) ++ saBody proposals) :=
  payloadAddSa_holds.drop

/-! ## What is read -/

theorem wordAt_two (rest : List Byte) {p x : Nat} (h : bytes.drop p = bytesOf 2 x ++ rest) (hx : x < 2 ^ 16) :
    wordAt bytes p 2 = x := by
  have hx' : x < 256 ^ 2 := hx
  have hslice : slice bytes p 2 = bytesOf 2 x := by
    rw [slice, h, take_left' (length_bytesOf 2 x)]
  rw [wordAt, hslice, number_bytesOf, Nat.mod_eq_of_lt hx']

theorem length_transformBytes : (transformBytes n t i).length = 8 + t.attrs.length := by
  simp only [transformBytes, length_append, length_cons, length_nil, length_bytesOf]

theorem ofBytes_transformBytes
    (h : bytes = transformBytes n t i ++ rest) (hlen : 8 + t.attrs.length < 2 ^ 16) :
    SaTransformData.ofBytes (slice bytes 0 8) = ⟨8 + t.attrs.length, t.type, t.transformId⟩ := by
  have hbytes : slice bytes 0 8 = [if i + 1 < n then 3 else 0, 0] ++ bytesOf 2 (8 + t.attrs.length) ++
      [t.type, 0] ++ bytesOf 2 t.transformId.toNat := by
    rw [h, transformBytes, append_assoc _ t.attrs]
    exact slice_append_left (by simp)
  have hl : wordAt (slice bytes 0 8) 2 2 = 8 + t.attrs.length :=
    wordAt_two ([t.type, 0] ++ bytesOf 2 t.transformId.toNat) (by rw [hbytes]; rfl) hlen
  have hid : wordAt (slice bytes 0 8) 6 2 = t.transformId.toNat :=
    wordAt_two [] (by rw [hbytes]; rfl) t.transformId.isLt
  have htype : byteAt (slice bytes 0 8) 4 = t.type := by rw [hbytes]; rfl
  rw [SaTransformData.ofBytes, hl, hid, htype, BitVec.ofNat_toNat, BitVec.setWidth_eq]

theorem parseTransforms_eq (rest : List Byte) {p k : Nat} {ts : List Transform}
    (h : ikep.drop (4 + p) = (ts.zipIdx i).flatMap (fun x => transformBytes n x.1 x.2) ++ rest)
    (hk : k ≤ ts.length) (hlen : ∀ t ∈ ts, 8 + t.attrs.length < 2 ^ 16) :
    parseTransforms ikep k p = .ok (some (ts.take k)) := by
  induction k generalizing ts p i with
  | zero => rw [parseTransforms, take_zero]
  | succ k ih =>
    obtain _ | ⟨t, ts⟩ := ts
    · cases hk
    rw [zipIdx_cons, flatMap_cons, append_assoc] at h
    dsimp only at h
    have ht := hlen t mem_cons_self
    have hroom : 4 + p + (8 + t.attrs.length) ≤ ikep.length := by
      have := congrArg List.length h
      rw [length_drop, length_append, length_transformBytes] at this
      omega
    have htr : SaTransformData.ofBytes (slice ikep (4 + p) 8)
        = ⟨8 + t.attrs.length, t.type, t.transformId⟩ := by
      exact ofBytes_transformBytes h ht
    have hattrs : slice ikep (4 + p + 8) (8 + t.attrs.length - 8) = t.attrs := by
      rw [slice_add, h, transformBytes, append_assoc _ t.attrs, Nat.add_sub_cancel_left]
      exact slice_append_left rfl
    have hnext : parseTransforms ikep k (p + (8 + t.attrs.length)) = .ok (some (ts.take k)) := by
      refine ih (i := i + 1) ?_ (Nat.le_of_succ_le_succ hk) fun t ht => hlen t (mem_cons_of_mem _ ht)
      rw [← add_assoc, ← drop_drop, h, drop_left' length_transformBytes]
    rw [parseTransforms, if_neg (by omega), read_ok (by omega)]
    simp only [ok_bind, htr]
    rw [if_neg (by omega), if_neg (by omega), read_ok (by omega), hattrs, hnext]
    rfl

theorem length_proposalBytes : (proposalBytes n p i).length = 8 + spiSize p := by
  simp only [proposalBytes, length_append, length_cons, length_nil, length_bytesOf]

/-- The mark that `ikev2_payload_add_sa` gives to the proposals. -/
def proposalMark (n i : Nat) : Byte := if (0 - i + 1 : Int) < n then 2 else 0

def proposalHeader (n : Nat) (p : Proposal) (i : Nat) : SaProposalData :=
  { lastOrMore := proposalMark n i
    proposalLen := (transformsBytes p).length + (8 + spiSize p)
    proposalNum := p.proposalNum
    protocolId := p.protocolId
    spiSize := spiSize p
    numTransforms := p.transforms.length % 256 }

theorem ofBytes_proposalBytes (h : bytes = proposalBytes n p i ++ rest)
    (hlen : (transformsBytes p).length + (8 + spiSize p) < 2 ^ 16) :
    SaProposalData.ofBytes (slice bytes 0 8) = proposalHeader n p i := by
  have hbytes : slice bytes 0 8 = [proposalMark n i, 0] ++
      bytesOf 2 ((transformsBytes p).length + (8 + spiSize p)) ++
      [p.proposalNum, p.protocolId, BitVec.ofNat 8 (spiSize p), BitVec.ofNat 8 p.transforms.length] := by
    rw [h, proposalBytes, append_assoc _ (bytesOf (spiSize p) _)]
    exact slice_append_left (by simp)
  have hl : wordAt (slice bytes 0 8) 2 2 = (transformsBytes p).length + (8 + spiSize p) :=
    wordAt_two ([p.proposalNum, p.protocolId, BitVec.ofNat 8 (spiSize p),
      BitVec.ofNat 8 p.transforms.length]) (by rw [hbytes]; rfl) hlen
  have hmark : byteAt (slice bytes 0 8) 0 = proposalMark n i := by rw [hbytes]; rfl
  have hnum : byteAt (slice bytes 0 8) 4 = p.proposalNum := by rw [hbytes]; rfl
  have hprot : byteAt (slice bytes 0 8) 5 = p.protocolId := by rw [hbytes]; rfl
  have hspi : byteAt (slice bytes 0 8) 6 = BitVec.ofNat 8 (spiSize p) := by rw [hbytes]; rfl
  have htr : byteAt (slice bytes 0 8) 7 = BitVec.ofNat 8 p.transforms.length := by rw [hbytes]; rfl
  have hsize : (BitVec.ofNat 8 (spiSize p)).toNat = spiSize p := by
    unfold spiSize
    split <;> rfl
  rw [SaProposalData.ofBytes, hl, hmark, hnum, hprot, hspi, htr, hsize]
  rfl

def SpiFits (p : Proposal) : Prop :=
  p.protocolId = protocolIke ∧ p.spi = 0 ∨ p.protocolId = protocolEsp

instance (p : Proposal) : Decidable (SpiFits p) := inferInstanceAs (Decidable (_ ∨ _))

theorem attrs_length_le (ht : t ∈ p.transforms) :
    8 + t.attrs.length ≤ (transformsBytes p).length := by
  rw [← zipIdx_map_fst 0 p.transforms] at ht
  obtain ⟨⟨t', i⟩, hmem, rfl⟩ := mem_map.mp ht
  rw [transformsBytes, ← length_transformBytes]
  have hin : transformBytes p.transforms.length t' i ∈
      p.transforms.zipIdx.map fun x => transformBytes p.transforms.length x.1 x.2 :=
    mem_map.mpr ⟨_, hmem, rfl⟩
  exact (sublist_flatten_of_mem hin).length_le

theorem parseProposal_eq {p : Nat}
    (h : ikep.drop (4 + p) = proposalBytes n q i ++ (transformsBytes q ++ rest)) (hq : SpiFits q)
    (hlen : (transformsBytes q).length + (8 + spiSize q) < 2 ^ 16) :
    parseProposal ikep p = .ok (some (proposalHeader n q i,
      { q with transforms := q.transforms.take (q.transforms.length % 256) })) := by
  have hroom : 4 + p + (8 + spiSize q) ≤ ikep.length := by
    have := congrArg List.length h
    rw [length_drop, length_append, length_proposalBytes] at this
    omega
  have hsap : SaProposalData.ofBytes (slice ikep (4 + p) 8) = proposalHeader n q i := by
    exact ofBytes_proposalBytes h hlen
  have htrs : parseTransforms ikep (q.transforms.length % 256) (p + 8 + spiSize q)
      = .ok (some (q.transforms.take (q.transforms.length % 256))) := by
    refine parseTransforms_eq rest (n := q.transforms.length) (i := 0) ?_
      (Nat.mod_le _ _) fun t ht => lt_of_le_of_lt (attrs_length_le ht) (by omega)
    rw [show 4 + (p + 8 + spiSize q) = 4 + p + (8 + spiSize q) by omega, ← drop_drop, h,
      drop_left' length_proposalBytes]
    rfl
  have hike : ¬ (q.protocolId = protocolIke ∧ spiSize q ≠ 0) := by
    rintro ⟨hprot, hne⟩
    rw [spiSize, hprot] at hne
    exact hne rfl
  have hesp : ¬ (q.protocolId = protocolEsp ∧ spiSize q ≠ 4) := by
    rintro ⟨hprot, hne⟩
    rw [spiSize, hprot] at hne
    exact hne rfl
  have hspi : parseSpi ikep (4 + p + 8) (spiSize q) = .ok q.spi.toNat := by
    rcases hq with ⟨hprot, hspi⟩ | hprot
    · rw [spiSize, hprot, hspi]
      rfl
    have hsize : spiSize q = 4 := by rw [spiSize, hprot]; rfl
    have hslice : slice ikep (4 + p + 8) 4 = bytesOf 4 q.spi.toNat := by
      rw [slice_add, h, proposalBytes, append_assoc _ (bytesOf (spiSize q) _), hsize]
      exact slice_append_left (length_bytesOf ..).symm
    have hlt : q.spi.toNat < 256 ^ 4 := q.spi.isLt
    rw [parseSpi, if_pos hsize, read_ok (by omega), hslice]
    change Except.ok (number _) = _
    rw [number_bytesOf, Nat.mod_eq_of_lt hlt]
  rw [parseProposal, if_neg (by omega), read_ok (by omega)]
  simp only [ok_bind, hsap, proposalHeader]
  rw [if_neg hike, if_neg hesp, if_neg (by omega), hspi, htrs, ok_bind, BitVec.ofNat_toNat]
  rfl

/-! ## The round trip -/

structure Sendable (proposals : List Proposal) : Prop where
  nonempty : proposals ≠ []
  spiFits : ∀ p ∈ proposals, SpiFits p
  short : 4 + (saBody proposals).length < 2 ^ 16

theorem bodyLength_eq (h : 4 ≤ plen) (hlt : plen < 2 ^ 16) : bodyLength plen = plen - 4 := by
  unfold bodyLength
  omega

theorem parseSaPayload_saPayload (h : Sendable proposals) :
    parseSaPayload turns (saPayload c proposals ++ rest) =
      finish (loop (proposalStep (saPayload c proposals ++ rest) (4 + (saBody proposals).length)) turns
        (0, [])) := by
  have hdrop : (saPayload c proposals ++ rest).drop 2
      = bytesOf 2 (4 + (saBody proposals).length) ++ (saBody proposals ++ rest) := by
    rw [saPayload_eq]
    rfl
  have hlen : 0 + 4 ≤ (saPayload c proposals ++ rest).length := by
    rw [saPayload_eq, length_append, length_cons, length_cons, length_append, length_bytesOf]
    omega
  rw [parseSaPayload, read_ok hlen, ok_bind, payloadLength, wordAt_slice 2 2 (by omega),
    wordAt_two _ hdrop h.short]

theorem proposalStep_of_some {p : Nat} {v : List Proposal} {sap : SaProposalData}
    (h : parseProposal ikep p = .ok (some (sap, q))) :
    proposalStep ikep plen (p, v) = .ok (
      if p + sap.proposalLen < bodyLength plen ∧ sap.lastOrMore = 2 then
        .inl (p + sap.proposalLen, v ++ [q])
      else .inr (if p + sap.proposalLen ≠ bodyLength plen ∨ sap.lastOrMore ≠ 0 then [] else v ++ [q])) := by
  rw [proposalStep, h, ok_bind]
  simp only [pure, Except.pure, apply_ite Except.ok, apply_ite Sum.inr]

/-- **Two proposals.** Each is marked as followed by another one, and nothing is accepted. -/
theorem loop_of_marked {p : Nat} {ps v result : List Proposal} (hn : 2 ≤ n) (hps : ps ≠ [])
    (h : ikep.drop (4 + p) = (ps.zipIdx i).flatMap (fun x => proposalBytes n x.1 x.2 ++ transformsBytes x.1)
      ++ rest) (hfits : ∀ q ∈ ps, SpiFits q)
    (hplen : bodyLength plen = p + ((ps.zipIdx i).flatMap fun x => proposalBytes n x.1 x.2 ++ transformsBytes
      x.1).length) (hlt : bodyLength plen < 2 ^ 16)
    (hrun : loop (proposalStep ikep plen) turns (p, v) = some (.ok result)) : result = [] := by
  induction turns generalizing ps i p v with
  | zero => cases hrun
  | succ turns ih =>
    obtain _ | ⟨q, ps⟩ := ps
    · exact absurd rfl hps
    rw [zipIdx_cons, flatMap_cons] at h hplen
    dsimp only at h hplen
    have hmark : (proposalHeader n q i).lastOrMore = 2 := if_pos (by omega)
    have hlen : (proposalHeader n q i).proposalLen
        = (proposalBytes n q i ++ transformsBytes q).length := by
      rw [length_append, length_proposalBytes, add_comm]
      rfl
    rw [length_append, ← hlen] at hplen
    have hsplit := h
    rw [append_assoc, append_assoc] at hsplit
    have hparse := parseProposal_eq hsplit (hfits q mem_cons_self)
      (by change (proposalHeader n q i).proposalLen < _; omega)
    rw [loop, proposalStep_of_some hparse, hmark] at hrun
    by_cases hmore : p + (proposalHeader n q i).proposalLen < bodyLength plen
    · rw [if_pos ⟨hmore, rfl⟩] at hrun
      refine ih (i := i + 1) (fun hnil => ?_) ?_ (fun q hq => hfits q (mem_cons_of_mem _ hq)) ?_ hrun
      · rw [hnil] at hplen
        exact absurd hmore (by rw [hplen]; exact lt_irrefl _)
      · rw [← add_assoc, ← drop_drop, h, append_assoc, hlen, drop_left]
      · rw [hplen, add_assoc]
    · rw [if_neg fun hand => hmore hand.1] at hrun
      simpa using hrun.symm

/-- **One proposal** is read back, up to 256 transforms. -/
theorem loop_of_single (turns : Nat) (h : ikep.drop 4 = proposalBytes 1 q 0 ++ transformsBytes q ++ rest)
    (hq : SpiFits q) (hplen : bodyLength plen = (proposalBytes 1 q 0 ++ transformsBytes q).length)
    (hlt : bodyLength plen < 2 ^ 16) :
    loop (proposalStep ikep plen) (turns + 1) (0, [])
      = some (.ok [{ q with transforms := q.transforms.take (q.transforms.length % 256) }]) := by
  have hlen : (proposalHeader 1 q 0).proposalLen = bodyLength plen := by
    rw [hplen, length_append, length_proposalBytes, Nat.add_comm]
    rfl
  have hparse : parseProposal ikep 0 = _ :=
    parseProposal_eq (by rw [h, append_assoc]) hq
      (by change (proposalHeader 1 q 0).proposalLen < _; omega)
  rw [loop, proposalStep_of_some hparse, hlen, Nat.zero_add, if_neg (fun h => Nat.lt_irrefl _ h.1),
    if_neg (fun h => h.elim (fun hne => hne rfl) fun hne => hne rfl)]
  rfl

/-- **The round trip.** Proposals are read back as written exactly if there is one, with at most 255
transforms. -/
theorem sa_payload_round_trip_iff (c : PayloadChain) {proposals : List Proposal} (h : Sendable proposals)
    (rest : List Byte) :
    (∃ turns, parseSaPayload turns (saPayload c proposals ++ rest) = .ok proposals) ↔
      proposals.length = 1 ∧ ∀ p ∈ proposals, p.transforms.length < 256 := by
  have hbody : bodyLength (4 + (saBody proposals).length) = (saBody proposals).length := by
    rw [bodyLength_eq (by omega) h.short, Nat.add_sub_cancel_left]
  have hshort := h.short
  have hdrop : (saPayload c proposals ++ rest).drop 4 = saBody proposals ++ rest := by
    rw [saPayload_eq]
    rfl
  simp only [parseSaPayload_saPayload h]
  obtain _ | ⟨q, _ | ⟨q', ps⟩⟩ := proposals
  · exact absurd rfl h.nonempty
  · have hsingle : saBody [q] = proposalBytes 1 q 0 ++ transformsBytes q := by
      exact append_nil _
    have hrun (turns : Nat) := loop_of_single turns (by rw [hdrop, hsingle])
      (h.spiFits q mem_cons_self) (by rw [hbody, hsingle]) (by omega)
    refine ⟨fun ⟨turns, hturns⟩ => ⟨rfl, fun p hp => ?_⟩, fun ⟨_, hall⟩ => ⟨1, ?_⟩⟩
    · obtain rfl := mem_singleton.mp hp
      obtain _ | turns := turns
      · cases hturns
      rw [hrun] at hturns
      have heq : { p with transforms := p.transforms.take (p.transforms.length % 256) } = p := by
        simpa [finish] using hturns
      have htake : p.transforms.take (p.transforms.length % 256) = p.transforms :=
        congrArg Proposal.transforms heq
      have := congrArg List.length htake
      rw [length_take] at this
      omega
    · rw [hrun, Nat.mod_eq_of_lt (hall q mem_cons_self), take_length]
      rfl
  · refine ⟨fun ⟨turns, hturns⟩ => ?_, fun ⟨hlen, _⟩ => ?_⟩
    · cases hloop : loop (proposalStep (saPayload c (q :: q' :: ps) ++ rest)
          (4 + (saBody (q :: q' :: ps)).length)) turns (0, []) with
      | none => rw [hloop] at hturns; cases hturns
      | some r =>
        rw [hloop] at hturns
        obtain rfl : r = .ok (q :: q' :: ps) := hturns
        have hnil := loop_of_marked (by simp only [length_cons]; omega) h.nonempty hdrop h.spiFits
          (by rw [hbody, zero_add]; rfl) (by omega) hloop
        cases hnil
    · simp at hlen

def espProposal (num : Byte) : Proposal :=
  { proposalNum := num
    protocolId := protocolEsp
    spi := 0x0a0b0c0d
    transforms := [⟨1, 12, [0x80, 14, 1, 0]⟩, ⟨3, 12, []⟩, ⟨5, 0, []⟩] }

theorem single_proposal_read_back :
    ∃ turns, parseSaPayload turns (saPayload ⟨0, [], 0⟩ [espProposal 1] ++ []) = .ok [espProposal 1] :=
  (sa_payload_round_trip_iff ⟨0, [], 0⟩ ⟨by decide, by decide, by decide⟩ []).mpr ⟨rfl, by decide⟩

/-- Two proposals, of which the parser returns none. -/
theorem two_proposals_lost :
    Sendable [espProposal 1, espProposal 2] ∧
      parseSaPayload 2 (saPayload ⟨0, [], 0⟩ [espProposal 1, espProposal 2]) = .ok [] :=
  ⟨⟨by decide, by decide, by decide⟩, by decide⟩

end Vpp.Ikev2
