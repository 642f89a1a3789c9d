import Vpp.Ikev2.Payload

/-!
# Where the parsers of IKEv2 payloads read

Each parser is given the rest of the message from its payload on, with a payload length that has been
checked against it. Notifications and deletes are read inside the message; so are proposals, but a
proposal of length zero that says that another one follows is read for ever. A traffic selector is read
once its fixed part fits, whether or not its addresses do.
-/

namespace Vpp.Ikev2

open Lib Relation

/-- What `ikev2_check_payload_length` has found of a payload. -/
def LengthFits (ikep : List Byte) : Prop := 4 ≤ payloadLength ikep ∧ payloadLength ikep ≤ ikep.length

instance (ikep : List Byte) : Decidable (LengthFits ikep) := inferInstanceAs (Decidable (_ ∧ _))

section

variable {ikep : List Byte}

theorem LengthFits.four_le (h : LengthFits ikep) : 4 ≤ ikep.length := h.1.trans h.2

theorem payloadLength_slice : payloadLength (slice ikep 0 4) = payloadLength ikep := by
  rw [payloadLength, wordAt_slice 2 2 (by omega)]
  rfl

theorem checkPayloadLength_of_fits (h : LengthFits ikep) :
    checkPayloadLength ikep = .ok (some (payloadLength ikep)) := by
  have hlen := h.four_le
  rw [checkPayloadLength, if_neg (by omega), read_ok (by omega), ok_bind, payloadLength_slice]
  dsimp only
  rw [if_neg (by have := h.1; have := h.2; omega)]
  rfl

theorem checkPayloadLength_of_not_fits (h : ¬ LengthFits ikep) : checkPayloadLength ikep = .ok none := by
  unfold LengthFits at h
  rw [checkPayloadLength]
  by_cases hlen : 4 > ikep.length
  · rw [if_pos hlen]
  · rw [if_neg hlen, read_ok (by omega), ok_bind, payloadLength_slice]
    dsimp only
    rw [if_pos (by omega)]
    rfl

/-! ## Proposals -/

def transformAt (ikep : List Byte) (p : Nat) : SaTransformData := .ofBytes (slice ikep (4 + p) 8)

def proposalAt (ikep : List Byte) (p : Nat) : SaProposalData := .ofBytes (slice ikep (4 + p) 8)

/-- The number of transforms stand inside the payload from `p` on. -/
def TransformsFit (ikep : List Byte) : Nat → Nat → Prop
  | 0, _ => True
  | n + 1, p =>
    p + 8 ≤ ikep.length - 4 ∧ 8 ≤ (transformAt ikep p).transformLen ∧
      p + (transformAt ikep p).transformLen ≤ ikep.length - 4 ∧
      TransformsFit ikep n (p + (transformAt ikep p).transformLen)

structure ProposalFits (ikep : List Byte) (p : Nat) : Prop where
  header : p + 8 ≤ ikep.length - 4
  ike : (proposalAt ikep p).protocolId = protocolIke → (proposalAt ikep p).spiSize = 0
  esp : (proposalAt ikep p).protocolId = protocolEsp → (proposalAt ikep p).spiSize = 4
  spi : p + 8 + (proposalAt ikep p).spiSize ≤ ikep.length - 4
  transforms : TransformsFit ikep (proposalAt ikep p).numTransforms (p + 8 + (proposalAt ikep p).spiSize)

theorem parseTransforms_inside (hlen : 4 ≤ ikep.length) (n p : Nat) :
    ∃ r, parseTransforms ikep n p = .ok r ∧ (r.isSome ↔ TransformsFit ikep n p) := by
  induction n generalizing p with
  | zero => exact ⟨some [], rfl, by simp [TransformsFit]⟩
  | succ n ih =>
    rw [parseTransforms, TransformsFit]
    by_cases hroom : p + 8 > ikep.length - 4
    · exact ⟨none, if_pos hroom, by simp; omega⟩
    rw [if_neg hroom, read_ok (by omega), ok_bind, ← transformAt]
    by_cases hshort : (transformAt ikep p).transformLen < 8
    · exact ⟨none, if_pos hshort, by simp; omega⟩
    by_cases hlong : p + (transformAt ikep p).transformLen > ikep.length - 4
    · exact ⟨none, by rw [if_neg hshort, if_pos hlong]; rfl, by simp; omega⟩
    obtain ⟨r, hr, hiff⟩ := ih (p + (transformAt ikep p).transformLen)
    rw [if_neg hshort, if_neg hlong, read_ok (by omega), hr]
    refine ⟨_, rfl, ?_⟩
    rw [Option.isSome_map, hiff]
    exact ⟨fun h => ⟨by omega, by omega, by omega, h⟩, fun h => h.2.2.2⟩

variable (ikep) in
theorem parseSpi_inside (p size : Nat) (h : size = 4 → p + 4 ≤ ikep.length) :
    ∃ spi, parseSpi ikep p size = .ok spi := by
  unfold parseSpi
  split
  · rename_i hsize
    rw [read_ok (h hsize)]
    exact ⟨_, rfl⟩
  · exact ⟨0, rfl⟩

variable {p : Nat}

theorem parseProposal_of_fits (hlen : 4 ≤ ikep.length) (h : ProposalFits ikep p) :
    ∃ q, parseProposal ikep p = .ok (some (proposalAt ikep p, q)) := by
  obtain ⟨hhdr, hike, hesp, hspi, htr⟩ := h
  obtain ⟨r, hr, hiff⟩ :=
    parseTransforms_inside hlen (proposalAt ikep p).numTransforms (p + 8 + (proposalAt ikep p).spiSize)
  obtain ⟨ts, rfl⟩ := Option.isSome_iff_exists.mp (hiff.mpr htr)
  obtain ⟨spi, hs⟩ := parseSpi_inside ikep (4 + p + 8) (proposalAt ikep p).spiSize (by omega)
  rw [parseProposal, if_neg (by omega), read_ok (by omega), ok_bind, ← proposalAt,
    if_neg (fun h => h.2 (hike h.1)), if_neg (fun h => h.2 (hesp h.1)), if_neg (by omega), hs, hr]
  exact ⟨_, rfl⟩

theorem parseProposal_of_not_fits (hlen : 4 ≤ ikep.length) (h : ¬ ProposalFits ikep p) :
    parseProposal ikep p = .ok none := by
  rw [parseProposal]
  by_cases hhdr : p + 8 > ikep.length - 4
  · rw [if_pos hhdr]
  rw [if_neg hhdr, read_ok (by omega), ok_bind, ← proposalAt]
  by_cases hike : (proposalAt ikep p).protocolId = protocolIke ∧ (proposalAt ikep p).spiSize ≠ 0
  · rw [if_pos hike]; rfl
  by_cases hesp : (proposalAt ikep p).protocolId = protocolEsp ∧ (proposalAt ikep p).spiSize ≠ 4
  · rw [if_neg hike, if_pos hesp]; rfl
  by_cases hspi : p + 8 + (proposalAt ikep p).spiSize > ikep.length - 4
  · rw [if_neg hike, if_neg hesp, if_pos hspi]; rfl
  obtain ⟨r, hr, hiff⟩ :=
    parseTransforms_inside hlen (proposalAt ikep p).numTransforms (p + 8 + (proposalAt ikep p).spiSize)
  obtain ⟨spi, hs⟩ := parseSpi_inside ikep (4 + p + 8) (proposalAt ikep p).spiSize (by omega)
  have hnone : r = none := by
    rw [← Option.not_isSome_iff_eq_none, hiff]
    exact fun htr => h ⟨by omega, fun he => by_contra fun hne => hike ⟨he, hne⟩,
      fun he => by_contra fun hne => hesp ⟨he, hne⟩, by omega, htr⟩
  rw [if_neg hike, if_neg hesp, if_neg hspi, hs, hr, hnone]
  rfl

/-- The parser goes on to another proposal behind the one at `p`. -/
structure Followed (ikep : List Byte) (p : Nat) : Prop where
  fits : ProposalFits ikep p
  more : (proposalAt ikep p).lastOrMore = 2
  room : p + (proposalAt ikep p).proposalLen < bodyLength (payloadLength ikep)

def NextProposal (ikep : List Byte) (p q : Nat) : Prop :=
  Followed ikep p ∧ q = p + (proposalAt ikep p).proposalLen

/-- No proposal that the parser comes to and goes on from is empty. -/
def ProposalsAdvance (ikep : List Byte) : Prop :=
  ∀ p, ReflTransGen (NextProposal ikep) 0 p → Followed ikep p → 0 < (proposalAt ikep p).proposalLen

section

variable (hlen : 4 ≤ ikep.length)
include hlen

theorem proposalStep_of_followed (h : Followed ikep p)
    (v : List Proposal) : ∃ w, proposalStep ikep (payloadLength ikep) (p, v)
      = .ok (.inl (p + (proposalAt ikep p).proposalLen, w)) := by
  obtain ⟨q, hq⟩ := parseProposal_of_fits hlen h.fits
  refine ⟨v ++ [q], ?_⟩
  rw [proposalStep, hq, ok_bind]
  exact if_pos ⟨h.room, h.more⟩

theorem proposalStep_of_not_followed (h : ¬ Followed ikep p)
    (v : List Proposal) : ∃ w, proposalStep ikep (payloadLength ikep) (p, v) = .ok (.inr w) := by
  rw [proposalStep]
  by_cases hfits : ProposalFits ikep p
  · obtain ⟨q, hq⟩ := parseProposal_of_fits hlen hfits
    rw [hq, ok_bind]
    dsimp only
    rw [if_neg fun hand => h ⟨hfits, hand.2, hand.1⟩]
    split
    · exact ⟨_, rfl⟩
    · exact ⟨_, rfl⟩
  · rw [parseProposal_of_not_fits hlen hfits]
    exact ⟨[], rfl⟩

theorem parseSaPayload_eq (turns : Nat) :
    parseSaPayload turns ikep
      = finish (loop (proposalStep ikep (payloadLength ikep)) turns (0, [])) := by
  rw [parseSaPayload, read_ok (by omega), ok_bind, payloadLength_slice]

/-- **The parser of an SA payload** ends exactly if the proposals advance. -/
theorem parseSaPayload_inside_iff {turns : Nat} (hturns : ikep.length < turns) :
    (∃ v, parseSaPayload turns ikep = .ok v) ↔ ProposalsAdvance ikep := by
  rw [parseSaPayload_eq hlen]
  refine ⟨fun ⟨v, hv⟩ p hp hfol => ?_, fun hadv => ?_⟩
  · by_contra hzero
    -- From here on the parser comes to `p`, and at `p` it stays.
    have hnone : loop (proposalStep ikep (payloadLength ikep)) turns (0, []) = none := by
      refine loop_eq_none (C := fun s => ReflTransGen (NextProposal ikep) s.1 p) ?_ hp turns
      rintro ⟨q, w⟩ hq
      rcases hq.cases_head with rfl | ⟨q', ⟨hfol', rfl⟩, hq'⟩
      · obtain ⟨w', hw'⟩ := proposalStep_of_followed hlen hfol w
        refine ⟨_, hw', ?_⟩
        rw [Nat.eq_zero_of_not_pos hzero]
        exact .refl
      · obtain ⟨w', hw'⟩ := proposalStep_of_followed hlen hfol' w
        exact ⟨_, hw', hq'⟩
    rw [hnone] at hv
    cases hv
  · have hstep (s : Nat × List Proposal) (hp : ReflTransGen (NextProposal ikep) 0 s.1) :
        (∃ t, proposalStep ikep (payloadLength ikep) s = .ok (.inl t) ∧
          ReflTransGen (NextProposal ikep) 0 t.1 ∧ ikep.length - t.1 < ikep.length - s.1) ∨
        ∃ v, proposalStep ikep (payloadLength ikep) s = .ok (.inr v) := by
      by_cases hfol : Followed ikep s.1
      · obtain ⟨w, hw⟩ := proposalStep_of_followed hlen hfol s.2
        have hpos := hadv s.1 hp hfol
        have hroom := hfol.fits.header
        exact .inl ⟨_, hw, hp.tail ⟨hfol, rfl⟩, by omega⟩
      · exact .inr (proposalStep_of_not_followed hlen hfol s.2)
    obtain ⟨v, hv⟩ := exists_loop_of_measure (fun s => ikep.length - s.1) hstep (s := (0, [])) .refl hturns
    exact ⟨v, by rw [hv]; rfl⟩

end

/-! ## Traffic selectors -/

def selectorType (ikep : List Byte) (p : Nat) : Byte := byteAt ikep (8 + p)

/-- The addresses of the selectors that the parser comes to stand inside the message. -/
def SelectorsFit (ikep : List Byte) : Nat → Nat → Prop
  | 0, _ => True
  | n + 1, p =>
    p + 8 < ikep.length - 8 →
      (selectorType ikep p = tsIpv4AddrRange →
        p + 16 ≤ ikep.length - 8 ∧ SelectorsFit ikep n (p + 16)) ∧
      (selectorType ikep p = tsIpv6AddrRange →
        p + 40 ≤ ikep.length - 8 ∧ SelectorsFit ikep n (p + 40))

theorem reads_inside_iff {β : Type} {p size : Nat} (hsize : size ≠ 0)
    {f : List Byte → List Byte → Except Fault β} {P : Prop} (hf : ∀ a b, (∃ r, f a b = .ok r) ↔ P) :
    (∃ r, (do let a ← read ikep p size; let b ← read ikep (p + size) size; f a b) = .ok r) ↔
      p + 2 * size ≤ ikep.length ∧ P := by
  simp only [exists_bind_ok, read_ok_iff hsize, hf]
  refine ⟨fun ⟨a, _, b, hb, hP⟩ => ⟨by omega, hP⟩, fun ⟨h, hP⟩ => ?_⟩
  exact ⟨_, ⟨by omega, rfl⟩, _, ⟨by omega, rfl⟩, hP⟩

theorem parseSelectors_inside_iff (n p : Nat) :
    (∃ r, parseSelectors ikep n p = .ok r) ↔ SelectorsFit ikep n p := by
  induction n generalizing p with
  | zero => exact ⟨fun _ => trivial, fun _ => ⟨_, rfl⟩⟩
  | succ n ih =>
    rw [parseSelectors]
    by_cases hroom : p + 8 < ikep.length - 8
    · have hrest (size : Nat) (ts : List Byte → List Byte → Ts) (a b : List Byte) : (∃ r, (do
            let rest ← parseSelectors ikep n (p + 8 + 2 * size)
            return rest.map (ts a b :: ·) : Except Fault (Option (List Ts))) = .ok r) ↔
            SelectorsFit ikep n (p + 8 + 2 * size) := by
        rw [exists_bind_ok, ← ih]
        exact ⟨fun ⟨r, hr, _⟩ => ⟨r, hr⟩, fun ⟨r, hr⟩ => ⟨r, hr, _, rfl⟩⟩
      have htype : byteAt (slice ikep (8 + p) 8) 0 = selectorType ikep p := byteAt_slice 0 (by omega)
      rw [if_pos hroom, read_ok (by omega), ok_bind, htype]
      by_cases h4 : selectorType ikep p = tsIpv4AddrRange
      · have h6 : selectorType ikep p ≠ tsIpv6AddrRange := by rw [h4]; decide
        rw [if_neg fun h => h.1 h4, if_pos h4, reads_inside_iff (by omega) (hrest 4 _)]
        refine ⟨fun h _ => ⟨fun _ => ⟨by omega, h.2⟩, fun h => absurd h h6⟩, fun h => ?_⟩
        exact ⟨by have := ((h hroom).1 h4).1; omega, ((h hroom).1 h4).2⟩
      · by_cases h6 : selectorType ikep p = tsIpv6AddrRange
        · rw [if_neg fun h => h.2 h6, if_neg h4, reads_inside_iff (by omega) (hrest 16 _)]
          refine ⟨fun h _ => ⟨fun h => absurd h h4, fun _ => ⟨by omega, h.2⟩⟩, fun h => ?_⟩
          exact ⟨by have := ((h hroom).2 h6).1; omega, ((h hroom).2 h6).2⟩
        · rw [if_pos ⟨h4, h6⟩]
          exact ⟨fun _ _ => ⟨fun h => absurd h h4, fun h => absurd h h6⟩, fun _ => ⟨_, rfl⟩⟩
    · rw [if_neg hroom]
      exact ⟨fun _ h => absurd h hroom, fun _ => ⟨_, rfl⟩⟩

/-- **The parser of a traffic selector payload** stays inside the message exactly if the selectors' addresses
do. -/
theorem parseTsPayload_inside_iff :
    (∃ r, parseTsPayload ikep = .ok r) ↔
      (8 ≤ ikep.length → SelectorsFit ikep (byteAt ikep 4).toNat 0) := by
  rw [parseTsPayload]
  by_cases hlen : 8 > ikep.length
  · rw [if_pos hlen]
    exact ⟨fun _ h => absurd h (by omega), fun _ => ⟨[], rfl⟩⟩
  have hnum : byteAt (slice ikep 4 1) 0 = byteAt ikep 4 := byteAt_slice 0 (by omega)
  rw [if_neg hlen, read_ok (by omega), ok_bind, hnum, exists_bind_ok]
  refine ⟨fun ⟨r, hr, _⟩ _ => (parseSelectors_inside_iff ..).mp ⟨r, hr⟩, fun h => ?_⟩
  obtain ⟨r, hr⟩ := (parseSelectors_inside_iff ..).mpr (h (by omega))
  exact ⟨r, hr, _, rfl⟩

/-! ## Notifications and deletes -/

def notifySpiSize (ikep : List Byte) : Nat := (byteAt ikep 5).toNat

def NotifyAccepted (ikep : List Byte) : Prop :=
  8 ≤ ikep.length ∧ (notifySpiSize ikep = 4 ∧ 12 ≤ ikep.length ∨ notifySpiSize ikep = 0)

theorem parseNotifyPayload_of_not_accepted (h : LengthFits ikep) (hn : ¬ NotifyAccepted ikep) :
    parseNotifyPayload ikep = .ok none := by
  have hfour := h.four_le
  unfold NotifyAccepted at hn
  rw [parseNotifyPayload, read_ok (by omega), ok_bind]
  by_cases hlen : 8 > ikep.length
  · exact if_pos hlen
  have hsize : (byteAt (slice ikep 4 4) 1).toNat = notifySpiSize ikep := by
    rw [byteAt_slice 1 (by omega)]; rfl
  rw [if_neg hlen, read_ok (by omega), ok_bind, hsize]
  by_cases hshort : notifySpiSize ikep = 4 ∧ 12 > ikep.length
  · rw [if_pos hshort]; rfl
  · rw [if_neg hshort, if_neg (by omega)]; rfl

/-- **The parser of a notification** copies what the length field says, which is inside the message. -/
theorem parseNotifyPayload_of_accepted (h : LengthFits ikep) (hn : NotifyAccepted ikep) :
    ∃ n, parseNotifyPayload ikep = .ok (some n) ∧ n.msgType = wordAt ikep 6 2 ∧
      n.data.length = payloadLength ikep - 8 - notifySpiSize ikep := by
  obtain ⟨hlen, hspi⟩ := hn
  have hplen := h.2
  have hsize : (byteAt (slice ikep 4 4) 1).toNat = notifySpiSize ikep := by
    rw [byteAt_slice 1 (by omega)]; rfl
  obtain ⟨spi, hs⟩ := parseSpi_inside ikep 8 (notifySpiSize ikep) (by omega)
  have hdata : ∃ data, parseNotifyData ikep (payloadLength ikep) (notifySpiSize ikep) = .ok data ∧
      data.length = payloadLength ikep - 8 - notifySpiSize ikep := by
    unfold parseNotifyData
    split
    · refine ⟨_, read_ok (by omega), ?_⟩
      rw [slice, List.length_take, List.length_drop]
      omega
    · exact ⟨[], rfl, by rw [List.length_nil]; omega⟩
  obtain ⟨data, hd, hdlen⟩ := hdata
  rw [parseNotifyPayload, read_ok (by omega), ok_bind, payloadLength_slice]
  rw [if_neg (by omega), read_ok (by omega), ok_bind, hsize, if_neg (by omega), if_pos (by omega), hs, hd]
  exact ⟨_, rfl, wordAt_slice 2 2 (by omega), hdlen⟩

theorem parseNotifyPayload_inside (h : LengthFits ikep) : ∃ r, parseNotifyPayload ikep = .ok r := by
  by_cases hn : NotifyAccepted ikep
  · obtain ⟨n, hn, _⟩ := parseNotifyPayload_of_accepted h hn
    exact ⟨_, hn⟩
  · exact ⟨none, parseNotifyPayload_of_not_accepted h hn⟩

theorem parseSpis_inside (protocolId : Byte) {n i : Nat} (h : 8 + 4 * (i + n) ≤ ikep.length) :
    ∃ r, parseSpis ikep protocolId n i = .ok r := by
  induction n generalizing i with
  | zero => exact ⟨[], rfl⟩
  | succ n ih =>
    obtain ⟨r, hr⟩ := ih (i := i + 1) (by omega)
    rw [parseSpis, read_ok (by omega), hr]
    exact ⟨_, rfl⟩

/-- **The parser of a delete payload** never reads outside the message. -/
theorem parseDeletePayload_inside : ∃ r, parseDeletePayload ikep = .ok r := by
  rw [parseDeletePayload]
  by_cases hlen : ikep.length < 8
  · exact ⟨[], if_pos hlen⟩
  rw [if_neg hlen, read_ok (by omega), ok_bind]
  dsimp only
  split
  · exact ⟨_, rfl⟩
  split
  · exact ⟨_, rfl⟩
  · exact parseSpis_inside _ (by omega)

end

end Vpp.Ikev2
