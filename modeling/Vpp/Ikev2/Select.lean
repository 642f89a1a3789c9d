import Vpp.Ikev2.Payload

/-!
# Selection of a proposal

`ikev2_select_proposal` takes the first proposal of the protocol whose supported transforms have all
mandatory types and no others than these and the optional ones, and of each type the first. An integrity
transform is optional whatever the cipher is: a proposal of a cipher without integrity of its own and no
integrity transform is selected like any other.
-/

namespace Vpp.Ikev2

open List

inductive TransformType
  | undefined
  | encr
  | prf
  | integ
  | dh
  | esn
deriving DecidableEq, Repr

def TransformType.code : TransformType → Nat
  | undefined => 0
  | encr => 1
  | prf => 2
  | integ => 3
  | dh => 4
  | esn => 5

theorem TransformType.code_le (ty : TransformType) : ty.code ≤ 5 := by cases ty <;> decide

theorem TransformType.code_inj {ty ty' : TransformType} (h : ty.code = ty'.code) : ty = ty' := by
  cases ty <;> cases ty' <;> first | rfl | cases h

/-- An entry of `supported_transforms`. -/
structure SupportedTransform where
  type : TransformType
  transformId : BitVec 16
  keyLen : Nat
deriving DecidableEq, Repr

def protocolAh : Byte := 2

/-- `IKEV2_TRANSFORM_ENCR_TYPE_AES_GCM_16`, the cipher for which `is_aead` is set. -/
def encrAesGcm16 : BitVec 16 := 20

/-- The key length attribute, which an encryption transform must have and be alone with. -/
def keyLenMatches (attrs : List Byte) (keyLen : Nat) : Bool :=
  match attrs with
  | [a, b, c, d] => a = 0x80 ∧ b = 14 ∧ (c.toNat * 256 + d.toNat) / 8 = keyLen
  | _ => false

/-! ## The code -/

section Code

variable (supported : List SupportedTransform)

def findTransformData (t : Transform) : Option SupportedTransform :=
  supported.find? fun td =>
    td.type.code = t.type.toNat ∧ td.transformId = t.transformId ∧
      (td.type = .encr → keyLenMatches t.attrs td.keyLen)

-- What `1 << type` is for a type of 32 or more, which the language leaves open.
variable (shifted : Byte → BitVec 8)

/-- `1 << type`, of which a bitmap keeps eight bits. -/
def typeBit (type : Byte) : BitVec 8 :=
  if type.toNat < 32 then BitVec.ofNat 8 (2 ^ type.toNat) else shifted type

structure Scan where
  bitmap : BitVec 8
  transforms : List Transform
deriving DecidableEq, Repr

def scanStep (s : Scan) (t : Transform) : Scan :=
  if typeBit shifted t.type &&& s.bitmap ≠ 0 then s
  else if (findTransformData supported t).isSome then
    { bitmap := s.bitmap ||| typeBit shifted t.type, transforms := s.transforms ++ [t] }
  else s

def typeMask (ty : TransformType) : BitVec 8 := BitVec.ofNat 8 (2 ^ ty.code)

/-- `mandatory_bitmap` and `optional_bitmap`. -/
def bitmaps (protId : Byte) : Option (BitVec 8 × BitVec 8) :=
  if protId = protocolIke then
    let mandatory := typeMask .encr ||| typeMask .prf ||| typeMask .dh
    some (mandatory, mandatory ||| typeMask .integ)
  else if protId = protocolEsp then
    let mandatory := typeMask .encr ||| typeMask .esn
    some (mandatory, mandatory ||| typeMask .integ ||| typeMask .dh)
  else if protId = protocolAh then
    let mandatory := typeMask .integ ||| typeMask .esn
    some (mandatory, mandatory ||| typeMask .dh)
  else none

/-- The loop over the proposals, with what `rv->transforms` holds. -/
def selectFrom (protId : Byte) (mandatory optional : BitVec 8) (spi : BitVec 32)
    (transforms : List Transform) : List Proposal → Option Proposal
  | [] => none
  | p :: ps =>
    if p.protocolId ≠ protId then selectFrom protId mandatory optional spi transforms ps
    else
      let s := p.transforms.foldl (scanStep supported shifted) ⟨0, transforms⟩
      if s.bitmap &&& mandatory = mandatory ∧ s.bitmap &&& ~~~optional = 0 then
        some ⟨p.proposalNum, p.protocolId, spi, s.transforms⟩
      else selectFrom protId mandatory optional spi [] ps

/-- `ikev2_select_proposal`; the SPI of the result is random. -/
def selectProposal (proposals : List Proposal) (protId : Byte) (spi : BitVec 32) : Option Proposal :=
  match bitmaps protId with
  | none => none
  | some (mandatory, optional) => selectFrom supported shifted protId mandatory optional spi [] proposals

end Code

/-! ## What is to be selected -/

def mandatoryTypes (protId : Byte) : List TransformType :=
  if protId = protocolIke then [.encr, .prf, .dh]
  else if protId = protocolEsp then [.encr, .esn]
  else [.integ, .esn]

def allowedTypes (protId : Byte) : List TransformType :=
  if protId = protocolIke then [.encr, .prf, .dh, .integ]
  else if protId = protocolEsp then [.encr, .esn, .integ, .dh]
  else [.integ, .esn, .dh]

section Spec

variable (supported : List SupportedTransform)

def isSupported (ty : TransformType) (t : Transform) : Bool :=
  t.type.toNat = ty.code ∧ (findTransformData supported t).isSome

def firstOf (ty : TransformType) (offered : List Transform) : Option Transform :=
  offered.find? (isSupported supported ty)

/-- The supported transforms have all mandatory types and no disallowed one. -/
structure Acceptable (protId : Byte) (p : Proposal) : Prop where
  protocol : p.protocolId = protId
  mandatory : ∀ ty ∈ mandatoryTypes protId, (firstOf supported ty p.transforms).isSome
  allowed : ∀ ty, (firstOf supported ty p.transforms).isSome → ty ∈ allowedTypes protId

def FirstAcceptable (protId : Byte) (proposals : List Proposal) (p : Proposal) : Prop :=
  ∃ front back, proposals = front ++ p :: back ∧ (∀ q ∈ front, ¬ Acceptable supported protId q) ∧
    Acceptable supported protId p

/-- The transforms are the first supported one of each type that is offered, and no others. -/
structure Chosen (offered transforms : List Transform) : Prop where
  first : ∀ ty, transforms.find? (fun t => t.type.toNat = ty.code) = firstOf supported ty offered
  nodup : (transforms.map Transform.type).Nodup
  known : ∀ t ∈ transforms, ∃ ty, isSupported supported ty t

end Spec

/-- A cipher with integrity of its own, or an integrity transform. -/
def isProtection (t : Transform) : Bool :=
  t.type.toNat = TransformType.encr.code ∧ t.transformId = encrAesGcm16 ∨
    t.type.toNat = TransformType.integ.code

/-! ## The scan of a proposal -/

variable {supported : List SupportedTransform} {shifted : Byte → BitVec 8} {t : Transform}
  {offered transforms : List Transform}

section Scan

variable {s : Scan}

theorem exists_type_of_found (h : (findTransformData supported t).isSome) :
    ∃ ty, isSupported supported ty t := by
  obtain ⟨td, htd⟩ := Option.isSome_iff_exists.mp h
  have hprop := find?_some htd
  simp only [decide_eq_true_eq] at hprop
  exact ⟨td.type, by simp [isSupported, hprop.1, h]⟩

theorem getLsbD_typeMask (ty : TransformType) (k : Nat) :
    (typeMask ty).getLsbD k = decide (k = ty.code) := by
  have hle := ty.code_le
  rw [typeMask, BitVec.getLsbD_ofNat, Nat.testBit_two_pow]
  by_cases hk : k = ty.code
  · simp [hk]; omega
  · simp [hk]; omega

structure Found (supported : List SupportedTransform) (offered : List Transform) (s : Scan) : Prop where
  chosen : Chosen supported offered s.transforms
  bitmap : ∀ k, s.bitmap.getLsbD k = true ↔
    ∃ ty : TransformType, k = ty.code ∧ (firstOf supported ty offered).isSome

theorem firstOf_append (ty : TransformType) :
    firstOf supported ty (offered ++ [t]) =
      (firstOf supported ty offered).or (if isSupported supported ty t then some t else none) := by
  rw [firstOf, find?_append, find?_singleton]
  rfl

theorem isSupported_iff {ty ty' : TransformType} (h : isSupported supported ty t) :
    isSupported supported ty' t ↔ ty' = ty := by
  simp only [isSupported, decide_eq_true_eq] at h ⊢
  exact ⟨fun h' => TransformType.code_inj (h'.1.symm.trans h.1), fun heq => heq ▸ h⟩

theorem found_step_unsupported (h : Found supported offered s)
    (ht : ¬ (findTransformData supported t).isSome) :
    Found supported (offered ++ [t]) (scanStep supported shifted s t) := by
  have hstep : scanStep supported shifted s t = s := by
    rw [scanStep, if_neg ht, ite_self]
  have hfirst (ty : TransformType) : firstOf supported ty (offered ++ [t]) = firstOf supported ty offered := by
    rw [firstOf_append, if_neg (by simp [isSupported, ht]), Option.or_none]
  rw [hstep]
  refine ⟨⟨fun ty => ?_, h.chosen.nodup, h.chosen.known⟩, fun k => ?_⟩
  · rw [hfirst, h.chosen.first]
  · simp only [hfirst, h.bitmap]

theorem scanStep_supported {ty : TransformType} (ht : isSupported supported ty t) :
    scanStep supported shifted s t =
      if s.bitmap.getLsbD ty.code then s
      else ⟨s.bitmap ||| typeMask ty, s.transforms ++ [t]⟩ := by
  simp only [isSupported, decide_eq_true_eq] at ht
  have hle := ty.code_le
  have hbit : typeBit shifted t.type = typeMask ty := by
    rw [typeBit, ht.1, if_pos (by omega), typeMask]
  have hand : typeMask ty &&& s.bitmap ≠ 0 ↔ s.bitmap.getLsbD ty.code = true := by
    rw [Ne, BitVec.eq_of_getLsbD_eq_iff, not_forall]
    simp only [BitVec.getLsbD_and, getLsbD_typeMask]
    refine ⟨fun ⟨k, hk⟩ => ?_, fun h => ⟨ty.code, ?_⟩⟩
    · by_cases hty : k = ty.code
      · subst hty
        by_contra hno
        exact hk fun _ => by simp [Bool.eq_false_iff.mpr hno]
      · exact absurd (fun _ => by simp [hty]) hk
    · intro hall
      have := hall (by omega)
      simp [h] at this
  rw [scanStep, hbit, if_pos ht.2]
  by_cases hset : s.bitmap.getLsbD ty.code = true
  · rw [if_pos (hand.mpr hset), if_pos hset]
  · rw [if_neg (fun h => hset (hand.mp h)), if_neg hset]

theorem found_step (h : Found supported offered s) :
    Found supported (offered ++ [t]) (scanStep supported shifted s t) := by
  by_cases hfound : (findTransformData supported t).isSome
  · obtain ⟨ty, ht⟩ := exists_type_of_found hfound
    have hcode : t.type.toNat = ty.code := by
      simp only [isSupported, decide_eq_true_eq] at ht
      exact ht.1
    rw [scanStep_supported ht]
    by_cases hset : s.bitmap.getLsbD ty.code = true
    · -- There is one of this type already.
      obtain ⟨ty', hty', hsome⟩ := (h.bitmap ty.code).mp hset
      obtain rfl := TransformType.code_inj hty'
      have hfirst (ty' : TransformType) :
          firstOf supported ty' (offered ++ [t]) = firstOf supported ty' offered := by
        rw [firstOf_append]
        by_cases heq : ty' = ty
        · obtain ⟨u, hu⟩ := Option.isSome_iff_exists.mp (heq ▸ hsome)
          rw [hu, Option.some_or]
        · rw [if_neg (fun h' => heq ((isSupported_iff ht).mp h')), Option.or_none]
      rw [if_pos hset]
      refine ⟨⟨fun ty' => ?_, h.chosen.nodup, h.chosen.known⟩, fun k => ?_⟩
      · rw [hfirst, h.chosen.first]
      · simp only [hfirst, h.bitmap]
    · have hnone : firstOf supported ty offered = none := by
        rw [← Option.not_isSome_iff_eq_none]
        exact fun hsome => hset ((h.bitmap ty.code).mpr ⟨ty, rfl, hsome⟩)
      rw [if_neg hset]
      refine ⟨⟨fun ty' => ?_, ?_, fun u hu => ?_⟩, fun k => ?_⟩
      · rw [firstOf_append, find?_append, h.chosen.first, find?_singleton]
        congr 2
        rw [decide_eq_true_eq, isSupported_iff ht, hcode]
        exact propext ⟨fun h => (TransformType.code_inj h).symm, fun h => h ▸ rfl⟩
      · rw [map_append, map_singleton]
        refine h.chosen.nodup.append (nodup_singleton _) ?_
        rw [disjoint_singleton]
        intro hmem
        obtain ⟨u, hu, heq⟩ := mem_map.mp hmem
        rw [← h.chosen.first] at hnone
        exact absurd (decide_eq_true (by rw [heq, hcode])) (find?_eq_none.mp hnone u hu)
      · rcases mem_append.mp hu with hu | hu
        · exact h.chosen.known u hu
        · obtain rfl := mem_singleton.mp hu
          exact ⟨ty, ht⟩
      · rw [BitVec.getLsbD_or, getLsbD_typeMask, Bool.or_eq_true, h.bitmap, decide_eq_true_eq]
        refine ⟨?_, fun ⟨ty', hk, hsome⟩ => ?_⟩
        · rintro (⟨ty', hk, hsome⟩ | hk)
          · exact ⟨ty', hk, by rw [firstOf_append, Option.isSome_or, hsome]; rfl⟩
          · exact ⟨ty, hk, by rw [firstOf_append, if_pos ht]; simp⟩
        rw [firstOf_append, Option.isSome_or, Bool.or_eq_true] at hsome
        rcases hsome with hsome | hsome
        · exact .inl ⟨ty', hk, hsome⟩
        · by_cases hty : isSupported supported ty' t
          · exact .inr (by rw [hk, (isSupported_iff ht).mp hty])
          · rw [if_neg hty] at hsome
            cases hsome
  · exact found_step_unsupported h hfound

variable (supported shifted) in
/-- **The scan of a proposal** finds the first supported transform of each type. -/
theorem found_scan (offered : List Transform) :
    Found supported offered (offered.foldl (scanStep supported shifted) ⟨0, []⟩) := by
  induction offered using List.reverseRecOn with
  | nil => exact ⟨⟨fun _ => rfl, nodup_nil, fun _ h => (by cases h)⟩, fun k => by simp [firstOf]⟩
  | append_singleton offered t ih =>
    rw [foldl_append]
    exact found_step ih

end Scan

/-! ## The selection -/

variable {proposals : List Proposal}

section Selection

variable {protId : Byte} {mandatory optional : BitVec 8}

theorem getLsbD_bitmaps (h : bitmaps protId = some (mandatory, optional)) :
    (∀ k, mandatory.getLsbD k = true ↔ ∃ ty ∈ mandatoryTypes protId, k = ty.code) ∧
      ∀ k, optional.getLsbD k = true ↔ ∃ ty ∈ allowedTypes protId, k = ty.code := by
  unfold bitmaps at h
  unfold mandatoryTypes allowedTypes
  split_ifs at h ⊢ <;> cases h <;>
    simp [getLsbD_typeMask, or_assoc]

theorem and_eq_right_iff {x y : BitVec 8} :
    x &&& y = y ↔ ∀ k, y.getLsbD k = true → x.getLsbD k = true := by
  rw [BitVec.eq_of_getLsbD_eq_iff]
  simp only [BitVec.getLsbD_and]
  refine ⟨fun h k hy => ?_, fun h k _ => ?_⟩
  · have := h k (BitVec.lt_of_getLsbD hy)
    simpa [hy] using this
  · cases hy : y.getLsbD k
    · rw [Bool.and_false]
    · rw [h k hy, Bool.true_and]

theorem and_not_eq_zero_iff {x y : BitVec 8} :
    x &&& ~~~y = 0 ↔ ∀ k, x.getLsbD k = true → y.getLsbD k = true := by
  rw [BitVec.eq_of_getLsbD_eq_iff]
  refine ⟨fun h k hx => ?_, fun h k hk => ?_⟩
  · have hk := BitVec.lt_of_getLsbD hx
    have := h k hk
    simpa [hx, hk] using this
  · cases hx : x.getLsbD k
    · simp [hx]
    · simp [h k hx]

theorem acceptable_iff {p : Proposal} (h : bitmaps protId = some (mandatory, optional))
    (hp : p.protocolId = protId) {s : Scan} (hs : Found supported p.transforms s) :
    (s.bitmap &&& mandatory = mandatory ∧ s.bitmap &&& ~~~optional = 0) ↔
      Acceptable supported protId p := by
  obtain ⟨hmand, hopt⟩ := getLsbD_bitmaps h
  rw [and_eq_right_iff, and_not_eq_zero_iff]
  simp only [hs.bitmap, hmand, hopt]
  refine ⟨fun ⟨hm, ho⟩ => ⟨hp, fun ty hty => ?_, fun ty hty => ?_⟩, fun hacc => ⟨?_, ?_⟩⟩
  · obtain ⟨ty', hcode, hsome⟩ := hm ty.code ⟨ty, hty, rfl⟩
    exact TransformType.code_inj hcode ▸ hsome
  · obtain ⟨ty', hmem, hcode⟩ := ho ty.code ⟨ty, rfl, hty⟩
    exact TransformType.code_inj hcode ▸ hmem
  · rintro k ⟨ty, hty, rfl⟩
    exact ⟨ty, rfl, hacc.mandatory ty hty⟩
  · rintro k ⟨ty, rfl, hty⟩
    exact ⟨ty, hacc.allowed ty hty, rfl⟩

variable (supported shifted) in
theorem selectFrom_spec (h : bitmaps protId = some (mandatory, optional)) (spi : BitVec 32)
    (proposals : List Proposal) :
    match selectFrom supported shifted protId mandatory optional spi [] proposals with
    | none => ∀ p ∈ proposals, ¬ Acceptable supported protId p
    | some rv => ∃ p, FirstAcceptable supported protId proposals p ∧ rv.proposalNum = p.proposalNum ∧
        rv.protocolId = p.protocolId ∧ Chosen supported p.transforms rv.transforms := by
  induction proposals with
  | nil => exact fun p hp => (by cases hp)
  | cons p ps ih =>
    -- A proposal that is passed over leaves the question to the others.
    have hpass (hno : ¬ Acceptable supported protId p) :
        match selectFrom supported shifted protId mandatory optional spi [] ps with
        | none => ∀ q ∈ p :: ps, ¬ Acceptable supported protId q
        | some rv => ∃ q, FirstAcceptable supported protId (p :: ps) q ∧
            rv.proposalNum = q.proposalNum ∧ rv.protocolId = q.protocolId ∧
            Chosen supported q.transforms rv.transforms := by
      revert ih
      cases selectFrom supported shifted protId mandatory optional spi [] ps with
      | none =>
        intro ih q hq
        rcases mem_cons.mp hq with rfl | hq
        · exact hno
        · exact ih q hq
      | some rv =>
        rintro ⟨q, ⟨front, back, rfl, hfront, hq⟩, hrest⟩
        refine ⟨q, ⟨p :: front, back, rfl, fun r hr => ?_, hq⟩, hrest⟩
        rcases mem_cons.mp hr with rfl | hr
        · exact hno
        · exact hfront r hr
    rw [selectFrom]
    by_cases hprot : p.protocolId = protId
    · have hfound := found_scan supported shifted p.transforms
      rw [if_neg (not_not.mpr hprot)]
      dsimp only
      by_cases hacc : Acceptable supported protId p
      · rw [if_pos ((acceptable_iff h hprot hfound).mpr hacc)]
        exact ⟨p, ⟨[], ps, rfl, fun q hq => (by cases hq), hacc⟩, rfl, rfl, hfound.chosen⟩
      · rw [if_neg fun hbits => hacc ((acceptable_iff h hprot hfound).mp hbits)]
        exact hpass hacc
    · rw [if_pos hprot]
      exact hpass fun hacc => hprot hacc.protocol

theorem firstAcceptable_unique {p q : Proposal} (hp : FirstAcceptable supported protId proposals p)
    (hq : FirstAcceptable supported protId proposals q) : p = q := by
  obtain ⟨front, back, rfl, hfront, hacc⟩ := hp
  obtain ⟨front', back', heq, hfront', hacc'⟩ := hq
  induction front generalizing front' with
  | nil =>
    cases front' with
    | nil => exact (List.cons.inj heq).1
    | cons r front' =>
      obtain rfl := (List.cons.inj heq).1
      exact absurd hacc (hfront' p mem_cons_self)
  | cons r front ih =>
    cases front' with
    | nil =>
      obtain rfl := (List.cons.inj heq).1
      exact absurd hacc' (hfront r mem_cons_self)
    | cons r' front' =>
      exact ih (fun x hx => hfront x (mem_cons_of_mem _ hx)) front' (List.cons.inj heq).2
        fun x hx => hfront' x (mem_cons_of_mem _ hx)

end Selection

/-! ## Protection -/

/-- The transforms offered protect what is sent: the cipher that would be chosen does, or there is an
integrity transform. -/
def Protectable (supported : List SupportedTransform) (offered : List Transform) : Prop :=
  (∃ t, firstOf supported .encr offered = some t ∧ t.transformId = encrAesGcm16) ∨
    (firstOf supported .integ offered).isSome

variable {ty : TransformType}

section

variable (h : Chosen supported offered transforms)
include h

theorem Chosen.find
    (ht : t ∈ transforms) (hty : t.type.toNat = ty.code) : firstOf supported ty offered = some t := by
  rw [← h.first]
  cases hfind : transforms.find? (fun t => t.type.toNat = ty.code) with
  | none => exact absurd (decide_eq_true hty) (find?_eq_none.mp hfind t ht)
  | some u =>
    have hu : u.type.toNat = ty.code := by simpa using find?_some hfind
    have heq : u.type = t.type := BitVec.eq_of_toNat_eq (hu.trans hty.symm)
    rw [inj_on_of_nodup_map h.nodup (mem_of_find?_eq_some hfind) ht heq]

theorem Chosen.mem
    (ht : firstOf supported ty offered = some t) : t ∈ transforms ∧ t.type.toNat = ty.code := by
  rw [← h.first] at ht
  exact ⟨mem_of_find?_eq_some ht, by simpa using find?_some ht⟩

theorem Chosen.protectable_iff :
    (∃ t ∈ transforms, isProtection t) ↔ Protectable supported offered := by
  simp only [isProtection, decide_eq_true_eq]
  refine ⟨?_, ?_⟩
  · rintro ⟨t, ht, ⟨hty, hid⟩ | hty⟩
    · exact .inl ⟨t, h.find ht hty, hid⟩
    · exact .inr (by rw [h.find ht hty]; rfl)
  · rintro (⟨t, ht, hid⟩ | hsome)
    · exact ⟨t, (h.mem ht).1, .inl ⟨(h.mem ht).2, hid⟩⟩
    · obtain ⟨t, ht⟩ := Option.isSome_iff_exists.mp hsome
      exact ⟨t, (h.mem ht).1, .inr (h.mem ht).2⟩

end

def WellSelected (supported : List SupportedTransform) (protId : Byte) (proposals : List Proposal)
    (rv : Proposal) : Prop :=
  ∃ p, FirstAcceptable supported protId proposals p ∧ rv.proposalNum = p.proposalNum ∧
    rv.protocolId = protId ∧ Chosen supported p.transforms rv.transforms ∧
    (protId = protocolIke ∨ protId = protocolEsp → ∃ t ∈ rv.transforms, isProtection t)

/-- **Protected traffic.** Selected is the first acceptable proposal with the first supported transform of
each type; it protects the traffic exactly if that proposal offers an integrity transform or leads with the
cipher that has its own. -/
theorem selected_protects_iff (supported : List SupportedTransform) (shifted : Byte → BitVec 8)
    (proposals : List Proposal) (protId : Byte) (spi : BitVec 32) :
    (∀ rv, selectProposal supported shifted proposals protId spi = some rv →
      WellSelected supported protId proposals rv) ↔
    (protId = protocolIke ∨ protId = protocolEsp →
      ∀ p, FirstAcceptable supported protId proposals p → Protectable supported p.transforms) := by
  unfold selectProposal
  cases hbits : bitmaps protId with
  | none =>
    refine ⟨fun _ hprot => ?_, fun _ rv h => (by cases h)⟩
    rcases hprot with rfl | rfl <;> cases hbits
  | some b =>
    obtain ⟨mandatory, optional⟩ := b
    have hspec := selectFrom_spec supported shifted hbits spi proposals
    dsimp only
    cases hsel : selectFrom supported shifted protId mandatory optional spi [] proposals with
    | none =>
      rw [hsel] at hspec
      refine ⟨fun _ _ p hp => ?_, fun _ rv h => (by cases h)⟩
      obtain ⟨front, back, rfl, _, hacc⟩ := hp
      exact absurd hacc (hspec p (mem_append_right _ mem_cons_self))
    | some rv =>
      rw [hsel] at hspec
      obtain ⟨p, hfirst, hnum, hprot, hchosen⟩ := hspec
      have hid : p.protocolId = protId := by
        obtain ⟨_, _, _, _, hacc⟩ := hfirst
        exact hacc.protocol
      refine ⟨fun hall hkind q hq => ?_, fun hprotect rv' hrv => ?_⟩
      · obtain ⟨r, hr, _, _, hch, hsafe⟩ := hall rv rfl
        rw [firstAcceptable_unique hq hr]
        exact hch.protectable_iff.mp (hsafe hkind)
      · obtain rfl := Option.some.inj hrv
        exact ⟨p, hfirst, hnum, hprot.trans hid, hchosen,
          fun hkind => hchosen.protectable_iff.mpr (hprotect hkind p hfirst)⟩

/-- Some of the transforms that `ikev2_crypto_init` puts into the table. -/
def someTransforms : List SupportedTransform :=
  [⟨.encr, 12, 32⟩, ⟨.encr, encrAesGcm16, 32⟩, ⟨.integ, 12, 32⟩, ⟨.esn, 1, 0⟩, ⟨.esn, 0, 0⟩]

/-- AES-CBC with a key of 256 bits and no extended sequence numbers, and no integrity. -/
def bareCbc : Proposal := ⟨1, protocolEsp, 7, [⟨1, 12, [0x80, 14, 1, 0]⟩, ⟨5, 0, []⟩]⟩

theorem bare_cipher_selected :
    selectProposal someTransforms (fun _ => 0) [bareCbc] protocolEsp 9
      = some ⟨1, protocolEsp, 9, bareCbc.transforms⟩ ∧ ∀ t ∈ bareCbc.transforms, ¬ isProtection t := by
  decide

end Vpp.Ikev2
