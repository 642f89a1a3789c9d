import Vpp.Ip.Reass.Range

/-!
# IPv6 full reassembly

`ip6_full_reass_update` and the checks `ip6_full_reassembly_inline` makes before it. Overlapping
fragments are refused, so the candidate loop only finds the place of the fragment or a duplicate of
it.

The length of a fragment is the length of its buffer chain less everything up to the end of the
fragment header, in 32 bits. `ip6_ext_header_walk` makes sure that the fragment header starts in the
packet, not that it ends there, so that difference can wrap (`Ip6Fragment.NoWrap`).
-/

namespace Vpp.Ip.Reass

open Vpp.Lib

/-- What reassembly reads of an IPv6 packet with a fragment header. -/
structure Ip6Fragment where
  /-- Where the fragment header starts, past the IPv6 header. -/
  fragHdrOffset : Fin (2 ^ 16)
  /-- Bytes in the packet's first buffer. -/
  currentLength : Fin (2 ^ 16)
  /-- Bytes in the whole buffer chain. -/
  lengthInChain : Fin (2 ^ 32)
  offset : Fin (2 ^ 13)
  more : Bool
  /-- The header chain ends in a terminating header. -/
  upperLayerPresent : Bool
deriving DecidableEq, Repr

namespace Ip6Fragment

variable (f : Ip6Fragment)

/-- `ip6_frag_hdr_offset_bytes`. -/
def first : Nat := 8 * f.offset

/-- `fragment_length`, a `u32`. -/
def fragmentLength : Nat := subW 32 f.lengthInChain (f.fragHdrOffset + 8)

/-- `fragment_last`, a `u32`. -/
def last : Nat := subW 32 (addW 32 f.first f.fragmentLength) 1

/-- `ip6_full_reass_verify_fragment_multiple_8`. -/
def multipleOf8 : Bool := !(f.more && f.fragmentLength % 8 != 0)

def sizeLt64k : Bool := !decide (addW 32 f.first f.fragmentLength > 65535)

def wellFormed : Bool :=
  (f.offset.val != 0 || f.upperLayerPresent) && f.multipleOf8 && f.sizeLt64k

/-- The fragment is a packet of its own and is reassembled without a shared context. -/
def atomic : Bool := f.offset.val == 0 && !f.more

def buf : Buf :=
  ⟨wrap 16 f.first, wrap 16 f.last, wrap 16 f.first, wrap 16 f.last⟩

end Ip6Fragment

/-- The candidate loop of `ip6_full_reass_update`. -/
def ip6Walk (first last : Nat) (b : Buf) : List Buf → Nat → Except Rc Walked
  | [], n => .ok ([], n, false)
  | c :: cs, n =>
    if first > c.rangeLast then
      if c.rangeLast < last ∧ cs.isEmpty then .ok (insertRangeInChain b [c] [] n)
      else behind c (ip6Walk first last b cs n)
    else if last < c.rangeFirst then .ok (insertRangeInChain b [] (c :: cs) n)
    else if first = c.rangeFirst ∧ last = c.rangeLast then .ok (c :: cs, n, false)
    else .error .overlap

/-- The end of `ip6_full_reass_update`, from `check_if_done_maybe` on. -/
def ip6CheckIfDone (maxReassLen : Nat) (skipBihash consumed : Bool) (r : Context) : Update :=
  if !consumed && skipBihash then .failed .internalError
  else if r.complete then .finalize r
  else if skipBihash then .failed .internalError
  else if consumed then
    if r.fragmentsN > maxReassLen then .failed .tooManyFragments else .kept r
  else .duplicate r

def ip6FullReassUpdate (maxReassLen : Nat) (skipBihash : Bool) (r : Context) (f : Ip6Fragment) :
    Update :=
  if f.currentLength.val < 40 ∨ f.fragHdrOffset.val = 0 ∨ f.fragHdrOffset ≥ f.currentLength then
    .failed .internalError
  else if f.fragmentLength = 0 then .failed .invalidFragLen
  else
    let r := { r with lastPacketOctet := lastInForce r f.last f.more }
    if r.ranges.isEmpty then
      let (l, n, consumed) := insertRangeInChain f.buf [] [] r.dataLen
      ip6CheckIfDone maxReassLen skipBihash consumed
        { r with ranges := l, dataLen := n, fragmentsN := 1 }
    else
      match ip6Walk f.first f.last f.buf r.ranges r.dataLen with
      | .error rc => .failed rc
      | .ok (l, n, consumed) =>
        ip6CheckIfDone maxReassLen skipBihash consumed
          { r with ranges := l, dataLen := n, fragmentsN := addW 32 r.fragmentsN 1 }

/-! ## Fragments that pass the checks -/

/-- The fragment header ends in the packet, and the end of the fragment fits in 32 bits. -/
def Ip6Fragment.NoWrap (f : Ip6Fragment) : Prop :=
  f.fragHdrOffset + 8 ≤ f.lengthInChain.val ∧
    f.first + (f.lengthInChain - (f.fragHdrOffset + 8)) < 2 ^ 32

instance (f : Ip6Fragment) : Decidable f.NoWrap := inferInstanceAs (Decidable (_ ∧ _))

variable {f : Ip6Fragment} {first last : Nat}

theorem Ip6Fragment.bounds (hh : f.NoWrap) (h : f.wellFormed = true)
    (hne : f.fragmentLength ≠ 0) : f.first ≤ f.last ∧ f.last < 65535 := by
  simp only [wellFormed, sizeLt64k, Bool.and_eq_true, Bool.not_eq_true', decide_eq_false_iff_not] at h
  have hlen : f.fragmentLength = f.lengthInChain - (f.fragHdrOffset + 8) :=
    subW_of_le hh.1 f.lengthInChain.isLt
  have hsum : addW 32 f.first f.fragmentLength = f.first + f.fragmentLength := by
    rw [hlen]
    exact addW_of_lt hh.2
  have hlast : f.last = f.first + f.fragmentLength - 1 := by
    rw [last, hsum]
    exact subW_of_le (by omega) (by omega)
  omega

theorem Ip6Fragment.buf_eq (hle : f.first ≤ f.last) (hlt : f.last < 65535) :
    f.buf = ⟨f.first, f.last, f.first, f.last⟩ := by
  rw [buf, wrap_of_lt (by omega), wrap_of_lt (by omega)]

/-! ## The candidate loop -/

theorem ip6Walk_places {b : Buf} {cs : List Buf} {n k : Nat} (hb : b.Wf)
    (hfirst : b.rangeFirst = first) (hlast : b.rangeLast = last) (hc : Chain cs) (hne : cs ≠ [])
    (hn : n = k + kept cs) (hn' : n ≤ 65535) :
    ip6Walk first last b cs n = .error .overlap ∨
      Places cs first last k (ip6Walk first last b cs n) := by
  induction cs generalizing n k with
  | nil => exact absurd rfl hne
  | cons c cs ih =>
    have hcw := hc.head
    have hble := hb.le_last
    have hkc := kept_cons hcw cs
    subst hfirst hlast
    simp only [ip6Walk]
    split
    · rename_i hafter
      split
      · rename_i hend
        obtain rfl := List.isEmpty_iff.mp hend.2
        exact .inr ⟨_, rfl, placed_end hb hcw hafter hn hn'⟩
      rename_i hend
      have hcs : cs ≠ [] := by
        rintro rfl
        exact hend ⟨by omega, rfl⟩
      rcases ih hc.tail hcs (k := k + c.dataLen) (by omega) hn' with h | h
      · left
        rw [h]
        rfl
      · exact .inr (Places.behind hc hafter h)
    · split
      · refine .inr ⟨_, rfl, placed_front hb hc (fun x hx => ?_) hn hn'⟩
        rcases (holds_cons _).mp hx with hx | hx
        · omega
        · have := hc.lt_of_holds hx
          have := hcw.le_last
          omega
      · split
        · rename_i hdup
          refine .inr ⟨_, rfl, hc, hn, fun x => ?_⟩
          rw [holds_cons, ← hdup.1, ← hdup.2]
          tauto
        · exact .inl rfl

/-! ## The update -/

theorem ip6CheckIfDone_spec (m : Nat) (skip consumed : Bool) {r r' : Context}
    {more : Bool} (hr : r.Adds first last more r') :
    (ip6CheckIfDone m skip consumed r').Spec r first last more := by
  unfold ip6CheckIfDone
  split
  · trivial
  split
  · rename_i hc
    exact ⟨hr, hc⟩
  split
  · trivial
  split
  · split
    · trivial
    · exact hr
  · exact hr

/-- **An IPv6 update adds the fragment's octets to the context.** -/
theorem ip6FullReassUpdate_spec {r : Context} (m : Nat) (skip : Bool) (hr : r.Inv)
    (hw : f.NoWrap) (hf : f.wellFormed = true) :
    (ip6FullReassUpdate m skip r f).Spec r f.first f.last f.more := by
  simp only [ip6FullReassUpdate]
  split
  · trivial
  split
  · trivial
  rename_i hlen0
  obtain ⟨hle, hlt⟩ := f.bounds hw hf hlen0
  have hbuf := f.buf_eq hle hlt
  have hb : f.buf.Wf := by
    rw [hbuf]
    exact ⟨le_refl _, hle, rfl, hlt⟩
  have hlen := hr.len
  have hkept := hr.chain.kept_le
  split
  · rename_i hemp
    have hp := hr.placed_first (List.isEmpty_iff.mp hemp) hb
    rw [hbuf] at hp ⊢
    exact ip6CheckIfDone_spec m skip _ (.of_placed hr hlt hp)
  · rename_i hne
    rcases ip6Walk_places (n := r.dataLen) (k := 0) hb
      (show _ = f.first by rw [hbuf]) (show _ = f.last by rw [hbuf]) hr.chain (fun h => hne (List.isEmpty_iff.mpr h)) (by omega)
      (by omega) with h | ⟨⟨l, n, consumed⟩, h, hp⟩
    · rw [h]
      trivial
    · rw [h]
      exact ip6CheckIfDone_spec m skip _ (.of_placed hr hlt hp)

end Vpp.Ip.Reass
