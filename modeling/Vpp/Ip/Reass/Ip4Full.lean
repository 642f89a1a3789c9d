import Vpp.Ip.Reass.Range

/-!
# IPv4 full reassembly

`ip4_full_reass_update` and the checks `ip4_full_reass_inline` makes before it. The candidate loop
walks the chain of kept ranges and trims, drops or skips ranges until the new fragment has its place;
the fragment's own range may be cut from the front on the way.
-/

namespace Vpp.Ip.Reass

open Vpp.Lib

structure Ip4Fragment where
  length : Fin (2 ^ 16)
  ihl : Fin 16
  offset : Fin (2 ^ 13)
  more : Bool
deriving DecidableEq, Repr

namespace Ip4Fragment

variable (f : Ip4Fragment)

/-- `ip4_get_fragment_offset_bytes`. -/
def first : Nat := f.offset * 8

/-- `fragment_length`, a `u32`. -/
def fragmentLength : Nat := subW 32 f.length (f.ihl * 4)

/-- `fragment_last`, a `u32`. -/
def last : Nat := subW 32 (addW 32 f.first f.fragmentLength) 1

def whole : Bool := !f.more && f.offset.val == 0

def malformed : Bool :=
  decide (f.first > f.last) ||
    decide (addW 32 f.first f.fragmentLength > 65535 - 20) ||
    (decide (f.fragmentLength < 8) && f.more)

def buf : Buf :=
  ⟨wrap 16 f.first, wrap 16 f.last, wrap 16 f.first, wrap 16 f.last⟩

end Ip4Fragment

/-- `ip4_full_reass_insert_range_in_chain` between `pre` and `post`, with its sanity check. -/
def ip4InsertRange (b : Buf) (pre post : List Buf) (dataLen : Nat) : Except Rc Walked :=
  if b.insane then .error .internalError else .ok (insertRangeInChain b pre post dataLen)

/-- The candidate `c` is taken out of the chain; the loop goes on with the ranges `cs` behind it, or inserts
the fragment if there are none. -/
def discardCandidate (b c : Buf) (cs : List Buf) (n : Nat) (next : Nat → Except Rc Walked) :
    Except Rc Walked :=
  if c.insane then .error .internalError
  else
    let n := subW 32 n c.dataLen
    if cs.isEmpty then ip4InsertRange b [] [] n else next n

/-- The candidate loop of `ip4_full_reass_update`: the fragment's octets `first` to `last`, its buffer `b`,
and the candidates to come. -/
def ip4Walk (first last : Nat) : Buf → List Buf → Nat → Except Rc Walked
  | _, [], n => .ok ([], n, false)
  | b, c :: cs, n =>
    let discard := discardCandidate b c cs n fun n => ip4Walk first last b cs n
    if first > c.rangeLast then
      if c.rangeLast < last ∧ cs.isEmpty then ip4InsertRange b [c] [] n
      else behind c (ip4Walk first last b cs n)
    else if last < c.rangeFirst then ip4InsertRange b [] (c :: cs) n
    else if first ≥ c.rangeFirst ∧ last ≤ c.rangeLast then .ok (c :: cs, n, false)
    else if first < c.rangeFirst then
      let overlap := addW 32 (subW 32 last c.rangeFirst) 1
      if overlap < c.dataLen then
        let c := { c with rangeFirst := wrap 16 (c.rangeFirst + overlap) }
        if n < overlap then .error .internalError
        else ip4InsertRange b [] (c :: cs) (subW 32 n overlap)
      else discard
    else if last > c.rangeLast then
      let overlap := addW 32 (subW 32 c.rangeLast first) 1
      if overlap < c.dataLen then
        let b := { b with rangeFirst := wrap 16 (b.rangeFirst + overlap) }
        if cs.isEmpty then ip4InsertRange b [c] [] n
        else behind c (ip4Walk first last b cs n)
      else discard
    else discard

def ip4FullReassUpdate (maxReassLen : Nat) (r : Context) (f : Ip4Fragment) : Update :=
  let r := { r with lastPacketOctet := lastInForce r f.last f.more }
  if r.ranges.isEmpty then
    -- starting a new reassembly: the completion test is not made
    match ip4InsertRange f.buf [] [] r.dataLen with
    | .error rc => .failed rc
    | .ok (l, n, _) => .kept { r with ranges := l, dataLen := n, fragmentsN := 1 }
  else
    match ip4Walk f.first f.last f.buf r.ranges r.dataLen with
    | .error rc => .failed rc
    | .ok (l, n, consumed) =>
      let r := { r with ranges := l, dataLen := n, fragmentsN := addW 32 r.fragmentsN 1 }
      if r.complete then .finalize r
      else if consumed then
        if r.fragmentsN > maxReassLen then .failed .tooManyFragments else .kept r
      else .duplicate r

/-! ## Fragments that pass the checks -/

/-- The header fits in the total length, as `ip4-input` checks of a header without options. -/
def Ip4Fragment.HeaderFits (f : Ip4Fragment) : Prop := f.ihl * 4 ≤ f.length.val

instance (f : Ip4Fragment) : Decidable f.HeaderFits := inferInstanceAs (Decidable (_ ≤ _))

variable {f : Ip4Fragment}

theorem Ip4Fragment.bounds (hh : f.HeaderFits) (hw : f.whole = false)
    (h : f.malformed = false) : f.first ≤ f.last ∧ f.last < 65535 := by
  simp only [malformed, Bool.or_eq_false_iff, Bool.and_eq_false_iff, decide_eq_false_iff_not] at h
  simp only [whole, Bool.and_eq_false_iff, Bool.not_eq_false', beq_eq_false_iff_ne] at hw
  obtain ⟨⟨hle, hlim⟩, hmin⟩ := h
  have hlen : f.fragmentLength = f.length - f.ihl * 4 := subW_of_le hh (by omega)
  have hsum : addW 32 f.first f.fragmentLength = f.first + f.fragmentLength :=
    addW_of_lt (by unfold first; omega)
  have hpos : 1 ≤ f.first + f.fragmentLength := by
    rcases hmin with hmin | hmin
    · omega
    rcases hw with hw | hw
    · rw [hw] at hmin
      cases hmin
    · unfold first
      omega
  have hlast : f.last = f.first + f.fragmentLength - 1 := by
    rw [last, hsum]
    exact subW_of_le hpos (by omega)
  omega

theorem Ip4Fragment.buf_eq (hle : f.first ≤ f.last) (hlt : f.last < 65535) :
    f.buf = ⟨f.first, f.last, f.first, f.last⟩ := by
  rw [buf, wrap_of_lt (by omega), wrap_of_lt (by omega)]

/-! ## The candidate loop -/

theorem ip4InsertRange_eq {b : Buf} (hb : b.Wf) (pre post : List Buf) (n : Nat) :
    ip4InsertRange b pre post n = .ok (insertRangeInChain b pre post n) := by
  simp only [ip4InsertRange, hb.not_insane, Bool.false_eq_true, if_false]

variable {e : Except Rc Walked}

theorem Places.of_discard {c : Buf} {cs : List Buf} {lo last k : Nat} (hlo : lo ≤ c.rangeFirst)
    (hlast : c.rangeLast ≤ last) (h : Places cs lo last k e) : Places (c :: cs) lo last k e := by
  obtain ⟨w, rfl, hp⟩ := h
  refine ⟨w, rfl, hp.chain, hp.len, fun x => ?_⟩
  rw [hp.holds x, holds_cons]
  constructor
  · tauto
  · rintro ((hx | hx) | hx)
    · exact .inr ⟨by omega, by omega⟩
    · exact .inl hx
    · exact .inr hx

section Walk

variable {first last : Nat} {b c : Buf} {cs : List Buf} {n k : Nat}

theorem ip4Walk_after (h : c.rangeLast < first) (hle : first ≤ last) :
    ip4Walk first last b (c :: cs) n =
      if cs.isEmpty then ip4InsertRange b [c] [] n
      else behind c (ip4Walk first last b cs n) := by
  have : c.rangeLast < last := by omega
  simp only [ip4Walk, h, if_true, this, true_and]

theorem ip4Walk_before (h : last < c.rangeFirst) (hle : first ≤ c.rangeLast) :
    ip4Walk first last b (c :: cs) n = ip4InsertRange b [] (c :: cs) n := by
  simp only [ip4Walk, not_lt.mpr hle, if_false, h, if_true]

theorem ip4Walk_sub (h1 : c.rangeFirst ≤ first) (h2 : last ≤ c.rangeLast) (hle : first ≤ last) :
    ip4Walk first last b (c :: cs) n = .ok (c :: cs, n, false) := by
  have h3 : ¬ first > c.rangeLast := by omega
  have h4 : ¬ last < c.rangeFirst := by omega
  simp only [ip4Walk, h3, h4, if_false, h1, h2, and_self, if_true]

theorem ip4Walk_shrink (h1 : first < c.rangeFirst) (h2 : c.rangeFirst ≤ last)
    (h3 : last < c.rangeLast) (hc : c.Wf) (hn : c.dataLen ≤ n) (hlt : n ≤ 65535) :
    ip4Walk first last b (c :: cs) n =
      ip4InsertRange b [] ({ c with rangeFirst := last + 1 } :: cs)
        (n - (last - c.rangeFirst + 1)) := by
  have hcl := hc.dataLen_eq
  have hclt := hc.last_lt
  unfold Buf.stop at hcl
  have hov : addW 32 (subW 32 last c.rangeFirst) 1 = last - c.rangeFirst + 1 := by
    rw [subW_of_le h2 (by omega), addW_of_lt (by omega)]
  have hw : wrap 16 (c.rangeFirst + (last - c.rangeFirst + 1)) = last + 1 := by
    rw [wrap_of_lt (by omega)]
    omega
  have e1 : ¬ first > c.rangeLast := by omega
  have e2 : ¬ last < c.rangeFirst := by omega
  have e3 : ¬ (first ≥ c.rangeFirst ∧ last ≤ c.rangeLast) := by omega
  have e4 : last - c.rangeFirst + 1 < c.dataLen := by omega
  have e5 : ¬ n < last - c.rangeFirst + 1 := by omega
  simp only [ip4Walk, hov, hw, e1, e2, e3, h1, e4, e5, if_true, if_false]
  rw [subW_of_le (by omega) (by omega)]

theorem ip4Walk_cut (h1 : c.rangeFirst < first) (h2 : first ≤ c.rangeLast)
    (h3 : c.rangeLast < last) (hc : c.Wf) (hb : b.rangeFirst = first) :
    ip4Walk first last b (c :: cs) n =
      if cs.isEmpty then ip4InsertRange { b with rangeFirst := c.rangeLast + 1 } [c] [] n
      else behind c (ip4Walk first last { b with rangeFirst := c.rangeLast + 1 } cs n) := by
  have hcl := hc.dataLen_eq
  have hclt := hc.last_lt
  unfold Buf.stop at hcl
  have hov : addW 32 (subW 32 c.rangeLast first) 1 = c.rangeLast - first + 1 := by
    rw [subW_of_le h2 (by omega), addW_of_lt (by omega)]
  have hw : wrap 16 (b.rangeFirst + (c.rangeLast - first + 1)) = c.rangeLast + 1 := by
    rw [wrap_of_lt (by omega)]
    omega
  have e1 : ¬ first > c.rangeLast := by omega
  have e2 : ¬ last < c.rangeFirst := by omega
  have e3 : ¬ (first ≥ c.rangeFirst ∧ last ≤ c.rangeLast) := by omega
  have e4 : ¬ first < c.rangeFirst := by omega
  have e5 : c.rangeLast - first + 1 < c.dataLen := by omega
  simp only [ip4Walk, hov, hw, e1, e2, e3, e4, e5, h3, if_true, if_false]

theorem ip4Walk_discard (h1 : first ≤ c.rangeFirst) (h2 : c.rangeLast ≤ last)
    (h3 : ¬ (c.rangeFirst ≤ first ∧ last ≤ c.rangeLast)) (hc : c.Wf) (hlt : last < 65535) :
    ip4Walk first last b (c :: cs) n =
      discardCandidate b c cs n fun n => ip4Walk first last b cs n := by
  have hcl := hc.dataLen_eq
  have hcle := hc.le_last
  unfold Buf.stop at hcl
  have e1 : ¬ first > c.rangeLast := by omega
  have e2 : ¬ last < c.rangeFirst := by omega
  simp only [ip4Walk, e1, e2, if_false, h3]
  split
  · have hov : addW 32 (subW 32 last c.rangeFirst) 1 = last - c.rangeFirst + 1 := by
      rw [subW_of_le (by omega) (by omega), addW_of_lt (by omega)]
    rw [if_neg (by omega)]
  split
  · have hov : addW 32 (subW 32 c.rangeLast first) 1 = c.rangeLast - first + 1 := by
      rw [subW_of_le (by omega) (by omega), addW_of_lt (by omega)]
    rw [if_neg (by omega)]
  · rfl

theorem places_shrink (hb : b.Wf) (hc : Chain (c :: cs)) (h1 : b.rangeFirst ≤ c.rangeFirst)
    (h2 : c.rangeFirst ≤ b.rangeLast) (h3 : b.rangeLast < c.rangeLast) (hn : n = k + kept (c :: cs))
    (hn' : n ≤ 65535) :
    Places (c :: cs) b.rangeFirst b.rangeLast k
      (ip4InsertRange b [] ({ c with rangeFirst := b.rangeLast + 1 } :: cs)
        (n - (b.rangeLast - c.rangeFirst + 1))) := by
  rw [ip4InsertRange_eq hb]
  have hcw := hc.head
  have hcl := hcw.dataLen_eq
  have hf := hcw.first_le
  have hshr : Buf.Wf { c with rangeFirst := b.rangeLast + 1 } :=
    ⟨by simp only; omega, by simp only; omega, hcw.last_eq, hcw.last_lt⟩
  have hshl := hshr.dataLen_eq
  simp only [Buf.stop] at hcl hshl
  have hch : Chain ({ c with rangeFirst := b.rangeLast + 1 } :: cs) :=
    hc.tail.cons hshr fun x hx => hc.lt_of_holds hx
  rw [kept_cons hcw] at hn
  have hp := placed_front (k := k) hb hch (n := n - (b.rangeLast - c.rangeFirst + 1))
    (fun x hx => by
      rcases (holds_cons _).mp hx with hx | hx
      · simp only at hx
        omega
      · have := hc.lt_of_holds hx
        omega)
    (by rw [kept_cons hshr]; omega) (by omega)
  refine ⟨_, rfl, hp.chain, hp.len, fun x => ?_⟩
  rw [hp.holds x]
  simp only [holds_cons]
  constructor
  · rintro ((hx | hx) | hx)
    · exact .inl (.inl ⟨by omega, hx.2⟩)
    · exact .inl (.inr hx)
    · exact .inr hx
  · rintro ((hx | hx) | hx)
    · by_cases hxb : x ≤ b.rangeLast
      · exact .inr ⟨by omega, hxb⟩
      · exact .inl (.inl ⟨by omega, hx.2⟩)
    · exact .inl (.inr hx)
    · exact .inr hx

theorem Places.of_cut {lo lo' : Nat} (h1 : c.rangeFirst ≤ lo) (h2 : lo' = c.rangeLast + 1) (h3 : lo ≤ lo')
    (h : Places (c :: cs) lo' last k e) : Places (c :: cs) lo last k e := by
  obtain ⟨w, rfl, hp⟩ := h
  refine ⟨w, rfl, hp.chain, hp.len, fun x => ?_⟩
  rw [hp.holds x]
  simp only [holds_cons]
  constructor
  · rintro (hx | hx)
    · exact .inl hx
    · exact .inr ⟨by omega, hx.2⟩
  rintro (hx | hx)
  · exact .inl hx
  · by_cases hxc : x ≤ c.rangeLast
    · exact .inl (.inl ⟨by omega, hxc⟩)
    · exact .inr ⟨by omega, hx.2⟩

/-- **The candidate loop places the fragment.** `b` has been cut in front only past ranges that stand before
all still to come. -/
theorem ip4Walk_places (hb : b.Wf) (hlast : b.rangeLast = last) (hfirst : first ≤ b.rangeFirst)
    (hcut : b.rangeFirst = first ∨ ∀ x, Holds cs x → b.rangeFirst ≤ x) (hc : Chain cs)
    (hne : cs ≠ []) (hn : n = k + kept cs) (hn' : n ≤ 65535) :
    Places cs b.rangeFirst last k (ip4Walk first last b cs n) := by
  induction cs generalizing b n k with
  | nil => exact absurd rfl hne
  | cons c cs ih =>
    have hcw := hc.head
    have hcle := hcw.le_last
    have hble := hb.le_last
    have hblt := hb.last_lt
    have hkc := kept_cons hcw cs
    subst hlast
    have hcut' : b.rangeFirst = first ∨ b.rangeFirst ≤ c.rangeFirst := by
      rcases hcut with h | h
      · exact .inl h
      · exact .inr (h _ ((holds_cons _).mpr (.inl ⟨le_rfl, hcle⟩)))
    have hcuts : b.rangeFirst = first ∨ ∀ x, Holds cs x → b.rangeFirst ≤ x := by
      rcases hcut with h | h
      · exact .inl h
      · exact .inr fun x hx => h x ((holds_cons _).mpr (.inr hx))
    by_cases hafter : c.rangeLast < first
    · rw [ip4Walk_after hafter (by omega)]
      split
      · rename_i hemp
        obtain rfl := List.isEmpty_iff.mp hemp
        rw [ip4InsertRange_eq hb]
        exact ⟨_, rfl, placed_end hb hcw (by omega) hn hn'⟩
      · rename_i hemp
        exact Places.behind hc (by omega) (ih hb rfl hfirst hcuts hc.tail
          (fun h => hemp (List.isEmpty_iff.mpr h)) (by omega) hn')
    by_cases hbefore : b.rangeLast < c.rangeFirst
    · rw [ip4Walk_before hbefore (by omega), ip4InsertRange_eq hb]
      refine ⟨_, rfl, placed_front hb hc (fun x hx => ?_) hn hn'⟩
      rcases (holds_cons _).mp hx with hx | hx
      · omega
      · have := hc.lt_of_holds hx
        omega
    by_cases hsub : c.rangeFirst ≤ first ∧ b.rangeLast ≤ c.rangeLast
    · rw [ip4Walk_sub hsub.1 hsub.2 (by omega)]
      refine ⟨_, rfl, hc, hn, fun x => ?_⟩
      simp only [holds_cons]
      constructor
      · tauto
      · rintro (hx | hx)
        · exact hx
        · exact .inl ⟨by omega, by omega⟩
    by_cases hshr : b.rangeLast < c.rangeLast
    · rw [ip4Walk_shrink (by omega) (by omega) hshr hcw (by omega) hn']
      exact places_shrink hb hc (by omega) (by omega) hshr hn hn'
    by_cases hin : c.rangeFirst < first
    · have hbf : b.rangeFirst = first := by omega
      have hb' : Buf.Wf { b with rangeFirst := c.rangeLast + 1 } :=
        ⟨by have := hb.first_le; simp only; omega, by simp only; omega, hb.last_eq, hb.last_lt⟩
      rw [ip4Walk_cut hin (by omega) (by omega) hcw hbf]
      refine Places.of_cut (by omega) (rfl : _ = c.rangeLast + 1) (by omega) ?_
      split
      · rename_i hemp
        obtain rfl := List.isEmpty_iff.mp hemp
        rw [ip4InsertRange_eq hb']
        exact ⟨_, rfl, placed_end hb' hcw (by simp only; omega) hn hn'⟩
      · rename_i hemp
        refine Places.behind hc (by omega) (ih hb' rfl (by simp only; omega)
          (.inr fun x hx => hc.lt_of_holds hx) hc.tail (fun h => hemp (List.isEmpty_iff.mpr h))
          (by omega) hn')
    · rw [ip4Walk_discard (by omega) (by omega) hsub hcw hblt, discardCandidate, hcw.not_insane,
        if_neg Bool.false_ne_true, subW_of_le (by omega) (by omega)]
      refine Places.of_discard (by omega) (by omega) ?_
      split
      · rename_i hemp
        obtain rfl := List.isEmpty_iff.mp hemp
        rw [ip4InsertRange_eq hb]
        exact ⟨_, rfl, placed_front hb chain_nil (fun x hx => absurd hx (holds_nil x)) (by omega)
          (by omega)⟩
      · rename_i hemp
        exact ih hb rfl hfirst hcuts hc.tail (fun h => hemp (List.isEmpty_iff.mpr h)) (by omega)
          (by omega)

end Walk

/-! ## The update -/

/-- **An IPv4 update adds the fragment's octets to the context.** -/
theorem ip4FullReassUpdate_spec {r : Context} (m : Nat) (hr : r.Inv)
    (hle : f.first ≤ f.last) (hlt : f.last < 65535) :
    (ip4FullReassUpdate m r f).Spec r f.first f.last f.more := by
  have hbuf := f.buf_eq hle hlt
  have hb : f.buf.Wf := by
    rw [hbuf]
    exact ⟨le_refl _, hle, rfl, hlt⟩
  have hlen := hr.len
  have hkept := hr.chain.kept_le
  simp only [ip4FullReassUpdate]
  split
  · rename_i hemp
    rw [ip4InsertRange_eq hb]
    have hp := hr.placed_first (List.isEmpty_iff.mp hemp) hb
    rw [hbuf] at hp ⊢
    exact .of_placed hr hlt hp
  · rename_i hne
    obtain ⟨⟨l, n, consumed⟩, hw, hp⟩ := ip4Walk_places (n := r.dataLen) (k := 0) hb
      (show _ = f.last by rw [hbuf]) (show f.first ≤ _ by rw [hbuf]) (.inl (by rw [hbuf])) hr.chain
      (fun h => hne (List.isEmpty_iff.mpr h)) (by omega) (by omega)
    rw [hw]
    rw [hbuf] at hp
    have hadd : ∀ m, r.Adds f.first f.last f.more ⟨l, lastInForce r f.last f.more, n, m⟩ := fun m =>
      .of_placed hr hlt hp
    simp only
    split
    · rename_i hc
      exact ⟨hadd _, hc⟩
    split
    · split
      · trivial
      · exact hadd _
    · exact hadd _

end Vpp.Ip.Reass
