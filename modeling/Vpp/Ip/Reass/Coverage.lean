import Vpp.Lib.Run
import Vpp.Ip.Reass.Ip4Full
import Vpp.Ip.Reass.Ip6Full

/-!
# Full reassembly completes on full coverage

The two reassembly nodes as runs over the fragments of one key. An arrival carries, besides the
fragment, whether the context found for the key has timed out and whether the table of contexts is
full. A context ends when it is finalized, dropped on an error or timed out; the next fragment of the
key then starts a new one.

Both nodes decide completion by `data_len == last_packet_octet + 1` alone. Nothing stops a fragment
from reaching beyond the last octet, or a last octet from being set below data kept before, and then
the count can agree with octets missing. Away from that (`InBounds`) the count decides coverage.
-/

namespace Vpp.Ip.Reass

open Vpp.Lib

structure Arrival (F : Type) where
  fragment : F
  /-- The context of the key was last heard of longer ago than the timeout. -/
  expired : Bool
  /-- There are `max_reass_n` contexts already. -/
  full : Bool
deriving DecidableEq, Repr

/-- What a node did with a fragment. -/
inductive Event
  | passthrough
  | malformed
  | limitReached
  | updated (u : Update)
deriving DecidableEq, Repr

/-- `find_or_create`, on the thread that owns the key's context. -/
def findOrCreate (st : Option Context) (expired full : Bool) : Option Context :=
  match st, expired with
  | some r, false => some r
  | _, _ => if full then none else some Context.init

def Update.context : Update → Option Context
  | .kept r | .duplicate r => some r
  | .finalize _ | .failed _ => none

/-- `ip4_full_reass_inline` on one packet of the key. -/
def ip4FullReassInline (maxReassLen : Nat) (st : Option Context) (a : Arrival Ip4Fragment) :
    Option Context × Event :=
  if a.fragment.whole then (st, .passthrough)
  else if a.fragment.malformed then (st, .malformed)
  else
    match findOrCreate st a.expired a.full with
    | none => (none, .limitReached)
    | some r =>
      let u := ip4FullReassUpdate maxReassLen r a.fragment
      (u.context, .updated u)

/-- `ip6_full_reassembly_inline` on one packet of the key. An atomic fragment gets a context that is not
entered under the key. -/
def ip6FullReassemblyInline (maxReassLen : Nat) (st : Option Context) (a : Arrival Ip6Fragment) :
    Option Context × Event :=
  if !a.fragment.wellFormed then (st, .malformed)
  else if a.fragment.atomic then
    match findOrCreate none false a.full with
    | none => (st, .limitReached)
    | some r => (st, .updated (ip6FullReassUpdate maxReassLen true r a.fragment))
  else
    match findOrCreate st a.expired a.full with
    | none => (none, .limitReached)
    | some r =>
      let u := ip6FullReassUpdate maxReassLen false r a.fragment
      (u.context, .updated u)

/-- An IPv4 fragment that passes the checks stays within the packet, and its header within its own. -/
def Ip4InBounds (st : Option Context) (a : Arrival Ip4Fragment) : Prop :=
  a.fragment.whole = false → a.fragment.malformed = false →
    a.fragment.HeaderFits ∧
      ∀ r ∈ findOrCreate st a.expired a.full, InBounds r a.fragment.last a.fragment.more

/-- An IPv6 fragment that passes the checks stays within the packet, and its length does not wrap. -/
def Ip6InBounds (st : Option Context) (a : Arrival Ip6Fragment) : Prop :=
  a.fragment.wellFormed = true →
    a.fragment.NoWrap ∧
      (a.fragment.atomic = false →
        ∀ r ∈ findOrCreate st a.expired a.full, InBounds r a.fragment.last a.fragment.more)

instance (st : Option Context) (a : Arrival Ip4Fragment) : Decidable (Ip4InBounds st a) :=
  inferInstanceAs (Decidable (_ → _ → _))

instance (st : Option Context) (a : Arrival Ip6Fragment) : Decidable (Ip6InBounds st a) :=
  inferInstanceAs (Decidable (_ → _))

/-! ## One arrival -/

/-- The context of a key, when there is one, satisfies `P`. -/
def Held (P : Context → Prop) (st : Option Context) : Prop := ∀ r ∈ st, P r

/-- What `finalize` is called on satisfies `P`. -/
def Finalizes (P : Context → Prop) (e : Event) : Prop := ∀ r, e = .updated (.finalize r) → P r

theorem held_none (P : Context → Prop) : Held P none := fun _ h => nomatch h

variable {r : Context}

theorem findOrCreate_inv {st : Option Context} {expired full : Bool}
    (hst : Held Context.Inv st) (h : findOrCreate st expired full = some r) : r.Inv := by
  unfold findOrCreate at h
  split at h
  · exact hst r h
  · split at h
    · cases h
    · cases h
      exact Context.inv_init

/-- Adding a fragment in bounds leaves an invariant context, and finalizes covered packets only. -/
theorem Update.Spec.step {first last : Nat} {more : Bool} {u : Update}
    (h : u.Spec r first last more) (hin : InBounds r last more) :
    Held Context.Inv u.context ∧ Finalizes Context.Covers (.updated u) := by
  cases u with
  | kept r' => exact ⟨fun _ hr => by cases hr; exact h.inv, fun _ he => nomatch he⟩
  | duplicate r' => exact ⟨fun _ hr => by cases hr; exact h.inv, fun _ he => nomatch he⟩
  | failed rc => exact ⟨held_none _, fun _ he => nomatch he⟩
  | finalize r' =>
    refine ⟨held_none _, fun r'' he => ?_⟩
    cases he
    exact (h.1.inv.covers_iff h.2).mpr (h.1.within hin)

theorem ip4FullReassInline_step (m : Nat) (st : Option Context) (a : Arrival Ip4Fragment)
    (hst : Held Context.Inv st) (hok : Ip4InBounds st a) :
    Held Context.Inv (ip4FullReassInline m st a).1 ∧
      Finalizes Context.Covers (ip4FullReassInline m st a).2 := by
  unfold ip4FullReassInline
  split
  · exact ⟨hst, fun _ he => nomatch he⟩
  rename_i hwhole
  split
  · exact ⟨hst, fun _ he => nomatch he⟩
  rename_i hmal
  obtain ⟨hfits, hin⟩ := hok (Bool.eq_false_iff.mpr hwhole) (Bool.eq_false_iff.mpr hmal)
  split
  · exact ⟨held_none _, fun _ he => nomatch he⟩
  · rename_i r hr
    obtain ⟨hle, hlt⟩ := a.fragment.bounds hfits (Bool.eq_false_iff.mpr hwhole)
      (Bool.eq_false_iff.mpr hmal)
    exact (ip4FullReassUpdate_spec m (findOrCreate_inv hst hr) hle hlt).step (hin r hr)

theorem inBounds_fresh {full : Bool} (h : findOrCreate none false full = some r)
    (last : Nat) : InBounds r last false := by
  intro _
  refine ⟨le_refl _, fun b hb => ?_⟩
  cases full
  · cases h
    cases hb
  · cases h

theorem ip6FullReassemblyInline_step (m : Nat) (st : Option Context) (a : Arrival Ip6Fragment)
    (hst : Held Context.Inv st) (hok : Ip6InBounds st a) :
    Held Context.Inv (ip6FullReassemblyInline m st a).1 ∧
      Finalizes Context.Covers (ip6FullReassemblyInline m st a).2 := by
  unfold ip6FullReassemblyInline
  split
  · exact ⟨hst, fun _ he => nomatch he⟩
  rename_i hwf
  have hwf : a.fragment.wellFormed = true := by simpa using hwf
  obtain ⟨hwrap, hin⟩ := hok hwf
  split
  · rename_i hatomic
    have hmore : a.fragment.more = false := by
      simp only [Ip6Fragment.atomic, Bool.and_eq_true, Bool.not_eq_true'] at hatomic
      exact hatomic.2
    split
    · exact ⟨hst, fun _ he => nomatch he⟩
    · rename_i r hr
      have hinv := findOrCreate_inv (held_none _) hr
      have hspec := ip6FullReassUpdate_spec m true hinv hwrap hwf
      exact ⟨hst, (hspec.step (hmore ▸ inBounds_fresh hr _)).2⟩
  · rename_i hatomic
    split
    · exact ⟨held_none _, fun _ he => nomatch he⟩
    · rename_i r hr
      exact (ip6FullReassUpdate_spec m false (findOrCreate_inv hst hr) hwrap hwf).step
        (hin (Bool.eq_false_iff.mpr hatomic) r hr)

/-! ## Whole runs -/

/-- **Reassembly completes on full coverage only.** In every run whose fragments stay within the packet,
whatever `finalize` is called on covers its packet. -/
theorem finalize_covers (maxReassLen : Nat) (r : Context) :
    (∀ as, Along (ip4FullReassInline maxReassLen) Ip4InBounds none as →
      .updated (.finalize r) ∈ outputs (ip4FullReassInline maxReassLen) none as → r.Covers) ∧
    (∀ as, Along (ip6FullReassemblyInline maxReassLen) Ip6InBounds none as →
      .updated (.finalize r) ∈ outputs (ip6FullReassemblyInline maxReassLen) none as →
        r.Covers) := by
  constructor
  · intro as has hmem
    have h := has.invariant _ _ (ip4FullReassInline_step maxReassLen) (held_none _)
    exact h.2 _ hmem r rfl
  · intro as has hmem
    have h := has.invariant _ _ (ip6FullReassemblyInline_step maxReassLen) (held_none _)
    exact h.2 _ hmem r rfl

/-- The last part of a packet arrives before the first. -/
theorem finalize_covers_swapped_parts :
    Context.Covers ⟨[⟨0, 23, 0, 23⟩, ⟨24, 39, 24, 39⟩], 39, 40, 2⟩ ∧
    Context.Covers ⟨[⟨0, 31, 0, 31⟩, ⟨32, 39, 32, 39⟩], 39, 40, 2⟩ :=
  ⟨(finalize_covers 3 _).1 [⟨⟨36, 5, 3, false⟩, false, false⟩, ⟨⟨44, 5, 0, true⟩, false, false⟩]
      (by decide) (by decide),
    (finalize_covers 3 _).2
      [⟨⟨40, 56, 56, 4, false, true⟩, false, false⟩, ⟨⟨40, 80, 80, 0, true, true⟩, false, false⟩]
      (by decide) (by decide)⟩

/-- Octets 16 to 23, 24 to 39 and, without more fragments, 16 to 23 again: the packet now ends at octet 23,
there are 24 octets, and none of the first 16 arrived. -/
theorem finalize_with_octets_missing :
    (¬ ∀ as r, .updated (.finalize r) ∈ outputs (ip4FullReassInline 3) none as → r.Covers) ∧
    (¬ ∀ as r, .updated (.finalize r) ∈ outputs (ip6FullReassemblyInline 3) none as →
      r.Covers) := by
  have hbad : ¬ Context.Covers ⟨[⟨16, 23, 16, 23⟩, ⟨24, 39, 24, 39⟩], 23, 24, 3⟩ :=
    fun h => absurd (h 0) (by decide)
  refine ⟨fun h => hbad (h [⟨⟨28, 5, 2, true⟩, false, false⟩, ⟨⟨36, 5, 3, true⟩, false, false⟩,
    ⟨⟨28, 5, 2, false⟩, false, false⟩] _ (by decide)), fun h => hbad (h
    [⟨⟨40, 56, 56, 2, true, true⟩, false, false⟩, ⟨⟨40, 64, 64, 3, true, true⟩, false, false⟩,
      ⟨⟨40, 56, 56, 2, false, true⟩, false, false⟩] _ (by decide))⟩

/-! ## The length of the packet -/

/-- The length of the header at `first_bi` before a fragment, if the context is there. -/
def oldHeader (a : Arrival Ip4Fragment) (st : Option (Context × Nat)) : Nat :=
  if a.expired then 0 else (st.map Prod.snd).getD 0

/-- The length of the header at `first_bi` after it. The fragment has come to the front if the first range is
another one. -/
def firstHeader (a : Arrival Ip4Fragment) (st : Option (Context × Nat)) (r : Context) : Nat :=
  if (findOrCreate (st.map Prod.fst) a.expired a.full).bind (·.ranges.head?) = r.ranges.head? then
    oldHeader a st
  else a.fragment.ihl * 4

/-- `ip4_full_reass_inline` with the length of the first header, and the length `finalize` writes, before the
cut to 16 bits. -/
def ip4FullReassLength (maxReassLen : Nat) (st : Option (Context × Nat)) (a : Arrival Ip4Fragment) :
    Option (Context × Nat) × Option Nat :=
  match ip4FullReassInline maxReassLen (st.map Prod.fst) a with
  | (_, .updated u) => (u.context.map fun r => (r, firstHeader a st r),
    match u with
    | .finalize r => some (firstHeader a st r + r.dataLen)
    | _ => none)
  | (none, _) => (none, none)
  | (some _, _) => (st, none)

/-- For a fragment that passes the checks: neither the header in front nor its own makes a packet too long. -/
def LengthFits (st : Option (Context × Nat)) (a : Arrival Ip4Fragment) : Prop :=
  a.fragment.whole = false → a.fragment.malformed = false →
    ∀ r ∈ findOrCreate (st.map Prod.fst) a.expired a.full,
      lastInForce r a.fragment.last a.fragment.more ≠ unset →
        max (oldHeader a st) (a.fragment.ihl * 4) +
          lastInForce r a.fragment.last a.fragment.more + 1 ≤ 65535

instance (st : Option (Context × Nat)) (a : Arrival Ip4Fragment) : Decidable (LengthFits st a) :=
  inferInstanceAs (Decidable (_ → _ → _))

theorem firstHeader_le (a : Arrival Ip4Fragment) (st : Option (Context × Nat)) (r : Context) :
    firstHeader a st r ≤ max (oldHeader a st) (a.fragment.ihl * 4) := by
  unfold firstHeader
  split
  · exact le_max_left ..
  · exact le_max_right ..

theorem last_of_finalize {m : Nat} {r r' : Context} {f : Ip4Fragment}
    (h : ip4FullReassUpdate m r f = .finalize r') :
    r'.lastPacketOctet = lastInForce r f.last f.more ∧ r'.complete = true := by
  unfold ip4FullReassUpdate at h
  dsimp only at h
  split at h
  · split at h <;> cases h
  split at h
  · cases h
  split at h
  · rename_i hc
    cases h
    exact ⟨rfl, hc⟩
  · split at h
    · split at h <;> cases h
    · cases h

/-- **One fragment.** A context is complete at `data_len == last_packet_octet + 1`. -/
theorem length_le (m : Nat) {st : Option (Context × Nat)} {a : Arrival Ip4Fragment}
    (hfit : LengthFits st a) : ∀ n ∈ (ip4FullReassLength m st a).2, n ≤ 65535 := by
  intro n hn
  unfold ip4FullReassLength ip4FullReassInline at hn
  by_cases hwhole : a.fragment.whole = true
  · split at hn <;> simp_all
  by_cases hmal : a.fragment.malformed = true
  · split at hn <;> simp_all
  have hfit := hfit (Bool.eq_false_iff.mpr hwhole) (Bool.eq_false_iff.mpr hmal)
  rw [if_neg hwhole, if_neg hmal] at hn
  cases hr : findOrCreate (st.map Prod.fst) a.expired a.full with
  | none =>
    rw [hr] at hn
    cases hn
  | some r =>
    rw [hr] at hn
    dsimp only at hn
    split at hn
    · rename_i r' hu
      obtain ⟨hlast, hc⟩ := last_of_finalize hu
      simp only [Context.complete, Bool.and_eq_true, decide_eq_true_eq, beq_iff_eq, hlast] at hc
      have hmax := hfit r hr hc.1
      have hle := firstHeader_le a st r'
      cases hn
      rw [hc.2, addW_of_lt (by omega)]
      omega
    · cases hn

/-- **The length is right** in every run whose fragments all fit: what `finalize` writes needs at most 16
bits. -/
theorem reassembled_length_fits (maxReassLen : Nat) (as : List (Arrival Ip4Fragment))
    (has : Along (ip4FullReassLength maxReassLen) LengthFits none as) (n : Nat)
    (hn : some n ∈ outputs (ip4FullReassLength maxReassLen) none as) : n ≤ 65535 :=
  (has.invariant (fun _ => True) (fun o => ∀ n ∈ o, n ≤ 65535)
    (fun _ _ _ h => ⟨trivial, length_le maxReassLen h⟩) trivial).2 _ hn n rfl

theorem reassembled_length_fits_two :
    outputs (ip4FullReassLength 3) none
      [⟨⟨36, 5, 3, false⟩, false, false⟩, ⟨⟨44, 5, 0, true⟩, false, false⟩] = [none, some 60] ∧
    60 ≤ 65535 :=
  ⟨by decide, reassembled_length_fits 3
    [⟨⟨36, 5, 3, false⟩, false, false⟩, ⟨⟨44, 5, 0, true⟩, false, false⟩] (by decide) 60 (by decide)⟩

/-- A first fragment with a header of 60 bytes, and a last one that ends at 65515. -/
theorem reassembled_length_wraps :
    outputs (ip4FullReassLength 3) none
      [⟨⟨32828, 15, 0, true⟩, false, false⟩, ⟨⟨32767, 5, 4096, false⟩, false, false⟩] =
      [none, some 65575] := by
  decide

end Vpp.Ip.Reass
