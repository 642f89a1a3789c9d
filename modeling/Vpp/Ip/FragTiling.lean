import Vpp.Ip.Frag
import Vpp.Lib.Word
import Mathlib.Algebra.Order.BigOperators.Group.List

/-!
# Fragments tile the datagram

What is asked of the fragments of a packet (`Preserves`), and when the two functions deliver it. The
loop they share cuts the bytes behind the fixed header into pieces (`fragLoop_cut`). For IPv6 these
bytes are the payload. For IPv4 they begin with the options, which is right only if there are none or
if there is one fragment only.
-/

namespace Vpp.Ip.Frag

open Lib List Nat
open BitVec (toNat_add toNat_ofNat toNat_sub)

/-! ## The loop -/

def Cursor.bytes (c : Cursor) : List (BitVec 8) :=
  (c.fromData.drop c.ptr).take c.leftInFromBuffer ++ c.next.flatten

def Cursor.Wf (c : Cursor) : Prop := c.ptr + c.leftInFromBuffer ≤ c.fromData.length

variable {mtu : BitVec 16} {ps : List (Nat × List (BitVec 8))} {bs : List (BitVec 8)}
  {pool : List (Nat → BitVec 8)} {dataSize : Nat} {notLast : Bool} {next : List (List (BitVec 8))} {id : BitVec 32}

section Fill

variable {fromData : List (BitVec 8)} {ptr left n : Nat}

theorem fill_of_le (h : n ≤ left) : fill next fromData ptr left n =
    some ((fromData.drop ptr).take n, ⟨fromData, ptr + n, left - n, next⟩) := by
  unfold fill
  rw [if_pos h, if_pos (Nat.sub_self n)]

theorem fill_of_lt (h : left < n) : fill next fromData ptr left n =
    match next with
    | [] => none
    | b :: next => (fill next b 0 b.length (n - left)).map fun r =>
        ((fromData.drop ptr).take left ++ r.1, r.2) := by
  have hle : ¬ n ≤ left := Nat.not_le_of_lt h
  have hne : ¬ n - left = 0 := by omega
  cases next with
  | nil => simp only [fill, if_neg hle, if_neg hne]
  | cons b next => simp only [fill, if_neg hle, if_neg hne]

theorem length_left (hwf : ptr + left ≤ fromData.length) :
    ((fromData.drop ptr).take left).length = left := by
  rw [length_take, length_drop]
  omega

theorem fill_spec_of_le (hle : n ≤ left) (hwf : ptr + left ≤ fromData.length) :
    n ≤ (Cursor.bytes ⟨fromData, ptr, left, next⟩).length ∧
      (fromData.drop ptr).take n = (Cursor.bytes ⟨fromData, ptr, left, next⟩).take n ∧
      Cursor.bytes ⟨fromData, ptr + n, left - n, next⟩ =
        (Cursor.bytes ⟨fromData, ptr, left, next⟩).drop n ∧
      Cursor.Wf ⟨fromData, ptr + n, left - n, next⟩ := by
  have hlen := length_left hwf
  simp only [Cursor.bytes, Cursor.Wf]
  refine ⟨?_, ?_, ?_, by omega⟩
  · rw [length_append]
    omega
  · rw [take_append_of_le_length (by omega), take_take, min_eq_left hle]
  · rw [drop_append_of_le_length (by omega), drop_take, drop_drop]

theorem bytes_next {b : List (BitVec 8)} : Cursor.bytes ⟨b, 0, b.length, next⟩ = b ++ next.flatten := by
  rw [Cursor.bytes, drop_zero, take_length]

/-- **Filling a buffer** takes the next bytes off the chain. -/
theorem fill_spec {c : Cursor} (h : fill next fromData ptr left n = some (bs, c))
    (hwf : ptr + left ≤ fromData.length) :
    n ≤ (Cursor.bytes ⟨fromData, ptr, left, next⟩).length ∧
      bs = (Cursor.bytes ⟨fromData, ptr, left, next⟩).take n ∧
      c.bytes = (Cursor.bytes ⟨fromData, ptr, left, next⟩).drop n ∧ c.Wf := by
  induction next generalizing fromData ptr left n bs c with
  | nil =>
    by_cases hle : n ≤ left
    · rw [fill_of_le hle] at h
      cases h
      exact fill_spec_of_le hle hwf
    · rw [fill_of_lt (by omega)] at h
      cases h
  | cons b next ih =>
    by_cases hle : n ≤ left
    · rw [fill_of_le hle] at h
      cases h
      exact fill_spec_of_le hle hwf
    · have hleft := length_left hwf
      rw [fill_of_lt (by omega)] at h
      obtain ⟨⟨bs', c'⟩, hfill, heq⟩ := Option.map_eq_some_iff.mp h
      obtain ⟨rfl, rfl⟩ := Prod.mk.inj heq
      obtain ⟨hlen, hbs, hbytes, hc⟩ := ih hfill (by omega)
      rw [bytes_next] at hlen hbs hbytes
      have hsplit : Cursor.bytes ⟨fromData, ptr, left, b :: next⟩ =
          (fromData.drop ptr).take left ++ (b ++ next.flatten) := rfl
      rw [hsplit]
      generalize (fromData.drop ptr).take left = front at hleft ⊢
      rw [length_append, take_append, drop_append, hleft,
        take_of_length_le (by omega), drop_eq_nil_of_le (by omega),
        ← hbs, ← hbytes]
      exact ⟨by omega, rfl, rfl, hc⟩

end Fill

section Loop

variable {P : Type} {max : Nat} {emit : (Nat → BitVec 8) → Nat → List (BitVec 8) → Bool → P}
  {mem : Nat → BitVec 8} {rem fo : Nat} {c : Cursor} {pkts : List P}

theorem fragLoop_turn (h8 : 8 ∣ max) (hrem : 0 < rem) :
    fragLoop max emit (mem :: pool) rem fo c =
      match fill c.next c.fromData c.ptr c.leftInFromBuffer (min rem max) with
      | none => (.malformed, [])
      | some (bs, c') =>
        ((fragLoop max emit pool (rem - min rem max) (fo + min rem max) c').1,
          emit mem fo bs (min rem max ≠ rem) ::
            (fragLoop max emit pool (rem - min rem max) (fo + min rem max) c').2) := by
  have hlen : (if (if rem > max then max else rem) ≠ rem then (if rem > max then max else rem) / 8 * 8
      else if rem > max then max else rem) = min rem max := by
    by_cases hgt : rem > max
    · rw [if_pos hgt, if_pos (by omega)]
      omega
    · rw [if_neg hgt, if_neg (by omega)]
      omega
  rw [fragLoop, if_neg (by omega)]
  exact hlen ▸ rfl

theorem fragLoop_cons (h8 : 8 ∣ max) (hrem : 0 < rem)
    (h : fragLoop max emit (mem :: pool) rem fo c = (.none, pkts)) :
    ∃ bs c' pkts', fill c.next c.fromData c.ptr c.leftInFromBuffer (min rem max) = some (bs, c') ∧
      fragLoop max emit pool (rem - min rem max) (fo + min rem max) c' = (.none, pkts') ∧
      pkts = emit mem fo bs (min rem max ≠ rem) :: pkts' := by
  rw [fragLoop_turn h8 hrem] at h
  split at h
  · cases h
  · rename_i bs c' hfill
    obtain ⟨herr, hpkts⟩ := Prod.mk.inj h
    exact ⟨bs, c', _, hfill, Prod.ext herr rfl, hpkts.symm⟩

/-- **The loop cuts** what it takes off the chain into pieces of `max` bytes. -/
theorem fragLoop_cut (h8 : 8 ∣ max)
    (h : fragLoop max emit pool rem fo c = (.none, pkts)) (hwf : c.Wf) :
    rem ≤ c.bytes.length ∧ ∃ ps, Cut max fo (c.bytes.take rem) ps ∧
      List.Forall₂ (fun p pkt => ∃ mem, pkt = emit mem p.1 p.2 (p.1 + p.2.length ≠ fo + rem))
        ps pkts := by
  induction pool generalizing rem fo c pkts with
  | nil =>
    by_cases hrem : rem = 0
    · rw [fragLoop, if_pos hrem] at h
      cases h
      subst hrem
      exact ⟨Nat.zero_le _, [], .nil fo, .nil⟩
    · rw [fragLoop, if_neg hrem] at h
      cases h
  | cons mem pool ih =>
    by_cases hrem : rem = 0
    · rw [fragLoop, if_pos hrem] at h
      cases h
      subst hrem
      exact ⟨Nat.zero_le _, [], .nil fo, .nil⟩
    · obtain ⟨bs, c', pkts', hfill, hloop, rfl⟩ := fragLoop_cons h8 (by omega) h
      obtain ⟨hlen, rfl, hbytes, hwf'⟩ := fill_spec hfill hwf
      obtain ⟨hrest, ps, hcut, hall⟩ := ih hloop hwf'
      have heta : Cursor.bytes ⟨c.fromData, c.ptr, c.leftInFromBuffer, c.next⟩ = c.bytes := rfl
      rw [heta] at hlen hbytes ⊢
      rw [hbytes] at hrest hcut
      rw [length_drop] at hrest
      have hnext : fo + min rem max + (rem - min rem max) = fo + rem := by omega
      rw [hnext] at hall
      refine ⟨by omega, (fo, c.bytes.take (min rem max)) :: ps, ?_, .cons ⟨mem, ?_⟩ hall⟩
      · by_cases hle : rem ≤ max
        · rw [Nat.min_eq_left hle, Nat.sub_self] at hcut
          rw [hcut.eq_nil, min_eq_left hle]
          refine .last fo ?_ ?_
          · rw [← length_pos_iff, length_take]
            omega
          · rw [length_take]
            omega
        · rw [min_eq_right (by omega)] at hcut hrest hlen ⊢
          have htake : c.bytes.take rem =
              c.bytes.take max ++ (c.bytes.drop max).take (rem - max) := by
            rw [← take_add, Nat.add_sub_cancel' (by omega)]
          rw [htake]
          refine .cons fo ?_ ?_ hcut
          · rw [length_take]
            omega
          · rw [← length_pos_iff, length_take, length_drop]
            omega
      · congr 2
        simp only [length_take]
        exact propext (by omega)

end Loop

/-! ## What is asked -/

/-- What a receiver finds in a packet: where its payload belongs, if more fragments follow, the payload, and
the packet's length. -/
structure Piece where
  offset : Nat
  more : Bool
  payload : List (BitVec 8)
  size : Nat

/-- The pieces are the fragments of the whole packet for an `mtu`. -/
structure Preserves (mtu : Nat) (whole : Piece) (ps : List Piece) : Prop where
  size : ∀ p ∈ ps, p.size ≤ mtu
  eights : ∀ p ∈ ps.dropLast, 8 ∣ p.payload.length
  tiles : Tiles whole.offset (ps.map fun p => (p.offset, p.payload)) whole.payload
  more : ∀ p ∈ ps, p.more = false ↔ whole.more = false ∧
    p.offset + p.payload.length = whole.offset + whole.payload.length

/-- **Pieces of a cut** that say where they begin, and that more follow on all but the last. -/
theorem preserves_of_cut {max mtu : Nat} {whole : Piece} {qs : List Piece} (h8 : 8 ∣ max)
    (hcut : Cut max 0 whole.payload ps)
    (h : List.Forall₂ (fun p q => q.offset = whole.offset + p.1 ∧ q.payload = p.2 ∧ q.size ≤ mtu ∧ q.more =
      (decide (p.1 + p.2.length ≠ whole.payload.length) || whole.more)) ps qs) :
    Preserves mtu whole qs where
  size q hq := by
    obtain ⟨p, -, -, -, hsize, -⟩ := exists_of_forall₂ h hq
    exact hsize
  eights q hq := by
    have hmap : qs.map Piece.payload = ps.map Prod.snd := map_eq_of_forall₂ h fun _ _ _ hr => hr.2.1
    have hmem : q.payload ∈ (ps.dropLast).map Prod.snd := by
      rw [map_dropLast, ← hmap, ← map_dropLast]
      exact mem_map_of_mem hq
    obtain ⟨p, hp, hsnd⟩ := mem_map.mp hmem
    rw [← hsnd, hcut.length_eq_of_mem_dropLast p hp]
    exact h8
  tiles := by
    have hmap : (qs.map fun q => (q.offset, q.payload)) =
        ps.map fun p => (whole.offset + p.1, p.2) :=
      map_eq_of_forall₂ h fun _ _ _ hr => Prod.ext hr.1 hr.2.1
    rw [hmap]
    exact hcut.tiles.shift whole.offset
  more q hq := by
    obtain ⟨p, -, hoff, hpay, -, hmore⟩ := exists_of_forall₂ h hq
    rw [hmore, hpay, Bool.or_eq_false_iff, decide_eq_false_iff_not, and_comm]
    exact and_congr_right fun _ => by omega

/-- A packet with the given header, what lies behind the fixed header, and its length. -/
def ip4Piece (h : Ip4Header) (behind : List (BitVec 8)) (size : Nat) : Piece where
  offset := 8 * (ip4GetFragmentOffset h).toNat
  more := h.flagsAndFragmentOffset.getLsbD 13
  payload := (behind.drop (4 * h.ihl.toNat - 20)).take (h.length.toNat - 4 * h.ihl.toNat)
  size := size

def Ip4Packet.piece (p : Ip4Packet) : Piece := ip4Piece p.ip4 p.data p.currentLength

def ip4Whole (first : Ip4Packet) (next : List (List (BitVec 8))) : Piece :=
  ip4Piece first.ip4 (first.data ++ next.flatten) (lengthInChain first.currentLength next)

def Ip6Frag.piece (p : Ip6Frag) : Piece where
  offset := 8 * (p.fragHdr.fragmentOffsetAndMore >>> 3).toNat
  more := p.fragHdr.fragmentOffsetAndMore.getLsbD 0
  payload := p.data.take (p.ip6.payloadLength.toNat - 8)
  size := p.currentLength

def ip6Whole (first : Ip6Packet) (next : List (List (BitVec 8))) : Piece where
  offset := 0
  more := false
  payload := (first.data ++ next.flatten).take first.ip6.payloadLength.toNat
  size := lengthInChain first.currentLength next

/-- The bytes behind the head of a fragment, as a number of 16 bits. -/
def room (mtu : BitVec 16) (dataSize head : Nat) : Nat :=
  (BitVec.ofNat 16 (min mtu.toNat dataSize) - BitVec.ofNat 16 head).toNat

theorem fragMax_eq_room {head : Nat} : fragMax mtu dataSize head = room mtu dataSize head / 8 * 8 := by
  have hmask : ~~~ 7#16 = highMask 16 3 := by decide
  rw [fragMax, hmask, toNat_and_highMask]
  rfl

theorem fragMax_eq {head : Nat} (h : head ≤ min mtu.toNat dataSize) :
    fragMax mtu dataSize head = (min mtu.toNat dataSize - head) / 8 * 8 := by
  rw [fragMax_eq_room, room, toNat_sub, toNat_ofNat, toNat_ofNat]
  omega

/-- A packet whose header is sound, and room for it and 8 bytes in the `mtu` and a buffer. -/
structure Ip4Fits (dataSize : Nat) (first : Ip4Packet) (mtu : BitVec 16) : Prop where
  ihl : 5 ≤ first.ip4.ihl.toNat
  length : 4 * first.ip4.ihl.toNat ≤ first.ip4.length.toNat
  room : first.encap.length + 4 * first.ip4.ihl.toNat + 8 ≤ min mtu.toNat dataSize

/-! ## IPv4 -/

theorem toNat_ip4GetFragmentOffset {h : Ip4Header} :
    (ip4GetFragmentOffset h).toNat = h.flagsAndFragmentOffset.toNat % 8192 := by
  exact and_two_pow_sub_one_eq_mod _ 13

theorem ip4Plan_offset_more {fragmentId : BitVec 32} {first : Ip4Packet} :
    (ip4Plan dataSize fragmentId first mtu).ipFragOffset = ip4GetFragmentOffset first.ip4 ∧
      (ip4Plan dataSize fragmentId first mtu).more =
        first.ip4.flagsAndFragmentOffset.getLsbD 13 := by
  rw [← and_one_shl_ne_zero]
  unfold ip4Plan
  cases hfrag : ip4IsFragment first.ip4 with
  | true => exact ⟨rfl, rfl⟩
  | false =>
    have hzero : first.ip4.flagsAndFragmentOffset &&& 0x3fff#16 = 0 := by
      simpa [ip4IsFragment, ip4HeaderFlagMoreFragments] using hfrag
    have hoff : ip4GetFragmentOffset first.ip4 = 0 := by
      have := congrArg (· &&& 0x1fff#16) hzero
      rwa [BitVec.and_assoc] at this
    have hmore : first.ip4.flagsAndFragmentOffset &&& 1#16 <<< 13 = 0 := by
      have := congrArg (· &&& 1#16 <<< 13) hzero
      rwa [BitVec.and_assoc] at this
    refine ⟨hoff.symm, ?_⟩
    rw [hmore]
    rfl

theorem piece_ip4Emit {first : Ip4Packet} {plan : Ip4Plan} (mem : Nat → BitVec 8) {fo : Nat}
    (bs : List (BitVec 8)) (hihl : 5 ≤ first.ip4.ihl.toNat) (hlen : bs.length + 20 < 65536)
    (hfo : fo / 8 + plan.ipFragOffset.toNat < 65536) : let p := (ip4Emit first plan mem fo bs notLast).piece
    p.offset = 8 * ((fo / 8 + plan.ipFragOffset.toNat) % 8192) ∧
    p.payload = bs.drop (4 * first.ip4.ihl.toNat - 20) ∧
    p.size = first.encap.length + 20 + bs.length ∧
    (fo / 8 + plan.ipFragOffset.toNat < 8192 → p.more = (notLast || plan.more)) := by
  have hsum : (BitVec.ofNat 16 (fo / 8) + plan.ipFragOffset).toNat =
      fo / 8 + plan.ipFragOffset.toNat := by
    rw [toNat_add, toNat_ofNat]
    omega
  have hflags : (ip4Emit first plan mem fo bs notLast).ip4.flagsAndFragmentOffset =
      (BitVec.ofNat 16 (fo / 8) + plan.ipFragOffset) |||
        (if notLast || plan.more then 1#16 <<< 13 else 0) := rfl
  generalize BitVec.ofNat 16 (fo / 8) + plan.ipFragOffset = x at hsum hflags
  refine ⟨?_, ?_, rfl, fun hlt => ?_⟩
  · show 8 * (ip4GetFragmentOffset _).toNat = _
    have hmod : (if notLast || plan.more then 1#16 <<< 13 else 0).toNat % 2 ^ 13 = 0 := by
      split <;> rfl
    rw [toNat_ip4GetFragmentOffset, hflags, BitVec.toNat_or, ← hsum,
      show 8192 = 2 ^ 13 from rfl, or_mod_two_pow, hmod, or_zero]
  · have hlen' : (BitVec.ofNat 16 (bs.length + 20)).toNat = bs.length + 20 := by
      rw [toNat_ofNat, mod_eq_of_lt hlen]
    show (bs.drop (4 * first.ip4.ihl.toNat - 20)).take
      ((BitVec.ofNat 16 (bs.length + 20)).toNat - 4 * first.ip4.ihl.toNat) = _
    apply take_of_length_le
    rw [length_drop]
    omega
  · have hx : x.getLsbD 13 = false := testBit_lt_two_pow (by omega)
    show BitVec.getLsbD (ip4Emit first plan mem fo bs notLast).ip4.flagsAndFragmentOffset 13 = _
    rw [hflags, BitVec.getLsbD_or, hx]
    cases notLast || plan.more <;> rfl

section Ip4

variable {first : Ip4Packet} {pkts : List Ip4Packet}

def behind (first : Ip4Packet) (next : List (List (BitVec 8))) : List (BitVec 8) :=
  first.data ++ next.flatten

theorem Ip4Fits.max_eq (h : Ip4Fits dataSize first mtu) (id : BitVec 32) :
    (ip4Plan dataSize id first mtu).max =
      (min mtu.toNat dataSize - (20 + first.encap.length)) / 8 * 8 := by
  have := h.ihl
  have := h.room
  exact fragMax_eq (by omega)

theorem Ip4Fits.rem_eq (h : Ip4Fits dataSize first mtu) :
    (ip4Plan dataSize id first mtu).rem = first.ip4.length.toNat - 20 := by
  have := h.ihl
  have := h.length
  show (first.ip4.length - 20#16).toNat = _
  rw [toNat_sub, toNat_ofNat]
  omega

/-- **A success** of `ip4_frag_do_fragment`: the bytes behind the fixed header are cut. -/
theorem ip4_cut (hfits : Ip4Fits dataSize first mtu)
    (h : (ip4FragDoFragment dataSize pool id first next mtu).1 = (.none, pkts)) :
    let plan := ip4Plan dataSize (id + 1) first mtu
    plan.rem ≤ (behind first next).length ∧
    ∃ ps, Cut plan.max 0 ((behind first next).take plan.rem) ps ∧
      List.Forall₂ (fun p pkt => ∃ mem, pkt = ip4Emit first plan mem p.1 p.2
        (p.1 + p.2.length ≠ plan.rem)) ps pkts := by
  intro plan
  have h8 : 8 ∣ plan.max := by
    rw [hfits.max_eq]
    exact dvd_mul_left 8 _
  simp only [ip4FragDoFragment] at h
  split at h
  · cases h
  split at h
  · cases h
  split at h
  · cases h
  have hleft : first.currentLength - (20 + first.encap.length) = first.data.length := by
    rw [Ip4Packet.currentLength]
    omega
  rw [hleft] at h
  have hcut := fragLoop_cut h8 h (le_of_eq (zero_add _))
  rw [bytes_next, zero_add] at hcut
  exact hcut

def Ip4Packet.offset (p : Ip4Packet) : Nat := (ip4GetFragmentOffset p.ip4).toNat

/-- The bytes behind the fixed header of a fragment that is not the last. -/
def ip4Max (dataSize : Nat) (first : Ip4Packet) (mtu : BitVec 16) : Nat :=
  (min mtu.toNat dataSize - (20 + first.encap.length)) / 8 * 8

/-- No options or only one fragment; and no fragment begins at an offset too large for its field. -/
def Ip4Served (dataSize : Nat) (first : Ip4Packet) (mtu : BitVec 16) : Prop :=
  (first.ip4.ihl.toNat = 5 ∨ first.ip4.length.toNat - 20 ≤ ip4Max dataSize first mtu) ∧
    8 * first.offset + (first.ip4.length.toNat - 20 - 1) / ip4Max dataSize first mtu *
      ip4Max dataSize first mtu < 65536

theorem Ip4Packet.offset_lt (p : Ip4Packet) : p.offset < 8192 := by
  rw [Ip4Packet.offset, toNat_ip4GetFragmentOffset]
  omega

/-- The fragments of a packet whose bytes `xs` behind the fixed header begin with `o` bytes of
options. -/
structure Emitted (max mtu off o : Nat) (whole : Piece) (xs : List (BitVec 8))
    (ps : List (Nat × List (BitVec 8))) (qs : List Piece) : Prop where
  offset : whole.offset = 8 * off
  payload : whole.payload = xs.drop o
  cut : Cut max 0 xs ps
  all : List.Forall₂ (fun p q => q.offset = 8 * ((p.1 / 8 + off) % 8192) ∧ q.payload = p.2.drop o ∧
    q.size ≤ mtu ∧ (p.1 / 8 + off < 8192 → q.more =
      (decide (p.1 + p.2.length ≠ xs.length) || whole.more))) ps qs

theorem ip4_pieces (hfits : Ip4Fits dataSize first mtu)
    (h : (ip4FragDoFragment dataSize pool id first next mtu).1 = (.none, pkts)) :
    ∃ xs ps, xs.length = first.ip4.length.toNat - 20 ∧
      Emitted (ip4Max dataSize first mtu) mtu.toNat first.offset (4 * first.ip4.ihl.toNat - 20)
        (ip4Whole first next) xs ps (pkts.map Ip4Packet.piece) := by
  obtain ⟨hrem, ps, hcut, hall⟩ := ip4_cut hfits h
  obtain ⟨hoff, hmore⟩ := ip4Plan_offset_more
  rw [hfits.rem_eq] at hrem hcut
  rw [hfits.max_eq] at hcut
  have hlen : ((behind first next).take (first.ip4.length.toNat - 20)).length =
      first.ip4.length.toNat - 20 := length_take_of_le hrem
  have hihl := hfits.ihl
  have hroom := hfits.room
  have hoff13 := first.offset_lt
  have hmax : 0 < ip4Max dataSize first mtu ∧
      20 + first.encap.length + ip4Max dataSize first mtu ≤ mtu.toNat := by
    rw [ip4Max]
    omega
  refine ⟨_, ps, hlen, rfl, ?_, hcut, ?_⟩
  · rw [drop_take]
    show ((behind first next).drop _).take _ = _
    congr 1
    omega
  · have hle := (forall₂_and_left _ _).mpr ⟨fun p hp => And.intro (hcut.length_le hmax.1 p hp)
      (hcut.bounds p hp), hall⟩
    refine forall₂_map_right_iff.mpr (hle.imp fun p pkt hp => ?_)
    obtain ⟨⟨⟨-, hple⟩, -, -, hbound⟩, mem, rfl⟩ := hp
    have hfo : p.1 / 8 + first.offset < 65536 := by omega
    rw [Ip4Packet.offset, ← hoff] at hfo ⊢
    obtain ⟨h1, h2, h3, h4⟩ := piece_ip4Emit mem p.2 hihl (by omega) hfo
    refine ⟨h1, h2, by omega, fun hlt => ?_⟩
    rw [h4 hlt, hmore, hfits.rem_eq, hlen]
    rfl

theorem sum_drop_lt {max o : Nat} {xs : List (BitVec 8)} (hcut : Cut max 0 xs ps) (ho : 0 < o)
    (hmax : o ≤ max) (hlen : max < xs.length) :
    (ps.map fun p => (p.2.drop o).length).sum < xs.length - o := by
  have htotal := hcut.tiles.length
  have hpos := hcut.length_le (by omega)
  cases hcut with
  | nil => exact absurd hlen (by simp)
  | last _ _ hle => omega
  | @cons _ xs ys ps hxs hne hrest =>
    have hps := hrest.ne_nil hne
    have hlt : (ps.map fun p => (p.2.drop o).length).sum < (ps.map fun p => p.2.length).sum := by
      refine sum_lt_sum_of_ne_nil hps _ _ fun p hp => ?_
      have := (hpos p (mem_cons_of_mem _ hp)).1
      rw [length_drop]
      omega
    simp only [map_cons, sum_cons, length_drop] at htotal hlt ⊢
    omega

section Pieces

variable {max mtu off o : Nat} {whole : Piece} {xs : List (BitVec 8)} {qs : List Piece}

theorem Emitted.start_div (h : Emitted max mtu off o whole xs ps qs) (h8 : 8 ∣ max) :
    ∀ p ∈ ps, p.1 / 8 * 8 = p.1 := by
  intro p hp
  have hdvd := (h.cut.bounds p hp).2.1
  exact Nat.div_mul_cancel (Nat.dvd_trans h8 hdvd)

theorem Emitted.not_preserves (h : Emitted max mtu off o whole xs ps qs) (ho : 0 < o)
    (hmax : o ≤ max) (hlen : max < xs.length) : ¬ Preserves mtu whole qs := by
  intro hp
  have hsum : (qs.map fun q => q.payload.length) = ps.map fun p => (p.2.drop o).length :=
    map_eq_of_forall₂ h.all fun p _ q hr => by rw [hr.2.1]
  have htiles := hp.tiles.length
  rw [h.payload, length_drop, map_map] at htiles
  have hlt := sum_drop_lt h.cut ho hmax hlen
  rw [← hsum] at hlt
  exact absurd htiles hlt.ne'

theorem Emitted.last_lt (h : Emitted max mtu off 0 whole xs ps qs) (hp : Preserves mtu whole qs)
    (hmax : 0 < max) (hne : xs ≠ []) : 8 * off + (xs.length - 1) / max * max < 65536 := by
  have hmap : (qs.map fun q => (q.offset, q.payload)) =
      ps.map fun p => (8 * ((p.1 / 8 + off) % 8192), p.2) :=
    map_eq_of_forall₂ h.all fun p _ q hr => Prod.ext hr.1 hr.2.1
  have htiles := hp.tiles
  have hshift := h.cut.tiles.shift (8 * off)
  rw [hmap, h.offset] at htiles
  have heq := htiles.unique hshift (by rw [map_map, map_map]; rfl)
  obtain ⟨p, hmem, hlast⟩ := h.cut.exists_last hmax hne
  have hfield := congrArg Prod.fst (map_inj_left.mp heq p hmem)
  omega

theorem Emitted.preserves (h : Emitted max mtu off 0 whole xs ps qs) (h8 : 8 ∣ max) (hmax : 0 < max)
    (hroom : 8 * off + (xs.length - 1) / max * max < 65536) : Preserves mtu whole qs := by
  have hpay : whole.payload = xs := h.payload
  have hcut := h.cut
  rw [← hpay] at hcut
  refine preserves_of_cut h8 hcut ?_
  have hall := (forall₂_and_left _ _).mpr ⟨fun p hp => And.intro (h.start_div h8 p hp)
    (h.cut.start_le hmax p hp), h.all⟩
  refine hall.imp fun p q hr => ?_
  obtain ⟨⟨hdiv, hle⟩, hoff, hq, hsize, hmore⟩ := hr
  refine ⟨?_, hq, hsize, ?_⟩
  · rw [h.offset]
    omega
  · rw [hmore (by omega), hpay]

theorem Emitted.preserves_one (h : Emitted max mtu off o whole xs ps qs) (hoff : off < 8192)
    (hle : xs.length ≤ max) : Preserves mtu whole qs := by
  obtain ⟨hwoff, hpay, hcut, hall⟩ := h
  by_cases hne : xs = []
  · subst hne
    rw [hcut.eq_nil] at hall
    cases hall
    exact ⟨(fun _ h => nomatch h), (fun _ h => nomatch h), by rw [hpay, drop_nil]; rfl,
      (fun _ h => nomatch h)⟩
  · rw [hcut.eq_of_le hne hle] at hall
    obtain ⟨q, qs', ⟨h1, h2, h3, h4⟩, hnil, rfl⟩ := forall₂_cons_left_iff.mp hall
    cases hnil
    have hq : q.offset = whole.offset := by
      omega
    refine ⟨?_, (fun _ h => nomatch h), ⟨hq, [], ?_, rfl⟩, ?_⟩
    · intro p hp
      rw [mem_singleton.mp hp]
      exact h3
    · rw [append_nil]
      exact hpay.trans h2.symm
    · intro p hp
      rw [mem_singleton.mp hp, h4 (by omega), hq, h2, hpay]
      simp

end Pieces

/-- **IPv4.** A success preserves the datagram just if there are no options or one fragment is enough, and
every offset fits its field. -/
theorem ip4_preserves_iff (hfits : Ip4Fits dataSize first mtu)
    (h : (ip4FragDoFragment dataSize pool id first next mtu).1 = (.none, pkts)) :
    Preserves mtu.toNat (ip4Whole first next) (pkts.map Ip4Packet.piece) ↔
      Ip4Served dataSize first mtu := by
  obtain ⟨xs, ps, hlen, hem⟩ := ip4_pieces hfits h
  have hihl := hfits.ihl
  have hroom := hfits.room
  have h8 : 8 ∣ ip4Max dataSize first mtu := dvd_mul_left 8 _
  have hmax : 0 < ip4Max dataSize first mtu ∧
      4 * first.ip4.ihl.toNat - 20 ≤ ip4Max dataSize first mtu := by
    rw [ip4Max]
    omega
  have hoff := first.offset_lt
  unfold Ip4Served
  rw [← hlen]
  constructor
  · intro hp
    have hopt : first.ip4.ihl.toNat = 5 ∨ xs.length ≤ ip4Max dataSize first mtu := by
      by_contra hno
      exact hem.not_preserves (by omega) hmax.2 (by omega) hp
    refine ⟨hopt, ?_⟩
    by_cases hle : xs.length ≤ ip4Max dataSize first mtu
    · rw [div_eq_of_lt (by omega)]
      omega
    · rw [hopt.resolve_right hle] at hem
      exact hem.last_lt hp hmax.1 (by rintro rfl; simp at hle)
  · rintro ⟨hfive | hle, hlast⟩
    · rw [hfive] at hem
      exact hem.preserves h8 hmax.1 hlast
    · exact hem.preserves_one hoff hle

end Ip4

/-! ## IPv6 -/

section Ip6

variable {first : Ip6Packet} {frags : List Ip6Frag}

/-- Room for the head with a fragment header and 8 bytes in the `mtu` and in a buffer. -/
def Ip6Fits (dataSize : Nat) (first : Ip6Packet) (mtu : BitVec 16) : Prop :=
  first.encap.length + 48 + 8 ≤ min mtu.toNat dataSize

theorem piece_ip6Emit (ipFragId : BitVec 16) (mem : Nat → BitVec 8) (fo : Nat) (bs : List (BitVec 8))
    (hlen : bs.length + 8 < 65536) (h8 : fo / 8 * 8 = fo) (hfo : fo < 65536) :
    let p := (ip6Emit first ipFragId mem fo bs notLast).piece
    p.offset = fo ∧ p.payload = bs ∧ p.size = first.encap.length + 48 + bs.length ∧
      p.more = notLast := by
  have hfield : (ip6FragHdrOffsetAndMore (BitVec.ofNat 16 (fo / 8)) notLast).toNat =
      fo + notLast.toNat := by
    have hshift : (BitVec.ofNat 16 (fo / 8) <<< 3).toNat = fo := by
      rw [BitVec.toNat_shiftLeft, toNat_ofNat]
      omega
    rw [ip6FragHdrOffsetAndMore, toNat_add, hshift]
    cases notLast
    · show (fo + 0) % 65536 = fo + 0
      omega
    · show (fo + 1) % 65536 = fo + 1
      omega
  have hbit := Bool.toNat_le notLast
  refine ⟨?_, ?_, ?_, ?_⟩
  · show 8 * ((ip6FragHdrOffsetAndMore _ _) >>> 3).toNat = fo
    rw [BitVec.toNat_ushiftRight]
    omega
  · show bs.take ((BitVec.ofNat 16 (bs.length + 8)).toNat - 8) = bs
    rw [toNat_ofNat, Nat.mod_eq_of_lt hlen, Nat.add_sub_cancel, take_length]
  · show first.encap.length + 40 + 8 + bs.length = _
    omega
  show (ip6FragHdrOffsetAndMore _ _).getLsbD 0 = notLast
  rw [← BitVec.testBit_toNat, hfield, testBit_zero]
  cases notLast
  · exact decide_eq_false (by simp only [Bool.toNat_false]; omega)
  · exact decide_eq_true (by simp only [Bool.toNat_true]; omega)

/-- **IPv6.** A success preserves the datagram. -/
theorem ip6_preserves (hfits : Ip6Fits dataSize first mtu)
    (h : (ip6FragDoFragment dataSize pool id first next mtu).1 = (.none, frags)) :
    Preserves mtu.toNat (ip6Whole first next) (frags.map Ip6Frag.piece) := by
  unfold Ip6Fits at hfits
  have hmax : fragMax mtu dataSize (40 + 8 + first.encap.length) =
      (min mtu.toNat dataSize - (40 + 8 + first.encap.length)) / 8 * 8 := fragMax_eq (by omega)
  have h8 : 8 ∣ fragMax mtu dataSize (40 + 8 + first.encap.length) := by
    rw [hmax]
    exact dvd_mul_left 8 _
  simp only [ip6FragDoFragment] at h
  split at h
  · cases h
  split at h
  · cases h
  have hleft : first.currentLength - (first.encap.length + 40) = first.data.length := by
    rw [Ip6Packet.currentLength]
    omega
  rw [hleft] at h
  obtain ⟨hrem, ps, hcut, hall⟩ := fragLoop_cut h8 h (le_of_eq (zero_add _))
  rw [bytes_next] at hrem hcut
  rw [zero_add] at hall
  have hlen : (ip6Whole first next).payload.length = first.ip6.payloadLength.toNat :=
    length_take_of_le hrem
  refine preserves_of_cut h8 hcut (forall₂_map_right_iff.mpr ?_)
  have hbounds := (forall₂_and_left _ _).mpr ⟨fun p hp => And.intro
    (hcut.length_le (by omega) p hp) (hcut.bounds p hp), hall⟩
  refine hbounds.imp fun p frag hp => ?_
  obtain ⟨⟨⟨-, hple⟩, -, hdvd, hbound⟩, mem, rfl⟩ := hp
  have hbound' : p.1 + p.2.length ≤ first.ip6.payloadLength.toNat := by
    have := hbound.trans_eq (zero_add _)
    rwa [show ((first.data ++ next.flatten).take first.ip6.payloadLength.toNat).length =
      first.ip6.payloadLength.toNat from hlen] at this
  obtain ⟨h1, h2, h3, h4⟩ := piece_ip6Emit ((id + 1).setWidth 16) mem p.1 p.2 (by omega)
    (Nat.div_mul_cancel (Nat.dvd_trans h8 hdvd)) (by omega)
  refine ⟨h1.trans (zero_add _).symm, h2, by omega, ?_⟩
  rw [h4, hlen]
  exact (Bool.or_false _).symm

end Ip6

/-- **Fragmentation.** When the functions succeed the fragments of an IPv6 packet preserve it, and those of an
IPv4 packet just if it has no options or makes one fragment, and every offset fits its field. -/
theorem fragmentation_preserves (dataSize : Nat) (pool : List (Nat → BitVec 8)) (id : BitVec 32)
    (next : List (List (BitVec 8))) (mtu : BitVec 16) :
    (∀ first pkts, Ip4Fits dataSize first mtu →
      (ip4FragDoFragment dataSize pool id first next mtu).1 = (.none, pkts) →
      (Preserves mtu.toNat (ip4Whole first next) (pkts.map Ip4Packet.piece) ↔
        Ip4Served dataSize first mtu)) ∧
    ∀ first frags, Ip6Fits dataSize first mtu →
      (ip6FragDoFragment dataSize pool id first next mtu).1 = (.none, frags) →
      Preserves mtu.toNat (ip6Whole first next) (frags.map Ip6Frag.piece) :=
  ⟨fun _ _ hfits h => ip4_preserves_iff hfits h, fun _ _ hfits h => ip6_preserves hfits h⟩

/-- A packet with a header of `4 * ihl` bytes and 24 bytes behind the fixed header. -/
def sample (ihl : BitVec 4) : Ip4Packet :=
  ⟨[], ⟨4, ihl, 0, 44, 7, 0, 64, 17, 0, 1, 2⟩, (List.range 24).map (BitVec.ofNat 8)⟩

def buffers : List (Nat → BitVec 8) := [fun _ => 0, fun _ => 0]

def sample6 : Ip6Packet :=
  ⟨[], ⟨0, 24, 17, 64, 1, 2⟩, (List.range 24).map (BitVec.ofNat 8)⟩

/-- Without options and with an `mtu` of 36 the packet is preserved in two fragments; so is an IPv6 packet
with 64. -/
theorem fragmentation_preserves_two :
    Preserves 36 (ip4Whole (sample 5) [])
      ((ip4FragDoFragment 2048 buffers 0 (sample 5) [] 36).1.2.map Ip4Packet.piece) ∧
    Preserves 64 (ip6Whole sample6 [])
      ((ip6FragDoFragment 2048 buffers 0 sample6 [] 64).1.2.map Ip6Frag.piece) :=
  ⟨((fragmentation_preserves 2048 buffers 0 [] 36).1 (sample 5) _
      ⟨by decide, by decide, by decide⟩ (Prod.ext (by decide +kernel) rfl)).mpr
        ⟨.inl rfl, by decide +kernel⟩,
    (fragmentation_preserves 2048 buffers 0 [] 64).2 sample6 _ (by unfold Ip6Fits; decide)
      (Prod.ext (by decide +kernel) rfl)⟩

/-- With four bytes of options the first fragment carries 12 bytes of payload. -/
theorem options_not_preserved :
    Ip4Fits 2048 (sample 6) 36 ∧
    (ip4FragDoFragment 2048 buffers 0 (sample 6) [] 36).1.1 = .none ∧
    ¬ Preserves 36 (ip4Whole (sample 6) [])
      ((ip4FragDoFragment 2048 buffers 0 (sample 6) [] 36).1.2.map Ip4Packet.piece) := by
  refine ⟨⟨by decide, by decide, by decide⟩, by decide +kernel, fun h => ?_⟩
  have heights : ∀ n ∈ (((ip4FragDoFragment 2048 buffers 0 (sample 6) [] 36).1.2.map
      Ip4Packet.piece).dropLast.map fun p => p.payload.length), 8 ∣ n := by
    intro n hn
    obtain ⟨p, hp, rfl⟩ := mem_map.mp hn
    exact h.eights p hp
  exact absurd heights (by decide +kernel)

/-! ## The end of the loop -/

/-- At most `n` fragments are made, none without data, and the first goes beyond the options. -/
def Cuts {P : Type} (data : P → List (BitVec 8)) (options n : Nat) (r : IpFragError × List P) : Prop :=
  r.1 ≠ .memory ∧ r.2.length ≤ n ∧ (∀ p ∈ r.2, data p ≠ []) ∧ ∀ p ∈ r.2.head?, options < (data p).length

/-- With a buffer for every 8 bytes of the payload, the loop makes no more fragments, and each has a byte of it. -/
def Ends {P : Type} (data : P → List (BitVec 8)) (options payload : Nat)
    (run : List (Nat → BitVec 8) → IpFragError × List P) : Prop :=
  ∀ pool, (payload + 7) / 8 ≤ pool.length → Cuts data options ((payload + 7) / 8) (run pool)

/-- Nothing is to be sent; or fragments of `max` bytes have room for some, the first one for more than the
options, and one for every 8 bytes of payload are enough. -/
def Cuttable (max options payload rem : Nat) : Prop :=
  rem = 0 ∨ 0 < max ∧ options < min max rem ∧ rem ≤ max * ((payload + 7) / 8)

theorem fill_isSome {next : List (List (BitVec 8))} {fromData : List (BitVec 8)} {ptr left n : Nat}
    (h : n ≤ left + next.flatten.length) : ∃ bs c, fill next fromData ptr left n = some (bs, c) := by
  induction next generalizing fromData ptr left n with
  | nil =>
    rw [flatten_nil, length_nil] at h
    exact ⟨_, _, fill_of_le h⟩
  | cons b next ih =>
    by_cases hle : n ≤ left
    · exact ⟨_, _, fill_of_le hle⟩
    rw [flatten_cons, length_append] at h
    obtain ⟨bs, c, hfill⟩ := @ih b 0 b.length (n - left) (by omega)
    rw [fill_of_lt (by omega)]
    simp only [hfill]
    exact ⟨_, _, rfl⟩

section End

variable {P : Type} {max rem fo n options payload : Nat}
  {emit : (Nat → BitVec 8) → Nat → List (BitVec 8) → Bool → P} {c : Cursor} {data : P → List (BitVec 8)}

theorem fragLoop_done : fragLoop max emit pool 0 fo c = (.none, []) := by
  cases pool with
  | nil => rfl
  | cons mem pool => rfl

theorem Cursor.Wf.length_bytes (h : c.Wf) :
    c.bytes.length = c.leftInFromBuffer + c.next.flatten.length := by
  unfold Cursor.Wf at h
  rw [Cursor.bytes, length_append, length_take, length_drop]
  omega

theorem cuts_nil {e : IpFragError} (h : e ≠ .memory) : Cuts data options n (e, []) :=
  ⟨h, Nat.zero_le _, fun _ hp => absurd hp not_mem_nil, fun _ hp => absurd hp (Option.not_mem_none _)⟩

/-- **Enough buffers.** -/
theorem fragLoop_cuts (h8 : 8 ∣ max) (hmax : 0 < max) (hwf : c.Wf)
    (hdata : ∀ mem fo bs more, data (emit mem fo bs more) = bs) (hpool : rem ≤ max * pool.length)
    (hn : rem ≤ max * n) (hfirst : 0 < rem → options < min max rem) :
    Cuts data options n (fragLoop max emit pool rem fo c) := by
  induction pool generalizing rem fo c n options with
  | nil =>
    obtain rfl : rem = 0 := Nat.le_zero.mp hpool
    rw [fragLoop_done]
    exact cuts_nil (by decide)
  | cons mem pool ih =>
    rcases Nat.eq_zero_or_pos rem with rfl | hrem
    · rw [fragLoop_done]
      exact cuts_nil (by decide)
    rw [fragLoop_turn h8 hrem]
    split
    · exact cuts_nil (by decide)
    rename_i bs c' hfill
    obtain ⟨hlen, rfl, -, hwf'⟩ := fill_spec hfill hwf
    rw [length_cons, Nat.mul_succ] at hpool
    cases n with
    | zero => omega
    | succ n =>
      rw [Nat.mul_succ] at hn
      obtain ⟨herr, hcount, hne, -⟩ :=
        @ih (rem - min rem max) (fo + min rem max) n 0 c' hwf' (by omega) (by omega) (by omega)
      have hbytes := length_take_of_le hlen
      refine ⟨herr, succ_le_succ hcount, forall_mem_cons.mpr ⟨?_, hne⟩, fun p hp => ?_⟩
      · rw [hdata, ← length_pos_iff, hbytes]
        omega
      · obtain rfl := Option.some.inj hp
        rw [hdata, hbytes, min_comm]
        exact hfirst hrem

/-- **Too few buffers.** -/
theorem fragLoop_short (h8 : 8 ∣ max) (hwf : c.Wf) (hlt : max * pool.length < rem)
    (hbytes : max * pool.length ≤ c.bytes.length) : (fragLoop max emit pool rem fo c).1 = .memory := by
  induction pool generalizing rem fo c with
  | nil => rw [fragLoop, if_neg (by omega)]
  | cons mem pool ih =>
    rw [length_cons, Nat.mul_succ] at hlt hbytes
    have hmin : min rem max = max := by omega
    obtain ⟨bs, c', hfill⟩ := @fill_isSome c.next c.fromData c.ptr c.leftInFromBuffer max
      (hwf.length_bytes ▸ by omega)
    obtain ⟨-, -, hrest, hwf'⟩ := fill_spec hfill hwf
    rw [fragLoop_turn h8 (by omega), hmin, hfill]
    refine ih hwf' (by omega) ?_
    rw [hrest, length_drop]
    exact Nat.le_sub_of_add_le hbytes

theorem ends_of_cuttable (h8 : 8 ∣ max) (hwf : c.Wf)
    (hdata : ∀ mem fo bs more, data (emit mem fo bs more) = bs) (h : Cuttable max options payload rem) :
    Ends data options payload fun pool => fragLoop max emit pool rem fo c := by
  intro pool hpool
  rcases h with rfl | ⟨hmax, hfirst, hrem⟩
  · simp only [fragLoop_done]
    exact cuts_nil (by decide)
  · exact fragLoop_cuts h8 hmax hwf hdata (hrem.trans (Nat.mul_le_mul_left max hpool)) hrem fun _ => hfirst

theorem cuttable_of_ends (h8 : 8 ∣ max) (hwf : c.Wf)
    (hdata : ∀ mem fo bs more, data (emit mem fo bs more) = bs) (hbytes : max = 0 ∨ rem ≤ c.bytes.length)
    (h : Ends data options payload fun pool => fragLoop max emit pool rem fo c) :
    Cuttable max options payload rem := by
  by_cases hzero : rem = 0
  · exact .inl hzero
  have hpool := h (replicate ((payload + 7) / 8) fun _ => 0) (by rw [length_replicate])
  beta_reduce at hpool
  have hrem : rem ≤ max * ((payload + 7) / 8) := by
    by_contra hlt
    refine hpool.1 (fragLoop_short h8 hwf ?_ ?_)
    all_goals rw [length_replicate]
    · exact not_le.mp hlt
    · rcases hbytes with rfl | hbytes
      · rw [Nat.zero_mul]
        exact Nat.zero_le _
      · omega
  have hmax : 0 < max := by
    rcases Nat.eq_zero_or_pos max with rfl | hpos
    · omega
    · exact hpos
  refine .inr ⟨hmax, ?_, hrem⟩
  -- the first fragment
  have hbytes := hbytes.resolve_left (by omega)
  cases hn : (payload + 7) / 8 with
  | zero =>
    rw [hn] at hrem
    omega
  | succ n =>
    obtain ⟨bs, c', hfill⟩ := @fill_isSome c.next c.fromData c.ptr c.leftInFromBuffer (min rem max)
      (hwf.length_bytes ▸ by omega)
    obtain ⟨hlen, rfl, -, -⟩ := fill_spec hfill hwf
    rw [hn, replicate_succ, fragLoop_turn h8 (by omega), hfill] at hpool
    have hfirst := hpool.2.2.2 _ rfl
    rw [hdata, length_take] at hfirst
    omega

end End

/-- The checks of `ip4_frag_do_fragment`. -/
structure Ip4Checked (first : Ip4Packet) (next : List (List (BitVec 8))) (mtu : BitVec 16) : Prop where
  length : (first.ip4.length - 20#16).toNat ≤ lengthInChain first.currentLength next - 20
  header : ¬ mtu < 20
  fragment : first.ip4.flagsAndFragmentOffset &&& ip4HeaderFlagDontFragment = 0

/-- The checks of `ip6_frag_do_fragment`. -/
structure Ip6Checked (first : Ip6Packet) (next : List (List (BitVec 8))) : Prop where
  length : first.ip6.payloadLength.toNat ≤ lengthInChain first.currentLength next - 40
  whole : first.ip6.protocol ≠ ipProtocolIpv6Fragmentation

theorem ip4FragDoFragment_checked {id : BitVec 32} {first : Ip4Packet} {next : List (List (BitVec 8))}
    (h : Ip4Checked first next mtu) :
    (ip4FragDoFragment dataSize pool id first next mtu).1 =
      fragLoop (fragMax mtu dataSize (20 + first.encap.length))
        (ip4Emit first (ip4Plan dataSize (id + 1) first mtu)) pool (first.ip4.length - 20#16).toNat 0
        ⟨first.data, 0, first.data.length, next⟩ := by
  have hleft : first.currentLength - (20 + first.encap.length) = first.data.length := by
    rw [Ip4Packet.currentLength]
    omega
  have hlen : ¬ (ip4Plan dataSize (id + 1) first mtu).rem >
      lengthInChain first.currentLength next - 20 := not_lt.mpr h.length
  simp only [ip4FragDoFragment, if_neg hlen, if_neg h.header, h.fragment, hleft]
  rfl

/-- The options and the payload of an IPv4 packet. -/
def Ip4Header.options (h : Ip4Header) : Nat := 4 * h.ihl.toNat - 20

def Ip4Header.payload (h : Ip4Header) : Nat := h.length.toNat - 4 * h.ihl.toNat

/-- 40 bytes of options in front of 8 bytes of payload. -/
def manyOptions : Ip4Packet :=
  ⟨[], ⟨4, 15, 0, 68, 7, 0, 64, 17, 0, 1, 2⟩, (List.range 48).map (BitVec.ofNat 8)⟩

end Vpp.Ip.Frag
