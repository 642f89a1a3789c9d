import Vpp.Lib.Wire

/-!
# Compact integers

`vppinfra/serialize.h`. A small number takes fewer bytes: the low bits of the first byte say how many,
and the numbers of each length begin where those of the one before end. A stream is the list of its
bytes.
-/

namespace Vpp.Vppinfra

open Lib BitVec Nat

/-- A number in `k` bytes of memory, `clib_host_to_little`. -/
def little (k n : Nat) : List (BitVec 8) := (bytesOf k n).reverse

/-- `serialize_likely_small_unsigned_integer`, the bytes that it writes. -/
def serializeLikelySmallUnsignedInteger (x : BitVec 64) : List (BitVec 8) :=
  let r := x.toNat
  if r < 1 <<< 7 then [BitVec.ofNat 8 (1 + 2 * r)]
  else
    let r := r - 1 <<< 7
    if r < 1 <<< 14 then little 2 (4 * r + 2)
    else
      let r := r - 1 <<< 14
      if r < 1 <<< 29 then little 4 (8 * r + 4)
      else 0 :: little 8 x.toNat

/-- `unserialize_likely_small_unsigned_integer`, with the rest of the stream; nothing if the stream
ends before. -/
def unserializeLikelySmallUnsignedInteger : List (BitVec 8) → Option (BitVec 64 × List (BitVec 8))
  | [] => none
  | y :: m =>
    let y := y.toNat
    if y.testBit 0 then some (BitVec.ofNat 64 (y / 2), m)
    else if y.testBit 1 then
      match m with
      | p₀ :: m => some (BitVec.ofNat 64 (1 <<< 7 + (y / 4 + p₀.toNat <<< 6)), m)
      | _ => none
    else if y.testBit 2 then
      match m with
      | p₀ :: p₁ :: p₂ :: m => some (BitVec.ofNat 64 (1 <<< 7 + 1 <<< 14 +
          (y / 8 + p₀.toNat <<< 5 + p₁.toNat <<< 13 + p₂.toNat <<< 21)), m)
      | _ => none
    else if 8 ≤ m.length then some (BitVec.ofNat 64 (number (m.take 8).reverse), m.drop 8)
    else none

/-- `serialize_likely_small_signed_integer`. -/
def serializeLikelySmallSignedInteger (s : BitVec 64) : List (BitVec 8) :=
  serializeLikelySmallUnsignedInteger (if s.slt 0#64 then -(2#64 * s + 1#64) else 2#64 * s)

/-- `unserialize_likely_small_signed_integer`. -/
def unserializeLikelySmallSignedInteger (m : List (BitVec 8)) : Option (BitVec 64 × List (BitVec 8)) :=
  (unserializeLikelySmallUnsignedInteger m).map fun (u, m) =>
    (if u.getLsbD 0 then -(u / 2#64) else u / 2#64, m)

example : serializeLikelySmallUnsignedInteger 300 = [0xb2, 2] := by decide

variable {r : Nat} {rest : List (BitVec 8)}

theorem unserialize_one (hr : r < 2 ^ 7) :
    unserializeLikelySmallUnsignedInteger (BitVec.ofNat 8 (1 + 2 * r) :: rest) =
      some (BitVec.ofNat 64 r, rest) := by
  simp only [unserializeLikelySmallUnsignedInteger, toNat_ofNat, testBit_eq_decide_div_mod_eq,
    decide_eq_true_eq]
  rw [if_pos (by omega)]
  congr 3
  omega

theorem unserialize_two (hr : r < 2 ^ 14) :
    unserializeLikelySmallUnsignedInteger (little 2 (4 * r + 2) ++ rest) =
      some (BitVec.ofNat 64 (2 ^ 7 + r), rest) := by
  have hbytes : little 2 (4 * r + 2) =
    [BitVec.ofNat 8 (4 * r + 2), BitVec.ofNat 8 ((4 * r + 2) / 256)] := rfl
  simp only [hbytes, List.cons_append, unserializeLikelySmallUnsignedInteger,
    toNat_ofNat, Nat.testBit_eq_decide_div_mod_eq, decide_eq_true_eq]
  rw [if_neg (by omega), if_pos (by omega)]
  congr 3
  omega

theorem unserialize_four (hr : r < 2 ^ 29) :
    unserializeLikelySmallUnsignedInteger (little 4 (8 * r + 4) ++ rest) =
      some (BitVec.ofNat 64 (2 ^ 7 + 2 ^ 14 + r), rest) := by
  have hbytes : little 4 (8 * r + 4) = [BitVec.ofNat 8 (8 * r + 4), BitVec.ofNat 8 ((8 * r + 4) / 256),
    BitVec.ofNat 8 ((8 * r + 4) / 256 / 256), BitVec.ofNat 8 ((8 * r + 4) / 256 / 256 / 256)] := rfl
  simp only [hbytes, List.cons_append, unserializeLikelySmallUnsignedInteger,
    toNat_ofNat, Nat.testBit_eq_decide_div_mod_eq, decide_eq_true_eq, Nat.shiftLeft_eq]
  rw [if_neg (by omega), if_neg (by omega), if_pos (by omega)]
  congr 3
  omega

variable {x : BitVec 64}

theorem unserialize_nine :
    unserializeLikelySmallUnsignedInteger (0 :: (little 8 x.toNat ++ rest)) = some (x, rest) := by
  have hlen : (little 8 x.toNat).length = 8 := by rw [little, List.length_reverse, length_bytesOf]
  have hread : number (little 8 x.toNat).reverse = x.toNat := by
    rw [little, List.reverse_reverse, number_bytesOf]
    exact mod_eq_of_lt x.isLt
  generalize little 8 x.toNat = bs at hlen hread
  show (if 8 ≤ (bs ++ rest).length then _ else none) = _
  rw [if_pos (by rw [List.length_append]; omega), List.take_left' hlen, List.drop_left' hlen, hread,
    ofNat_toNat, setWidth_eq]

/-- **What is written is read back**, and nothing behind it. -/
theorem unserialize_serialize :
    unserializeLikelySmallUnsignedInteger (serializeLikelySmallUnsignedInteger x ++ rest) =
      some (x, rest) := by
  simp only [serializeLikelySmallUnsignedInteger, Nat.shiftLeft_eq, Nat.one_mul]
  by_cases h₁ : x.toNat < 2 ^ 7
  · rw [if_pos h₁, List.singleton_append, unserialize_one h₁, ofNat_toNat, setWidth_eq]
  by_cases h₂ : x.toNat - 2 ^ 7 < 2 ^ 14
  · rw [if_neg h₁, if_pos h₂, unserialize_two h₂, Nat.add_sub_cancel' (by omega), ofNat_toNat,
      setWidth_eq]
  by_cases h₄ : x.toNat - 2 ^ 7 - 2 ^ 14 < 2 ^ 29
  · rw [if_neg h₁, if_neg h₂, if_pos h₄, unserialize_four h₄, Nat.sub_sub,
      Nat.add_sub_cancel' (by omega), ofNat_toNat, setWidth_eq]
  · rw [if_neg h₁, if_neg h₂, if_neg h₄, List.cons_append, unserialize_nine]

theorem unserialize_serialize_signed {s : BitVec 64} (hs : -2 ^ 62 ≤ s.toInt ∧ s.toInt < 2 ^ 62) :
    unserializeLikelySmallSignedInteger (serializeLikelySmallSignedInteger s ++ rest) =
      some (if 0 ≤ s.toInt then s else s + 1#64, rest) := by
  rw [unserializeLikelySmallSignedInteger, serializeLikelySmallSignedInteger, unserialize_serialize,
    Option.map_some]
  simp only [slt_eq_decide, toInt_zero, decide_eq_true_eq, getLsbD, testBit_eq_decide_div_mod_eq]
  congr 2
  apply eq_of_toNat_eq
  have hint := toInt_eq_toNat_cond s
  by_cases hneg : 0 ≤ s.toInt
  · have hu : (2#64 * s).toNat = 2 * s.toNat := by
      rw [toNat_mul, toNat_ofNat]
      omega
    simp only [if_pos hneg, if_neg (Int.not_lt.mpr hneg)]
    rw [if_neg (by omega), toNat_udiv, hu]
    exact mul_div_right _ (by decide)
  · have hu : (-(2#64 * s + 1#64)).toNat = 2 ^ 65 - 2 * s.toNat - 1 := by
      simp only [toNat_neg, toNat_add, toNat_mul, toNat_ofNat]
      omega
    simp only [if_neg hneg, if_pos (Int.not_le.mp hneg)]
    rw [if_pos (by omega), toNat_neg, toNat_udiv, toNat_add, show (2#64).toNat = 2 from rfl, show (1#64).toNat = 1 from rfl]
    omega

/-- **Compact integers.** Every unsigned number is read back; a signed one just if it is not
negative. -/
theorem compact_integers_round_trip (x s : BitVec 64) (rest : List (BitVec 8))
    (hs : -2 ^ 62 ≤ s.toInt ∧ s.toInt < 2 ^ 62) :
    unserializeLikelySmallUnsignedInteger (serializeLikelySmallUnsignedInteger x ++ rest) =
      some (x, rest) ∧
    (unserializeLikelySmallSignedInteger (serializeLikelySmallSignedInteger s ++ rest) = some (s, rest) ↔
      0 ≤ s.toInt) := by
  refine ⟨unserialize_serialize, ?_⟩
  rw [unserialize_serialize_signed hs]
  by_cases h : 0 ≤ s.toInt <;> simp

theorem compact_integers_round_trip_5 :
    unserializeLikelySmallSignedInteger (serializeLikelySmallSignedInteger 5 ++ []) = some (5, []) :=
  (compact_integers_round_trip 0 5 [] (by decide)).2.mpr (by decide)

theorem minus_one_lost :
    unserializeLikelySmallSignedInteger (serializeLikelySmallSignedInteger (-1)) = some (0, []) := by
  decide

/-- `serialize_cstring`. -/
def serializeCstring (s : List (BitVec 8)) : List (BitVec 8) :=
  let len := s.length % 2 ^ 32
  serializeLikelySmallUnsignedInteger (.ofNat 64 len) ++ s.take len

/-- `unserialize_cstring`; `none` is the null pointer. -/
def unserializeCstring (m : List (BitVec 8)) : Option (Option (List (BitVec 8)) × List (BitVec 8)) := do
  let (len, m) ← unserializeLikelySmallUnsignedInteger m
  let len := len.toNat % 2 ^ 32
  if len = 0 ∨ len = 2 ^ 32 - 1 then return (none, m)
  if m.length < len then none else return (some (m.take len ++ [0]), m.drop len)

/-- **Strings are read back**, the empty one as the null pointer, just if there is a `u32` above the length. -/
theorem cstring_round_trip_iff (s : List (BitVec 8)) :
    unserializeCstring (serializeCstring s ++ rest) =
      some (if s = [] then none else some (s ++ [0]), rest) ↔ s.length < 2 ^ 32 - 1 := by
  generalize hk : s.length % 2 ^ 32 = k
  have hlen : (BitVec.ofNat 64 k).toNat % 2 ^ 32 = k := by rw [toNat_ofNat]; omega
  have htake : (s.take k).length = k := List.length_take_of_le (by omega)
  simp only [unserializeCstring, serializeCstring, hk, List.append_assoc, unserialize_serialize, hlen,
    Option.bind_eq_bind, Option.bind_some]
  by_cases h : s = []
  · subst h hk
    simp
  have hpos := List.length_pos_iff.mpr h
  rw [if_neg h]
  split
  · exact iff_of_false (by simp) (by omega)
  rw [if_neg (by rw [List.length_append]; omega), List.take_left' htake, List.drop_left' htake]
  simp
  omega

end Vpp.Vppinfra
