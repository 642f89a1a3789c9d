import Mathlib.Data.BitVec

/-!
# Unsigned words

Arithmetic of `w`-bit unsigned integers on their values: the results are reduced modulo `2 ^ w` as
the machine reduces them, and the lemmas say when the reduction does nothing. The last section reads
and writes single bits.
-/

namespace Vpp.Lib

open BitVec

/-- Store into a `w`-bit field. -/
def wrap (w n : Nat) : Nat := n % 2 ^ w

/-- `w`-bit addition. -/
def addW (w a b : Nat) : Nat := (a + b) % 2 ^ w

/-- `w`-bit subtraction. -/
def subW (w a b : Nat) : Nat := (a + (2 ^ w - b % 2 ^ w)) % 2 ^ w

theorem wrap_of_lt {w n : Nat} (h : n < 2 ^ w) : wrap w n = n := Nat.mod_eq_of_lt h

theorem addW_of_lt {w a b : Nat} (h : a + b < 2 ^ w) : addW w a b = a + b := Nat.mod_eq_of_lt h

theorem subW_of_le {w a b : Nat} (hb : b ≤ a) (ha : a < 2 ^ w) : subW w a b = a - b := by
  unfold subW
  rw [Nat.mod_eq_of_lt (Nat.lt_of_le_of_lt hb ha)]
  have : a + (2 ^ w - b) = a - b + 2 ^ w := by omega
  rw [this, Nat.add_mod_right, Nat.mod_eq_of_lt (by omega)]

/-- The smaller of two words. -/
def minW {w : Nat} (a b : BitVec w) : BitVec w := if a < b then a else b

theorem toNat_minW {w : Nat} (a b : BitVec w) : (minW a b).toNat = min a.toNat b.toNat := by
  unfold minW
  split
  · rename_i h
    rw [BitVec.lt_def] at h
    omega
  · rename_i h
    rw [BitVec.lt_def] at h
    omega

/-! ## Single bits -/

theorem getLsbD_or_one_shl {w : Nat} (x : BitVec w) {i j : Nat} (hi : i < w) :
    (x ||| (1#w <<< j)).getLsbD i = (x.getLsbD i || decide (i = j)) := by
  by_cases h : i < j
  · have : i ≠ j := by omega
    simp [h, this]
  by_cases he : i = j
  · have : 0 < w := by omega
    simp [he]
    omega
  · have : i - j ≠ 0 := by omega
    simp [he, this]

theorem and_one_shl_ne_zero {w : Nat} (x : BitVec w) (i : Nat) :
    ((x &&& (1#w <<< i)) != 0#w) = x.getLsbD i := by
  cases hb : x.getLsbD i with
  | true =>
    have hi : i < w := lt_of_getLsbD hb
    rw [bne_iff_ne]
    intro h
    have := congrArg (·.getLsbD i) h
    simp only [getLsbD_and] at this
    simp_all
  | false =>
    rw [bne_eq_false_iff_eq]
    apply eq_of_getLsbD_eq
    intro j hj
    by_cases hji : j = i
    · subst hji; simp [hb]
    · rcases Nat.lt_or_gt_of_ne hji with h | h
      · simp [h]
      · have : j - i ≠ 0 := by omega
        simp [this]

end Vpp.Lib
