import Mathlib.Data.BitVec

/-!
# Byte order and leading bits

A word in memory order and the number a processor of the other byte order loads from it are related
by `swapBytes`. The last section is about the leading bits of a word, which is what a prefix mask
keeps.
-/

namespace Vpp.Lib

open BitVec Nat

variable {w : Nat}

/-- The word with the given bits, the least significant one first. -/
def ofBits : (w : Nat) → (Nat → Bool) → BitVec w
  | 0, _ => 0#0
  | w + 1, f => BitVec.cons (f w) (ofBits w f)

theorem getLsbD_ofBits (f : Nat → Bool) {i : Nat} (hi : i < w) : (ofBits w f).getLsbD i = f i := by
  induction w with
  | zero => exact absurd hi (Nat.not_lt_zero i)
  | succ w ih =>
    rw [ofBits, getLsbD_cons]
    by_cases h : i = w
    · rw [if_pos h, h]
    · rw [if_neg h, ih (by omega)]

def swapBytes (x : BitVec w) : BitVec w := ofBits w fun i => x.getLsbD (w - 8 - i / 8 * 8 + i % 8)

example : swapBytes 0x12345678#32 = 0x78563412#32 := by decide

theorem getLsbD_swapBytes (x : BitVec w) {i : Nat} (hi : i < w) :
    (swapBytes x).getLsbD i = x.getLsbD (w - 8 - i / 8 * 8 + i % 8) := getLsbD_ofBits _ hi

theorem swapBytes_and (x y : BitVec w) : swapBytes (x &&& y) = swapBytes x &&& swapBytes y := by
  apply eq_of_getLsbD_eq
  intro i hi
  simp only [getLsbD_and, getLsbD_swapBytes _ hi]

theorem swapBytes_swapBytes (hw : 8 ∣ w) (x : BitVec w) : swapBytes (swapBytes x) = x := by
  apply eq_of_getLsbD_eq
  intro i hi
  rw [getLsbD_swapBytes _ hi, getLsbD_swapBytes _ (by omega)]
  congr 1
  omega

theorem swapBytes_inj (hw : 8 ∣ w) {x y : BitVec w} : swapBytes x = swapBytes y ↔ x = y := by
  refine ⟨fun h => ?_, fun h => h ▸ rfl⟩
  rw [← swapBytes_swapBytes hw x, h, swapBytes_swapBytes hw]

theorem toNat_swapBytes_16 (x : BitVec 16) :
    (swapBytes x).toNat = x.toNat % 256 * 256 + x.toNat / 256 := by
  have happ : swapBytes x = (x.setWidth 8 ++ (x >>> 8).setWidth 8 : BitVec 16) := by
    apply eq_of_getLsbD_eq
    intro i hi
    rw [getLsbD_swapBytes x hi, getLsbD_append]
    by_cases h : i < 8
    · simp only [h, getLsbD_setWidth, getLsbD_ushiftRight]
      congr 1
      omega
    · simp only [h, getLsbD_setWidth, show i - 8 < 8 by omega]
      congr 1
      omega
  rw [happ, toNat_append, toNat_setWidth, toNat_setWidth, toNat_ushiftRight,
    ← Nat.shiftLeft_add_eq_or_of_lt (Nat.mod_lt _ (by decide))]
  omega

/-! ## Leading bits -/

/-- The mask of all bits but the last `k`. -/
def highMask (w k : Nat) : BitVec w := BitVec.allOnes w <<< k

theorem getLsbD_highMask {k i : Nat} (hi : i < w) : (highMask w k).getLsbD i = decide (k ≤ i) := by
  rw [highMask]
  by_cases h : i < k
  · have : ¬ k ≤ i := by omega
    simp [h]
  · have : i - k < w := by omega
    simp_all

theorem toNat_and_highMask (x : BitVec w) (k : Nat) :
    (x &&& highMask w k).toNat = x.toNat / 2 ^ k * 2 ^ k := by
  have hand : x &&& highMask w k = (x >>> k) <<< k := by
    apply eq_of_getLsbD_eq
    intro i hi
    rw [getLsbD_and, getLsbD_highMask hi, getLsbD_shiftLeft]
    by_cases h : i < k
    · have : ¬ k ≤ i := by omega
      simp [this]
    · have : k ≤ i := by omega
      simp [hi, this]
  rw [hand, toNat_shiftLeft, toNat_ushiftRight, Nat.shiftLeft_eq, shiftRight_eq_div_pow]
  apply mod_eq_of_lt
  exact lt_of_le_of_lt (div_mul_le_self _ _) x.isLt

end Vpp.Lib
