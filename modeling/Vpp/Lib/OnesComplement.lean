import Mathlib.Data.BitVec
import Mathlib.Algebra.BigOperators.Group.List.Basic
import Mathlib.Tactic.Ring

/-!
# Ones' complement sums of byte strings

The sum of 16-bit words with end-around carry, `onesSum`, depends on the plain sum of the words only:
it is the representative `residue` of that sum modulo `2 ^ 16 - 1` that is zero just for the sum zero.
`digitSum k i` adds up the bytes of a string as the digits of little endian words of `k` bytes, the
first byte being the one with the number `i`; modulo `2 ^ 16 - 1` the width of the words does not
matter as long as it is even, and one byte more or less in front multiplies by 256.
-/

namespace Vpp.Lib

open List

/-! ## End-around carry -/

def addCarry (a b : Nat) : Nat := (a + b) % 2 ^ 16 + (a + b) / 2 ^ 16

def onesSum (ws : List Nat) : Nat := ws.foldl addCarry 0

def residue (s : Nat) : Nat := if s = 0 then 0 else (s - 1) % 65535 + 1

theorem residue_le (s : Nat) : residue s ≤ 65535 := by
  unfold residue
  split <;> omega

theorem residue_modEq (s : Nat) : residue s ≡ s [MOD 65535] := by
  unfold residue Nat.ModEq
  split <;> omega

theorem residue_eq_zero {s : Nat} : residue s = 0 ↔ s = 0 := by
  unfold residue
  split <;> omega

variable {bs : List (BitVec 8)} {s : Nat}

theorem eq_residue {r : Nat} (hr : r ≤ 65535) (hmod : r ≡ s [MOD 65535]) (hz : r = 0 ↔ s = 0) :
    r = residue s := by
  unfold Nat.ModEq at hmod
  unfold residue
  split <;> omega

theorem residue_eq_residue_iff {t : Nat} :
    residue s = residue t ↔ s ≡ t [MOD 65535] ∧ (s = 0 ↔ t = 0) := by
  refine ⟨fun h => ⟨?_, ?_⟩, fun ⟨hmod, hz⟩ => eq_residue (residue_le s) ((residue_modEq s).trans hmod)
    (residue_eq_zero.trans hz)⟩
  · exact (residue_modEq s).symm.trans (h ▸ residue_modEq t)
  · rw [← @residue_eq_zero s, h, residue_eq_zero]

theorem addCarry_residue (w : Nat) (hw : w < 2 ^ 16) : addCarry (residue s) w = residue (s + w) := by
  have hle := residue_le s
  have hmod := residue_modEq s
  have hz := @residue_eq_zero s
  unfold Nat.ModEq at hmod
  apply eq_residue
  · unfold addCarry
    omega
  · unfold addCarry Nat.ModEq
    omega
  · unfold addCarry
    omega

theorem onesSum_eq_residue {ws : List Nat} (hws : ∀ w ∈ ws, w < 2 ^ 16) :
    onesSum ws = residue ws.sum := by
  have hfold : ∀ s : Nat, ws.foldl addCarry (residue s) = residue (s + ws.sum) := by
    induction ws with
    | nil => exact fun s => rfl
    | cons w ws ih =>
      intro s
      rw [foldl_cons, addCarry_residue w (hws w mem_cons_self), sum_cons, ← add_assoc]
      exact ih (fun v hv => hws v (mem_cons_of_mem w hv)) (s + w)
  have := hfold 0
  rwa [zero_add] at this

/-! ## Byte strings -/

/-- The big endian 16-bit words of a byte string, the last one padded with a zero byte. -/
def netWords : List (BitVec 8) → List Nat
  | [] => []
  | [a] => [256 * a.toNat]
  | a :: b :: bs => (256 * a.toNat + b.toNat) :: netWords bs

/-- The bytes as digits of little endian words of `k` bytes, the first byte having number `i`. -/
def digitSum (k i : Nat) : List (BitVec 8) → Nat
  | [] => 0
  | b :: bs => b.toNat * 256 ^ (i % k) + digitSum k (i + 1) bs

@[simp] theorem digitSum_nil (k i : Nat) : digitSum k i [] = 0 := rfl

@[simp] theorem digitSum_cons (k i : Nat) (b : BitVec 8) :
    digitSum k i (b :: bs) = b.toNat * 256 ^ (i % k) + digitSum k (i + 1) bs := rfl

theorem digitSum_append (k i : Nat) (as bs : List (BitVec 8)) :
    digitSum k i (as ++ bs) = digitSum k i as + digitSum k (i + as.length) bs := by
  induction as generalizing i with
  | nil => simp
  | cons a as ih => rw [cons_append, digitSum_cons, digitSum_cons, ih, length_cons]; ring_nf

theorem digitSum_of_mod_eq {k i j : Nat} (h : i % k = j % k) : digitSum k i bs = digitSum k j bs := by
  induction bs generalizing i j with
  | nil => rfl
  | cons b bs ih =>
    have hs : (i + 1) % k = (j + 1) % k := by rw [Nat.add_mod, h, ← Nat.add_mod]
    rw [digitSum_cons, digitSum_cons, h, ih hs]

theorem digitSum_eq_zero {k i : Nat} : digitSum k i bs = 0 ↔ ∀ b ∈ bs, b = 0#8 := by
  induction bs generalizing i with
  | nil => simp
  | cons b bs ih =>
    have hb : b.toNat * 256 ^ (i % k) = 0 ↔ b = 0#8 := by
      rw [Nat.mul_eq_zero, or_iff_left (Nat.pow_pos (by decide)).ne', ← BitVec.toNat_inj,
        BitVec.toNat_ofNat]
    rw [digitSum_cons, Nat.add_eq_zero_iff, hb, ih, forall_mem_cons]

/-- **The width of the words** does not matter. -/
theorem digitSum_modEq {k : Nat} (hk : 2 ∣ k) (i : Nat) : digitSum k i bs ≡ digitSum 2 i bs [MOD 65535] := by
  induction bs generalizing i with
  | nil => rfl
  | cons b bs ih =>
    have hpow : 256 ^ (i % k) ≡ 256 ^ (i % 2) [MOD 65535] := by
      conv_lhs => rw [← Nat.div_add_mod (i % k) 2, Nat.mod_mod_of_dvd i hk, pow_add, pow_mul]
      have hsq : (256 ^ 2) ^ (i % k / 2) ≡ 1 ^ (i % k / 2) [MOD 65535] := Nat.ModEq.pow _ rfl
      rw [one_pow] at hsq
      simpa using hsq.mul_right (256 ^ (i % 2))
    exact (hpow.mul_left _).add (ih (i + 1))

/-- **A byte more in front** multiplies by 256. -/
theorem mul_digitSum_modEq (i : Nat) : 256 * digitSum 2 i bs ≡ digitSum 2 (i + 1) bs [MOD 65535] := by
  induction bs generalizing i with
  | nil => rfl
  | cons b bs ih =>
    have hp : 256 * 256 ^ (i % 2) ≡ 256 ^ ((i + 1) % 2) [MOD 65535] := by
      rcases Nat.mod_two_eq_zero_or_one i with h | h
      · rw [h, show (i + 1) % 2 = 1 by omega]
        rfl
      · rw [h, show (i + 1) % 2 = 0 by omega]
        rfl
    rw [digitSum_cons, mul_add, mul_left_comm]
    exact (hp.mul_left _).add (ih (i + 1))

theorem sum_netWords : (netWords bs).sum = digitSum 2 1 bs := by
  induction bs using netWords.induct with
  | case1 => rfl
  | case2 a => simp [netWords, mul_comm]
  | case3 a b bs ih =>
    have hnext : digitSum 2 3 bs = digitSum 2 1 bs := digitSum_of_mod_eq (by decide)
    simp [netWords, ih, hnext, mul_comm, add_assoc]

theorem netWords_lt : ∀ w ∈ netWords bs, w < 2 ^ 16 := by
  induction bs using netWords.induct with
  | case1 => simp [netWords]
  | case2 a =>
    simp only [netWords, mem_singleton]
    omega
  | case3 a b bs ih =>
    simp only [netWords, forall_mem_cons]
    exact ⟨by omega, ih⟩

end Vpp.Lib
