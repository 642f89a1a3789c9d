import Mathlib.Data.Rat.Floor
import Mathlib.Tactic.Positivity

/-!
# Double precision arithmetic

The finite doubles as rational numbers. Every operation is the exact one followed by `fl`, which keeps
53 significant bits and rounds to nearest with ties to even. The range of the exponent is not
bounded, so there is no overflow and no gradual underflow. What the proofs need of rounding is coarse:
a positive number stays within a factor of two.
-/

namespace Vpp.Lib

/-- The integer nearest to `n / d`, the even one of two. -/
def nearest (n d : Nat) : Nat :=
  if 2 * (n % d) < d ∨ 2 * (n % d) = d ∧ n / d % 2 = 0 then n / d else n / d + 1

/-- The power of two that brings `p / q` between `2 ^ 52` and `2 ^ 53`. -/
def scale (p q : Nat) : Int :=
  let s : Int := 52 - (Nat.log2 p - Nat.log2 q)
  if p * 2 ^ s.toNat < q * 2 ^ (-s).toNat * 2 ^ 52 then s + 1 else s

def fl (x : ℚ) : ℚ :=
  let s := scale x.num.natAbs x.den
  let m := nearest (x.num.natAbs * 2 ^ s.toNat) (x.den * 2 ^ (-s).toNat)
  x.num.sign * (m * 2 ^ (-s).toNat / 2 ^ s.toNat)

namespace F64

def ofNat (n : Nat) : ℚ := fl n

def add (x y : ℚ) : ℚ := fl (x + y)

def sub (x y : ℚ) : ℚ := fl (x - y)

def mul (x y : ℚ) : ℚ := fl (x * y)

def div (x y : ℚ) : ℚ := fl (x / y)

def toInt (x : ℚ) : Int := if 0 ≤ x then ⌊x⌋ else ⌈x⌉

end F64

/-! ## Rounding stays within a factor of two -/

theorem nearest_ge (n d : Nat) : n / d ≤ nearest n d := by
  unfold nearest
  split <;> omega

theorem nearest_le (n d : Nat) : nearest n d ≤ n / d + 1 := by
  unfold nearest
  split <;> omega

theorem scale_spec {p q : Nat} (hp : 0 < p) (hq : 0 < q) :
    q * 2 ^ (-scale p q).toNat * 2 ^ 52 ≤ p * 2 ^ (scale p q).toNat ∧
      p * 2 ^ (scale p q).toNat < q * 2 ^ (-scale p q).toNat * 2 ^ 53 := by
  have hp₁ := Nat.log2_self_le (ne_of_gt hp)
  have hq₁ := Nat.log2_self_le (ne_of_gt hq)
  have hp₂ : p < 2 ^ (Nat.log2 p + 1) := Nat.lt_log2_self
  have hq₂ : q < 2 ^ (Nat.log2 q + 1) := Nat.lt_log2_self
  unfold scale
  generalize hs : (52 - ((Nat.log2 p : Int) - Nat.log2 q)) = s
  have hexp : Nat.log2 p + s.toNat = Nat.log2 q + (-s).toNat + 52 := by omega
  have hpow : 2 ^ Nat.log2 p * 2 ^ s.toNat = 2 ^ Nat.log2 q * 2 ^ (-s).toNat * 2 ^ 52 := by
    rw [← pow_add, ← pow_add, ← pow_add, hexp]
  rw [pow_succ] at hp₂ hq₂
  generalize 2 ^ Nat.log2 p = P at hp₁ hp₂ hpow
  generalize 2 ^ Nat.log2 q = Q at hq₁ hq₂ hpow
  -- before the correction the scaled number is between `2 ^ 51` and `2 ^ 53`
  have hlow : q * 2 ^ (-s).toNat * 2 ^ 51 < p * 2 ^ s.toNat := by
    calc q * 2 ^ (-s).toNat * 2 ^ 51
        < Q * 2 * 2 ^ (-s).toNat * 2 ^ 51 := by gcongr
      _ = P * 2 ^ s.toNat := by rw [hpow]; ring
      _ ≤ p * 2 ^ s.toNat := by gcongr
  have hhigh : p * 2 ^ s.toNat < q * 2 ^ (-s).toNat * 2 ^ 53 := by
    calc p * 2 ^ s.toNat < P * 2 * 2 ^ s.toNat := by gcongr
      _ = Q * 2 ^ (-s).toNat * 2 ^ 53 := by rw [mul_right_comm, hpow]; ring
      _ ≤ q * 2 ^ (-s).toNat * 2 ^ 53 := by gcongr
  dsimp only
  split
  · rename_i hlt
    rcases lt_or_ge s 0 with hneg | hpos
    · have h₁ : (s + 1).toNat = s.toNat := by omega
      have h₂ : (-s).toNat = (-(s + 1)).toNat + 1 := by omega
      rw [h₁]
      rw [h₂, pow_succ] at hlow hlt
      constructor
      · calc q * 2 ^ (-(s + 1)).toNat * 2 ^ 52
            = q * (2 ^ (-(s + 1)).toNat * 2) * 2 ^ 51 := by ring
          _ ≤ p * 2 ^ s.toNat := le_of_lt hlow
      · calc p * 2 ^ s.toNat < q * (2 ^ (-(s + 1)).toNat * 2) * 2 ^ 52 := hlt
          _ = q * 2 ^ (-(s + 1)).toNat * 2 ^ 53 := by ring
    · have h₁ : (s + 1).toNat = s.toNat + 1 := by omega
      have h₂ : (-(s + 1)).toNat = (-s).toNat := by omega
      rw [h₁, h₂, pow_succ]
      constructor
      · calc q * 2 ^ (-s).toNat * 2 ^ 52 = q * 2 ^ (-s).toNat * 2 ^ 51 * 2 := by ring
          _ ≤ p * 2 ^ s.toNat * 2 := by gcongr
          _ = p * (2 ^ s.toNat * 2) := by ring
      · calc p * (2 ^ s.toNat * 2) = p * 2 ^ s.toNat * 2 := by ring
          _ < q * 2 ^ (-s).toNat * 2 ^ 52 * 2 := by gcongr
          _ = q * 2 ^ (-s).toNat * 2 ^ 53 := by ring
  · rename_i hge
    exact ⟨Nat.le_of_not_lt hge, hhigh⟩

theorem fl_bounds {x : ℚ} (hx : 0 < x) : x / 2 ≤ fl x ∧ fl x ≤ 2 * x := by
  have hnum : 0 < x.num := Rat.num_pos.mpr hx
  have hp : 0 < x.num.natAbs := by omega
  obtain ⟨hlow, hhigh⟩ := scale_spec hp x.pos
  have hxe : x = (x.num.natAbs : ℚ) / (x.den : ℚ) := by
    rw [Nat.cast_natAbs, abs_of_pos hnum]
    exact (Rat.num_div_den x).symm
  unfold fl
  rw [Int.sign_eq_one_of_pos hnum, Int.cast_one, one_mul]
  generalize scale x.num.natAbs x.den = s at hlow hhigh
  have hq := x.pos
  generalize x.num.natAbs = p at hxe hlow hhigh hp
  generalize x.den = q at hxe hlow hhigh hq
  subst hxe
  have hm₁ := nearest_ge (p * 2 ^ s.toNat) (q * 2 ^ (-s).toNat)
  have hm₂ := nearest_le (p * 2 ^ s.toNat) (q * 2 ^ (-s).toNat)
  generalize nearest (p * 2 ^ s.toNat) (q * 2 ^ (-s).toNat) = m at hm₁ hm₂
  have hd : 0 < q * 2 ^ (-s).toNat := mul_pos hq (Nat.two_pow_pos _)
  have hm : 2 ^ 52 ≤ m := by
    refine le_trans ((Nat.le_div_iff_mul_le hd).mpr ?_) hm₁
    linarith
  -- the same bounds between integers, before dividing
  have h₁ : p * 2 ^ s.toNat ≤ 2 * m * (q * 2 ^ (-s).toNat) := by nlinarith
  have h₂ : m * (q * 2 ^ (-s).toNat) ≤ 2 * (p * 2 ^ s.toNat) := by
    have := Nat.div_mul_le_self (p * 2 ^ s.toNat) (q * 2 ^ (-s).toNat)
    nlinarith
  have h₁' : (p : ℚ) * 2 ^ s.toNat ≤ 2 * m * (q * 2 ^ (-s).toNat) := by exact_mod_cast h₁
  have h₂' : (m : ℚ) * (q * 2 ^ (-s).toNat) ≤ 2 * (p * 2 ^ s.toNat) := by exact_mod_cast h₂
  constructor
  · rw [div_div, div_le_div_iff₀ (by positivity) (by positivity)]
    linarith
  · rw [mul_div_assoc', div_le_div_iff₀ (by positivity) (by positivity)]
    linarith

theorem fl_pos {x : ℚ} (hx : 0 < x) : 0 < fl x := by
  have := (fl_bounds hx).1
  linarith

end Vpp.Lib
