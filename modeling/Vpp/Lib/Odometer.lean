import Mathlib.Data.BitVec

/-!
# A counter and its wheels

A counter in base `b` turns wheels; wheel `k` stands at the digit of order `k`. Two counters are in the
same block of order `k` when they agree above the first `k` wheels. The lemmas say how two counters
compare from the first wheel they differ in, how the wheels of a sum come out of an addition with
carry, and how the wheels move when the counter does.
-/

namespace Vpp.Lib

open Nat

variable {b : Nat}

def block (b k n : Nat) : Nat := n / b ^ k

def wheel (b k n : Nat) : Nat := block b k n % b

@[simp] theorem block_zero (b n : Nat) : block b 0 n = n := Nat.div_one n

theorem block_one (b n : Nat) : block b 1 n = n / b := by rw [block, Nat.pow_one]

theorem block_succ (b k n : Nat) : block b (k + 1) n = block b k n / b := by
  rw [block, block, Nat.pow_succ, Nat.div_div_eq_div_mul]

theorem wheel_lt (hb : 0 < b) (k n : Nat) : wheel b k n < b := mod_lt _ hb

@[simp] theorem wheel_order_zero (b n : Nat) : wheel b 0 n = n % b := by rw [wheel, block_zero]

theorem wheel_order_one (b n : Nat) : wheel b 1 n = n / b % b := by rw [wheel, block_one]

/-! ## Blocks -/

variable {t d k : Nat}

theorem block_eq (h : block b (k + 1) d = block b (k + 1) t)
    (hw : wheel b k d = wheel b k t) : block b k d = block b k t := by
  rw [block_succ, block_succ] at h
  rw [wheel, wheel] at hw
  rw [← div_add_mod (block b k d) b, ← div_add_mod (block b k t) b, h, hw]

theorem block_le (htd : t ≤ d) : block b k t ≤ block b k d := Nat.div_le_div_right htd

theorem block_lt (htd : t ≤ d) (hw : wheel b k d ≠ wheel b k t) : block b k t < block b k d := by
  refine Nat.lt_of_le_of_ne (block_le htd) fun h => hw ?_
  rw [wheel, wheel, h]

/-- The first `k` wheels stand at zero. -/
def AtStart (b k n : Nat) : Prop := n % b ^ k = 0

instance (b k n : Nat) : Decidable (AtStart b k n) := inferInstanceAs (Decidable (_ = _))

variable {n : Nat}

theorem AtStart.of_succ (h : AtStart b (k + 1) n) : AtStart b k n :=
  Nat.mod_eq_zero_of_dvd (Nat.dvd_trans (Nat.pow_dvd_pow b k.le_succ) (Nat.dvd_of_mod_eq_zero h))

theorem AtStart.wheel_eq_zero (h : AtStart b (k + 1) n) : wheel b k n = 0 := by
  have := mod_mul_right_div_self n (b ^ k) b
  rw [wheel, block, ← this, ← Nat.pow_succ, h, Nat.zero_div]

theorem atStart_zero : AtStart b 0 n := mod_one n

theorem atStart_succ_iff : AtStart b (k + 1) n ↔ AtStart b k n ∧ wheel b k n = 0 := by
  refine ⟨fun h => ⟨h.of_succ, h.wheel_eq_zero⟩, fun ⟨h, hw⟩ => mod_eq_zero_of_dvd ?_⟩
  have hdvd := Nat.mul_dvd_mul_left (b ^ k) (Nat.dvd_of_mod_eq_zero hw)
  rwa [block, Nat.mul_div_cancel' (Nat.dvd_of_mod_eq_zero h), ← Nat.pow_succ] at hdvd

theorem AtStart.sub_eq_mod (ht : AtStart b k t) (h : block b k d = block b k t) :
    d - t = d % b ^ k := by
  have hd := div_add_mod d (b ^ k)
  have htt := div_add_mod t (b ^ k)
  rw [block, block] at h
  rw [h] at hd
  rw [ht, Nat.add_zero] at htt
  rw [htt] at hd
  exact Nat.sub_eq_of_eq_add' hd.symm

theorem AtStart.le (ht : AtStart b k t) (h : block b k t ≤ block b k d) : t ≤ d := by
  have htt := div_add_mod t (b ^ k)
  rw [ht] at htt
  calc t = b ^ k * block b k t := htt.symm
    _ ≤ b ^ k * block b k d := Nat.mul_le_mul_left _ h
    _ ≤ d := mul_div_le d _

/-! ## Addition with carry -/

def carry (b x y c : Nat) : Nat := if b ≤ x % b + y % b + c then 1 else 0

theorem carry_le (b x y c : Nat) : carry b x y c ≤ 1 := by
  unfold carry
  split <;> omega

theorem add_carry_div (hb : 0 < b) {x y c : Nat} (hc : c ≤ 1) :
    (x + y + c) / b = x / b + y / b + carry b x y c := by
  have hx := div_add_mod x b
  have hy := div_add_mod y b
  have hxl := mod_lt x hb
  have hyl := mod_lt y hb
  unfold carry
  have hsum : x + y + c = b * (x / b + y / b) + (x % b + y % b + c) := by
    rw [Nat.mul_add]
    omega
  have hr : x % b + y % b + c < 2 * b := by omega
  rw [hsum, mul_add_div hb]
  split
  · rename_i h
    generalize x % b + y % b + c = r at h hr ⊢
    rw [Nat.div_eq_of_lt_le (by omega) (by omega : r < (1 + 1) * b)]
  · rename_i h
    rw [div_eq_of_lt (Nat.lt_of_not_le h)]

theorem add_carry_mod (b x y c : Nat) : (x + y + c) % b = (x % b + y % b + c) % b := by
  rw [add_mod (x + y) c b, add_mod x y b, add_mod (x % b + y % b) c b]

/-! ## The wheels of a running counter -/

/-- Where an index stands that counts up to `b` before it starts over. -/
def wheelIndex (b k n : Nat) : Nat := if 0 < n ∧ AtStart b (k + 1) n then b else wheel b k n

theorem wheelIndex_mod : wheelIndex b k n % b = wheel b k n := by
  unfold wheelIndex
  split
  · rename_i h
    rw [mod_self, h.2.wheel_eq_zero]
  · exact mod_mod _ _

theorem wheelIndex_eq_iff (hb : 0 < b) : wheelIndex b k n = b ↔ 0 < n ∧ AtStart b (k + 1) n := by
  have := wheel_lt hb k n
  unfold wheelIndex
  split
  · rename_i h
    exact ⟨fun _ => h, fun _ => rfl⟩
  · rename_i h
    refine ⟨fun e => ?_, fun e => absurd e h⟩
    omega

theorem block_add_one (b k n : Nat) :
    block b k (n + 1) = block b k n + if AtStart b k (n + 1) then 1 else 0 := by
  rw [block, Nat.succ_div]
  simp only [dvd_iff_mod_eq_zero]
  rfl

theorem wheelIndex_add_one (hb : 0 < b) (k n : Nat) :
    wheelIndex b k (n + 1) = wheel b k n + if AtStart b k (n + 1) then 1 else 0 := by
  have hblock := block_add_one b k n
  have hlt := wheel_lt hb k n
  have hw : wheel b k (n + 1) = (wheel b k n + if AtStart b k (n + 1) then 1 else 0) % b := by
    rw [wheel, hblock, wheel, mod_add_mod]
  unfold wheelIndex
  split
  · rename_i h
    have hz := h.2.wheel_eq_zero
    have hk := h.2.of_succ
    rw [if_pos hk] at hw ⊢
    have hdvd := dvd_of_mod_eq_zero (hw.symm.trans hz)
    have := le_of_dvd (succ_pos _) hdvd
    omega
  · rename_i h
    have hns : ¬ AtStart b (k + 1) (n + 1) := fun hs => h ⟨succ_pos n, hs⟩
    rw [hw]
    split
    · rename_i hk
      rw [if_pos hk] at hw
      have hne : wheel b k (n + 1) ≠ 0 := fun hz => hns (atStart_succ_iff.mpr ⟨hk, hz⟩)
      refine Nat.mod_eq_of_lt (Nat.lt_of_le_of_ne hlt fun heq => hne ?_)
      rw [hw, show wheel b k n + 1 = b from heq, Nat.mod_self]
    · exact mod_eq_of_lt hlt

theorem wheelIndex_moves (hb : 0 < b) :
    (if wheelIndex b k (n + 1) = b then wheel b (k + 1) n + 1 else wheel b (k + 1) n) =
      wheelIndex b (k + 1) (n + 1) := by
  have hiff : wheelIndex b k (n + 1) = b ↔ AtStart b (k + 1) (n + 1) := by
    rw [wheelIndex_eq_iff hb]
    exact and_iff_right (succ_pos n)
  rw [wheelIndex_add_one hb (k + 1)]
  by_cases h : AtStart b (k + 1) (n + 1)
  · rw [if_pos (hiff.mpr h), if_pos h]
  · rw [if_neg (mt hiff.mp h), if_neg h]
    rfl

end Vpp.Lib
