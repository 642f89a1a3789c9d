import Mathlib.Data.BitVec
import Mathlib.Data.List.Chain

/-!
# Serial numbers

32-bit numbers that wrap around, ordered by the sign of their difference. A window is a base number
and a size; the lemmas say where a number stands in terms of its distance from the base. The last
section names the positions of an unbounded stream by their 32-bit remainders.
-/

namespace Vpp.Lib

open BitVec

/-- `a` before `b`: the 32-bit difference is negative. -/
def seqLt (a b : BitVec 32) : Bool := (a - b).toInt < 0

def seqLeq (a b : BitVec 32) : Bool := (a - b).toInt ≤ 0

def seqGt (a b : BitVec 32) : Bool := (a - b).toInt > 0

def seqGeq (a b : BitVec 32) : Bool := (a - b).toInt ≥ 0

/-- How far `a` is ahead of `base`, as an unsigned number. -/
def dist (base a : BitVec 32) : Nat := (a - base).toNat

theorem dist_lt (base a : BitVec 32) : dist base a < 2 ^ 32 := (a - base).isLt

@[simp] theorem dist_self (a : BitVec 32) : dist a a = 0 := by simp [dist]

theorem dist_eq (base a b : BitVec 32) :
    dist a b = (dist base b + (2 ^ 32 - dist base a)) % 2 ^ 32 := by
  have h : b - a = (b - base) - (a - base) := by bv_omega
  unfold dist
  rw [h, toNat_sub, Nat.add_comm]

theorem toInt_sub (a b : BitVec 32) :
    (a - b).toInt = if dist b a < 2 ^ 31 then (dist b a : Int) else (dist b a : Int) - 2 ^ 32 := by
  rw [toInt_eq_toNat_cond]
  unfold dist
  split <;> split <;> omega

theorem seqLt_iff (a b : BitVec 32) : seqLt a b = true ↔ 2 ^ 31 ≤ dist b a := by
  have := dist_lt b a
  simp only [seqLt, toInt_sub, decide_eq_true_eq]
  split <;> omega

theorem seqGeq_iff (a b : BitVec 32) : seqGeq a b = true ↔ dist b a < 2 ^ 31 := by
  have := dist_lt b a
  simp only [seqGeq, toInt_sub, decide_eq_true_eq]
  split <;> omega

theorem seqGt_iff (a b : BitVec 32) : seqGt a b = true ↔ 0 < dist b a ∧ dist b a < 2 ^ 31 := by
  have := dist_lt b a
  simp only [seqGt, toInt_sub, decide_eq_true_eq]
  split <;> omega

theorem seqLeq_iff (a b : BitVec 32) : seqLeq a b = true ↔ dist b a = 0 ∨ 2 ^ 31 ≤ dist b a := by
  have := dist_lt b a
  simp only [seqLeq, toInt_sub, decide_eq_true_eq]
  split <;> omega

theorem seqGt_or_seqLt_of_outside {base stop a : BitVec 32} (h : dist base stop < dist base a) :
    seqGt a stop = true ∨ seqLt a base = true := by
  rw [seqGt_iff, seqLt_iff, dist_eq base stop a]
  omega

theorem inside_of_not {base stop a : BitVec 32} (h1 : seqGt a stop = false)
    (h2 : seqLt a base = false) : dist base a ≤ dist base stop := by
  by_contra h
  rcases seqGt_or_seqLt_of_outside (Nat.lt_of_not_le h) with h' | h'
  · rw [h1] at h'
    cases h'
  · rw [h2] at h'
    cases h'

theorem dist_add (base a : BitVec 32) (n : Nat) (h : dist base a + n < 2 ^ 32) :
    dist base (a + BitVec.ofNat 32 n) = dist base a + n := by
  have he : a + BitVec.ofNat 32 n - base = (a - base) + BitVec.ofNat 32 n := by
    simp only [BitVec.sub_eq_add_neg]
    ac_rfl
  unfold dist at *
  rw [he, toNat_add, toNat_ofNat]
  omega

theorem eq_add_dist (base a : BitVec 32) : a = base + BitVec.ofNat 32 (dist base a) := by
  unfold dist
  rw [ofNat_toNat, setWidth_eq, BitVec.add_comm, BitVec.sub_add_cancel]

theorem dist_add_add (base : BitVec 32) {a b : Nat} (hle : a ≤ b) (hlt : b - a < 2 ^ 32) :
    dist (base + BitVec.ofNat 32 a) (base + BitVec.ofNat 32 b) = b - a := by
  have h : base + BitVec.ofNat 32 b = base + BitVec.ofNat 32 a + BitVec.ofNat 32 (b - a) := by
    rw [BitVec.add_assoc, ← ofNat_add, Nat.add_sub_cancel' hle]
  rw [h, dist_add _ _ _ (by simpa using hlt), dist_self, Nat.zero_add]

/-! ## Going round -/

theorem dist_add_dist (a b c : BitVec 32) : (dist a b + dist b c) % 2 ^ 32 = dist a c := by
  unfold dist
  bv_omega

def travel : List (BitVec 32) → Nat
  | a :: b :: l => dist a b + travel (b :: l)
  | _ => 0

theorem travel_mod (a : BitVec 32) (l : List (BitVec 32)) (c : BitVec 32) :
    travel (a :: (l ++ [c])) % 2 ^ 32 = dist a c := by
  induction l generalizing a with
  | nil =>
    exact Nat.mod_eq_of_lt (dist_lt a c)
  | cons b l ih =>
    rw [List.cons_append, travel, Nat.add_mod, ih b, Nat.mod_eq_of_lt (dist_lt a b), dist_add_dist]

theorem travel_le_append (a : BitVec 32) (l back : List (BitVec 32)) :
    travel (a :: l) ≤ travel (a :: (l ++ back)) := by
  induction l generalizing a with
  | nil => exact Nat.zero_le _
  | cons b l ih =>
    exact Nat.add_le_add_left (ih b) _

variable {l : List (BitVec 32)} {n : Nat}

/-- **Once round.** A list that always goes on and comes back has gone once round. -/
theorem le_travel_of_return {a : BitVec 32}
    (h : (a :: (l ++ [a])).IsChain fun a b => 1 ≤ dist a b) : 2 ^ 32 ≤ travel (a :: (l ++ [a])) := by
  have hpos : 0 < travel (a :: (l ++ [a])) := by
    cases l with
    | nil =>
      have := h.rel
      simp only [List.nil_append, travel]
      omega
    | cons b l =>
      have := h.rel
      simp only [List.cons_append, travel]
      omega
  have hmod := travel_mod a l a
  rw [dist_self] at hmod
  omega

theorem notMem_of_travel_lt {a : BitVec 32}
    (h : (a :: l).IsChain fun a b => 1 ≤ dist a b) (hshort : travel (a :: l) < 2 ^ 32) : a ∉ l := by
  intro hmem
  obtain ⟨front, back, rfl⟩ := List.append_of_mem hmem
  have hsplit : a :: (front ++ a :: back) = (a :: (front ++ [a])) ++ back := by simp
  rw [hsplit] at h hshort
  have hround := le_travel_of_return h.left_of_append
  have hle := travel_le_append a (front ++ [a]) back
  exact absurd (le_trans hround hle) (not_le.mpr hshort)

/-! ## Positions of an unbounded stream -/

abbrev wrap32 (p : Nat) : BitVec 32 := BitVec.ofNat 32 p

theorem toNat_wrap32 (h : n < 2 ^ 32) : (wrap32 n).toNat = n := by
  rw [toNat_ofNat, Nat.mod_eq_of_lt h]

theorem wrap32_toNat (x : BitVec 32) : wrap32 x.toNat = x :=
  (ofNat_toNat 32 x).trans (setWidth_eq _)

theorem wrap32_eq_zero (h : n < 2 ^ 32) : wrap32 n = 0 ↔ n = 0 := by
  constructor
  · intro h0
    rw [← toNat_wrap32 h, h0]
    rfl
  · rintro rfl
    rfl

theorem wrap32_inj {a b : Nat} (hle : a ≤ b) (hlt : b < a + 2 ^ 32) :
    wrap32 a = wrap32 b ↔ a = b := by
  constructor
  · intro h
    have h := congrArg BitVec.toNat h
    rw [toNat_ofNat, toNat_ofNat] at h
    omega
  · rintro rfl
    rfl

theorem toInt_wrap32 (h : n < 2 ^ 31) : (wrap32 n).toInt = n := by
  rw [toInt_eq_toNat_cond, toNat_wrap32 (by omega), if_pos (by omega)]

theorem wrap32_add (a b : Nat) : wrap32 a + wrap32 b = wrap32 (a + b) :=
  (ofNat_add a b).symm

theorem wrap32_sub {a b : Nat} (h : b ≤ a) : wrap32 a - wrap32 b = wrap32 (a - b) := by
  apply eq_of_toNat_eq
  rw [toNat_sub, toNat_ofNat, toNat_ofNat, toNat_ofNat]
  omega

variable {a b : Nat}

theorem wrap32_le (ha : a < 2 ^ 32) (hb : b < 2 ^ 32) : wrap32 a ≤ wrap32 b ↔ a ≤ b := by
  rw [le_def, toNat_wrap32 ha, toNat_wrap32 hb]

theorem wrap32_lt (ha : a < 2 ^ 32) (hb : b < 2 ^ 32) : wrap32 a < wrap32 b ↔ a < b := by
  rw [lt_def, toNat_wrap32 ha, toNat_wrap32 hb]

theorem dist_wrap32 : dist (wrap32 b) (wrap32 a) = (2 ^ 32 - b % 2 ^ 32 + a % 2 ^ 32) % 2 ^ 32 := by
  unfold dist
  rw [toNat_sub, toNat_ofNat, toNat_ofNat]

theorem seqLt_wrap32 (h₁ : a < b + 2 ^ 31) (h₂ : b ≤ a + 2 ^ 31) :
    seqLt (wrap32 a) (wrap32 b) = decide (a < b) := by
  rw [Bool.eq_iff_iff, seqLt_iff, dist_wrap32, decide_eq_true_eq]
  omega

theorem seqLeq_wrap32 (h₁ : a < b + 2 ^ 31) (h₂ : b ≤ a + 2 ^ 31) :
    seqLeq (wrap32 a) (wrap32 b) = decide (a ≤ b) := by
  rw [Bool.eq_iff_iff, seqLeq_iff, dist_wrap32, decide_eq_true_eq]
  omega

theorem seqGt_wrap32 (h₁ : a < b + 2 ^ 31) (h₂ : b ≤ a + 2 ^ 31) :
    seqGt (wrap32 a) (wrap32 b) = decide (b < a) := by
  rw [Bool.eq_iff_iff, seqGt_iff, dist_wrap32, decide_eq_true_eq]
  omega

theorem seqGeq_wrap32 (h₁ : a < b + 2 ^ 31) (h₂ : b ≤ a + 2 ^ 31) :
    seqGeq (wrap32 a) (wrap32 b) = decide (b ≤ a) := by
  rw [Bool.eq_iff_iff, seqGeq_iff, dist_wrap32, decide_eq_true_eq]
  omega

end Vpp.Lib
