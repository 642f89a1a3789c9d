import Mathlib.Data.BitVec

/-!
# Prefixes and longest matches

A prefix is a number of leading bits. Prefixes are ordered by covering, and the prefixes that cover
one and the same prefix form a chain. In a table from prefixes to values, the longest match of a prefix
is the longest one in the table that covers it; the lemmas say how it changes when the table does, and
how the matches of a prefix and of the prefixes it covers are related.
-/

namespace Vpp.Lib

open Nat (div_add_mod' mod_lt mul_assoc pow_add two_pow_pos)

structure Prefix where
  len : Nat
  val : Nat
deriving DecidableEq, Repr

variable {w : Nat}

variable {W : Nat}

namespace Prefix

variable {p q r : Prefix}

/-- The first bits of `q` are those of `p`. -/
def Covers (p q : Prefix) : Prop := p.len ≤ q.len ∧ q.val / 2 ^ (q.len - p.len) = p.val

instance (p q : Prefix) : Decidable (Covers p q) := inferInstanceAs (Decidable (_ ∧ _))

theorem Covers.refl (p : Prefix) : Covers p p := ⟨Nat.le_refl _, by simp⟩

theorem Covers.trans (h : Covers p q) (h' : Covers q r) : Covers p r := by
  refine ⟨Nat.le_trans h.1 h'.1, ?_⟩
  rw [← h.2, ← h'.2, Nat.div_div_eq_div_mul, ← pow_add]
  congr 2
  have := h.1
  have := h'.1
  omega

theorem Covers.linear (h : Covers p r) (h' : Covers q r) (hle : p.len ≤ q.len) : Covers p q := by
  refine ⟨hle, ?_⟩
  rw [← h.2, ← h'.2, Nat.div_div_eq_div_mul, ← pow_add]
  congr 2
  have := h'.1
  omega

theorem Covers.antisymm (h : Covers p q) (hle : q.len ≤ p.len) : p = q := by
  have hlen : p.len = q.len := Nat.le_antisymm h.1 hle
  have hval := h.2
  cases p
  cases q
  simp_all

/-- The prefix with `w` more bits. -/
def child (q : Prefix) (w i : Nat) : Prefix := ⟨q.len + w, q.val * 2 ^ w + i⟩

theorem covers_child {i : Nat} (hi : i < 2 ^ w) : Covers q (q.child w i) := by
  refine ⟨Nat.le_add_right _ _, ?_⟩
  simp only [child, Nat.add_sub_cancel_left]
  rw [Nat.mul_comm, Nat.mul_add_div (two_pow_pos w), Nat.div_eq_of_lt hi, Nat.add_zero]

theorem exists_child (h : Covers q p) (hw : q.len + w ≤ p.len) : ∃ i < 2 ^ w, Covers (q.child w i) p := by
  refine ⟨p.val / 2 ^ (p.len - (q.len + w)) % 2 ^ w, mod_lt _ (two_pow_pos w), hw, ?_⟩
  have hq : p.val / 2 ^ (p.len - (q.len + w)) / 2 ^ w = q.val := by
    rw [Nat.div_div_eq_div_mul, ← pow_add, ← h.2]
    congr 2
    omega
  simp only [child]
  rw [← hq, div_add_mod']

theorem exists_child_below (h : Covers q p) (hw : p.len ≤ q.len + w) :
    ∃ i < 2 ^ w, Covers p (q.child w i) := by
  have hle := h.1
  obtain ⟨m, hm⟩ := Nat.exists_eq_add_of_le hw
  obtain ⟨n, hn⟩ := Nat.exists_eq_add_of_le hle
  have hval := h.2
  rw [hn, Nat.add_sub_cancel_left] at hval
  have hpow : 2 ^ w = 2 ^ n * 2 ^ m := by
    rw [← pow_add]
    congr 1
    omega
  refine ⟨p.val % 2 ^ n * 2 ^ m, ?_, hw, ?_⟩
  · rw [hpow]
    exact Nat.mul_lt_mul_of_pos_right (mod_lt _ (two_pow_pos n)) (two_pow_pos m)
  have hlen : (q.child w (p.val % 2 ^ n * 2 ^ m)).len - p.len = m := by
    simp only [child]
    omega
  rw [hlen]
  simp only [child]
  rw [hpow, ← mul_assoc, ← Nat.add_mul, Nat.mul_div_cancel _ (two_pow_pos m), ← hval,
    div_add_mod']

/-! ### The children a prefix spans -/

def Comparable (p q : Prefix) : Prop := Covers p q ∨ Covers q p

theorem Comparable.up {i : Nat} (hi : i < 2 ^ w) (h : Comparable p (q.child w i)) : Comparable p q := by
  rcases h with h | h
  · rcases Nat.le_total p.len q.len with hle | hle
    · exact .inl (h.linear (covers_child hi) hle)
    · exact .inr ((covers_child hi).linear h hle)
  · exact .inr ((covers_child hi).trans h)

theorem Comparable.covers (h : Comparable p q) (hle : p.len ≤ q.len) : Covers p q := by
  rcases h with h | h
  · exact h
  · exact h.antisymm hle ▸ Covers.refl _

theorem Comparable.covered (h : Comparable p q) (hle : q.len ≤ p.len) : Covers q p :=
  Comparable.covers (h.symm) hle

/-- The first child of `q` under `p`, when prefixes are kept as numbers of `W` bits. -/
def firstChild (W w : Nat) (p q : Prefix) : Nat :=
  p.val * 2 ^ (W - p.len) / 2 ^ (W - (q.len + w)) % 2 ^ w

/-- How many children of `q`, as a power of two, are under `p`. -/
def childBits (w : Nat) (p q : Prefix) : Nat := min w (q.len + w - p.len)

theorem firstChild_of_le (hp : p.len ≤ q.len + w) (hW : q.len + w ≤ W) :
    firstChild W w p q = p.val * 2 ^ (q.len + w - p.len) % 2 ^ w := by
  have hpow : 2 ^ (W - p.len) = 2 ^ (q.len + w - p.len) * 2 ^ (W - (q.len + w)) := by
    rw [← pow_add]
    congr 1
    omega
  rw [firstChild, hpow, ← mul_assoc, Nat.mul_div_cancel _ (two_pow_pos _)]

theorem firstChild_of_ge (hp : q.len + w ≤ p.len) (hW : p.len ≤ W) :
    firstChild W w p q = p.val / 2 ^ (p.len - (q.len + w)) % 2 ^ w := by
  have hpow : 2 ^ (W - (q.len + w)) = 2 ^ (p.len - (q.len + w)) * 2 ^ (W - p.len) := by
    rw [← pow_add]
    congr 1
    omega
  rw [firstChild, hpow, Nat.mul_div_mul_right _ _ (two_pow_pos _)]

theorem dvd_firstChild (hW : q.len + w ≤ W) : 2 ^ (q.len + w - p.len) ∣ firstChild W w p q := by
  rcases Nat.le_total p.len (q.len + w) with hle | hle
  · rw [firstChild_of_le hle hW]
    rcases Nat.le_total (q.len + w - p.len) w with hm | hm
    · exact (Nat.dvd_mod_iff (Nat.pow_dvd_pow 2 hm)).mpr (Nat.dvd_mul_left _ _)
    · rw [Nat.mod_eq_zero_of_dvd (Nat.dvd_trans (Nat.pow_dvd_pow 2 hm) (Nat.dvd_mul_left _ _))]
      exact Nat.dvd_zero _
  · rw [Nat.sub_eq_zero_of_le hle]
    exact Nat.one_dvd _

/-- The children of `q` that are comparable with `p` are a range. -/
def Spans (W w : Nat) (p q : Prefix) : Prop :=
  firstChild W w p q + 2 ^ childBits w p q ≤ 2 ^ w ∧
    ∀ i < 2 ^ w, (firstChild W w p q ≤ i ∧ i < firstChild W w p q + 2 ^ childBits w p q) ↔
      Comparable p (q.child w i)

theorem firstChild_of_above (h : Covers p q) (hW : q.len + w ≤ W) : firstChild W w p q = 0 := by
  have hle := h.1
  rw [firstChild_of_le (by omega) hW, show q.len + w - p.len = (q.len - p.len) + w by omega,
    pow_add, ← mul_assoc, Nat.mul_mod_left]

theorem childBits_of_above (h : Covers p q) : childBits w p q = w := by
  have hle := h.1
  unfold childBits
  omega

theorem spans_of_above (h : Covers p q) (hW : q.len + w ≤ W) : Spans W w p q := by
  rw [Spans, firstChild_of_above h hW, childBits_of_above h]
  refine ⟨by omega, fun i hi => ⟨fun _ => .inl (h.trans (covers_child hi)), fun _ => by omega⟩⟩

theorem spans_of_within (h : Covers q p) (hp : p.len ≤ q.len + w) (hW : q.len + w ≤ W) : Spans W w p q := by
  have hle := h.1
  obtain ⟨n, hn⟩ := Nat.exists_eq_add_of_le hle
  obtain ⟨m, hm⟩ := Nat.exists_eq_add_of_le hp
  have hw : w = n + m := by omega
  have hbits : childBits w p q = m := by
    unfold childBits
    omega
  have hval := h.2
  rw [hn, Nat.add_sub_cancel_left] at hval
  have hfirst : firstChild W w p q = p.val % 2 ^ n * 2 ^ m := by
    rw [firstChild_of_le hp hW, show q.len + w - p.len = m by omega, hw, pow_add,
      Nat.mul_mod_mul_right]
  have hr : p.val % 2 ^ n < 2 ^ n := mod_lt _ (two_pow_pos n)
  rw [Spans, hfirst, hbits]
  refine ⟨?_, fun i hi => ?_⟩
  · rw [hw, pow_add, ← Nat.succ_mul]
    exact Nat.mul_le_mul_right _ hr
  have hdiv : (q.val * 2 ^ w + i) / 2 ^ m = q.val * 2 ^ n + i / 2 ^ m := by
    rw [hw, pow_add, ← mul_assoc, Nat.add_comm, Nat.add_mul_div_right _ _ (two_pow_pos m),
      Nat.add_comm]
  have hsplit : p.val = q.val * 2 ^ n + p.val % 2 ^ n := by rw [← hval, div_add_mod']
  have hrange : (p.val % 2 ^ n * 2 ^ m ≤ i ∧ i < p.val % 2 ^ n * 2 ^ m + 2 ^ m) ↔
      i / 2 ^ m = p.val % 2 ^ n := by
    rw [Nat.div_eq_iff (two_pow_pos m)]
    have := two_pow_pos m
    omega
  have hcov : Covers p (q.child w i) ↔ i / 2 ^ m = p.val % 2 ^ n := by
    have hlen : (q.child w i).len - p.len = m := by
      simp only [child]
      omega
    rw [Covers, hlen]
    simp only [child]
    omega
  rw [hrange, ← hcov]
  exact ⟨.inl, fun hc => hc.covers hp⟩

theorem spans_of_below (h : Covers q p) (hp : q.len + w ≤ p.len) (hW : p.len ≤ W) : Spans W w p q := by
  have hbits : childBits w p q = 0 := by
    unfold childBits
    omega
  have hq : p.val / 2 ^ (p.len - (q.len + w)) / 2 ^ w = q.val := by
    rw [Nat.div_div_eq_div_mul, ← pow_add, ← h.2]
    congr 2
    omega
  have hlt : firstChild W w p q < 2 ^ w := mod_lt _ (two_pow_pos w)
  have hsplit : p.val / 2 ^ (p.len - (q.len + w)) = q.val * 2 ^ w + firstChild W w p q := by
    rw [firstChild_of_ge hp hW, ← hq, div_add_mod']
  rw [Spans, hbits]
  refine ⟨by omega, fun i hi => ?_⟩
  have hcov : Covers (q.child w i) p ↔ i = firstChild W w p q := by
    simp only [Covers, child]
    omega
  constructor
  · intro hr
    exact .inr (hcov.mpr (by omega))
  · intro hc
    have := hcov.mp (hc.covered hp)
    omega

theorem Comparable.spans (h : Comparable p q) (hq : q.len + w ≤ W) (hp : p.len ≤ W) : Spans W w p q := by
  rcases h with h | h
  · exact spans_of_above h hq
  · rcases Nat.le_total p.len (q.len + w) with hle | hle
    · exact spans_of_within h hle hq
    · exact spans_of_below h hle hp

end Prefix

open Prefix

section Longest

variable {α : Type*} {R R' : Prefix → Option α} {p q r P : Prefix} {x y : α}

/-- `p` is the longest prefix in the table that covers `q`, and `x` is its value. -/
structure Longest (R : Prefix → Option α) (q p : Prefix) (x : α) : Prop where
  covers : Covers p q
  value : R p = some x
  max : ∀ p', Covers p' q → R p' ≠ none → p'.len ≤ p.len

theorem covers_address_iff {a : Nat} : p.Covers ⟨W, a⟩ ↔ p.len ≤ W ∧ p = ⟨p.len, a / 2 ^ (W - p.len)⟩ := by
  cases p
  simp only [Prefix.Covers, Prefix.mk.injEq, true_and, eq_comm]

/-- **Search by length.** The first length that has a prefix, from the longest one down, has the longest
match. -/
theorem longest_of_lengths {a len : Nat} (hlen : len ≤ W) (hx : R ⟨len, a / 2 ^ (W - len)⟩ = some x)
    (hmax : ∀ l ≤ W, len < l → R ⟨l, a / 2 ^ (W - l)⟩ = none) :
    Longest R ⟨W, a⟩ ⟨len, a / 2 ^ (W - len)⟩ x := by
  refine ⟨⟨hlen, rfl⟩, hx, fun p hc hp => ?_⟩
  obtain ⟨hle, heq⟩ := covers_address_iff.mp hc
  by_contra hlt
  apply hp
  rw [heq]
  exact hmax p.len hle (by simpa using hlt)

theorem none_of_lengths {a : Nat} (h : ∀ l ≤ W, R ⟨l, a / 2 ^ (W - l)⟩ = none) :
    ∀ p, p.Covers ⟨W, a⟩ → R p = none := by
  intro p hc
  obtain ⟨hle, heq⟩ := covers_address_iff.mp hc
  rw [heq]
  exact h p.len hle

/-- Nothing longer in the table is below `q`. -/
def NoLonger (R : Prefix → Option α) (q : Prefix) : Prop :=
  ∀ p, Covers q p → R p ≠ none → p.len ≤ q.len

theorem NoLonger.below (h : NoLonger R q) (hc : Covers q p) : NoLonger R p :=
  fun r hr hn => Nat.le_trans (h r (hc.trans hr) hn) hc.1

section

variable (h : Longest R q p x)
include h

theorem Longest.congr (heq : ∀ p', Covers p' q → R p' = R' p') : Longest R' q p x :=
  ⟨h.covers, (heq p h.covers).symm.trans h.value, fun p' hc hp => h.max p' hc (heq p' hc ▸ hp)⟩

theorem Longest.unique (h' : Longest R q r y) : x = y := by
  have hle := h.max r h'.covers (by rw [h'.value]; exact Option.some_ne_none y)
  have hge := h'.max p h.covers (by rw [h.value]; exact Option.some_ne_none x)
  have hpr : p = r := (h.covers.linear h'.covers hge).antisymm hle
  have := h'.value
  rw [← hpr, h.value] at this
  exact Option.some.inj this

theorem Longest.descend (hno : NoLonger R q) (hr : Covers q r) : Longest R r p x := by
  refine ⟨h.covers.trans hr, h.value, fun p' hc hp => ?_⟩
  rcases Nat.le_total p'.len q.len with hle | hle
  · exact h.max p' (hc.linear hr hle) hp
  · have := hno p' (hr.linear hc hle) hp
    exact h.max p' (hc.linear hr this) hp

theorem Longest.insert (hc : Covers P q) (hle : p.len ≤ P.len) :
    Longest (Function.update R P (some y)) q P y := by
  refine ⟨hc, Function.update_self .., fun p' hc' hp => ?_⟩
  by_cases he : p' = P
  · exact Nat.le_of_eq (congrArg len he)
  · rw [Function.update_of_ne he] at hp
    exact Nat.le_trans (h.max p' hc' hp) hle

theorem Longest.insert_shorter (hlt : P.len < p.len) :
    Longest (Function.update R P (some y)) q p x := by
  have hne : p ≠ P := fun e => by
    subst e
    omega
  refine ⟨h.covers, by rw [Function.update_of_ne hne, h.value], fun p' hc' hp => ?_⟩
  by_cases he : p' = P
  · rw [he]
    exact Nat.le_of_lt hlt
  · rw [Function.update_of_ne he] at hp
    exact h.max p' hc' hp

theorem Longest.erase_other (heq : ∀ p', p' ≠ P → R' p' = R p')
    (hP : R P ≠ none) (hne : p ≠ P) : Longest R' q p x := by
  refine ⟨h.covers, by rw [heq p hne, h.value], fun p' hc' hp => ?_⟩
  by_cases he : p' = P
  · exact h.max p' hc' (he ▸ hP)
  · exact h.max p' hc' (heq p' he ▸ hp)

end

theorem Longest.erase (h : Longest R q P x) (heq : ∀ p', p' ≠ P → R' p' = R p')
    (hc : Longest R' P p y) : Longest R' q p y := by
  refine ⟨hc.covers.trans h.covers, hc.value, fun p' hc' hp => ?_⟩
  by_cases he : p' = P
  · exact hc.max p' (he ▸ Covers.refl P) hp
  · exact hc.max p' (hc'.linear h.covers (h.max p' hc' (heq p' he ▸ hp))) hp

theorem Longest.ascend (h : Longest R p r x) (hno : NoLonger R q) (hq : Covers q p) :
    Longest R q r x := by
  have hle : r.len ≤ q.len := by
    rcases Nat.le_total r.len q.len with hle | hle
    · exact hle
    · exact hno r (hq.linear h.covers hle) (by rw [h.value]; exact Option.some_ne_none x)
  exact ⟨h.covers.linear hq hle, h.value, fun p' hc' hp => h.max p' (hc'.trans hq) hp⟩

end Longest

end Vpp.Lib
