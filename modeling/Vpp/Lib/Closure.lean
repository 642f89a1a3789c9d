import Mathlib.Data.Fintype.EquivFin
import Mathlib.Order.WellFounded

/-!
# Closing a relation and peeling it

`warshall` closes a relation on the numbers below `n`, kept as a matrix of booleans. `peel` then takes
numbers out one at a time, each time the first one that is related to nothing that is left: column `i`
is cleared and `i` is related to itself so that it is not taken again. Whatever is taken is related only
to what was taken before it, and everything is taken exactly when nothing is related to itself.
-/

namespace Vpp.Lib

open List

open Relation

/-! ## Warshall's algorithm -/

variable {m : Nat → Nat → Bool} {n k i j l : Nat}

def warshallStep (m : Nat → Nat → Bool) (k : Nat) : Nat → Nat → Bool := fun i j =>
  m i j || (m i k && m k j)

def warshall (n : Nat) (m : Nat → Nat → Bool) : Nat → Nat → Bool :=
  (List.range n).foldl warshallStep m

/-- A path whose inner nodes are all below `k`. -/
inductive Via (m : Nat → Nat → Bool) (k : Nat) : Nat → Nat → Prop
  | edge {i j : Nat} (h : m i j = true) : Via m k i j
  | cons {i l j : Nat} (h : m i l = true) (hl : l < k) (hrest : Via m k l j) : Via m k i j

theorem Via.mono (h : Via m k i j) : Via m (k + 1) i j := by
  induction h with
  | edge h => exact .edge h
  | cons h hl _ ih => exact .cons h (Nat.lt_succ_of_lt hl) ih

theorem Via.append (h : Via m k i l) (hl : l < k) (h' : Via m k l j) : Via m k i j := by
  induction h with
  | edge h => exact .cons h hl h'
  | cons h hm _ ih => exact .cons h hm (ih hl h')

theorem via_succ : Via m (k + 1) i j ↔ Via m k i j ∨ Via m k i k ∧ Via m k k j := by
  constructor
  · intro h
    induction h with
    | edge h => exact .inl (.edge h)
    | @cons i l j h hl _ ih =>
      rcases lt_or_eq_of_le (Nat.le_of_lt_succ hl) with hlt | rfl
      · rcases ih with ih | ⟨ih, ih'⟩
        · exact .inl (.cons h hlt ih)
        · exact .inr ⟨.cons h hlt ih, ih'⟩
      · rcases ih with ih | ⟨-, ih⟩
        · exact .inr ⟨.edge h, ih⟩
        · exact .inr ⟨.edge h, ih⟩
  · rintro (h | ⟨h, h'⟩)
    · exact h.mono
    · exact h.mono.append (Nat.lt_succ_self k) h'.mono

theorem warshall_iff_via : warshall n m i j = true ↔ Via m n i j := by
  induction n generalizing i j with
  | zero =>
    refine ⟨fun h => .edge h, fun h => ?_⟩
    cases h with
    | edge h => exact h
    | cons _ hl _ => exact absurd hl (Nat.not_lt_zero _)
  | succ n ih =>
    have hstep : warshall (n + 1) m = warshallStep (warshall n m) n := by
      rw [warshall, range_succ, foldl_append]
      rfl
    rw [hstep, warshallStep, Bool.or_eq_true, Bool.and_eq_true, ih, ih, ih, via_succ]

/-- **Warshall.** On a relation between numbers below `n` the result is the transitive closure. -/
theorem warshall_iff (hm : ∀ i j, m i j = true → j < n) :
    warshall n m i j = true ↔ TransGen (fun i j => m i j = true) i j := by
  rw [warshall_iff_via]
  constructor
  · intro h
    induction h with
    | edge h => exact .single h
    | cons h _ _ ih => exact .head h ih
  · intro h
    induction h using TransGen.head_induction_on with
    | single h => exact .edge h
    | head h _ ih => exact .cons h (hm _ _ h) ih

/-! ## Peeling -/

/-- `i` is related to nothing. -/
def freeRow (n : Nat) (m : Nat → Nat → Bool) (i : Nat) : Bool := (List.range n).all fun j => !m i j

/-- Take `i` out. -/
def release (m : Nat → Nat → Bool) (i : Nat) : Nat → Nat → Bool := fun k j =>
  if j = i then decide (k = i) else m k j

def peel (n : Nat) : Nat → (Nat → Nat → Bool) → List Nat → Option (List Nat)
  | 0, _, _ => none
  | fuel + 1, m, result =>
    match (List.range n).find? (freeRow n m) with
    | none => some result
    | some i => peel n fuel (release m i) (result ++ [i])

/-- What has been taken out of `C`, in this order, is related only to what came before. -/
structure Peeled (n : Nat) (C : Nat → Nat → Bool) (result : List Nat) : Prop where
  nodup : result.Nodup
  lt : ∀ i ∈ result, i < n
  before : ∀ front i back, result = front ++ i :: back → ∀ j < n, C i j = true → j ∈ front

/-- The matrix with the numbers of `result` taken out of `C`. -/
def Without (n : Nat) (C : Nat → Nat → Bool) (result : List Nat) (m : Nat → Nat → Bool) : Prop :=
  ∀ k < n, ∀ j < n, m k j = if j ∈ result then decide (k = j) else C k j

variable {C : Nat → Nat → Bool} {result : List Nat}

theorem freeRow_iff (hm : Without n C result m) (hi : i < n) :
    freeRow n m i = true ↔ i ∉ result ∧ ∀ j < n, C i j = true → j ∈ result := by
  simp only [freeRow, all_eq_true, mem_range, Bool.not_eq_true']
  constructor
  · intro h
    refine ⟨fun hmem => ?_, fun j hj hC => ?_⟩
    · have := h i hi
      rw [hm i hi i hi, if_pos hmem] at this
      exact absurd this (by simp)
    · by_contra hnot
      have := h j hj
      rw [hm i hi j hj, if_neg hnot, hC] at this
      cases this
  · rintro ⟨hnot, hall⟩ j hj
    rw [hm i hi j hj]
    split
    · rename_i hmem
      exact decide_eq_false fun he => hnot (he ▸ hmem)
    · rename_i hmem
      exact Bool.eq_false_iff.mpr fun hC => hmem (hall j hj hC)

theorem Without.release (hm : Without n C result m) (i : Nat) :
    Without n C (result ++ [i]) (release m i) := by
  intro k hk j hj
  simp only [Lib.release, mem_append, mem_singleton]
  by_cases hji : j = i
  · simp [hji]
  · simp only [hji, or_false]
    exact hm k hk j hj

theorem Peeled.snoc (h : Peeled n C result) (hi : i < n) (hnot : i ∉ result)
    (hall : ∀ j < n, C i j = true → j ∈ result) : Peeled n C (result ++ [i]) where
  nodup := nodup_append.mpr ⟨h.nodup, nodup_singleton i, by
    rintro a ha b hb rfl
    exact hnot (mem_singleton.mp hb ▸ ha)⟩
  lt := by
    intro j hj
    rcases mem_append.mp hj with hj | hj
    · exact h.lt j hj
    · exact mem_singleton.mp hj ▸ hi
  before := by
    intro front x back heq j hj hC
    rcases eq_nil_or_concat back with rfl | ⟨back', y, rfl⟩
    · obtain ⟨rfl, hx⟩ := append_inj' heq rfl
      obtain rfl := singleton_inj.mp hx
      exact hall j hj hC
    · have heq' : result ++ [i] = (front ++ x :: back') ++ [y] := by simpa using heq
      obtain ⟨hres, -⟩ := append_inj' heq' rfl
      exact h.before front x back' hres j hj hC

theorem Peeled.subperm (h : Peeled n C result) : result.Subperm (List.range n) :=
  subperm_of_subset h.nodup fun i hi => mem_range.mpr (h.lt i hi)

theorem Peeled.length_le (h : Peeled n C result) : result.length ≤ n := by
  have := h.subperm.length_le
  rwa [length_range] at this

theorem Peeled.perm (h : Peeled n C result) (hlen : result.length = n) :
    result.Perm (List.range n) :=
  h.subperm.perm_of_length_le (by rw [length_range, hlen])

theorem exists_peel (fuel : Nat) (hfuel : n < fuel + result.length) (h : Peeled n C result)
    (hm : Without n C result m) :
    ∃ out, peel n fuel m result = some out ∧ Peeled n C out ∧
      ∀ i < n, i ∉ out → ∃ j < n, C i j = true ∧ j ∉ out := by
  induction fuel generalizing m result with
  | zero =>
    have := h.length_le
    omega
  | succ fuel ih =>
    rw [peel]
    cases hf : (List.range n).find? (freeRow n m) with
    | none =>
      refine ⟨result, rfl, h, fun i hi hnot => ?_⟩
      have hrow := find?_eq_none.mp hf i (mem_range.mpr hi)
      rw [freeRow_iff hm hi] at hrow
      by_contra hall
      exact hrow ⟨hnot, fun j hj hC => by_contra fun hmem => hall ⟨j, hj, hC, hmem⟩⟩
    | some i =>
      have hi : i < n := mem_range.mp (mem_of_find?_eq_some hf)
      obtain ⟨hnot, hall⟩ := (freeRow_iff hm hi).mp (find?_some hf)
      refine ih ?_ (h.snoc hi hnot hall) (hm.release i)
      rw [length_append, length_singleton]
      omega

/-- **Peeling.** A transitive relation is peeled off whole exactly when nothing is related to itself. -/
theorem peel_spec (htrans : ∀ i j k, C i j = true → C j k = true → C i k = true) :
    ∃ out, peel n (n + 1) C [] = some out ∧ Peeled n C out ∧
      (out.length = n ↔ ∀ i < n, C i i = false) := by
  have hnil : Peeled n C [] :=
    ⟨nodup_nil, (fun _ h => nomatch h), (fun front i back h => by simp at h)⟩
  obtain ⟨out, hout, hp, hstuck⟩ := exists_peel (n + 1) (by simp) hnil
    (fun k _ j _ => by simp : Without n C [] C)
  refine ⟨out, hout, hp, fun hlen i hi => ?_, fun hirr => ?_⟩
  · have hmem : i ∈ out := (hp.perm hlen).mem_iff.mpr (mem_range.mpr hi)
    obtain ⟨front, back, heq⟩ := append_of_mem hmem
    rw [← Bool.not_eq_true]
    intro hC
    have hfront : i ∈ front := hp.before front i back heq i hi hC
    have hnd := hp.nodup
    rw [heq, nodup_append] at hnd
    exact hnd.2.2 i hfront i mem_cons_self rfl
  · -- something is left otherwise, and a last one of it in the order of `C`
    have hall : ∀ i < n, i ∈ out := by
      by_contra hne
      push Not at hne
      obtain ⟨i, hi, hnot⟩ := hne
      let r : Fin n → Fin n → Prop := fun b a => C a b = true
      have : IsTrans (Fin n) r := ⟨fun a b c hab hbc => htrans _ _ _ hbc hab⟩
      have : Std.Irrefl r := ⟨fun a ha => Bool.false_ne_true ((hirr a a.isLt).symm.trans ha)⟩
      obtain ⟨a, ha, hmax⟩ := (Finite.wellFounded_of_trans_of_irrefl r).has_min
        {a | a.val ∉ out} ⟨⟨i, hi⟩, hnot⟩
      obtain ⟨j, hj, hC, hjnot⟩ := hstuck a a.isLt ha
      exact hmax ⟨j, hj⟩ hjnot hC
    apply le_antisymm hp.length_le
    have hsub : List.range n ⊆ out := fun i hi => hall i (mem_range.mp hi)
    have := (subperm_of_subset nodup_range hsub).length_le
    rwa [length_range] at this

end Vpp.Lib
