import Vpp.Lib.Spans

/-!
# Spans that do not touch

A sorted list of spans of naturals, each tagged, with a gap between every two neighbours. `swallow`
extends a span to the right over everything it now reaches; `absorb` merges an interval into a span
it meets. Both keep the gaps, and the points they occupy are the old ones and the interval.
-/

namespace Vpp.Lib

open List

structure Span where
  lo : Nat
  hi : Nat
deriving DecidableEq, Repr

variable {ι : Type*}

abbrev Occupied (l : List (ι × Span)) (p : Nat) : Prop :=
  Covered (fun x : ι × Span => x.2.lo) (fun x => x.2.hi) l p

/-- Non-empty spans in increasing order with a gap after each. -/
structure Apart (l : List (ι × Span)) : Prop where
  pos : ∀ x ∈ l, x.2.lo < x.2.hi
  sorted : l.Pairwise fun x y => x.2.hi < y.2.lo

variable {l l₁ l₂ : List (ι × Span)} {i : ι} {a b lo hi p : Nat}

@[simp] theorem apart_nil : Apart ([] : List (ι × Span)) :=
  ⟨(fun _ h => nomatch h), List.Pairwise.nil⟩

variable {x : ι × Span}

theorem apart_cons : Apart (x :: l) ↔ x.2.lo < x.2.hi ∧ (∀ y ∈ l, x.2.hi < y.2.lo) ∧ Apart l := by
  constructor
  · intro h
    have hp := pairwise_cons.mp h.sorted
    exact ⟨h.pos x mem_cons_self, hp.1, fun y hy => h.pos y (mem_cons_of_mem _ hy), hp.2⟩
  rintro ⟨hx, hlt, hl⟩
  refine ⟨fun y hy => ?_, pairwise_cons.mpr ⟨hlt, hl.sorted⟩⟩
  rcases mem_cons.mp hy with rfl | hy
  · exact hx
  · exact hl.pos y hy

theorem apart_append :
    Apart (l₁ ++ l₂) ↔ Apart l₁ ∧ Apart l₂ ∧ ∀ x ∈ l₁, ∀ y ∈ l₂, x.2.hi < y.2.lo := by
  constructor
  · intro h
    obtain ⟨h₁, h₂, hlt⟩ := pairwise_append.mp h.sorted
    exact ⟨⟨fun x hx => h.pos x (mem_append_left _ hx), h₁⟩,
      ⟨fun x hx => h.pos x (mem_append_right _ hx), h₂⟩, hlt⟩
  · rintro ⟨h₁, h₂, hlt⟩
    refine ⟨fun x hx => ?_, pairwise_append.mpr ⟨h₁.sorted, h₂.sorted, hlt⟩⟩
    rcases mem_append.mp hx with hx | hx
    · exact h₁.pos x hx
    · exact h₂.pos x hx

theorem occupied_iff : Occupied l p ↔ ∃ x ∈ l, x.2.lo ≤ p ∧ p < x.2.hi := Iff.rfl

theorem Apart.occupied_hi (h : Apart l) (hx : x ∈ l) : Occupied l (x.2.hi - 1) := by
  have := h.pos x hx
  exact occupied_iff.mpr ⟨x, hx, by omega, by omega⟩

@[simp] theorem occupied_cons : Occupied (x :: l) p ↔ (x.2.lo ≤ p ∧ p < x.2.hi) ∨ Occupied l p :=
  covered_cons p

@[simp] theorem occupied_append :
    Occupied (l₁ ++ l₂) p ↔ Occupied l₁ p ∨ Occupied l₂ p := by
  simp only [Covered, mem_append, or_and_right, exists_or]

theorem occupied_insert :
    Occupied (l₁ ++ x :: l₂) p ↔ Occupied (l₁ ++ l₂) p ∨ (x.2.lo ≤ p ∧ p < x.2.hi) := by
  rw [occupied_append, occupied_append, occupied_cons, or_assoc, or_comm (a := Occupied l₂ p)]

/-- What is left of a list of spans once everything up to `b` and what that reaches is taken: the
end of what was taken, and the rest. -/
def swallow (b : Nat) : List (ι × Span) → Nat × List (ι × Span)
  | [] => (b, [])
  | x :: l =>
    if x.2.hi ≤ b then swallow b l
    else if x.2.lo ≤ b then (x.2.hi, l)
    else (b, x :: l)

theorem swallow_eq :
    swallow b l = match l.dropWhile fun x => decide (x.2.hi ≤ b) with
      | [] => (b, [])
      | x :: r => if x.2.lo ≤ b then (x.2.hi, r) else (b, x :: r) := by
  induction l with
  | nil => rfl
  | cons x l ih =>
    unfold swallow
    by_cases h : x.2.hi ≤ b
    · rw [if_pos h, ih, dropWhile_cons_of_pos (by simpa using h)]
    · rw [if_neg h, dropWhile_cons_of_neg (by simpa using h)]

theorem le_swallow (b : Nat) (l : List (ι × Span)) : b ≤ (swallow b l).1 := by
  induction l with
  | nil => exact le_rfl
  | cons x l ih =>
    unfold swallow
    split_ifs with h₁ h₂
    · exact ih
    · exact le_of_lt (Nat.lt_of_not_le h₁)
    · exact le_rfl

theorem swallow_sublist : (swallow b l).2.Sublist l := by
  induction l with
  | nil => exact List.Sublist.refl _
  | cons x l ih =>
    unfold swallow
    split_ifs
    · exact ih.cons x
    · exact sublist_cons_self x l
    · exact List.Sublist.refl _

variable {m : Nat} {s : Span}

theorem swallow_le (hb : b ≤ m) (hl : ∀ x ∈ l, x.2.hi ≤ m) : (swallow b l).1 ≤ m := by
  induction l with
  | nil => exact hb
  | cons x l ih =>
    unfold swallow
    split_ifs
    · exact ih fun y hy => hl y (mem_cons_of_mem _ hy)
    · exact hl x mem_cons_self
    · exact hb

theorem Apart.swallow_lt (hl : Apart l) : ∀ x ∈ (swallow b l).2, (swallow b l).1 < x.2.lo := by
  induction l with
  | nil => exact fun x hx => nomatch hx
  | cons x l ih =>
    obtain ⟨hx, hlt, hl'⟩ := apart_cons.mp hl
    unfold swallow
    split_ifs with h₁ h₂
    · exact ih hl'
    · exact hlt
    intro y hy
    rcases mem_cons.mp hy with rfl | hy
    · exact Nat.lt_of_not_le h₂
    · have := hlt y hy
      omega

theorem occupied_swallow (b : Nat) (hl : Apart l) (p : Nat) :
    (p < (swallow b l).1 ∨ Occupied (swallow b l).2 p) ↔ (p < b ∨ Occupied l p) := by
  induction l with
  | nil => rfl
  | cons x l ih =>
    obtain ⟨hx, hlt, hl'⟩ := apart_cons.mp hl
    unfold swallow
    split_ifs with h₁ h₂
    · rw [ih hl', occupied_cons]
      constructor
      · exact Or.imp_right .inr
      · rintro (h | h | h)
        · exact .inl h
        · exact .inl (by omega)
        · exact .inr h
    · rw [occupied_cons]
      constructor
      · rintro (h | h)
        · by_cases hp : p < b
          · exact .inl hp
          · exact .inr (.inl ⟨by omega, h⟩)
        · exact .inr (.inr h)
      · rintro (h | h | h)
        · exact .inl (by omega)
        · exact .inl h.2
        · exact .inr h
    · rfl

/-- Merge `[a, b)` into the span `[lo, hi)` that it meets, and into the spans after it. -/
def absorb (a b : Nat) (s : Span) (l : List (ι × Span)) : Span × List (ι × Span) :=
  if s.hi < b then (⟨min a s.lo, (swallow b l).1⟩, (swallow b l).2) else (⟨min a s.lo, s.hi⟩, l)

theorem absorb_lo : (absorb a b s l).1.lo = min a s.lo := by
  unfold absorb
  split_ifs <;> rfl

theorem absorb_sublist (a b : Nat) (s : Span) (l : List (ι × Span)) :
    (absorb a b s l).2.Sublist l := by
  unfold absorb
  split_ifs
  · exact swallow_sublist
  · exact List.Sublist.refl _

theorem absorb_hi_le (hb : b ≤ m) (hs : s.hi ≤ m)
    (hl : ∀ x ∈ l, x.2.hi ≤ m) : (absorb a b s l).1.hi ≤ m := by
  unfold absorb
  split_ifs
  · exact swallow_le hb hl
  · exact hs

/-- **Merging keeps the gaps.** -/
theorem Apart.absorb (h : Apart (l₁ ++ (i, s) :: l₂)) (hpre : ∀ x ∈ l₁, x.2.hi < a) :
    Apart (l₁ ++ (i, (absorb a b s l₂).1) :: (Lib.absorb a b s l₂).2) := by
  obtain ⟨h₁, hs, hlt⟩ := apart_append.mp h
  obtain ⟨hpos, hgap, h₂⟩ := apart_cons.mp hs
  have hpos : s.lo < s.hi := hpos
  have hsub := absorb_sublist a b s l₂
  have hrest : Apart _ := ⟨fun x hx => h₂.pos x (hsub.subset hx), h₂.sorted.sublist hsub⟩
  refine apart_append.mpr ⟨h₁, apart_cons.mpr ⟨?_, ?_, hrest⟩, ?_⟩
  · rw [absorb_lo]
    unfold Lib.absorb
    split_ifs with hb
    · have := le_swallow b l₂
      show _ < (swallow b l₂).1
      omega
    · show _ < s.hi
      omega
  · unfold Lib.absorb
    split_ifs
    · exact h₂.swallow_lt
    · exact hgap
  · intro x hx y hy
    have hxs := hlt x hx (i, s) mem_cons_self
    rcases mem_cons.mp hy with rfl | hy
    · rw [absorb_lo]
      exact lt_min (hpre x hx) hxs
    · exact hlt x hx y (mem_cons_of_mem _ (hsub.subset hy))

/-- **Merging occupies the old points and the interval**, if the interval meets the span. -/
theorem occupied_absorb (h : Apart ((i, s) :: l)) (ha : a ≤ s.hi) (hb : s.lo ≤ b) (p : Nat) :
    Occupied ((i, (absorb a b s l).1) :: (absorb a b s l).2) p ↔
      Occupied ((i, s) :: l) p ∨ (a ≤ p ∧ p < b) := by
  obtain ⟨hpos, hgap, hl⟩ := apart_cons.mp h
  have hge : Occupied l p → s.hi < p := by
    rintro ⟨x, hx, hle, -⟩
    exact lt_of_lt_of_le (hgap x hx) hle
  rw [occupied_cons, occupied_cons]
  unfold absorb
  split_ifs with hlt
  · have hsw := occupied_swallow b hl p
    have hb' := le_swallow b l
    show (min a s.lo ≤ p ∧ p < (swallow b l).1 ∨ _) ↔ (s.lo ≤ p ∧ p < s.hi ∨ _) ∨ _
    constructor
    · rintro (⟨hlo, hp⟩ | hp)
      · rcases hsw.mp (.inl hp) with hp' | hp'
        · omega
        · exact .inl (.inr hp')
      rcases hsw.mp (.inr hp) with hp' | hp'
      · obtain ⟨x, hx, hle, -⟩ := hp
        have hlo : (swallow b l).1 < x.2.lo := hl.swallow_lt x hx
        have hle : x.2.lo ≤ p := hle
        omega
      · exact .inl (.inr hp')
    · rintro ((hp | hp) | hp)
      · exact .inl ⟨by omega, by omega⟩
      · have := hge hp
        rcases hsw.mpr (.inr hp) with hp' | hp'
        · exact .inl ⟨by omega, hp'⟩
        · exact .inr hp'
      · exact .inl ⟨by omega, by omega⟩
  · show (min a s.lo ≤ p ∧ p < s.hi ∨ _) ↔ (s.lo ≤ p ∧ p < s.hi ∨ _) ∨ _
    constructor
    · rintro (⟨hlo, hp⟩ | hp)
      · omega
      · exact .inl (.inr hp)
    · rintro ((hp | hp) | hp)
      · exact .inl ⟨by omega, hp.2⟩
      · exact .inr hp
      · exact .inl ⟨by omega, by omega⟩

end Vpp.Lib
