import Mathlib.Data.List.Intervals
import Mathlib.Data.BitVec

/-!
# Lists of disjoint spans

A list whose elements each occupy a half-open span `[lo a, hi a)` of a linear order. `Spans` says
the spans are non-empty and stand in increasing order without overlap; `Covered` is the set of
points they occupy. Over the naturals the sizes add up, and a list of total size `n` below `n`
occupies every point below `n` exactly once.
-/

namespace Vpp.Lib

open List

section Order

variable {ι α : Type*} [LinearOrder α] {lo hi : ι → α} {a : ι} {l : List ι}

/-- Non-empty spans in increasing order, none overlapping the next. -/
structure Spans (lo hi : ι → α) (l : List ι) : Prop where
  pos : ∀ a ∈ l, lo a < hi a
  sorted : l.Pairwise fun a b => hi a ≤ lo b

def Covered (lo hi : ι → α) (l : List ι) (x : α) : Prop := ∃ a ∈ l, lo a ≤ x ∧ x < hi a

@[simp] theorem spans_nil : Spans lo hi [] := ⟨(fun _ h => nomatch h), List.Pairwise.nil⟩

@[simp] theorem covered_nil (x : α) : ¬ Covered lo hi [] x := fun ⟨_, h, _⟩ => nomatch h

@[simp] theorem covered_cons (x : α) :
    Covered lo hi (a :: l) x ↔ (lo a ≤ x ∧ x < hi a) ∨ Covered lo hi l x := by
  simp [Covered]

theorem lt_of_covered {m x : α} (hm : ∀ a ∈ l, hi a ≤ m) (hx : Covered lo hi l x) : x < m := by
  obtain ⟨a, ha, -, hlt⟩ := hx
  exact hlt.trans_le (hm a ha)

theorem spans_cons :
    Spans lo hi (a :: l) ↔ lo a < hi a ∧ (∀ b ∈ l, hi a ≤ lo b) ∧ Spans lo hi l := by
  constructor
  · intro h
    have hp := pairwise_cons.mp h.sorted
    exact ⟨h.pos a mem_cons_self, hp.1,
      fun b hb => h.pos b (mem_cons_of_mem _ hb), hp.2⟩
  · rintro ⟨ha, hb, hl⟩
    refine ⟨fun b hmem => ?_, pairwise_cons.mpr ⟨hb, hl.sorted⟩⟩
    rcases mem_cons.mp hmem with rfl | hmem
    · exact ha
    · exact hl.pos b hmem

theorem Spans.cons (hs : Spans lo hi l) (ha : lo a < hi a)
    (hb : ∀ x, Covered lo hi l x → hi a ≤ x) : Spans lo hi (a :: l) :=
  spans_cons.mpr ⟨ha, fun b hmem => hb _ ⟨b, hmem, le_rfl, hs.pos b hmem⟩, hs⟩

theorem Spans.tail (hs : Spans lo hi (a :: l)) : Spans lo hi l := (spans_cons.mp hs).2.2

theorem Spans.hi_le_of_covered (hs : Spans lo hi (a :: l)) {x : α} (hx : Covered lo hi l x) :
    hi a ≤ x := by
  obtain ⟨b, hb, hle, -⟩ := hx
  exact ((spans_cons.mp hs).2.1 b hb).trans hle

end Order

section Size

variable {ι : Type*} {lo hi : ι → Nat} {l : List ι}

def size (lo hi : ι → Nat) (l : List ι) : Nat := (l.map fun a => hi a - lo a).sum

@[simp] theorem size_cons (a : ι) : size lo hi (a :: l) = (hi a - lo a) + size lo hi l := by
  simp [size]

def points (lo hi : ι → Nat) (l : List ι) : List Nat := l.flatMap fun a => List.Ico (lo a) (hi a)

@[simp] theorem points_cons (a : ι) :
    points lo hi (a :: l) = List.Ico (lo a) (hi a) ++ points lo hi l := by
  simp [points]

theorem mem_points (x : Nat) : x ∈ points lo hi l ↔ Covered lo hi l x := by
  simp [points, Covered]

theorem length_points : (points lo hi l).length = size lo hi l := by
  induction l with
  | nil => rfl
  | cons a l ih => simp [ih]

theorem Spans.nodup_points (hs : Spans lo hi l) : (points lo hi l).Nodup := by
  induction l with
  | nil => exact nodup_nil
  | cons a l ih =>
    rw [points_cons, nodup_append]
    refine ⟨List.Ico.nodup _ _, ih hs.tail, fun x hx y hy => ?_⟩
    rw [List.Ico.mem] at hx
    have := hs.hi_le_of_covered ((mem_points y).mp hy)
    omega

theorem Spans.size_le (hs : Spans lo hi l) {n : Nat} (hn : ∀ a ∈ l, hi a ≤ n) :
    size lo hi l ≤ n := by
  have hsub : points lo hi l ⊆ List.range n := fun x hx =>
    mem_range.mpr (lt_of_covered hn ((mem_points x).mp hx))
  have := (subperm_of_subset hs.nodup_points hsub).length_le
  rwa [length_points, length_range] at this

/-- **Full coverage by counting.** Disjoint spans below `n` of total size `n` occupy every point
below `n` exactly once, and nothing else. -/
theorem Spans.points_perm_range (hs : Spans lo hi l) {n : Nat} (hn : ∀ a ∈ l, hi a ≤ n)
    (hsz : size lo hi l = n) : (points lo hi l).Perm (List.range n) := by
  have hsub : points lo hi l ⊆ List.range n := fun x hx =>
    mem_range.mpr (lt_of_covered hn ((mem_points x).mp hx))
  refine (subperm_of_subset hs.nodup_points hsub).perm_of_length_le ?_
  rw [length_points, hsz, length_range]

end Size

end Vpp.Lib
