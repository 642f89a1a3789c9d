import Mathlib.Algebra.Order.BigOperators.Group.Finset

/-!
# Bins

Things sorted into `n` lists. `binned` is the multiset of all of them, whatever list they are in; it
changes by what is put into a list or taken out of it. `weigh` adds up a number for each.
-/

namespace Vpp.Lib

open Finset

variable {α : Type*}

/-- Everything in the first `n` bins. -/
def binned (n : Nat) (f : Nat → List α) : Multiset α := ∑ i ∈ range n, (f i : Multiset α)

variable {n i : Nat} {f : Nat → List α}

theorem binned_put (hi : i < n) (l : List α) :
    binned n (Function.update f i (l ++ f i)) = (l : Multiset α) + binned n f := by
  have hmem : i ∈ range n := mem_range.mpr hi
  have hrest : ∀ j ∈ (range n).erase i,
      ((Function.update f i (l ++ f i) j : List α) : Multiset α) = (f j : Multiset α) := by
    intro j hj
    rw [Function.update_of_ne (ne_of_mem_erase hj)]
  unfold binned
  rw [← add_sum_erase _ _ hmem, ← add_sum_erase (range n) (fun j => (f j : Multiset α)) hmem,
    sum_congr rfl hrest, Function.update_self, ← add_assoc]
  rfl

variable {l : List α} {a : α}

theorem binned_take (hi : i < n) {l' : List α} (h : f i = l ++ l') :
    binned n f = (l : Multiset α) + binned n (Function.update f i l') := by
  rw [← binned_put hi, Function.update_self, ← h, Function.update_idem, Function.update_eq_self]

theorem mem_binned : a ∈ binned n f ↔ ∃ i < n, a ∈ f i := by
  simp only [binned, Multiset.mem_sum, mem_range, Multiset.mem_coe]

/-- The sum of `w` over a multiset. -/
def weigh (w : α → Nat) (s : Multiset α) : Nat := (s.map w).sum

variable (w : α → Nat)

@[simp] theorem weigh_add (s t : Multiset α) : weigh w (s + t) = weigh w s + weigh w t := by
  rw [weigh, Multiset.map_add, Multiset.sum_add]
  rfl

@[simp] theorem weigh_cons (a : α) (l : List α) :
    weigh w ((a :: l : List α) : Multiset α) = w a + weigh w (l : Multiset α) := by
  simp only [weigh, Multiset.map_coe, Multiset.sum_coe, List.map_cons, List.sum_cons]

theorem weigh_const {m : Nat} (h : ∀ a ∈ l, w a = m) : weigh w (l : Multiset α) = l.length * m := by
  induction l with
  | nil => exact (Nat.zero_mul m).symm
  | cons a l ih =>
    rw [List.forall_mem_cons] at h
    rw [weigh_cons, h.1, ih h.2, List.length_cons, Nat.succ_mul, Nat.add_comm]

theorem weigh_le_of_mem {s : Multiset α} (h : a ∈ s) : w a ≤ weigh w s :=
  Multiset.single_le_sum (fun _ _ => Nat.zero_le _) _ (Multiset.mem_map_of_mem w h)

theorem sum_map_set {β M : Type*} [AddCommMonoid M] (f : β → M) {l : List β} {a : β} (h : l[i]? = some a)
    (b : β) : ((l.set i b).map f).sum + f a = (l.map f).sum + f b := by
  induction l generalizing i with
  | nil => cases h
  | cons c l ih =>
    cases i with
    | zero =>
      cases h
      simp only [List.set_cons_zero, List.map_cons, List.sum_cons]
      rw [add_assoc, add_comm]
      exact congrArg (· + f b) (add_comm _ _)
    | succ i =>
      simp only [List.set_cons_succ, List.map_cons, List.sum_cons]
      rw [add_assoc, ih h, add_assoc]

end Vpp.Lib
