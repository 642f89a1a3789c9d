import Mathlib.Data.List.Nodup
import Mathlib.Data.List.Range
import Mathlib.Data.Nat.ModEq

/-!
# Cyclic buffers

A buffer of `cap` places used in turn: `size` of them from `head` on are taken, and `tail` is the next
free one. `places` lists the taken ones in order.
-/

namespace Vpp.Lib

open List Nat

/-- The `n` places from `head` on in a ring of `cap` places. -/
def places (cap head n : Nat) : List Nat := (List.range n).map fun i => (head + i) % cap

@[simp] theorem places_zero (cap head : Nat) : places cap head 0 = [] := rfl

@[simp] theorem length_places (cap head n : Nat) : (places cap head n).length = n := by
  rw [places, length_map, length_range]

theorem places_add (cap head m n : Nat) :
    places cap head (m + n) = places cap head m ++ places cap ((head + m) % cap) n := by
  have hrest : ∀ i, (head + (m + i)) % cap = ((head + m) % cap + i) % cap := fun i => by
    rw [mod_add_mod, add_assoc]
  simp only [places, range_add, map_append, map_map, Function.comp_def, hrest]

theorem places_succ (cap head n : Nat) :
    places cap head (n + 1) = places cap head n ++ [(head + n) % cap] := by
  rw [places, range_succ, map_append, map_singleton, places]

theorem places_succ' {cap head : Nat} (h : head < cap) (n : Nat) :
    places cap head (n + 1) = head :: places cap ((head + 1) % cap) n := by
  rw [add_comm, places_add, places_succ, places_zero, nil_append, add_zero,
    mod_eq_of_lt h, singleton_append]

theorem nodup_places {cap n : Nat} (head : Nat) (h : n ≤ cap) : (places cap head n).Nodup := by
  refine List.Nodup.map_on ?_ nodup_range
  intro i hi j hj heq
  rw [mem_range] at hi hj
  have hmod : i % cap = j % cap := Nat.ModEq.add_left_cancel' head heq
  rwa [mod_eq_of_lt (by omega), mod_eq_of_lt (by omega)] at hmod

theorem places_eq_range' {cap head n : Nat} (h : head + n ≤ cap) :
    places cap head n = List.range' head n := by
  rw [range'_eq_map_range]
  refine map_congr_left fun i hi => ?_
  rw [mem_range] at hi
  rw [mod_eq_of_lt (by omega)]

theorem places_eq_append {cap head n : Nat} (hhead : head < cap) (h : cap ≤ head + n) (hn : n ≤ cap) :
    places cap head n = List.range' head (cap - head) ++ List.range' 0 (n - (cap - head)) := by
  obtain ⟨k, rfl⟩ := Nat.exists_eq_add_of_le (by omega : cap - head ≤ n)
  rw [places_add, places_eq_range' (by omega), show head + (cap - head) = cap by omega, mod_self,
    places_eq_range' (by omega), Nat.add_sub_cancel_left]

/-- Head, tail and size of a cyclic buffer belong together. -/
structure Cyclic (cap head tail size : Nat) : Prop where
  head_lt : 0 < cap → head < cap
  tail_eq : tail = (head + size) % cap
  size_le : size ≤ cap

namespace Cyclic

variable {cap head tail size : Nat}

section

variable (h : Cyclic cap head tail size)
include h

theorem push (hlt : size < cap) : Cyclic cap head ((tail + 1) % cap) (size + 1) := by
  refine ⟨h.head_lt, ?_, hlt⟩
  rw [h.tail_eq, mod_add_mod, add_assoc]

theorem pop {n : Nat} (hn : n ≤ size) : Cyclic cap ((head + n) % cap) tail (size - n) := by
  refine ⟨mod_lt _, ?_, le_trans (sub_le ..) h.size_le⟩
  rw [h.tail_eq, mod_add_mod]
  congr 1
  omega

theorem tail_notMem (hlt : size < cap) : tail ∉ places cap head size := by
  have hnodup := nodup_places head hlt
  rw [places_succ, ← h.tail_eq] at hnodup
  exact fun hmem => (nodup_append.mp hnodup).2.2 _ hmem _ mem_cons_self rfl

theorem places_push : places cap head (size + 1) = places cap head size ++ [tail] := by
  rw [places_succ, h.tail_eq]

theorem tail_lt (hcap : 0 < cap) : tail < cap := by
  rw [h.tail_eq]
  exact mod_lt _ hcap

end

end Cyclic

end Vpp.Lib
