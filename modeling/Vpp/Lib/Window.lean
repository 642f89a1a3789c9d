import Mathlib.Data.BitVec

/-!
# Windows of a memory

A memory is indexed by the integers. `window` is what it holds from a place on; `blit` writes the
window of one memory into another, and changes nothing else.
-/

namespace Vpp.Lib

variable {α : Type*} {f g : Int → α} {o p q : Int} {m n : Nat}

/-- The `n` elements from `o` on. -/
def window (f : Int → α) (o : Int) (n : Nat) : List α := (List.range n).map fun i : Nat => f (o + i)

/-- The `n` elements of `g` from `p` on are copied to `o`. -/
def blit (f : Int → α) (o : Int) (g : Int → α) (p : Int) (n : Nat) : Int → α := fun i =>
  if o ≤ i ∧ i < o + n then g (p + (i - o)) else f i

theorem window_add : window f o (m + n) = window f o m ++ window f (o + m) n := by
  unfold window
  rw [List.range_add, List.map_append, List.map_map]
  congr 1
  refine List.map_congr_left fun i _ => ?_
  show f (o + (m + i : Nat)) = f (o + m + i)
  congr 1
  omega

theorem window_blit : window (blit f o g p n) o n = window g p n := by
  refine List.map_congr_left fun i hi => ?_
  rw [List.mem_range] at hi
  rw [blit, if_pos (by omega)]
  congr 1
  omega

end Vpp.Lib
