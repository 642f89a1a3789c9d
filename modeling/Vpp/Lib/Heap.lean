import Mathlib.Data.BitVec

/-!
# A heap of blocks

A memory in which blocks are allocated and freed. Where a new block goes is up to the allocator, whose
answer is given as a hint; an answer that is not free is not taken. All that is said of the place is
that it lies apart from the blocks in use, so these keep what they hold.
-/

namespace Vpp.Lib

open List

/-- A memory and the blocks in use, each with its offset and its length. -/
structure Heap (δ : Type*) where
  mem : Nat → δ
  blocks : List (Nat × Nat)

namespace Heap

variable {δ : Type*} (h : Heap δ)

def Free (off size : Nat) : Prop := ∀ b ∈ h.blocks, off + size ≤ b.1 ∨ b.1 + b.2 ≤ off

instance (off size : Nat) : Decidable (h.Free off size) :=
  inferInstanceAs (Decidable (∀ b ∈ h.blocks, _))

def top : Nat := h.blocks.foldr (fun b t => max (b.1 + b.2) t) 0

def place (size hint : Nat) : Nat := if h.Free hint size then hint else h.top

def alloc (data : List δ) (hint : Nat) : Heap δ where
  mem a := (if h.place data.length hint ≤ a then data[a - h.place data.length hint]? else none).getD
    (h.mem a)
  blocks := (h.place data.length hint, data.length) :: h.blocks

def dealloc (off : Nat) : Heap δ := { h with blocks := h.blocks.filter fun b => b.1 != off }

/-- The block at the offset is in use and holds the data. -/
structure Holds (off : Nat) (data : List δ) : Prop where
  mem_blocks : (off, data.length) ∈ h.blocks
  value : ∀ i (hi : i < data.length), h.mem (off + i) = data[i]

variable {h} {off off' hint : Nat} {data data' : List δ}

theorem le_top {b : Nat × Nat} (hb : b ∈ h.blocks) : b.1 + b.2 ≤ h.top := by
  unfold top
  generalize h.blocks = bs at hb
  induction bs with
  | nil => cases hb
  | cons c bs ih =>
    rcases mem_cons.mp hb with rfl | hb
    · exact Nat.le_max_left _ _
    · exact Nat.le_trans (ih hb) (Nat.le_max_right _ _)

theorem free_place (size hint : Nat) : h.Free (h.place size hint) size := by
  unfold place
  split
  · assumption
  · exact fun b hb => .inr (le_top hb)

theorem holds_alloc : (h.alloc data hint).Holds (h.place data.length hint) data := by
  refine ⟨mem_cons_self, fun i hi => ?_⟩
  simp only [alloc]
  rw [if_pos (Nat.le_add_right _ i), Nat.add_sub_cancel_left, getElem?_eq_getElem hi]
  rfl

/-- **Blocks in use** keep what they hold. -/
theorem Holds.alloc (hh : h.Holds off data) (data' : List δ) (hint : Nat) :
    (h.alloc data' hint).Holds off data := by
  refine ⟨mem_cons_of_mem _ hh.mem_blocks, fun i hi => ?_⟩
  have hfree := free_place data'.length hint (off, data.length) hh.mem_blocks
  rw [← hh.value i hi]
  simp only [Heap.alloc]
  split
  · rw [getElem?_eq_none (by simp only at hfree; omega)]
    rfl
  · rfl

theorem Holds.ne_place (hh : h.Holds off data) (hne : data ≠ []) (data' : List δ) (hne' : data' ≠ [])
    (hint : Nat) : off ≠ h.place data'.length hint := by
  have hfree := free_place data'.length hint (off, data.length) hh.mem_blocks
  have := length_pos_iff.mpr hne
  have := length_pos_iff.mpr hne'
  omega

theorem Holds.dealloc (hh : h.Holds off data) (hne : off ≠ off') :
    (h.dealloc off').Holds off data :=
  ⟨mem_filter.mpr ⟨hh.mem_blocks, bne_iff_ne.mpr hne⟩, hh.value⟩

end Heap

end Vpp.Lib
