import Mathlib.Data.BitVec

/-!
# Pools

Elements addressed by index, with a stack of freed indices that are handed out again before the pool
grows. The structure carries what makes the stack right: it holds exactly the unused indices below
the length, each once.
-/

namespace Vpp.Lib

open List

open Function (update update_self update_of_ne)

structure Pool (α : Type*) where
  elts : Nat → Option α
  len : Nat
  free : List Nat
  nodup : free.Nodup
  mem_free : ∀ i, i ∈ free ↔ i < len ∧ elts i = none
  outside : ∀ i, len ≤ i → elts i = none

namespace Pool

variable {α : Type*} (p : Pool α)

def empty : Pool α := ⟨fun _ => none, 0, [], nodup_nil, by simp, fun _ _ => rfl⟩

def next : Nat := p.free.headD p.len

theorem elts_next : p.elts p.next = none := by
  unfold next
  cases h : p.free with
  | nil => exact p.outside _ (Nat.le_refl _)
  | cons i free => exact ((p.mem_free i).mp (h ▸ mem_cons_self)).2

/-- Take the next index and put `x` there. -/
def get (x : α) : Pool α where
  elts := update p.elts p.next (some x)
  len := if p.free = [] then p.len + 1 else p.len
  free := p.free.tail
  nodup := p.nodup.tail
  mem_free i := by
    have hnd := p.nodup
    have hmem := p.mem_free i
    unfold next
    cases h : p.free with
    | nil =>
      rw [h] at hmem
      simp only [tail_nil, not_mem_nil, false_iff, headD_nil, if_true] at hmem ⊢
      rintro ⟨hlt, hnone⟩
      by_cases he : i = p.len
      · simp [he] at hnone
      · rw [update_of_ne he] at hnone
        exact hmem ⟨by omega, hnone⟩
    | cons j free =>
      rw [h] at hmem hnd
      have hj := (nodup_cons.mp hnd).1
      simp only [tail_cons, headD_cons, mem_cons, reduceCtorEq, if_false] at hmem ⊢
      by_cases he : i = j
      · subst he
        simp [hj]
      · rw [update_of_ne he, ← hmem]
        simp [he]
  outside i hi := by
    have hmem := p.mem_free p.next
    have hlt : p.next < (if p.free = [] then p.len + 1 else p.len) := by
      unfold next at hmem ⊢
      cases h : p.free with
      | nil => simp
      | cons j free =>
        rw [h] at hmem
        simpa using (hmem.mp mem_cons_self).1
    have hle : p.len ≤ if p.free = [] then p.len + 1 else p.len := by split <;> omega
    rw [update_of_ne (by omega)]
    exact p.outside i (by omega)

def set (i : Nat) (x : α) : Pool α :=
  match h : p.elts i with
  | none => p
  | some _ =>
    { p with
      elts := update p.elts i (some x)
      mem_free := fun j => by
        rw [p.mem_free j]
        by_cases he : j = i
        · subst he
          simp [h]
        · rw [update_of_ne he]
      outside := fun j hj => by
        have he : j ≠ i := by
          rintro rfl
          rw [p.outside j hj] at h
          cases h
        rw [update_of_ne he]
        exact p.outside j hj }

def put (i : Nat) : Pool α :=
  match h : p.elts i with
  | none => p
  | some _ =>
    { elts := update p.elts i none
      len := p.len
      free := i :: p.free
      nodup := by
        refine nodup_cons.mpr ⟨fun hi => ?_, p.nodup⟩
        rw [((p.mem_free i).mp hi).2] at h
        cases h
      mem_free := fun j => by
        have hi : i < p.len := by
          by_contra hge
          rw [p.outside i (by omega)] at h
          cases h
        rw [mem_cons, p.mem_free j]
        by_cases he : j = i
        · subst he
          simp [hi]
        · rw [update_of_ne he]
          simp [he]
      outside := fun j hj => by
        by_cases he : j = i
        · subst he
          exact update_self ..
        · rw [update_of_ne he]
          exact p.outside j hj }

@[simp] theorem elts_get (x : α) : (p.get x).elts = update p.elts p.next (some x) := rfl

theorem elts_set {i : Nat} (h : p.elts i ≠ none) (x : α) :
    (p.set i x).elts = update p.elts i (some x) := by
  unfold set
  split
  · contradiction
  · rfl

theorem elts_set_of_ne {i j : Nat} (h : j ≠ i) (x : α) : (p.set i x).elts j = p.elts j := by
  unfold set
  split
  · rfl
  · exact update_of_ne h _ _

@[simp] theorem elts_put (i : Nat) : (p.put i).elts = update p.elts i none := by
  unfold put
  split
  · rename_i h
    rw [← h, Function.update_eq_self]
  · rfl

end Pool

end Vpp.Lib
