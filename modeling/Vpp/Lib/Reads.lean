import Mathlib.Data.BitVec

/-!
# Computations that read a memory

A computation over a memory that records every address it reads. `ReadsIn P` bounds the addresses a
computation touches on a given memory by a predicate, and the rules follow the way the computation
is put together: sequencing may use the value the first part returned.
-/

namespace Vpp.Lib

/-- A computation that reads cells of type `V` at addresses of type `I`, with the addresses read. -/
def Reads (I V α : Type) : Type := (I → V) → α × List I

namespace Reads

variable {I V α β : Type}

instance : Monad (Reads I V) where
  pure a := fun _ => (a, [])
  bind m k := fun mem => ((k (m mem).1 mem).1, (m mem).2 ++ (k (m mem).1 mem).2)

def cell (i : I) : Reads I V V := fun mem => (mem i, [i])

def value (m : Reads I V α) (mem : I → V) : α := (m mem).1

def touched (m : Reads I V α) (mem : I → V) : List I := (m mem).2

variable {mem : I → V}

@[simp] theorem value_pure (a : α) : (pure a : Reads I V α).value mem = a := rfl

@[simp] theorem value_bind (m : Reads I V α) (k : α → Reads I V β) :
    (m >>= k).value mem = (k (m.value mem)).value mem := rfl

@[simp] theorem touched_bind (m : Reads I V α) (k : α → Reads I V β) :
    (m >>= k).touched mem = m.touched mem ++ (k (m.value mem)).touched mem := rfl

@[simp] theorem touched_cell (i : I) : (cell i : Reads I V V).touched mem = [i] := rfl

end Reads

/-- Every address read on `mem` satisfies `P`. -/
def ReadsIn {I V α : Type} (P : I → Prop) (mem : I → V) (m : Reads I V α) : Prop :=
  ∀ i ∈ m.touched mem, P i

section ReadsIn

variable {I V α β : Type} {P : I → Prop} {mem : I → V}

theorem readsIn_pure (a : α) : ReadsIn P mem (pure a : Reads I V α) := fun _ h => nomatch h

theorem readsIn_cell {i : I} (h : P i) : ReadsIn P mem (Reads.cell i : Reads I V V) :=
  fun j hj => by
    rw [Reads.touched_cell, List.mem_singleton] at hj
    exact hj ▸ h

theorem ReadsIn.bind {m : Reads I V α} {k : α → Reads I V β} (hm : ReadsIn P mem m)
    (hk : ReadsIn P mem (k (m.value mem))) : ReadsIn P mem (m >>= k) := by
  intro i hi
  rw [Reads.touched_bind, List.mem_append] at hi
  exact hi.elim (hm i) (hk i)

end ReadsIn

end Vpp.Lib
