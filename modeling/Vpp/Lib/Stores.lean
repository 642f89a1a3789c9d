import Mathlib.Data.BitVec

/-!
# Stores to a memory

A list of stores, each an address and a value, and the memory after them. `stretch` are the stores of
a copy loop over consecutive addresses. `Copies` says what a list of stores does to every memory: it
fills a stretch of addresses and changes nothing else.
-/

namespace Vpp.Lib

open List

open Function (update update_self update_of_ne)

variable {δ : Type*}

def store (m : Nat → δ) (ws : List (Nat × δ)) : Nat → δ :=
  ws.foldl (fun m w => update m w.1 w.2) m

/-- `n` values of `f`, stored from address `d` on. -/
def stretch (d n : Nat) (f : Nat → δ) : List (Nat × δ) := (List.range n).map fun j => (d + j, f j)

/-- The stores put `n` values of `f` at address `d` and leave the rest of every memory as it is. -/
def Copies (ws : List (Nat × δ)) (d n : Nat) (f : Nat → δ) : Prop :=
  ∀ m a, store m ws a = if d ≤ a ∧ a < d + n then f (a - d) else m a

variable {m : Nat → δ}

@[simp] theorem store_nil : store m [] = m := rfl

theorem store_append (ws vs : List (Nat × δ)) : store m (ws ++ vs) = store (store m ws) vs := foldl_append

theorem store_of_notMem {a : Nat} {ws : List (Nat × δ)} (h : a ∉ ws.map Prod.fst) (m : Nat → δ) :
    store m ws a = m a := by
  induction ws generalizing m with
  | nil => rfl
  | cons w ws ih =>
    rw [map_cons, mem_cons, not_or] at h
    exact (ih h.2 _).trans (update_of_ne h.1 _ _)

theorem store_eq_of_mem {a : Nat} {ws : List (Nat × δ)} (h : a ∈ ws.map Prod.fst)
    (m m' : Nat → δ) : store m ws a = store m' ws a := by
  induction ws generalizing m m' with
  | nil => cases h
  | cons w ws ih =>
    show store (update m w.1 w.2) ws a = store (update m' w.1 w.2) ws a
    by_cases hin : a ∈ ws.map Prod.fst
    · exact ih hin _ _
    · have ha : a = w.1 := by
        rw [map_cons, mem_cons] at h
        exact h.resolve_right hin
      rw [store_of_notMem hin, store_of_notMem hin, ha, update_self, update_self]

@[simp] theorem stretch_zero (d : Nat) (f : Nat → δ) : stretch d 0 f = [] := rfl

theorem stretch_add (d n k : Nat) (f : Nat → δ) :
    stretch d (n + k) f = stretch d n f ++ stretch (d + n) k fun j => f (n + j) := by
  simp only [stretch, range_add, map_append, map_map, Function.comp_def, Nat.add_assoc]

theorem mem_stretch {a d n : Nat} {f : Nat → δ} :
    a ∈ (stretch d n f).map Prod.fst ↔ d ≤ a ∧ a < d + n := by
  simp only [stretch, map_map, Function.comp_def, mem_map, mem_range]
  constructor
  · omega
  · exact fun h => ⟨a - d, by omega, by omega⟩

theorem copies_stretch (d n : Nat) (f : Nat → δ) : Copies (stretch d n f) d n f := by
  intro m a
  induction n with
  | zero => rw [if_neg (by omega), stretch_zero, store_nil]
  | succ n ih =>
    have hlast : store (store m (stretch d n f)) (stretch (d + n) 1 fun j => f (n + j)) a =
        if a = d + n then f n else store m (stretch d n f) a :=
      Function.update_apply _ _ _ _
    rw [stretch_add, store_append, hlast, ih]
    by_cases ha : a = d + n
    · rw [if_pos ha, if_pos (by omega), ha, Nat.add_sub_cancel_left]
    · rw [if_neg ha]
      exact if_congr (by omega) rfl rfl

variable {ws : List (Nat × δ)} {d n a : Nat} {f g : Nat → δ}

theorem not_copies_of_stray [Nontrivial δ] (ha : a ∈ ws.map Prod.fst)
    (hout : ¬ (d ≤ a ∧ a < d + n)) : ¬ Copies ws d n f := by
  intro h
  obtain ⟨x, hx⟩ := exists_ne (store (fun _ => f 0) ws a)
  have hsame := store_eq_of_mem ha (fun _ => f 0) fun _ => x
  rw [hsame, h, if_neg hout] at hx
  exact hx rfl

/-- **A store in front of a copy** is part of it just if it has the first value. -/
theorem copies_cons {b : δ} (hd : d ∉ ws.map Prod.fst) :
    Copies ((d, b) :: ws) d (n + 1) f ↔ b = f 0 ∧ Copies ws (d + 1) n fun j => f (j + 1) := by
  -- the stores after the first one do not see it
  have hskip : ∀ m a, a ≠ d → store m ((d, b) :: ws) a = store m ws a := by
    intro m a ha
    show store (update m d b) ws a = store m ws a
    by_cases hin : a ∈ ws.map Prod.fst
    · exact store_eq_of_mem hin _ _
    · rw [store_of_notMem hin, store_of_notMem hin, update_of_ne ha]
  have hfirst : ∀ m, store m ((d, b) :: ws) d = b := fun m =>
    (store_of_notMem hd _).trans (update_self _ _ _)
  have hshift : ∀ m : Nat → δ, ∀ a, a ≠ d → (if d ≤ a ∧ a < d + (n + 1) then f (a - d) else m a) =
        if d + 1 ≤ a ∧ a < d + 1 + n then f (a - (d + 1) + 1) else m a := by
    intro m a ha
    by_cases h : d ≤ a ∧ a < d + (n + 1)
    · rw [if_pos h, if_pos (by omega), show a - (d + 1) + 1 = a - d by omega]
    · rw [if_neg h, if_neg (by omega)]
  constructor
  · intro h
    refine ⟨?_, fun m a => ?_⟩
    · have := h (fun _ => b) d
      rwa [hfirst, if_pos (by omega), Nat.sub_self] at this
    · by_cases ha : a = d
      · rw [if_neg (by omega), ha, store_of_notMem hd]
      · rw [← hskip m a ha, h, hshift m a ha]
  · rintro ⟨rfl, h⟩ m a
    by_cases ha : a = d
    · rw [ha, hfirst, if_pos (by omega), Nat.sub_self]
    · rw [hskip m a ha, h, hshift m a ha]

end Vpp.Lib
