import Mathlib.Data.BitVec
import Mathlib.Data.Fintype.Card
import Mathlib.Data.Set.Finite.Basic

/-!
# Loops that may not end

A loop is given by its body, which fails, goes on with a new state or stops with a result. `loop` runs it
a number of times at most; `Returns` says that it comes to a result however long it takes. A walk over
finitely many places ends exactly if it does not come back to one of them.
-/

namespace Vpp.Lib

variable {S A E : Type*} (body : S → Except E (S ⊕ A))

/-- At most `n` turns: `none` if the loop has not ended. -/
def loop : Nat → S → Option (Except E A)
  | 0, _ => none
  | n + 1, s =>
    match body s with
    | .error e => some (.error e)
    | .ok (.inl t) => loop n t
    | .ok (.inr a) => some (.ok a)

inductive Returns : S → A → Prop
  | stop {s : S} {a : A} (h : body s = .ok (.inr a)) : Returns s a
  | turn {s t : S} {a : A} (h : body s = .ok (.inl t)) (ht : Returns t a) : Returns s a

variable {body} {s : S} {a : A}

variable {n : Nat} {C : S → Prop}

theorem Returns.of_loop (h : loop body n s = some (.ok a)) : Returns body s a := by
  induction n generalizing s with
  | zero => cases h
  | succ n ih =>
    unfold loop at h
    cases hs : body s with
    | error e =>
      rw [hs] at h
      cases h
    | ok r =>
      rw [hs] at h
      cases r with
      | inl t => exact .turn hs (ih h)
      | inr b =>
        obtain rfl : b = a := by simpa using h
        exact .stop hs

/-- **Enough turns.** The loop returns exactly if some number of turns is enough. -/
theorem exists_loop_iff : (∃ n, loop body n s = some (.ok a)) ↔ Returns body s a := by
  constructor
  · rintro ⟨n, h⟩
    exact .of_loop h
  intro h
  induction h with
  | stop h => exact ⟨1, by rw [loop, h]⟩
  | turn h _ ih =>
    obtain ⟨n, hn⟩ := ih
    exact ⟨n + 1, by rw [loop, h]; exact hn⟩

theorem loop_eq_none (hC : ∀ s, C s → ∃ t, body s = .ok (.inl t) ∧ C t) (hs : C s)
    (n : Nat) : loop body n s = none := by
  induction n generalizing s with
  | zero => rfl
  | succ n ih =>
    obtain ⟨t, ht, hCt⟩ := hC s hs
    rw [loop, ht]
    exact ih hCt

theorem exists_loop_of_measure (m : S → Nat)
    (hC : ∀ s, C s → (∃ t, body s = .ok (.inl t) ∧ C t ∧ m t < m s) ∨ ∃ a, body s = .ok (.inr a))
    (hs : C s) (hn : m s < n) : ∃ a, loop body n s = some (.ok a) := by
  induction n generalizing s with
  | zero => cases hn
  | succ n ih =>
    rcases hC s hs with ⟨t, ht, hCt, hlt⟩ | ⟨a, ha⟩
    · rw [loop, ht]
      exact ih hCt (by omega)
    · exact ⟨a, by rw [loop, ha]⟩

open Relation

variable {V : Type*} {R : V → V → Prop} {v : V}

/-- **Walks end** from a place that reaches finitely many places exactly if none of these reaches itself. -/
theorem acc_iff_acyclic (hfin : {w | ReflTransGen R v w}.Finite) :
    Acc (Function.swap R) v ↔ ∀ w, ReflTransGen R v w → ¬ TransGen R w w := by
  constructor
  · intro hv w hw
    have hacc : Acc (Function.swap R) w := by
      induction hw with
      | refl => exact hv
      | tail _ hstep ih => exact ih.inv hstep
    clear hw
    induction hacc with
    | intro w _ ih =>
      intro hcycle
      obtain ⟨x, hx, hback⟩ := TransGen.head'_iff.mp hcycle
      exact ih x hx (TransGen.tail' hback hx)
  · intro h
    have := hfin.to_subtype
    let r (x y : {w | ReflTransGen R v w}) : Prop := TransGen R y.1 x.1
    have : IsTrans _ r := ⟨fun _ _ _ hxy hyz => hyz.trans hxy⟩
    have : Std.Irrefl r := ⟨fun x => h x.1 x.2⟩
    have hall : ∀ x : {w | ReflTransGen R v w}, Acc (Function.swap R) x.1 := fun x => by
      induction x using (Finite.wellFounded_of_trans_of_irrefl r).induction with
      | _ x ih => exact .intro _ fun y hy => ih ⟨y, x.2.tail hy⟩ (.single hy)
    exact hall ⟨v, .refl⟩

end Vpp.Lib
