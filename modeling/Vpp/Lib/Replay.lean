import Mathlib.Data.List.Nodup
import Mathlib.Data.List.ReduceOption
import Vpp.Lib.Run

/-!
# Replay windows

A receiver that lets every number through once, unless it is too far behind the highest number it
has let through. `Fresh` is the rule in terms of the numbers accepted so far, `Remembers` what a
receiver with a finite memory has to know to apply it, and `gate_history` and `gate_run` carry a receiver's
step property to every run.
-/

namespace Vpp.Lib

open List

/-- The highest of the accepted numbers, `0` before the first. -/
def highest (acc : List Nat) : Nat := acc.foldr max 0

/-- `n` was not accepted before and is at most `w` behind the highest accepted number. -/
def Fresh (w : Nat) (acc : List Nat) (n : Nat) : Prop := n ∉ acc ∧ highest acc ≤ n + w

theorem le_highest {acc : List Nat} {n : Nat} (h : n ∈ acc) : n ≤ highest acc := by
  induction acc with
  | nil => cases h
  | cons a acc ih =>
    rcases mem_cons.mp h with rfl | h
    · exact Nat.le_max_left ..
    · exact Nat.le_trans (ih h) (Nat.le_max_right ..)

@[simp] theorem highest_concat (acc : List Nat) (n : Nat) :
    highest (acc ++ [n]) = max (highest acc) n := by
  induction acc with
  | nil => exact Nat.max_comm n 0
  | cons a acc ih =>
    show max a (highest (acc ++ [n])) = max (max a (highest acc)) n
    rw [ih, Nat.max_assoc]

/-- A receiver at `top` whose memory `seen` is right for the last `w` numbers. -/
structure Remembers (w : Nat) (acc : List Nat) (top : Nat) (seen : Nat → Prop) : Prop where
  top_eq : top = highest acc
  seen_iff : ∀ n ≤ top, top ≤ n + w → (seen n ↔ n ∈ acc)

namespace Remembers

variable {w top n : Nat} {acc : List Nat} {seen seen' : Nat → Prop}

section

variable (h : Remembers w acc top seen)
include h

theorem not_mem_of_lt (hn : top < n) : n ∉ acc :=
  fun hmem => Nat.not_le.mpr hn (h.top_eq ▸ le_highest hmem)

theorem fresh_iff : Fresh w acc n ↔ top < n ∨ (n ≤ top ∧ top ≤ n + w ∧ ¬ seen n) := by
  unfold Fresh
  rw [← h.top_eq]
  rcases Nat.lt_or_ge top n with hlt | hle
  · exact ⟨fun _ => .inl hlt, fun _ => ⟨h.not_mem_of_lt hlt, by omega⟩⟩
  constructor
  · rintro ⟨hmem, hw⟩
    exact .inr ⟨hle, hw, fun hs => hmem ((h.seen_iff n hle hw).mp hs)⟩
  · rintro (hlt | ⟨-, hw, hs⟩)
    · omega
    · exact ⟨fun hmem => hs ((h.seen_iff n hle hw).mpr hmem), hw⟩

theorem ahead (hlt : top < n) (hn : seen' n) (hold : ∀ m ≤ top, n ≤ m + w → (seen' m ↔ seen m))
    (hgap : ∀ m, top < m → m < n → n ≤ m + w → ¬ seen' m) : Remembers w (acc ++ [n]) n seen' := by
  refine ⟨?_, fun m hm hw => ?_⟩
  · rw [highest_concat, ← h.top_eq, Nat.max_eq_right (Nat.le_of_lt hlt)]
  rw [mem_append, mem_singleton]
  rcases Nat.lt_or_ge top m with hgt | hle
  · have hnot := h.not_mem_of_lt hgt
    rcases Nat.lt_or_ge m n with hmn | hmn
    · exact ⟨fun hs => absurd hs (hgap m hgt hmn hw), fun hm => by
        rcases hm with hm | hm
        · exact absurd hm hnot
        · omega⟩
    · obtain rfl : m = n := by omega
      exact ⟨fun _ => .inr rfl, fun _ => hn⟩
  · rw [hold m hle hw, h.seen_iff m hle (by omega)]
    exact ⟨.inl, fun hm => hm.elim id fun he => by omega⟩

theorem behind (hle : n ≤ top) (hn : seen' n)
    (hold : ∀ m ≤ top, top ≤ m + w → m ≠ n → (seen' m ↔ seen m)) :
    Remembers w (acc ++ [n]) top seen' := by
  refine ⟨?_, fun m hm hw => ?_⟩
  · rw [highest_concat, ← h.top_eq, Nat.max_eq_left hle]
  rw [mem_append, mem_singleton]
  by_cases he : m = n
  · subst he
    exact ⟨fun _ => .inr rfl, fun _ => hn⟩
  · rw [hold m hm hw he, h.seen_iff m hm hw]
    exact ⟨.inl, fun h => h.elim id fun h => absurd h he⟩

end

end Remembers

/-! ## Runs -/

section Gate

variable {S A : Type*} (recv : S → A → S × Bool)

/-- A receiver as a component whose output is the number it accepts, if it does. -/
def gate (s : S) (n : A) : S × Option A :=
  ((recv s n).1, if (recv s n).2 then some n else none)

def accepted (s : S) (ns : List A) : List A := (outputs (gate recv) s ns).reduceOption

variable {recv} {num : A → Nat} {ok : S → A → Prop} {w : Nat} {s : S} {ns : List A}

/-- **History rule.** An invariant between the state and what has been accepted is kept by a run of steps that
keep it. -/
theorem gate_history (inv : S → List A → Prop) (hstep : ∀ s acc n, inv s acc → ok s n →
      inv (recv s n).1 (if (recv s n).2 then acc ++ [n] else acc))
    (h0 : inv s []) (hns : Along (gate recv) ok s ns) : inv (after (gate recv) s ns) (accepted recv s ns) := by
  have hrun := Along.history (fun s es => inv s es.reduceOption) (fun s n es hi hn => by
    have hnext := hstep s _ n hi hn
    unfold gate
    cases hb : (recv s n).2 with
    | false => simpa [reduceOption_append, hb] using hnext
    | true => simpa [reduceOption_append, hb] using hnext)
    (show inv s (reduceOption []) from h0) hns
  simpa [accepted] using hrun

/-- **Run rule.** A receiver whose steps follow the rule, and whose invariant ties its state to the numbers
accepted, keeps the invariant and accepts nothing twice. -/
theorem gate_run {inv : S → List Nat → Prop} (hok : ∀ s acc n, inv s acc → ok s n →
      ((recv s n).2 = true ↔ Fresh w acc (num n))) (hinv : ∀ s acc n, inv s acc → ok s n →
      inv (recv s n).1 (if (recv s n).2 then acc ++ [num n] else acc))
    (h0 : inv s []) (hns : Along (gate recv) ok s ns) :
    inv (after (gate recv) s ns) ((accepted recv s ns).map num) ∧
      ((accepted recv s ns).map num).Nodup := by
  refine gate_history (fun s acc => inv s (acc.map num) ∧ (acc.map num).Nodup)
    (fun s acc n h hn => ?_) ⟨h0, nodup_nil⟩ hns
  have hnext := hinv s _ n h.1 hn
  split
  · rename_i hb
    have hfresh := ((hok s _ n h.1 hn).mp hb).1
    rw [if_pos hb] at hnext
    rw [map_append, map_singleton, nodup_append]
    exact ⟨hnext, h.2, nodup_singleton _, fun a ha b hm he => hfresh (mem_singleton.mp hm ▸ he ▸ ha)⟩
  · rename_i hb
    rw [if_neg hb] at hnext
    exact ⟨hnext, h.2⟩

end Gate

end Vpp.Lib
