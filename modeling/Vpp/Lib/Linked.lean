import Mathlib.Data.BitVec

/-!
# Linked chains that share their ends

Nodes point at the next one, and a chain ends where there is none. Chains may run into each other;
`uses` counts the chains that a node belongs to.
-/

namespace Vpp.Lib

variable {ι : Type*}

def Links (next : ι → Option ι) : List ι → Prop
  | [] => False
  | [a] => next a = none
  | a :: b :: l => next a = some b ∧ Links next (b :: l)

section Links

variable {next next' : ι → Option ι} {a b : ι} {l : List ι}

theorem Links.congr (h : Links next l) (heq : ∀ a ∈ l, next' a = next a) : Links next' l := by
  induction l with
  | nil => exact h
  | cons a l ih =>
    have ha := heq a List.mem_cons_self
    cases l with
    | nil => exact ha.trans h
    | cons b l => exact ⟨ha.trans h.1, ih h.2 fun c hc => heq c (List.mem_cons_of_mem a hc)⟩

theorem Links.tail (h : Links next (a :: l)) :
    (next a = none ∧ l = []) ∨ ∃ b l', l = b :: l' ∧ next a = some b ∧ Links next (b :: l') := by
  cases l with
  | nil => exact .inl ⟨h, rfl⟩
  | cons b l => exact .inr ⟨b, l, rfl, h.1, h.2⟩

end Links

section Uses

variable [DecidableEq ι] {cs ds : List (List ι)} {c : List ι} {x : ι}

def uses (cs : List (List ι)) (x : ι) : Nat := cs.countP fun c => decide (x ∈ c)

@[simp] theorem uses_nil (x : ι) : uses [] x = 0 := rfl

theorem uses_cons (c : List ι) (cs : List (List ι)) (x : ι) :
    uses (c :: cs) x = uses cs x + if x ∈ c then 1 else 0 := by
  rw [uses, List.countP_cons, uses]
  simp

theorem uses_append (cs ds : List (List ι)) (x : ι) : uses (cs ++ ds) x = uses cs x + uses ds x :=
  List.countP_append

theorem uses_perm (h : cs.Perm ds) (x : ι) : uses cs x = uses ds x := h.countP_eq _

theorem uses_pos : 0 < uses cs x ↔ ∃ c ∈ cs, x ∈ c := by
  simp [uses]

theorem uses_eq_zero : uses cs x = 0 ↔ ∀ c ∈ cs, x ∉ c := by
  simp [uses]

end Uses

end Vpp.Lib
