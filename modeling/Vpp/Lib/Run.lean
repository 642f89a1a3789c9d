import Mathlib.Data.BitVec

/-!
# Runs of a deterministic component

A component is a step function from a state and an input to a new state and an output. `after` and
`outputs` run it over a list of inputs, `Along` says that every input of a run meets a condition in
the state it finds, and the invariant rule carries a step property to every output and to the last
state of a run. `Behaves` are the runs of an abstract system given by a relation; the simulation rule
finds one with the same outputs.
-/

namespace Vpp.Lib

open List

section Run

variable {S A E : Type*} (step : S → A → S × E)

def after : S → List A → S
  | s, [] => s
  | s, a :: as => after (step s a).1 as

def outputs : S → List A → List E
  | _, [] => []
  | s, a :: as => (step s a).2 :: outputs (step s a).1 as

/-- Every input meets `ok` in the state it finds. -/
def Along (ok : S → A → Prop) : S → List A → Prop
  | _, [] => True
  | s, a :: as => ok s a ∧ Along ok (step s a).1 as

instance Along.instDecidable (ok : S → A → Prop) [∀ s a, Decidable (ok s a)] :
    (s : S) → (as : List A) → Decidable (Along step ok s as)
  | _, [] => inferInstanceAs (Decidable True)
  | s, a :: as =>
    have := Along.instDecidable ok (step s a).1 as
    inferInstanceAs (Decidable (_ ∧ _))

theorem after_append (s : S) (as bs : List A) :
    after step s (as ++ bs) = after step (after step s as) bs := by
  induction as generalizing s with
  | nil => rfl
  | cons a as ih => exact ih _

theorem outputs_append (s : S) (as bs : List A) :
    outputs step s (as ++ bs) = outputs step s as ++ outputs step (after step s as) bs := by
  induction as generalizing s with
  | nil => rfl
  | cons a as ih => simp only [cons_append, outputs, after, ih]

variable {step} {ok : S → A → Prop} {s : S} {as : List A}

/-- **Invariant rule.** A step that keeps the invariant and outputs only good things does so all
along a run. -/
theorem Along.invariant (inv : S → Prop) (good : E → Prop)
    (hstep : ∀ s a, inv s → ok s a → inv (step s a).1 ∧ good (step s a).2)
    (hs : inv s) (has : Along step ok s as) :
    inv (after step s as) ∧ ∀ e ∈ outputs step s as, good e := by
  induction as generalizing s with
  | nil => exact ⟨hs, fun _ h => nomatch h⟩
  | cons a as ih =>
    obtain ⟨hok, hrest⟩ := has
    obtain ⟨hs', hgood⟩ := hstep s a hs hok
    obtain ⟨hafter, hall⟩ := ih hs' hrest
    refine ⟨hafter, fun e he => ?_⟩
    rcases mem_cons.mp he with rfl | he
    · exact hgood
    · exact hall e he

/-- **Invariant rule for inputs.** What holds of an input in every state with the invariant holds of
all inputs of a run. -/
theorem Along.strengthen {ok' : S → A → Prop} (inv : S → Prop)
    (hstep : ∀ s a, inv s → ok s a → inv (step s a).1 ∧ ok' s a) (hs : inv s)
    (has : Along step ok s as) : inv (after step s as) ∧ Along step ok' s as := by
  induction as generalizing s with
  | nil => exact ⟨hs, trivial⟩
  | cons a as ih =>
    obtain ⟨hinv, hok⟩ := hstep s a hs has.1
    exact (ih hinv has.2).imp_right fun h => ⟨hok, h⟩

/-- **Invariant rule with history.** A step that keeps a relation between the state and the outputs
so far establishes it for the whole run. -/
theorem Along.history (inv : S → List E → Prop)
    (hstep : ∀ s a es, inv s es → ok s a → inv (step s a).1 (es ++ [(step s a).2]))
    {es : List E} (hs : inv s es) (has : Along step ok s as) :
    inv (after step s as) (es ++ outputs step s as) := by
  induction as generalizing s es with
  | nil => simpa [after, outputs] using hs
  | cons a as ih =>
    obtain ⟨hok, hrest⟩ := has
    have := ih (hstep s a es hs hok) hrest
    rwa [append_assoc] at this

/-- The runs of a system that in state `t` may answer `a` with `e` and go on to `t'` if `may t a e t'`: where
it starts, what it gets and answers, and where it ends. -/
inductive Behaves {T : Type*} (may : T → A → E → T → Prop) : T → List A → List E → T → Prop
  | nil (t : T) : Behaves may t [] [] t
  | cons {t t' t'' : T} {a : A} {e : E} {as : List A} {es : List E} (h : may t a e t')
      (hrest : Behaves may t' as es t'') : Behaves may t (a :: as) (e :: es) t''

/-- **Simulation rule.** If every step matches one of the abstract system, so does every run. -/
theorem Along.simulates {T : Type*} {may : T → A → E → T → Prop} (rel : S → T → Prop)
    (hstep : ∀ s t a, rel s t → ok s a → ∃ t', may t a (step s a).2 t' ∧ rel (step s a).1 t')
    {t : T} (hs : rel s t) (has : Along step ok s as) :
    ∃ t', Behaves may t as (outputs step s as) t' ∧ rel (after step s as) t' := by
  induction as generalizing s t with
  | nil => exact ⟨t, .nil t, hs⟩
  | cons a as ih =>
    obtain ⟨hok, hrest⟩ := has
    obtain ⟨t', hmay, hs'⟩ := hstep s t a hs hok
    obtain ⟨t'', hbeh, hend⟩ := ih hs' hrest
    exact ⟨t'', .cons hmay hbeh, hend⟩

theorem along_of_forall (h : ∀ s a, ok s a) (s : S) (as : List A) : Along step ok s as := by
  induction as generalizing s with
  | nil => trivial
  | cons a as ih => exact ⟨h s a, ih _⟩

theorem along_of_mem {P : A → Prop} (h : ∀ a ∈ as, P a) (s : S) :
    Along step (fun _ a => P a) s as := by
  induction as generalizing s with
  | nil => trivial
  | cons a as ih =>
    exact ⟨h a mem_cons_self, ih (fun b hb => h b (mem_cons_of_mem a hb)) _⟩

theorem along_append {as bs : List A} :
    Along step ok s (as ++ bs) ↔ Along step ok s as ∧ Along step ok (after step s as) bs := by
  induction as generalizing s with
  | nil => exact ⟨fun h => ⟨trivial, h⟩, fun h => h.2⟩
  | cons a as ih => simp only [cons_append, Along, after, ih, and_assoc]

end Run

variable {S : Type*} {n : Nat} {turn : S → Nat → Option S}

theorem foldl_range (inv : Nat → S → Prop) (turn : S → Nat → S) {s : S}
    (h0 : inv 0 s) (hturn : ∀ t < n, ∀ s, inv t s → inv (t + 1) (turn s t)) :
    inv n ((List.range n).foldl turn s) := by
  induction n with
  | zero => exact h0
  | succ n ih =>
    rw [range_succ, foldl_append]
    exact hturn n (Nat.lt_succ_self n) _ (ih fun t ht => hturn t (Nat.lt_succ_of_lt ht))

theorem foldlM_range (inv : Nat → S → Prop)
    {s s' : S} (h : (List.range n).foldlM turn s = some s') (h0 : inv 0 s)
    (hturn : ∀ t < n, ∀ s s', inv t s → turn s t = some s' → inv (t + 1) s') : inv n s' := by
  induction n generalizing s' with
  | zero =>
    exact Option.some.inj h ▸ h0
  | succ n ih =>
    rw [range_succ, foldlM_append] at h
    obtain ⟨r, hr, hlast⟩ := Option.bind_eq_some_iff.mp h
    simp only [foldlM_cons, foldlM_nil, bind_pure] at hlast
    exact hturn n (Nat.lt_succ_self n) r s' (ih hr fun t ht => hturn t (Nat.lt_succ_of_lt ht)) hlast

theorem exists_foldlM_range (inv : Nat → S → Prop) {s : S} (h0 : inv 0 s)
    (hturn : ∀ t < n, ∀ s, inv t s → ∃ s', turn s t = some s' ∧ inv (t + 1) s') :
    ∃ s', (List.range n).foldlM turn s = some s' ∧ inv n s' := by
  induction n with
  | zero => exact ⟨s, rfl, h0⟩
  | succ n ih =>
    obtain ⟨r, hr, hinv⟩ := ih fun t ht => hturn t (Nat.lt_succ_of_lt ht)
    obtain ⟨s', hs', hinv'⟩ := hturn n (Nat.lt_succ_self n) r hinv
    refine ⟨s', ?_, hinv'⟩
    rw [range_succ, foldlM_append, hr]
    show [n].foldlM turn r = some s'
    simp only [foldlM_cons, foldlM_nil, bind_pure, hs']

end Vpp.Lib
