import Vpp.Lib.Run

/-!
# Token buckets

A bucket is topped up with `rate` tokens a tick, holds at most `limit`, and pays for what passes. Over
any stretch of time it cannot pay for more than a full bucket and what came in since.
-/

namespace Vpp.Lib

/-- What is in the bucket, and when it was last topped up. -/
structure TokenBucket where
  tokens : Nat
  last : Nat

/-- At time `b'.last` the bucket is topped up and pays `cost`. Tokens may get lost on the way. -/
structure TokenBucket.Pays (limit rate cost : Nat) (b b' : TokenBucket) : Prop where
  le : b.last ≤ b'.last
  capped : b'.tokens + cost ≤ limit
  earned : b'.tokens + cost ≤ b.tokens + rate * (b'.last - b.last)

section

variable {S A E : Type*} {step : S → A → S × E} {ok : S → A → Prop}

/-- **Conformance.** A component that pays for its outputs from a bucket has paid at most the limit and the
tokens of the time passed. -/
theorem Along.paid_le {limit rate : Nat} (bucket : S → TokenBucket) (cost : E → Nat) (inv : S → Prop)
    (hstep : ∀ s a, inv s → ok s a → inv (step s a).1 ∧
      (bucket s).Pays limit rate (cost (step s a).2) (bucket (step s a).1))
    {s : S} {a : A} {as : List A} (hs : inv s) (has : Along step ok s (a :: as)) :
    ((outputs step s (a :: as)).map cost).sum ≤
      limit + rate * ((bucket (after step s (a :: as))).last - (bucket (step s a).1).last) := by
  obtain ⟨hok, hrest⟩ := has
  obtain ⟨hinv, hpays⟩ := hstep s a hs hok
  have hcapped := hpays.capped
  generalize hfirst : (bucket (step s a).1).last = first
  -- what is left in the bucket counts as paid
  let paid (s : S) (es : List E) : Prop := inv s ∧ first ≤ (bucket s).last ∧
    (es.map cost).sum + (bucket s).tokens ≤ limit + rate * ((bucket s).last - first)
  have h0 : paid (step s a).1 [(step s a).2] := by
    refine ⟨hinv, Nat.le_of_eq hfirst.symm, ?_⟩
    rw [List.map_singleton, List.sum_singleton]
    omega
  have hturn : ∀ s a es, paid s es → ok s a → paid (step s a).1 (es ++ [(step s a).2]) := by
    intro s a es ⟨hs, hle, hsum⟩ hok
    obtain ⟨hs', hp⟩ := hstep s a hs hok
    have hlast := hp.le
    have hearned := hp.earned
    have hsplit : (bucket (step s a).1).last - first =
        ((bucket s).last - first) + ((bucket (step s a).1).last - (bucket s).last) := by omega
    refine ⟨hs', Nat.le_trans hle hlast, ?_⟩
    rw [List.map_append, List.sum_append, List.map_singleton, List.sum_singleton, hsplit,
      Nat.mul_add]
    omega
  obtain ⟨-, -, hrun⟩ := hrest.history paid hturn h0
  exact Nat.le_trans (Nat.le_add_right ..) hrun

end

end Vpp.Lib
