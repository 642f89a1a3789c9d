import Vpp.Bihash.Table
import Vpp.Lib.Run

/-!
# Splitting keeps the pairs

An array of pages is followed by the list of its live pairs, up to their order. A split moves every
live pair of the old array to its place in the new one and gives up where a page has no room; the
linear bucket has room for all of them and for one more, so that an expansion always succeeds.
-/

namespace Vpp.Bihash

open Lib

variable {K V : Type} {c : Config K V} {values : Values K V} {log2Pages : Nat} {linear : Bool}
  {L L' : List (K × V)} {kv : K × V}

/-- The pairs `L` are in the array, each where the search looks for it. -/
structure Filled (c : Config K V) (values : Values K V) (log2Pages : Nat) (linear : Bool)
    (L : List (K × V)) : Prop where
  perm : (entries c.isFree values (c.kvpPerPage * 2 ^ log2Pages)).Perm L
  placed : Placed c.isFree (fun k => pageRange c linear log2Pages (c.hash k)) values
    (c.kvpPerPage * 2 ^ log2Pages)

theorem pageRange_le (hash : BitVec 64) :
    (pageRange c linear log2Pages hash).1 + (pageRange c linear log2Pages hash).2 ≤
      c.kvpPerPage * 2 ^ log2Pages := by
  unfold pageRange
  split
  · exact le_of_eq (zero_add _)
  · exact Nat.mul_le_mul_left _ (Nat.mod_lt _ (Nat.two_pow_pos log2Pages))

theorem valueAlloc_isFree (junk : Values K V) (j : Nat) :
    c.isFree (valueAlloc c junk j).2 = true := c.isFree_markFree _

theorem filled_valueAlloc (c : Config K V) (junk : Values K V) (log2Pages : Nat) (linear : Bool) :
    Filled c (valueAlloc c junk) log2Pages linear [] :=
  ⟨by rw [entries_of_free fun j _ => valueAlloc_isFree junk j],
    placed_of_free fun j _ => valueAlloc_isFree junk j⟩

namespace Filled

theorem of_perm (h : Filled c values log2Pages linear L) (hp : L.Perm L') :
    Filled c values log2Pages linear L' := ⟨h.perm.trans hp, h.placed⟩

theorem put (h : Filled c values log2Pages linear L) (hlive : c.isFree kv.2 = false) {i : Nat}
    (hi : firstIn (fun i => c.isFree (values i).2) (pageRange c linear log2Pages (c.hash kv.1)).1
      (pageRange c linear log2Pages (c.hash kv.1)).2 = some i) :
    Filled c (Function.update values i kv) log2Pages linear (kv :: L) := by
  obtain ⟨hfree, hin, -⟩ := firstIn_eq_some.mp hi
  have hlt := lt_of_lt_of_le hin.2 (pageRange_le (c.hash kv.1))
  refine ⟨?_, h.placed.put hlive hi⟩
  exact (entries_update_live hlt hlive).trans (((entries_dead hlt hfree).symm.trans h.perm).cons kv)

end Filled

/-! ## A split onto pages -/

variable {oldLog2Pages newLog2Pages : Nat}

variable {junk old : Values K V}

theorem splitAndRehash_filled {new : Values K V}
    (h : splitAndRehash c old oldLog2Pages newLog2Pages junk = some new) :
    Filled c new newLog2Pages false (entries c.isFree old (2 ^ oldLog2Pages * c.kvpPerPage)) := by
  refine foldlM_range (fun t new => Filled c new newLog2Pages false (entries c.isFree old t)) h
    (filled_valueAlloc c junk newLog2Pages false) fun t _ new new' hnew hturn => ?_
  unfold rehashPair at hturn
  split at hturn
  · rename_i hfree
    rw [entries_succ_of_free hfree]
    exact Option.some.inj hturn ▸ hnew
  rename_i hlive
  have hlive' : c.isFree (old t).2 = false := by simpa using hlive
  dsimp only at hturn
  split at hturn
  · rename_i j hj
    rw [← Option.some.inj hturn]
    exact (hnew.put hlive' hj).of_perm (entries_succ_of_live hlive')
  · exact nomatch hturn

/-! ## A linear bucket -/

structure Packed (c : Config K V) (newLog2Pages : Nat) (old : Values K V) (t : Nat)
    (s : Values K V × Nat) : Prop where
  filled : Filled c s.1 newLog2Pages true (entries c.isFree old t)
  le : s.2 ≤ t
  live : ∀ j < s.2, c.isFree (s.1 j).2 = false
  free : ∀ j, s.2 ≤ j → c.isFree (s.1 j).2 = true

theorem rehashPairLinear_packed {t : Nat} {s : Values K V × Nat} (h : Packed c newLog2Pages old t s)
    (ht : t < 2 ^ newLog2Pages * c.kvpPerPage) :
    ∃ s', rehashPairLinear c old (2 ^ newLog2Pages * c.kvpPerPage) s t = some s' ∧
      Packed c newLog2Pages old (t + 1) s' := by
  have hlt : s.2 < 2 ^ newLog2Pages * c.kvpPerPage := lt_of_le_of_lt h.le ht
  unfold rehashPairLinear
  cases hold : c.isFree (old t).2 with
  | true =>
    refine ⟨s, if_pos ⟨hlt, rfl⟩, ?_, Nat.le_succ_of_le h.le, h.live, h.free⟩
    rw [entries_succ_of_free hold]
    exact h.filled
  | false =>
    have hto : FilledTo c.isFree s.1 s.2 := ⟨h.live, h.free⟩
    have hhome : firstIn (fun j => c.isFree (s.1 j).2)
        (pageRange c true newLog2Pages (c.hash (old t).1)).1
        (pageRange c true newLog2Pages (c.hash (old t).1)).2 = some s.2 := by
      refine hto.firstIn (Nat.zero_le _) ?_
      show s.2 < 0 + c.kvpPerPage * 2 ^ newLog2Pages
      rw [zero_add, mul_comm]
      exact hlt
    rw [if_neg (by simp), hto.firstIn (le_refl _) (by omega)]
    have hput := hto.put hold
    exact ⟨_, rfl, (h.filled.put hold hhome).of_perm (entries_succ_of_live hold), Nat.succ_le_succ h.le,
      hput.live, hput.free⟩

theorem exists_splitAndRehashLinear (c : Config K V) (old junk : Values K V)
    (hle : oldLog2Pages ≤ newLog2Pages) :
    ∃ new, splitAndRehashLinear c old oldLog2Pages newLog2Pages junk = some new ∧
      Filled c new newLog2Pages true (entries c.isFree old (2 ^ oldLog2Pages * c.kvpPerPage)) := by
  have hsize : 2 ^ oldLog2Pages * c.kvpPerPage ≤ 2 ^ newLog2Pages * c.kvpPerPage :=
    Nat.mul_le_mul_right _ (Nat.pow_le_pow_right (by decide) hle)
  obtain ⟨s, hs, hp⟩ := exists_foldlM_range (Packed c newLog2Pages old)
    (s := (valueAlloc c junk, 0))
    ⟨filled_valueAlloc c junk newLog2Pages true, le_refl 0, fun j hj => absurd hj (Nat.not_lt_zero j),
      fun j _ => valueAlloc_isFree junk j⟩
    fun t ht s hs => rehashPairLinear_packed hs (lt_of_lt_of_le ht hsize)
  refine ⟨s.1, ?_, hp.filled⟩
  rw [splitAndRehashLinear, hs]
  rfl

/-! ## The expansion -/

theorem addNew_filled {new new' : Values K V} (h : Filled c new newLog2Pages linear L)
    (hlive : c.isFree kv.2 = false) (hadd : addNew c kv linear newLog2Pages new = some new') :
    Filled c new' newLog2Pages linear (kv :: L) := by
  unfold addNew at hadd
  dsimp only at hadd
  split at hadd
  · rename_i i hi
    rw [← Option.some.inj hadd]
    exact h.put hlive hi
  · exact nomatch hadd

theorem exists_addNew (kv : K × V) {new : Values K V} (h : Filled c new newLog2Pages true L)
    (hroom : L.length < c.kvpPerPage * 2 ^ newLog2Pages) :
    ∃ new', addNew c kv true newLog2Pages new = some new' := by
  obtain ⟨j, hj, hfree⟩ := exists_free (h.perm.length_eq ▸ hroom)
  unfold addNew
  dsimp only
  split
  · exact ⟨_, rfl⟩
  rename_i hnone
  have := firstIn_eq_none.mp hnone j (Nat.zero_le j) (by
    show j < 0 + c.kvpPerPage * 2 ^ newLog2Pages
    omega)
  rw [hfree] at this
  exact nomatch this

/-- **Expansion** always succeeds, and the new array holds the old pairs and the new one. -/
theorem exists_expand (c : Config K V) (old : Values K V) (oldLog2Pages : Nat)
    (hlive : c.isFree kv.2 = false) (junk : Nat → Values K V) :
    ∃ new, expand c old oldLog2Pages kv junk = some new ∧
      Filled c new.values new.log2Pages new.linear
        (kv :: entries c.isFree old (c.kvpPerPage * 2 ^ oldLog2Pages)) := by
  have hsize : c.kvpPerPage * 2 ^ oldLog2Pages = 2 ^ oldLog2Pages * c.kvpPerPage := mul_comm _ _
  have hattempt : ∀ n junk v, (splitAndRehash c old oldLog2Pages n junk).bind (addNew c kv false n) =
      some v → Filled c v n false (kv :: entries c.isFree old (c.kvpPerPage * 2 ^ oldLog2Pages)) := by
    intro n junk v hv
    obtain ⟨new, hnew, hadd⟩ := Option.bind_eq_some_iff.mp hv
    rw [hsize]
    exact addNew_filled (splitAndRehash_filled hnew) hlive hadd
  unfold expand
  dsimp only
  split
  · rename_i v hv
    exact ⟨_, rfl, hattempt _ _ v hv⟩
  split
  · rename_i v hv
    exact ⟨_, rfl, hattempt _ _ v hv⟩
  obtain ⟨new, hnew, hf⟩ := exists_splitAndRehashLinear c old (junk 2) (Nat.le_add_right oldLog2Pages 1)
  have hroom : (entries c.isFree old (2 ^ oldLog2Pages * c.kvpPerPage)).length <
      c.kvpPerPage * 2 ^ (oldLog2Pages + 1) := by
    have h1 := length_entries_le c.isFree old (2 ^ oldLog2Pages * c.kvpPerPage)
    have h2 : 0 < 2 ^ oldLog2Pages * c.kvpPerPage :=
      Nat.mul_pos (Nat.two_pow_pos _) c.kvpPerPage_pos
    rw [pow_succ, ← mul_assoc]
    omega
  obtain ⟨new', hadd⟩ := exists_addNew kv hf hroom
  rw [markLinear, hnew]
  dsimp only
  rw [hadd]
  exact ⟨_, rfl, by rw [hsize]; exact addNew_filled hf hlive hadd⟩

end Vpp.Bihash
