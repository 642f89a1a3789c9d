import Vpp.Ip.Mtrie.Invariant

/-!
# Adding a route

A slot under the prefix that is added takes the new leaf unless it holds a longer one, a ply in such a
slot passes the leaf on to all its slots, and above the prefix the plies on the way to it are made
where they are missing. Each of the three keeps the slots in step with the table.
-/

namespace Vpp.Ip.Mtrie

open Lib Lib.Prefix
open Function (update update_self update_of_ne)

variable {S : Type} {ok ok' : S → Prop} {R : Routes} {q P : Prefix} {bits old adj k w i : Nat}

theorem leafSetAdjIndex_of_lt (h : adj < 2 ^ 31) : leafSetAdjIndex adj = (.terminal adj : Leaf S) := by
  unfold leafSetAdjIndex
  congr 1
  omega

/-! ## One slot -/

theorem noLonger_of_add (h : NoLonger (update R P (some adj)) q) : NoLonger R q := by
  intro p hc hp
  refine h p hc ?_
  by_cases he : p = P
  · rw [he, update_self]
    exact Option.some_ne_none adj
  · rwa [update_of_ne he]

theorem noLonger_add (h : NoLonger R q) (hle : P.len ≤ q.len) :
    NoLonger (update R P (some adj)) q := by
  intro p hc hp
  by_cases he : p = P
  · rwa [he]
  · rw [update_of_ne he] at hp
    exact h p hc hp

theorem not_noLonger_add {a : Nat} (hc : Covers q P) (hlt : q.len < P.len) :
    ¬ NoLonger (update R P (some a)) q := by
  intro hno
  have := hno P hc (by rw [update_self]; exact Option.some_ne_none a)
  omega

theorem SlotOk.add_longer (h : SlotOk ok R q bits (.terminal old)) (hc : Covers P q)
    (hge : P.len ≥ bits) (hadj : adj < 2 ^ 31) :
    SlotOk ok' (update R P (some adj)) q P.len (leafSetAdjIndex adj) := by
  obtain ⟨hno, p, hl, hp⟩ := h
  rw [leafSetAdjIndex_of_lt hadj]
  exact ⟨noLonger_add hno hc.1, P, hl.insert hc (by omega), rfl⟩

theorem SlotOk.add_shorter (h : SlotOk ok R q bits (.terminal old)) (hc : Covers P q)
    (hlt : ¬ P.len ≥ bits) : SlotOk ok' (update R P (some adj)) q bits (.terminal old) := by
  obtain ⟨hno, p, hl, hp⟩ := h
  exact ⟨noLonger_add hno hc.1, p, hl.insert_shorter (by omega), hp⟩

theorem SlotOk.add_nextPly {sub sub' : S} (h : SlotOk ok R q bits (.nextPly sub)) (hok : ok' sub') :
    SlotOk ok' (update R P (some adj)) q bits (.nextPly sub') :=
  ⟨h.1, fun hno => h.2.1 (noLonger_of_add hno), hok⟩

/-! ## One turn of a loop -/

section Turn

variable {T : Nat → Routes} {ply : Ply8 (Ply k)} {recurse moreSpecific : Ply k → Ply k}

theorem setMoreSpecificSlot_ok (h : MidPly k q T ply) (hi : i < 2 ^ 8) (hT : T i = R)
    (hc : Covers P q) (hadj : adj < 2 ^ 31) (hrec : ∀ sub, PlyOk k R (q.child 8 i) sub →
      PlyOk k (update R P (some adj)) (q.child 8 i) (recurse sub)) :
    MidPly k q (update T i (update R P (some adj)))
      (setMoreSpecificSlot recurse adj P.len ply i) := by
  have hslot := h.slots i hi
  rw [hT] at hslot
  have hci : Covers P (q.child 8 i) := hc.trans (covers_child hi)
  unfold setMoreSpecificSlot
  split
  · rename_i sub hleaf
    rw [hleaf] at hslot
    exact h.putLeaf (hslot.add_nextPly (hrec sub hslot.2.2))
  rename_i old hleaf
  split
  · rename_i hge
    rw [hleaf] at hslot
    have hle := hc.1
    exact h.putSlot (hslot.add_longer hci hge hadj) (h.counted.putSlot_empty hi (by omega))
  · rename_i hlt
    refine h.keep ?_
    rw [hleaf] at hslot ⊢
    exact hslot.add_shorter hci hlt

theorem setLeafSlot_ok {a : SetUnsetLeafArgs} (h : MidPly k q T ply) (hi : i < 2 ^ 8) (hT : T i = R)
    (hc : Covers P (q.child 8 i)) (hlen : a.dstAddressLength = P.len) (hadj : a.adjIndex < 2 ^ 31)
    (hmore : ∀ sub, PlyOk k R (q.child 8 i) sub →
      PlyOk k (update R P (some a.adjIndex)) (q.child 8 i) (moreSpecific sub))
    (hrec : ∀ sub, PlyOk k R (q.child 8 i) sub →
      PlyOk k (update R P (some a.adjIndex)) (q.child 8 i) (recurse sub)) :
    MidPly k q (update T i (update R P (some a.adjIndex)))
      (setLeafSlot moreSpecific recurse a ply i) := by
  have hslot := h.slots i hi
  rw [hT] at hslot
  unfold setLeafSlot
  rw [hlen]
  split
  · rename_i hge
    split
    · rename_i old hleaf
      rw [hleaf] at hslot
      exact h.replaceSlot hi (hslot.add_longer hc hge hadj)
    · rename_i sub hleaf
      rw [hleaf] at hslot
      exact h.putLeaf (hslot.add_nextPly (hmore sub hslot.2.2))
  · rename_i hlt
    split
    · rename_i sub hleaf
      rw [hleaf] at hslot
      exact h.putLeaf (hslot.add_nextPly (hrec sub hslot.2.2))
    · rename_i old hleaf
      refine h.keep ?_
      rw [hleaf] at hslot ⊢
      exact hslot.add_shorter hc hlt

end Turn

/-! ## Plies -/

theorem setPlyWithMoreSpecificLeaf_ok (hadj : adj < 2 ^ 31) : ∀ {k : Nat} {q : Prefix} {ply : Ply k},
    q.len + 8 * k = 32 → Covers P q → PlyOk k R q ply →
    PlyOk k (update R P (some adj)) q (setPlyWithMoreSpecificLeaf adj P.len k ply) := by
  intro k
  induction k with
  | zero => exact fun _ _ h => h.elim
  | succ k ih =>
    intro q ply hq hc h
    have hloop := foldl_spans (MidPly k q)
      (setMoreSpecificSlot (setPlyWithMoreSpecificLeaf adj P.len k) adj P.len) (spans_of_above hc (by omega : q.len + 8 ≤ 32)) h.mid
      fun T s i hi _ hT _ hs => setMoreSpecificSlot_ok hs hi hT hc hadj fun sub hsub =>
        ih (by simp only [child]; omega) (hc.trans (covers_child hi)) hsub
    have hall := hloop.plyOk (spans_of_above hc (by omega)) fun p hp =>
      (update_of_ne hp (some adj) R).symm
    rw [firstChild_of_above hc (by omega), childBits_of_above hc] at hall
    exact hall

theorem plyOfSlot_ok {leaf : Leaf (Ply (k + 1))} (h : SlotOk (PlyOk (k + 1) R q) R q bits leaf) :
    PlyOk (k + 1) R q (plyOfSlot leaf bits q.len) := by
  cases leaf with
  | nextPly sub => exact h.2.2
  | terminal old =>
    obtain ⟨hno, p, hl, hp⟩ := h
    refine ⟨⟨rfl, ?_⟩, fun i hi => ⟨hno.below (covers_child hi), p, hl.descend hno (covers_child hi), hp⟩⟩
    show (if bits > q.len then (256 : Int) else 0) =
      ∑ _i ∈ Finset.range 256, if bits > q.len then (1 : Int) else 0
    rw [Finset.sum_const, Finset.card_range]
    split <;> rfl

theorem descendSlot_ok {ply : Ply8 (Ply (k + 1))} {recurse : Ply (k + 1) → Ply (k + 1)}
    (h : PlyOk (k + 2) R q ply) (hi : i < 2 ^ 8) (hc : Covers (q.child 8 i) P)
    (hlt : q.len + 8 < P.len) (hrec : ∀ sub, PlyOk (k + 1) R (q.child 8 i) sub →
      PlyOk (k + 1) (update R P (some adj)) (q.child 8 i) (recurse sub)) :
    MidPly (k + 1) q (update (fun _ => R) i (update R P (some adj)))
      (descendSlot recurse (q.len + 8) ply i) := by
  have hslot := h.mid.slots i hi
  have hsub := hrec _ (plyOfSlot_ok hslot)
  have hlonger := not_noLonger_add (R := R) (a := adj) hc hlt
  rw [descendSlot]
  split
  · exact h.mid.replaceSlot hi ⟨rfl, hlonger, hsub⟩
  · rename_i sub hleaf
    refine h.mid.putLeaf ⟨?_, hlonger, hsub⟩
    rw [hleaf] at hslot
    exact hslot.1

variable {a : SetUnsetLeafArgs} {ply : Ply (k + 1)} {j : Nat}

section

variable (ha : ArgsFor a P)
include ha

theorem setLeaf_this (hq : q.len = 8 * j) (hle : P.len ≤ q.len + 8) :
    setLeaf a (k + 1) ply j = (slots (firstChild 32 8 P q) (2 ^ childBits 8 P q)).foldl
      (setLeafSlot (setPlyWithMoreSpecificLeaf a.adjIndex P.len k)
        (fun newPly => setLeaf a k newPly (j + 1)) a) ply := by
  rw [← ha.asU8 hq, ← ha.childBits_eq hq, ← ha.length]
  exact if_pos (by have := ha.length; omega)

theorem setLeaf_next (hq : q.len = 8 * j) (hlt : q.len + 8 < P.len) :
    setLeaf a (k + 1) ply j = descendSlot (fun newPly => setLeaf a k newPly (j + 1)) (q.len + 8) ply
      (firstChild 32 8 P q) := by
  rw [← ha.asU8 hq, hq]
  exact if_neg (by have := ha.length; omega)

theorem setLeaf_ok (hadj : a.adjIndex < 2 ^ 31) :
    ∀ {k : Nat} {q : Prefix} {ply : Ply k} {j : Nat}, j + k = 4 → q.len = 8 * j → Comparable P q →
      PlyOk k R q ply →
      PlyOk k (update R P (some a.adjIndex)) q (setLeaf a k ply j) := by
  intro k
  induction k with
  | zero => exact fun _ _ _ h => h.elim
  | succ k ih =>
    intro q ply j hj hq hcomp h
    have hspan : Spans 32 8 P q := hcomp.spans (by omega) ha.le
    have hsame : ∀ p, p ≠ P → R p = update R P (some a.adjIndex) p := fun p hp =>
      (update_of_ne hp (some a.adjIndex) R).symm
    have hrec : ∀ i < 2 ^ 8, Comparable P (q.child 8 i) → ∀ sub, PlyOk k R (q.child 8 i) sub →
        PlyOk k (update R P (some a.adjIndex)) (q.child 8 i) (setLeaf a k sub (j + 1)) :=
      fun i hi hc sub hsub => ih (by omega) (by simp only [child]; omega) hc hsub
    rcases lt_or_ge (q.len + 8) P.len with hlt | hle
    · have hfirst : firstChild 32 8 P q < 2 ^ 8 := Nat.mod_lt _ (by decide)
      have hc : Comparable P (q.child 8 (firstChild 32 8 P q)) :=
        (hspan.2 _ hfirst).mp ⟨le_refl _, by have := Nat.two_pow_pos (childBits 8 P q); omega⟩
      rw [setLeaf_next ha hq hlt]
      refine MidPly.plyOk ?_ hspan hsame
      rw [turned_below (by omega)]
      cases k with
      | zero =>
        have := ha.le
        omega
      | succ k =>
        exact descendSlot_ok h hfirst (hc.covered (by simp only [child]; omega)) hlt (hrec _ hfirst hc)
    · rw [setLeaf_this ha hq hle]
      refine MidPly.plyOk (foldl_spans (MidPly k q) _ hspan h.mid ?_) hspan hsame
      intro T s i hi hc hT _ hs
      have hci : Covers P (q.child 8 i) := hc.covers (by simp only [child]; omega)
      refine setLeafSlot_ok hs hi hT hci ha.length hadj (fun sub hsub => ?_) (hrec i hi hc)
      exact setPlyWithMoreSpecificLeaf_ok hadj (by simp only [child]; omega) hci hsub

/-! ## The root of the 16-8-8 trie -/

theorem setRootLeafSlot_ok {T : Nat → Routes} {ply : Ply16}
    (hadj : a.adjIndex < 2 ^ 31) (h : RootOk T ply) (hi : i < 2 ^ 16)
    (hT : T i = R) (hc : Covers P (rootPrefix.child 16 i)) :
    RootOk (update T i (update R P (some a.adjIndex)))
      (setRootLeafSlot a ply (swapU16 i)) := by
  have hslot := h i hi
  rw [hT] at hslot
  dsimp only at hslot
  unfold setRootLeafSlot
  rw [ha.length]
  split
  · rename_i hge
    split
    · rename_i old hleaf
      rw [hleaf] at hslot
      exact h.putSlot hi (hslot.add_longer hc hge hadj)
    · rename_i sub hleaf
      rw [hleaf] at hslot
      exact h.putLeaf hi (hslot.add_nextPly (setPlyWithMoreSpecificLeaf_ok hadj rfl hc hslot.2.2))
  · rename_i hlt
    split
    · rename_i sub hleaf
      rw [hleaf] at hslot
      exact h.putLeaf hi (hslot.add_nextPly (setLeaf_ok ha hadj rfl rfl (.inl hc) hslot.2.2))
    · rename_i old hleaf
      refine h.keep ?_
      rw [hleaf] at hslot ⊢
      exact hslot.add_shorter hc hlt

theorem setRootLeaf_this {ply : Ply16} (hle : P.len ≤ 16)
    (h : RootOk (fun _ => R) ply) (hadj : a.adjIndex < 2 ^ 31) (hspan : Spans 32 16 P rootPrefix) :
    RootOk (turned R (update R P (some a.adjIndex)) (firstChild 32 16 P rootPrefix)
      (2 ^ childBits 16 P rootPrefix)) (setRootLeaf a ply) := by
  have hloop := foldl_spans RootOk
    (fun ply i => setRootLeafSlot a ply (swapU16 (i % 2 ^ 16))) hspan h fun T s i hi hc hT _ hs => by
      rw [Nat.mod_eq_of_lt hi]
      exact setRootLeafSlot_ok ha hadj hs hi hT (hc.covers (le_trans hle (Nat.le_add_left 16 _)))
  rw [slots, List.foldl_map] at hloop
  have hthis : (a.dstAddressLength : Int) - 16 ≤ 0 := by
    have := ha.length
    omega
  simp only [setRootLeaf, if_pos hthis, ha.childBits_root, rootSlot, ha.swapU16_asU16]
  exact hloop

theorem setRootLeaf_next {ply : Ply16} (hlt : 16 < P.len)
    (h : RootOk (fun _ => R) ply) (hadj : a.adjIndex < 2 ^ 31) (hspan : Spans 32 16 P rootPrefix) :
    RootOk (update (fun _ => R) (firstChild 32 16 P rootPrefix)
      (update R P (some a.adjIndex))) (setRootLeaf a ply) := by
  have hi : firstChild 32 16 P rootPrefix < 2 ^ 16 := Nat.mod_lt _ (by decide)
  have hcomp : Comparable P (rootPrefix.child 16 (firstChild 32 16 P rootPrefix)) :=
    (hspan.2 _ hi).mp ⟨le_refl _, by have := Nat.two_pow_pos (childBits 16 P rootPrefix); omega⟩
  have hnext : ¬ (a.dstAddressLength : Int) - 16 ≤ 0 := by
    have := ha.length
    omega
  simp only [setRootLeaf, if_neg hnext, ha.asU16]
  generalize firstChild 32 16 P rootPrefix = i at hi hcomp ⊢
  have hslot := h i hi
  have hsub := setLeaf_ok ha hadj rfl rfl hcomp (plyOfSlot_ok hslot)
  have hlonger := not_noLonger_add (R := R) (a := a.adjIndex) (hcomp.covered (le_of_lt hlt)) hlt
  dsimp only at hslot
  split
  · exact h.putSlot hi ⟨rfl, hlonger, hsub⟩
  · rename_i sub hleaf
    refine h.putLeaf hi ⟨?_, hlonger, hsub⟩
    rw [hleaf] at hslot
    exact hslot.1

theorem setRootLeaf_ok {ply : Ply16} (hadj : a.adjIndex < 2 ^ 31) (h : RootOk (fun _ => R) ply) :
    RootOk (fun _ => update R P (some a.adjIndex)) (setRootLeaf a ply) := by
  have hspan : Spans 32 16 P rootPrefix := Comparable.spans (.inr ha.root) (by decide) ha.le
  have hsame : ∀ p, p ≠ P → R p = update R P (some a.adjIndex) p := fun p hp =>
    (update_of_ne hp (some a.adjIndex) R).symm
  refine SlotsOk.spread hspan hsame ?_
  rcases lt_or_ge 16 P.len with hlt | hle
  · rw [turned_below (by simp only [rootPrefix]; omega)]
    exact setRootLeaf_next ha hlt h hadj hspan
  · exact setRootLeaf_this ha hle h hadj hspan

end

end Vpp.Ip.Mtrie
