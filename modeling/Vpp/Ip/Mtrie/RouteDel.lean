import Vpp.Ip.Mtrie.RouteAdd

/-!
# Deleting a route

The slots that hold the leaf of the deleted route, recognised by its adjacency index, get the leaf of
the route that covers it. A ply that is left without a longer route is put back, and its slot gets the
cover as well; the number of non-empty leaves tells when.
-/

namespace Vpp.Ip.Mtrie

open Lib Lib.Prefix

/-- A call that takes the table from `R` to `R'`, without the route to `P`; `c` is the cover. -/
structure Withdraws (a : SetUnsetLeafArgs) (P c : Prefix) (R R' : Routes) : Prop where
  args : ArgsFor a P
  other : ∀ p, p ≠ P → R' p = R p
  installed : R P = some a.adjIndex
  cover : Longest R' P c a.coverAdjIndex
  coverLength : a.coverAddressLength = c.len
  distinct : ∀ p p' adj, R p = some adj → R p' = some adj → p = p'
  adj_lt : a.adjIndex < 2 ^ 31
  coverAdj_lt : a.coverAdjIndex < 2 ^ 31

variable {S : Type} {ok ok' : S → Prop} {R R' : Routes} {p q P c : Prefix} {bits adj k w i j : Nat}
  {a : SetUnsetLeafArgs}

namespace Withdraws

variable (W : Withdraws a P c R R')

include W

theorem ne_none (h : R' p ≠ none) : R p ≠ none := by
  by_cases hp : p = P
  · rw [hp, W.installed]
    exact Option.some_ne_none _
  · rwa [← W.other p hp]

theorem noLonger (h : NoLonger R q) : NoLonger R' q := fun p hc hp => h p hc (W.ne_none hp)

theorem covers (h : ¬ NoLonger R q) (h' : NoLonger R' q) : Covers q P := by
  by_contra hn
  refine h fun p hc hp => h' p hc ?_
  rwa [W.other p fun he => hn (he ▸ hc)]

/-! ## One slot -/

theorem slot_deleted (h : SlotOk ok R q bits (.terminal a.adjIndex)) :
    SlotOk ok' R' q a.coverAddressLength (leafSetAdjIndex a.coverAdjIndex) := by
  obtain ⟨hno, p, hl, -⟩ := h
  obtain rfl : p = P := W.distinct _ _ _ hl.value W.installed
  rw [leafSetAdjIndex_of_lt W.coverAdj_lt]
  exact ⟨W.noLonger hno, c, hl.erase W.other W.cover, W.coverLength⟩

theorem slot_kept (h : SlotOk ok R q bits (.terminal adj)) (hne : adj ≠ a.adjIndex) :
    SlotOk ok' R' q bits (.terminal adj) := by
  obtain ⟨hno, p, hl, hb⟩ := h
  have hp : p ≠ P := fun he => hne (by
    have := hl.value
    rw [he, W.installed] at this
    exact (Option.some.inj this).symm)
  refine ⟨W.noLonger hno, p, hl.erase_other W.other ?_ hp, hb⟩
  rw [W.installed]
  exact Option.some_ne_none _

end Withdraws

/-- What `unset_leaf` leaves of a ply below the root: it is put back when no longer route is left. -/
def UnsetOk (k : Nat) (R' : Routes) (q : Prefix) : Ply k × Bool → Prop
  | (_, true) => NoLonger R' q
  | (ply, false) => PlyOk k R' q ply ∧ ¬ NoLonger R' q

/-- What the look at a slot says: the slot is to get the cover, or holds this leaf. -/
def UnsetSlotOk (k : Nat) (R' : Routes) (q : Prefix) (a : SetUnsetLeafArgs) (bits : Nat) :
    Leaf (Ply k) × Bool → Prop
  | (_, true) => SlotOk (PlyOk k R' q) R' q a.coverAddressLength (leafSetAdjIndex a.coverAdjIndex)
  | (leaf, false) => SlotOk (PlyOk k R' q) R' q bits leaf

variable {recurse : Ply k → Ply k × Bool} {T : Nat → Routes} {ply : Ply (k + 1)}

theorem unsetSlot_ok (W : Withdraws a P c R R') {leaf : Leaf (Ply k)}
    (h : SlotOk (PlyOk k R q) R q bits leaf)
    (hrec : ∀ sub, PlyOk k R q sub → ¬ NoLonger R q → UnsetOk k R' q (recurse sub)) :
    UnsetSlotOk k R' q a bits (unsetSlot recurse a.adjIndex leaf) := by
  cases leaf with
  | terminal adj =>
    have hadj : (1 + 2 * a.adjIndex) % 2 ^ 32 / 2 = a.adjIndex := by
      have := W.adj_lt
      omega
    rw [unsetSlot, hadj]
    by_cases he : adj = a.adjIndex
    · rw [beq_iff_eq.mpr he, UnsetSlotOk]
      exact W.slot_deleted (he ▸ h)
    · rw [beq_eq_false_iff_ne.mpr he, UnsetSlotOk]
      exact W.slot_kept h he
  | nextPly sub =>
    have hu := hrec sub h.2.2 h.2.1
    rw [unsetSlot]
    generalize recurse sub = r at hu
    obtain ⟨sub', deleted⟩ := r
    cases deleted with
    | true =>
      rw [UnsetSlotOk, leafSetAdjIndex_of_lt W.coverAdj_lt]
      exact ⟨hu, c, W.cover.ascend hu (W.covers h.2.1 hu), W.coverLength⟩
    | false => exact ⟨h.1, hu.2, hu.1⟩

/-! ## A ply -/

/-- The loop of `unset_leaf`: the ply has been put back, or it still has non-empty leaves. -/
def MidUnset (k : Nat) (q : Prefix) (R' : Routes) (j : Nat) (T : Nat → Routes) :
    Ply8 (Ply k) × Bool → Prop
  | (_, true) => 0 < j ∧ NoLonger R' q
  | (ply, false) => MidPly k q T ply ∧ (0 < j → ply.nNonEmptyLeafs ≠ 0)

theorem unsetLeafSlot_ok (W : Withdraws a P c R R')
    {s : Ply8 (Ply k) × Bool} (h : MidUnset k q R' j T s) (hi : i < 2 ^ 8)
    (hT : T i = R) (hTs : ∀ j, T j = R ∨ T j = R')
    (hrec : ∀ sub, PlyOk k R (q.child 8 i) sub → ¬ NoLonger R (q.child 8 i) →
      UnsetOk k R' (q.child 8 i) (recurse sub)) :
    MidUnset k q R' j (Function.update T i R') (unsetLeafSlot recurse a j s i) := by
  obtain ⟨ply, deleted⟩ := s
  cases deleted with
  | true => exact h
  | false =>
    obtain ⟨hmid, hn⟩ := h
    have hslot := hmid.slots i hi
    rw [hT] at hslot
    have hu := unsetSlot_ok W hslot hrec
    rw [unsetLeafSlot]
    generalize unsetSlot recurse a.adjIndex (ply.leaves i) = r at hu
    obtain ⟨leaf, flag⟩ := r
    cases flag with
    | false => exact ⟨hmid.putLeaf hu, hn⟩
    | true =>
      rw [UnsetSlotOk] at hu
      have hmid' := hmid.replaceSlot hi hu
      dsimp only
      generalize ply.replaceSlot i _ _ = ply' at hmid'
      by_cases hz : ply'.nNonEmptyLeafs = 0 ∧ 0 < j
      · rw [beq_iff_eq.mpr hz.1, decide_eq_true hz.2]
        refine ⟨hz.2, hmid'.slots.noLonger (fun j p hp => ?_) (hmid'.counted.eq_zero.mp hz.1)⟩
        by_cases hj : j = i
        · rwa [hj, Function.update_self]
        rw [Function.update_of_ne hj]
        rcases hTs j with h | h
        · rw [h]
          exact W.ne_none hp
        · rwa [h]
      · have hflag : (ply'.nNonEmptyLeafs == 0 && decide (0 < j)) = false := by
          simpa using hz
        rw [hflag]
        exact ⟨hmid', fun hj hzero => hz ⟨hzero, hj⟩⟩

theorem ArgsFor.maskedByte (ha : ArgsFor a P) (hq : q.len = 8 * j) (hj : j < 4) :
    a.dstAddress.asU8 j / 2 ^ (-((a.dstAddressLength : Int) - 8 * ((j : Int) + 1))).toNat *
      2 ^ (-((a.dstAddressLength : Int) - 8 * ((j : Int) + 1))).toNat = firstChild 32 8 P q := by
  have hm : (-((a.dstAddressLength : Int) - 8 * ((j : Int) + 1))).toNat = q.len + 8 - P.len := by
    rw [ha.length]
    omega
  rw [ha.asU8 hq, hm]
  exact Nat.div_mul_cancel (dvd_firstChild (by omega))

theorem unsetLeaf_eq (ha : ArgsFor a P) (hq : q.len = 8 * j) (hj : j < 4) :
    unsetLeaf a (k + 1) ply j = (slots (firstChild 32 8 P q) (2 ^ childBits 8 P q)).foldl
      (unsetLeafSlot (fun subPly => unsetLeaf a k subPly (j + 1)) a j) (ply, false) := by
  rw [← ha.maskedByte hq hj, ← ha.childBits_eq hq]
  rfl

section

variable (W : Withdraws a P c R R')
include W

theorem unsetLeaf_mid (hj : j + (k + 1) = 4)
    (hq : q.len = 8 * j) (hcomp : Comparable P q) (h : PlyOk (k + 1) R q ply)
    (hlonger : 0 < j → ¬ NoLonger R q)
    (hrec : ∀ i < 2 ^ 8, Comparable P (q.child 8 i) → ∀ sub, PlyOk k R (q.child 8 i) sub →
      ¬ NoLonger R (q.child 8 i) → UnsetOk k R' (q.child 8 i) (unsetLeaf a k sub (j + 1))) :
    MidUnset k q R' j (turned R R' (firstChild 32 8 P q) (2 ^ childBits 8 P q))
      (unsetLeaf a (k + 1) ply j) := by
  rw [unsetLeaf_eq W.args hq (by omega)]
  refine foldl_spans (MidUnset k q R' j) _ (hcomp.spans (by omega) W.args.le) ?_ ?_
  · refine ⟨h.mid, fun hpos hz => hlonger hpos ?_⟩
    exact h.mid.slots.noLonger (fun _ _ hp => hp) (h.mid.counted.eq_zero.mp hz)
  · exact fun T s i hi hc hT hTs hs => unsetLeafSlot_ok W hs hi hT hTs (hrec i hi hc)

theorem unsetLeaf_ok :
    ∀ {k : Nat} {q : Prefix} {ply : Ply k} {j : Nat}, j + k = 4 → 0 < j → q.len = 8 * j →
      Comparable P q → PlyOk k R q ply → ¬ NoLonger R q → UnsetOk k R' q (unsetLeaf a k ply j) := by
  intro k
  induction k with
  | zero => exact fun _ _ _ _ h => h.elim
  | succ k ih =>
    intro q ply j hj hpos hq hcomp h hlonger
    have hmid := unsetLeaf_mid W hj hq hcomp h (fun _ => hlonger) fun i hi hc sub hsub hl =>
      ih (by omega) (Nat.succ_pos j) (by simp only [child]; omega) hc hsub hl
    generalize unsetLeaf a (k + 1) ply j = r at hmid
    obtain ⟨ply', deleted⟩ := r
    cases deleted with
    | true => exact hmid.2
    | false =>
      have hok := hmid.1.plyOk (hcomp.spans (by omega) W.args.le) fun p hp => (W.other p hp).symm
      refine ⟨hok, fun hno => hmid.2 hpos (hmid.1.counted.eq_zero.mpr fun i hi => ?_)⟩
      by_contra hgt
      exact (hok.2 i hi).not_noLonger hi (Nat.lt_of_not_le hgt) hno

theorem unsetLeaf_root_ok {ply : Ply 4} (h : PlyOk 4 R rootPrefix ply) :
    PlyOk 4 R' rootPrefix (unsetLeaf a 4 ply 0).1 := by
  have hcomp : Comparable P rootPrefix := .inr W.args.root
  have hmid := unsetLeaf_mid W rfl rfl hcomp h (fun h => absurd h (lt_irrefl 0))
    fun i hi hc sub hsub hl => unsetLeaf_ok W rfl (by decide) rfl hc hsub hl
  generalize unsetLeaf a 4 ply 0 = r at hmid
  obtain ⟨ply', deleted⟩ := r
  cases deleted with
  | true => exact absurd hmid.1 (lt_irrefl 0)
  | false => exact hmid.1.plyOk (hcomp.spans (by decide) W.args.le) fun p hp => (W.other p hp).symm

/-! ## The root of the 16-8-8 trie -/

theorem unsetRootLeafSlot_ok {ply : Ply16}
    (h : RootOk T ply) (hi : i < 2 ^ 16) (hT : T i = R) (hc : Comparable P (rootPrefix.child 16 i)) :
    RootOk (Function.update T i R') (unsetRootLeafSlot a ply (swapU16 i)) := by
  have hslot := h i hi
  rw [hT] at hslot
  have hu := unsetSlot_ok W hslot fun sub hsub hl => unsetLeaf_ok W rfl (by decide) rfl hc hsub hl
  unfold unsetRootLeafSlot
  generalize unsetSlot (fun subPly => unsetLeaf a 2 subPly 2) a.adjIndex (ply.leaves (swapU16 i)) = r
    at hu ⊢
  obtain ⟨leaf, flag⟩ := r
  cases flag with
  | false => exact h.putLeaf hi hu
  | true => exact h.putSlot hi hu

theorem unsetRootLeaf_ok {ply : Ply16} (h : RootOk (fun _ => R) ply) :
    RootOk (fun _ => R') (unsetRootLeaf a ply) := by
  have hspan : Spans 32 16 P rootPrefix := Comparable.spans (.inr W.args.root) (by decide) W.args.le
  refine SlotsOk.spread hspan (fun p hp => (W.other p hp).symm) ?_
  have hloop := foldl_spans RootOk
    (fun ply i => unsetRootLeafSlot a ply (swapU16 (i % 2 ^ 16))) hspan h fun T s i hi hc hT _ hs => by
      rw [Nat.mod_eq_of_lt hi]
      exact unsetRootLeafSlot_ok W hs hi hT hc
  rw [slots, List.foldl_map] at hloop
  have hbits : (if (a.dstAddressLength : Int) - 16 ≤ 0 then 16 - a.dstAddressLength else 0) =
      childBits 16 P rootPrefix := by
    rw [← W.args.childBits_root]
    split
    · rfl
    · omega
  simp only [unsetRootLeaf, hbits, rootSlot, W.args.swapU16_asU16]
  exact hloop

end

end Vpp.Ip.Mtrie
