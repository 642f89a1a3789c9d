import Mathlib.Algebra.Order.BigOperators.Group.Finset
import Vpp.Ip.Mtrie.Ply
import Vpp.Lib.Prefix
import Vpp.Lib.Run

/-!
# What a ply holds

A slot stands for a prefix, and a trie represents a table of routes when every slot does: a terminal
leaf is the longest route that covers the slot's prefix, kept with its length, and no route lies
strictly below; a ply is there exactly when some route lies strictly below. A ply counts the slots
whose length is beyond its own. The slots of a ply may represent different tables while a loop is
rewriting them.
-/

namespace Vpp.Ip.Mtrie

open Lib Lib.Prefix
open Function (update update_self update_of_ne)

abbrev Routes := Prefix → Option Nat

/-! ## Slots -/

/-- A slot for `q`; `ok` is what a ply in it has to meet. -/
def SlotOk {S : Type} (ok : S → Prop) (R : Routes) (q : Prefix) (bits : Nat) : Leaf S → Prop
  | .terminal adj => NoLonger R q ∧ ∃ p, Longest R q p adj ∧ bits = p.len
  | .nextPly ply => bits = q.len ∧ ¬ NoLonger R q ∧ ok ply

structure Ply8.Counted {S : Type} (ply : Ply8 S) (base : Nat) : Prop where
  base_eq : ply.dstAddressBitsBase = base
  count_eq : ply.nNonEmptyLeafs = ∑ i ∈ Finset.range 256, ply.leafIsNonEmpty i

def PlyOk : (k : Nat) → Routes → Prefix → Ply k → Prop
  | 0, _, _, _ => False
  | k + 1, R, q, ply => Ply8.Counted ply q.len ∧
      ∀ i < 2 ^ 8, SlotOk (PlyOk k R (q.child 8 i)) R (q.child 8 i)
        (Ply8.dstAddressBitsOfLeaves ply i) (Ply8.leaves ply i)

/-- The slots of a ply of `2 ^ w` slots, each for a table of its own. -/
def SlotsOk (w k : Nat) (T : Nat → Routes) (q : Prefix) (leaves : Nat → Leaf (Ply k))
    (bits : Nat → Nat) : Prop :=
  ∀ i < 2 ^ w, SlotOk (PlyOk k (T i) (q.child w i)) (T i) (q.child w i) (bits i) (leaves i)

variable {S : Type} {ok ok' : S → Prop} {R R' : Routes} {p q P : Prefix} {bits adj k w i : Nat}

variable {leaf : Leaf S} {leaves : Nat → Leaf (Ply k)} {T : Nat → Routes} {W j : Nat}
  {a : SetUnsetLeafArgs}

theorem SlotOk.imp (h : SlotOk ok R q bits leaf)
    (hsame : ∀ p, Comparable p q → R p = R' p) (hok : ∀ ply, ok ply → ok' ply) :
    SlotOk ok' R' q bits leaf := by
  have hno : NoLonger R q ↔ NoLonger R' q :=
    ⟨fun h p hc hp => h p hc (hsame p (.inr hc) ▸ hp), fun h p hc hp => h p hc (hsame p (.inr hc) ▸ hp)⟩
  cases leaf with
  | terminal adj =>
    obtain ⟨hn, p, hl, hb⟩ := h
    exact ⟨hno.mp hn, p, hl.congr fun p' hc => hsame p' (.inl hc), hb⟩
  | nextPly ply => exact ⟨h.1, fun hn => h.2.1 (hno.mpr hn), hok ply h.2.2⟩

theorem PlyOk.congr : ∀ {k : Nat} {q : Prefix} {ply : Ply k}, PlyOk k R q ply →
    (∀ p, Comparable p q → R p = R' p) → PlyOk k R' q ply := by
  intro k
  induction k with
  | zero => exact fun h _ => h
  | succ k ih =>
    intro q ply h hsame
    refine ⟨h.1, fun i hi => ?_⟩
    have hsub : ∀ p, Comparable p (q.child 8 i) → R p = R' p := fun p hp => hsame p (hp.up hi)
    exact (h.2 i hi).imp hsub fun sub hs => ih hs hsub

theorem SlotsOk.of_eq {T' : Nat → Routes} {bits : Nat → Nat} (h : SlotsOk w k T q leaves bits)
    (heq : ∀ i < 2 ^ w, ∀ p, Comparable p (q.child w i) → T i p = T' i p) : SlotsOk w k T' q leaves bits :=
  fun i hi => (h i hi).imp (heq i hi) fun _ hs => hs.congr (heq i hi)

theorem SlotsOk.rewrite {leaves' : Nat → Leaf (Ply k)} {bits bits' : Nat → Nat}
    (h : SlotsOk w k T q leaves bits)
    (hi : SlotOk (PlyOk k R' (q.child w i)) R' (q.child w i) (bits' i) (leaves' i))
    (hother : ∀ j < 2 ^ w, j ≠ i → leaves' j = leaves j ∧ bits' j = bits j) :
    SlotsOk w k (update T i R') q leaves' bits' := by
  intro j hj
  by_cases hji : j = i
  · subst hji
    rw [update_self]
    exact hi
  · rw [update_of_ne hji, (hother j hj hji).1, (hother j hj hji).2]
    exact h j hj

/-! ## Loops over the slots a prefix spans -/

/-- The tables of the slots after `t` turns of a loop that started at `first`. -/
def turned (R R' : Routes) (first t i : Nat) : Routes :=
  if first ≤ i ∧ i < first + t then R' else R

theorem turned_zero (first : Nat) : turned R R' first 0 = fun _ => R := by
  funext i
  exact if_neg (by omega)

theorem turned_succ (first t : Nat) :
    turned R R' first (t + 1) = update (turned R R' first t) (first + t) R' := by
  funext i
  unfold turned
  by_cases hi : i = first + t
  · subst hi
    rw [update_self, if_pos (by omega)]
  · rw [update_of_ne hi]
    congr 1
    apply propext
    omega

theorem turned_below (h : q.len + w ≤ P.len) :
    turned R R' (firstChild W w P q) (2 ^ childBits w P q) =
      update (fun _ => R) (firstChild W w P q) R' := by
  have hbits : childBits w P q = 0 := by
    unfold childBits
    omega
  rw [hbits, Nat.pow_zero, turned_succ, turned_zero, Nat.add_zero]

theorem foldl_spans {St : Type} (inv : (Nat → Routes) → St → Prop) (turn : St → Nat → St) {s : St}
    (hspan : Spans W w P q) (h0 : inv (fun _ => R) s)
    (hturn : ∀ T s i, i < 2 ^ w → Comparable P (q.child w i) → T i = R → (∀ j, T j = R ∨ T j = R') → inv T s
      → inv (update T i R') (turn s i)) :
    inv (turned R R' (firstChild W w P q) (2 ^ childBits w P q))
      ((slots (firstChild W w P q) (2 ^ childBits w P q)).foldl turn s) := by
  rw [slots, List.foldl_map]
  refine foldl_range (fun t s => inv (turned R R' (firstChild W w P q) t) s) _ ?_ fun t ht s hs => ?_
  · rw [turned_zero]
    exact h0
  have hlt : firstChild W w P q + t < 2 ^ w := by
    have := hspan.1
    omega
  rw [turned_succ]
  refine hturn _ s _ hlt ((hspan.2 _ hlt).mp (by omega)) ?_ (fun j => ?_) hs
  · exact if_neg (by omega)
  · unfold turned
    split
    · exact .inr rfl
    · exact .inl rfl

theorem SlotsOk.spread {bits : Nat → Nat} (hspan : Spans W w P q) (hsame : ∀ p, p ≠ P → R p = R' p)
    (h : SlotsOk w k (turned R R' (firstChild W w P q) (2 ^ childBits w P q)) q leaves bits) :
    SlotsOk w k (fun _ => R') q leaves bits := by
  refine h.of_eq fun i hi p hp => ?_
  unfold turned
  split
  · rfl
  · rename_i hout
    exact hsame p fun he => hout ((hspan.2 i hi).mpr (he ▸ hp))

/-! ## The number of non-empty leaves -/

namespace Ply8

variable {ply : Ply8 S} {base : Nat} {leaf : Leaf S}

theorem sum_putSlot (ply : Ply8 S) (leaf : Leaf S) (bits : Nat) (hi : i < 256) :
    ∑ j ∈ Finset.range 256, (ply.putSlot i leaf bits).leafIsNonEmpty j =
      (∑ j ∈ Finset.range 256, ply.leafIsNonEmpty j) - ply.leafIsNonEmpty i +
        (ply.putSlot i leaf bits).leafIsNonEmpty i := by
  have hmem : i ∈ Finset.range 256 := Finset.mem_range.mpr hi
  rw [← Finset.add_sum_erase _ _ hmem, ← Finset.add_sum_erase _ ply.leafIsNonEmpty hmem]
  have hrest : ∑ j ∈ (Finset.range 256).erase i, (ply.putSlot i leaf bits).leafIsNonEmpty j =
      ∑ j ∈ (Finset.range 256).erase i, ply.leafIsNonEmpty j := by
    refine Finset.sum_congr rfl fun j hj => ?_
    simp only [leafIsNonEmpty, putSlot, update_of_ne (Finset.ne_of_mem_erase hj)]
  omega

theorem Counted.replaceSlot (h : ply.Counted base) (hi : i < 256) :
    (ply.replaceSlot i leaf bits).Counted base := by
  refine ⟨h.base_eq, ?_⟩
  show ply.nNonEmptyLeafs - ply.leafIsNonEmpty i + (ply.putSlot i leaf bits).leafIsNonEmpty i =
    ∑ j ∈ Finset.range 256, (ply.putSlot i leaf bits).leafIsNonEmpty j
  rw [sum_putSlot ply leaf bits hi, h.count_eq]

theorem Counted.putSlot_empty (h : ply.Counted base) (hi : i < 256)
    (hold : ply.dstAddressBitsOfLeaves i ≤ base) :
    Counted { ply.putSlot i leaf bits with
      nNonEmptyLeafs := ply.nNonEmptyLeafs + (ply.putSlot i leaf bits).leafIsNonEmpty i } base := by
  refine ⟨h.base_eq, ?_⟩
  have := sum_putSlot ply leaf bits hi
  have hzero : ply.leafIsNonEmpty i = 0 := by
    unfold leafIsNonEmpty
    rw [h.base_eq, if_neg (by omega)]
  rw [hzero, Int.sub_zero, ← h.count_eq] at this
  exact this.symm

theorem Counted.putLeaf (h : ply.Counted base) : (ply.putLeaf i leaf).Counted base :=
  ⟨h.base_eq, h.count_eq⟩

theorem leafIsNonEmpty_nonneg : 0 ≤ ply.leafIsNonEmpty i := by
  unfold leafIsNonEmpty
  split <;> omega

theorem Counted.eq_zero (h : ply.Counted base) :
    ply.nNonEmptyLeafs = 0 ↔ ∀ i < 256, ply.dstAddressBitsOfLeaves i ≤ base := by
  rw [h.count_eq, Finset.sum_eq_zero_iff_of_nonneg fun i _ => ply.leafIsNonEmpty_nonneg]
  simp only [Finset.mem_range, leafIsNonEmpty, h.base_eq]
  refine forall₂_congr fun i _ => ?_
  split <;> omega

end Ply8

/-! ## A ply in the course of a loop -/

structure MidPly (k : Nat) (q : Prefix) (T : Nat → Routes) (ply : Ply8 (Ply k)) : Prop where
  counted : ply.Counted q.len
  slots : SlotsOk 8 k T q ply.leaves ply.dstAddressBitsOfLeaves

namespace MidPly

variable {T : Nat → Routes} {R' : Routes} {ply : Ply8 (Ply k)} {leaf : Leaf (Ply k)}

theorem putLeaf (h : MidPly k q T ply) (hslot : SlotOk (PlyOk k R' (q.child 8 i)) R' (q.child 8 i)
      (ply.dstAddressBitsOfLeaves i) leaf) : MidPly k q (update T i R') (ply.putLeaf i leaf) := by
  refine ⟨h.counted.putLeaf, h.slots.rewrite ?_ fun j _ hj => ?_⟩
  · simp only [Ply8.putLeaf, update_self]
    exact hslot
  · simp only [Ply8.putLeaf, update_of_ne hj, and_self]

theorem putSlot (h : MidPly k q T ply) {n : Int} (hslot : SlotOk (PlyOk k R' (q.child 8 i)) R'
      (q.child 8 i) bits leaf)
    (hn : Ply8.Counted { ply.putSlot i leaf bits with nNonEmptyLeafs := n } q.len) :
    MidPly k q (update T i R')
      { ply.putSlot i leaf bits with nNonEmptyLeafs := n } := by
  refine ⟨hn, h.slots.rewrite ?_ fun j _ hj => ?_⟩
  · simp only [Ply8.putSlot, update_self]
    exact hslot
  · simp only [Ply8.putSlot, update_of_ne hj, and_self]

theorem replaceSlot (h : MidPly k q T ply) (hi : i < 256)
    (hslot : SlotOk (PlyOk k R' (q.child 8 i)) R' (q.child 8 i) bits leaf) :
    MidPly k q (update T i R') (ply.replaceSlot i leaf bits) :=
  h.putSlot hslot (h.counted.replaceSlot hi)

theorem keep (h : MidPly k q T ply) (hslot : SlotOk (PlyOk k R' (q.child 8 i)) R' (q.child 8 i)
      (ply.dstAddressBitsOfLeaves i) (ply.leaves i)) : MidPly k q (update T i R') ply :=
  ⟨h.counted, h.slots.rewrite hslot fun _ _ _ => ⟨rfl, rfl⟩⟩

end MidPly

theorem PlyOk.mid {ply : Ply (k + 1)} (h : PlyOk (k + 1) R q ply) : MidPly k q (fun _ => R) ply :=
  ⟨h.1, h.2⟩

theorem MidPly.plyOk {ply : Ply8 (Ply k)}
    (h : MidPly k q (turned R R' (firstChild W 8 P q) (2 ^ childBits 8 P q)) ply)
    (hspan : Spans W 8 P q) (hsame : ∀ p, p ≠ P → R p = R' p) : PlyOk (k + 1) R' q ply :=
  ⟨h.counted, h.slots.spread hspan hsame⟩

/-! ## The root of the 16-8-8 trie -/

theorem swapU16_bytes {x y : Nat} (hx : x < 256) (hy : y < 256) :
    swapU16 (x + 256 * y) = y + 256 * x := by
  unfold swapU16
  omega

theorem swapU16_swapU16 (h : i < 2 ^ 16) : swapU16 (swapU16 i) = i := by
  have hi : i = i % 256 + 256 * (i / 256) := by omega
  rw [hi, swapU16_bytes (by omega) (by omega), swapU16_bytes (by omega) (by omega)]

def rootPrefix : Prefix := ⟨0, 0⟩

def RootOk (T : Nat → Routes) (ply : Ply16) : Prop :=
  SlotsOk 16 2 T rootPrefix (fun i => ply.leaves (swapU16 i))
    (fun i => ply.dstAddressBitsOfLeaves (swapU16 i))

namespace RootOk

variable {T : Nat → Routes} {ply : Ply16} {leaf : Leaf (Ply 2)}

theorem putSlot (h : RootOk T ply) (hi : i < 2 ^ 16)
    (hslot : SlotOk (PlyOk 2 R' (rootPrefix.child 16 i)) R' (rootPrefix.child 16 i) bits leaf) :
    RootOk (update T i R') (ply.putSlot (swapU16 i) leaf bits) := by
  refine h.rewrite ?_ fun j hj hne => ?_
  · simp only [Ply16.putSlot, update_self]
    exact hslot
  · have : swapU16 j ≠ swapU16 i := fun he => hne (by
      rw [← swapU16_swapU16 hj, he, swapU16_swapU16 hi])
    simp only [Ply16.putSlot, update_of_ne this, and_self]

theorem putLeaf (h : RootOk T ply) (hi : i < 2 ^ 16)
    (hslot : SlotOk (PlyOk 2 R' (rootPrefix.child 16 i)) R' (rootPrefix.child 16 i)
      (ply.dstAddressBitsOfLeaves (swapU16 i)) leaf) :
    RootOk (update T i R') (ply.putLeaf (swapU16 i) leaf) := by
  have := h.putSlot hi hslot
  rwa [Ply16.putSlot, Function.update_eq_self] at this

theorem keep (h : RootOk T ply)
    (hslot : SlotOk (PlyOk 2 R' (rootPrefix.child 16 i)) R' (rootPrefix.child 16 i)
      (ply.dstAddressBitsOfLeaves (swapU16 i)) (ply.leaves (swapU16 i))) :
    RootOk (update T i R') ply :=
  h.rewrite hslot fun _ _ _ => ⟨rfl, rfl⟩

end RootOk

/-! ## The slots of a call -/

/-- What a call is given for a route to `P`. -/
structure ArgsFor (a : SetUnsetLeafArgs) (P : Prefix) : Prop where
  address : a.dstAddress.toNat = P.val * 2 ^ (32 - P.len)
  length : a.dstAddressLength = P.len
  le : P.len ≤ 32

section

variable (ha : ArgsFor a P)
include ha

theorem ArgsFor.asU8 (hq : q.len = 8 * j) : a.dstAddress.asU8 j = firstChild 32 8 P q := by
  unfold Ip4Address.asU8 firstChild
  have hshift : 24 - 8 * j = 32 - (8 * j + 8) := by omega
  rw [ha.address, hq, hshift, show 256 = 2 ^ 8 from rfl]

theorem ArgsFor.childBits_eq (hq : q.len = 8 * j) :
    min 8 (-((a.dstAddressLength : Int) - 8 * ((j : Int) + 1))).toNat = childBits 8 P q := by
  unfold childBits
  rw [ha.length]
  omega

theorem ArgsFor.root : Covers rootPrefix P := by
  refine ⟨Nat.zero_le _, ?_⟩
  have hlt : P.val * 2 ^ (32 - P.len) < 2 ^ P.len * 2 ^ (32 - P.len) := by
    rw [← pow_add, Nat.add_sub_cancel' ha.le, ← ha.address]
    exact a.dstAddress.isLt
  exact Nat.div_eq_of_lt (Nat.lt_of_mul_lt_mul_right hlt)

theorem ArgsFor.swapU16_asU16 : swapU16 a.dstAddress.asU16 = firstChild 32 16 P rootPrefix := by
  unfold firstChild Ip4Address.asU16 Ip4Address.asU8
  rw [← ha.address, swapU16_bytes (Nat.mod_lt _ (by decide)) (Nat.mod_lt _ (by decide))]
  simp only [rootPrefix]
  omega

theorem ArgsFor.asU16 : a.dstAddress.asU16 = swapU16 (firstChild 32 16 P rootPrefix) := by
  rw [← ha.swapU16_asU16, swapU16_swapU16]
  unfold Ip4Address.asU16 Ip4Address.asU8
  omega

theorem ArgsFor.childBits_root : 16 - a.dstAddressLength = childBits 16 P rootPrefix := by
  simp only [childBits, rootPrefix, ha.length]
  omega

end

/-! ## Longer routes and non-empty slots -/

theorem SlotOk.not_noLonger (hi : i < 2 ^ 8)
    (h : SlotOk ok R (q.child 8 i) bits leaf) (hb : q.len < bits) : ¬ NoLonger R q := by
  intro hno
  cases leaf with
  | terminal adj =>
    obtain ⟨-, p, hl, hp⟩ := h
    have hq : Covers q p := (covers_child hi).linear hl.covers (by omega)
    have := hno p hq (by rw [hl.value]; exact Option.some_ne_none adj)
    omega
  | nextPly ply => exact h.2.1 (hno.below (covers_child hi))

theorem SlotsOk.noLonger {bits : Nat → Nat}
    (h : SlotsOk 8 k T q leaves bits) (hT : ∀ i p, R p ≠ none → T i p ≠ none)
    (hb : ∀ i < 2 ^ 8, bits i ≤ q.len) : NoLonger R q := by
  intro p hc hp
  rcases le_total p.len (q.len + 8) with hle | hle
  · -- the route ends in this ply, and the slots below it are at least as long
    obtain ⟨i, hi, hpi⟩ := exists_child_below hc hle
    have hs := h i hi
    have hbi := hb i hi
    cases hleaf : leaves i with
    | terminal adj =>
      rw [hleaf] at hs
      obtain ⟨-, r, hl, hr⟩ := hs
      have := hl.max p hpi (hT i p hp)
      omega
    | nextPly ply =>
      rw [hleaf] at hs
      have : bits i = q.len + 8 := hs.1
      omega
  · obtain ⟨i, hi, hpi⟩ := exists_child hc hle
    have hs := h i hi
    have hbi := hb i hi
    cases hleaf : leaves i with
    | terminal adj =>
      rw [hleaf] at hs
      obtain ⟨hno, r, hl, hr⟩ := hs
      have hlen : p.len ≤ q.len + 8 := hno p hpi (hT i p hp)
      have hpe : q.child 8 i = p := hpi.antisymm hlen
      have := hl.max p (hpe ▸ Covers.refl p) (hT i p hp)
      omega
    | nextPly ply =>
      rw [hleaf] at hs
      have : bits i = q.len + 8 := hs.1
      omega

end Vpp.Ip.Mtrie
