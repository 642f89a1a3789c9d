import Vpp.Ip.Mtrie.RouteDel

/-!
# Longest-prefix match

The two tries take the same route additions and deletions. What they are for is a table of routes, in
which the default route is always present, and the lookup of an address in either of them finds the
longest route that contains the address.
-/

namespace Vpp.Ip.Mtrie

open Lib Lib.Prefix Nat
open Function (update update_self update_of_ne)

/-! ## Lookup -/

variable {R R' : Routes} {q P : Prefix} {k i j bits : Nat}

def hostPrefix (dst : Ip4Address) : Prefix := ⟨32, dst.toNat⟩

variable {dst : Ip4Address} {len adj : Nat}

theorem covers_hostPrefix (hq : q.len = 8 * j) (hj : j < 4)
    (hc : Covers q (hostPrefix dst)) : Covers (q.child 8 (dst.asU8 j)) (hostPrefix dst) := by
  obtain ⟨i, hi, hci⟩ := exists_child (w := 8) hc (by simp only [hostPrefix]; omega)
  have hval := hci.2
  simp only [child, hostPrefix] at hval
  have hbyte : dst.asU8 j = i := by
    unfold Ip4Address.asU8
    rw [show 24 - 8 * j = 32 - (q.len + 8) by omega]
    omega
  rwa [hbyte]

theorem lookupStep_ok {leaf : Leaf (Ply (k + 1))} (h : SlotOk (PlyOk (k + 1) R q) R q bits leaf) :
    ∃ bits, SlotOk (PlyOk k R (q.child 8 (dst.asU8 j))) R (q.child 8 (dst.asU8 j)) bits
      (lookupStep leaf dst j) := by
  have hi : dst.asU8 j < 2 ^ 8 := mod_lt _ (by decide)
  cases leaf with
  | terminal adj =>
    obtain ⟨hno, p, hl, hb⟩ := h
    exact ⟨bits, hno.below (covers_child hi), p, hl.descend hno (covers_child hi), hb⟩
  | nextPly ply => exact ⟨_, h.2.2.2 _ hi⟩

theorem leafGetAdjIndex_ok {leaf : Leaf (Ply 0)} (hc : Covers q (hostPrefix dst))
    (h : SlotOk (PlyOk 0 R q) R q bits leaf) :
    ∃ p, Longest R (hostPrefix dst) p (leafGetAdjIndex leaf) := by
  cases leaf with
  | terminal adj =>
    obtain ⟨hno, p, hl, -⟩ := h
    exact ⟨p, hl.descend hno hc⟩
  | nextPly ply => exact ply.elim

theorem lookupSteps_ok {leaf : Leaf (Ply 2)} (hq : q.len = 16)
    (hc : Covers q (hostPrefix dst)) (h : SlotOk (PlyOk 2 R q) R q bits leaf) :
    ∃ p, Longest R (hostPrefix dst) p
      (leafGetAdjIndex (lookupStep (lookupStep leaf dst 2) dst 3)) := by
  obtain ⟨_, h2⟩ := lookupStep_ok h
  have hc2 := covers_hostPrefix (j := 2) hq (by decide) hc
  obtain ⟨_, h3⟩ := lookupStep_ok h2
  exact leafGetAdjIndex_ok (covers_hostPrefix (by simp only [child]; omega) (by decide) hc2) h3

theorem covers_rootPrefix (dst : Ip4Address) : Covers rootPrefix (hostPrefix dst) :=
  ⟨Nat.zero_le _, div_eq_of_lt dst.isLt⟩

theorem Mtrie8.lookup_ok {m : Mtrie8} (h : PlyOk 4 R rootPrefix m.rootPly) (dst : Ip4Address) :
    ∃ p, Longest R (hostPrefix dst) p (m.lookup dst) := by
  have hc0 := covers_rootPrefix dst
  have hc1 := covers_hostPrefix (j := 0) rfl (by decide) hc0
  have hc2 := covers_hostPrefix (j := 1) rfl (by decide) hc1
  obtain ⟨_, h1⟩ := lookupStep_ok (h.2 _ (mod_lt _ (by decide)))
  exact lookupSteps_ok rfl hc2 h1

theorem Mtrie16.lookup_ok {m : Mtrie16} (h : RootOk (fun _ => R) m.rootPly) (dst : Ip4Address) :
    ∃ p, Longest R (hostPrefix dst) p (m.lookup dst) := by
  obtain ⟨i, hi, hci⟩ := exists_child (covers_rootPrefix dst) (show 0 + 16 ≤ 32 by decide)
  have hval := hci.2
  simp only [child, hostPrefix, rootPrefix] at hval
  have hslot : dst.asU16 = swapU16 i := by
    have h0 : dst.asU8 0 = i / 256 := by
      unfold Ip4Address.asU8
      omega
    have h1 : dst.asU8 1 = i % 256 := by
      unfold Ip4Address.asU8
      omega
    unfold Ip4Address.asU16 swapU16
    omega
  have hs := h i hi
  dsimp only at hs
  rw [← hslot] at hs
  exact lookupSteps_ok rfl hci hs

/-! ## The table of routes -/

inductive RouteOp where
  | add (dstAddress : Ip4Address) (dstAddressLength adjIndex : Nat)
  | del (dstAddress : Ip4Address) (dstAddressLength adjIndex coverAddressLength coverAdjIndex : Nat)

def RouteOp.Fits : RouteOp → Prop
  | .add _ _ adj => adj < 2 ^ 31
  | .del .. => True

def routePrefix (dstAddress : Ip4Address) (len : Nat) : Prefix :=
  ⟨len, dstAddress.toNat / 2 ^ (32 - len)⟩

namespace Routes

def default : Routes := update (fun _ => none) rootPrefix (some 0)

def apply (R : Routes) : RouteOp → Routes
  | .add dst len adj => update R (routePrefix dst len) (some adj)
  | .del dst len _ _ _ =>
    update R (routePrefix dst len)
      (if routePrefix dst len = rootPrefix then some 0 else none)

def Distinct (R : Routes) : Prop := ∀ p p' adj, R p = some adj → R p' = some adj → p = p'

/-- A deletion names an installed route and the longest one that remains above it. -/
def Names (R : Routes) : RouteOp → Prop
  | .add _ len _ => len ≤ 32
  | .del dst len adj coverLen coverAdj => len ≤ 32 ∧ R (routePrefix dst len) = some adj ∧
      ∃ c, Longest (R.apply (.del dst len adj coverLen coverAdj)) (routePrefix dst len) c coverAdj ∧
        c.len = coverLen

structure Accepts (R : Routes) (op : RouteOp) : Prop where
  names : R.Names op
  distinct : (R.apply op).Distinct

end Routes

/-! ## The two tries -/

structure Tries where
  mtrie16 : Mtrie16
  mtrie8 : Mtrie8

namespace Tries

def init : Tries := ⟨.init, .init⟩

def apply (t : Tries) : RouteOp → Tries
  | .add dst len adj => ⟨t.mtrie16.routeAdd dst len adj, t.mtrie8.routeAdd dst len adj⟩
  | .del dst len adj coverLen coverAdj =>
    ⟨t.mtrie16.routeDel dst len adj coverLen coverAdj, t.mtrie8.routeDel dst len adj coverLen coverAdj⟩

end Tries

/-- The tries and the table they are for, after a change. -/
def step (s : Tries × Routes) (op : RouteOp) : (Tries × Routes) × Unit :=
  ((s.1.apply op, s.2.apply op), ())

structure Represents (s : Tries × Routes) : Prop where
  root16 : RootOk (fun _ => s.2) s.1.mtrie16.rootPly
  root8 : PlyOk 4 s.2 rootPrefix s.1.mtrie8.rootPly
  distinct : s.2.Distinct
  fits : ∀ p adj, s.2 p = some adj → adj < 2 ^ 31

/-! ### Every change keeps them in step -/

theorem toNat_and_fibMasks (hlen : len ≤ 32) :
    (dst &&& fibMasks len).toNat = dst.toNat / 2 ^ (32 - len) * 2 ^ (32 - len) := by
  have hmask : (2 ^ len - 1) * 2 ^ (32 - len) < 2 ^ 32 := by
    have hpow : 2 ^ len * 2 ^ (32 - len) = 2 ^ 32 := by rw [← pow_add, Nat.add_sub_cancel' hlen]
    rw [← hpow]
    exact Nat.mul_lt_mul_of_pos_right (Nat.sub_lt (Nat.two_pow_pos len) (by decide)) (Nat.two_pow_pos _)
  rw [BitVec.toNat_and, fibMasks, BitVec.toNat_ofNat, mod_eq_of_lt hmask]
  apply eq_of_testBit_eq
  intro i
  rw [testBit_and, testBit_mul_two_pow, testBit_mul_two_pow, testBit_div_two_pow]
  rcases lt_or_ge i (32 - len) with hi | hi
  · simp [not_le.mpr hi]
  rw [Nat.sub_add_cancel hi]
  rcases lt_or_ge i 32 with h32 | h32
  · have : i - (32 - len) < len := by omega
    simp [hi, this]
  · have : dst.toNat.testBit i = false :=
      testBit_lt_two_pow (lt_of_lt_of_le dst.isLt (Nat.pow_le_pow_right (by decide) h32))
    simp [this]

theorem argsFor (dst : Ip4Address) (hlen : len ≤ 32) (adj coverLen coverAdj : Nat) :
    ArgsFor ⟨dst &&& fibMasks len, len, adj, coverLen, coverAdj⟩ (routePrefix dst len) :=
  ⟨toNat_and_fibMasks hlen, rfl, hlen⟩

theorem default_eq_some {p : Prefix} (h : Routes.default p = some adj) :
    p = rootPrefix ∧ adj = 0 := by
  unfold Routes.default at h
  by_cases hp : p = rootPrefix
  · rw [hp] at h
    exact ⟨hp, (Option.some.inj h).symm⟩
  · rw [update_of_ne hp] at h
    exact nomatch h

theorem slotOk_default {S : Type} {ok : S → Prop} (hc : Covers rootPrefix q) :
    SlotOk ok Routes.default q 0 (leafSetAdjIndex 0) := by
  have honly : ∀ p, Routes.default p ≠ none → p = rootPrefix := fun p hp => by
    obtain ⟨adj, hadj⟩ := Option.ne_none_iff_exists'.mp hp
    exact (default_eq_some hadj).1
  refine ⟨fun p _ hp => ?_, rootPrefix, ⟨hc, update_self .., fun p _ hp => ?_⟩, rfl⟩
  · rw [honly p hp]
    exact Nat.zero_le _
  · rw [honly p hp]

theorem represents_init : Represents (.init, .default) := by
  refine ⟨fun i hi => slotOk_default (covers_child hi),
    ⟨⟨rfl, ?_⟩, fun i hi => slotOk_default (covers_child hi)⟩, fun p p' adj h h' => ?_,
    fun p adj h => ?_⟩
  · show (0 : Int) = ∑ _i ∈ Finset.range 256, 0
    rw [Finset.sum_const_zero]
  · rw [(default_eq_some h).1, (default_eq_some h').1]
  · rw [(default_eq_some h).2]
    decide

namespace Represents

variable {s : Tries × Routes}

theorem fits_apply (h : Represents s) (op : RouteOp) (hfits : op.Fits) :
    ∀ p adj, s.2.apply op p = some adj → adj < 2 ^ 31 := by
  intro p adj' hp
  cases op with
  | add dst len adj =>
    rw [Routes.apply] at hp
    by_cases he : p = routePrefix dst len
    · rw [he, update_self] at hp
      exact Option.some.inj hp ▸ hfits
    · rw [update_of_ne he] at hp
      exact h.fits p adj' hp
  | del dst len adj coverLen coverAdj =>
    rw [Routes.apply] at hp
    by_cases he : p = routePrefix dst len
    · rw [he, update_self] at hp
      split at hp
      · exact Option.some.inj hp ▸ (by decide)
      · exact nomatch hp
    · rw [update_of_ne he] at hp
      exact h.fits p adj' hp

theorem add (h : Represents s) (hok : s.2.Accepts (.add dst len adj)) (hfits : adj < 2 ^ 31) :
    Represents (step s (.add dst len adj)).1 := by
  have ha := argsFor dst hok.names adj 0 0
  exact ⟨setRootLeaf_ok ha hfits h.root16,
    setLeaf_ok ha hfits rfl rfl (.inr ha.root) h.root8, hok.distinct, h.fits_apply (.add dst len adj) hfits⟩

theorem del (h : Represents s) {coverLen coverAdj : Nat}
    (hok : s.2.Accepts (.del dst len adj coverLen coverAdj)) :
    Represents (step s (.del dst len adj coverLen coverAdj)).1 := by
  obtain ⟨hlen, hin, c, hc, hcl⟩ := hok.names
  have hfits := h.fits_apply (.del dst len adj coverLen coverAdj) trivial
  have W : Withdraws ⟨dst &&& fibMasks len, len, adj, coverLen, coverAdj⟩ (routePrefix dst len) c s.2
      (s.2.apply (.del dst len adj coverLen coverAdj)) :=
    ⟨argsFor dst hlen _ _ _, fun p hp => update_of_ne hp _ _, hin, hc, hcl.symm, h.distinct,
      h.fits _ _ hin, hfits _ _ hc.value⟩
  exact ⟨unsetRootLeaf_ok W h.root16, unsetLeaf_root_ok W h.root8, hok.distinct, hfits⟩

theorem step (h : Represents s) {op : RouteOp} (hok : s.2.Accepts op) (hfits : op.Fits) :
    Represents (Mtrie.step s op).1 := by
  cases op with
  | add dst len adj => exact h.add hok hfits
  | del dst len adj coverLen coverAdj => exact h.del hok

theorem run {ops : List RouteOp}
    (hok : Along Mtrie.step (fun s op => s.2.Accepts op ∧ op.Fits) (.init, .default) ops) :
    Represents (after Mtrie.step (.init, .default) ops) :=
  (Along.invariant Represents (fun _ => True) (fun _ _ h hop => ⟨h.step hop.1 hop.2, trivial⟩)
    represents_init hok).1

end Represents

/-- After any route changes, both tries find for every address the adjacency index of the longest route
containing it. -/
theorem lookup_longest_match {ops : List RouteOp}
    (hok : Along step (fun s op => s.2.Accepts op ∧ op.Fits) (.init, .default) ops)
    (dst : Ip4Address) :
    let s := after step (.init, .default) ops
    ∃ p adj, Longest s.2 (hostPrefix dst) p adj ∧ s.1.mtrie16.lookup dst = adj ∧
      s.1.mtrie8.lookup dst = adj := by
  have h := Represents.run hok
  obtain ⟨p, hl⟩ := Mtrie16.lookup_ok h.root16 dst
  obtain ⟨p', hl'⟩ := Mtrie8.lookup_ok h.root8 dst
  exact ⟨p, _, hl, rfl, hl'.unique hl⟩

/-! ### A route comes and goes -/

theorem distinct_default : Routes.default.Distinct := represents_init.distinct

theorem Routes.Distinct.add (h : R.Distinct) (P : Prefix) (hnew : ∀ p, R p ≠ some adj) :
    Routes.Distinct (update R P (some adj)) := by
  intro p p' z hp hp'
  by_cases he : p = P <;> by_cases he' : p' = P
  · rw [he, he']
  · rw [he, update_self] at hp
    rw [update_of_ne he', ← hp] at hp'
    exact absurd hp' (hnew p')
  · rw [he', update_self] at hp'
    rw [update_of_ne he, ← hp'] at hp
    exact absurd hp (hnew p)
  · rw [update_of_ne he] at hp
    rw [update_of_ne he'] at hp'
    exact h p p' z hp hp'

theorem Routes.Distinct.erase (h : R.Distinct) (P : Prefix) : Routes.Distinct (update R P none) := by
  intro p p' z hp hp'
  have he : p ≠ P := fun he => by
    rw [he, update_self] at hp
    exact nomatch hp
  have he' : p' ≠ P := fun he => by
    rw [he, update_self] at hp'
    exact nomatch hp'
  rw [update_of_ne he] at hp
  rw [update_of_ne he'] at hp'
  exact h p p' z hp hp'

theorem default_ne_some (hadj : adj ≠ 0) (p : Prefix) : Routes.default p ≠ some adj :=
  fun h => hadj (default_eq_some h).2

/-- The routes 10.0.0.0/8 and 10.1.2.0/24, of which the second is deleted again. -/
def withdrawn : List RouteOp :=
  [.add 0x0A000000#32 8 1, .add 0x0A010203#32 24 2, .del 0x0A010200#32 24 2 8 1]

theorem lookup_longest_match_withdrawn :
    (after step (.init, .default) withdrawn).1.mtrie16.lookup 0x0A010205#32 = 1 ∧
      (after step (.init, .default) withdrawn).1.mtrie8.lookup 0x0A010205#32 = 1 := by
  let R1 : Routes := update Routes.default ⟨8, 10⟩ (some 1)
  let R2 : Routes := update R1 ⟨24, 0x0A0102⟩ (some 2)
  let R3 : Routes := update R2 ⟨24, 0x0A0102⟩ none
  have hd1 : R1.Distinct := distinct_default.add _ (default_ne_some (by decide))
  have hd2 : R2.Distinct := hd1.add _ fun p hp => by
    by_cases he : p = ⟨8, 10⟩
    · rw [he] at hp
      exact absurd hp (by decide)
    · rw [show R1 p = _ from update_of_ne he _ _] at hp
      exact default_ne_some (by decide) p hp
  have honly : ∀ p, R3 p ≠ none → p.len ≤ 8 := fun p hp => by
    by_contra hlt
    have h24 : p ≠ ⟨24, 0x0A0102⟩ := fun he => hp (by rw [he]; exact update_self ..)
    have h8 : p ≠ ⟨8, 10⟩ := fun he => hlt (by rw [he])
    have h0 : p ≠ rootPrefix := fun he => hlt (by rw [he]; decide)
    exact hp (by simp only [R3, R2, R1, Routes.default, update_of_ne h24,
      update_of_ne h8, update_of_ne h0])
  have hlongest : ∀ q, Covers ⟨8, 10⟩ q → Longest R3 q ⟨8, 10⟩ 1 := fun q hc =>
    ⟨hc, by decide, fun p _ hp => honly p hp⟩
  have hok : Along step (fun s op => s.2.Accepts op ∧ op.Fits) (.init, .default) withdrawn :=
    ⟨⟨⟨(by decide : 8 ≤ 32), hd1⟩, (by decide : 1 < 2 ^ 31)⟩,
      ⟨⟨(by decide : 24 ≤ 32), hd2⟩, (by decide : 2 < 2 ^ 31)⟩,
      ⟨⟨⟨(by decide), (by decide), ⟨8, 10⟩,
        hlongest _ (by decide), rfl⟩, hd2.erase _⟩, trivial⟩, trivial⟩
  obtain ⟨p, adj, hl, h16, h8⟩ := lookup_longest_match hok 0x0A010205#32
  have hadj : adj = 1 := hl.unique (hlongest _ (by decide))
  exact ⟨h16.trans hadj, h8.trans hadj⟩

/-- An adjacency index of 31 bits and more does not fit into a leaf. -/
theorem lookup_truncates_adjacency :
    let ops := [RouteOp.add 0x0A000001#32 32 (2 ^ 31)]
    let s := after step (.init, .default) ops
    Along step (fun s op => s.2.Accepts op) (.init, .default) ops ∧
      Longest s.2 (hostPrefix 0x0A000001#32) ⟨32, 0x0A000001⟩ (2 ^ 31) ∧
      s.1.mtrie16.lookup 0x0A000001#32 = 0 ∧ s.1.mtrie8.lookup 0x0A000001#32 = 0 := by
  refine ⟨⟨⟨(by decide : 32 ≤ 32), distinct_default.add _ (default_ne_some (by decide))⟩, trivial⟩,
    ⟨by decide, by decide, fun p hc _ => hc.1⟩, by decide +kernel, by decide +kernel⟩

end Vpp.Ip.Mtrie
