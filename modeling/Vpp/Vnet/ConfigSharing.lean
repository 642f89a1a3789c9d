import Mathlib.Data.Set.Card
import Vpp.Vnet.ConfigString

/-!
# Sharing configurations

The hash finds every configuration under its string, and the reference count of a configuration is the
number of users that have its index. A user leaves a configuration and joins one; it joins the one it
wants unless the string it looks for was written for a twin, which has the end node as a last feature
without data.
-/

namespace Vpp.Vnet

open Lib List
open Function (update update_self update_of_ne)

variable {U : Type} {a : Arc} {size : Nat → Nat}

def Wanted.keys (w : Wanted) : List (Nat × List Nat) := w.features.map fun p => (p.1, toWords p.2)

def holders (held : U → Option Nat) (ci : Nat) : Set U := {u | held u = some ci}

/-- The second wants what the first does and its end node as a last feature without data. -/
def Twin (a : Arc) (w w' : Wanted) : Prop :=
  w.endNode = w'.endNode ∧ ∃ i, a.node i = w.endNode ∧ (∀ p ∈ w.features, p.1 < i) ∧
    w'.features.Perm ((i, []) :: w.features)

/-! ## The invariant -/

/-- A configuration is found under its string and is in the heap. -/
structure ConfigOk (a : Arc) (size : Nat → Nat) (cm : ConfigMain) (i : Nat) (c : Config) :
    Prop where
  hash : cm.configStringHash c.configStringVector = some i
  heap : cm.configStringHeap.Holds c.configStringHeapIndex (i :: c.configStringVector)
  string : c.configStringVector =
    a.configString invalid c.features (cm.endNodeIndicesByUserIndex (c.configStringHeapIndex + 1))
  fits : ∀ f ∈ c.features, f.Fits a size
  sorted : c.features.Pairwise fun f g => f.featureIndex ≤ g.featureIndex
  connected : c.features = a.connect invalid c.features

/-- User `u` has the configuration at pool index `i`. -/
structure Uses (size : Nat → Nat) (cm : ConfigMain) (ci : Nat) (w : Wanted) (i : Nat) (c : Config) :
    Prop where
  live : cm.configPool.elts i = some c
  index : ci = c.configStringHeapIndex + 1
  features : (c.features.map Feature.key).Perm w.keys
  endNode : cm.endNodeIndicesByUserIndex ci = w.endNode
  sized : ∀ p ∈ w.features, p.2.length = size p.1

structure Consistent (a : Arc) (size : Nat → Nat) (cm : ConfigMain) : Prop where
  config : ∀ i c, cm.configPool.elts i = some c → ConfigOk a size cm i c
  found : ∀ str i, cm.configStringHash str = some i →
    ∃ c, cm.configPool.elts i = some c ∧ c.configStringVector = str

structure Inv (a : Arc) (size : Nat → Nat) (s : Users U) : Prop where
  main : Consistent a size s.main
  count : ∀ i c, s.main.configPool.elts i = some c → 0 < c.referenceCount ∧
    (holders s.held (c.configStringHeapIndex + 1)).encard = c.referenceCount
  uses : ∀ u ci, s.held u = some ci →
    ∃ w i c, s.want u = some w ∧ Uses size s.main ci w i c
  idle : ∀ u, s.held u = none → s.want u = none

/-! ## Features and keys -/

variable {w : Wanted} {fs : List Feature} {e : Nat}

/-- The features are those of the wanted configuration, in order. -/
structure Spells (a : Arc) (size : Nat → Nat) (fs : List Feature) (w : Wanted) : Prop where
  fits : ∀ f ∈ fs, f.Fits a size
  sorted : fs.Pairwise fun f g => f.featureIndex ≤ g.featureIndex
  keys : (fs.map Feature.key).Perm w.keys
  sized : ∀ p ∈ w.features, p.2.length = size p.1

theorem map_keys (h : ∀ p ∈ w.features, p.2.length = size p.1) :
    (w.keys.map fun k => (k.1, (wordBytes k.2).take (size k.1))) = w.features := by
  unfold Wanted.keys
  rw [map_map]
  refine (map_congr_left fun p hp => ?_).trans (map_id _)
  simp only [Function.comp_apply, id_eq, ← h p hp, take_wordBytes]

theorem perm_of_keys {w w' : Wanted} (h : ∀ p ∈ w.features, p.2.length = size p.1)
    (h' : ∀ p ∈ w'.features, p.2.length = size p.1) (hk : w.keys.Perm w'.keys) :
    w.features.Perm w'.features := by
  rw [← map_keys h, ← map_keys h']
  exact hk.map _

/-- The feature that makes a list longer comes after all others: one with the same index would be the end
node. -/
theorem featureIndex_lt_of_longer {f g : Feature}
    (hfs : ∀ f ∈ fs, f.Fits a size) (hg : g.Fits a size)
    (hsorted : (fs.map Feature.key ++ [g.key]).Pairwise fun k l => k.1 ≤ l.1) (hnode : g.nodeIndex = e)
    (hlast : lastNode invalid fs = invalid ∨ lastNode invalid fs ≠ e) (hf : f ∈ fs) :
    f.featureIndex < g.featureIndex := by
  have hle : ∀ f ∈ fs, f.featureIndex ≤ g.featureIndex := fun f hf =>
    (pairwise_append.mp hsorted).2.2 f.key (mem_map_of_mem hf) _ (mem_singleton_self _)
  refine lt_of_le_of_ne (hle f hf) fun hidx => ?_
  obtain ⟨front, l, rfl⟩ := eq_nil_or_concat fs |>.resolve_left (ne_nil_of_mem hf)
  rw [concat_eq_append] at *
  have hl : lastNode invalid (front ++ [l]) = l.nodeIndex := by
    rw [lastNode, foldl_append]
    rfl
  have hfits := hfs l (by simp)
  have hge : g.featureIndex ≤ l.featureIndex := by
    rw [map_append, append_assoc] at hsorted
    rcases mem_append.mp hf with hin | hin
    · rw [← hidx]
      exact (pairwise_append.mp hsorted).2.2 f.key (mem_map_of_mem hin) l.key (by simp)
    · rw [← hidx, mem_singleton.mp hin]
  have heql : l.featureIndex = g.featureIndex := le_antisymm (hle l (by simp)) hge
  rw [hl] at hlast
  rcases hlast with hlast | hlast
  · exact hfits.ne hlast
  · exact hlast (by rw [hfits.nodeIndex, heql, ← hg.nodeIndex, hnode])

theorem twin_of_longer {fs gs : List Feature} {w w' : Wanted} (hfs : Spells a size fs w)
    (hgs : Spells a size gs w') (he : w.endNode = e) (he' : w'.endNode = e)
    (h : Longer invalid e fs gs) : Twin a w w' := by
  obtain ⟨g, hg, hkeys, hnode, hdata, hlast⟩ := h
  have hfit := hgs.fits g hg
  have hzero : size g.featureIndex = 0 := by
    obtain ⟨d, hd, hgd⟩ := hfit.data
    rw [hdata] at hgd
    rw [← hd, toWords_eq_nil.mp hgd.symm, length_nil]
  have hp : (gs.map Feature.key).Pairwise fun k l => k.1 ≤ l.1 := pairwise_map.mpr hgs.sorted
  rw [hkeys] at hp
  refine ⟨he.trans he'.symm, g.featureIndex, ?_, ?_, ?_⟩
  · rw [← hfit.nodeIndex, hnode, he]
  · intro p hpw
    obtain ⟨f, hf, hfp⟩ := mem_map.mp (hfs.keys.mem_iff.mpr (mem_map_of_mem hpw))
    rw [← show f.featureIndex = p.1 from congrArg Prod.fst hfp]
    exact featureIndex_lt_of_longer hfs.fits hfit hp hnode hlast hf
  · have hs'' : ∀ p ∈ (⟨(g.featureIndex, []) :: w.features, e⟩ : Wanted).features,
        p.2.length = size p.1 := forall_mem_cons.mpr ⟨hzero.symm, hfs.sized⟩
    refine perm_of_keys hgs.sized hs'' (hgs.keys.symm.trans ?_)
    rw [hkeys]
    refine perm_append_comm.trans ?_
    rw [Feature.key, hdata]
    exact hfs.keys.cons _

/-! ## References and the users that have them -/

section Holders

variable [DecidableEq U] {held : U → Option Nat} {u : U} {ci : Nat}

theorem holders_update_some (h : held u = none) (ci ci' : Nat) :
    (holders (update held u (some ci)) ci').encard =
      (holders held ci').encard + if ci' = ci then 1 else 0 := by
  split
  · rename_i heq
    subst heq
    have hu : u ∉ holders held ci' := by simp [holders, h]
    rw [← Set.encard_insert_of_notMem hu]
    congr 1
    ext v
    by_cases hv : v = u
    · subst hv
      simp [holders]
    · simp [holders, hv]
  · rename_i hne
    rw [add_zero]
    congr 1
    ext v
    by_cases hv : v = u
    · subst hv
      simp [holders, h, Ne.symm hne]
    · simp [holders, hv]

theorem holders_update_none (h : held u = some ci) (ci' : Nat) :
    (holders held ci').encard =
      (holders (update held u none) ci').encard + if ci' = ci then 1 else 0 := by
  rw [← holders_update_some (update_self ..) ci ci', Function.update_idem, ← h,
    Function.update_eq_self]

end Holders

namespace Consistent

variable {cm : ConfigMain} (h : Consistent a size cm) {i j : Nat} {c d : Config}
include h

section

variable (hc : cm.configPool.elts i = some c)
include hc

theorem poolIndex_eq : poolIndex cm (c.configStringHeapIndex + 1) = i := by
  have := (h.config i c hc).heap.value 0 (Nat.succ_pos _)
  exact this

theorem eq_of_heapIndex (hd : cm.configPool.elts j = some d)
    (heq : c.configStringHeapIndex = d.configStringHeapIndex) : i = j := by
  rw [← h.poolIndex_eq hc, ← h.poolIndex_eq hd, heq]

theorem setCount (n : Nat) :
    Consistent a size
      { cm with configPool := cm.configPool.set i { c with referenceCount := n } } := by
  have helts := cm.configPool.elts_set (i := i) (by simp [hc]) { c with referenceCount := n }
  constructor
  · intro j d hd
    rw [helts] at hd
    by_cases hj : j = i
    · subst hj
      rw [update_self] at hd
      cases hd
      exact { h.config j c hc with }
    · rw [update_of_ne hj] at hd
      exact { h.config j d hd with }
  · intro str j hstr
    obtain ⟨d, hd, hds⟩ := h.found str j hstr
    rw [helts]
    by_cases hj : j = i
    · subst hj
      rw [hc] at hd
      cases hd
      exact ⟨_, update_self .., hds⟩
    · exact ⟨d, by rw [update_of_ne hj, hd], hds⟩

theorem remove :
    Consistent a size
      { cm with
        configPool := cm.configPool.put i
        configStringHash := update cm.configStringHash c.configStringVector none
        configStringHeap := cm.configStringHeap.dealloc c.configStringHeapIndex } := by
  have hci := h.config i c hc
  constructor
  · intro j d hd
    simp only [Pool.elts_put] at hd
    have hj : j ≠ i := by
      rintro rfl
      rw [update_self] at hd
      cases hd
    rw [update_of_ne hj] at hd
    have hok := h.config j d hd
    refine ⟨?_, hok.heap.dealloc ?_, hok.string, hok.fits, hok.sorted, hok.connected⟩
    · simp only
      rw [update_of_ne, hok.hash]
      intro heq
      have hhash := hok.hash
      rw [heq, hci.hash] at hhash
      exact hj (Option.some.inj hhash).symm
    · exact fun heq => hj (h.eq_of_heapIndex hd hc heq)
  · intro str j hstr
    simp only at hstr
    have hne : str ≠ c.configStringVector := by
      rintro rfl
      rw [update_self] at hstr
      cases hstr
    rw [update_of_ne hne] at hstr
    obtain ⟨d, hd, hds⟩ := h.found str j hstr
    refine ⟨d, ?_, hds⟩
    simp only [Pool.elts_put]
    rw [update_of_ne, hd]
    rintro rfl
    rw [hc] at hd
    cases hd
    exact hne hds.symm

end

theorem heapIndex_ne_place (hd : cm.configPool.elts j = some d) (str : List Nat) (hint : Nat) :
    d.configStringHeapIndex ≠ cm.configStringHeap.place (str.length + 1) hint :=
  (h.config j d hd).heap.ne_place (cons_ne_nil _ _) (0 :: str) (cons_ne_nil _ _) hint

variable {fs : List Feature}

theorem insert {e hint : Nat} (hfits : ∀ f ∈ fs, f.Fits a size)
    (hsorted : fs.Pairwise fun f g => f.featureIndex ≤ g.featureIndex)
    (hnew : cm.configStringHash (a.configString invalid fs e) = none) :
    Consistent a size (findConfigWithFeatures a cm hint fs e).1 := by
  have hnext : ∀ {j d}, cm.configPool.elts j = some d → j ≠ cm.configPool.next := by
    rintro j d hd rfl
    rw [Pool.elts_next] at hd
    cases hd
  unfold findConfigWithFeatures
  simp only [hnew]
  constructor
  · intro j d hd
    simp only [Pool.elts_get] at hd
    by_cases hj : j = cm.configPool.next
    · subst hj
      rw [update_self] at hd
      cases hd
      refine ⟨update_self .., ?_, ?_, fits_connect hfits _, sorted_connect hsorted, ?_⟩
      · exact Heap.holds_alloc
      · simp only [update_self, configString_connected]
      · exact connect_connect.symm
    · rw [update_of_ne hj] at hd
      have hok := h.config j d hd
      refine ⟨?_, hok.heap.alloc _ _, ?_, hok.fits, hok.sorted, hok.connected⟩
      · simp only
        rw [update_of_ne, hok.hash]
        intro heq
        rw [← heq, hok.hash] at hnew
        cases hnew
      · simp only
        rw [update_of_ne, ← hok.string]
        have := h.heapIndex_ne_place hd (a.configString invalid fs e) hint
        omega
  · intro str j hstr
    simp only at hstr ⊢
    by_cases hs : str = a.configString invalid fs e
    · subst hs
      rw [update_self] at hstr
      cases hstr
      exact ⟨_, update_self .., rfl⟩
    · rw [update_of_ne hs] at hstr
      obtain ⟨d, hd, hds⟩ := h.found str j hstr
      exact ⟨d, by rw [Pool.elts_get, update_of_ne (hnext hd), hd], hds⟩

theorem uses_insert {e hint ci : Nat} {w : Wanted} (huse : Uses size cm ci w i c)
    (hnew : cm.configStringHash (a.configString invalid fs e) = none) :
    Uses size (findConfigWithFeatures a cm hint fs e).1 ci w i c := by
  unfold findConfigWithFeatures
  simp only [hnew]
  refine ⟨?_, huse.index, huse.features, ?_, huse.sized⟩
  · simp only [Pool.elts_get]
    rw [update_of_ne, huse.live]
    rintro rfl
    have hlive := huse.live
    rw [Pool.elts_next] at hlive
    cases hlive
  · simp only
    rw [update_of_ne, huse.endNode]
    rw [huse.index]
    have := h.heapIndex_ne_place huse.live (a.configString invalid fs e) hint
    omega

/-- **What looking for a string that is not there does.** -/
theorem find_new {e : Nat} (hfits : ∀ f ∈ fs, f.Fits a size)
    (hsorted : fs.Pairwise fun f g => f.featureIndex ≤ g.featureIndex)
    (hnew : cm.configStringHash (a.configString invalid fs e) = none) (hint : Nat) :
    ∃ main off, findConfigWithFeatures a cm hint fs e = (main, cm.configPool.next) ∧
      Consistent a size main ∧
      main.configPool.elts = update cm.configPool.elts cm.configPool.next
        (some ⟨a.connect invalid fs, a.configString invalid fs e, off, 0⟩) ∧
      main.endNodeIndicesByUserIndex (off + 1) = e ∧
      (∀ j d, cm.configPool.elts j = some d → d.configStringHeapIndex ≠ off) ∧
      ∀ {ci w i c}, Uses size cm ci w i c → Uses size main ci w i c := by
  refine ⟨(findConfigWithFeatures a cm hint fs e).1,
    cm.configStringHeap.place ((a.configString invalid fs e).length + 1) hint, ?_,
    h.insert hfits hsorted hnew, ?_, ?_, fun j d hd => h.heapIndex_ne_place hd _ hint,
    fun huse => h.uses_insert huse hnew⟩
  · simp only [findConfigWithFeatures, hnew]
  · simp only [findConfigWithFeatures, hnew, Pool.elts_get]
  · simp only [findConfigWithFeatures, hnew, update_self]

end Consistent

theorem Uses.setCount {cm : ConfigMain} {ci i j n : Nat} {c d : Config}
    (h : Uses size cm ci w j d) (hc : cm.configPool.elts i = some c) :
    ∃ e, Uses size { cm with configPool := cm.configPool.set i { c with referenceCount := n } } ci w j
      e := by
  have helts := cm.configPool.elts_set (i := i) (by simp [hc]) { c with referenceCount := n }
  by_cases hj : j = i
  · subst hj
    have hcd : c = d := Option.some.inj (hc.symm.trans h.live)
    subst hcd
    refine ⟨{ c with referenceCount := n }, ?_, h.index, h.features, h.endNode, h.sized⟩
    rw [helts, update_self]
  · refine ⟨d, ?_, h.index, h.features, h.endNode, h.sized⟩
    rw [helts, update_of_ne hj, h.live]

/-! ## Leaving and joining -/

variable [DecidableEq U] {s : Users U} {u : U} {ci : Nat}

section

variable (h : Inv a size s)
include h

theorem Inv.assign {main : ConfigMain} {index : Option Nat} {want : Option Wanted}
    (hmain : Consistent a size main)
    (hcount : ∀ i c, main.configPool.elts i = some c → 0 < c.referenceCount ∧
      (holders (update s.held u index) (c.configStringHeapIndex + 1)).encard =
        c.referenceCount)
    (hothers : ∀ v cv w i c, v ≠ u → s.held v = some cv → Uses size s.main cv w i c →
      ∃ c, Uses size main cv w i c) (hself : index = none ∧ want = none ∨
      ∃ cv w i c, index = some cv ∧ want = some w ∧ Uses size main cv w i c) :
    Inv a size ⟨main, update s.held u index, update s.want u want⟩ := by
  refine ⟨hmain, hcount, fun v cv hv => ?_, fun v hv => ?_⟩
  · simp only at hv ⊢
    by_cases hvu : v = u
    · subst hvu
      rw [update_self] at hv ⊢
      rcases hself with ⟨hnone, -⟩ | ⟨cv', w, i, c, hindex, hwant, huse⟩
      · rw [hnone] at hv
        cases hv
      · rw [hindex] at hv
        cases hv
        exact ⟨w, i, c, hwant, huse⟩
    · rw [update_of_ne hvu] at hv ⊢
      obtain ⟨w, i, c, hw, huse⟩ := h.uses v cv hv
      obtain ⟨c', huse'⟩ := hothers v cv w i c hvu hv huse
      exact ⟨w, i, c', hw, huse'⟩
  · simp only at hv ⊢
    by_cases hvu : v = u
    · subst hvu
      rw [update_self] at hv ⊢
      rcases hself with ⟨-, hnone⟩ | ⟨cv', w, i, c, hindex, -⟩
      · exact hnone
      · rw [hindex] at hv
        cases hv
    · rw [update_of_ne hvu] at hv ⊢
      exact h.idle v hv

/-- **A user leaves.** -/
theorem Inv.release (hu : s.held u = some ci) :
    Inv a size ⟨removeReference s.main (poolIndex s.main ci), update s.held u none,
      update s.want u none⟩ := by
  obtain ⟨w, i, c, hw, huse⟩ := h.uses u ci hu
  obtain ⟨hpos, hcard⟩ := h.count i c huse.live
  have hleft := holders_update_none hu
  have hci : (holders (update s.held u none) ci).encard + 1 = c.referenceCount := by
    rw [← hcard, ← huse.index, hleft ci, if_pos rfl]
  -- configurations of others keep their users
  have hkeep : ∀ j d, j ≠ i → s.main.configPool.elts j = some d → 0 < d.referenceCount ∧
      (holders (update s.held u none) (d.configStringHeapIndex + 1)).encard =
        d.referenceCount := by
    intro j d hj hd
    obtain ⟨hdpos, hdcard⟩ := h.count j d hd
    refine ⟨hdpos, ?_⟩
    rw [← hdcard, hleft, if_neg, add_zero]
    rw [huse.index]
    exact fun heq => hj (h.main.eq_of_heapIndex hd huse.live (by omega))
  have hindex : poolIndex s.main ci = i := by rw [huse.index, h.main.poolIndex_eq huse.live]
  unfold removeReference
  rw [hindex, huse.live]
  simp only
  split
  · have hempty : holders (update s.held u none) ci = ∅ := by
      rw [show c.referenceCount = 1 by omega] at hci
      simpa using hci
    refine h.assign (h.main.remove huse.live) ?_ ?_ (.inl ⟨rfl, rfl⟩)
    · intro j d hd
      simp only [Pool.elts_put] at hd
      by_cases hj : j = i
      · rw [hj, update_self] at hd
        cases hd
      · rw [update_of_ne hj] at hd
        exact hkeep j d hj hd
    · intro v cv w' j d hvu hv huse'
      refine ⟨d, ?_, huse'.index, huse'.features, huse'.endNode, huse'.sized⟩
      simp only [Pool.elts_put]
      rw [update_of_ne, huse'.live]
      rintro rfl
      have hcd : c = d := Option.some.inj (huse.live.symm.trans huse'.live)
      have hmem : v ∈ holders (update s.held u none) ci := by
        rw [holders, Set.mem_ofPred_eq, update_of_ne hvu, hv, huse'.index, huse.index, hcd]
      rw [hempty] at hmem
      exact hmem
  · rename_i hmore
    refine h.assign (h.main.setCount huse.live _) ?_ ?_ (.inl ⟨rfl, rfl⟩)
    · intro j d hd
      rw [Pool.elts_set _ (by simp [huse.live])] at hd
      by_cases hj : j = i
      · rw [hj, update_self] at hd
        cases hd
        refine ⟨pos_of_ne_zero hmore, ?_⟩
        rw [← huse.index]
        rw [show c.referenceCount = c.referenceCount - 1 + 1 by omega] at hci
        exact ENat.add_left_injective_of_ne_top ENat.one_ne_top hci
      · rw [update_of_ne hj] at hd
        exact hkeep j d hj hd
    · intro v cv w' j d _ _ huse'
      exact huse'.setCount huse.live

/-- **A user joins** a configuration that is there. -/
theorem Inv.join (hu : s.held u = none) {i : Nat} {c : Config} (huse : Uses size s.main ci w i c) :
    Inv a size
      ⟨{ s.main with
          configPool := s.main.configPool.set i { c with referenceCount := c.referenceCount + 1 } },
        update s.held u (some ci), update s.want u (some w)⟩ := by
  refine h.assign (h.main.setCount huse.live _) ?_ (fun v cv w' j d _ _ huse' =>
    huse'.setCount huse.live) ?_
  · intro j d hd
    rw [Pool.elts_set _ (by simp [huse.live])] at hd
    rw [holders_update_some hu]
    by_cases hj : j = i
    · rw [hj, update_self] at hd
      cases hd
      refine ⟨Nat.succ_pos _, ?_⟩
      rw [if_pos huse.index.symm, (h.count i c huse.live).2, Nat.cast_add, Nat.cast_one]
    · rw [update_of_ne hj] at hd
      obtain ⟨hpos, hcard⟩ := h.count j d hd
      refine ⟨hpos, ?_⟩
      rw [hcard, if_neg, add_zero]
      rw [huse.index]
      exact fun heq => hj (h.main.eq_of_heapIndex hd huse.live (by omega))
  · obtain ⟨e, huse'⟩ := huse.setCount huse.live
    exact .inr ⟨ci, w, i, e, rfl, rfl, huse'⟩

/-- **A user is the first** of a new configuration. -/
theorem Inv.enter_new (hu : s.held u = none) (hfs : Spells a size fs w)
    (hnew : s.main.configStringHash (a.configString invalid fs w.endNode) = none) (hint : Nat) :
    ∃ main ci, replaceConfig a s.main hint none fs w.endNode = (main, some ci) ∧
      Inv a size ⟨main, update s.held u (some ci), update s.want u (some w)⟩ := by
  obtain ⟨main, off, hfind, hmain, hpool, hend, hplace, hothers⟩ :=
    h.main.find_new hfs.fits hfs.sorted hnew hint
  have hlive : main.configPool.elts s.main.configPool.next =
      some ⟨a.connect invalid fs, a.configString invalid fs w.endNode, off, 0⟩ := by
    rw [hpool, update_self]
  have huse : Uses size main (off + 1) w s.main.configPool.next
      ⟨a.connect invalid fs, a.configString invalid fs w.endNode, off, 0⟩ :=
    ⟨hlive, rfl, by simpa only [map_key_connect] using hfs.keys, hend, hfs.sized⟩
  -- nobody has the new index yet
  have hnobody : (holders s.held (off + 1)).encard = 0 := by
    rw [Set.encard_eq_zero]
    refine Set.eq_empty_of_forall_notMem fun v hv => ?_
    obtain ⟨w', j, d, -, huse'⟩ := h.uses v (off + 1) hv
    have := huse'.index
    have := hplace j d huse'.live
    omega
  have hreplace : replaceConfig a s.main hint none fs w.endNode = ({ main with
          configPool := main.configPool.set s.main.configPool.next
            ⟨a.connect invalid fs, a.configString invalid fs w.endNode, off, 1⟩ }, some (off + 1)) := by
    simp only [replaceConfig, hfind, addReference, hlive]
  refine ⟨_, off + 1, hreplace, ?_⟩
  refine h.assign (hmain.setCount hlive 1) ?_
    (fun v cv w' j d _ _ huse' => (hothers huse').setCount hlive) ?_
  · intro j d hd
    rw [Pool.elts_set _ (by simp [hlive])] at hd
    rw [holders_update_some hu]
    by_cases hj : j = s.main.configPool.next
    · rw [hj, update_self] at hd
      cases hd
      refine ⟨one_pos, ?_⟩
      simp only [if_true]
      rw [hnobody, zero_add, Nat.cast_one]
    · rw [update_of_ne hj, hpool, update_of_ne hj] at hd
      obtain ⟨hpos, hcard⟩ := h.count j d hd
      refine ⟨hpos, ?_⟩
      have := hplace j d hd
      rw [hcard, if_neg (by omega), add_zero]
  · obtain ⟨e, huse'⟩ := huse.setCount hlive
    exact .inr ⟨off + 1, w, _, e, rfl, rfl, huse'⟩

/-- **A user gets** the configuration it wants, if none has the string of another. -/
theorem Inv.enter (hu : s.held u = none) (hfs : Spells a size fs w)
    (htwin : ∀ v, ∀ w' ∈ s.want v, ¬ Twin a w w' ∧ ¬ Twin a w' w) (hint : Nat) :
    ∃ main ci, replaceConfig a s.main hint none fs w.endNode = (main, some ci) ∧
      Inv a size ⟨main, update s.held u (some ci), update s.want u (some w)⟩ := by
  cases hfound : s.main.configStringHash (a.configString invalid fs w.endNode) with
  | none => exact h.enter_new hu hfs hfound hint
  | some i =>
    obtain ⟨c, hc, hstr⟩ := h.main.found _ i hfound
    have hok := h.main.config i c hc
    obtain ⟨hpos, hcard⟩ := h.count i c hc
    -- someone has it, and wants what its string says
    obtain ⟨v, hv⟩ : (holders s.held (c.configStringHeapIndex + 1)).Nonempty := by
      rw [← Set.encard_ne_zero, hcard]
      exact_mod_cast hpos.ne'
    obtain ⟨w', j, d, hw', huse'⟩ := h.uses v _ hv
    have hji : j = i := h.main.eq_of_heapIndex huse'.live hc (by have := huse'.index; omega)
    subst hji
    have hcd : c = d := Option.some.inj (hc.symm.trans huse'.live)
    subst hcd
    rw [hok.string] at hstr
    have hend := endNode_eq hstr
    rw [hend] at hstr
    have hend' : w'.endNode = w.endNode := huse'.endNode.symm.trans hend
    have hsame : (c.features.map Feature.key).Perm w.keys := by
      have hcs : Spells a size c.features w' := ⟨hok.fits, hok.sorted, huse'.features, huse'.sized⟩
      rcases configString_inj hok.fits hfs.fits hstr with heq | hlong | hlong
      · rw [heq]
        exact hfs.keys
      · exact absurd (twin_of_longer hcs hfs hend' rfl hlong) (htwin v w' hw').2
      · exact absurd (twin_of_longer hfs hcs rfl hend' hlong) (htwin v w' hw').1
    refine ⟨_, c.configStringHeapIndex + 1, ?_, h.join hu ⟨hc, rfl, hsame, hend, hfs.sized⟩⟩
    simp only [replaceConfig, findConfigWithFeatures, hfound, addReference, hc]

/-- **A user changes** to the configuration it wants. -/
theorem Inv.replace (hfs : Spells a size fs w)
    (htwin : ∀ v ≠ u, ∀ w' ∈ s.want v, ¬ Twin a w w' ∧ ¬ Twin a w' w) (hint : Nat) :
    ∃ main ci, replaceConfig a s.main hint (s.held u) fs w.endNode = (main, some ci) ∧
      Inv a size ⟨main, update s.held u (some ci), update s.want u (some w)⟩ := by
  cases hu : s.held u with
  | none =>
    refine h.enter hu hfs (fun v w' hw' => ?_) hint
    by_cases hv : v = u
    · rw [hv, h.idle u hu] at hw'
      cases hw'
    · exact htwin v hv w' hw'
  | some ci =>
    have hleft := h.release hu
    obtain ⟨main, ci', hmain, hinv⟩ := hleft.enter (update_self ..) hfs
      (fun v w' hw' => by
        simp only at hw'
        by_cases hv : v = u
        · rw [hv, update_self] at hw'
          cases hw'
        · rw [update_of_ne hv] at hw'
          exact htwin v hv w' hw') hint
    refine ⟨main, ci', hmain, ?_⟩
    simpa only [Function.update_idem] using hinv

end

end Vpp.Vnet
