import Vpp.Vnet.ConfigSharing

/-!
# What the users of an arc hold

Over all runs of calls by the users of an arc, a user holds the features it added and did not delete.
Two kinds of calls break this: `vnet_config_modify_end_node` for a user whose last feature is the default
end node, and a call that leaves two users with the same features but for the end node, as a feature
without data, in one of them.
-/

namespace Vpp.Vnet

open Lib BitVec
open List hiding after
open Function (update_eq_self)

variable {U : Type} {a : Arc} {size : Nat → Nat}

/-- User `u` holds the configuration that it wants. -/
structure Holding (a : Arc) (s : Users U) (ci : Nat) (w : Wanted) (c : Config) : Prop where
  live : s.main.configPool.elts (poolIndex s.main ci) = some c
  index : ci = c.configStringHeapIndex + 1
  features : (c.features.map Feature.key).Perm w.keys
  sorted : c.features.Pairwise fun f g => f.featureIndex ≤ g.featureIndex
  connected : c.features = a.connect invalid c.features
  heap : s.main.configStringHeap.Holds (ci - 1)
    (poolIndex s.main ci :: spelled a c.features w.endNode)

structure Sound (a : Arc) (s : Users U) : Prop where
  idle : ∀ u, s.held u = none ↔ s.want u = none
  holding : ∀ u ci w, s.held u = some ci → s.want u = some w → ∃ c, Holding a s ci w c
  shared : ∀ u v ci w w', s.held u = some ci → s.held v = some ci → s.want u = some w →
    s.want v = some w' → w.features.Perm w'.features ∧ w.endNode = w'.endNode
  count : ∀ i c, s.main.configPool.elts i = some c → 0 < c.referenceCount ∧
    (holders s.held (c.configStringHeapIndex + 1)).encard = c.referenceCount

/-! ## The calls that are served -/

def Op.Sized (size : Nat → Nat) : Op U → Prop
  | .addFeature _ i d _ | .delFeature _ i d _ => d.length = size i
  | .modifyEndNode .. | .del _ => True

/-- The end node is not changed if the last feature is the default end node. -/
def Op.KeepsFeatures (a : Arc) (w : Option Wanted) : Op U → Prop
  | .modifyEndNode _ e _ => e ≠ invalid → ∀ w' ∈ w, ∀ p ∈ w'.features,
    (∀ q ∈ w'.features, q.1 ≤ p.1) → a.node p.1 ≠ a.defaultEndNodeIndex
  | .addFeature .. | .delFeature .. | .del _ => True

structure Served (a : Arc) (size : Nat → Nat) (s : Users U) (op : Op U) : Prop where
  sized : op.Sized size
  keeps : op.KeepsFeatures a (s.want op.user)
  twin : ∀ w ∈ op.want a (s.want op.user), ∀ v ≠ op.user, ∀ w' ∈ s.want v,
    ¬ Twin a w w' ∧ ¬ Twin a w' w

variable [DecidableEq U] {s : Users U} {u : U}

/-! ## The calls -/

variable {f : Feature} {fs : List Feature} {i hint : Nat} {d : List Byte} {w : Wanted}

theorem Feature.Fits.lt (h : f.Fits a size) : f.featureIndex < 2 ^ 31 :=
  Arc.lt_of_node (h.nodeIndex ▸ h.ne)

theorem sorted_sort (h : ∀ f ∈ fs, f.Fits a size) :
    (a.sort fs).Pairwise fun f g => f.featureIndex ≤ g.featureIndex := by
  have hperm := a.sort_perm fs
  refine (a.sort_sorted fs fun f hf => (h f hf).lt).imp_of_mem fun {f g} hf hg hcmp => ?_
  have hf := (h f (hperm.subset hf)).lt
  have hg := (h g (hperm.subset hg)).lt
  unfold featureCmp at hcmp
  rw [toInt_eq_toNat_cond, toNat_sub, toNat_ofNat, toNat_ofNat] at hcmp
  split at hcmp <;> omega

theorem sortFeatures_spec (h : ∀ f ∈ fs, f.Fits a size) :
    (sortFeatures a fs).Pairwise (fun f g => f.featureIndex ≤ g.featureIndex) ∧
      (sortFeatures a fs).Perm fs := by
  unfold sortFeatures
  split
  · exact ⟨sorted_sort h, a.sort_perm _⟩
  rename_i hlen
  refine ⟨?_, .refl _⟩
  cases fs with
  | nil => exact .nil
  | cons f fs =>
    have hnil : fs = [] := length_eq_zero_iff.mp (by rw [length_cons] at hlen; omega)
    rw [hnil]
    exact pairwise_singleton _ _

omit [DecidableEq U] in
theorem Inv.oldFeatures (h : Inv a size s) (u : U) :
    Spells a size (oldFeatures s.main (s.held u)) ((s.want u).getD ⟨[], a.defaultEndNodeIndex⟩) ∧
    oldEndNode a s.main (s.held u) = ((s.want u).getD ⟨[], a.defaultEndNodeIndex⟩).endNode := by
  cases hu : s.held u with
  | none =>
    rw [h.idle u hu]
    exact ⟨⟨by simp [Vnet.oldFeatures], .nil, .nil, by simp⟩, rfl⟩
  | some ci =>
    obtain ⟨w, i, c, hw, huse⟩ := h.uses u ci hu
    have hold : Vnet.oldFeatures s.main (some ci) = c.features := by
      simp only [Vnet.oldFeatures]
      rw [huse.index, h.main.poolIndex_eq huse.live, huse.live]
      rfl
    have hok := h.main.config i c huse.live
    rw [hold, hw]
    exact ⟨⟨hok.fits, hok.sorted, huse.features, huse.sized⟩, huse.endNode⟩

theorem Inv.addFeature (h : Inv a size s) (hok : Served a size s (.addFeature u i d hint)) :
    Inv a size (s.step a (.addFeature u i d hint)).1 := by
  obtain ⟨⟨hfits, -, hkeys, hsized⟩, hend⟩ := h.oldFeatures u
  have hsize : d.length = size i := hok.sized
  have htwin := hok.twin
  simp only [Op.user, Op.want] at htwin
  simp only [Users.step, Op.call, Op.user, Op.want, vnetConfigAddFeature]
  by_cases hnode : a.node i = invalid
  · simp only [if_pos hnode, Option.orElse_eq_orElse, Option.orElse_none, update_eq_self]
    exact h
  simp only [if_neg hnode] at htwin ⊢
  have hnew : ∀ f ∈ Vnet.oldFeatures s.main (s.held u) ++ [⟨i, a.node i, 0, toWords d⟩],
      f.Fits a size := by
    rw [forall_mem_append, forall_mem_singleton]
    exact ⟨hfits, rfl, hnode, d, hsize, rfl⟩
  obtain ⟨hsort, hperm⟩ := sortFeatures_spec hnew
  obtain ⟨main, ci, hmain, hinv⟩ := h.replace ⟨fun f hf => hnew f (hperm.subset hf), hsort, by
      refine (hperm.map _).trans ?_
      rw [map_append, Wanted.keys, map_append]
      exact hkeys.append_right _,
    by
      rw [forall_mem_append, forall_mem_singleton]
      exact ⟨hsized, hsize⟩⟩
    (htwin _ rfl) hint
  rw [hend, hmain]
  exact hinv

theorem sameFeature_iff (hf : f.Fits a size) (hd : d.length = size i) :
    sameFeature i d f = true ↔ f.key = (i, toWords d) := by
  obtain ⟨d', hd', hdata⟩ := hf.data
  simp only [sameFeature, Feature.key, Bool.and_eq_true, beq_iff_eq, Bool.or_eq_true, hdata,
    length_toWords, Prod.mk.injEq]
  constructor
  · rintro ⟨⟨hi, hlen⟩, hbytes⟩
    have hl : d.length = d'.length := by rw [hd, hd', hi]
    refine ⟨hi, congrArg toWords ?_⟩
    rcases hbytes with hzero | hbytes
    · have hnil : d = [] := length_eq_zero_iff.mp (by omega)
      have hnil' : d' = [] := length_eq_zero_iff.mp (by omega)
      rw [hnil, hnil']
    · rw [hl, take_wordBytes] at hbytes
      exact hbytes
  · rintro ⟨hi, hwords⟩
    have hl : d'.length = d.length := by rw [hd, hd', hi]
    have heq := toWords_inj hl hwords
    subst heq
    exact ⟨⟨hi, rfl⟩, .inr (take_wordBytes d')⟩

theorem map_key_eraseP (h : ∀ f ∈ fs, f.Fits a size) (hd : d.length = size i) :
    (fs.eraseP (sameFeature i d)).map Feature.key = (fs.map Feature.key).erase (i, toWords d) := by
  induction fs with
  | nil => rfl
  | cons f fs ih =>
    rw [forall_mem_cons] at h
    have hiff := sameFeature_iff h.1 hd
    by_cases hf : f.key = (i, toWords d)
    · rw [eraseP_cons_of_pos (hiff.mpr hf), map_cons, hf, erase_cons_head]
    · rw [eraseP_cons_of_neg (by rwa [hiff]), map_cons, map_cons,
        erase_cons_tail (by simpa using hf), ih h.2]

theorem mem_features_iff (h : ∀ p ∈ w.features, p.2.length = size p.1) (hd : d.length = size i) :
    (i, toWords d) ∈ w.keys ↔ (i, d) ∈ w.features := by
  constructor
  · intro hmem
    obtain ⟨⟨j, d'⟩, hp, heq⟩ := mem_map.mp hmem
    obtain ⟨rfl, hwords⟩ := Prod.mk.inj heq
    have hl := h _ hp
    rw [toWords_inj (hd.trans hl.symm) hwords.symm]
    exact hp
  · exact fun hmem => mem_map.mpr ⟨(i, d), hmem, rfl⟩

theorem Inv.delFeature (h : Inv a size s) (hok : Served a size s (.delFeature u i d hint)) :
    Inv a size (s.step a (.delFeature u i d hint)).1 := by
  obtain ⟨⟨hfits, hsorted, hkeys, hsized⟩, hend⟩ := h.oldFeatures u
  have hsize : d.length = size i := hok.sized
  have htwin := hok.twin
  simp only [Op.user] at htwin
  simp only [Users.step, Op.call, Op.user, Op.want, vnetConfigDelFeature]
  cases hu : s.held u with
  | none =>
    have hwant := h.idle u hu
    simp only [hwant, Option.map_none]
    rw [← hwant, ← hu, update_eq_self, update_eq_self]
    exact h
  | some ci =>
    obtain ⟨w, -, -, hw, -⟩ := h.uses u ci hu
    simp only [hw, hu, Option.getD_some, Option.map_some] at hfits hsorted hkeys hsized hend htwin ⊢
    have hany : (Vnet.oldFeatures s.main (some ci)).any (sameFeature i d) = true ↔
        (i, d) ∈ w.features := by
      rw [← mem_features_iff hsized hsize, ← hkeys.mem_iff, any_eq_true, mem_map]
      exact exists_congr fun f => and_congr_right fun hf => sameFeature_iff (hfits f hf) hsize
    by_cases hmem : (i, d) ∈ w.features
    · obtain ⟨main, ci', hmain, hinv⟩ := h.replace ⟨fun f hf => hfits f (mem_of_mem_eraseP hf),
        hsorted.sublist eraseP_sublist,
        by
          rw [map_key_eraseP hfits hsize]
          have := (hkeys.trans ((perm_cons_erase hmem).map _)).erase (i, toWords d)
          rwa [map_cons, erase_cons_head] at this,
        fun p hp => hsized p (mem_of_mem_erase hp)⟩
        (htwin _ rfl) hint
      simp only [if_pos (hany.mpr hmem)]
      rw [hu] at hmain
      rw [hend, hmain]
      exact hinv
    · simp only [if_neg (mt hany.mp hmem), Option.orElse_eq_orElse, Option.orElse_none]
      rw [erase_of_not_mem hmem, ← hw, ← hu, update_eq_self, update_eq_self]
      exact h

theorem withoutEndNode_eq (h : Spells a size fs w)
    (hkeeps : ∀ p ∈ w.features, (∀ q ∈ w.features, q.1 ≤ p.1) →
      a.node p.1 ≠ a.defaultEndNodeIndex) : withoutEndNode a fs = fs := by
  unfold withoutEndNode
  split
  · rfl
  rename_i last hlast
  rw [if_neg]
  obtain ⟨front, rfl⟩ := getLast?_eq_some_iff.mp hlast
  have hmem : last ∈ front ++ [last] := by simp
  obtain ⟨p, hp, hpk⟩ := mem_map.mp (h.keys.subset (mem_map_of_mem hmem))
  have hidx : p.1 = last.featureIndex := congrArg Prod.fst hpk
  rw [(h.fits last hmem).nodeIndex, ← hidx]
  refine hkeeps p hp fun q hq => ?_
  obtain ⟨f, hf, hfk⟩ := mem_map.mp (h.keys.mem_iff.mpr (mem_map_of_mem hq))
  rw [hidx, ← show f.featureIndex = q.1 from congrArg Prod.fst hfk]
  rcases mem_append.mp hf with hin | hin
  · exact (pairwise_append.mp h.sorted).2.2 f hin last (mem_singleton_self _)
  · rw [mem_singleton.mp hin]

theorem Inv.modifyEndNode (h : Inv a size s) {e : Nat} (hok : Served a size s (.modifyEndNode u e hint)) :
    Inv a size (s.step a (.modifyEndNode u e hint)).1 := by
  have hold := (h.oldFeatures u).1
  have htwin := hok.twin
  have hkeeps := hok.keeps
  simp only [Op.user, Op.want] at htwin hkeeps
  simp only [Users.step, Op.call, Op.user, Op.want, vnetConfigModifyEndNode]
  by_cases he : e = invalid
  · simp only [if_pos he, Option.orElse_eq_orElse, Option.orElse_none, update_eq_self]
    exact h
  simp only [if_neg he] at htwin ⊢
  have hfeatures : ((s.want u).map (·.features)).getD [] =
      ((s.want u).getD ⟨[], a.defaultEndNodeIndex⟩).features := by
    cases s.want u <;> rfl
  have hall : withoutEndNode a (Vnet.oldFeatures s.main (s.held u)) =
      Vnet.oldFeatures s.main (s.held u) := by
    refine withoutEndNode_eq hold ?_
    cases hw : s.want u with
    | none => simp
    | some w => exact hkeeps he w hw
  rw [hfeatures] at htwin ⊢
  obtain ⟨main, ci, hmain, hinv⟩ := h.replace
    (w := ⟨((s.want u).getD ⟨[], a.defaultEndNodeIndex⟩).features, e⟩) { hold with } (htwin _ rfl) hint
  rw [hall, hmain]
  exact hinv

theorem Inv.step (h : Inv a size s) {op : Op U} (hok : Served a size s op) :
    Inv a size (s.step a op).1 := by
  cases op with
  | addFeature u i d hint => exact h.addFeature hok
  | delFeature u i d hint => exact h.delFeature hok
  | modifyEndNode u e hint => exact h.modifyEndNode hok
  | del u =>
    simp only [Users.step, Op.call, Op.user, Op.want]
    cases hu : s.held u with
    | none =>
      have hheld : Function.update s.held u none = s.held := by rw [← hu, update_eq_self]
      have hwant : Function.update s.want u none = s.want := by
        rw [← h.idle u hu, update_eq_self]
      simp only [hheld, hwant]
      exact h
    | some ci => exact h.release hu

omit [DecidableEq U] in
theorem inv_init : Inv a size (Users.init a : Users U) :=
  ⟨⟨fun _ _ h => (nomatch h), fun _ _ h => (nomatch h)⟩, fun _ _ h => (nomatch h),
    fun _ _ h => (nomatch h), fun _ _ => rfl⟩

/-! ## What holds after every run -/

omit [DecidableEq U] in
theorem Inv.sound (h : Inv a size s) : Sound a s := by
  have huses : ∀ u ci w, s.held u = some ci → s.want u = some w →
      ∃ i c, Uses size s.main ci w i c := by
    intro u ci w hu hw
    obtain ⟨w', i, c, hw', huse⟩ := h.uses u ci hu
    rw [hw] at hw'
    cases hw'
    exact ⟨i, c, huse⟩
  refine ⟨fun u => ⟨h.idle u, fun hw => ?_⟩, fun u ci w hu hw => ?_, ?_, h.count⟩
  · cases hu : s.held u with
    | none => rfl
    | some ci =>
      obtain ⟨w, i, c, hw', -⟩ := h.uses u ci hu
      rw [hw] at hw'
      cases hw'
  · obtain ⟨i, c, huse⟩ := huses u ci w hu hw
    have hok := h.main.config i c huse.live
    have hindex : poolIndex s.main ci = i := by rw [huse.index, h.main.poolIndex_eq huse.live]
    refine ⟨c, by rw [hindex]; exact huse.live, huse.index, huse.features, hok.sorted, hok.connected,
      ?_⟩
    rw [hindex, ← configString_eq_spelled hok.connected, ← huse.endNode, huse.index, ← hok.string]
    exact hok.heap
  · intro u v ci w w' hu hv hw hw'
    obtain ⟨i, c, huse⟩ := huses u ci w hu hw
    obtain ⟨j, d, huse'⟩ := huses v ci w' hv hw'
    have hij : i = j := h.main.eq_of_heapIndex huse.live huse'.live (by
      have := huse.index
      have := huse'.index
      omega)
    subst hij
    have hcd : c = d := Option.some.inj (huse.live.symm.trans huse'.live)
    subst hcd
    exact ⟨perm_of_keys huse.sized huse'.sized (huse.features.symm.trans huse'.features),
      huse.endNode.symm.trans huse'.endNode⟩

/-- **Feature configurations.** In every run in which each feature has data of one size, no user changes its
end node while its last feature is the default end node, and no two users are left as twins, every user holds
the configuration it wants, shares it only with users that want the same, and the reference counts are the
numbers of users. -/
theorem users_hold_what_they_want (a : Arc) (size : Nat → Nat) (ops : List (Op U))
    (h : Along (Users.step a) (Served a size) (Users.init a : Users U) ops) :
    Sound a (after (Users.step a) (Users.init a) ops) :=
  (Along.invariant (Inv a size) (fun _ => True) (fun _ _ hs hok => ⟨hs.step hok, trivial⟩) inv_init
    h).1.sound

def threeFeatures : Arc where
  startNodeIndices := [1]
  nodeIndexByFeatureIndex := [10, 11, 12]
  defaultEndNodeIndex := 12
  nodeAddNext _ n := 2 * n
  sort := List.insertionSort fun f g => f.featureIndex ≤ g.featureIndex
  start_ne := by decide
  node_inj i j n _ hi hj := by
    obtain ⟨_, hi⟩ := List.getElem?_eq_some_iff.mp hi
    obtain ⟨_, hj⟩ := List.getElem?_eq_some_iff.mp hj
    have hnodup : [10, 11, 12].Nodup := by decide
    exact hnodup.getElem_inj_iff.mp (hi.trans hj.symm)
  length_le := by decide
  addNext_inj _ n m h := by simpa using h
  addNext_ne n m := by
    unfold invalid
    omega
  sort_perm := perm_insertionSort _
  sort_sorted fs hfs := by
    have : Std.Total fun f g : Feature => f.featureIndex ≤ g.featureIndex := ⟨fun _ _ => le_total _ _⟩
    have : IsTrans Feature fun f g => f.featureIndex ≤ g.featureIndex := ⟨fun _ _ _ => le_trans⟩
    refine (pairwise_insertionSort (fun f g : Feature => f.featureIndex ≤ g.featureIndex) fs).imp_of_mem
      fun {f g} hf hg hle => ?_
    have hf := hfs f ((perm_insertionSort _ _).subset hf)
    have hg := hfs g ((perm_insertionSort _ _).subset hg)
    unfold featureCmp
    rw [toInt_eq_toNat_cond, toNat_sub, toNat_ofNat, toNat_ofNat]
    split <;> omega

theorem not_twin_of_length {w w' : Wanted} (h : w'.features.length ≠ w.features.length + 1) :
    ¬ Twin a w w' := by
  rintro ⟨-, i, -, -, hperm⟩
  exact h hperm.length_eq

/-- Two users of one configuration, of which one goes on to another end node and the other leaves. -/
theorem two_users_hold_what_they_want :
    Sound threeFeatures (after (Users.step threeFeatures) (Users.init threeFeatures : Users Bool)
      [.addFeature true 1 [7] 0, .addFeature false 1 [7] 5, .modifyEndNode true 11 9, .del false]) := by
  refine users_hold_what_they_want threeFeatures (fun i => if i = 1 then 1 else 0) _
    ⟨⟨rfl, trivial, ?_⟩, ⟨rfl, trivial, ?_⟩, ⟨trivial, ?_, ?_⟩, ⟨trivial, trivial, ?_⟩, trivial⟩
  · intro w hw v hv w' hw'
    cases hw'
  · intro w hw v hv w' hw'
    cases v
    · exact absurd rfl hv
    · cases hw
      cases hw'
      constructor <;> exact not_twin_of_length (by decide)
  · intro _ w hw p hp _
    cases hw
    rw [mem_singleton.mp hp]
    decide
  · intro w hw v hv w' hw'
    cases v
    · cases hw
      cases hw'
      constructor <;> exact not_twin_of_length (by decide)
    · exact absurd rfl hv
  · intro w hw
    cases hw

/-- A user with data for its first feature and the default end node as its last: after a change of the end
node the data is lost. -/
theorem end_node_change_loses_data :
    ∃ ops : List (Op Unit), (∀ op ∈ ops, op.Sized fun i => if i = 0 then 1 else 0) ∧
      ¬ Sound threeFeatures (after (Users.step threeFeatures) (Users.init threeFeatures) ops) := by
  refine ⟨[.addFeature () 0 [7] 0, .addFeature () 2 [] 9, .modifyEndNode () 11 0], ?_, fun h => ?_⟩
  · simp [Op.Sized]
  obtain ⟨c, hc⟩ := h.holding () 1 ⟨[(0, [7]), (2, [])], 11⟩ (by decide) (by decide)
  have hkeys : some (c.features.map Feature.key) = some [(0, [])] := by
    have hlive := congrArg (Option.map fun c => c.features.map Feature.key) hc.live
    rw [Option.map_some] at hlive
    rw [← hlive]
    decide
  have hlen := hc.features.length_eq
  rw [Option.some.inj hkeys] at hlen
  exact absurd hlen (by decide)

end Vpp.Vnet
