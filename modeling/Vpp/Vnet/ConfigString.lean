import Mathlib.Data.List.Perm.Basic
import Mathlib.Data.List.Infix
import Vpp.Vnet.Config

/-!
# What a configuration string says

The string of a list of features does not mark where a feature ends. If each feature has data of one
length, the string still tells the features and the end node, but for one thing: a last feature that is
the end node and has no data adds nothing to the string.
-/

namespace Vpp.Vnet

open Lib List BitVec

/-! ## Data -/

theorem length_toWords (d : List Byte) : (toWords d).length = (d.length + 3) / 4 := by
  induction d using toWords.induct with
  | case1 | case2 | case3 | case4 => simp [toWords]
  | case5 b c d e bs ih =>
    simp only [toWords, length_cons]
    omega

variable {d : List Byte}

theorem toWords_eq_nil : toWords d = [] ↔ d = [] := by
  rw [← length_eq_zero_iff, length_toWords, ← length_eq_zero_iff]
  omega

theorem wordBytes_cons (b c d e : Byte) (ws : List Nat) :
    wordBytes ((b.toNat + 2 ^ 8 * c.toNat + 2 ^ 16 * d.toNat + 2 ^ 24 * e.toNat) :: ws) =
      b :: c :: d :: e :: wordBytes ws := by
  simp only [wordBytes, flatMap_cons, map_cons, List.cons_append]
  iterate 4
    congr 1
    · exact eq_of_toNat_eq (by rw [toNat_ofNat]; omega)

theorem take_wordBytes (d : List Byte) : (wordBytes (toWords d)).take d.length = d := by
  induction d using toWords.induct with
  | case1 => rfl
  | case2 b => simpa [toWords] using congrArg (List.take 1) (wordBytes_cons b 0 0 0 [])
  | case3 b c => simpa [toWords] using congrArg (List.take 2) (wordBytes_cons b c 0 0 [])
  | case4 b c d => simpa [toWords] using congrArg (List.take 3) (wordBytes_cons b c d 0 [])
  | case5 b c d e bs ih =>
    rw [toWords, wordBytes_cons]
    simp only [length_cons, take_succ_cons, ih]

theorem toWords_inj {d' : List Byte} (hl : d.length = d'.length) (h : toWords d = toWords d') : d = d' := by
  rw [← take_wordBytes d, ← take_wordBytes d', h, hl]

/-! ## Nodes -/

namespace Arc

variable (a : Arc)

theorem addNext_invalid : ∃ start, ∀ n, a.addNext invalid n = a.nodeAddNext start n := by
  have hstay : ∀ (n : Nat) (starts : List Nat) (ni : Nat), ni ≠ invalid →
      starts.foldl (fun ni start => if ni = invalid then a.nodeAddNext start n else ni) ni = ni := by
    intro n starts ni hni
    induction starts with
    | nil => rfl
    | cons s starts ih => rw [foldl_cons, if_neg hni, ih]
  obtain ⟨start, starts, hs⟩ := exists_cons_of_ne_nil a.start_ne
  refine ⟨start, fun n => ?_⟩
  unfold addNext
  rw [if_neg (by simp), hs, foldl_cons, if_pos rfl, hstay _ _ _ (a.addNext_ne _ _)]

theorem addNext_injective (last : Nat) : Function.Injective (a.addNext last) := by
  by_cases h : last = invalid
  · subst h
    obtain ⟨start, hstart⟩ := a.addNext_invalid
    intro n m hnm
    rw [hstart, hstart] at hnm
    exact a.addNext_inj _ hnm
  · intro n m hnm
    unfold addNext at hnm
    rw [if_pos h, if_pos h] at hnm
    exact a.addNext_inj _ hnm

variable {a}

theorem getElem?_of_node {i : Nat} (h : a.node i ≠ invalid) :
    a.nodeIndexByFeatureIndex[i]? = some (a.node i) := by
  unfold node at h ⊢
  cases hi : a.nodeIndexByFeatureIndex[i]? with
  | none => exact absurd (by rw [hi]; rfl) h
  | some n => rfl

theorem node_injective {i j : Nat} (hi : a.node i ≠ invalid) (h : a.node i = a.node j) : i = j :=
  a.node_inj i j _ hi (getElem?_of_node hi) (h ▸ getElem?_of_node (h ▸ hi))

theorem lt_of_node {i : Nat} (h : a.node i ≠ invalid) : i < 2 ^ 31 := by
  obtain ⟨hi, -⟩ := List.getElem?_eq_some_iff.mp (getElem?_of_node h)
  exact Nat.lt_of_lt_of_le hi a.length_le

end Arc

/-! ## Features -/

def Feature.key (f : Feature) : Nat × List Nat := (f.featureIndex, f.featureConfig)

/-- A feature of the arc, with as much data as it is always given. -/
structure Feature.Fits (a : Arc) (size : Nat → Nat) (f : Feature) : Prop where
  nodeIndex : f.nodeIndex = a.node f.featureIndex
  ne : f.nodeIndex ≠ invalid
  data : ∃ d : List Byte, d.length = size f.featureIndex ∧ f.featureConfig = toWords d

/-- The last node, if the one before the features is `last`. -/
def lastNode (last : Nat) (fs : List Feature) : Nat := fs.foldl (fun _ f => f.nodeIndex) last

/-- The second list is the first with one more feature: the end node, without data, which follows another
node. -/
def Longer (last e : Nat) (fs gs : List Feature) : Prop :=
  ∃ g ∈ gs, gs.map Feature.key = fs.map Feature.key ++ [g.key] ∧ g.nodeIndex = e ∧
    g.featureConfig = [] ∧ (lastNode last fs = invalid ∨ lastNode last fs ≠ e)

variable {a : Arc} {size : Nat → Nat} {f g : Feature} {fs gs : List Feature} {last e e' : Nat}

theorem Feature.Fits.index_eq (hf : f.Fits a size) (hg : g.Fits a size)
    (h : f.nodeIndex = g.nodeIndex) : f.featureIndex = g.featureIndex := by
  refine Arc.node_injective (a := a) ?_ ?_
  · rw [← hf.nodeIndex]
    exact hf.ne
  · rw [← hf.nodeIndex, ← hg.nodeIndex, h]

theorem Feature.Fits.length_eq (hf : f.Fits a size) (hg : g.Fits a size)
    (h : f.featureIndex = g.featureIndex) : f.featureConfig.length = g.featureConfig.length := by
  obtain ⟨d, hd, hfd⟩ := hf.data
  obtain ⟨d', hd', hgd⟩ := hg.data
  rw [hfd, hgd, length_toWords, length_toWords, hd, hd', h]

theorem exists_configString_eq (last : Nat) (fs : List Feature) (e : Nat) :
    ∃ ws, a.configString last fs e = ws ++ [e] := by
  induction fs generalizing last with
  | nil =>
    unfold Arc.configString
    split
    · exact ⟨[_], rfl⟩
    · exact ⟨[], rfl⟩
  | cons f fs ih =>
    obtain ⟨ws, hws⟩ := ih f.nodeIndex
    exact ⟨a.addNext last f.nodeIndex :: (f.featureConfig ++ ws), by
      rw [Arc.configString, hws, List.cons_append, List.append_assoc]⟩

theorem endNode_eq (h : a.configString last fs e = a.configString last gs e') : e = e' := by
  obtain ⟨ws, hws⟩ := exists_configString_eq last fs e
  obtain ⟨vs, hvs⟩ := exists_configString_eq last gs e'
  rw [hws, hvs] at h
  exact head_eq_of_cons_eq (append_inj_right' h rfl)

theorem configString_ne_nil : a.configString last fs e ≠ [] := by
  obtain ⟨ws, hws⟩ := exists_configString_eq (a := a) last fs e
  simp [hws]

theorem eq_nil_of_configString (h : a.configString last fs e = [e']) : fs = [] := by
  cases fs with
  | nil => rfl
  | cons f fs =>
    have := (append_eq_nil_iff.mp (tail_eq_of_cons_eq h)).2
    exact absurd this configString_ne_nil

theorem longer_of_nil (h : a.configString last [] e = a.configString last (g :: gs) e) :
    Longer last e [] (g :: gs) := by
  have hshort : a.configString last (g :: gs) e = [e] → g :: gs = [] := eq_nil_of_configString
  rw [← h] at hshort
  unfold Arc.configString at h hshort
  split at h
  · rename_i hlast
    obtain ⟨hslot, hrest⟩ := List.cons.inj h
    have hnode := a.addNext_injective last hslot
    have hdata : g.featureConfig = [] := by
      rcases append_eq_singleton_iff.mp hrest.symm with ⟨hd, -⟩ | ⟨-, hs⟩
      · exact hd
      · exact absurd hs configString_ne_nil
    rw [hdata] at hrest
    rw [eq_nil_of_configString hrest.symm]
    exact ⟨g, mem_cons_self, rfl, hnode.symm, hdata, hlast⟩
  · rename_i hlast
    rw [if_neg hlast] at hshort
    exact nomatch hshort rfl

/-- **What a string says.** -/
theorem configString_inj (hfs : ∀ f ∈ fs, f.Fits a size) (hgs : ∀ g ∈ gs, g.Fits a size)
    (h : a.configString last fs e = a.configString last gs e) :
    fs.map Feature.key = gs.map Feature.key ∨ Longer last e fs gs ∨ Longer last e gs fs := by
  induction fs generalizing last gs with
  | nil =>
    cases gs with
    | nil => exact .inl rfl
    | cons g gs => exact .inr (.inl (longer_of_nil h))
  | cons f fs ih =>
    cases gs with
    | nil => exact .inr (.inr (longer_of_nil h.symm))
    | cons g gs =>
      rw [forall_mem_cons] at hfs hgs
      obtain ⟨hslot, hrest⟩ := List.cons.inj h
      have hnode := a.addNext_injective last hslot
      have hidx := hfs.1.index_eq hgs.1 hnode
      obtain ⟨hdata, htail⟩ := append_inj hrest (hfs.1.length_eq hgs.1 hidx)
      have hkey : f.key = g.key := by rw [Feature.key, Feature.key, hidx, hdata]
      rw [hnode] at htail
      rcases ih hfs.2 hgs.2 htail with heq | ⟨k, hk, heq, hrest⟩ | ⟨k, hk, heq, hrest⟩
      · exact .inl (by rw [map_cons, map_cons, hkey, heq])
      · refine .inr (.inl ⟨k, mem_cons_of_mem _ hk, ?_, hrest.1, hrest.2.1, ?_⟩)
        · rw [map_cons, map_cons, hkey, heq, List.cons_append]
        · rw [lastNode, foldl_cons, hnode]
          exact hrest.2.2
      · refine .inr (.inr ⟨k, mem_cons_of_mem _ hk, ?_, hrest.1, hrest.2.1, ?_⟩)
        · rw [map_cons, map_cons, hkey, heq, List.cons_append]
        · exact hrest.2.2

theorem map_key_connect : (a.connect last fs).map Feature.key = fs.map Feature.key := by
  induction fs generalizing last with
  | nil => rfl
  | cons f fs ih =>
    rw [Arc.connect, map_cons, ih]
    rfl

/-- The next indices and data of the features, and the end node with its next index unless the last
feature is there already. -/
def spelled (a : Arc) (fs : List Feature) (e : Nat) : List Nat :=
  (fs.flatMap fun f => f.nextIndex :: f.featureConfig) ++
    if lastNode invalid fs = invalid ∨ lastNode invalid fs ≠ e then
      [a.addNext (lastNode invalid fs) e, e]
    else [e]

theorem configString_connect :
    a.configString last fs e = ((a.connect last fs).flatMap fun f => f.nextIndex :: f.featureConfig) ++
      if lastNode last fs = invalid ∨ lastNode last fs ≠ e then [a.addNext (lastNode last fs) e, e]
      else [e] := by
  induction fs generalizing last with
  | nil => rfl
  | cons f fs ih =>
    rw [Arc.configString, ih, Arc.connect, flatMap_cons, List.append_assoc]
    rfl

theorem lastNode_connect (last : Nat) : lastNode last (a.connect last fs) = lastNode last fs := by
  induction fs generalizing last with
  | nil => rfl
  | cons f fs ih =>
    exact ih f.nodeIndex

theorem configString_eq_spelled (h : fs = a.connect invalid fs) (e : Nat) :
    a.configString invalid fs e = spelled a fs e := by
  rw [configString_connect, ← h]
  rfl

theorem connect_connect : a.connect last (a.connect last fs) = a.connect last fs := by
  induction fs generalizing last with
  | nil => rfl
  | cons f fs ih => simp only [Arc.connect, ih]

theorem configString_connected : a.configString last (a.connect last fs) e = a.configString last fs e := by
  rw [configString_connect, connect_connect, lastNode_connect,
    ← configString_connect]

theorem fits_connect (h : ∀ f ∈ fs, f.Fits a size) (last : Nat) :
    ∀ f ∈ a.connect last fs, f.Fits a size := by
  induction fs generalizing last with
  | nil => exact h
  | cons f fs ih =>
    rw [forall_mem_cons] at h
    rw [Arc.connect, forall_mem_cons]
    exact ⟨⟨h.1.nodeIndex, h.1.ne, h.1.data⟩, ih h.2 _⟩

theorem sorted_connect (h : fs.Pairwise fun f g => f.featureIndex ≤ g.featureIndex) :
    (a.connect last fs).Pairwise fun f g => f.featureIndex ≤ g.featureIndex := by
  have hkeys : ((a.connect last fs).map Feature.key).Pairwise fun p q => p.1 ≤ q.1 := by
    rw [map_key_connect]
    exact pairwise_map.mpr h
  rw [pairwise_map] at hkeys
  exact hkeys

end Vpp.Vnet
