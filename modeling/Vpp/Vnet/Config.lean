import Vpp.Lib.Heap
import Vpp.Lib.Pool
import Vpp.Lib.Run

/-!
# Feature configurations

The users of a feature arc hold configurations: a list of features, each with some data, and an end
node. A configuration is written as a flat string of words that the nodes of the arc read, users with
the same string share it, and it is freed with its last reference.
-/

namespace Vpp.Vnet

open Lib

abbrev Byte := BitVec 8

/-- `~0` -/
def invalid : Nat := 2 ^ 32 - 1

structure Feature where
  featureIndex : Nat
  nodeIndex : Nat
  nextIndex : Nat
  /-- words -/
  featureConfig : List Nat
deriving DecidableEq, Repr

/-- `(int) f1->feature_index - f2->feature_index` -/
def featureCmp (f1 f2 : Feature) : Int :=
  (BitVec.ofNat 32 f1.featureIndex - BitVec.ofNat 32 f2.featureIndex).toInt

/-- What is fixed for an arc. The features are different nodes; one that is not loaded is `~0`. The next nodes
have different slots, which they keep. -/
structure Arc where
  startNodeIndices : List Nat
  nodeIndexByFeatureIndex : List Nat
  defaultEndNodeIndex : Nat
  /-- `vlib_node_add_next` -/
  nodeAddNext : Nat → Nat → Nat
  /-- `qsort` by `feature_cmp` -/
  sort : List Feature → List Feature
  start_ne : startNodeIndices ≠ []
  node_inj : ∀ i j n : Nat, n ≠ invalid → nodeIndexByFeatureIndex[i]? = some n →
    nodeIndexByFeatureIndex[j]? = some n → i = j
  length_le : nodeIndexByFeatureIndex.length ≤ 2 ^ 31
  addNext_inj : ∀ n, Function.Injective (nodeAddNext n)
  addNext_ne : ∀ n m, nodeAddNext n m ≠ invalid
  sort_perm : ∀ fs, (sort fs).Perm fs
  sort_sorted : ∀ fs, (∀ f ∈ fs, f.featureIndex < 2 ^ 31) →
    (sort fs).Pairwise fun f g => featureCmp f g ≤ 0

namespace Arc

variable (a : Arc)

/-- The node of a feature; an index past the end is not used. -/
def node (i : Nat) : Nat := a.nodeIndexByFeatureIndex[i]?.getD invalid

def addNext (lastNodeIndex thisNodeIndex : Nat) : Nat :=
  if lastNodeIndex ≠ invalid then a.nodeAddNext lastNodeIndex thisNodeIndex
  else
    a.startNodeIndices.foldl
      (fun ni start => if ni = invalid then a.nodeAddNext start thisNodeIndex else ni) invalid

def connect : Nat → List Feature → List Feature
  | _, [] => []
  | last, f :: fs => { f with nextIndex := a.addNext last f.nodeIndex } :: connect f.nodeIndex fs

/-- The words of a configuration, after node `last`. -/
def configString : Nat → List Feature → Nat → List Nat
  | last, [], endNodeIndex =>
    if last = invalid ∨ last ≠ endNodeIndex then [a.addNext last endNodeIndex, endNodeIndex]
    else [endNodeIndex]
  | last, f :: fs, endNodeIndex =>
    a.addNext last f.nodeIndex :: (f.featureConfig ++ configString f.nodeIndex fs endNodeIndex)

end Arc

structure Config where
  features : List Feature
  configStringVector : List Nat
  configStringHeapIndex : Nat
  referenceCount : Nat
deriving DecidableEq, Repr

structure ConfigMain where
  configPool : Pool Config
  configStringHash : List Nat → Option Nat
  configStringHeap : Heap Nat
  endNodeIndicesByUserIndex : Nat → Nat

/-- `vnet_config_init` -/
def vnetConfigInit (a : Arc) : ConfigMain where
  configPool := Pool.empty
  configStringHash _ := none
  configStringHeap := ⟨fun _ => 0, []⟩
  endNodeIndicesByUserIndex _ := a.defaultEndNodeIndex

/-- The pool index of the configuration with these features, which is made if there is none. `hint` is
where the heap puts it. -/
def findConfigWithFeatures (a : Arc) (cm : ConfigMain) (hint : Nat) (featureVector : List Feature)
    (endNodeIndex : Nat) : ConfigMain × Nat :=
  let configString := a.configString invalid featureVector endNodeIndex
  match cm.configStringHash configString with
  | some i => (cm, i)
  | none =>
    let i := cm.configPool.next
    let heapIndex := cm.configStringHeap.place (configString.length + 1) hint
    ({ configPool := cm.configPool.get ⟨a.connect invalid featureVector, configString, heapIndex, 0⟩
       configStringHash := Function.update cm.configStringHash configString (some i)
       configStringHeap := cm.configStringHeap.alloc (i :: configString) hint
       endNodeIndicesByUserIndex :=
         Function.update cm.endNodeIndicesByUserIndex (heapIndex + 1) endNodeIndex }, i)

def removeReference (cm : ConfigMain) (i : Nat) : ConfigMain :=
  match cm.configPool.elts i with
  | none => cm
  | some c =>
    if c.referenceCount - 1 = 0 then
      { cm with
        configPool := cm.configPool.put i
        configStringHash := Function.update cm.configStringHash c.configStringVector none
        configStringHeap := cm.configStringHeap.dealloc c.configStringHeapIndex }
    else
      { cm with configPool := cm.configPool.set i { c with referenceCount := c.referenceCount - 1 } }

/-- `new->reference_count += 1`; the user gets the index of the string's first word. -/
def addReference (cm : ConfigMain) (i : Nat) : ConfigMain × Option Nat :=
  match cm.configPool.elts i with
  | none => (cm, none)
  | some c =>
    ({ cm with configPool := cm.configPool.set i { c with referenceCount := c.referenceCount + 1 } },
      some (c.configStringHeapIndex + 1))

/-- `p[-1]` -/
def poolIndex (cm : ConfigMain) (ci : Nat) : Nat := cm.configStringHeap.mem (ci - 1)

def oldFeatures (cm : ConfigMain) (ci : Option Nat) : List Feature :=
  match ci with
  | none => []
  | some ci => ((cm.configPool.elts (poolIndex cm ci)).map (·.features)).getD []

/-- What the three changes end with: the old reference is dropped before the new configuration is looked
up. -/
def replaceConfig (a : Arc) (cm : ConfigMain) (hint : Nat) (ci : Option Nat)
    (newFeatures : List Feature) (endNodeIndex : Nat) : ConfigMain × Option Nat :=
  let cm := match ci with
    | none => cm
    | some ci => removeReference cm (poolIndex cm ci)
  let (cm, i) := findConfigWithFeatures a cm hint newFeatures endNodeIndex
  addReference cm i

/-- The words that bytes are copied to; what is left of the last one is zero. -/
def toWords : List Byte → List Nat
  | [] => []
  | [b] => [b.toNat]
  | [b, c] => [b.toNat + 2 ^ 8 * c.toNat]
  | [b, c, d] => [b.toNat + 2 ^ 8 * c.toNat + 2 ^ 16 * d.toNat]
  | b :: c :: d :: e :: bs =>
    (b.toNat + 2 ^ 8 * c.toNat + 2 ^ 16 * d.toNat + 2 ^ 24 * e.toNat) :: toWords bs

def wordBytes (ws : List Nat) : List Byte :=
  ws.flatMap fun w => [w, w / 2 ^ 8, w / 2 ^ 16, w / 2 ^ 24].map (BitVec.ofNat 8)

/-- The end node of a user's new configuration; `ci` is its index before. -/
def oldEndNode (a : Arc) (cm : ConfigMain) (ci : Option Nat) : Nat :=
  match ci with
  | none => a.defaultEndNodeIndex
  | some ci => cm.endNodeIndicesByUserIndex ci

def sortFeatures (a : Arc) (features : List Feature) : List Feature :=
  if 1 < features.length then a.sort features else features

/-- `~0`, here `none`, if the node does not exist. -/
def vnetConfigAddFeature (a : Arc) (cm : ConfigMain) (hint : Nat) (ci : Option Nat)
    (featureIndex : Nat) (featureConfig : List Byte) : ConfigMain × Option Nat :=
  if a.node featureIndex = invalid then (cm, none)
  else
    let newFeatures := oldFeatures cm ci ++
      [⟨featureIndex, a.node featureIndex, 0, toWords featureConfig⟩]
    replaceConfig a cm hint ci (sortFeatures a newFeatures) (oldEndNode a cm ci)

def sameFeature (featureIndex : Nat) (featureConfig : List Byte) (f : Feature) : Bool :=
  let nFeatureConfigU32s := (featureConfig.length + 3) / 4
  f.featureIndex == featureIndex && f.featureConfig.length == nFeatureConfigU32s &&
    (nFeatureConfigU32s == 0 ||
      (wordBytes f.featureConfig).take featureConfig.length == featureConfig)

def vnetConfigDelFeature (a : Arc) (cm : ConfigMain) (hint ci featureIndex : Nat)
    (featureConfig : List Byte) : ConfigMain × Option Nat :=
  let old := oldFeatures cm (some ci)
  if old.any (sameFeature featureIndex featureConfig) then
    replaceConfig a cm hint (some ci)
      (old.eraseP (sameFeature featureIndex featureConfig)) (oldEndNode a cm (some ci))
  else (cm, none)

/-- `vec_free (new_features->feature_config); vec_set_len (new_features, last);`: it is the first
feature that loses its data. -/
def dropLastFeature : List Feature → List Feature
  | [] => []
  | f :: fs => ({ f with featureConfig := [] } :: fs).dropLast

def withoutEndNode (a : Arc) (features : List Feature) : List Feature :=
  match features.getLast? with
  | none => features
  | some last =>
    if last.nodeIndex = a.defaultEndNodeIndex then dropLastFeature features else features

def vnetConfigModifyEndNode (a : Arc) (cm : ConfigMain) (hint : Nat) (ci : Option Nat)
    (endNodeIndex : Nat) : ConfigMain × Option Nat :=
  if endNodeIndex = invalid then (cm, none)
  else replaceConfig a cm hint ci (withoutEndNode a (oldFeatures cm ci)) endNodeIndex

def vnetConfigDel (cm : ConfigMain) (ci : Nat) : ConfigMain := removeReference cm (poolIndex cm ci)

/-! ## The users of an arc -/

/-- A call by user `u`. -/
inductive Op (U : Type)
  | addFeature (u : U) (featureIndex : Nat) (featureConfig : List Byte) (hint : Nat)
  | delFeature (u : U) (featureIndex : Nat) (featureConfig : List Byte) (hint : Nat)
  | modifyEndNode (u : U) (endNodeIndex : Nat) (hint : Nat)
  | del (u : U)

variable {U : Type}

def Op.user : Op U → U
  | .addFeature u .. | .delFeature u .. | .modifyEndNode u .. | .del u => u

/-- The configuration main with the index after the call, from the one before. A call that returns `~0` leaves
the user as it was. -/
def Op.call (a : Arc) (cm : ConfigMain) (ci : Option Nat) : Op U → ConfigMain × Option Nat
  | .addFeature _ i d hint =>
    let (cm, r) := vnetConfigAddFeature a cm hint ci i d
    (cm, r <|> ci)
  | .delFeature _ i d hint =>
    match ci with
    | none => (cm, none)
    | some ci =>
      let (cm, r) := vnetConfigDelFeature a cm hint ci i d
      (cm, r <|> some ci)
  | .modifyEndNode _ e hint =>
    let (cm, r) := vnetConfigModifyEndNode a cm hint ci e
    (cm, r <|> ci)
  | .del _ =>
    match ci with
    | none => (cm, none)
    | some ci => (vnetConfigDel cm ci, none)

/-- The features a user added and did not delete, in the order they were added, and its end node. -/
structure Wanted where
  features : List (Nat × List Byte)
  endNode : Nat
deriving DecidableEq, Repr

def Op.want (a : Arc) (w : Option Wanted) : Op U → Option Wanted
  | .addFeature _ i d _ =>
    if a.node i = invalid then w
    else
      let w := w.getD ⟨[], a.defaultEndNodeIndex⟩
      some { w with features := w.features ++ [(i, d)] }
  | .delFeature _ i d _ => w.map fun w => { w with features := w.features.erase (i, d) }
  | .modifyEndNode _ e _ =>
    if e = invalid then w else some ⟨(w.map (·.features)).getD [], e⟩
  | .del _ => none

/-- The configurations, the index each user has, and what it wants. -/
structure Users (U : Type) where
  main : ConfigMain
  held : U → Option Nat
  want : U → Option Wanted

def Users.init (a : Arc) : Users U := ⟨vnetConfigInit a, fun _ => none, fun _ => none⟩

variable [DecidableEq U]

def Users.step (a : Arc) (s : Users U) (op : Op U) : Users U × Unit :=
  let (main, ci) := op.call a s.main (s.held op.user)
  (⟨main, Function.update s.held op.user ci,
    Function.update s.want op.user (op.want a (s.want op.user))⟩, ())

end Vpp.Vnet
