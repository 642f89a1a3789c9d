import Mathlib.Data.List.TakeWhile
import Vpp.Lib.Closure

/-!
# Ordering features and init functions

`vnet_feature_arc_init` and `vlib_sort_init_exit_functions` collect "a before b" constraints from the
registrations, as strings `a,b`, split them again and set them in a matrix by the indices of the names.
The matrix is closed and peeled, and the result, reversed, is the order. The two functions differ in
where constraints come from and in what they do with the order.
-/

namespace Vpp.Feature

open Lib Relation List

abbrev Name := List Char

/-! ## What the two functions share -/

/-- `format (0, "%s,%s%c", a, b, 0)` -/
def constraintTuple (a b : Name) : Name := a ++ ',' :: b

/-- Cuts at the first comma; `none` if there is none. -/
def commaSplit (s : Name) : Option (Name × Name) :=
  match s.dropWhile (· != ',') with
  | [] => none
  | _ :: b => some (s.takeWhile (· != ','), b)

/-- The hash from a name to its index: a name that comes twice has the later index. -/
def indexByName (names : List Name) (name : Name) : Option Nat :=
  (List.range names.length).reverse.find? fun i => decide (names[i]? = some name)

def ownConstraints (name : Name) (runsBefore runsAfter : List Name) : List Name :=
  (runsBefore.map fun c => constraintTuple name c) ++ runsAfter.map fun c => constraintTuple c name

/-- "a then b then c": a constraint for each two neighbours, unknown names left out. -/
def bulkConstraints (names : List Name) : Option Name → List Name → List Name
  | _, [] => []
  | prevName, c :: cs =>
    match indexByName names c, prevName with
    | none, _ => bulkConstraints names prevName cs
    | some _, none => bulkConstraints names (some c) cs
    | some _, some p => constraintTuple p c :: bulkConstraints names (some c) cs

/-- `orig[a_index][b_index] = 1`, unless one of the names is unknown. -/
def addConstraint (names : List Name) (orig : Nat → Nat → Bool) (this : Name) :
    Except String (Nat → Nat → Bool) :=
  match commaSplit this with
  | none => .error "comma_split failed!"
  | some (aName, bName) =>
    match indexByName names aName, indexByName names bName with
    | some aIndex, some bIndex => .ok fun i j => if i = aIndex ∧ j = bIndex then true else orig i j
    | _, _ => .ok orig

def clibPtclosure (n : Nat) (orig : Nat → Nat → Bool) : Nat → Nat → Bool := warshall n orig

/-- The items in the order they are output, `none` if the loop would not end. -/
def partialOrder (names constraints : List Name) : Option (Except String (List Nat)) :=
  match constraints.foldlM (addConstraint names) fun _ _ => false with
  | .error e => some (.error e)
  | .ok orig =>
    let closure := clibPtclosure names.length orig
    (peel names.length (names.length + 1) closure []).map .ok

/-! ## Feature arcs -/

structure FeatureRegistration where
  arcName : Name
  nodeName : Name
  runsBefore : List Name
  runsAfter : List Name
deriving DecidableEq, Repr

/-- `clib_strcmp (s1, s2) != 0`: a first string of over 4096 characters equals everything. -/
def clibStrcmp (s1 s2 : Name) : Bool := decide (s1.length ≤ 4096) && s1 != s2

def lastInArcConstraints (lastInArc : Option Name) (regs : List FeatureRegistration) : List Name :=
  match lastInArc with
  | none => []
  | some last =>
    (regs.filter fun r => clibStrcmp r.nodeName last).map fun r => constraintTuple r.nodeName last

def featureConstraints (lastInArc : Option Name) (regs : List FeatureRegistration)
    (constSets : List (List Name)) : List Name :=
  lastInArcConstraints lastInArc regs ++
    (regs.flatMap fun r => ownConstraints r.nodeName r.runsBefore r.runsAfter) ++
    constSets.flatMap fun s => bulkConstraints (regs.map (·.nodeName)) none s

def noFeatureOrder (regs : List FeatureRegistration) : String :=
  "Arc '" ++ String.ofList ((regs.head?.map (·.arcName)).getD []) ++
    "': failed to find a suitable feature order!"

/-- The registrations in the order of `feature_nodes`, each with its `feature_index`. -/
def vnetFeatureArcInit (lastInArc : Option Name) (regs : List FeatureRegistration)
    (constSets : List (List Name)) : Option (Except String (List (FeatureRegistration × Nat))) :=
  (partialOrder (regs.map (·.nodeName)) (featureConstraints lastInArc regs constSets)).map fun r => do
    let result ← r
    let n := regs.length
    if result.length ≠ n then .error (noFeatureOrder regs)
    else
      .ok ((List.range n).reverse.filterMap fun i =>
        (result[i]?.bind fun k => regs[k]?).map fun reg => (reg, n - (i + 1)))

/-! ## Init and exit functions -/

structure InitFunction where
  name : Name
  runsBefore : List Name
  runsAfter : List Name
  initOrder : List Name
deriving DecidableEq, Repr

def initConstraints (fns : List InitFunction) : List Name :=
  (fns.flatMap fun f => ownConstraints f.name f.runsBefore f.runsAfter) ++
    fns.flatMap fun f => bulkConstraints (fns.map (·.name)) none f.initOrder

def noInitOrder : String := "Failed to find a suitable init function order!"

/-- The list as relinked from `head`: each item of the result is put in front. -/
def vlibSortInitExitFunctions (head : List InitFunction) : Option (Except String (List InitFunction)) :=
  (partialOrder (head.map (·.name)) (initConstraints head)).map fun r => do
    let result ← r
    if result.length ≠ head.length then .error noInitOrder
    else
      .ok (result.foldl (fun list k => match head[k]? with
        | some f => f :: list
        | none => list) [])

/-! ## Names and tuples -/

variable {constraints : List Name} {orig : Nat → Nat → Bool} {result : List Nat} {α : Type}

section Order

variable {names : List Name} {a b c d : Name} {i j : Nat}

theorem commaSplit_constraintTuple (ha : ',' ∉ a) (b : Name) :
    commaSplit (constraintTuple a b) = some (a, b) := by
  have hne : ∀ x ∈ a, (x != ',') = true := by
    intro x hx
    rw [bne_iff_ne]
    rintro rfl
    exact ha hx
  rw [commaSplit, constraintTuple, dropWhile_append_of_pos hne, takeWhile_append_of_pos hne]
  simp

theorem eq_constraintTuple_of_commaSplit {s : Name} (h : commaSplit s = some (a, b)) :
    s = constraintTuple a b := by
  unfold commaSplit at h
  split at h
  · cases h
  rename_i x rest heq
  obtain ⟨rfl, rfl⟩ := Prod.mk.inj (Option.some.inj h)
  have hx : x = ',' := by
    have := head?_dropWhile_not (fun y => y != ',') s
    rw [heq] at this
    simpa using this
  subst hx
  rw [constraintTuple, ← heq, takeWhile_append_dropWhile]

theorem exists_commaSplit : ∃ p, commaSplit (constraintTuple a b) = some p := by
  unfold commaSplit
  split
  · rename_i h
    rw [dropWhile_eq_nil_iff] at h
    exact absurd (h ',' (by simp [constraintTuple])) (by simp)
  · exact ⟨_, rfl⟩

theorem constraintTuple_inj (ha : ',' ∉ a) (hb : ',' ∉ b)
    (h : constraintTuple c d = constraintTuple a b) : c = a ∧ d = b := by
  have hcount := congrArg (List.count ',') h
  simp only [constraintTuple, count_append, count_cons_self, count_eq_zero_of_not_mem ha,
    count_eq_zero_of_not_mem hb] at hcount
  have hc : ',' ∉ c := count_eq_zero.mp (by omega)
  have hsplit := commaSplit_constraintTuple hc d
  rw [h, commaSplit_constraintTuple ha b] at hsplit
  obtain ⟨rfl, rfl⟩ := Prod.mk.inj (Option.some.inj hsplit)
  exact ⟨rfl, rfl⟩

theorem indexByName_eq_some (hnd : names.Nodup) : indexByName names a = some i ↔ names[i]? = some a := by
  constructor
  · intro h
    simpa using find?_some h
  intro h
  have hi : i < names.length := (List.getElem?_eq_some_iff.mp h).1
  cases hf : indexByName names a with
  | none =>
    have := find?_eq_none.mp hf i (by simpa using hi)
    simp [h] at this
  | some k =>
    have hk : names[k]? = some a := by simpa using find?_some hf
    rw [(getElem?_inj hi hnd).mp (h.trans hk.symm)]

theorem indexByName_eq_none : indexByName names a = none ↔ a ∉ names := by
  rw [indexByName, find?_eq_none, mem_iff_getElem?]
  simp only [mem_reverse, mem_range, decide_eq_true_eq]
  constructor
  · rintro h ⟨i, hi⟩
    exact h i (List.getElem?_eq_some_iff.mp hi).1 hi
  · intro h i _ hi
    exact h ⟨i, hi⟩

/-! ## The matrix of constraints -/

def Given (names constraints : List Name) (a b : Name) : Prop :=
  constraintTuple a b ∈ constraints ∧ a ∈ names ∧ b ∈ names

theorem addConstraint_eq (hnd : names.Nodup) (hcomma : ∀ x ∈ names, ',' ∉ x) :
    ∃ orig', addConstraint names orig (constraintTuple a b) = .ok orig' ∧
      ∀ i j, orig' i j = true ↔
        orig i j = true ∨ names[i]? = some a ∧ names[j]? = some b := by
  obtain ⟨⟨a', b'⟩, hs⟩ := exists_commaSplit
  have htuple := eq_constraintTuple_of_commaSplit hs
  -- a mention with a comma in it is cut elsewhere, and what is behind the cut is no name of the list
  have hnames : ∀ i j : Nat, names[i]? = some a' ∧ names[j]? = some b' ↔
      names[i]? = some a ∧ names[j]? = some b := by
    intro i j
    constructor
    · rintro ⟨hi, hj⟩
      obtain ⟨rfl, rfl⟩ := constraintTuple_inj (hcomma _ (mem_of_getElem? hi))
        (hcomma _ (mem_of_getElem? hj)) htuple
      exact ⟨hi, hj⟩
    · rintro ⟨hi, hj⟩
      obtain ⟨rfl, rfl⟩ := constraintTuple_inj (hcomma _ (mem_of_getElem? hi))
        (hcomma _ (mem_of_getElem? hj)) htuple.symm
      exact ⟨hi, hj⟩
  rw [addConstraint, hs]
  dsimp only
  split
  · rename_i ai bi ha hb
    rw [indexByName_eq_some hnd] at ha hb
    refine ⟨_, rfl, fun i j => ?_⟩
    have hij : i = ai ∧ j = bi ↔ names[i]? = some a ∧ names[j]? = some b := by
      rw [← hnames]
      constructor
      · rintro ⟨rfl, rfl⟩
        exact ⟨ha, hb⟩
      · rintro ⟨hi, hj⟩
        exact ⟨(getElem?_inj (List.getElem?_eq_some_iff.mp hi).1 hnd).mp (hi.trans ha.symm),
          (getElem?_inj (List.getElem?_eq_some_iff.mp hj).1 hnd).mp (hj.trans hb.symm)⟩
    rw [← hij]
    by_cases h : i = ai ∧ j = bi
    · simp [h]
    · simp [h]
  · rename_i hno
    refine ⟨_, rfl, fun i j => ⟨.inl, fun h => h.resolve_right fun hij => ?_⟩⟩
    rw [← hnames, ← indexByName_eq_some hnd, ← indexByName_eq_some hnd] at hij
    exact hno i j hij.1 hij.2

theorem foldlM_addConstraint (hnd : names.Nodup) (hcomma : ∀ x ∈ names, ',' ∉ x)
    (htuples : ∀ t ∈ constraints, ∃ a b, t = constraintTuple a b) (orig : Nat → Nat → Bool) :
    ∃ orig', constraints.foldlM (addConstraint names) orig = .ok orig' ∧
      ∀ i j, orig' i j = true ↔ orig i j = true ∨
        ∃ a b, constraintTuple a b ∈ constraints ∧ names[i]? = some a ∧ names[j]? = some b := by
  induction constraints generalizing orig with
  | nil => exact ⟨orig, rfl, fun i j => by simp⟩
  | cons t ts ih =>
    obtain ⟨a, b, rfl⟩ := htuples t mem_cons_self
    obtain ⟨orig1, h1, hset1⟩ := addConstraint_eq hnd hcomma
    obtain ⟨orig2, h2, hset2⟩ := ih (fun t ht => htuples t (mem_cons_of_mem _ ht)) orig1
    refine ⟨orig2, ?_, fun i j => ?_⟩
    · rw [foldlM_cons, h1]
      exact h2
    rw [hset2, hset1, or_assoc]
    refine or_congr_right ?_
    constructor
    · rintro (⟨ha, hb⟩ | ⟨c, d, hmem, hc, hd⟩)
      · exact ⟨a, b, mem_cons_self, ha, hb⟩
      · exact ⟨c, d, mem_cons_of_mem _ hmem, hc, hd⟩
    rintro ⟨c, d, hmem, hc, hd⟩
    rcases mem_cons.mp hmem with heq | hmem
    · obtain ⟨rfl, rfl⟩ := constraintTuple_inj (hcomma _ (mem_of_getElem? hc))
        (hcomma _ (mem_of_getElem? hd)) heq.symm
      exact .inl ⟨hc, hd⟩
    · exact .inr ⟨c, d, hmem, hc, hd⟩

/-! ## The order -/

def Acyclic (before : Name → Name → Prop) : Prop := ∀ a, ¬ TransGen before a a

/-- `order` has each name of `names` once, and what is before something comes before it. -/
structure Ordered (before : Name → Name → Prop) (names order : List Name) : Prop where
  perm : order.Perm names
  before : ∀ a b, before a b → List.Sublist [a, b] order

theorem filterMap_getElem?_range (l : List α) : ((List.range l.length).filterMap fun k => l[k]?) = l := by
  induction l using List.reverseRecOn with
  | nil => rfl
  | append_singleton l x ih =>
    rw [length_append, length_singleton, range_succ, filterMap_append]
    congr 1
    · refine (filterMap_congr fun k hk => ?_).trans ih
      exact getElem?_append_left (mem_range.mp hk)
    · simp

variable {m : Nat → Nat → Bool} {before : Name → Name → Prop} {t : Name}

section

variable (hm : ∀ i j, m i j = true ↔ ∃ a b, before a b ∧ names[i]? = some a ∧ names[j]? = some b)
include hm

theorem transGen_names (h : TransGen (fun i j => m i j = true) i j) :
    ∃ a b, TransGen before a b ∧ names[i]? = some a ∧ names[j]? = some b := by
  induction h with
  | single h =>
    obtain ⟨a, b, hab, ha, hb⟩ := (hm _ _).mp h
    exact ⟨a, b, .single hab, ha, hb⟩
  | tail _ h ih =>
    obtain ⟨a, b, hab, ha, hb⟩ := ih
    obtain ⟨b', c, hbc, hb', hc⟩ := (hm _ _).mp h
    obtain rfl := Option.some.inj (hb.symm.trans hb')
    exact ⟨a, c, hab.tail hbc, ha, hc⟩

theorem transGen_indices
    (hknown : ∀ a b, before a b → a ∈ names ∧ b ∈ names) (h : TransGen before a b)
    (ha : names[i]? = some a) (hb : names[j]? = some b) : TransGen (fun i j => m i j = true) i j := by
  induction h generalizing j with
  | single h => exact .single ((hm _ _).mpr ⟨_, _, h, ha, hb⟩)
  | tail _ h ih =>
    obtain ⟨k, hk⟩ := mem_iff_getElem?.mp (hknown _ _ h).1
    exact (ih hk).tail ((hm _ _).mpr ⟨_, _, h, hk, hb⟩)

end

/-- What the two functions share: a full result exactly if the given order is acyclic, then with its reverse
in order. -/
theorem partialOrder_spec (hnd : names.Nodup) (hcomma : ∀ x ∈ names, ',' ∉ x)
    (htuples : ∀ t ∈ constraints, ∃ a b, t = constraintTuple a b) :
    ∃ result, partialOrder names constraints = some (.ok result) ∧
      (result.length = names.length ↔ Acyclic (Given names constraints)) ∧
      (result.length = names.length → result.Perm (List.range names.length) ∧
        Ordered (Given names constraints) names (result.reverse.filterMap fun k => names[k]?)) := by
  obtain ⟨orig, horig, hset⟩ := foldlM_addConstraint hnd hcomma htuples fun _ _ => false
  have hm : ∀ i j, orig i j = true ↔
      ∃ a b, Given names constraints a b ∧ names[i]? = some a ∧ names[j]? = some b := by
    intro i j
    rw [hset]
    constructor
    · rintro (h | ⟨a, b, hmem, ha, hb⟩)
      · cases h
      · exact ⟨a, b, ⟨hmem, mem_of_getElem? ha, mem_of_getElem? hb⟩, ha, hb⟩
    · rintro ⟨a, b, ⟨hmem, -, -⟩, ha, hb⟩
      exact .inr ⟨a, b, hmem, ha, hb⟩
  have hlt : ∀ i j, orig i j = true → j < names.length := by
    intro i j h
    obtain ⟨a, b, -, -, hb⟩ := (hm i j).mp h
    exact (List.getElem?_eq_some_iff.mp hb).1
  have hclosure : ∀ i j, clibPtclosure names.length orig i j = true ↔
      TransGen (fun i j => orig i j = true) i j := fun i j => warshall_iff hlt
  have hknown : ∀ a b, Given names constraints a b → a ∈ names ∧ b ∈ names := fun _ _ h => h.2
  obtain ⟨result, hpeel, hp, hfull⟩ := peel_spec
    (C := clibPtclosure names.length orig) (fun i j k hij hjk => by
      rw [hclosure] at hij hjk ⊢
      exact hij.trans hjk)
  refine ⟨result, ?_, ?_, fun hlen => ⟨hp.perm hlen, ?_, ?_⟩⟩
  · rw [partialOrder, horig]
    dsimp only
    rw [hpeel]
    rfl
  · rw [hfull]
    constructor
    · intro h a hcyc
      have hmem : a ∈ names := by
        obtain ⟨c, hc, -⟩ := TransGen.head'_iff.mp hcyc
        exact hc.2.1
      obtain ⟨i, hi⟩ := mem_iff_getElem?.mp hmem
      have := (hclosure i i).mpr (transGen_indices hm hknown hcyc hi hi)
      rw [h i (List.getElem?_eq_some_iff.mp hi).1] at this
      cases this
    · intro h i _
      rw [← Bool.not_eq_true, hclosure]
      intro hcyc
      obtain ⟨a, b, hab, ha, hb⟩ := transGen_names hm hcyc
      obtain rfl := Option.some.inj (ha.symm.trans hb)
      exact h a hab
  · have := ((reverse_perm result).trans (hp.perm hlen)).filterMap fun k => names[k]?
    rwa [filterMap_getElem?_range] at this
  · intro a b hab
    obtain ⟨i, hi⟩ := mem_iff_getElem?.mp (hknown a b hab).1
    obtain ⟨j, hj⟩ := mem_iff_getElem?.mp (hknown a b hab).2
    have hC : clibPtclosure names.length orig i j = true :=
      (hclosure i j).mpr (.single ((hm i j).mpr ⟨a, b, hab, hi, hj⟩))
    have hmem : i ∈ result :=
      (hp.perm hlen).mem_iff.mpr (mem_range.mpr (List.getElem?_eq_some_iff.mp hi).1)
    obtain ⟨front, back, heq⟩ := append_of_mem hmem
    have hfront : j ∈ front :=
      hp.before front i back heq j (List.getElem?_eq_some_iff.mp hj).1 hC
    have hsub : List.Sublist [j, i] result := by
      rw [heq]
      exact (singleton_sublist.mpr hfront).append (List.Sublist.cons_cons i (nil_sublist back))
    have := hsub.reverse.filterMap fun k => names[k]?
    simpa [hi, hj] using this

/-! ## The constraints of the two functions -/

def Neighbours (names s : List Name) (a b : Name) : Prop :=
  [a, b] <:+: s.filter fun c => decide (c ∈ names)

theorem mem_bulkConstraints_from {prevName : Option Name} {cs : List Name} :
    t ∈ bulkConstraints names prevName cs ↔
      ∃ a b, t = constraintTuple a b ∧
        [a, b] <:+: prevName.toList ++ cs.filter fun c => decide (c ∈ names) := by
  induction cs generalizing prevName with
  | nil =>
    refine ⟨(fun h => nomatch h), ?_⟩
    rintro ⟨a, b, -, h⟩
    have := h.length_le
    cases prevName <;> simp at this
  | cons c cs ih =>
    cases hc : indexByName names c with
    | none =>
      have hmem := indexByName_eq_none.mp hc
      simp only [bulkConstraints, hc, ih, filter_cons, hmem, decide_false, Bool.false_eq_true,
        if_false]
    | some k =>
      have hmem : c ∈ names := by
        by_contra hno
        rw [indexByName_eq_none.mpr hno] at hc
        cases hc
      cases prevName with
      | none =>
        simp only [bulkConstraints, hc, ih, filter_cons, hmem, decide_true, if_true,
          Option.toList_some, singleton_append, Option.toList_none, nil_append]
      | some p =>
        have hinfix : ∀ a b, [a, b] <:+: p :: c :: (cs.filter fun c => decide (c ∈ names)) ↔
            a = p ∧ b = c ∨ [a, b] <:+: c :: cs.filter fun c => decide (c ∈ names) := by
          intro a b
          rw [infix_cons_iff]
          simp
        simp only [bulkConstraints, hc, mem_cons, ih, Option.toList_some, singleton_append, filter_cons, hmem,
          decide_true, if_true, hinfix]
        constructor
        · rintro (rfl | ⟨a, b, rfl, h⟩)
          · exact ⟨p, c, rfl, .inl ⟨rfl, rfl⟩⟩
          · exact ⟨a, b, rfl, .inr h⟩
        · rintro ⟨a, b, rfl, ⟨rfl, rfl⟩ | h⟩
          · exact .inl rfl
          · exact .inr ⟨a, b, rfl, h⟩

theorem mem_bulkConstraints {s : List Name} :
    t ∈ bulkConstraints names none s ↔ ∃ a b, t = constraintTuple a b ∧ Neighbours names s a b :=
  mem_bulkConstraints_from

theorem mem_ownConstraints {runsBefore runsAfter : List Name} :
    t ∈ ownConstraints a runsBefore runsAfter ↔
      (∃ b ∈ runsBefore, t = constraintTuple a b) ∨ ∃ b ∈ runsAfter, t = constraintTuple b a := by
  simp only [ownConstraints, mem_append, mem_map, eq_comm]

/-- The items `xs` in the order of a result. -/
theorem partialOrder_sorts {xs : List α} {name : α → Name} {R : Name → Name → Prop}
    (hnd : (xs.map name).Nodup) (hcomma : ∀ x ∈ xs, ',' ∉ name x)
    (hmem : ∀ {t}, t ∈ constraints ↔ ∃ a b, t = constraintTuple a b ∧ R a b) {K : Name → Name → Prop}
    (hK : ∀ a b, K a b ↔ R a b ∧ a ∈ xs.map name ∧ b ∈ xs.map name) :
    ∃ result, partialOrder (xs.map name) constraints = some (.ok result) ∧
      (result.length = xs.length ↔ Acyclic K) ∧
      (result.length = xs.length → result.Perm (List.range xs.length) ∧
        (result.reverse.filterMap fun k => xs[k]?).Perm xs ∧
        Ordered K (xs.map name) ((result.reverse.filterMap fun k => xs[k]?).map name)) := by
  have hcomma' : ∀ x ∈ xs.map name, ',' ∉ x := by
    intro x hx
    obtain ⟨r, hr, rfl⟩ := mem_map.mp hx
    exact hcomma r hr
  have hgiven : Given (xs.map name) constraints = K := by
    funext a b
    rw [hK]
    refine propext (and_congr_left fun ⟨ha, hb⟩ => ?_)
    rw [hmem]
    constructor
    · rintro ⟨c, d, heq, h⟩
      obtain ⟨rfl, rfl⟩ := constraintTuple_inj (hcomma' a ha) (hcomma' b hb) heq.symm
      exact h
    · intro h
      exact ⟨a, b, rfl, h⟩
  obtain ⟨result, hres, hfull, hord⟩ := partialOrder_spec hnd hcomma' fun t ht => by
    obtain ⟨a, b, rfl, -⟩ := hmem.mp ht
    exact ⟨a, b, rfl⟩
  rw [hgiven, length_map] at hfull hord
  refine ⟨result, hres, hfull, fun hlen => ?_⟩
  obtain ⟨hperm, hordered⟩ := hord hlen
  have hp := ((reverse_perm result).trans hperm).filterMap fun k => xs[k]?
  rw [filterMap_getElem?_range] at hp
  refine ⟨hperm, hp, ?_⟩
  rw [map_filterMap]
  simpa only [getElem?_map] using hordered

end Order

section Feature

variable {lastInArc : Option Name} {regs : List FeatureRegistration} {constSets : List (List Name)}

/-- "a before b" as the registrations of an arc ask for it. -/
inductive FeatureBefore (lastInArc : Option Name) (regs : List FeatureRegistration)
    (constSets : List (List Name)) : Name → Name → Prop
  | runsBefore {r : FeatureRegistration} {b : Name} (hr : r ∈ regs) (hb : b ∈ r.runsBefore) :
      FeatureBefore lastInArc regs constSets r.nodeName b
  | runsAfter {r : FeatureRegistration} {a : Name} (hr : r ∈ regs) (ha : a ∈ r.runsAfter) :
      FeatureBefore lastInArc regs constSets a r.nodeName
  | bulk {s : List Name} {a b : Name} (hs : s ∈ constSets)
      (h : Neighbours (regs.map (·.nodeName)) s a b) : FeatureBefore lastInArc regs constSets a b
  | last {r : FeatureRegistration} {last : Name} (hl : lastInArc = some last) (hr : r ∈ regs)
      (hne : r.nodeName ≠ last) : FeatureBefore lastInArc regs constSets r.nodeName last

def FeatureBefore.Known (lastInArc : Option Name) (regs : List FeatureRegistration)
    (constSets : List (List Name)) (a b : Name) : Prop :=
  FeatureBefore lastInArc regs constSets a b ∧ a ∈ regs.map (·.nodeName) ∧ b ∈ regs.map (·.nodeName)

theorem mem_featureConstraints (hshort : lastInArc ≠ none → ∀ r ∈ regs, r.nodeName.length ≤ 4096) {t : Name} :
    t ∈ featureConstraints lastInArc regs constSets ↔
      ∃ a b, t = constraintTuple a b ∧ FeatureBefore lastInArc regs constSets a b := by
  have hlast : t ∈ lastInArcConstraints lastInArc regs ↔
      ∃ r ∈ regs, ∃ last, lastInArc = some last ∧ r.nodeName ≠ last ∧
        t = constraintTuple r.nodeName last := by
    cases lastInArc with
    | none => simp [lastInArcConstraints]
    | some last =>
      simp only [lastInArcConstraints, clibStrcmp, mem_map, mem_filter, Bool.and_eq_true,
        decide_eq_true_eq, bne_iff_ne, Option.some.injEq]
      constructor
      · rintro ⟨r, ⟨hr, -, hne⟩, rfl⟩
        exact ⟨r, hr, last, rfl, hne, rfl⟩
      · rintro ⟨r, hr, _, rfl, hne, rfl⟩
        exact ⟨r, ⟨hr, hshort (Option.some_ne_none last) r hr, hne⟩, rfl⟩
  simp only [featureConstraints, mem_append, mem_flatMap, hlast, mem_ownConstraints,
    mem_bulkConstraints]
  constructor
  · rintro ((⟨r, hr, last, hl, hne, rfl⟩ | ⟨r, hr, ⟨b, hb, rfl⟩ | ⟨a, ha, rfl⟩⟩) |
      ⟨s, hs, a, b, rfl, h⟩)
    · exact ⟨_, _, rfl, .last hl hr hne⟩
    · exact ⟨_, _, rfl, .runsBefore hr hb⟩
    · exact ⟨_, _, rfl, .runsAfter hr ha⟩
    · exact ⟨_, _, rfl, .bulk hs h⟩
  · rintro ⟨a, b, rfl, h⟩
    cases h with
    | runsBefore hr hb => exact .inl (.inr ⟨_, hr, .inl ⟨_, hb, rfl⟩⟩)
    | runsAfter hr ha => exact .inl (.inr ⟨_, hr, .inr ⟨_, ha, rfl⟩⟩)
    | bulk hs h => exact .inr ⟨_, hs, _, _, rfl, h⟩
    | last hl hr hne => exact .inl (.inl ⟨_, hr, _, hl, hne, rfl⟩)

theorem feature_indices (hperm : result.Perm (List.range regs.length)) :
    (((List.range regs.length).reverse.filterMap fun i =>
        (result[i]?.bind fun k => regs[k]?).map fun reg => (reg, regs.length - (i + 1))).map (·.1) =
      result.reverse.filterMap fun k => regs[k]?) ∧
    ((List.range regs.length).reverse.filterMap fun i =>
        (result[i]?.bind fun k => regs[k]?).map fun reg => (reg, regs.length - (i + 1))).map (·.2) =
      List.range regs.length := by
  have hlen : result.length = regs.length := by
    rw [hperm.length_eq, length_range]
  constructor
  · rw [map_filterMap]
    calc _ = (List.range regs.length).reverse.filterMap (fun i => result[i]?.bind fun k => regs[k]?) := by
          refine filterMap_congr fun i _ => ?_
          rw [Option.map_map]
          exact Option.map_id'
      _ = ((List.range result.length).filterMap fun i => result[i]?).reverse.filterMap
            fun k => regs[k]? := by
          rw [hlen, ← filterMap_reverse, filterMap_filterMap]
      _ = _ := by rw [filterMap_getElem?_range]
  · rw [map_filterMap]
    have hsome : ∀ i ∈ (List.range regs.length).reverse,
        (Option.map (·.2) ((result[i]?.bind fun k => regs[k]?).map fun reg =>
          (reg, regs.length - (i + 1)))) = some (regs.length - (i + 1)) := by
      intro i hi
      have hi : i < regs.length := by simpa using hi
      obtain ⟨k, hk⟩ : ∃ k, result[i]? = some k := ⟨_, getElem?_eq_getElem (hlen ▸ hi)⟩
      have hkn : k < regs.length :=
        mem_range.mp (hperm.mem_iff.mp (mem_of_getElem? hk))
      rw [hk, Option.bind_some, getElem?_eq_getElem hkn]
      rfl
    rw [filterMap_congr hsome]
    apply ext_getElem
    · simp
    · intro i h1 h2
      simp at h1 ⊢
      omega

theorem vnetFeatureArcInit_spec (hnd : (regs.map (·.nodeName)).Nodup) (hcomma : ∀ r ∈ regs, ',' ∉ r.nodeName)
    (hshort : lastInArc ≠ none → ∀ r ∈ regs, r.nodeName.length ≤ 4096) :
    (¬ Acyclic (FeatureBefore.Known lastInArc regs constSets) ∧
      vnetFeatureArcInit lastInArc regs constSets = some (.error (noFeatureOrder regs))) ∨
    Acyclic (FeatureBefore.Known lastInArc regs constSets) ∧
      ∃ out, vnetFeatureArcInit lastInArc regs constSets = some (.ok out) ∧
        (out.map (·.1)).Perm regs ∧
        Ordered (FeatureBefore.Known lastInArc regs constSets) (regs.map (·.nodeName))
          (out.map (·.1.nodeName)) ∧
        out.map (·.2) = List.range regs.length := by
  obtain ⟨result, hres, hfull, hord⟩ := partialOrder_sorts hnd hcomma
    (@mem_featureConstraints lastInArc regs constSets hshort)
    (K := FeatureBefore.Known lastInArc regs constSets) fun _ _ => Iff.rfl
  rw [vnetFeatureArcInit, hres]
  by_cases hlen : result.length = regs.length
  · obtain ⟨hperm, hout, hordered⟩ := hord hlen
    obtain ⟨hregs, hidx⟩ := feature_indices hperm
    refine .inr ⟨hfull.mp hlen, _, ?_, ?_, ?_, hidx⟩
    · exact congrArg some (if_neg (not_not.mpr hlen))
    · rwa [hregs]
    have hnames := congrArg (List.map (·.nodeName)) hregs
    rw [List.map_map] at hnames
    exact hnames.symm ▸ hordered
  · exact .inl ⟨fun h => hlen (hfull.mpr h), congrArg some (if_pos hlen)⟩

end Feature

section Init

variable {fns : List InitFunction}

/-- "a before b" as init functions ask for it. -/
inductive InitBefore (fns : List InitFunction) : Name → Name → Prop
  | runsBefore {f : InitFunction} {b : Name} (hf : f ∈ fns) (hb : b ∈ f.runsBefore) :
      InitBefore fns f.name b
  | runsAfter {f : InitFunction} {a : Name} (hf : f ∈ fns) (ha : a ∈ f.runsAfter) :
      InitBefore fns a f.name
  | bulk {f : InitFunction} {a b : Name} (hf : f ∈ fns)
      (h : Neighbours (fns.map (·.name)) f.initOrder a b) : InitBefore fns a b

def InitBefore.Known (fns : List InitFunction) (a b : Name) : Prop :=
  InitBefore fns a b ∧ a ∈ fns.map (·.name) ∧ b ∈ fns.map (·.name)

theorem mem_initConstraints {t : Name} :
    t ∈ initConstraints fns ↔ ∃ a b, t = constraintTuple a b ∧ InitBefore fns a b := by
  simp only [initConstraints, mem_append, mem_flatMap, mem_ownConstraints, mem_bulkConstraints]
  constructor
  · rintro (⟨f, hf, ⟨b, hb, rfl⟩ | ⟨a, ha, rfl⟩⟩ | ⟨f, hf, a, b, rfl, h⟩)
    · exact ⟨_, _, rfl, .runsBefore hf hb⟩
    · exact ⟨_, _, rfl, .runsAfter hf ha⟩
    · exact ⟨_, _, rfl, .bulk hf h⟩
  · rintro ⟨a, b, rfl, h⟩
    cases h with
    | runsBefore hf hb => exact .inl ⟨_, hf, .inl ⟨_, hb, rfl⟩⟩
    | runsAfter hf ha => exact .inl ⟨_, hf, .inr ⟨_, ha, rfl⟩⟩
    | bulk hf h => exact .inr ⟨_, hf, _, _, rfl, h⟩

theorem relink_eq (list : List InitFunction) :
    result.foldl (fun list k => match fns[k]? with
      | some f => f :: list
      | none => list) list = (result.reverse.filterMap fun k => fns[k]?) ++ list := by
  induction result generalizing list with
  | nil => rfl
  | cons k ks ih =>
    rw [foldl_cons, ih, reverse_cons, filterMap_append]
    cases hk : fns[k]? with
    | none => simp [hk]
    | some f => simp [hk]

theorem vlibSortInitExitFunctions_spec (hnd : (fns.map (·.name)).Nodup)
    (hcomma : ∀ f ∈ fns, ',' ∉ f.name) :
    (¬ Acyclic (InitBefore.Known fns) ∧
      vlibSortInitExitFunctions fns = some (.error noInitOrder)) ∨
    Acyclic (InitBefore.Known fns) ∧
      ∃ out, vlibSortInitExitFunctions fns = some (.ok out) ∧ out.Perm fns ∧
        Ordered (InitBefore.Known fns) (fns.map (·.name)) (out.map (·.name)) := by
  obtain ⟨result, hres, hfull, hord⟩ := partialOrder_sorts hnd hcomma mem_initConstraints
    (K := InitBefore.Known fns) fun _ _ => Iff.rfl
  rw [vlibSortInitExitFunctions, hres]
  by_cases hlen : result.length = fns.length
  · obtain ⟨-, hout, hordered⟩ := hord hlen
    refine .inr ⟨hfull.mp hlen, _, ?_, hout, hordered⟩
    refine congrArg some ((if_neg (not_not.mpr hlen)).trans ?_)
    rw [relink_eq, append_nil]
  · exact .inl ⟨fun h => hlen (hfull.mpr h), congrArg some (if_pos hlen)⟩

end Init

theorem sorted_iff {ε : Type} {r : Option (Except ε α)} {e : ε} {A : Prop} {P : α → Prop}
    (h : ¬ A ∧ r = some (.error e) ∨ A ∧ ∃ out, r = some (.ok out) ∧ P out) :
    ((∃ out, r = some (.ok out)) ↔ A) ∧ ∀ out, r = some (.ok out) → P out := by
  rcases h with ⟨hcyc, rfl⟩ | ⟨hac, out, rfl, hout⟩
  · refine ⟨⟨fun ⟨_, h⟩ => ?_, fun h => absurd h hcyc⟩, fun _ h => ?_⟩
    · cases h
    · cases h
  · refine ⟨⟨fun _ => hac, fun _ => ⟨out, rfl⟩⟩, fun out' h => ?_⟩
    obtain rfl := Except.ok.inj (Option.some.inj h)
    exact hout

def arcName : Name := "ip4-unicast".toList

def lookupFeature : FeatureRegistration := ⟨arcName, "ip4-lookup".toList, [], []⟩

def inaclFeature : FeatureRegistration := ⟨arcName, "ip4-inacl".toList, ["ip4-policer".toList], []⟩

def policerFeature : FeatureRegistration := ⟨arcName, "ip4-policer".toList, [], []⟩

/-- Two features where the first one asks in vain to be before the second one. -/
def Disordered (lastInArc : Option Name) (first second : FeatureRegistration) : Prop :=
  FeatureBefore.Known lastInArc [first, second] [] first.nodeName second.nodeName ∧
    vnetFeatureArcInit lastInArc [first, second] [] = some (.ok [(second, 0), (first, 1)])

theorem Disordered.not_ordered {lastInArc : Option Name} {first second : FeatureRegistration}
    (h : Disordered lastInArc first second) (hne : first.nodeName ≠ second.nodeName) :
    ¬ Ordered (FeatureBefore.Known lastInArc [first, second] [])
      [first.nodeName, second.nodeName] [second.nodeName, first.nodeName] := by
  intro hord
  have hsub := hord.before _ _ h.1
  have heq := hsub.eq_of_length rfl
  exact hne (List.cons.inj heq).1

def commaFeature : FeatureRegistration := ⟨arcName, "a,b".toList, ["ip4-lookup".toList], []⟩

def longFeature : FeatureRegistration := ⟨arcName, List.replicate 4097 'a', [], []⟩

end Vpp.Feature
