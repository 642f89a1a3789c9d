import Vpp.Lib.ByteOrder
import Vpp.Session.MmaUpdate

/-!
# Session rules tables

A session rule is built from two prefixes and two ports. The first part says what tables of such rules
hold after any operations: the abstract table maps match values and masks to actions, and a lookup
returns the action of a most specific match, as long as every rule that is added fits where it is put.
The second part is the rules themselves and an order of insertion for which it fails.
-/

namespace Vpp.Session

open Lib
open List hiding after
open Function (update update_self update_of_ne)
open BitVec (and_allOnes and_append and_zero)

variable {w : Nat}

/-! ## Runs -/

/-- The actions of the rules present, by match value and mask. -/
abbrev Actions (w : Nat) := BitVec w × BitVec w → Option (BitVec 32)

inductive RuleOp (w : Nat) where
  | add (rule : MmaRule w)
  | del (rule : MmaRule w)

def Actions.apply (M : Actions w) : RuleOp w → Actions w
  | .add rule => update M rule.ident (some rule.actionIndex)
  | .del rule => update M rule.ident
      (if rule.ident = (0#w, 0#w) then some mmaTableInvalidIndex else none)

def execRule (srt : MmaRulesTable w) : RuleOp w → MmaRulesTable w × Option Int
  | .add rule =>
    match mmaRulesTableAddRule srt rule with
    | some (srt', rv) => (srt', some rv)
    | none => (srt, none)
  | .del rule => let (srt', rv) := mmaRulesTableDelRule srt rule; (srt', some rv)

abbrev RulesState (w : Nat) := MmaRulesTable w × Actions w

def ruleStep (s : RulesState w) (op : RuleOp w) : RulesState w × Option Int :=
  (((execRule s.1 op).1, s.2.apply op), (execRule s.1 op).2)

def emptyTable (actionIndex : BitVec 32) (maxMatch : BitVec w) (cmp : MmaRule w → MmaRule w → Int) :
    RulesState w :=
  (⟨⟨actionIndex, 0#w, 0#w, maxMatch⟩, .nil, cmp⟩,
    fun k => if k = (0#w, 0#w) then some actionIndex else none)

/-- A rule that is added has a valid action and fits below the rule that the lookup of its match value
ends at. -/
def Fits (s : RulesState w) : RuleOp w → Prop
  | .add rule => Normal rule ∧ rule.actionIndex ≠ mmaTableInvalidIndex ∧
      ∀ parent, mmaRulesTableLookupRule s.1 rule.matchValue = some parent →
        FitsBelow s.1.ruleCmpFn rule parent
  | .del rule => Normal rule

def MmaRulesTable.all (srt : MmaRulesTable w) : Rules w := .cons srt.root srt.next .nil

structure TableInv (s : RulesState w) : Prop where
  root : s.1.root.ident = (0#w, 0#w)
  nested : Nested s.1.all
  normal : ∀ r ∈ s.1.all.rules, Normal r
  valid : ∀ r ∈ s.1.next.rules, r.actionIndex ≠ mmaTableInvalidIndex
  stores : ∀ k a, s.2 k = some a ↔ ∃ r ∈ s.1.all.rules, r.ident = k ∧ r.actionIndex = a

variable {cmp : MmaRule w → MmaRule w → Int} {actionIndex : BitVec 32} {srt : MmaRulesTable w}
  {lclPort rmtPort : BitVec 16} {rule r : MmaRule w}

theorem root_matches (h : r.ident = (0#w, 0#w)) (key : BitVec w) : ruleIsMatchForKey key r = true := by
  obtain ⟨hv, hm⟩ := Prod.mk.inj h
  rw [ruleIsMatchForKey_iff, hv, hm, and_zero]

theorem tableInv_empty {maxMatch : BitVec w} : TableInv (emptyTable actionIndex maxMatch cmp) where
  root := rfl
  nested := ⟨(fun _ h => nomatch h), (fun _ _ _ h => nomatch h), trivial, trivial⟩
  normal := by
    intro r hr
    rw [mem_singleton.mp hr]
    exact root_matches rfl _
  valid := fun _ h => nomatch h
  stores := by
    intro k a
    simp only [emptyTable, MmaRulesTable.all, Rules.rules, MmaRule.ident]
    by_cases hk : k = (0#w, 0#w)
    · simp [hk]
    · simp [hk, Ne.symm hk]

theorem ident_addBelow {parent : MmaRule w × Rules w} :
    (addBelow cmp rule parent).1.1.ident = parent.1.ident := by
  obtain ⟨parent, next⟩ := parent
  unfold addBelow
  split
  · rfl
  · cases next <;> rfl

theorem addRule_of_modifyIn {rs' : Rules w} {rv : Int}
    (hm : ruleIsMatchForKey rule.matchValue srt.root = true)
    (h : modifyIn rule.matchValue (addBelow srt.ruleCmpFn rule) srt.all = some (rs', rv)) :
    ∃ root' next', rs' = .cons root' next' .nil ∧ root'.ident = srt.root.ident ∧
      mmaRulesTableAddRule srt rule = some ({ srt with root := root', next := next' }, rv) := by
  simp only [MmaRulesTable.all, modifyIn, hm] at h
  simp only [mmaRulesTableAddRule, hm]
  cases hmod : modifyIn rule.matchValue (addBelow srt.ruleCmpFn rule) srt.next with
  | some p =>
    rw [hmod] at h
    obtain ⟨rfl, rfl⟩ := Prod.mk.inj (Option.some.inj h)
    exact ⟨_, _, rfl, rfl, rfl⟩
  | none =>
    rw [hmod] at h
    obtain ⟨rfl, rfl⟩ := Prod.mk.inj (Option.some.inj h)
    exact ⟨_, _, rfl, ident_addBelow, rfl⟩

namespace TableInv

variable {s : RulesState w} {rule : MmaRule w}

theorem mem_all : r ∈ srt.all.rules ↔ r = srt.root ∨ r ∈ srt.next.rules := by
  simp [MmaRulesTable.all, Rules.rules]

theorem ident_ne {root : MmaRule w} {next : Rules w} (h : Nested (.cons root next .nil))
    (hroot : root.ident = (0#w, 0#w)) (hr : r ∈ next.rules) : r.ident ≠ (0#w, 0#w) := by
  intro hid
  apply (h.1 r hr).2
  exact congrArg Prod.snd (hid.trans hroot.symm)

variable {parent : MmaRule w × Rules w}

theorem add_exact (h : TableInv s) (hvalid : rule.actionIndex ≠ mmaTableInvalidIndex)
    (hfound : lookupRuleIn rule.matchValue s.1.all = some parent)
    (hex : ruleIsExactMatch rule parent.1 = true) :
    TableInv (ruleStep s (.add rule)).1 ∧ (ruleStep s (.add rule)).2 = some (-1) := by
  have hmod : modifyIn rule.matchValue (addBelow s.1.ruleCmpFn rule) s.1.all =
      some (s.1.all.map (setAction rule), -1) := modifyIn_exact h.nested h.normal hfound hex
  obtain ⟨root', next', hrs, hroot, hadd⟩ := addRule_of_modifyIn (root_matches h.root _) hmod
  have hall : ∀ r, r = root' ∨ r ∈ next'.rules ↔ ∃ x ∈ s.1.all.rules, setAction rule x = r := by
    intro r
    rw [← mem_map, ← Rules.rules_map, hrs]
    simp [Rules.rules]
  have hstep : (ruleStep s (.add rule)).1 = ({ s.1 with root := root', next := next' },
      update s.2 rule.ident (some rule.actionIndex)) := by
    simp only [ruleStep, execRule, hadd, Actions.apply]
  have hnested : Nested (Rules.cons root' next' .nil) := hrs ▸ nested_map (ident_setAction rule) h.nested
  refine ⟨?_, by simp only [ruleStep, execRule, hadd]⟩
  rw [hstep]
  refine ⟨hroot.trans h.root, hnested, fun r hr => ?_, fun r hr => ?_, fun k a => ?_⟩
  · obtain ⟨x, hx, rfl⟩ := (hall r).mp (mem_all.mp hr)
    have hid := ident_setAction rule x
    have hn := h.normal x hx
    rw [Normal, ruleIsMatchForKey_iff] at hn ⊢
    obtain ⟨hv, hm⟩ := Prod.mk.inj hid
    rw [hv, hm]
    exact hn
  · obtain ⟨x, hx, rfl⟩ := (hall r).mp (.inr hr)
    have hne := ident_ne hnested (hroot.trans h.root) hr
    rw [ident_setAction] at hne
    unfold setAction
    split
    · exact hvalid
    · rcases mem_all.mp hx with rfl | hx
      · exact absurd h.root hne
      · exact h.valid x hx
  · have hmem : ∀ r, r ∈ (MmaRulesTable.all { s.1 with root := root', next := next' }).rules ↔
        ∃ x ∈ s.1.all.rules, setAction rule x = r := fun r => mem_all.trans (hall r)
    simp only [hmem]
    by_cases hk : k = rule.ident
    · subst hk
      simp only [update_self, Option.some.injEq]
      constructor
      · rintro rfl
        have hid := ruleIsExactMatch_iff.mp hex
        refine ⟨_, ⟨parent.1, lookupRuleIn_mem hfound, rfl⟩, ?_, ?_⟩
        · rw [ident_setAction]
          exact hid.symm
        · rw [setAction, if_pos hid.symm]
      · rintro ⟨_, ⟨x, -, rfl⟩, hid, rfl⟩
        rw [ident_setAction] at hid
        rw [setAction, if_pos hid]
    · rw [update_of_ne hk, h.stores]
      constructor
      · rintro ⟨x, hx, rfl, rfl⟩
        exact ⟨x, ⟨x, hx, if_neg hk⟩, rfl, rfl⟩
      · rintro ⟨_, ⟨x, hx, rfl⟩, rfl, rfl⟩
        rw [ident_setAction] at hk ⊢
        rw [setAction, if_neg hk]
        exact ⟨x, hx, rfl, rfl⟩

theorem add_insert (h : TableInv s) (hrule : Normal rule)
    (hvalid : rule.actionIndex ≠ mmaTableInvalidIndex)
    (hfound : lookupRuleIn rule.matchValue s.1.all = some parent)
    (hex : ruleIsExactMatch rule parent.1 = false) (hfit : FitsBelow s.1.ruleCmpFn rule parent) :
    TableInv (ruleStep s (.add rule)).1 ∧ (ruleStep s (.add rule)).2 = some 0 := by
  obtain ⟨rs', hmod, hnested, hperm⟩ := modifyIn_insert hrule h.nested h.normal hfound hex hfit
  obtain ⟨root', next', rfl, hroot, hadd⟩ := addRule_of_modifyIn (root_matches h.root _) hmod
  have hmem : ∀ r, r ∈ (MmaRulesTable.all { s.1 with root := root', next := next' }).rules ↔
      r = rule ∨ r ∈ s.1.all.rules := fun r => hperm.mem_iff.trans mem_cons
  have hnormal : ∀ r ∈ (MmaRulesTable.all { s.1 with root := root', next := next' }).rules,
      Normal r := by
    intro r hr
    rcases (hmem r).mp hr with rfl | hr
    · exact hrule
    · exact h.normal r hr
  have hnew : ∀ r ∈ s.1.all.rules, r.ident ≠ rule.ident := by
    have hnd := (hperm.map MmaRule.ident).nodup_iff.mp (nested_nodup hnested hnormal)
    rw [map_cons, nodup_cons, mem_map] at hnd
    exact fun r hr hid => hnd.1 ⟨r, hr, hid⟩
  have hstep : (ruleStep s (.add rule)).1 = ({ s.1 with root := root', next := next' },
      update s.2 rule.ident (some rule.actionIndex)) := by
    simp only [ruleStep, execRule, hadd, Actions.apply]
  refine ⟨?_, by simp only [ruleStep, execRule, hadd]⟩
  rw [hstep]
  refine ⟨hroot.trans h.root, hnested, hnormal, fun r hr => ?_, fun k a => ?_⟩
  · have hne := ident_ne hnested (hroot.trans h.root) hr
    rcases (hmem r).mp (mem_all.mpr (.inr hr)) with rfl | hr
    · exact hvalid
    · rcases mem_all.mp hr with rfl | hr
      · exact absurd h.root hne
      · exact h.valid r hr
  · simp only [hmem]
    by_cases hk : k = rule.ident
    · subst hk
      simp only [update_self, Option.some.injEq]
      constructor
      · rintro rfl
        exact ⟨rule, .inl rfl, rfl, rfl⟩
      · rintro ⟨r, rfl | hr, hid, rfl⟩
        · rfl
        · exact absurd hid (hnew r hr)
    · rw [update_of_ne hk, h.stores]
      constructor
      · rintro ⟨r, hr, rfl, rfl⟩
        exact ⟨r, .inr hr, rfl, rfl⟩
      · rintro ⟨r, rfl | hr, rfl, rfl⟩
        · exact absurd rfl hk
        · exact ⟨r, hr, rfl, rfl⟩

theorem del (h : TableInv s) (rule : MmaRule w) : TableInv (ruleStep s (.del rule)).1 := by
  have hm := root_matches h.root rule.matchValue
  by_cases hroot : rule.ident = (0#w, 0#w)
  · -- the root stays, without its action
    have hex : ruleIsExactMatch rule s.1.root = true :=
      ruleIsExactMatch_iff.mpr (hroot.trans h.root.symm)
    have hstep : (ruleStep s (.del rule)).1 =
        ({ s.1 with root := { s.1.root with actionIndex := mmaTableInvalidIndex } },
          update s.2 (0#w, 0#w) (some mmaTableInvalidIndex)) := by
      simp only [ruleStep, execRule, mmaRulesTableDelRule, hm, hex, if_true, Actions.apply, hroot]
    rw [hstep]
    refine ⟨h.root, ⟨h.nested.1, (fun _ _ _ h => nomatch h), h.nested.2.2.1, trivial⟩,
      fun r hr => ?_, h.valid, fun k a => ?_⟩
    · rcases mem_all.mp hr with rfl | hr
      · exact root_matches h.root _
      · exact h.normal r (mem_all.mpr (.inr hr))
    simp only [mem_all]
    by_cases hk : k = (0#w, 0#w)
    · subst hk
      simp only [update_self, Option.some.injEq]
      constructor
      · rintro rfl
        exact ⟨_, .inl rfl, h.root, rfl⟩
      · rintro ⟨r, rfl | hr, hid, rfl⟩
        · rfl
        · exact absurd hid (ident_ne h.nested h.root hr)
    · rw [update_of_ne hk, h.stores]
      simp only [mem_all]
      constructor
      all_goals
        rintro ⟨r, rfl | hr, rfl, rfl⟩
        · exact absurd h.root hk
        · exact ⟨r, .inr hr, rfl, rfl⟩
  · have hex : ruleIsExactMatch rule s.1.root = false := by
      rw [← Bool.not_eq_true, ruleIsExactMatch_iff, h.root]
      exact hroot
    have hmap : s.2.apply (.del rule) = update s.2 rule.ident none := by
      simp only [Actions.apply, hroot, if_false]
    rcases delIn_spec h.nested.2.2.1 (fun c hc => h.normal c (mem_all.mpr (.inr hc))) rule with
      ⟨x, hx, hid, next', hd, hnext, hperm⟩ | ⟨hnone, hd⟩
    · have hstep : (ruleStep s (.del rule)).1 =
          ({ s.1 with next := next' }, update s.2 rule.ident none) := by
        rw [ruleStep, hmap]
        simp only [execRule, mmaRulesTableDelRule, hm, hex, hd, if_true, Bool.false_eq_true, if_false]
      have hsub : ∀ r ∈ next'.rules, r ∈ s.1.next.rules := fun r hr =>
        hperm.mem_iff.mpr (mem_cons_of_mem _ hr)
      -- the deleted rule was there once
      have hgone : ∀ r ∈ next'.rules, r.ident ≠ rule.ident := by
        have hnd := nested_nodup h.nested.2.2.1 fun c hc => h.normal c (mem_all.mpr (.inr hc))
        rw [(hperm.map MmaRule.ident).nodup_iff, map_cons, nodup_cons, mem_map] at hnd
        exact fun r hr hrid => hnd.1 ⟨r, hr, hrid.trans hid.symm⟩
      rw [hstep]
      refine ⟨h.root, ⟨fun c hc => h.nested.1 c (hsub c hc), (fun _ _ _ h => nomatch h), hnext,
        trivial⟩, fun r hr => ?_, fun r hr => h.valid r (hsub r hr), fun k a => ?_⟩
      · rcases mem_all.mp hr with rfl | hr
        · exact root_matches h.root _
        · exact h.normal r (mem_all.mpr (.inr (hsub r hr)))
      simp only [mem_all]
      by_cases hk : k = rule.ident
      · subst hk
        simp only [update_self, reduceCtorEq, false_iff]
        rintro ⟨r, rfl | hr, hrid, -⟩
        · exact hroot (hrid.symm.trans h.root)
        · exact hgone r hr hrid
      · rw [update_of_ne hk, h.stores]
        simp only [mem_all]
        constructor
        · rintro ⟨r, rfl | hr, rfl, rfl⟩
          · exact ⟨_, .inl rfl, rfl, rfl⟩
          · rcases mem_cons.mp (hperm.mem_iff.mp hr) with rfl | hr
            · exact absurd hid hk
            · exact ⟨r, .inr hr, rfl, rfl⟩
        · rintro ⟨r, rfl | hr, rfl, rfl⟩
          · exact ⟨_, .inl rfl, rfl, rfl⟩
          · exact ⟨r, .inr (hsub r hr), rfl, rfl⟩
    · have hnoM : s.2 rule.ident = none := by
        rw [Option.eq_none_iff_forall_ne_some]
        intro a ha
        obtain ⟨r, hr, hid, -⟩ := (h.stores _ _).mp ha
        rcases mem_all.mp hr with rfl | hr
        · exact hroot (hid.symm.trans h.root)
        · exact hnone r hr hid
      have hstep : (ruleStep s (.del rule)).1 = s := by
        rw [ruleStep, hmap]
        simp only [execRule, mmaRulesTableDelRule, hm, hex, hd, if_true, Bool.false_eq_true, if_false]
        rw [← hnoM, Function.update_eq_self]
      rw [hstep]
      exact h

theorem step (h : TableInv s) {op : RuleOp w} (hop : Fits s op) : TableInv (ruleStep s op).1 := by
  cases op with
  | add rule =>
    obtain ⟨hrule, hvalid, hfit⟩ := hop
    have hm := root_matches h.root rule.matchValue
    obtain ⟨parent, hfound⟩ : ∃ parent, lookupRuleIn rule.matchValue s.1.all = some parent := by
      simp only [MmaRulesTable.all, lookupRuleIn, hm]
      exact ⟨_, rfl⟩
    cases hex : ruleIsExactMatch rule parent.1 with
    | true => exact (h.add_exact hvalid hfound hex).1
    | false => exact (h.add_insert hrule hvalid hfound hex (hfit parent hfound)).1
  | del rule => exact h.del rule

end TableInv

/-- `k` is present, matches the key, and no matching rule has a mask that strictly contains its mask; if
it is the root, nothing else matches. -/
structure Best (M : Actions w) (key : BitVec w) (k : BitVec w × BitVec w) : Prop where
  present : M k ≠ none
  isMatch : key &&& k.2 = k.1
  max : ∀ k', M k' ≠ none → key &&& k'.2 = k'.1 → k.2 &&& k'.2 = k.2 → k'.2 = k.2
  root : k = (0#w, 0#w) → ∀ k', M k' ≠ none → key &&& k'.2 = k'.1 → k' = k

theorem TableInv.lookup {s : RulesState w} (h : TableInv s) (key : BitVec w) :
    ∃ k a, s.2 k = some a ∧ Best s.2 key k ∧ mmaRulesTableLookup s.1 key = a := by
  have hm := root_matches h.root key
  have hpresent : ∀ k, s.2 k ≠ none ↔ ∃ r ∈ s.1.all.rules, r.ident = k := by
    intro k
    rw [Option.ne_none_iff_exists']
    simp only [h.stores]
    exact ⟨fun ⟨_, r, hr, hid, _⟩ => ⟨r, hr, hid⟩, fun ⟨r, hr, hid⟩ => ⟨_, r, hr, hid, rfl⟩⟩
  -- a most specific rule of the tree is a best one of the map
  have hbest : ∀ r, MostSpecific s.1.all.rules key r → Best s.2 key r.ident := by
    intro r hr
    have hmax : ∀ k', s.2 k' ≠ none → key &&& k'.2 = k'.1 → r.mask &&& k'.2 = r.mask →
        k'.2 = r.mask := by
      intro k' hk' hmatch hle
      obtain ⟨c, hc, rfl⟩ := (hpresent k').mp hk'
      exact hr.max c hc (ruleIsMatchForKey_iff.mpr hmatch) hle
    refine ⟨(hpresent _).mpr ⟨r, hr.mem, rfl⟩, ruleIsMatchForKey_iff.mp hr.isMatch, hmax, ?_⟩
    intro hid k' hk' hmatch
    obtain ⟨hv, hmask⟩ := Prod.mk.inj hid
    have hk2 : k'.2 = 0#w := by
      rw [← hmask]
      exact hmax k' hk' hmatch (by rw [hmask, BitVec.zero_and])
    rw [hid]
    refine Prod.ext ?_ hk2
    rw [← hmatch, hk2, and_zero]
  rcases lookupIn_spec h.nested.2.2.1 h.valid with ⟨r, hr, hlk⟩ | ⟨hnone, hlk⟩
  · refine ⟨r.ident, r.actionIndex, (h.stores _ _).mpr ⟨r, TableInv.mem_all.mpr (.inr hr.mem), rfl, rfl⟩,
      hbest r ⟨TableInv.mem_all.mpr (.inr hr.mem), hr.isMatch, fun c hc hcm hle => ?_⟩, ?_⟩
    · rcases TableInv.mem_all.mp hc with rfl | hc
      · exact (h.nested.1 r hr.mem).1.1.antisymm hle
      · exact hr.max c hc hcm hle
    · simp only [mmaRulesTableLookup, hm, if_true, hlk, ne_eq, h.valid r hr.mem, not_false_eq_true]
  · refine ⟨s.1.root.ident, s.1.root.actionIndex,
      (h.stores _ _).mpr ⟨_, TableInv.mem_all.mpr (.inl rfl), rfl, rfl⟩,
      hbest _ ⟨TableInv.mem_all.mpr (.inl rfl), hm, fun c hc hcm _ => ?_⟩, ?_⟩
    · rcases TableInv.mem_all.mp hc with rfl | hc
      · rfl
      · rw [hnone c hc] at hcm
        cases hcm
    · simp only [mmaRulesTableLookup, hm, if_true, hlk, ne_eq, not_true_eq_false, if_false]

/-- **Most specific match.** After any operations whose rules fit where they are put, a lookup returns the
action of a most specific rule present. -/
theorem lookup_most_specific (actionIndex : BitVec 32) (maxMatch : BitVec w)
    (cmp : MmaRule w → MmaRule w → Int) (ops : List (RuleOp w))
    (hops : Along ruleStep Fits (emptyTable actionIndex maxMatch cmp) ops) (key : BitVec w) :
    ∃ k a, (after ruleStep (emptyTable actionIndex maxMatch cmp) ops).2 k = some a ∧
      Best (after ruleStep (emptyTable actionIndex maxMatch cmp) ops).2 key k ∧
      mmaRulesTableLookup (after ruleStep (emptyTable actionIndex maxMatch cmp) ops).1 key = a :=
  (Along.invariant TableInv (fun _ => True) (fun _ _ h hop => ⟨h.step hop, trivial⟩)
    tableInv_empty hops).1.lookup key

/-! ## Session rules -/

/-- `session_mask_or_match_4_t`: the first field in the lowest bits, 32 bits unused. -/
def pack4 (rmtIp lclIp : BitVec 32) (rmtPort lclPort : BitVec 16) : BitVec 128 :=
  0#32 ++ lclPort ++ rmtPort ++ lclIp ++ rmtIp

/-- `session_mask_or_match_6_t`. -/
def pack6 (rmtIp lclIp : BitVec 64 × BitVec 64) (rmtPort lclPort : BitVec 16) : BitVec 320 :=
  0#32 ++ lclPort ++ rmtPort ++ lclIp.2 ++ lclIp.1 ++ rmtIp.2 ++ rmtIp.1

structure Prefix4 where
  addr : BitVec 32
  len : Nat

structure Prefix6 where
  addr : BitVec 64 × BitVec 64
  len : Nat

def ip4AddressNormalize (addr : BitVec 32) (preflen : Nat) : BitVec 32 :=
  if preflen = 0 then 0#32 else addr &&& swapBytes (BitVec.allOnes 32 <<< (32 - preflen))

def ip4PreflenToMask (prefLen : Nat) : BitVec 32 :=
  if prefLen = 0 then 0#32 else swapBytes (~~~((1#32 <<< (32 - prefLen)) - 1#32))

def ip4PrefixMaxAddressHostOrder (addr : BitVec 32) (plen : Nat) : BitVec 32 :=
  swapBytes addr + ((1#32 <<< (32 - plen)) - 1#32)

def ip6AddressNormalize (addr : BitVec 64 × BitVec 64) (preflen : Nat) : BitVec 64 × BitVec 64 :=
  if preflen = 0 then (0#64, 0#64)
  else if preflen ≤ 64 then (addr.1 &&& swapBytes (BitVec.allOnes 64 <<< (64 - preflen)), 0#64)
  else (addr.1, addr.2 &&& swapBytes (BitVec.allOnes 64 <<< (128 - preflen)))

def ip6PreflenToMask (prefLen : Nat) : BitVec 64 × BitVec 64 :=
  if prefLen = 0 then (0#64, 0#64)
  else if prefLen ≤ 64 then (swapBytes (BitVec.allOnes 64 <<< (64 - prefLen)), 0#64)
  else (BitVec.allOnes 64, swapBytes (BitVec.allOnes 64 <<< (128 - prefLen)))

/-- The first word is not written for lengths above 64, and is 0 in a new rule. -/
def ip6PrefixMaxAddressHostOrder (addr : BitVec 64 × BitVec 64) (plen : Nat) :
    BitVec 64 × BitVec 64 :=
  if plen = 0 then (BitVec.allOnes 64, BitVec.allOnes 64)
  else if plen ≤ 64 then
    (swapBytes addr.1 + ((1#64 <<< (64 - plen)) - 1#64), BitVec.allOnes 64)
  else (0#64, swapBytes addr.2 + ((1#64 <<< (128 - plen)) - 1#64))

def portMask (port : BitVec 16) : BitVec 16 := if port = 0#16 then 0#16 else ~~~0#16

def portMax (port : BitVec 16) : BitVec 16 := if port = 0#16 then ~~~0#16 else port

def sessionRulesTableInitRule16 (lcl : Prefix4) (lclPort : BitVec 16) (rmt : Prefix4)
    (rmtPort : BitVec 16) (actionIndex : BitVec 32) : MmaRule 128 :=
  let lclIp := ip4AddressNormalize lcl.addr lcl.len
  let rmtIp := ip4AddressNormalize rmt.addr rmt.len
  { actionIndex
    matchValue := pack4 rmtIp lclIp rmtPort lclPort
    mask := pack4 (ip4PreflenToMask rmt.len) (ip4PreflenToMask lcl.len) (portMask rmtPort)
      (portMask lclPort)
    maxMatch := pack4 (ip4PrefixMaxAddressHostOrder rmtIp rmt.len)
      (ip4PrefixMaxAddressHostOrder lclIp lcl.len) (portMax rmtPort) (portMax lclPort) }

def sessionRulesTableInitRule40 (lcl : Prefix6) (lclPort : BitVec 16) (rmt : Prefix6)
    (rmtPort : BitVec 16) (actionIndex : BitVec 32) : MmaRule 320 :=
  let lclIp := ip6AddressNormalize lcl.addr lcl.len
  let rmtIp := ip6AddressNormalize rmt.addr rmt.len
  { actionIndex
    matchValue := pack6 rmtIp lclIp rmtPort lclPort
    mask := pack6 (ip6PreflenToMask rmt.len) (ip6PreflenToMask lcl.len) (portMask rmtPort)
      (portMask lclPort)
    maxMatch := pack6 (ip6PrefixMaxAddressHostOrder rmtIp rmt.len)
      (ip6PrefixMaxAddressHostOrder lclIp lcl.len) (portMax rmtPort) (portMax lclPort) }

def cmpFields : List (Nat × Nat) → Int
  | [] => 0
  | (a, b) :: rest => if a ≠ b then (if a < b then -1 else 1) else cmpFields rest

def ruleCmp16 (rule1 rule2 : MmaRule 128) : Int :=
  let field (start len : Nat) :=
    ((rule1.maxMatch.extractLsb' start len).toNat, (rule2.maxMatch.extractLsb' start len).toNat)
  cmpFields [field 0 32, field 32 32, field 64 16, field 80 16]

theorem and_portMask {port : BitVec 16} : port &&& portMask port = port := by
  unfold portMask
  split
  · rename_i h
    rw [h, and_zero]
  · rw [BitVec.not_zero, and_allOnes]

theorem not_one_shl_sub_one : ∀ k < 32, ~~~((1#32 <<< k) - 1#32) = BitVec.allOnes 32 <<< k := by
  decide

theorem and_ip4PreflenToMask {addr : BitVec 32} {len : Nat} :
    ip4AddressNormalize addr len &&& ip4PreflenToMask len = ip4AddressNormalize addr len := by
  unfold ip4AddressNormalize ip4PreflenToMask
  split
  · rw [and_zero]
  · rw [not_one_shl_sub_one _ (by omega), BitVec.and_assoc, BitVec.and_self]

theorem and_ip6PreflenToMask {addr : BitVec 64 × BitVec 64} {len : Nat} :
    (ip6AddressNormalize addr len).1 &&& (ip6PreflenToMask len).1 = (ip6AddressNormalize addr len).1 ∧
    (ip6AddressNormalize addr len).2 &&& (ip6PreflenToMask len).2 =
      (ip6AddressNormalize addr len).2 := by
  unfold ip6AddressNormalize ip6PreflenToMask
  split
  · exact ⟨and_zero, and_zero⟩
  · split
    · exact ⟨by rw [BitVec.and_assoc, BitVec.and_self], and_zero⟩
    · exact ⟨and_allOnes, by rw [BitVec.and_assoc, BitVec.and_self]⟩

theorem pack4_and {a b c d : BitVec 32} {e f g h : BitVec 16} :
    pack4 a b e f &&& pack4 c d g h = pack4 (a &&& c) (b &&& d) (e &&& g) (f &&& h) := by
  calc pack4 a b e f &&& pack4 c d g h
      = ((0#32 ++ f ++ e ++ b) &&& (0#32 ++ h ++ g ++ d)) ++ (a &&& c) := and_append
    _ = _ := by
      rw [and_append, and_append, and_append]
      rfl

theorem pack6_and {a b c d : BitVec 64 × BitVec 64} {e f g h : BitVec 16} :
    pack6 a b e f &&& pack6 c d g h =
      pack6 (a.1 &&& c.1, a.2 &&& c.2) (b.1 &&& d.1, b.2 &&& d.2) (e &&& g) (f &&& h) := by
  calc pack6 a b e f &&& pack6 c d g h
      = ((0#32 ++ f ++ e ++ b.2 ++ b.1 ++ a.2) &&& (0#32 ++ h ++ g ++ d.2 ++ d.1 ++ c.2)) ++
          (a.1 &&& c.1) := and_append
    _ = _ := by
      rw [and_append, and_append, and_append, and_append,
        and_append]
      rfl

/-- The match value of a session rule has no bits outside of its mask, as `Fits` asks for. -/
theorem normal_initRule16 {lcl rmt : Prefix4} :
    Normal (sessionRulesTableInitRule16 lcl lclPort rmt rmtPort actionIndex) := by
  rw [Normal, ruleIsMatchForKey_iff]
  simp only [sessionRulesTableInitRule16, pack4_and, and_portMask, and_ip4PreflenToMask]

theorem normal_initRule40 {lcl rmt : Prefix6} :
    Normal (sessionRulesTableInitRule40 lcl lclPort rmt rmtPort actionIndex) := by
  rw [Normal, ruleIsMatchForKey_iff]
  simp only [sessionRulesTableInitRule40, pack6_and, and_portMask, and_ip6PreflenToMask.1,
    and_ip6PreflenToMask.2]

/-- `session_rules_table_init` -/
def sessionRulesTable16 : RulesState 128 :=
  emptyTable mmaTableInvalidIndex
    (sessionRulesTableInitRule16 ⟨0#32, 0⟩ 0#16 ⟨0#32, 0⟩ 0#16 0#32).maxMatch ruleCmp16

/-- Local `10.0.0.0/8`, anything else. -/
def wideRule : MmaRule 128 := sessionRulesTableInitRule16 ⟨0x0000000a#32, 8⟩ 0#16 ⟨0#32, 0⟩ 0#16 1#32

/-- Local `10.0.0.0/24`, anything else. -/
def narrowRule : MmaRule 128 :=
  sessionRulesTableInitRule16 ⟨0x0000000a#32, 24⟩ 0#16 ⟨0#32, 0⟩ 0#16 2#32

/-- Local `10.0.0.5`. -/
def localKey : BitVec 128 := pack4 0x01010101#32 0x0500000a#32 80#16 1000#16

/-- The wide rule first: the narrow one goes below it. -/
theorem lookup_most_specific_wide_first :
    ∃ k a, (after ruleStep sessionRulesTable16 [.add wideRule, .add narrowRule]).2 k = some a ∧
      Best (after ruleStep sessionRulesTable16 [.add wideRule, .add narrowRule]).2 localKey k ∧
      mmaRulesTableLookup (after ruleStep sessionRulesTable16 [.add wideRule, .add narrowRule]).1
        localKey = a := by
  refine lookup_most_specific _ _ _ [.add wideRule, .add narrowRule] ⟨⟨normal_initRule16, by decide, ?_⟩,
    ⟨normal_initRule16, by decide, ?_⟩, trivial⟩ localKey
  · intro parent h
    have hp : mmaRulesTableLookupRule sessionRulesTable16.1 wideRule.matchValue =
        some (sessionRulesTable16.1.root, .nil) := by decide +kernel
    obtain rfl := Option.some.inj (hp.symm.trans h)
    exact .inr ⟨by decide +kernel, (fun _ h => nomatch h), (fun _ h => nomatch h)⟩
  · intro parent h
    have hp : mmaRulesTableLookupRule (ruleStep sessionRulesTable16 (.add wideRule)).1.1
        narrowRule.matchValue = some (wideRule, .nil) := by decide +kernel
    obtain rfl := Option.some.inj (hp.symm.trans h)
    exact .inr ⟨by decide +kernel, (fun _ h => nomatch h), (fun _ h => nomatch h)⟩

/-- The narrow rule first: the wide one, whose match value is the same, goes below it and wins. -/
theorem wide_rule_hides_narrow :
    mmaRulesTableLookup (after ruleStep sessionRulesTable16 [.add narrowRule, .add wideRule]).1
        localKey = wideRule.actionIndex ∧
      ¬ ∃ k a, (after ruleStep sessionRulesTable16 [.add narrowRule, .add wideRule]).2 k = some a ∧
        Best (after ruleStep sessionRulesTable16 [.add narrowRule, .add wideRule]).2 localKey k ∧
        mmaRulesTableLookup (after ruleStep sessionRulesTable16 [.add narrowRule, .add wideRule]).1
          localKey = a := by
  have hlk : mmaRulesTableLookup (after ruleStep sessionRulesTable16 [.add narrowRule, .add wideRule]).1
      localKey = wideRule.actionIndex := by decide +kernel
  refine ⟨hlk, ?_⟩
  rintro ⟨k, a, hk, hbest, ha⟩
  subst ha
  have hwide : k = wideRule.ident := by
    simp only [after, ruleStep, Actions.apply, Function.update_apply, sessionRulesTable16,
      emptyTable] at hk
    split at hk
    · assumption
    split at hk
    · exact absurd (Option.some.inj hk) (by decide +kernel)
    · split at hk
      · exact absurd (Option.some.inj hk) (by decide +kernel)
      · cases hk
  subst hwide
  have := hbest.max narrowRule.ident (by decide +kernel) (by decide +kernel) (by decide +kernel)
  exact absurd this (by decide +kernel)

end Vpp.Session
