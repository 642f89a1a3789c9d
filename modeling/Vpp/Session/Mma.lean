import Mathlib.Data.BitVec
import Vpp.Lib.Run

/-!
# Mask-match-action tables

The rules of a table form a tree. A rule matches a key if the key, masked, is its match value; a lookup
enters the first child that matches and ends at a rule none of whose children do. A new rule goes below
the rule that a lookup of its match value ends at, and takes over the children whose match values it
matches; where it stands among the other children is decided by the table's `rule_cmp_fn`.

`next_indices` are indices into a pool of rules; here each index is the rule it stands for, with its
own children. The template is instantiated at 16 and at 40 bytes; `w` is the width in bits.
-/

namespace Vpp.Session

open Lib List

def mmaTableInvalidIndex : BitVec 32 := ~~~0#32

structure MmaRule (w : Nat) where
  actionIndex : BitVec 32
  mask : BitVec w
  matchValue : BitVec w
  maxMatch : BitVec w
deriving DecidableEq, Repr

/-- A vector of rules, each with its `next_indices`. -/
inductive Rules (w : Nat) where
  | nil
  | cons (rule : MmaRule w) (next rest : Rules w)
deriving DecidableEq, Repr

structure MmaRulesTable (w : Nat) where
  root : MmaRule w
  next : Rules w
  ruleCmpFn : MmaRule w → MmaRule w → Int

variable {w : Nat}

def ruleIsExactMatch (key r : MmaRule w) : Bool :=
  key.matchValue == r.matchValue && key.mask == r.mask

def ruleIsMatchForKey (key : BitVec w) (r : MmaRule w) : Bool := key &&& r.mask == r.matchValue

/-! ## Lookup -/

/-- The loop over `next_indices`; every turn is the lookup in one child. -/
def lookupIn (key : BitVec w) : Rules w → BitVec 32
  | .nil => mmaTableInvalidIndex
  | .cons r next rest =>
    let rv :=
      if ruleIsMatchForKey key r then
        let rv := lookupIn key next
        if rv ≠ mmaTableInvalidIndex then rv else r.actionIndex
      else mmaTableInvalidIndex
    if rv ≠ mmaTableInvalidIndex then rv else lookupIn key rest

def mmaRulesTableLookup (srt : MmaRulesTable w) (key : BitVec w) : BitVec 32 :=
  if ruleIsMatchForKey key srt.root then
    let rv := lookupIn key srt.next
    if rv ≠ mmaTableInvalidIndex then rv else srt.root.actionIndex
  else mmaTableInvalidIndex

def lookupRuleIn (key : BitVec w) : Rules w → Option (MmaRule w × Rules w)
  | .nil => none
  | .cons r next rest =>
    if ruleIsMatchForKey key r then some ((lookupRuleIn key next).getD (r, next))
    else lookupRuleIn key rest

def mmaRulesTableLookupRule (srt : MmaRulesTable w) (key : BitVec w) :
    Option (MmaRule w × Rules w) :=
  if ruleIsMatchForKey key srt.root then
    some ((lookupRuleIn key srt.next).getD (srt.root, srt.next))
  else none

/-! ## Add -/

namespace Rules

/-- The rules of the vector that satisfy `p`, with their children. -/
def filter (p : MmaRule w → Bool) : Rules w → Rules w
  | nil => nil
  | cons r next rest => if p r then cons r next (filter p rest) else filter p rest

def append : Rules w → Rules w → Rules w
  | nil, b => b
  | cons r next rest, b => cons r next (append rest b)

end Rules

/-- The loop over the children of the parent: those the new rule matches become its children `kids`, and the
rule stands in for the first of them unless added already. -/
def replaceIn (cmp : MmaRule w → MmaRule w → Int) (rule : MmaRule w) (kids : Rules w) :
    Bool → Rules w → Rules w
  | added, .nil => if added then .nil else .cons rule kids .nil
  | added, .cons child next rest =>
    if ruleIsMatchForKey child.matchValue rule then
      if added then replaceIn cmp rule kids true rest
      else .cons rule kids (replaceIn cmp rule kids true rest)
    else if !added && decide (cmp rule child < 0) then
      .cons rule kids (.cons child next (replaceIn cmp rule kids true rest))
    else .cons child next (replaceIn cmp rule kids added rest)

/-- What `mma_rules_table_add_rule` does to the parent it found. -/
def addBelow (cmp : MmaRule w → MmaRule w → Int) (rule : MmaRule w)
    (parent : MmaRule w × Rules w) : (MmaRule w × Rules w) × Int :=
  if ruleIsExactMatch rule parent.1 then
    (({ parent.1 with actionIndex := rule.actionIndex }, parent.2), -1)
  else
    match parent.2 with
    | .nil => ((parent.1, .cons rule .nil .nil), 0)
    | next =>
      let kids := next.filter fun child => ruleIsMatchForKey child.matchValue rule
      ((parent.1, replaceIn cmp rule kids false next), 0)

/-- The rules with the one that `lookupRuleIn` ends at changed by `f`. -/
def modifyIn (key : BitVec w) (f : MmaRule w × Rules w → (MmaRule w × Rules w) × Int) :
    Rules w → Option (Rules w × Int)
  | .nil => none
  | .cons r next rest =>
    if ruleIsMatchForKey key r then
      match modifyIn key f next with
      | some (next', rv) => some (.cons r next' rest, rv)
      | none => let ((r', next'), rv) := f (r, next); some (.cons r' next' rest, rv)
    else (modifyIn key f rest).map fun (rest', rv) => (.cons r next rest', rv)

/-- `none` if the root does not match: the parent index is then no rule of the pool. -/
def mmaRulesTableAddRule (srt : MmaRulesTable w) (rule : MmaRule w) :
    Option (MmaRulesTable w × Int) :=
  if ruleIsMatchForKey rule.matchValue srt.root then
    match modifyIn rule.matchValue (addBelow srt.ruleCmpFn rule) srt.next with
    | some (next', rv) => some ({ srt with next := next' }, rv)
    | none =>
      let ((root', next'), rv) := addBelow srt.ruleCmpFn rule (srt.root, srt.next)
      some ({ srt with root := root', next := next' }, rv)
  else none

/-! ## Delete -/

/-- The loop over `next_indices`: the children of the deleted rule take its place; `none` if the rule is
not found. -/
def delIn (rule : MmaRule w) : Rules w → Option (Rules w)
  | .nil => none
  | .cons r next rest =>
    if ruleIsMatchForKey rule.matchValue r then
      if ruleIsExactMatch rule r then some (next.append rest)
      else
        match delIn rule next with
        | some next' => some (.cons r next' rest)
        | none => (delIn rule rest).map fun rest' => .cons r next rest'
    else (delIn rule rest).map fun rest' => .cons r next rest'

def mmaRulesTableDelRule (srt : MmaRulesTable w) (rule : MmaRule w) : MmaRulesTable w × Int :=
  if ruleIsMatchForKey rule.matchValue srt.root then
    if ruleIsExactMatch rule srt.root then
      ({ srt with root := { srt.root with actionIndex := mmaTableInvalidIndex } }, 1)
    else
      match delIn rule srt.next with
      | some next' => ({ srt with next := next' }, 0)
      | none => (srt, -1)
  else (srt, -1)

/-! ## Rules inside rules -/

variable {r c q : MmaRule w} {key : BitVec w}

/-- All bits of `r`'s mask are in `c`'s. -/
def MaskLe (r c : MmaRule w) : Prop := r.mask &&& c.mask = r.mask

instance (r c : MmaRule w) : Decidable (MaskLe r c) := inferInstanceAs (Decidable (_ = _))

/-- Every key that `c` matches is matched by `r`, and `c` looks at all that `r` looks at. -/
def Within (c r : MmaRule w) : Prop := MaskLe r c ∧ ruleIsMatchForKey c.matchValue r = true

instance (c r : MmaRule w) : Decidable (Within c r) := inferInstanceAs (Decidable (_ ∧ _))

theorem ruleIsMatchForKey_iff : ruleIsMatchForKey key r = true ↔ key &&& r.mask = r.matchValue :=
  beq_iff_eq

theorem MaskLe.trans (h : MaskLe r c) (h' : MaskLe c q) : MaskLe r q := by
  unfold MaskLe at *
  rw [← h, BitVec.and_assoc, h']

theorem MaskLe.antisymm (h : MaskLe r c) (h' : MaskLe c r) : r.mask = c.mask := by
  rw [← h, BitVec.and_comm, h']

theorem MaskLe.and (h : MaskLe r c) (x : BitVec w) : x &&& c.mask &&& r.mask = x &&& r.mask := by
  rw [BitVec.and_assoc, BitVec.and_comm c.mask, h]

theorem Within.isMatch (h : Within c r) (hc : ruleIsMatchForKey key c = true) :
    ruleIsMatchForKey key r = true := by
  obtain ⟨hle, hm⟩ := h
  rw [ruleIsMatchForKey_iff] at *
  rw [← hle.and, hc, hm]

theorem within_of_matches (hc : ruleIsMatchForKey key c = true) (hr : ruleIsMatchForKey key r = true)
    (hle : MaskLe r c) : Within c r := by
  refine ⟨hle, ?_⟩
  rw [ruleIsMatchForKey_iff] at *
  rw [← hc, hle.and, hr]

theorem Within.trans (h : Within c r) (h' : Within q c) : Within q r :=
  ⟨h.1.trans h'.1, h.isMatch h'.2⟩

/-- A rule matches its own match value: no match bits outside the mask. -/
def Normal (r : MmaRule w) : Prop := ruleIsMatchForKey r.matchValue r = true

instance (r : MmaRule w) : Decidable (Normal r) := inferInstanceAs (Decidable (_ = _))

theorem Within.refl (h : Normal r) : Within r r := ⟨BitVec.and_self, h⟩

theorem Within.exact (h : Within c r) (hn : Normal c) (hmask : c.mask = r.mask) :
    ruleIsExactMatch c r = true := by
  have h1 := ruleIsMatchForKey_iff.mp h.2
  have h2 := ruleIsMatchForKey_iff.mp hn
  rw [hmask] at h2
  rw [ruleIsExactMatch, Bool.and_eq_true, beq_iff_eq, beq_iff_eq]
  exact ⟨h2.symm.trans h1, hmask⟩

/-! ## Well nested trees -/

def Rules.rules : Rules w → List (MmaRule w)
  | .nil => []
  | .cons r next rest => r :: (next.rules ++ rest.rules)

/-- **Nested.** Children are within their parent, and nothing that is within a rule stands behind it
outside of its own children. -/
def Nested : Rules w → Prop
  | .nil => True
  | .cons r next rest =>
    (∀ c ∈ next.rules, Within c r ∧ c.mask ≠ r.mask) ∧
    (∀ q ∈ r :: next.rules, ∀ c ∈ rest.rules, ¬ Within c q) ∧ Nested next ∧ Nested rest

/-- `r` is among the rules, matches the key, and no matching rule has a mask that strictly contains its
mask. -/
structure MostSpecific (rules : List (MmaRule w)) (key : BitVec w) (r : MmaRule w) : Prop where
  mem : r ∈ rules
  isMatch : ruleIsMatchForKey key r = true
  max : ∀ c ∈ rules, ruleIsMatchForKey key c = true → MaskLe r c → c.mask = r.mask

theorem not_matches_of_within {rs : List (MmaRule w)} (h : ∀ c ∈ rs, Within c r)
    (hr : ruleIsMatchForKey key r = false) : ∀ c ∈ rs, ruleIsMatchForKey key c = false := by
  intro c hc
  rw [← Bool.not_eq_true] at *
  exact fun hm => hr ((h c hc).isMatch hm)

/-- **Lookup.** In well nested rules with valid actions the lookup ends at a most specific match. -/
theorem lookupIn_spec {rs : Rules w} (h : Nested rs)
    (hvalid : ∀ r ∈ rs.rules, r.actionIndex ≠ mmaTableInvalidIndex) :
    (∃ r, MostSpecific rs.rules key r ∧ lookupIn key rs = r.actionIndex) ∨
      (∀ r ∈ rs.rules, ruleIsMatchForKey key r = false) ∧ lookupIn key rs = mmaTableInvalidIndex := by
  induction rs with
  | nil => exact .inr ⟨(fun _ h => nomatch h), rfl⟩
  | cons r next rest ihn ihr =>
    obtain ⟨hin, hbehind, hnext, hrest⟩ := h
    have hvn : ∀ c ∈ next.rules, c.actionIndex ≠ mmaTableInvalidIndex := fun c hc =>
      hvalid c (by simp [Rules.rules, hc])
    have hvr : ∀ c ∈ rest.rules, c.actionIndex ≠ mmaTableInvalidIndex := fun c hc =>
      hvalid c (by simp [Rules.rules, hc])
    cases hm : ruleIsMatchForKey key r with
    | true =>
      left
      -- what is behind `r` cannot have a larger mask than what is found below `r`
      have hmax : ∀ q ∈ r :: next.rules, ruleIsMatchForKey key q = true → ∀ c ∈ rest.rules,
          ruleIsMatchForKey key c = true → MaskLe q c → c.mask = q.mask :=
        fun q hq hqm c hc hcm hle => absurd (within_of_matches hcm hqm hle) (hbehind q hq c hc)
      rcases ihn hnext hvn with ⟨q, hq, hlk⟩ | ⟨hnone, hlk⟩
      · have hqv := hvn q hq.mem
        refine ⟨q, ⟨by simp [Rules.rules, hq.mem], hq.isMatch, fun c hc hcm hle => ?_⟩, ?_⟩
        · rcases mem_cons.mp hc with rfl | hc
          · exact ((hin q hq.mem).1.1.antisymm hle)
          · rcases mem_append.mp hc with hc | hc
            · exact hq.max c hc hcm hle
            · exact hmax q (mem_cons_of_mem _ hq.mem) hq.isMatch c hc hcm hle
        · simp only [lookupIn, hm, if_true, hlk, ne_eq, hqv, not_false_eq_true]
      · have hrv := hvalid r mem_cons_self
        refine ⟨r, ⟨mem_cons_self, hm, fun c hc hcm hle => ?_⟩, ?_⟩
        · rcases mem_cons.mp hc with rfl | hc
          · rfl
          · rcases mem_append.mp hc with hc | hc
            · rw [hnone c hc] at hcm
              cases hcm
            · exact hmax r mem_cons_self hm c hc hcm hle
        · simp only [lookupIn, hm, if_true, hlk, ne_eq, not_true_eq_false, if_false, hrv,
            not_false_eq_true]
    | false =>
      have hnn := not_matches_of_within (fun c hc => (hin c hc).1) hm
      have heq : lookupIn key (.cons r next rest) = lookupIn key rest := by
        simp [lookupIn, hm]
      rw [heq]
      rcases ihr hrest hvr with ⟨q, hq, hlk⟩ | ⟨hnone, hlk⟩
      · refine .inl ⟨q, ⟨by simp [Rules.rules, hq.mem], hq.isMatch, fun c hc hcm hle => ?_⟩, hlk⟩
        rcases mem_cons.mp hc with rfl | hc
        · rw [hm] at hcm
          cases hcm
        · rcases mem_append.mp hc with hc | hc
          · rw [hnn c hc] at hcm
            cases hcm
          · exact hq.max c hc hcm hle
      · refine .inr ⟨fun c hc => ?_, hlk⟩
        rcases mem_cons.mp hc with rfl | hc
        · exact hm
        · rcases mem_append.mp hc with hc | hc
          · exact hnn c hc
          · exact hnone c hc

end Vpp.Session
