import Vpp.Session.Mma

/-!
# Adding and deleting rules

What keeps the tree of rules well nested. Deleting always does. Adding does if the rule that the lookup
of the match value ends at is less specific than the new one, the children it takes over are more
specific, and nothing within the new rule is left behind it (`Fits`).
-/

namespace Vpp.Session

open Lib List

variable {w : Nat} {r c q rule : MmaRule w} {key : BitVec w} {rs a b next rest kids : Rules w}
  {cmp : MmaRule w → MmaRule w → Int}

def MmaRule.ident (r : MmaRule w) : BitVec w × BitVec w := (r.matchValue, r.mask)

theorem ruleIsExactMatch_iff : ruleIsExactMatch r c = true ↔ r.ident = c.ident := by
  simp only [ruleIsExactMatch, Bool.and_eq_true, beq_iff_eq, MmaRule.ident, Prod.mk.injEq]

theorem within_congr {c' r' : MmaRule w} (hc : c.ident = c'.ident) (hr : r.ident = r'.ident) :
    Within c r ↔ Within c' r' := by
  obtain ⟨hc1, hc2⟩ := Prod.mk.inj hc
  obtain ⟨hr1, hr2⟩ := Prod.mk.inj hr
  simp only [Within, MaskLe, ruleIsMatchForKey, hc1, hc2, hr1, hr2]

theorem within_of_ident_eq (hn : Normal c) (h : c.ident = r.ident) : Within c r :=
  (within_congr rfl h).mp (Within.refl hn)

/-! ## Vectors of rules -/

variable {p : MmaRule w → Bool}

namespace Rules

theorem rules_append : (a.append b).rules = a.rules ++ b.rules := by
  induction a with
  | nil => rfl
  | cons r next rest _ ih => simp [append, rules, ih]

theorem mem_rules_filter (h : c ∈ (rs.filter p).rules) : c ∈ rs.rules := by
  induction rs with
  | nil => exact h
  | cons r next rest _ ih =>
    simp only [filter] at h
    split at h
    · simp only [rules, mem_cons, mem_append] at h ⊢
      rcases h with h | h | h
      · exact .inl h
      · exact .inr (.inl h)
      · exact .inr (.inr (ih h))
    · simp only [rules, mem_cons, mem_append]
      exact .inr (.inr (ih h))

theorem perm_filter : rs.rules.Perm ((rs.filter p).rules ++ (rs.filter fun c => !p c).rules) := by
  induction rs with
  | nil => exact .refl _
  | cons r next rest _ ih =>
    cases hp : p r with
    | true =>
      simp only [filter, hp, if_true, rules]
      rw [cons_append, append_assoc]
      exact (ih.append_left _).cons r
    | false =>
      simp only [filter, hp, Bool.not_false, if_true, rules]
      have h1 := (ih.append_left next.rules).cons r
      refine h1.trans ?_
      have h2 := perm_append_comm_assoc (r :: next.rules) (filter p rest).rules
        (filter (fun c => !p c) rest).rules
      simpa using h2

end Rules

theorem nested_append : Nested (a.append b) ↔
    Nested a ∧ Nested b ∧ ∀ q ∈ a.rules, ∀ c ∈ b.rules, ¬ Within c q := by
  induction a with
  | nil => simp [Rules.append, Nested, Rules.rules]
  | cons r next rest _ ih =>
    simp only [Rules.append, Nested, ih, Rules.rules_append, Rules.rules, mem_cons, mem_append]
    constructor
    · rintro ⟨hin, hbehind, hnext, hrest, hb, hcross⟩
      refine ⟨⟨hin, fun q hq c hc => hbehind q hq c (.inl hc), hnext, hrest⟩, hb, ?_⟩
      rintro q (rfl | hq | hq) c hc
      · exact hbehind q (.inl rfl) c (.inr hc)
      · exact hbehind q (.inr hq) c (.inr hc)
      · exact hcross q hq c hc
    · rintro ⟨⟨hin, hbehind, hnext, hrest⟩, hb, hcross⟩
      refine ⟨hin, ?_, hnext, hrest, hb, fun q hq c hc => hcross q (.inr (.inr hq)) c hc⟩
      rintro q hq c (hc | hc)
      · exact hbehind q hq c hc
      · rcases hq with rfl | hq
        · exact hcross q (.inl rfl) c hc
        · exact hcross q (.inr (.inl hq)) c hc

theorem nested_filter (h : Nested rs) : Nested (rs.filter p) := by
  induction rs with
  | nil => trivial
  | cons r next rest _ ih =>
    obtain ⟨hin, hbehind, hnext, hrest⟩ := h
    simp only [Rules.filter]
    split
    · exact ⟨hin, fun q hq c hc => hbehind q hq c (Rules.mem_rules_filter hc), hnext, ih hrest⟩
    · exact ih hrest

theorem nested_nodup (h : Nested rs) (hn : ∀ r ∈ rs.rules, Normal r) :
    (rs.rules.map MmaRule.ident).Nodup := by
  induction rs with
  | nil => exact nodup_nil
  | cons r next rest ihn ihr =>
    obtain ⟨hin, hbehind, hnext, hrest⟩ := h
    simp only [Rules.rules, mem_cons, mem_append] at hn
    simp only [Rules.rules, map_cons, map_append, nodup_cons, nodup_append,
      mem_append, mem_map, not_or]
    refine ⟨⟨?_, ?_⟩, ihn hnext fun c hc => hn c (.inr (.inl hc)),
      ihr hrest fun c hc => hn c (.inr (.inr hc)), ?_⟩
    · rintro ⟨c, hc, hk⟩
      exact (hin c hc).2 (congrArg Prod.snd hk)
    · rintro ⟨c, hc, hk⟩
      exact hbehind r mem_cons_self c hc (within_of_ident_eq (hn c (.inr (.inr hc))) hk)
    · rintro _ ⟨q, hq, rfl⟩ _ ⟨c, hc, rfl⟩ hk
      exact hbehind q (mem_cons_of_mem _ hq) c hc
        (within_of_ident_eq (hn c (.inr (.inr hc))) hk.symm)

/-! ## The new rule among the children of its parent -/

def inFront (cmp : MmaRule w → MmaRule w → Int) (rule : MmaRule w) : Rules w → Rules w
  | .nil => .nil
  | .cons child next rest =>
    if ruleIsMatchForKey child.matchValue rule || decide (cmp rule child < 0) then .nil
    else .cons child next (inFront cmp rule rest)

def behind (cmp : MmaRule w → MmaRule w → Int) (rule : MmaRule w) : Rules w → Rules w
  | .nil => .nil
  | .cons child next rest =>
    if ruleIsMatchForKey child.matchValue rule || decide (cmp rule child < 0) then
      (Rules.cons child next rest).filter fun c => !ruleIsMatchForKey c.matchValue rule
    else behind cmp rule rest

def takenOver (rule : MmaRule w) (rs : Rules w) : Rules w :=
  rs.filter fun child => ruleIsMatchForKey child.matchValue rule

theorem replaceIn_true :
    replaceIn cmp rule kids true rs = rs.filter fun c => !ruleIsMatchForKey c.matchValue rule := by
  induction rs with
  | nil => rfl
  | cons r next rest _ ih =>
    cases hm : ruleIsMatchForKey r.matchValue rule with
    | true => simp [replaceIn, Rules.filter, hm, ih]
    | false => simp [replaceIn, Rules.filter, hm, ih]

theorem replaceIn_false :
    replaceIn cmp rule kids false rs =
      (inFront cmp rule rs).append (.cons rule kids (behind cmp rule rs)) := by
  induction rs with
  | nil => rfl
  | cons r next rest _ ih =>
    cases hm : ruleIsMatchForKey r.matchValue rule with
    | true => simp [replaceIn, inFront, behind, Rules.append, Rules.filter, hm, replaceIn_true]
    | false =>
      by_cases hc : cmp rule r < 0
      · simp [replaceIn, inFront, behind, Rules.append, Rules.filter, hm, hc, replaceIn_true]
      · simp [replaceIn, inFront, behind, Rules.append, hm, hc, ih]

theorem mem_inFront (h : c ∈ (inFront cmp rule rs).rules) : c ∈ rs.rules := by
  induction rs with
  | nil => exact h
  | cons r next rest _ ih =>
    simp only [inFront] at h
    split at h
    · cases h
    simp only [Rules.rules, mem_cons, mem_append] at h ⊢
    rcases h with h | h | h
    · exact .inl h
    · exact .inr (.inl h)
    · exact .inr (.inr (ih h))

theorem mem_behind (h : c ∈ (behind cmp rule rs).rules) : c ∈ rs.rules := by
  induction rs with
  | nil => exact h
  | cons r next rest _ ih =>
    simp only [behind] at h
    split at h
    · exact Rules.mem_rules_filter h
    · simp only [Rules.rules, mem_cons, mem_append]
      exact .inr (.inr (ih h))

theorem children_split (h : Nested rs) :
    rs.rules.Perm ((inFront cmp rule rs).rules ++ ((takenOver rule rs).rules ++
      (behind cmp rule rs).rules)) ∧
    Nested (inFront cmp rule rs) ∧ Nested (behind cmp rule rs) ∧
    ∀ q ∈ (inFront cmp rule rs).rules,
      ∀ c ∈ (takenOver rule rs).rules ++ (behind cmp rule rs).rules, ¬ Within c q := by
  induction rs with
  | nil => exact ⟨.refl _, trivial, trivial, fun _ h => nomatch h⟩
  | cons r next rest _ ih =>
    have hcons := h
    obtain ⟨hin, hbehind, hnext, hrest⟩ := h
    by_cases hpos : (ruleIsMatchForKey r.matchValue rule || decide (cmp rule r < 0)) = true
    · simp only [inFront, behind, hpos]
      exact ⟨Rules.perm_filter, trivial, nested_filter hcons, fun _ h => nomatch h⟩
    have hm : ruleIsMatchForKey r.matchValue rule = false := by
      cases hm : ruleIsMatchForKey r.matchValue rule with
      | true => simp [hm] at hpos
      | false => rfl
    obtain ⟨hperm, hf, hb, hcross⟩ := ih hrest
    have htake : takenOver rule (.cons r next rest) = takenOver rule rest := by
      simp [takenOver, Rules.filter, hm]
    have hin' : inFront cmp rule (.cons r next rest) = .cons r next (inFront cmp rule rest) := by
      simp only [inFront, if_neg hpos]
    have hbe' : behind cmp rule (.cons r next rest) = behind cmp rule rest := by
      simp only [behind, if_neg hpos]
    rw [htake, hin', hbe']
    have hmem : ∀ c ∈ (takenOver rule rest).rules ++ (behind cmp rule rest).rules, c ∈ rest.rules := by
      intro c hc
      rcases mem_append.mp hc with hc | hc
      · exact Rules.mem_rules_filter hc
      · exact mem_behind hc
    refine ⟨?_, ⟨hin, fun q hq c hc => hbehind q hq c (mem_inFront hc), hnext, hf⟩, hb, ?_⟩
    · simp only [Rules.rules]
      rw [cons_append, append_assoc]
      exact (hperm.append_left _).cons r
    intro q hq c hc
    simp only [Rules.rules, mem_cons, mem_append] at hq
    rcases hq with rfl | hq | hq
    · exact hbehind q mem_cons_self c (hmem c hc)
    · exact hbehind q (mem_cons_of_mem _ hq) c (hmem c hc)
    · exact hcross q hq c hc

def Rules.heads : Rules w → List (MmaRule w)
  | .nil => []
  | .cons r _ rest => r :: rest.heads

/-- The new rule is the parent found for it, or more specific than the parent, less specific than the children
it takes over, and nothing within it ends up behind it. -/
def FitsBelow (cmp : MmaRule w → MmaRule w → Int) (rule : MmaRule w)
    (parent : MmaRule w × Rules w) : Prop :=
  ruleIsExactMatch rule parent.1 = true ∨
    MaskLe parent.1 rule ∧
    (∀ c ∈ parent.2.heads, ruleIsMatchForKey c.matchValue rule = true → MaskLe rule c) ∧
    ∀ c ∈ (behind cmp rule parent.2).rules, ¬ Within c rule

theorem takenOver_within (h : Nested rs) (hn : ∀ c ∈ rs.rules, Normal c)
    (hno : ∀ c ∈ rs.rules, ruleIsMatchForKey rule.matchValue c = false)
    (hle : ∀ c ∈ rs.heads, ruleIsMatchForKey c.matchValue rule = true → MaskLe rule c) :
    ∀ c ∈ (takenOver rule rs).rules, Within c rule ∧ c.mask ≠ rule.mask := by
  induction rs with
  | nil => exact fun _ h => nomatch h
  | cons r next rest _ ih =>
    obtain ⟨hin, -, -, hrest⟩ := h
    simp only [Rules.rules, mem_cons, mem_append] at hn hno
    have ih' := ih hrest (fun c hc => hn c (.inr (.inr hc))) (fun c hc => hno c (.inr (.inr hc)))
      fun c hc => hle c (mem_cons_of_mem _ hc)
    cases hm : ruleIsMatchForKey r.matchValue rule with
    | false =>
      simpa only [takenOver, Rules.filter, hm, Bool.false_eq_true, if_false] using ih'
    | true =>
      have hr : Within r rule := ⟨hle r mem_cons_self hm, hm⟩
      have hmask : r.mask ≠ rule.mask := by
        intro he
        have hid := ruleIsExactMatch_iff.mp (hr.exact (hn r (.inl rfl)) he)
        have hself := hn r (.inl rfl)
        rw [Normal, show r.matchValue = rule.matchValue from congrArg Prod.fst hid,
          hno r (.inl rfl)] at hself
        cases hself
      intro c hc
      simp only [takenOver, Rules.filter, hm, if_true, Rules.rules, mem_cons, mem_append] at hc
      rcases hc with rfl | hc | hc
      · exact ⟨hr, hmask⟩
      · refine ⟨hr.trans (hin c hc).1, fun he => hmask ?_⟩
        have hge : MaskLe r rule := by
          have := (hin c hc).1.1
          rwa [MaskLe, he] at this
        exact (hge.antisymm hr.1)
      · exact ih' c hc

theorem addBelow_insert {parent : MmaRule w} (hrule : Normal rule)
    (hin : ∀ c ∈ next.rules, Within c parent ∧ c.mask ≠ parent.mask) (hnext : Nested next)
    (hn : ∀ c ∈ next.rules, Normal c)
    (hno : ∀ c ∈ next.rules, ruleIsMatchForKey rule.matchValue c = false)
    (hpm : ruleIsMatchForKey rule.matchValue parent = true)
    (hex : ruleIsExactMatch rule parent = false) (hfit : FitsBelow cmp rule (parent, next)) :
    ∃ next', addBelow cmp rule (parent, next) = ((parent, next'), 0) ∧ Nested next' ∧
      (∀ c ∈ next'.rules, Within c parent ∧ c.mask ≠ parent.mask) ∧
      next'.rules.Perm (rule :: next.rules) := by
  obtain ⟨hle, htake, hbehind⟩ := hfit.resolve_left (by rw [hex]; exact Bool.false_ne_true)
  have heq : addBelow cmp rule (parent, next) = ((parent,
      (inFront cmp rule next).append (.cons rule (takenOver rule next) (behind cmp rule next))), 0) := by
    rw [addBelow, hex, ← replaceIn_false]
    cases next with
    | nil => rfl
    | cons r n rest => rfl
  obtain ⟨hperm, hf, hb, hcross⟩ := children_split hnext
  have hkids := takenOver_within hnext hn hno htake
  have hrp : Within rule parent := ⟨hle, hpm⟩
  have hperm' : ((inFront cmp rule next).append (.cons rule (takenOver rule next)
      (behind cmp rule next))).rules.Perm (rule :: next.rules) := by
    rw [Rules.rules_append]
    exact perm_middle.trans (hperm.symm.cons rule)
  refine ⟨_, heq, ?_, fun c hc => ?_, hperm'⟩
  · refine nested_append.mpr ⟨hf, ⟨hkids, ?_, nested_filter hnext, hb⟩, ?_⟩
    · intro q hq c hc hcq
      rcases mem_cons.mp hq with rfl | hq
      · exact hbehind c hc hcq
      · exact hbehind c hc ((hkids q hq).1.trans hcq)
    · intro q hq c hc
      simp only [Rules.rules, mem_cons] at hc
      rcases hc with rfl | hc
      · intro hw
        have := hno q (mem_inFront hq)
        rw [hw.2] at this
        cases this
      · exact hcross q hq c hc
  · rcases mem_cons.mp (hperm'.mem_iff.mp hc) with rfl | hc
    · refine ⟨hrp, fun he => ?_⟩
      rw [hrp.exact hrule he] at hex
      cases hex
    · exact hin c hc

/-! ## The new rule in the tree -/

theorem lookupRuleIn_eq_none : lookupRuleIn key rs = none ↔
    ∀ c ∈ rs.heads, ruleIsMatchForKey key c = false := by
  induction rs with
  | nil => exact ⟨(fun _ _ h => nomatch h), fun _ => rfl⟩
  | cons r next rest _ ih =>
    simp only [lookupRuleIn, Rules.heads, mem_cons, forall_eq_or_imp]
    cases hm : ruleIsMatchForKey key r with
    | true => simp
    | false => simpa using ih

theorem modifyIn_eq_none {f : MmaRule w × Rules w → (MmaRule w × Rules w) × Int} :
    modifyIn key f rs = none ↔ lookupRuleIn key rs = none := by
  induction rs with
  | nil => exact ⟨fun _ => rfl, fun _ => rfl⟩
  | cons r next rest _ ih =>
    simp only [modifyIn, lookupRuleIn]
    cases hm : ruleIsMatchForKey key r with
    | true =>
      cases modifyIn key f next with
      | none => simp
      | some p => simp
    | false => simpa using ih

theorem not_matches_below (h : Nested rs) (hno : ∀ c ∈ rs.heads, ruleIsMatchForKey key c = false) :
    ∀ c ∈ rs.rules, ruleIsMatchForKey key c = false := by
  induction rs with
  | nil => exact fun _ h => nomatch h
  | cons r next rest _ ih =>
    obtain ⟨hin, -, -, hrest⟩ := h
    have hr := hno r mem_cons_self
    intro c hc
    simp only [Rules.rules, mem_cons, mem_append] at hc
    rcases hc with rfl | hc | hc
    · exact hr
    · exact not_matches_of_within (fun c hc => (hin c hc).1) hr c hc
    · exact ih hrest (fun c hc => hno c (mem_cons_of_mem _ hc)) c hc

variable {parent : MmaRule w × Rules w} {f : MmaRule w → MmaRule w}

theorem lookupRuleIn_mem (h : lookupRuleIn key rs = some parent) : parent.1 ∈ rs.rules := by
  induction rs generalizing parent with
  | nil => cases h
  | cons r next rest ihn ihr =>
    simp only [lookupRuleIn] at h
    simp only [Rules.rules, mem_cons, mem_append]
    split at h
    · obtain rfl := Option.some.inj h
      cases hl : lookupRuleIn key next with
      | none => exact .inl rfl
      | some p => exact .inr (.inl (ihn hl))
    · exact .inr (.inr (ihr h))

/-- **Insertion.** A rule that fits below the parent found for it leaves the tree well nested. -/
theorem modifyIn_insert (hrule : Normal rule) (h : Nested rs)
    (hn : ∀ c ∈ rs.rules, Normal c) (hfound : lookupRuleIn rule.matchValue rs = some parent)
    (hex : ruleIsExactMatch rule parent.1 = false) (hfit : FitsBelow cmp rule parent) :
    ∃ rs', modifyIn rule.matchValue (addBelow cmp rule) rs = some (rs', 0) ∧ Nested rs' ∧
      rs'.rules.Perm (rule :: rs.rules) := by
  induction rs with
  | nil => cases hfound
  | cons r next rest ihn ihr =>
    obtain ⟨hin, hbehind, hnext, hrest⟩ := h
    simp only [Rules.rules, mem_cons, mem_append] at hn
    have hmask : MaskLe parent.1 rule :=
      (hfit.resolve_left (by rw [hex]; exact Bool.false_ne_true)).1
    -- the new rule among the children of `r`
    have hjoin : ∀ next', (∀ c ∈ next'.rules, Within c r ∧ c.mask ≠ r.mask) → Nested next' →
        next'.rules.Perm (rule :: next.rules) → Nested (.cons r next' rest) ∧
          (Rules.cons r next' rest).rules.Perm (rule :: (Rules.cons r next rest).rules) := by
      intro next' hin' hnested hperm
      refine ⟨⟨hin', fun q hq c hc hcq => ?_, hnested, hrest⟩, ?_⟩
      · rcases mem_cons.mp hq with rfl | hq
        · exact hbehind q mem_cons_self c hc hcq
        · exact hbehind r mem_cons_self c hc ((hin' q hq).1.trans hcq)
      · exact ((hperm.append_right _).cons r).trans (List.Perm.swap rule r _)
    cases hm : ruleIsMatchForKey rule.matchValue r with
    | true =>
      simp only [lookupRuleIn, hm, if_true, Option.some.injEq] at hfound
      cases hl : lookupRuleIn rule.matchValue next with
      | none =>
        rw [hl] at hfound
        obtain rfl := hfound
        have hno := not_matches_below hnext (lookupRuleIn_eq_none.mp hl)
        obtain ⟨next', hadd, hnested, hin', hperm⟩ := addBelow_insert hrule hin hnext
          (fun c hc => hn c (.inr (.inl hc))) hno hm hex hfit
        refine ⟨.cons r next' rest, ?_, hjoin next' hin' hnested hperm⟩
        simp only [modifyIn, hm, if_true, modifyIn_eq_none.mpr hl, hadd]
      | some p =>
        rw [hl] at hfound
        obtain rfl := hfound
        obtain ⟨next', hmod, hnested, hperm⟩ := ihn hnext (fun c hc => hn c (.inr (.inl hc))) hl
        -- the parent is within `r`, so `r` is less specific than the new rule
        have hpr := hin p.1 (lookupRuleIn_mem hl)
        have hrr : Within rule r := ⟨hpr.1.1.trans hmask, hm⟩
        have hne : rule.mask ≠ r.mask := by
          intro he
          apply hpr.2
          have : MaskLe p.1 r := by rwa [MaskLe, he] at hmask
          exact this.antisymm hpr.1.1
        have hin' : ∀ c ∈ next'.rules, Within c r ∧ c.mask ≠ r.mask := by
          intro c hc
          rcases mem_cons.mp (hperm.mem_iff.mp hc) with rfl | hc
          · exact ⟨hrr, hne⟩
          · exact hin c hc
        refine ⟨.cons r next' rest, ?_, hjoin next' hin' hnested hperm⟩
        simp only [modifyIn, hm, if_true, hmod]
    | false =>
      simp only [lookupRuleIn, hm] at hfound
      obtain ⟨rest', hmod, hnested, hperm⟩ := ihr hrest (fun c hc => hn c (.inr (.inr hc))) hfound
      refine ⟨.cons r next rest', ?_, ⟨hin, ?_, hnext, hnested⟩, ?_⟩
      · simp only [modifyIn, hm, Bool.false_eq_true, if_false, hmod, Option.map_some]
      · intro q hq c hc hcq
        rcases mem_cons.mp (hperm.mem_iff.mp hc) with rfl | hc
        · have hqr : ruleIsMatchForKey c.matchValue r = true := by
            rcases mem_cons.mp hq with rfl | hq
            · exact hcq.2
            · exact (hin q hq).1.isMatch hcq.2
          rw [hm] at hqr
          cases hqr
        · exact hbehind q hq c hc hcq
      · refine ((hperm.append_left _).cons r).trans ?_
        refine (perm_middle.cons r).trans ?_
        exact List.Perm.swap rule r _

/-! ## A rule that is there already -/

def Rules.map (f : MmaRule w → MmaRule w) : Rules w → Rules w
  | .nil => .nil
  | .cons r next rest => .cons (f r) (next.map f) (rest.map f)

theorem Rules.rules_map : (rs.map f).rules = rs.rules.map f := by
  induction rs with
  | nil => rfl
  | cons r next rest ihn ihr => simp [Rules.map, rules, ihn, ihr]

theorem Rules.map_eq_self (h : ∀ c ∈ rs.rules, f c = c) : rs.map f = rs := by
  induction rs with
  | nil => rfl
  | cons r next rest ihn ihr =>
    simp only [rules, mem_cons, mem_append] at h
    rw [Rules.map, h r (.inl rfl), ihn fun c hc => h c (.inr (.inl hc)),
      ihr fun c hc => h c (.inr (.inr hc))]

theorem nested_map (hf : ∀ r, (f r).ident = r.ident) (h : Nested rs) : Nested (rs.map f) := by
  induction rs with
  | nil => trivial
  | cons r next rest ihn ihr =>
    obtain ⟨hin, hbehind, hnext, hrest⟩ := h
    have hmask : ∀ r, (f r).mask = r.mask := fun r => congrArg Prod.snd (hf r)
    refine ⟨?_, ?_, ihn hnext, ihr hrest⟩
    · intro c hc
      rw [Rules.rules_map] at hc
      obtain ⟨d, hd, rfl⟩ := mem_map.mp hc
      rw [within_congr (hf d) (hf r), hmask, hmask]
      exact hin d hd
    · intro q hq c hc
      rw [Rules.rules_map] at hc
      obtain ⟨d, hd, rfl⟩ := mem_map.mp hc
      rw [Rules.rules_map, ← map_cons] at hq
      obtain ⟨p, hp, rfl⟩ := mem_map.mp hq
      rw [within_congr (hf d) (hf p)]
      exact hbehind p hp d hd

/-- The rule with the action of `rule`, if it is the same rule. -/
def setAction (rule r : MmaRule w) : MmaRule w :=
  if r.ident = rule.ident then { r with actionIndex := rule.actionIndex } else r

theorem ident_setAction (rule r : MmaRule w) : (setAction rule r).ident = r.ident := by
  unfold setAction
  split <;> rfl

theorem modifyIn_exact (h : Nested rs) (hn : ∀ c ∈ rs.rules, Normal c)
    (hfound : lookupRuleIn rule.matchValue rs = some parent)
    (hex : ruleIsExactMatch rule parent.1 = true) :
    modifyIn rule.matchValue (addBelow cmp rule) rs = some (rs.map (setAction rule), -1) := by
  have hid := ruleIsExactMatch_iff.mp hex
  induction rs with
  | nil => cases hfound
  | cons r next rest ihn ihr =>
    obtain ⟨hin, hbehind, hnext, hrest⟩ := h
    simp only [Rules.rules, mem_cons, mem_append] at hn
    have hother : ∀ rs : Rules w, (∀ c ∈ rs.rules, c.ident ≠ rule.ident) →
        rs.map (setAction rule) = rs := fun rs hrs =>
      Rules.map_eq_self fun c hc => if_neg (hrs c hc)
    cases hm : ruleIsMatchForKey rule.matchValue r with
    | true =>
      simp only [lookupRuleIn, hm, if_true, Option.some.injEq] at hfound
      -- the rule found is not behind `r`
      have hrest' : ∀ q ∈ r :: next.rules, q.ident = rule.ident → rest.map (setAction rule) = rest :=
        fun q hq hqid => hother rest fun c hc hcid =>
          hbehind q hq c hc (within_of_ident_eq (hn c (.inr (.inr hc))) (hcid.trans hqid.symm))
      cases hl : lookupRuleIn rule.matchValue next with
      | none =>
        rw [hl] at hfound
        obtain rfl := hfound
        have hnext' : next.map (setAction rule) = next := hother next fun c hc hcid =>
          (hin c hc).2 (congrArg Prod.snd (hcid.trans hid))
        have hadd : addBelow cmp rule (r, next) =
            (({ r with actionIndex := rule.actionIndex }, next), -1) := if_pos hex
        have hr' : setAction rule r = { r with actionIndex := rule.actionIndex } := if_pos hid.symm
        simp only [modifyIn, hm, if_true, modifyIn_eq_none.mpr hl, hadd, Rules.map, hr', hnext',
          hrest' r mem_cons_self hid.symm]
      | some p =>
        rw [hl] at hfound
        obtain rfl := hfound
        have hp := lookupRuleIn_mem hl
        have hr' : setAction rule r = r := by
          refine if_neg fun hrid => (hin p.1 hp).2 ?_
          exact congrArg Prod.snd (hid.symm.trans hrid.symm)
        simp only [modifyIn, hm, if_true, ihn hnext (fun c hc => hn c (.inr (.inl hc))) hl, Rules.map,
          hr', hrest' p.1 (mem_cons_of_mem _ hp) hid.symm]
    | false =>
      simp only [lookupRuleIn, hm] at hfound
      have hp := lookupRuleIn_mem hfound
      have hnot : ∀ q ∈ r :: next.rules, q.ident ≠ rule.ident := by
        intro q hq hqid
        exact hbehind q hq parent.1 hp
          (within_of_ident_eq (hn _ (.inr (.inr hp))) (hid.symm.trans hqid.symm))
      simp only [modifyIn, hm, Bool.false_eq_true, if_false,
        ihr hrest (fun c hc => hn c (.inr (.inr hc))) hfound, Option.map_some, Rules.map,
        hother next fun q hq => hnot q (mem_cons_of_mem _ hq)]
      rw [setAction, if_neg (hnot r mem_cons_self)]

/-! ## Deleting -/

/-- A rule that is there is found, and without it the tree is well nested. -/
def DeletesIn (rule : MmaRule w) (rs : Rules w) : Prop :=
  (∃ x ∈ rs.rules, x.ident = rule.ident ∧ ∃ rs', delIn rule rs = some rs' ∧ Nested rs' ∧
      rs.rules.Perm (x :: rs'.rules)) ∨
    (∀ x ∈ rs.rules, x.ident ≠ rule.ident) ∧ delIn rule rs = none

/-- **Deletion.** -/
theorem delIn_spec (h : Nested rs) (hn : ∀ c ∈ rs.rules, Normal c) (rule : MmaRule w) :
    DeletesIn rule rs := by
  induction rs with
  | nil => exact .inr ⟨(fun _ h => nomatch h), rfl⟩
  | cons r next rest ihn ihr =>
    obtain ⟨hin, hbehind, hnext, hrest⟩ := h
    simp only [Rules.rules, mem_cons, mem_append] at hn
    have ihr' := ihr hrest fun c hc => hn c (.inr (.inr hc))
    -- going on behind `r`
    have hgo : (∀ x ∈ r :: next.rules, x.ident ≠ rule.ident) →
        delIn rule (.cons r next rest) = (delIn rule rest).map (fun rest' => .cons r next rest') →
        DeletesIn rule (.cons r next rest) := by
      intro hnot hdel
      rw [DeletesIn, hdel]
      rcases ihr' with ⟨x, hx, hid, rest', hd, hnested, hperm⟩ | ⟨hnone, hd⟩
      · refine .inl ⟨x, by simp [Rules.rules, hx], hid, .cons r next rest', by rw [hd]; rfl,
          ⟨hin, fun q hq c hc => hbehind q hq c ?_, hnext, hnested⟩, ?_⟩
        · exact hperm.mem_iff.mpr (mem_cons_of_mem _ hc)
        · refine ((hperm.append_left _).cons r).trans ?_
          exact (perm_middle.cons r).trans (List.Perm.swap x r _)
      · refine .inr ⟨fun x hx => ?_, by rw [hd]; rfl⟩
        simp only [Rules.rules, mem_cons, mem_append] at hx
        rcases hx with rfl | hx | hx
        · exact hnot x mem_cons_self
        · exact hnot x (mem_cons_of_mem _ hx)
        · exact hnone x hx
    cases hm : ruleIsMatchForKey rule.matchValue r with
    | false =>
      refine hgo (fun x hx hid => ?_) (by simp only [delIn, hm, Bool.false_eq_true, if_false])
      have hxn : Normal x := by
        rcases mem_cons.mp hx with rfl | hx
        · exact hn x (.inl rfl)
        · exact hn x (.inr (.inl hx))
      have : ruleIsMatchForKey x.matchValue r = true := by
        rcases mem_cons.mp hx with rfl | hx
        · exact hxn
        · exact (hin x hx).1.2
      rw [show x.matchValue = rule.matchValue from congrArg Prod.fst hid, hm] at this
      cases this
    | true =>
      cases hex : ruleIsExactMatch rule r with
      | true =>
        have hid := ruleIsExactMatch_iff.mp hex
        refine .inl ⟨r, mem_cons_self, hid.symm, next.append rest, by simp [delIn, hm, hex], ?_, ?_⟩
        · exact nested_append.mpr ⟨hnext, hrest, fun q hq => hbehind q (mem_cons_of_mem _ hq)⟩
        · rw [Rules.rules_append]
          exact .refl _
      | false =>
        rcases ihn hnext (fun c hc => hn c (.inr (.inl hc))) with
          ⟨x, hx, hid, next', hd, hnested, hperm⟩ | ⟨hnone, hd⟩
        · refine .inl ⟨x, by simp [Rules.rules, hx], hid, .cons r next' rest,
            by simp [delIn, hm, hex, hd], ⟨fun c hc => hin c ?_, fun q hq c hc => hbehind q ?_ c hc,
            hnested, hrest⟩, ?_⟩
          · exact hperm.mem_iff.mpr (mem_cons_of_mem _ hc)
          · rcases mem_cons.mp hq with rfl | hq
            · exact mem_cons_self
            · exact mem_cons_of_mem _ (hperm.mem_iff.mpr (mem_cons_of_mem _ hq))
          · refine ((hperm.append_right _).cons r).trans ?_
            exact List.Perm.swap x r _
        · refine hgo (fun x hx hid => ?_) (by simp [delIn, hex, hd])
          rcases mem_cons.mp hx with rfl | hx
          · rw [ruleIsExactMatch_iff.mpr hid.symm] at hex
            cases hex
          · exact hnone x hx hid

end Vpp.Session
