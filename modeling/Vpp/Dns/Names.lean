import Vpp.Lib.Loop
import Vpp.Lib.Wire

/-!
# Names in DNS responses

A name is a list of labels, each with its length in front, and ends with an empty label; a pointer goes on
elsewhere in the response. `vnet_dns_labels_to_name` copies a name, and the two functions that read a
response skip names. None of them looks at the length of the response or counts the pointers it follows:
they come to an end inside the response exactly if the name nowhere leads out of it or back to itself.
-/

namespace Vpp.Dns

open Lib Relation

abbrev Byte := BitVec 8

/-- A byte outside the response was read. -/
inductive Fault
  | outside
deriving DecidableEq, Repr

def read (response : List Byte) (p : Nat) : Except Fault Byte :=
  match response[p]? with
  | some b => .ok b
  | none => .error .outside

def readBytes (response : List Byte) (p : Nat) : Nat → Except Fault (List Byte)
  | 0 => .ok []
  | k + 1 => do
    let b ← read response p
    let bytes ← readBytes response (p + 1) k
    return b :: bytes

def isPointer (b : Byte) : Bool := b &&& 0xc0 == 0xc0

def pointerTarget (b c : Byte) : Nat := (b &&& 0x3f).toNat * 256 + c.toNat

/-- Where a name goes on from `p`, and what follows the pointer if there is one. -/
def chase (response : List Byte) (p : Nat) : Except Fault (Nat × Option Nat) := do
  let b ← read response p
  if isPointer b then
    let c ← read response (p + 1)
    return (pointerTarget b c, some (p + 2))
  else return (p, none)

def runFrom {S A : Type} (start : Except Fault S) (body : S → Except Fault (S ⊕ A)) (fuel : Nat) :
    Option (Except Fault A) :=
  match start with
  | .error e => some (.error e)
  | .ok s => loop body fuel s

/-! ## `vnet_dns_labels_to_name` -/

structure LabelsState where
  label : Nat
  len : Byte
  reply : List Byte
  parseFromHere : Option Nat
deriving DecidableEq, Repr

def dot : Byte := 0x2e

/-- `while (len)`; the result is the name and `parse_from_here`. -/
def labelsStep (response : List Byte) (s : LabelsState) :
    Except Fault (LabelsState ⊕ (List Byte × Nat)) :=
  if s.len = 0 then .ok (.inr (s.reply, s.parseFromHere.getD s.label))
  else do
    let bytes ← readBytes response s.label s.len.toNat
    let (label, behind) ← chase response (s.label + s.len.toNat)
    let len ← read response label
    return .inl
      { label := label + 1
        len := len
        reply := s.reply ++ bytes ++ if len ≠ 0 then [dot] else []
        parseFromHere := behind.or s.parseFromHere }

def vnetDnsLabelsToName (response : List Byte) (label fuel : Nat) :
    Option (Except Fault (List Byte × Nat)) :=
  let start : Except Fault LabelsState := do
    let (label, behind) ← chase response label
    let len ← read response label
    return ⟨label + 1, len, [], behind⟩
  runFrom start (labelsStep response) fuel

/-! ## The loops of `vnet_dns_response_to_reply` and `vnet_dns_response_to_name` -/

structure QuestionState where
  pos : Nat
  len : Byte
deriving DecidableEq, Repr

def questionStep (response : List Byte) (s : QuestionState) : Except Fault (QuestionState ⊕ Nat) :=
  if s.len = 0 then .ok (.inr s.pos)
  else do
    let len ← read response (s.pos + s.len.toNat)
    return .inl ⟨s.pos + s.len.toNat + 1, len⟩

def skipQuestionName (response : List Byte) (curpos fuel : Nat) : Option (Except Fault Nat) :=
  match read response curpos with
  | .error e => some (.error e)
  | .ok len =>
    if isPointer len then some (.ok (curpos + 2))
    else loop (questionStep response) fuel ⟨curpos + 1, len⟩

structure AnswerState where
  pos : Nat
  pos2 : Nat
  len : Byte
  pointerChase : Bool
deriving DecidableEq, Repr

/-- If a pointer was followed before, `pos` stays. -/
def answerStep (response : List Byte) (s : AnswerState) : Except Fault (AnswerState ⊕ Nat) :=
  if s.len = 0 then .ok (.inr (if s.pointerChase then s.pos else s.pos2))
  else do
    let (pos2, behind) ← chase response (s.pos2 + s.len.toNat)
    let len ← read response pos2
    return .inl
      { pos := if s.pointerChase then s.pos else behind.getD s.pos
        pos2 := pos2 + 1
        len := len
        pointerChase := s.pointerChase || behind.isSome }

def skipAnswerName (response : List Byte) (curpos fuel : Nat) : Option (Except Fault Nat) :=
  let start : Except Fault AnswerState := do
    let (pos2, behind) ← chase response curpos
    let len ← read response pos2
    return ⟨behind.getD curpos, pos2 + 1, len, behind.isSome⟩
  runFrom start (answerStep response) fuel

/-! ## Names that end -/

/-- The octet at `p` is a length if it is below 192; otherwise it is, with the next one, a pointer to the length at
an offset of 14 bits. -/
def Jump (response : List Byte) (p q : Nat) : Prop :=
  ∃ b, response[p]? = some b ∧ (b.toNat < 192 ∧ q = p ∨
    192 ≤ b.toNat ∧ ∃ c, response[p + 1]? = some c ∧ q = (b.toNat - 192) * 256 + c.toNat)

/-- The length at `p` is followed by the length at `q`, to which `goes` leads from the end of the label. -/
def Leads (response : List Byte) (goes : Nat → Nat → Prop) (p q : Nat) : Prop :=
  ∃ len, response[p]? = some len ∧ len ≠ 0 ∧ goes (p + 1 + len.toNat) q

/-- Every length that the name at `s` comes to is in the response, and if it is not the last one so is what
follows its label; and no length leads back to itself. -/
structure Clean (response : List Byte) (goes : Nat → Nat → Prop) (s : Nat) : Prop where
  inside : ∀ q, ReflTransGen (Leads response goes) s q →
    ∃ len, response[q]? = some len ∧ (len ≠ 0 → ∃ r, goes (q + 1 + len.toNat) r)
  noLoop : ∀ q, ReflTransGen (Leads response goes) s q → ¬ TransGen (Leads response goes) q q

/-- A clean name at `p`, or where a pointer at `p` leads. What a pointer leads to is taken for a length. -/
def NameAt (response : List Byte) (p : Nat) : Prop :=
  ∃ s, Jump response p s ∧ Clean response (Jump response) s

/-- A name that was asked about: one pointer, or labels without any that do not lead out of the response. -/
def QuestionAt (response : List Byte) (p : Nat) : Prop :=
  ∃ len, response[p]? = some len ∧ (192 ≤ len.toNat ∨
    ∀ q, ReflTransGen (Leads response Eq) p q → q < response.length)

variable {response : List Byte} {p t : Nat} {b : Byte}

/-! ### Reads -/

theorem read_eq_ok : read response p = .ok b ↔ response[p]? = some b := by
  unfold read
  cases response[p]? with
  | none => simp
  | some c => simp

theorem exists_readBytes {k : Nat} (h : p + k ≤ response.length) :
    ∃ bytes, readBytes response p k = .ok bytes := by
  induction k generalizing p with
  | zero => exact ⟨[], rfl⟩
  | succ k ih =>
    obtain ⟨bytes, hbytes⟩ := ih (p := p + 1) (by omega)
    have hread : read response p = .ok response[p] := read_eq_ok.mpr (List.getElem?_eq_getElem (by omega))
    exact ⟨response[p] :: bytes, by rw [readBytes, hread, hbytes]; rfl⟩

theorem isPointer_iff : ∀ b : Byte, isPointer b = true ↔ 192 ≤ b.toNat := by decide +kernel

theorem pointerTarget_eq (c : Byte) : ∀ b : Byte, 192 ≤ b.toNat →
    pointerTarget b c = (b.toNat - 192) * 256 + c.toNat := by
  have hlow : ∀ b : Byte, 192 ≤ b.toNat → (b &&& 0x3f).toNat = b.toNat - 192 := by decide +kernel
  intro b hb
  rw [pointerTarget, hlow b hb]

theorem exists_chase_iff : (∃ behind, chase response p = .ok (t, behind)) ↔ Jump response p t := by
  unfold chase Jump
  simp only [bind_eq_ok, read_eq_ok]
  rw [exists_comm]
  refine exists_congr fun b => ?_
  by_cases hb : isPointer b = true
  · have h192 := (isPointer_iff b).mp hb
    simp only [hb, if_true, bind_eq_ok, read_eq_ok, pointerTarget_eq _ b h192, pure, Except.pure,
      Except.ok.injEq, Prod.mk.injEq, Nat.not_lt.mpr h192, h192, false_and, true_and, false_or]
    constructor
    · rintro ⟨_, hread, c, hc, rfl, -⟩
      exact ⟨hread, c, hc, rfl⟩
    · rintro ⟨hread, c, hc, rfl⟩
      exact ⟨_, hread, c, hc, rfl, rfl⟩
  · have h192 : ¬ 192 ≤ b.toNat := fun h => hb ((isPointer_iff b).mpr h)
    simp only [hb, if_false, Bool.false_eq_true, pure, Except.pure, Except.ok.injEq, Prod.mk.injEq,
      Nat.not_le.mp h192, h192, false_and, true_and, or_false]
    constructor
    · rintro ⟨_, hread, rfl, -⟩
      exact ⟨hread, rfl⟩
    · rintro ⟨hread, rfl⟩
      exact ⟨none, hread, rfl, rfl⟩

theorem Jump.lt_length (h : Jump response p t) : p < response.length := by
  obtain ⟨b, hb, -⟩ := h
  exact (List.getElem?_eq_some_iff.mp hb).1

theorem Jump.unique {t' : Nat} (h : Jump response p t) (h' : Jump response p t') : t = t' := by
  obtain ⟨b, hb, h⟩ := h
  obtain ⟨b', hb', h'⟩ := h'
  obtain rfl := Option.some.inj (hb.symm.trans hb')
  rcases h with ⟨hlt, rfl⟩ | ⟨hge, c, hc, rfl⟩ <;> rcases h' with ⟨hlt', rfl⟩ | ⟨hge', c', hc', rfl⟩
  · rfl
  · omega
  · omega
  · rw [Option.some.inj (hc.symm.trans hc')]

/-! ### Loops over labels -/

/-- A loop that goes from length to length; `pos` and `len` are where it is. -/
structure WalksLabels {S A : Type} (response : List Byte) (goes : Nat → Nat → Prop)
    (body : S → Except Fault (S ⊕ A)) (pos : S → Nat) (len : S → Byte) : Prop where
  unique : ∀ p q q', goes p q → goes p q' → q = q'
  stops : ∀ s, len s = 0 → ∃ a, body s = .ok (.inr a)
  stop : ∀ s a, body s = .ok (.inr a) → len s = 0
  turns : ∀ s q next, len s ≠ 0 → goes (pos s + (len s).toNat) q → response[q]? = some next →
    ∃ t, body s = .ok (.inl t) ∧ pos t = q + 1 ∧ len t = next
  turn : ∀ s t, body s = .ok (.inl t) → len s ≠ 0 ∧ ∃ q, goes (pos s + (len s).toNat) q ∧
    response[q]? = some (len t) ∧ pos t = q + 1

variable {S A : Type} {body : S → Except Fault (S ⊕ A)}

section Walk

variable {goes : Nat → Nat → Prop} {pos : S → Nat} {len : S → Byte} {q : Nat}
  (h : WalksLabels response goes body pos len)
include h

theorem WalksLabels.returns_iff_acc (s : S) (hpos : pos s = q + 1) (hlen : response[q]? = some (len s)) :
    (∃ a, Returns body s a) ↔ Acc (Function.swap (Leads response goes)) q ∧
      ∀ r, ReflTransGen (Leads response goes) q r →
        ∃ len, response[r]? = some len ∧ (len ≠ 0 → ∃ t, goes (r + 1 + len.toNat) t) := by
  constructor
  · rintro ⟨a, hret⟩
    induction hret generalizing q with
    | @stop s a hs =>
      -- the last length leads nowhere
      have hzero := h.stop _ _ hs
      have hnone : ∀ r, ¬ Leads response goes q r := by
        rintro r ⟨n, hn, hne, -⟩
        rw [hlen] at hn
        exact hne (Option.some.inj hn ▸ hzero)
      refine ⟨.intro q fun r hr => absurd hr (hnone r), fun r hr => ?_⟩
      rcases hr.cases_head with rfl | ⟨r', hr', -⟩
      · exact ⟨_, hlen, fun hne => absurd hzero hne⟩
      · exact absurd hr' (hnone r')
    | @turn s t a hs _ ih =>
      obtain ⟨hne, q', hgoes, hread, hpos'⟩ := h.turn _ _ hs
      rw [hpos] at hgoes
      obtain ⟨hacc, hinside⟩ := ih hpos' hread
      have honly : ∀ r, Leads response goes q r → r = q' := by
        rintro r ⟨n, hn, -, hr⟩
        rw [hlen] at hn
        exact h.unique _ _ _ (Option.some.inj hn ▸ hr) hgoes
      refine ⟨.intro q fun r hr => honly r hr ▸ hacc, fun r hr => ?_⟩
      rcases hr.cases_head with rfl | ⟨r', hr', hrest⟩
      · exact ⟨_, hlen, fun _ => ⟨q', hgoes⟩⟩
      · exact hinside r (honly r' hr' ▸ hrest)
  · rintro ⟨hacc, hinside⟩
    induction hacc generalizing s with
    | intro q _ ih =>
      by_cases hzero : len s = 0
      · obtain ⟨a, ha⟩ := h.stops s hzero
        exact ⟨a, .stop ha⟩
      obtain ⟨n, hn, hgoes⟩ := hinside q .refl
      obtain rfl := Option.some.inj (hlen.symm.trans hn)
      obtain ⟨r, hr⟩ := hgoes hzero
      have hlead : Leads response goes q r := ⟨_, hlen, hzero, hr⟩
      obtain ⟨next, hnext, -⟩ := hinside r (.single hlead)
      obtain ⟨t, hstep, hpos', rfl⟩ := h.turns s r next hzero (hpos ▸ hr) hnext
      obtain ⟨a, ha⟩ := ih r hlead t hpos' hnext fun r' hr' => hinside r' (.head hlead hr')
      exact ⟨a, .turn hstep ha⟩

theorem WalksLabels.returns_iff (s : S) (hpos : pos s = q + 1) (hlen : response[q]? = some (len s)) :
    (∃ a, Returns body s a) ↔ Clean response goes q := by
  rw [h.returns_iff_acc s hpos hlen]
  have hacc (hinside : ∀ r, ReflTransGen (Leads response goes) q r →
      ∃ len, response[r]? = some len ∧ (len ≠ 0 → ∃ t, goes (r + 1 + len.toNat) t)) :=
    @acc_iff_acyclic _ (Leads response goes) q ((Set.finite_lt_nat response.length).subset fun r hr => by
      obtain ⟨len, hlen, -⟩ := hinside r hr
      exact (List.getElem?_eq_some_iff.mp hlen).1)
  exact ⟨fun ⟨ha, hi⟩ => ⟨hi, (hacc hi).mp ha⟩, fun hc => ⟨(hacc hc.inside).mpr hc.noLoop, hc.inside⟩⟩

end Walk

theorem walksLabels_labelsStep : WalksLabels response (Jump response) (labelsStep response)
    LabelsState.label LabelsState.len where
  unique _ _ _ := Jump.unique
  stops s h := ⟨_, if_pos h⟩
  stop s a h := by
    unfold labelsStep at h
    split at h
    · assumption
    · simp only [bind_eq_ok] at h
      obtain ⟨_, _, ⟨_, _⟩, _, _, _, h⟩ := h
      cases h
  turns s q next hlen hq hread := by
    obtain ⟨behind, hchase⟩ := exists_chase_iff.mpr hq
    obtain ⟨bytes, hbytes⟩ := @exists_readBytes response s.label s.len.toNat
      (Nat.le_of_lt hq.lt_length)
    unfold labelsStep
    rw [if_neg hlen, hbytes]
    simp only [bind, Except.bind, hchase, read_eq_ok.mpr hread]
    exact ⟨_, rfl, rfl, rfl⟩
  turn s t h := by
    unfold labelsStep at h
    split at h
    · cases h
    rename_i hlen
    simp only [bind_eq_ok] at h
    obtain ⟨bytes, -, ⟨q, behind⟩, hchase, len, hread, h⟩ := h
    obtain rfl : _ = t := Sum.inl.inj (Except.ok.inj h)
    exact ⟨hlen, q, exists_chase_iff.mp ⟨behind, hchase⟩, read_eq_ok.mp hread, rfl⟩

theorem walksLabels_answerStep : WalksLabels response (Jump response) (answerStep response)
    AnswerState.pos2 AnswerState.len where
  unique _ _ _ := Jump.unique
  stops s h := ⟨_, if_pos h⟩
  stop s a h := by
    unfold answerStep at h
    split at h
    · assumption
    · simp only [bind_eq_ok] at h
      obtain ⟨⟨_, _⟩, _, _, _, h⟩ := h
      cases h
  turns s q next hlen hq hread := by
    obtain ⟨behind, hchase⟩ := exists_chase_iff.mpr hq
    unfold answerStep
    rw [if_neg hlen]
    simp only [bind, Except.bind, hchase, read_eq_ok.mpr hread]
    exact ⟨_, rfl, rfl, rfl⟩
  turn s t h := by
    unfold answerStep at h
    split at h
    · cases h
    rename_i hlen
    simp only [bind_eq_ok] at h
    obtain ⟨⟨q, behind⟩, hchase, len, hread, h⟩ := h
    obtain rfl : _ = t := Sum.inl.inj (Except.ok.inj h)
    exact ⟨hlen, q, exists_chase_iff.mp ⟨behind, hchase⟩, read_eq_ok.mp hread, rfl⟩

theorem walksLabels_questionStep : WalksLabels response Eq (questionStep response)
    QuestionState.pos QuestionState.len where
  unique _ _ _ h h' := h.symm.trans h'
  stops s h := ⟨_, if_pos h⟩
  stop s a h := by
    unfold questionStep at h
    split at h
    · assumption
    · simp only [bind_eq_ok] at h
      obtain ⟨_, _, h⟩ := h
      cases h
  turns s q next hlen hq hread := by
    obtain rfl := hq
    unfold questionStep
    rw [if_neg hlen, read_eq_ok.mpr hread]
    exact ⟨_, rfl, rfl, rfl⟩
  turn s t h := by
    unfold questionStep at h
    split at h
    · cases h
    · rename_i hlen
      obtain ⟨len, hread, h⟩ := bind_eq_ok.mp h
      obtain rfl : _ = t := Sum.inl.inj (Except.ok.inj h)
      exact ⟨hlen, _, rfl, read_eq_ok.mp hread, rfl⟩

/-! ## The functions -/

theorem exists_runFrom_iff {start : Except Fault S} :
    (∃ fuel res, runFrom start body fuel = some (.ok res)) ↔
      ∃ s, start = .ok s ∧ ∃ res, Returns body s res := by
  unfold runFrom
  cases start with
  | error e => simp
  | ok s =>
    simp only [Except.ok.injEq, exists_eq_left', ← exists_loop_iff]
    exact exists_comm

/-- The loops that follow pointers begin at the first label, wherever it is. -/
theorem WalksLabels.nameAt_iff {pos : S → Nat} {len : S → Byte}
    (h : WalksLabels response (Jump response) body pos len) {mk : Nat × Option Nat → Byte → S}
    (hmk : ∀ r n, pos (mk r n) = r.1 + 1 ∧ len (mk r n) = n) :
    (∃ s, (do let r ← chase response p; let n ← read response r.1; pure (mk r n)) = Except.ok s ∧
      ∃ a, Returns body s a) ↔ NameAt response p := by
  constructor
  · rintro ⟨s, hstart, hret⟩
    simp only [bind_eq_ok] at hstart
    obtain ⟨⟨t, behind⟩, hchase, n, hread, hs⟩ := hstart
    obtain rfl := Except.ok.inj hs
    obtain ⟨hpos, hlen⟩ := hmk (t, behind) n
    exact ⟨t, exists_chase_iff.mp ⟨behind, hchase⟩,
      (h.returns_iff _ hpos (hlen.symm ▸ read_eq_ok.mp hread)).mp hret⟩
  · rintro ⟨t, hjump, hclean⟩
    obtain ⟨behind, hchase⟩ := exists_chase_iff.mpr hjump
    obtain ⟨n, hn, -⟩ := hclean.inside t .refl
    obtain ⟨hpos, hlen⟩ := hmk (t, behind) n
    refine ⟨mk (t, behind) n, ?_, (h.returns_iff _ hpos (hlen.symm ▸ hn)).mpr hclean⟩
    simp only [bind, Except.bind, hchase, read_eq_ok.mpr hn]
    rfl

/-- Labels without pointers lead on, so that they do not lead back. -/
theorem clean_iff_of_labels :
    Clean response Eq p ↔ ∀ q, ReflTransGen (Leads response Eq) p q → q < response.length := by
  constructor
  · intro h q hq
    obtain ⟨len, hlen, -⟩ := h.inside q hq
    exact (List.getElem?_eq_some_iff.mp hlen).1
  · intro h
    refine ⟨fun q hq => ⟨_, List.getElem?_eq_getElem (h q hq), fun _ => ⟨_, rfl⟩⟩, fun q _ hcycle => ?_⟩
    have hstep : ∀ {q r}, Leads response Eq q r → q < r := by
      rintro q _ ⟨len, -, -, rfl⟩
      omega
    have hlt : ∀ {r}, TransGen (Leads response Eq) q r → q < r := by
      intro r hr
      induction hr with
      | single h => exact hstep h
      | tail _ h ih => exact ih.trans (hstep h)
    exact lt_irrefl q (hlt hcycle)

theorem skipQuestionName_returns_iff :
    (∃ fuel e, skipQuestionName response p fuel = some (.ok e)) ↔ QuestionAt response p := by
  unfold skipQuestionName QuestionAt
  cases hread : read response p with
  | error e =>
    have hnone (len : Byte) : response[p]? ≠ some len := fun h => by
      rw [read_eq_ok.mpr h] at hread
      cases hread
    simp [hnone]
  | ok len =>
    rw [read_eq_ok.mp hread]
    simp only [Option.some.injEq, exists_eq_left', ← isPointer_iff]
    by_cases hptr : isPointer len = true
    · simp [hptr]
    · simp only [hptr, if_false, false_or, Bool.false_eq_true]
      rw [exists_comm]
      simp only [exists_loop_iff]
      exact (walksLabels_questionStep.returns_iff _ rfl (read_eq_ok.mp hread)).trans clean_iff_of_labels

/-- **Names and the end of the response.** The three loops terminate and read only bytes of the response
exactly if the name leads neither out of the response nor back to itself. -/
theorem name_loops_terminate_iff (response : List Byte) (p : Nat) :
    ((∃ fuel res, vnetDnsLabelsToName response p fuel = some (.ok res)) ↔ NameAt response p) ∧
      ((∃ fuel e, skipAnswerName response p fuel = some (.ok e)) ↔ NameAt response p) ∧
      ((∃ fuel e, skipQuestionName response p fuel = some (.ok e)) ↔ QuestionAt response p) :=
  ⟨exists_runFrom_iff.trans (walksLabels_labelsStep.nameAt_iff (fun _ _ => ⟨rfl, rfl⟩)),
    exists_runFrom_iff.trans (walksLabels_answerStep.nameAt_iff (fun _ _ => ⟨rfl, rfl⟩)),
    skipQuestionName_returns_iff⟩

/-- `"a"`, and a pointer to it. -/
def pointedName : List Byte := [1, 0x61, 0, 0xc0, 0]

theorem pointed_name_read :
    NameAt pointedName 3 ∧ vnetDnsLabelsToName pointedName 3 2 = some (.ok ([0x61], 5)) :=
  ⟨(name_loops_terminate_iff pointedName 3).1.mp ⟨2, _, by rfl⟩, by decide +kernel⟩

/-- `"a"` and a pointer back to it. -/
def endlessName : List Byte := [1, 0x61, 0xc0, 0]

/-- The endless name keeps both loops that follow pointers busy for ever, and a label longer than the response
takes all three out of it. -/
theorem endless_name_and_long_label :
    (∀ fuel, vnetDnsLabelsToName endlessName 0 fuel = none) ∧
      (∀ fuel, skipAnswerName endlessName 0 fuel = none) ∧
      vnetDnsLabelsToName [5] 0 1 = some (.error .outside) ∧
      skipAnswerName [5] 0 1 = some (.error .outside) ∧
      skipQuestionName [5] 0 1 = some (.error .outside) := by
  have hone : (1 : Byte) ≠ 0 := by decide
  have hback : Jump endlessName (1 + (1 : Byte).toNat) 0 := ⟨0xc0, rfl, .inr ⟨by decide, 0, rfl, rfl⟩⟩
  refine ⟨fun fuel => ?_, fun fuel => ?_, by decide +kernel, by decide +kernel, by decide +kernel⟩
  · refine loop_eq_none (C := fun s => s.label = 1 ∧ s.len = 1) ?_ ⟨rfl, rfl⟩ fuel
    rintro ⟨label, len, reply, behind⟩ ⟨rfl, rfl⟩
    exact walksLabels_labelsStep.turns ⟨1, 1, reply, behind⟩ 0 1 hone hback rfl
  · refine loop_eq_none (C := fun s => s.pos2 = 1 ∧ s.len = 1) ?_ ⟨rfl, rfl⟩ fuel
    rintro ⟨pos, pos2, len, chased⟩ ⟨rfl, rfl⟩
    exact walksLabels_answerStep.turns ⟨pos, 1, 1, chased⟩ 0 1 hone hback rfl

end Vpp.Dns
