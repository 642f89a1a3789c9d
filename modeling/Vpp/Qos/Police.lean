import Vpp.Lib.TokenBucket

/-!
# Policing a packet

`vnet_police_packet` of `vnet/policer/police.h`. A policer has two buckets of 32-bit tokens that are
topped up when a packet comes. Packet lengths are scaled by a power of two so that low rates still
give some tokens each period; the scaled length is a `u32` as well, and a length that does not fit
into it loses its high bits.
-/

namespace Vpp.Qos

open Vpp.Lib BitVec

/-- `policer_result_e`. -/
inductive PolicerResult
  | conform
  | exceed
  | violate
deriving DecidableEq, Repr

/-- `policer_t`: the fields that policing reads. -/
structure Policer where
  singleRate : BitVec 32
  colorAware : BitVec 32
  scale : BitVec 32
  cirTokensPerPeriod : BitVec 32
  pirTokensPerPeriod : BitVec 32
  currentLimit : BitVec 32
  currentBucket : BitVec 32
  extendedLimit : BitVec 32
  extendedBucket : BitVec 32
  lastUpdateTime : BitVec 64
deriving DecidableEq, Repr

/-- A packet as the policer sees it, with the time it comes at, in periods. -/
structure Packet where
  length : BitVec 32
  color : PolicerResult
  time : BitVec 64
deriving DecidableEq, Repr

/-- The tokens of a bucket `nPeriods` later, in `u64`. -/
def topUp (bucket limit tokensPerPeriod : BitVec 32) (nPeriods : BitVec 64) : BitVec 64 :=
  let tokens := bucket.setWidth 64 + nPeriods * tokensPerPeriod.setWidth 64
  if tokens > limit.setWidth 64 then limit.setWidth 64 else tokens

def Policer.store (p : Policer) (time currentTokens extendedTokens : BitVec 64) : Policer :=
  { p with
    currentBucket := currentTokens.setWidth 32
    extendedBucket := extendedTokens.setWidth 32
    lastUpdateTime := time }

/-- The branch of a single-rate policer. `len` is the scaled length. -/
def policeSingleRate (p : Policer) (len : BitVec 64) (color : PolicerResult)
    (time current extended : BitVec 64) : Policer × PolicerResult :=
  if (p.colorAware = 0#32 ∨ color = .conform) ∧ current ≥ len then
    (p.store time (current - len) (extended - len), .conform)
  else if (p.colorAware = 0#32 ∨ color ≠ .violate) ∧ extended ≥ len then
    (p.store time current (extended - len), .exceed)
  else (p.store time current extended, .violate)

def policeTwoRate (p : Policer) (len : BitVec 64) (color : PolicerResult)
    (time current extended : BitVec 64) : Policer × PolicerResult :=
  if (p.colorAware ≠ 0#32 ∧ color = .violate) ∨ extended < len then
    (p.store time current extended, .violate)
  else if (p.colorAware ≠ 0#32 ∧ color = .exceed) ∨ current < len then
    (p.store time current (extended - len), .exceed)
  else (p.store time (current - len) (extended - len), .conform)

def vnetPolicePacket (p : Policer) (k : Packet) : Policer × PolicerResult :=
  let len := (k.length <<< p.scale.toNat).setWidth 64
  let nPeriods := k.time - p.lastUpdateTime
  let current := topUp p.currentBucket p.currentLimit p.cirTokensPerPeriod nPeriods
  if p.singleRate ≠ 0#32 then
    policeSingleRate p len k.color k.time current
      (topUp p.extendedBucket p.extendedLimit p.cirTokensPerPeriod nPeriods)
  else
    policeTwoRate p len k.color k.time current
      (topUp p.extendedBucket p.extendedLimit p.pirTokensPerPeriod nPeriods)

/-! ## One packet -/

theorem toNat_topUp_le_limit (bucket limit rate : BitVec 32) (n : BitVec 64) :
    (topUp bucket limit rate n).toNat ≤ limit.toNat := by
  have hlimit : (limit.setWidth 64).toNat = limit.toNat := toNat_setWidth_of_le (by decide)
  unfold topUp
  dsimp only
  split
  · exact Nat.le_of_eq hlimit
  · rename_i h
    rw [gt_iff_lt, lt_def] at h
    omega

theorem toNat_topUp_le_earned (bucket limit rate : BitVec 32) (n : BitVec 64) :
    (topUp bucket limit rate n).toNat ≤ bucket.toNat + rate.toNat * n.toNat := by
  have hbucket : (bucket.setWidth 64).toNat = bucket.toNat := toNat_setWidth_of_le (by decide)
  have hrate : (rate.setWidth 64).toNat = rate.toNat := toNat_setWidth_of_le (by decide)
  have hexact : (bucket.setWidth 64 + n * rate.setWidth 64).toNat ≤
      bucket.toNat + rate.toNat * n.toNat := by
    rw [toNat_add, toNat_mul, Nat.mul_comm]
    exact Nat.le_trans (Nat.mod_le ..) (Nat.add_le_add_left (Nat.mod_le ..) _)
  unfold topUp
  dsimp only
  split
  · rename_i h
    exact Nat.le_trans (Nat.le_of_lt (lt_def.mp h)) hexact
  · exact hexact

variable {color : PolicerResult} {n time : BitVec 64}

theorem toNat_topUp_lt {bucket limit rate : BitVec 32} : (topUp bucket limit rate n).toNat < 2 ^ 32 :=
  Nat.lt_of_le_of_lt (toNat_topUp_le_limit ..) limit.isLt

def Policer.current (p : Policer) : TokenBucket := ⟨p.currentBucket.toNat, p.lastUpdateTime.toNat⟩

def Policer.extended (p : Policer) : TokenBucket := ⟨p.extendedBucket.toNat, p.lastUpdateTime.toNat⟩

def scaledLength (p : Policer) (k : Packet) : Nat := k.length.toNat * 2 ^ p.scale.toNat

/-- The packet is not older than the last one, and its scaled length fits into 32 bits. -/
def Admissible (p : Policer) (k : Packet) : Prop :=
  p.lastUpdateTime.toNat ≤ k.time.toNat ∧ scaledLength p k < 2 ^ 32

instance (p : Policer) (k : Packet) : Decidable (Admissible p k) :=
  inferInstanceAs (Decidable (_ ∧ _))

def SameConfig (p q : Policer) : Prop :=
  ∃ current extended time, q = { p with
    currentBucket := current
    extendedBucket := extended
    lastUpdateTime := time }

variable {p : Policer} {k : Packet} {current extended : BitVec 64} {ks : List Packet}

theorem toNat_scaled (h : scaledLength p k < 2 ^ 32) :
    ((k.length <<< p.scale.toNat).setWidth 64).toNat = scaledLength p k := by
  rw [toNat_setWidth_of_le (by decide), toNat_shiftLeft, Nat.shiftLeft_eq]
  exact Nat.mod_eq_of_lt h

theorem toNat_sub_setWidth {x y : BitVec 64} (hy : y ≤ x) (hx : x.toNat < 2 ^ 32) :
    ((x - y).setWidth 32).toNat + y.toNat = x.toNat := by
  rw [le_def] at hy
  rw [toNat_setWidth, toNat_sub_of_le hy]
  omega

theorem toNat_setWidth_of_lt {x : BitVec 64} (hx : x.toNat < 2 ^ 32) :
    (x.setWidth 32).toNat = x.toNat := by
  rw [toNat_setWidth, Nat.mod_eq_of_lt hx]

theorem pays_of_topUp {bucket limit rate b' : BitVec 32} {last : BitVec 64} {cost : Nat}
    (hle : last.toNat ≤ time.toNat) (h : b'.toNat + cost ≤ (topUp bucket limit rate (time - last)).toNat) :
    (⟨bucket.toNat, last.toNat⟩ : TokenBucket).Pays limit.toNat rate.toNat cost
      ⟨b'.toNat, time.toNat⟩ := by
  have hearned := toNat_topUp_le_earned bucket limit rate (time - last)
  rw [toNat_sub_of_le (le_def.mpr hle)] at hearned
  exact ⟨hle, Nat.le_trans h (toNat_topUp_le_limit ..), Nat.le_trans h hearned⟩

/-- The tokens a result takes out of the bucket of the committed rate. -/
def conformCost (len : Nat) : PolicerResult → Nat
  | .conform => len
  | _ => 0

/-- The tokens a result takes out of the bucket of the peak rate of a two-rate policer. -/
def exceedCost (len : Nat) : PolicerResult → Nat
  | .violate => 0
  | _ => len

theorem policeSingleRate_spec (len : BitVec 64) (hlt : current.toNat < 2 ^ 32) :
    let r := policeSingleRate p len color time current extended
    SameConfig p r.1 ∧ r.1.lastUpdateTime = time ∧
      r.1.currentBucket.toNat + conformCost len.toNat r.2 = current.toNat := by
  unfold policeSingleRate
  split
  · rename_i h
    exact ⟨⟨_, _, _, rfl⟩, rfl, toNat_sub_setWidth h.2 hlt⟩
  · split
    · exact ⟨⟨_, _, _, rfl⟩, rfl, toNat_setWidth_of_lt hlt⟩
    · exact ⟨⟨_, _, _, rfl⟩, rfl, toNat_setWidth_of_lt hlt⟩

theorem policeTwoRate_spec (len : BitVec 64) (hlt : current.toNat < 2 ^ 32) (hlt' : extended.toNat < 2 ^ 32) :
    let r := policeTwoRate p len color time current extended
    SameConfig p r.1 ∧ r.1.lastUpdateTime = time ∧
      r.1.currentBucket.toNat + conformCost len.toNat r.2 = current.toNat ∧
      r.1.extendedBucket.toNat + exceedCost len.toNat r.2 = extended.toNat := by
  unfold policeTwoRate
  split
  · exact ⟨⟨_, _, _, rfl⟩, rfl, toNat_setWidth_of_lt hlt, toNat_setWidth_of_lt hlt'⟩
  rename_i h
  have hext : len ≤ extended := BitVec.not_lt.mp fun hl => h (.inr hl)
  split
  · exact ⟨⟨_, _, _, rfl⟩, rfl, toNat_setWidth_of_lt hlt, toNat_sub_setWidth hext hlt'⟩
  · rename_i h'
    have hcur : len ≤ current := BitVec.not_lt.mp fun hl => h' (.inr hl)
    exact ⟨⟨_, _, _, rfl⟩, rfl, toNat_sub_setWidth hcur hlt, toNat_sub_setWidth hext hlt'⟩

/-- **One packet.** Both buckets pay for the packet by its result, and the configuration stays. -/
theorem vnetPolicePacket_pays (h : Admissible p k) :
    SameConfig p (vnetPolicePacket p k).1 ∧ (vnetPolicePacket p k).1.lastUpdateTime = k.time ∧
      p.current.Pays p.currentLimit.toNat p.cirTokensPerPeriod.toNat
        (conformCost (scaledLength p k) (vnetPolicePacket p k).2) (vnetPolicePacket p k).1.current ∧
      (p.singleRate = 0#32 →
        p.extended.Pays p.extendedLimit.toNat p.pirTokensPerPeriod.toNat
          (exceedCost (scaledLength p k) (vnetPolicePacket p k).2)
          (vnetPolicePacket p k).1.extended) := by
  obtain ⟨htime, hfits⟩ := h
  rw [← toNat_scaled hfits]
  unfold vnetPolicePacket
  split
  · rename_i hsingle
    obtain ⟨hsame, hlast, hcur⟩ := policeSingleRate_spec
      ((k.length <<< p.scale.toNat).setWidth 64)
      toNat_topUp_lt
    refine ⟨hsame, hlast, ?_, fun h0 => absurd h0 hsingle⟩
    unfold Policer.current
    rw [hlast]
    exact pays_of_topUp htime (Nat.le_of_eq hcur)
  · obtain ⟨hsame, hlast, hcur, hext⟩ := policeTwoRate_spec
      ((k.length <<< p.scale.toNat).setWidth 64)
      toNat_topUp_lt
      toNat_topUp_lt
    refine ⟨hsame, hlast, ?_, fun _ => ?_⟩
    · unfold Policer.current
      rw [hlast]
      exact pays_of_topUp htime (Nat.le_of_eq hcur)
    · unfold Policer.extended
      rw [hlast]
      exact pays_of_topUp htime (Nat.le_of_eq hext)

/-! ## Runs of packets -/

def police (p : Policer) (k : Packet) : Policer × Packet × PolicerResult :=
  ((vnetPolicePacket p k).1, k, (vnetPolicePacket p k).2)

def conformed (p : Policer) (ks : List Packet) : Nat :=
  ((outputs police p ks).map fun e => conformCost (scaledLength p e.1) e.2).sum

def passed (p : Policer) (ks : List Packet) : Nat :=
  ((outputs police p ks).map fun e => exceedCost (scaledLength p e.1) e.2).sum

def elapsedPeriods : List Packet → Nat
  | [] => 0
  | k :: ks => ((k :: ks).getLast (List.cons_ne_nil _ _)).time.toNat - k.time.toNat

theorem lastUpdateTime_police : (police p k).1.lastUpdateTime = k.time := by
  unfold police vnetPolicePacket policeSingleRate policeTwoRate
  dsimp only
  split
  all_goals
    split
    · rfl
    · split <;> rfl

theorem lastUpdateTime_after (p : Policer) (k : Packet) :
    (after police p (k :: ks)).lastUpdateTime =
      ((k :: ks).getLast (List.cons_ne_nil _ _)).time := by
  induction ks generalizing p k with
  | nil => exact lastUpdateTime_police
  | cons k' ks ih => exact ih (police p k).1 k'

theorem elapsedPeriods_cons (p : Policer) :
    elapsedPeriods (k :: ks) = (after police p (k :: ks)).lastUpdateTime.toNat -
      (police p k).1.lastUpdateTime.toNat := by
  rw [lastUpdateTime_police, lastUpdateTime_after]
  rfl

variable {q : Policer}

theorem police_pays (hpq : SameConfig p q) (h : Admissible q k) :
    SameConfig p (police q k).1 ∧
      q.current.Pays p.currentLimit.toNat p.cirTokensPerPeriod.toNat
        (conformCost (scaledLength p k) (police q k).2.2) (police q k).1.current ∧
      (p.singleRate = 0#32 →
        q.extended.Pays p.extendedLimit.toNat p.pirTokensPerPeriod.toNat
          (exceedCost (scaledLength p k) (police q k).2.2) (police q k).1.extended) := by
  obtain ⟨⟨current', extended', time', heq⟩, -, hcur, hext⟩ := vnetPolicePacket_pays h
  obtain ⟨current, extended, time, rfl⟩ := hpq
  exact ⟨⟨current', extended', time', heq⟩, hcur, hext⟩

theorem along_admissible (hpq : SameConfig p q) (hlast : ∀ k ∈ ks, q.lastUpdateTime.toNat ≤ k.time.toNat)
    (htimes : ks.Pairwise fun k k' => k.time.toNat ≤ k'.time.toNat)
    (hfits : ∀ k ∈ ks, scaledLength p k < 2 ^ 32) : Along police Admissible q ks := by
  induction ks generalizing q with
  | nil => trivial
  | cons k ks ih =>
    rw [List.pairwise_cons] at htimes
    rw [List.forall_mem_cons] at hlast hfits
    have hscaled : scaledLength q k = scaledLength p k := by
      obtain ⟨_, _, _, rfl⟩ := hpq
      rfl
    have hadm : Admissible q k := ⟨hlast.1, hscaled ▸ hfits.1⟩
    refine ⟨hadm, ih (police_pays hpq hadm).1 ?_ htimes.2 hfits.2⟩
    rw [lastUpdateTime_police]
    exact htimes.1

/-- **Conformance of a run**, at the committed rate and, for a two-rate policer, at the peak rate. -/
theorem run_conforms (h : Along police Admissible p ks) :
    conformed p ks ≤ p.currentLimit.toNat + p.cirTokensPerPeriod.toNat * elapsedPeriods ks ∧
      (p.singleRate = 0#32 →
        passed p ks ≤ p.extendedLimit.toNat + p.pirTokensPerPeriod.toNat * elapsedPeriods ks) := by
  cases ks with
  | nil => exact ⟨Nat.zero_le _, fun _ => Nat.zero_le _⟩
  | cons k ks =>
    have hself : SameConfig p p := ⟨_, _, _, rfl⟩
    rw [elapsedPeriods_cons p]
    refine ⟨?_, fun htwo => ?_⟩
    · exact h.paid_le Policer.current (fun e => conformCost (scaledLength p e.1) e.2) (SameConfig p)
        (fun q k hpq hok => ⟨(police_pays hpq hok).1, (police_pays hpq hok).2.1⟩) hself
    · exact h.paid_le Policer.extended (fun e => exceedCost (scaledLength p e.1) e.2) (SameConfig p)
        (fun q k hpq hok => ⟨(police_pays hpq hok).1, (police_pays hpq hok).2.2 htwo⟩) hself

/-! ## Single-rate buckets

A packet that conforms is taken out of both buckets, but only the committed one is looked at. Packets
that exceed are taken out of the extended bucket alone, so that one may run out first. -/

def Policer.Within (p : Policer) : Prop :=
  p.currentBucket.toNat ≤ p.currentLimit.toNat ∧ p.extendedBucket.toNat ≤ p.extendedLimit.toNat

instance (p : Policer) : Decidable p.Within := inferInstanceAs (Decidable (_ ∧ _))

def Policer.tokens (p : Policer) (k : Packet) (bucket limit : BitVec 32) : Nat :=
  (topUp bucket limit p.cirTokensPerPeriod (k.time - p.lastUpdateTime)).toNat

/-- A packet that the committed bucket and its colour let conform fits into the extended bucket as
well. -/
def Covered (p : Policer) (k : Packet) : Prop :=
  Admissible p k ∧ ((p.colorAware = 0#32 ∨ k.color = .conform) →
    scaledLength p k ≤ p.tokens k p.currentBucket p.currentLimit →
      scaledLength p k ≤ p.tokens k p.extendedBucket p.extendedLimit)

instance (p : Policer) (k : Packet) : Decidable (Covered p k) := inferInstanceAs (Decidable (_ ∧ _))

/-- The packet finds and leaves both buckets within their limits, and what is left of them is exactly
what they held less what the packet costs. -/
structure ExactStep (p : Policer) (k : Packet) : Prop where
  found : p.Within
  left : (police p k).1.Within
  current : (police p k).1.currentBucket.toNat + conformCost (scaledLength p k) (police p k).2.2 =
    p.tokens k p.currentBucket p.currentLimit
  extended : (police p k).1.extendedBucket.toNat + exceedCost (scaledLength p k) (police p k).2.2 =
    p.tokens k p.extendedBucket p.extendedLimit

theorem policeSingleRate_extended (len : BitVec 64) (time : BitVec 64) (hlt : extended.toNat < 2 ^ 32)
    (hcov : (p.colorAware = 0#32 ∨ color = .conform) → len ≤ current → len ≤ extended) :
    (policeSingleRate p len color time current extended).1.extendedBucket.toNat +
      exceedCost len.toNat (policeSingleRate p len color time current extended).2 =
        extended.toNat := by
  unfold policeSingleRate
  split
  · rename_i h
    exact toNat_sub_setWidth (hcov h.1 h.2) hlt
  · split
    · rename_i h
      exact toNat_sub_setWidth h.2 hlt
    · exact toNat_setWidth_of_lt hlt

theorem police_exact (hsingle : p.singleRate ≠ 0#32) (hp : p.Within)
    (h : Covered p k) : ExactStep p k := by
  obtain ⟨hadm, hcov⟩ := h
  have hlen := toNat_scaled hadm.2
  have hres : police p k = (_, k, _) := rfl
  simp only [vnetPolicePacket, if_pos hsingle] at hres
  obtain ⟨⟨current', extended', time', hsame⟩, -, hcur⟩ := policeSingleRate_spec
    ((k.length <<< p.scale.toNat).setWidth 64)
    toNat_topUp_lt
  have hext := policeSingleRate_extended ((k.length <<< p.scale.toNat).setWidth 64)
    k.time toNat_topUp_lt
    (by simp only [le_def, hlen]; exact hcov)
  rw [hlen] at hcur hext
  rw [hsame] at hcur hext hres
  have hc := toNat_topUp_le_limit p.currentBucket p.currentLimit p.cirTokensPerPeriod
    (k.time - p.lastUpdateTime)
  have he := toNat_topUp_le_limit p.extendedBucket p.extendedLimit p.cirTokensPerPeriod
    (k.time - p.lastUpdateTime)
  refine ⟨hp, ?_, ?_, ?_⟩
  · rw [hres]
    exact ⟨by dsimp only at hcur ⊢; omega, by dsimp only at hext ⊢; omega⟩
  · rw [hres]
    exact hcur
  · rw [hres]
    exact hext

theorem ExactStep.pays (h : ExactStep p k) (htime : p.lastUpdateTime.toNat ≤ k.time.toNat) :
    p.extended.Pays p.extendedLimit.toNat p.cirTokensPerPeriod.toNat
      (exceedCost (scaledLength p k) (police p k).2.2) (police p k).1.extended := by
  unfold Policer.extended
  rw [lastUpdateTime_police]
  exact pays_of_topUp htime (Nat.le_of_eq h.extended)

/-- **Single-rate buckets are exact**, in every run whose packets are covered: no bucket leaves its limits, no
subtraction borrows, and what passes in any stretch is bounded by the buckets and the tokens of that time. -/
theorem single_rate_exact {p : Policer} (hsingle : p.singleRate ≠ 0#32) (hp : p.Within)
    (pre ks : List Packet) (h : Along police Covered p (pre ++ ks)) :
    Along police ExactStep p (pre ++ ks) ∧
      passed (after police p pre) ks ≤ p.currentLimit.toNat + p.extendedLimit.toNat +
        p.cirTokensPerPeriod.toNat * elapsedPeriods ks := by
  let inv (q : Policer) : Prop := SameConfig p q ∧ q.Within
  have hstep : ∀ q k, inv q → Covered q k → inv (police q k).1 ∧ ExactStep q k := by
    rintro q k ⟨hpq, hq⟩ hk
    have hexact : ExactStep q k := by
      obtain ⟨_, _, _, rfl⟩ := hpq
      exact police_exact (by exact hsingle) hq hk
    exact ⟨⟨(police_pays hpq hk.1).1, hexact.left⟩, hexact⟩
  have hpays : ∀ q k, inv q → Covered q k →
      q.extended.Pays p.extendedLimit.toNat p.cirTokensPerPeriod.toNat
        (exceedCost (scaledLength p k) (police q k).2.2) (police q k).1.extended := by
    intro q k hq hk
    have hexact := (hstep q k hq hk).2
    obtain ⟨⟨_, _, _, rfl⟩, -⟩ := hq
    exact hexact.pays hk.1.1
  have hself : inv p := ⟨⟨_, _, _, rfl⟩, hp⟩
  obtain ⟨hpre, hks⟩ := along_append.mp h
  have hmid := (hpre.strengthen inv hstep hself).1
  refine ⟨(h.strengthen inv hstep hself).2, ?_⟩
  generalize after police p pre = q at hks hmid
  have hscaled : ∀ k, scaledLength q k = scaledLength p k := by
    obtain ⟨⟨_, _, _, rfl⟩, -⟩ := hmid
    exact fun _ => rfl
  cases ks with
  | nil => exact Nat.zero_le _
  | cons k ks =>
    have hpaid := hks.paid_le Policer.extended (fun e => exceedCost (scaledLength p e.1) e.2) inv
      (fun q k hq hok => ⟨(hstep q k hq hok).1, hpays q k hq hok⟩) hmid
    unfold passed
    simp only [hscaled, elapsedPeriods_cons q]
    exact Nat.le_trans hpaid (by rw [Nat.add_assoc]; exact Nat.le_add_left ..)

/-- A policer with 1000 committed and 1500 extended tokens that get 10 more a period. -/
def oneRate : Policer := ⟨1#32, 0#32, 0#32, 10#32, 0#32, 1000#32, 1000#32, 1500#32, 1500#32, 0#64⟩

theorem single_rate_exact_three :
    Along police ExactStep oneRate
        [⟨600#32, .conform, 0#64⟩, ⟨500#32, .conform, 1#64⟩, ⟨500#32, .conform, 30#64⟩] ∧
      passed (after police oneRate [⟨600#32, .conform, 0#64⟩])
        [⟨500#32, .conform, 1#64⟩, ⟨500#32, .conform, 30#64⟩] ≤ 1000 + 1500 + 10 * 29 :=
  single_rate_exact (by decide) (by decide) [⟨600#32, .conform, 0#64⟩]
    [⟨500#32, .conform, 1#64⟩, ⟨500#32, .conform, 30#64⟩] (by decide)

/-- A packet of 1200 bytes exceeds and one of 500 then conforms: the extended bucket had 300 left, and now
holds nearly `2 ^ 32`. At the next packet it is full, and more than the bound passes. -/
theorem extended_bucket_borrows :
    oneRate.Within ∧
      ¬ (after police oneRate [⟨1200#32, .conform, 0#64⟩, ⟨500#32, .conform, 0#64⟩]).Within ∧
      1000 + 1500 + 10 * 0 < passed oneRate [⟨1200#32, .conform, 0#64⟩, ⟨500#32, .conform, 0#64⟩,
        ⟨1200#32, .conform, 0#64⟩] := by
  decide

end Vpp.Qos
