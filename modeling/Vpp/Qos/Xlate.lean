import Vpp.Lib.Binary64
import Vpp.Qos.Police

/-!
# Configuring a policer

`compute_policer_params` and `x86_pol_compute_hw_params` of `vnet/policer/xlate.c`, from rates in kbps
and bursts in bytes. The scale is the largest shift under which the limits fit into 32 bits: it
leaves no room for a packet longer than twice the larger burst.
-/

namespace Vpp.Qos

open Vpp.Lib

/-- `qos_policer_type_en`. -/
inductive PolicerType
  | oneRate2C
  | oneRate3CRfc2697
  | twoRate3CRfc2698
  | twoRate3CRfc4115
  | twoRate3CRfcMef5cf1
deriving DecidableEq, Repr

/-- `qos_pol_cfg_params_st`, in kbps and bytes. -/
structure CfgParams where
  cirKbps : BitVec 32
  eirKbps : BitVec 32
  cbBytes : BitVec 64
  ebBytes : BitVec 64
  rfc : PolicerType
deriving DecidableEq, Repr

def policerTicksPerPeriod : Nat := 2 ^ 17

def maxRateShift : Nat := 10

/-- The cast of a double to `u32`. -/
def toU32 (x : ℚ) : BitVec 32 := BitVec.ofInt 32 (F64.toInt x)

def builtinClz (x : BitVec 32) : Nat := 31 - Nat.log2 x.toNat

def maxU32 (x y : BitVec 32) : BitVec 32 := if x > y then x else y

/-- `compute_policer_params` on the limits in `hw`; `hz` is the CPU clock. -/
def computePolicerParams (hz cirRate pirRate : Nat) (hw : Policer) : Policer :=
  let period := F64.div (F64.ofNat hz) (F64.ofNat policerTicksPerPeriod)
  let internalCir := F64.div (F64.ofNat cirRate) period
  let internalPir := F64.div (F64.ofNat pirRate) period
  let max := maxU32 hw.currentLimit hw.extendedLimit
  let max := maxU32 max (toU32 internalCir <<< maxRateShift)
  let max := maxU32 max (toU32 internalPir <<< maxRateShift)
  let scaleShift := builtinClz max
  let scaleAmount := F64.ofNat (1#32 <<< scaleShift).toNat
  let internalCir := F64.mul internalCir scaleAmount
  let internalPir := F64.mul internalPir scaleAmount
  { hw with
    scale := BitVec.ofNat 32 scaleShift
    currentLimit := hw.currentLimit <<< scaleShift
    extendedLimit := hw.extendedLimit <<< scaleShift
    -- very low rates with large bursts still get one token a period
    cirTokensPerPeriod := toU32 (if internalCir < 1 then 1 else internalCir)
    pirTokensPerPeriod := toU32 (if internalPir < 1 then 1 else internalPir) }

def cap (bytes : BitVec 64) : BitVec 32 :=
  if bytes > 0xffffffff#64 then 0xffffffff#32 else bytes.setWidth 32

/-- The end of `x86_pol_compute_hw_params`: both buckets start full. -/
def Policer.full (p : Policer) : Policer :=
  { p with currentBucket := p.currentLimit, extendedBucket := p.extendedLimit }

def bytesPerKbit : Nat := 1000 / 8

/-- `x86_pol_compute_hw_params`: `none` for the configurations it rejects. -/
def x86PolComputeHwParams (hz : Nat) (cfg : CfgParams) (hw : Policer) : Option Policer :=
  let hw := { hw with
    lastUpdateTime := 0#64
    currentLimit := cap cfg.cbBytes
    extendedLimit := cap cfg.ebBytes }
  if cfg.cirKbps = 0#32 ∧ cfg.cbBytes = 0#64 ∧ cfg.ebBytes = 0#64 then
    -- an uninitialized, always-violate policer
    some { hw with singleRate := 1#32, cirTokensPerPeriod := 0#32 }
  else if cfg.rfc = .oneRate2C ∨ cfg.rfc = .oneRate3CRfc2697 then
    if cfg.rfc = .oneRate2C ∧ cfg.ebBytes ≠ 0#64 then none
    else if cfg.cirKbps = 0#32 ∨ cfg.eirKbps ≠ 0#32 ∨ (cfg.cbBytes = 0#64 ∧ cfg.ebBytes = 0#64) then
      none
    else
      some (computePolicerParams hz (cfg.cirKbps.toNat * bytesPerKbit) 0
        { hw with singleRate := 1#32 }).full
  else if cfg.rfc = .twoRate3CRfc2698 ∨ cfg.rfc = .twoRate3CRfc4115 then
    if cfg.cirKbps = 0#32 ∨ cfg.eirKbps = 0#32 ∨ cfg.eirKbps < cfg.cirKbps ∨ cfg.cbBytes = 0#64 ∨
        cfg.ebBytes = 0#64 then
      none
    else
      some (computePolicerParams hz (cfg.cirKbps.toNat * bytesPerKbit)
        (cfg.eirKbps.toNat * bytesPerKbit) hw).full
  else none

theorem lastUpdateTime_x86PolComputeHwParams {hz : Nat} {cfg : CfgParams} {hw p : Policer}
    (h : x86PolComputeHwParams hz cfg hw = some p) : p.lastUpdateTime = 0#64 := by
  unfold x86PolComputeHwParams at h
  repeat' split at h
  all_goals cases h
  all_goals rfl

/-- **Policer conformance.** Packets whose scaled lengths fit into 32 bits pass at no more than the configured
rates and bursts. -/
theorem configured_run_conforms (hz : Nat) (cfg : CfgParams) (hw p : Policer)
    (h : x86PolComputeHwParams hz cfg hw = some p) (ks : List Packet)
    (htimes : ks.Pairwise fun k k' => k.time.toNat ≤ k'.time.toNat)
    (hfits : ∀ k ∈ ks, k.length.toNat * 2 ^ p.scale.toNat < 2 ^ 32) :
    conformed p ks ≤ p.currentLimit.toNat + p.cirTokensPerPeriod.toNat * elapsedPeriods ks ∧
      (p.singleRate = 0#32 →
        passed p ks ≤ p.extendedLimit.toNat + p.pirTokensPerPeriod.toNat * elapsedPeriods ks) := by
  have hzero : ∀ k ∈ ks, p.lastUpdateTime.toNat ≤ k.time.toNat := by
    rw [lastUpdateTime_x86PolComputeHwParams h]
    exact fun _ _ => Nat.zero_le _
  exact run_conforms (along_admissible ⟨_, _, _, rfl⟩ hzero htimes hfits)

def zeroed : Policer := ⟨0#32, 0#32, 0#32, 0#32, 0#32, 0#32, 0#32, 0#32, 0#32, 0#64⟩

/-- A two-rate policer of 1 and 2 Mbps on a 2 GHz clock, and three packets. -/
theorem configured_run_conforms_twoRate :
    ∃ p : Policer,
      x86PolComputeHwParams 2000000000 ⟨1000#32, 2000#32, 3000#64, 6000#64, .twoRate3CRfc2698⟩
        zeroed = some p ∧ p.singleRate = 0#32 ∧
      passed p [⟨1500#32, .conform, 7#64⟩, ⟨1500#32, .conform, 7#64⟩, ⟨1500#32, .conform, 9#64⟩] ≤
        p.extendedLimit.toNat + p.pirTokensPerPeriod.toNat * 2 := by
  refine ⟨(x86PolComputeHwParams 2000000000
    ⟨1000#32, 2000#32, 3000#64, 6000#64, .twoRate3CRfc2698⟩ zeroed).get (by decide +kernel),
    Option.some_get _ |>.symm, by decide +kernel, ?_⟩
  exact (configured_run_conforms _ _ _ _ (Option.some_get _).symm
    [⟨1500#32, .conform, 7#64⟩, ⟨1500#32, .conform, 7#64⟩, ⟨1500#32, .conform, 9#64⟩]
    (by decide) (by decide +kernel)).2 (by decide +kernel)

/-- A burst of 1000 bytes leaves room for a shift by 22: a packet of 1024 bytes has the scaled length
zero and always conforms. -/
theorem long_packets_are_free :
    ∃ p : Policer,
      x86PolComputeHwParams 2000000000 ⟨1#32, 0#32, 1000#64, 0#64, .oneRate2C⟩ zeroed = some p ∧
      p.currentLimit.toNat + p.cirTokensPerPeriod.toNat *
          elapsedPeriods [⟨1024#32, .conform, 7#64⟩, ⟨1024#32, .conform, 7#64⟩] <
        conformed p [⟨1024#32, .conform, 7#64⟩, ⟨1024#32, .conform, 7#64⟩] := by
  decide +kernel

end Vpp.Qos
