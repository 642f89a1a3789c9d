import Mathlib.Data.List.Count
import Vpp.Lib.Word

/-!
# Security associations: the anti-replay window

The receive side of `vnet/ipsec/ipsec_sa.h`. An SA keeps the highest sequence number it has
authenticated as two 32-bit halves (`seqHi`, `seq`) and a 64-bit window below it; bit `i` of the
window stands for the number `i` below the highest one. `antiReplayAndSnAdvance` runs twice for a
packet: before decryption it picks the high half to decrypt with, after decryption it decides
again. `antiReplayAdvance` moves the SA on. Sequence numbers are host-order `u32`s and every
operation on them is the C one, modulo `2 ^ 32`.
-/

namespace Vpp.Ipsec

open Vpp.Lib

/-- The fields of `ipsec_sa_t` that the anti-replay code reads and writes. -/
structure Sa where
  useEsn : Bool
  useAntiReplay : Bool
  seq : BitVec 32
  seqHi : BitVec 32
  replayWindow : BitVec 64
  deriving DecidableEq, Repr

def windowSize : BitVec 32 := 64#32

def windowMaxIndex : BitVec 32 := 63#32

/-- `IPSEC_SA_ANTI_REPLAY_WINDOW_LOWER_BOUND`: `Bl = Tl - W + 1` of RFC 4303 Appendix A. -/
def windowLowerBound (tl : BitVec 32) : BitVec 32 := tl - windowSize + 1#32

/-- `ipsec_sa_anti_replay_check`: whether the window bit of `seq` is set. -/
def antiReplayCheck (sa : Sa) (seq : BitVec 32) : Bool :=
  sa.useAntiReplay && (sa.replayWindow &&& (1#64 <<< (sa.seq - seq).toNat)) != 0#64

/-- `ipsec_sa_anti_replay_and_sn_advance`: the return code (`true` is 1, the packet is dropped), and what is
stored through `hi_seq_req`, which is passed exactly when `postDecrypt` is false. -/
def antiReplayAndSnAdvance (sa : Sa) (seq hiSeqUsed : BitVec 32) (postDecrypt : Bool) :
    Bool × Option (BitVec 32) :=
  let req (h : BitVec 32) : Option (BitVec 32) := if postDecrypt then none else some h
  if !sa.useEsn then
    if !sa.useAntiReplay then (false, req 0#32)
    else if sa.seq < seq then (false, req 0#32)
    else
      let diff := sa.seq - seq
      if diff < windowSize then
        ((sa.replayWindow &&& (1#64 <<< diff.toNat)) != 0#64, req 0#32)
      else (true, req 0#32)
  else if !sa.useAntiReplay then
    -- no window to check, but the high half is still needed: a number more than 2^30 behind
    -- counts as a wrap
    if sa.seq ≤ seq then (false, req sa.seqHi)
    else if 1#32 <<< 30 < sa.seq - seq then (false, req (sa.seqHi + 1#32))
    else (false, req sa.seqHi)
  else if windowMaxIndex ≤ sa.seq then
    -- case A of RFC 4303 Appendix A
    if seq < windowLowerBound sa.seq then
      if postDecrypt then (hiSeqUsed == sa.seqHi, none)
      else (false, some (sa.seqHi + 1#32))
    else if seq ≤ sa.seq then (antiReplayCheck sa seq, req sa.seqHi)
    else (false, req sa.seqHi)
  else
    -- case B: the window straddles zero, so its lower bound is a large number
    if seq < windowLowerBound sa.seq then
      if seq ≤ sa.seq then (antiReplayCheck sa seq, req sa.seqHi)
      else (false, req sa.seqHi)
    else (antiReplayCheck sa seq, req (sa.seqHi - 1#32))

def countSetBits (x : BitVec 64) : Nat := (List.range 64).countP fun i => x.getLsbD i

/-- `ipsec_sa_anti_replay_window_shift`: move the window up by `inc` and mark its top. Returns how many
numbers left it unseen. -/
def antiReplayWindowShift (sa : Sa) (inc : BitVec 32) : Sa × BitVec 32 :=
  if inc < windowSize then
    let nLost :=
      if windowSize < sa.seq then
        let mask := ((1#64 <<< inc.toNat) - 1#64) <<< (64 - inc.toNat)
        inc - BitVec.ofNat 32 (countSetBits (sa.replayWindow &&& mask))
      else 0#32
    ({ sa with replayWindow := (sa.replayWindow <<< inc.toNat) ||| 1#64 }, nLost)
  else
    ({ sa with replayWindow := 1#64 },
      BitVec.ofNat 32 (64 - countSetBits sa.replayWindow) + (inc - windowSize))

/-- `ipsec_sa_anti_replay_advance`. Returns the SA and the number of lost packets. -/
def antiReplayAdvance (sa : Sa) (seq hiSeq : BitVec 32) : Sa × BitVec 64 :=
  if sa.useEsn then
    let wrap : Int := (hiSeq - sa.seqHi).toInt
    if wrap = 0 ∧ sa.seq < seq then
      let r := antiReplayWindowShift sa (seq - sa.seq)
      ({ r.1 with seq := seq }, r.2.setWidth 64)
    else if 0 < wrap then
      let r := antiReplayWindowShift sa (~~~seq + sa.seq + 1#32)
      ({ r.1 with seq := seq, seqHi := hiSeq }, r.2.setWidth 64)
    else if wrap < 0 then
      let pos := ~~~seq + sa.seq + 1#32
      ({ sa with replayWindow := sa.replayWindow ||| (1#64 <<< pos.toNat) }, 0#64)
    else
      let pos := sa.seq - seq
      ({ sa with replayWindow := sa.replayWindow ||| (1#64 <<< pos.toNat) }, 0#64)
  else if sa.seq < seq then
    let r := antiReplayWindowShift sa (seq - sa.seq)
    ({ r.1 with seq := seq }, r.2.setWidth 64)
  else
    let pos := sa.seq - seq
    ({ sa with replayWindow := sa.replayWindow ||| (1#64 <<< pos.toNat) }, 0#64)

/-! ## Window bits -/

variable {inc : BitVec 32} {sa : Sa}

theorem antiReplayCheck_eq (h : sa.useAntiReplay = true) (seq : BitVec 32) :
    antiReplayCheck sa seq = sa.replayWindow.getLsbD (sa.seq - seq).toNat := by
  simp [antiReplayCheck, h, and_one_shl_ne_zero]

theorem antiReplayWindowShift_getLsbD {i : Nat} (hi : i < 64) :
    (antiReplayWindowShift sa inc).1.replayWindow.getLsbD i =
      (decide (i = 0) || (decide (inc.toNat ≤ i) && sa.replayWindow.getLsbD (i - inc.toNat))) := by
  unfold antiReplayWindowShift
  have hw : windowSize.toNat = 64 := rfl
  split
  · simp only [BitVec.getLsbD_or, BitVec.getLsbD_shiftLeft]
    by_cases h0 : i = 0
    · simp [h0]
    · by_cases hlt : i < inc.toNat
      · simp [Nat.not_le.mpr hlt]
      · simp [h0, hi, Nat.le_of_not_lt hlt]
  · rename_i h
    have hge : 64 ≤ inc.toNat := by rw [BitVec.lt_def] at h; omega
    have : ¬ inc.toNat ≤ i := by omega
    simp [this]

@[simp] theorem antiReplayWindowShift_seqHi : (antiReplayWindowShift sa inc).1.seqHi = sa.seqHi := by
  unfold antiReplayWindowShift; split <;> rfl

@[simp] theorem antiReplayWindowShift_useEsn : (antiReplayWindowShift sa inc).1.useEsn = sa.useEsn := by
  unfold antiReplayWindowShift; split <;> rfl

@[simp] theorem antiReplayWindowShift_useAntiReplay :
    (antiReplayWindowShift sa inc).1.useAntiReplay = sa.useAntiReplay := by
  unfold antiReplayWindowShift; split <;> rfl

end Vpp.Ipsec
