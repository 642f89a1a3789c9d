import Mathlib.Data.Nat.Count
import Vpp.Ipsec.Sa
import Vpp.Lib.Replay

/-!
# Anti-replay without extended sequence numbers

With 32-bit sequence numbers the number on the wire is the true one, so nothing depends on what
decryption succeeds with: a packet passes the check and moves the SA on, or it is dropped. The
window is exact: over any sequence of packets it lets through precisely the numbers that are new
and less than a window behind the highest accepted one.
-/

namespace Vpp.Ipsec

open Vpp.Lib BitVec Nat
open List hiding after

def initSa32 : Sa := ⟨false, true, 0#32, 0#32, 0#64⟩

/-- A packet with number `seq` that decrypts: the check after decryption and, on a zero result, the advance.
Without ESN the high half is `0`. -/
def receiveSeq (sa : Sa) (seq : BitVec 32) : Sa × Bool :=
  if (antiReplayAndSnAdvance sa seq 0#32 true).1 then (sa, false)
  else ((antiReplayAdvance sa seq 0#32).1, true)

variable {sa : Sa} {acc : List Nat} {seq : BitVec 32}

/-- The check without ESN, in terms of the window bit of `seq`. It is the same before and after
decryption. -/
theorem antiReplayAndSnAdvance_nonEsn (hE : sa.useEsn = false)
    (hA : sa.useAntiReplay = true) (seq used : BitVec 32) (post : Bool) :
    (antiReplayAndSnAdvance sa seq used post).1 =
      (decide (seq.toNat ≤ sa.seq.toNat) && (decide (64 ≤ sa.seq.toNat - seq.toNat) ||
        sa.replayWindow.getLsbD (sa.seq.toNat - seq.toNat))) := by
  simp only [antiReplayAndSnAdvance, hE, hA, Bool.not_false, Bool.not_true, Bool.false_eq_true,
    if_true, if_false, and_one_shl_ne_zero]
  have hw : windowSize.toNat = 64 := rfl
  by_cases hlt : sa.seq < seq
  · rw [if_pos hlt, decide_eq_false (not_le.mpr (lt_def.mp hlt)), Bool.false_and]
  have hle : seq ≤ sa.seq := BitVec.not_lt.mp hlt
  have hd := toNat_sub_of_le hle
  rw [if_neg hlt, decide_eq_true (le_def.mp hle), Bool.true_and]
  by_cases hin : sa.seq - seq < windowSize
  · rw [if_pos hin]
    rw [lt_def, hd, hw] at hin
    rw [decide_eq_false (not_le.mpr hin), Bool.false_or, hd]
  · rw [if_neg hin]
    rw [lt_def, hd, hw] at hin
    rw [decide_eq_true (Nat.le_of_not_lt hin), Bool.true_or]

theorem antiReplayAdvance_nonEsn (hE : sa.useEsn = false) (seq hiSeq : BitVec 32) :
    (antiReplayAdvance sa seq hiSeq).1 =
      if sa.seq < seq then { (antiReplayWindowShift sa (seq - sa.seq)).1 with seq := seq }
      else { sa with replayWindow := sa.replayWindow ||| (1#64 <<< (sa.seq - seq).toNat) } := by
  simp only [antiReplayAdvance, hE, Bool.false_eq_true, if_false]
  split <;> rfl

/-- The window holds a bit for each of the last 64 numbers. -/
structure Window32 (sa : Sa) (acc : List Nat) : Prop where
  esn : sa.useEsn = false
  antiReplay : sa.useAntiReplay = true
  remembers : Remembers 63 acc sa.seq.toNat
    fun n => sa.replayWindow.getLsbD (sa.seq.toNat - n) = true

theorem Window32.receiveSeq_iff (h : Window32 sa acc) (seq : BitVec 32) :
    (receiveSeq sa seq).2 = true ↔ Fresh 63 acc seq.toNat := by
  have hcheck := antiReplayAndSnAdvance_nonEsn h.esn h.antiReplay seq 0#32 true
  have hval : (receiveSeq sa seq).2 = !(antiReplayAndSnAdvance sa seq 0#32 true).1 := by
    unfold receiveSeq
    cases (antiReplayAndSnAdvance sa seq 0#32 true).1 <;> rfl
  rw [h.remembers.fresh_iff, hval, hcheck]
  simp only [Bool.not_eq_true', Bool.and_eq_false_iff, Bool.or_eq_false_iff, decide_eq_false_iff_not]
  rcases lt_or_ge sa.seq.toNat seq.toNat with hlt | hle
  · exact ⟨fun _ => .inl hlt, fun _ => .inl (by omega)⟩
  constructor
  · rintro (hn | ⟨hin, hb⟩)
    · omega
    · exact .inr ⟨hle, by omega, by simp [hb]⟩
  · rintro (hn | ⟨-, hin, hb⟩)
    · omega
    · exact .inr ⟨by omega, by simpa using hb⟩

theorem Window32.ahead (h : Window32 sa acc) (hlt : sa.seq.toNat < seq.toNat) :
    Window32 { (antiReplayWindowShift sa (seq - sa.seq)).1 with seq := seq }
      (acc ++ [seq.toNat]) := by
  have hd : (seq - sa.seq).toNat = seq.toNat - sa.seq.toNat :=
    toNat_sub_of_le (le_of_lt hlt)
  have hbit : ∀ m, m ≤ seq.toNat → seq.toNat ≤ m + 63 →
      (antiReplayWindowShift sa (seq - sa.seq)).1.replayWindow.getLsbD (seq.toNat - m) =
        (decide (m = seq.toNat) ||
          (decide (m ≤ sa.seq.toNat) && sa.replayWindow.getLsbD (sa.seq.toNat - m))) := by
    intro m hm hw
    rw [antiReplayWindowShift_getLsbD (by omega)]
    congr 1
    · exact decide_eq_decide.mpr (by omega)
    by_cases hle : m ≤ sa.seq.toNat
    · rw [decide_eq_true hle, decide_eq_true (by omega)]
      congr 2
      omega
    · rw [decide_eq_false hle, decide_eq_false (by omega)]
      rfl
  refine ⟨by simpa using h.esn, by simpa using h.antiReplay, h.remembers.ahead hlt ?_ ?_ ?_⟩
  · rw [hbit _ (le_refl _) (by omega)]
    simp
  · intro m hm hw
    rw [hbit m (by omega) hw, decide_eq_false (by omega), decide_eq_true hm]
    simp
  · intro m hm hmn hw
    rw [hbit m (by omega) hw, decide_eq_false (by omega), decide_eq_false (by omega)]
    simp

theorem Window32.behind (h : Window32 sa acc)
    (hle : seq.toNat ≤ sa.seq.toNat) (hw : sa.seq.toNat ≤ seq.toNat + 63) :
    Window32 { sa with replayWindow := sa.replayWindow ||| (1#64 <<< (sa.seq - seq).toNat) }
      (acc ++ [seq.toNat]) := by
  have hd : (sa.seq - seq).toNat = sa.seq.toNat - seq.toNat := toNat_sub_of_le hle
  refine ⟨h.esn, h.antiReplay, h.remembers.behind hle ?_ fun m hm hmw hne => ?_⟩
  · show (sa.replayWindow ||| (1#64 <<< (sa.seq - seq).toNat)).getLsbD (sa.seq.toNat - seq.toNat) =
      true
    rw [getLsbD_or_one_shl _ (by omega), hd, decide_eq_true rfl, Bool.or_true]
  · show (sa.replayWindow ||| (1#64 <<< (sa.seq - seq).toNat)).getLsbD (sa.seq.toNat - m) = true ↔ _
    rw [getLsbD_or_one_shl _ (by omega), decide_eq_false (by omega), Bool.or_false]

theorem Window32.receiveSeq (h : Window32 sa acc) (seq : BitVec 32) :
    Window32 (receiveSeq sa seq).1
      (if (Ipsec.receiveSeq sa seq).2 then acc ++ [seq.toNat] else acc) := by
  have hiff := h.receiveSeq_iff seq
  cases hc : (antiReplayAndSnAdvance sa seq 0#32 true).1 with
  | true =>
    rw [show Ipsec.receiveSeq sa seq = (sa, false) by rw [Ipsec.receiveSeq, if_pos hc]]
    exact h
  | false =>
    have heq : Ipsec.receiveSeq sa seq = ((antiReplayAdvance sa seq 0#32).1, true) := by
      rw [Ipsec.receiveSeq, if_neg (by simp [hc])]
    rw [heq] at hiff ⊢
    rw [antiReplayAdvance_nonEsn h.esn]
    have hfresh := h.remembers.fresh_iff.mp (hiff.mp rfl)
    split
    · rename_i hlt
      exact h.ahead (lt_def.mp hlt)
    · rename_i hlt
      rcases hfresh with hgt | ⟨hle, hw, -⟩
      · exact absurd hgt hlt
      · exact h.behind hle hw

/-! ## Whole runs -/

/-- The highest sequence number accepted so far, `0` on a fresh SA. -/
def highestSeq (acc : List (BitVec 32)) : Nat := highest (acc.map BitVec.toNat)

theorem window32_initSa32 : Window32 initSa32 [] :=
  ⟨rfl, rfl, rfl, fun n hn _ => by
    simp [initSa32]⟩

theorem window32_run (ns : List (BitVec 32)) :
    Window32 (after (gate receiveSeq) initSa32 ns)
        ((Lib.accepted receiveSeq initSa32 ns).map BitVec.toNat) ∧
      ((Lib.accepted receiveSeq initSa32 ns).map BitVec.toNat).Nodup :=
  gate_run (fun _ _ n h _ => h.receiveSeq_iff n) (fun _ _ n h _ => h.receiveSeq n)
    window32_initSa32 (along_of_forall (fun _ _ => trivial) _ _)

/-- **The window is exact.** After any packets, one is accepted exactly when its number was not accepted
before and is greater than the highest accepted one minus 64. -/
theorem receiveSeq_accepts_iff (ns : List (BitVec 32)) (n : BitVec 32) :
    ((receiveSeq (after (gate receiveSeq) initSa32 ns) n).2 = true ↔
      n ∉ Lib.accepted receiveSeq initSa32 ns ∧
        (highestSeq (Lib.accepted receiveSeq initSa32 ns) : Int) - 64 < n.toNat) ∧
    (Lib.accepted receiveSeq initSa32 ns).Nodup := by
  obtain ⟨hwin, hnd⟩ := window32_run ns
  refine ⟨?_, hnd.of_map _⟩
  rw [hwin.receiveSeq_iff, Fresh, mem_map_of_injective fun _ _ => eq_of_toNat_eq]
  unfold highestSeq
  constructor
  · rintro ⟨hmem, hle⟩
    exact ⟨hmem, by omega⟩
  · rintro ⟨hmem, hle⟩
    exact ⟨hmem, by omega⟩

example : Lib.accepted receiveSeq initSa32 [1, 70, 6, 7, 70, 7, 71] = [1, 70, 7, 71] := by decide

/-! ## Lost packets -/

/-- How many of the numbers from 1 to `m` were never accepted. -/
def missed (acc : List Nat) (m : Nat) : Nat := Nat.count (fun i => i + 1 ∉ acc) m

/-- The SA and the sum of the lost counts, with a packet as in `receiveSeq`. -/
def receiveCounting (s : Sa × Nat) (seq : BitVec 32) : (Sa × Nat) × Bool :=
  let r := receiveSeq s.1 seq
  ((r.1, if r.2 then s.2 + (antiReplayAdvance s.1 seq 0#32).2.toNat else s.2), r.2)

/-- What a packet has to be for its losses to be counted: the highest number is past the window already, or
none of the numbers that leave was missed. -/
def Counted (sa : Sa) (seq : BitVec 32) : Prop :=
  sa.seq.toNat < seq.toNat → 64 < sa.seq.toNat ∨ sa.seq.toNat = 64 ∧ 128 ≤ seq.toNat ∨
    seq.toNat < sa.seq.toNat + 64 ∧ ∀ n, 0 < n → n + 64 ≤ seq.toNat →
      sa.replayWindow.getLsbD (sa.seq.toNat - n) = true

theorem missed_concat {m n : Nat} (h : ∀ i < m, i + 1 ≠ n) :
    missed (acc ++ [n]) m = missed acc m := by
  refine countP_congr fun i hi => ?_
  simp only [mem_append, mem_singleton, decide_eq_true_eq]
  exact not_congr (or_iff_left (h i (mem_range.mp hi)))

/-- The number `i` past `a` was accepted. -/
abbrev SeenFrom (acc : List Nat) (a i : Nat) : Prop := a + i + 1 ∈ acc

theorem count_seen_add (acc : List Nat) (a k : Nat) :
    Nat.count (SeenFrom acc a) k + Nat.count (fun i => ¬ SeenFrom acc a i) k = k := by
  simpa [Nat.count] using
    (length_eq_countP_add_countP (fun i => decide (SeenFrom acc a i)) (l := List.range k)).symm

theorem windowMask_eq : ∀ k < 64,
    ((1#64 <<< k) - 1#64) <<< (64 - k) = BitVec.allOnes 64 <<< (64 - k) := by decide

section Lost

variable {sa : Sa} {acc : List Nat} {seq : BitVec 32}

theorem lost_nonEsn (hE : sa.useEsn = false) : (antiReplayAdvance sa seq 0#32).2.toNat =
    if sa.seq < seq then (antiReplayWindowShift sa (seq - sa.seq)).2.toNat else 0 := by
  simp only [antiReplayAdvance, hE, Bool.false_eq_true, if_false]
  split
  · rw [toNat_setWidth]
    omega
  · rfl

theorem Window32.countSetBits_eq (h : Window32 sa acc) (ht : 64 ≤ sa.seq.toNat) {k : Nat}
    (hk : k ≤ 64) {y : BitVec 64}
    (hy : ∀ i < 64, y.getLsbD i = (decide (64 - k ≤ i) && sa.replayWindow.getLsbD i)) :
    countSetBits y = Nat.count (SeenFrom acc (sa.seq.toNat - 64)) k := by
  have hrev : countSetBits y =
      Nat.count (fun i => i < k ∧ SeenFrom acc (sa.seq.toNat - 64) i) (k + (64 - k)) := by
    rw [Nat.add_sub_cancel' hk, countSetBits, ← countP_reverse, range_eq_range',
      reverse_range', countP_map]
    refine countP_congr fun i hi => ?_
    have hi := mem_range.mp hi
    have hseen := h.remembers.seen_iff (sa.seq.toNat - 64 + i + 1) (by omega) (by omega)
    rw [show sa.seq.toNat - (sa.seq.toNat - 64 + i + 1) = 0 + 64 - 1 - i by omega] at hseen
    rw [Function.comp_apply, hy _ (by omega), Bool.and_eq_true, hseen, decide_eq_true_eq,
      decide_eq_true_eq]
    exact and_congr_left' (by omega)
  have hrest : Nat.count (fun i => k + i < k ∧ SeenFrom acc (sa.seq.toNat - 64) (k + i)) (64 - k) = 0 :=
    count_iff_forall_not.mpr fun i _ hn => not_lt.mpr (Nat.le_add_right k i) hn.1
  rw [hrev, count_add, hrest]
  exact countP_congr fun i hi => by simp [mem_range.mp hi]

theorem Window32.lost (h : Window32 sa acc) (hlt : sa.seq.toNat < seq.toNat)
    (ht : 64 < sa.seq.toNat ∨ sa.seq.toNat = 64 ∧ 128 ≤ seq.toNat) :
    (antiReplayAdvance sa seq 0#32).2.toNat =
      Nat.count (fun i => ¬ SeenFrom acc (sa.seq.toNat - 64) i) (seq.toNat - sa.seq.toNat) := by
  have hd : (seq - sa.seq).toNat = seq.toNat - sa.seq.toNat :=
    toNat_sub_of_le (le_of_lt hlt)
  have hw : windowSize.toNat = 64 := rfl
  have hsum := count_seen_add acc (sa.seq.toNat - 64) (seq.toNat - sa.seq.toNat)
  rw [lost_nonEsn h.esn, if_pos (lt_def.mpr hlt), antiReplayWindowShift]
  by_cases hsmall : seq.toNat - sa.seq.toNat < 64
  · have hbits := h.countSetBits_eq (by omega) (le_of_lt hsmall)
      (y := sa.replayWindow &&& BitVec.allOnes 64 <<< (64 - (seq.toNat - sa.seq.toNat)))
      fun i hi => by
        rw [getLsbD_and, getLsbD_shiftLeft, getLsbD_allOnes, decide_eq_true hi,
          decide_eq_true (lt_of_le_of_lt (sub_le i _) hi), Bool.and_true, Bool.true_and,
          ← decide_not, Bool.and_comm]
        simp only [not_lt]
    rw [if_pos (by rw [lt_def, hd]; exact hsmall)]
    dsimp only
    rw [if_pos (by rw [lt_def]; omega), hd, windowMask_eq _ hsmall]
    simp only [toNat_sub, toNat_ofNat]
    omega
  · have hbits := h.countSetBits_eq (y := sa.replayWindow) (by omega) (le_refl 64)
      fun i _ => by simp
    have hle := count_le (SeenFrom acc (sa.seq.toNat - 64)) (n := 64)
    -- nothing past the highest number was accepted
    have hnew : Nat.count (SeenFrom acc (sa.seq.toNat - 64)) (64 + (seq.toNat - sa.seq.toNat - 64)) =
        Nat.count (SeenFrom acc (sa.seq.toNat - 64)) 64 := by
      rw [count_add]
      exact Nat.add_eq_left.mpr
        (count_iff_forall_not.mpr fun i hi => h.remembers.not_mem_of_lt (by omega))
    rw [Nat.add_sub_cancel' (Nat.le_of_not_lt hsmall)] at hnew
    rw [if_neg (by rw [lt_def, hd]; exact hsmall)]
    simp only [toNat_add, toNat_ofNat, toNat_sub]
    omega

/-- **One packet.** The lost count is the number of those that leave the window unseen. -/
theorem Window32.missed_step (h : Window32 sa acc) (hfresh : Fresh 63 acc seq.toNat)
    (hc : Counted sa seq) :
    missed acc (sa.seq.toNat - 64) + (antiReplayAdvance sa seq 0#32).2.toNat =
      missed (acc ++ [seq.toNat]) (highest (acc ++ [seq.toNat]) - 64) := by
  have htop := h.remembers.top_eq
  rw [highest_concat, ← htop]
  rcases lt_or_ge sa.seq.toNat seq.toNat with hlt | hle
  · rw [max_eq_right (le_of_lt hlt), missed_concat fun i hi => by omega]
    by_cases ht : 64 < sa.seq.toNat ∨ sa.seq.toNat = 64 ∧ 128 ≤ seq.toNat
    · rw [h.lost hlt ht,
        show seq.toNat - 64 = sa.seq.toNat - 64 + (seq.toNat - sa.seq.toNat) by omega]
      exact (count_add ..).symm
    obtain ⟨hsmall, hbits⟩ := (or_assoc.mpr (hc hlt)).resolve_left ht
    have hd := toNat_sub_of_le (le_def.mpr (le_of_lt hlt))
    have hw : windowSize.toNat = 64 := rfl
    have hnone : missed acc (seq.toNat - 64) = 0 := count_iff_forall_not.mpr fun i hi hn =>
      hn ((h.remembers.seen_iff (i + 1) (by omega) (by omega)).mp
        (hbits (i + 1) (succ_pos i) (by omega)))
    rw [hnone, lost_nonEsn h.esn, if_pos (lt_def.mpr hlt), antiReplayWindowShift,
      if_pos (by rw [lt_def]; omega),
      if_neg (by rw [lt_def]; omega), show sa.seq.toNat - 64 = 0 by omega]
    rfl
  · have hw := hfresh.2
    rw [max_eq_left hle, missed_concat fun i hi => by omega, lost_nonEsn h.esn, if_neg]
    · rfl
    · exact fun hn => not_le.mpr (lt_def.mp hn) hle

/-- The window and the sum of the lost counts are right for the numbers accepted so far. -/
structure Counts (s : Sa × Nat) (acc : List Nat) : Prop where
  window : Window32 s.1 acc
  total : s.2 = missed acc (s.1.seq.toNat - 64)

theorem Counts.receive {s : Sa × Nat} (h : Counts s acc) (hc : Counted s.1 seq) :
    Counts (receiveCounting s seq).1
      (if (receiveCounting s seq).2 then acc ++ [seq.toNat] else acc) := by
  have hwin := h.window.receiveSeq seq
  have hiff := h.window.receiveSeq_iff seq
  refine ⟨hwin, ?_⟩
  rw [show (receiveCounting s seq).1.1.seq.toNat = _ from hwin.remembers.top_eq]
  change (if (receiveSeq s.1 seq).2 then _ else _) =
    missed (if (receiveSeq s.1 seq).2 then _ else _) _
  by_cases hacc : (receiveSeq s.1 seq).2 = true
  · simp only [if_pos hacc, h.total]
    exact h.window.missed_step (hiff.mp hacc) hc
  · simp only [if_neg hacc, h.total, h.window.remembers.top_eq]

end Lost

/-- **Losses are counted** in every run whose packets are all `Counted`: the lost counts add up to how many
numbers from 1 to the highest minus 64 were never accepted. -/
theorem losses_counted (ns : List (BitVec 32))
    (hns : Along (gate receiveCounting) (fun s n => Counted s.1 n) (initSa32, 0) ns) :
    (after (gate receiveCounting) (initSa32, 0) ns).2 =
      missed ((Lib.accepted receiveCounting (initSa32, 0) ns).map BitVec.toNat)
        (highestSeq (Lib.accepted receiveCounting (initSa32, 0) ns) - 64) := by
  have hrun : Counts (after (gate receiveCounting) (initSa32, 0) ns)
        ((Lib.accepted receiveCounting (initSa32, 0) ns).map BitVec.toNat) ∧
      ((Lib.accepted receiveCounting (initSa32, 0) ns).map BitVec.toNat).Nodup :=
    gate_run (fun _ _ n h _ => h.window.receiveSeq_iff n) (fun _ _ _ h hc => h.receive hc)
      ⟨window32_initSa32, rfl⟩ hns
  rw [hrun.1.total, hrun.1.window.remembers.top_eq]
  rfl

/-- 60 and 64, then 128: all others up to 64 are lost. -/
theorem losses_counted_three :
    (after (gate receiveCounting) (initSa32, 0) [60, 64, 128]).2 = missed [60, 64, 128] 64 :=
  losses_counted [60, 64, 128] ⟨fun _ => .inr (.inr ⟨by decide, fun n hn h => by
      have h : n + 64 ≤ 60 := h
      omega⟩), fun _ => .inr (.inr ⟨by decide, fun n hn h => by
      have h : n + 64 ≤ 64 := h
      omega⟩), fun _ => .inr (.inl (by decide)), trivial⟩

/-- 60 and then 70: 1 to 6 are lost and not counted. 100 as the first packet: 36 are lost and 100 are
counted. -/
theorem losses_miscounted :
    (after (gate receiveCounting) (initSa32, 0) [60, 70]).2 = 0 ∧ missed [60, 70] (70 - 64) = 6 ∧
      (after (gate receiveCounting) (initSa32, 0) [100]).2 = 100 ∧ missed [100] (100 - 64) = 36 := by
  decide +kernel

end Vpp.Ipsec
