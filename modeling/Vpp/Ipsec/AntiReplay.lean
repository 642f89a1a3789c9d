import Vpp.Ipsec.Sa
import Vpp.Lib.Replay

/-!
# Anti-replay with extended sequence numbers

A packet carries a true 64-bit sequence number of which only the low half is on the wire. The
receiver asks `antiReplayAndSnAdvance` for the high half to decrypt with; an authentic packet
decrypts exactly when that is its true high half. `receive` is one packet through the
check, decrypt, check, advance sequence of `esp_decrypt` and `ah_decrypt`.

When the low half wraps, `antiReplayAdvance` shifts the window by `~seq + sa->seq + 1`, which is the
old low half minus the new one and not the distance travelled. The shift is then always at least
a whole window, so every bit is dropped. That is right when the number really moved by a window or
more (`Advances`), and loses accepted numbers when it moved by less.
-/

namespace Vpp.Ipsec

open List hiding after

open Vpp.Lib (Along accepted after gate gate_history getLsbD_or_one_shl along_of_forall)

def lo (n : BitVec 64) : BitVec 32 := n.setWidth 32

def hi (n : BitVec 64) : BitVec 32 := (n >>> 32).setWidth 32

/-- A packet with true sequence number `n` arrives; `some` of the new SA when it is accepted. -/
def receive (sa : Sa) (n : BitVec 64) : Option Sa :=
  match antiReplayAndSnAdvance sa (lo n) (~~~0#32) false with
  | (false, some hiSeq) =>
    -- decryption succeeds exactly under the true high half
    if hiSeq = hi n then
      if (antiReplayAndSnAdvance sa (lo n) hiSeq true).1 then none
      else some (antiReplayAdvance sa (lo n) hiSeq).1
    else none
  | _ => none

/-- The SA after the packet, and whether it was accepted. -/
def receiveEsn (sa : Sa) (n : BitVec 64) : Sa × Bool := ((receive sa n).getD sa, (receive sa n).isSome)

def initSa : Sa := ⟨true, true, 0#32, 0#32, 0#64⟩

def top (sa : Sa) : Nat := sa.seqHi.toNat * 2 ^ 32 + sa.seq.toNat

/-- The packet is taken as the one that wraps the low half (case A below the window). -/
def WrapsForward (sa : Sa) (n : BitVec 64) : Prop :=
  windowMaxIndex ≤ sa.seq ∧ lo n < windowLowerBound sa.seq ∧ hi n = sa.seqHi + 1#32

/-- The packet is taken as one from before the last wrap (case B above the lower bound). -/
def FallsBack (sa : Sa) (n : BitVec 64) : Prop :=
  sa.seq < windowMaxIndex ∧ windowLowerBound sa.seq ≤ lo n ∧ hi n = sa.seqHi - 1#32

instance (sa : Sa) (n : BitVec 64) : Decidable (WrapsForward sa n) :=
  inferInstanceAs (Decidable (_ ∧ _ ∧ _))

instance (sa : Sa) (n : BitVec 64) : Decidable (FallsBack sa n) :=
  inferInstanceAs (Decidable (_ ∧ _ ∧ _))

/-- A packet that wraps the low half is at least a window ahead, and the high half itself does not
wrap in either direction. -/
def Advances (sa : Sa) (n : BitVec 64) : Prop :=
  (WrapsForward sa n → sa.seqHi ≠ ~~~0#32 ∧ top sa + 64 ≤ n.toNat) ∧
  (FallsBack sa n → sa.seqHi ≠ 0#32)

instance (sa : Sa) (n : BitVec 64) : Decidable (Advances sa n) :=
  inferInstanceAs (Decidable (_ ∧ _))

theorem toNat_eq_hi_lo (n : BitVec 64) : n.toNat = (hi n).toNat * 2 ^ 32 + (lo n).toNat := by
  simp only [hi, lo, BitVec.toNat_setWidth, BitVec.toNat_ushiftRight]
  omega

theorem toNat_windowLowerBound (s : BitVec 32) :
    (windowLowerBound s).toNat = (s.toNat + (2 ^ 32 - 63)) % 2 ^ 32 := by
  simp only [windowLowerBound, windowSize, BitVec.toNat_add, BitVec.toNat_sub, BitVec.toNat_ofNat]
  omega

/-! ## What acceptance means -/

variable {sa sa' : Sa} {n : BitVec 64} {acc : List (BitVec 64)}

theorem receive_eq_some :
    receive sa n = some sa' ↔
      antiReplayAndSnAdvance sa (lo n) (~~~0#32) false = (false, some (hi n)) ∧
        (antiReplayAndSnAdvance sa (lo n) (hi n) true).1 = false ∧
        sa' = (antiReplayAdvance sa (lo n) (hi n)).1 := by
  unfold receive
  split
  · rename_i h hp
    rw [hp]
    by_cases he : h = hi n
    · subst he
      cases hq : (antiReplayAndSnAdvance sa (lo n) (hi n) true).1
      · simp [eq_comm]
      · simp
    · simp [he]
  · rename_i hp
    simp only [reduceCtorEq, false_iff, not_and]
    intro h
    exact absurd h (hp _)

theorem antiReplayAndSnAdvance_esn (hE : sa.useEsn = true) (hA : sa.useAntiReplay = true)
    (seq used : BitVec 32) (post : Bool) :
    antiReplayAndSnAdvance sa seq used post =
      if windowMaxIndex ≤ sa.seq then
        if seq < windowLowerBound sa.seq then
          if post then (used == sa.seqHi, none) else (false, some (sa.seqHi + 1#32))
        else if seq ≤ sa.seq then
          (sa.replayWindow.getLsbD (sa.seq - seq).toNat, if post then none else some sa.seqHi)
        else (false, if post then none else some sa.seqHi)
      else if seq < windowLowerBound sa.seq then
        if seq ≤ sa.seq then
          (sa.replayWindow.getLsbD (sa.seq - seq).toNat, if post then none else some sa.seqHi)
        else (false, if post then none else some sa.seqHi)
      else (sa.replayWindow.getLsbD (sa.seq - seq).toNat,
        if post then none else some (sa.seqHi - 1#32)) := by
  simp only [antiReplayAndSnAdvance, hE, hA, antiReplayCheck_eq hA, Bool.not_true,
    Bool.false_eq_true, if_false]

/-- A number under the same high half is ahead of the highest one, or new and inside the window. -/
theorem same_half (hin : lo n ≤ sa.seq → (sa.seq - lo n).toNat < 64)
    (h : (if lo n ≤ sa.seq then (sa.replayWindow.getLsbD (sa.seq - lo n).toNat, some sa.seqHi)
      else (false, some sa.seqHi)) = (false, some (hi n))) :
    (hi n = sa.seqHi ∧ sa.seq < lo n) ∨ (hi n = sa.seqHi ∧ lo n ≤ sa.seq ∧ (sa.seq - lo n).toNat < 64 ∧
      sa.replayWindow.getLsbD (sa.seq - lo n).toNat = false) := by
  split at h
  · rename_i hle
    simp only [Prod.mk.injEq, Option.some.injEq] at h
    exact .inr ⟨h.2.symm, hle, hin hle, h.1⟩
  · rename_i hle
    simp only [Prod.mk.injEq, Option.some.injEq, true_and] at h
    exact .inl ⟨h.symm, BitVec.not_le.mp hle⟩

theorem receive_cases (hE : sa.useEsn = true)
    (hA : sa.useAntiReplay = true) (h : receive sa n = some sa') :
    sa' = (antiReplayAdvance sa (lo n) (hi n)).1 ∧
      (WrapsForward sa n ∨ (hi n = sa.seqHi ∧ sa.seq < lo n) ∨
        (hi n = sa.seqHi ∧ lo n ≤ sa.seq ∧ (sa.seq - lo n).toNat < 64 ∧
          sa.replayWindow.getLsbD (sa.seq - lo n).toNat = false) ∨
        (FallsBack sa n ∧ sa.replayWindow.getLsbD (sa.seq - lo n).toNat = false)) := by
  obtain ⟨hpre, -, hadv⟩ := receive_eq_some.mp h
  refine ⟨hadv, ?_⟩
  rw [antiReplayAndSnAdvance_esn hE hA] at hpre
  simp only [Bool.false_eq_true, if_false] at hpre
  have hlb := toNat_windowLowerBound sa.seq
  have hmax : windowMaxIndex.toNat = 63 := rfl
  have hinside : (sa.seq < windowMaxIndex ∨ ¬ lo n < windowLowerBound sa.seq) → lo n ≤ sa.seq →
      (sa.seq - lo n).toNat < 64 := by
    intro hor hle
    rw [BitVec.toNat_sub_of_le hle]
    simp only [BitVec.lt_def] at hor
    omega
  split at hpre
  · rename_i hcA
    split at hpre
    · -- case A below the window: only the wrapped high half gets through
      rename_i hlow
      simp only [Prod.mk.injEq, Option.some.injEq, true_and] at hpre
      exact .inl ⟨hcA, hlow, hpre.symm⟩
    · rename_i hlow
      exact .inr ((same_half (hinside (.inr hlow)) hpre).imp_right .inl)
  · rename_i hcB
    split at hpre
    · exact .inr ((same_half (hinside (.inl (BitVec.not_le.mp hcB))) hpre).imp_right .inl)
    · -- case B above the lower bound: a number from before the wrap
      rename_i hlow
      simp only [Prod.mk.injEq, Option.some.injEq] at hpre
      exact .inr (.inr (.inr ⟨⟨BitVec.not_le.mp hcB, BitVec.not_lt.mp hlow, hpre.2.symm⟩, hpre.1⟩))

/-! ## What the advance does -/

theorem not_add_add_one (a b : BitVec 32) : ~~~a + b + 1#32 = b - a := by
  rw [BitVec.sub_eq_add_neg, BitVec.neg_eq_not_add]
  ac_rfl

theorem antiReplayAdvance_ahead (hh : hi n = sa.seqHi) (hlt : sa.seq < lo n) :
    (antiReplayAdvance sa (lo n) (hi n)).1 =
      { (antiReplayWindowShift sa (lo n - sa.seq)).1 with seq := lo n } := by
  simp [antiReplayAdvance, hh, hlt]

theorem antiReplayAdvance_wrap (hE : sa.useEsn = true) (hw : WrapsForward sa n) :
    (antiReplayAdvance sa (lo n) (hi n)).1 =
      { sa with replayWindow := 1#64, seq := lo n, seqHi := hi n } := by
  obtain ⟨hcA, hlow, hh⟩ := hw
  have hlb := toNat_windowLowerBound sa.seq
  have hmax : windowMaxIndex.toNat = 63 := rfl
  have hge : ¬ sa.seq - lo n < windowSize := by
    have hws : windowSize.toNat = 64 := rfl
    rw [BitVec.le_def] at hcA
    rw [BitVec.lt_def] at hlow ⊢
    rw [BitVec.toNat_sub_of_le (by rw [BitVec.le_def]; omega)]
    omega
  simp [antiReplayAdvance, hE, hh, not_add_add_one, antiReplayWindowShift, hge]

theorem antiReplayAdvance_behind (hE : sa.useEsn = true)
    (h : (hi n = sa.seqHi ∧ lo n ≤ sa.seq) ∨ hi n = sa.seqHi - 1#32) :
    (antiReplayAdvance sa (lo n) (hi n)).1 =
      { sa with replayWindow := sa.replayWindow ||| (1#64 <<< (sa.seq - lo n).toNat) } := by
  rcases h with ⟨hh, hle⟩ | hh
  · have : ¬ sa.seq < lo n := BitVec.not_lt.mpr hle
    simp [antiReplayAdvance, hh, this]
  simp [antiReplayAdvance, hE, hh, not_add_add_one]

/-! ## The window remembers what was accepted -/

theorem top_sub_of_behind (h : (hi n = sa.seqHi ∧ lo n ≤ sa.seq) ∨ (FallsBack sa n ∧ sa.seqHi ≠ 0#32)) :
    n.toNat ≤ top sa ∧ top sa - n.toNat = (sa.seq - lo n).toNat := by
  have hn := toNat_eq_hi_lo n
  unfold top
  rcases h with ⟨hh, hle⟩ | ⟨⟨hcB, hlow, hh⟩, hne⟩
  · rw [BitVec.toNat_sub_of_le hle]
    rw [BitVec.le_def] at hle
    rw [hh] at hn
    omega
  · have hpos : 0 < sa.seqHi.toNat := by
      rcases Nat.eq_zero_or_pos sa.seqHi.toNat with h0 | h0
      · exact absurd (BitVec.eq_of_toNat_eq (by simpa using h0)) hne
      · exact h0
    have hhn : (hi n).toNat = sa.seqHi.toNat - 1 := by
      rw [hh, BitVec.toNat_sub]; simp only [BitVec.toNat_ofNat]; omega
    have hmax : windowMaxIndex.toNat = 63 := rfl
    have hlb := toNat_windowLowerBound sa.seq
    rw [BitVec.lt_def] at hcB
    rw [BitVec.le_def] at hlow
    rw [BitVec.toNat_sub]
    omega

theorem lt_of_ahead (hh : hi n = sa.seqHi) (hlt : sa.seq < lo n) :
    n.toNat = top sa + (lo n - sa.seq).toNat ∧ top sa < n.toNat := by
  have hn := toNat_eq_hi_lo n
  rw [BitVec.toNat_sub_of_le (BitVec.le_of_lt hlt)]
  rw [BitVec.lt_def] at hlt
  rw [hh] at hn
  unfold top
  omega

theorem FallsBack.distance (h : FallsBack sa n) :
    sa.seq.toNat < (sa.seq - lo n).toNat ∧ (sa.seq - lo n).toNat < 64 := by
  obtain ⟨hcB, hlow, -⟩ := h
  have hmax : windowMaxIndex.toNat = 63 := rfl
  have hlb := toNat_windowLowerBound sa.seq
  rw [BitVec.lt_def] at hcB
  rw [BitVec.le_def] at hlow
  rw [BitVec.toNat_sub]
  omega

/-- What an accepted packet does to the highest number and to the bits below it. -/
inductive Moved (sa : Sa) (n : BitVec 64) (sa' : Sa) : Prop
  | wrap (hw : WrapsForward sa n) (htop : top sa' = n.toNat)
      (hbit : ∀ i < 64, sa'.replayWindow.getLsbD i = decide (i = 0))
  | ahead (hlt : top sa < n.toNat) (htop : top sa' = n.toNat)
      (hbit : ∀ i < 64, sa'.replayWindow.getLsbD i = (decide (i = 0) ||
        (decide (n.toNat - top sa ≤ i) && sa.replayWindow.getLsbD (i - (n.toNat - top sa)))))
  | behind (hle : n.toNat ≤ top sa) (hlt : top sa - n.toNat < 64)
      (hnew : sa.replayWindow.getLsbD (top sa - n.toNat) = false) (htop : top sa' = top sa)
      (hbit : ∀ i < 64, sa'.replayWindow.getLsbD i =
        (sa.replayWindow.getLsbD i || decide (i = top sa - n.toNat)))
  /-- The bit stands for a number below zero. -/
  | below (hf : FallsBack sa n) (h0 : sa.seqHi = 0#32) (htop : top sa' = top sa)
      (hbit : ∀ i ≤ top sa, i < 64 → sa'.replayWindow.getLsbD i = sa.replayWindow.getLsbD i)

theorem moved_of_receive (hE : sa.useEsn = true)
    (hA : sa.useAntiReplay = true) (h : receive sa n = some sa') :
    sa'.useEsn = true ∧ sa'.useAntiReplay = true ∧ Moved sa n sa' := by
  obtain ⟨rfl, hc⟩ := receive_cases hE hA h
  rcases hc with hw | ⟨hh, hlt⟩ | ⟨hh, hle, h64, hb⟩ | ⟨hf, hb⟩
  · rw [antiReplayAdvance_wrap hE hw]
    exact ⟨hE, hA, .wrap hw (toNat_eq_hi_lo n).symm fun i _ => by simp⟩
  · rw [antiReplayAdvance_ahead hh hlt]
    obtain ⟨hn, hgt⟩ := lt_of_ahead hh hlt
    refine ⟨by simpa using hE, by simpa using hA, .ahead hgt ?_ fun i hi => ?_⟩
    · unfold top
      simp only [antiReplayWindowShift_seqHi]
      rw [toNat_eq_hi_lo n, hh]
    · rw [show n.toNat - top sa = (lo n - sa.seq).toNat by omega]
      exact antiReplayWindowShift_getLsbD hi
  · rw [antiReplayAdvance_behind hE (.inl ⟨hh, hle⟩)]
    obtain ⟨hn, hd⟩ := top_sub_of_behind (.inl ⟨hh, hle⟩)
    rw [← hd] at h64 hb ⊢
    exact ⟨hE, hA, .behind hn h64 hb rfl fun i hi => getLsbD_or_one_shl _ hi⟩
  · rw [antiReplayAdvance_behind hE (.inr hf.2.2)]
    obtain ⟨hpos, h64⟩ := hf.distance
    by_cases h0 : sa.seqHi = 0#32
    · refine ⟨hE, hA, .below hf h0 rfl fun i hi hlt => ?_⟩
      have htop : top sa = sa.seq.toNat := by simp [top, h0]
      rw [getLsbD_or_one_shl _ hlt, decide_eq_false (by omega), Bool.or_false]
    · obtain ⟨hn, hd⟩ := top_sub_of_behind (.inr ⟨hf, h0⟩)
      rw [← hd] at h64 hb ⊢
      exact ⟨hE, hA, .behind hn h64 hb rfl fun i hi => getLsbD_or_one_shl _ hi⟩

/-- Every accepted number is at most the highest one, and those within a window of it have their
bit set. -/
structure Seen (acc : List (BitVec 64)) (sa : Sa) : Prop where
  esn : sa.useEsn = true
  antiReplay : sa.useAntiReplay = true
  le_top : ∀ a ∈ acc, a.toNat ≤ top sa
  bit : ∀ a ∈ acc, top sa - a.toNat < 64 →
    sa.replayWindow.getLsbD (top sa - a.toNat) = true

theorem seen_initSa : Seen [] initSa :=
  ⟨rfl, rfl, fun _ h => absurd h not_mem_nil, fun _ h => absurd h not_mem_nil⟩

theorem Seen.of_subset {acc' : List (BitVec 64)} (hs : Seen acc sa) (hsub : acc' ⊆ acc) : Seen acc' sa :=
  ⟨hs.esn, hs.antiReplay, fun a ha => hs.le_top a (hsub ha), fun a ha => hs.bit a (hsub ha)⟩

theorem Seen.not_mem (hs : Seen acc sa)
    (ha : Advances sa n) (h : receive sa n = some sa') : n ∉ acc := by
  intro hmem
  have hle := hs.le_top n hmem
  cases (moved_of_receive hs.esn hs.antiReplay h).2.2 with
  | wrap hw htop hbit =>
    have := (ha.1 hw).2
    omega
  | ahead hlt htop hbit => omega
  | behind hle hlt hnew htop hbit => exact absurd (hs.bit n hmem hlt) (by simp [hnew])
  | below hf h0 htop hbit => exact ha.2 hf h0

theorem Seen.receive (hs : Seen acc sa)
    (ha : Advances sa n) (h : receive sa n = some sa') : Seen (n :: acc) sa' := by
  obtain ⟨hE, hA, hm⟩ := moved_of_receive hs.esn hs.antiReplay h
  suffices hall : ∀ a ∈ n :: acc, a.toNat ≤ top sa' ∧ (top sa' - a.toNat < 64 →
      sa'.replayWindow.getLsbD (top sa' - a.toNat) = true) from
    ⟨hE, hA, fun a h => (hall a h).1, fun a h => (hall a h).2⟩
  intro a hmem
  have hold : a ∈ acc → a.toNat ≤ top sa := hs.le_top a
  cases hm with
  | wrap hw htop hbit =>
    have hge := (ha.1 hw).2
    rw [htop]
    rcases mem_cons.mp hmem with rfl | hmem
    · exact ⟨Nat.le_refl _, fun hlt => by rw [hbit _ hlt]; simp⟩
    · have := hold hmem
      omega
  | ahead hlt htop hbit =>
    rw [htop]
    rcases mem_cons.mp hmem with rfl | hmem
    · exact ⟨Nat.le_refl _, fun hlt => by rw [hbit _ hlt]; simp⟩
    have hle := hold hmem
    refine ⟨by omega, fun h64 => ?_⟩
    have hb := hs.bit a hmem (by omega)
    rw [hbit _ h64, show n.toNat - a.toNat - (n.toNat - top sa) = top sa - a.toNat by omega, hb,
      decide_eq_true (by omega : n.toNat - top sa ≤ n.toNat - a.toNat)]
    simp
  | behind hle hlt hnew htop hbit =>
    rw [htop]
    rcases mem_cons.mp hmem with rfl | hmem
    · exact ⟨hle, fun h64 => by rw [hbit _ h64]; simp⟩
    · exact ⟨hold hmem, fun h64 => by rw [hbit _ h64, hs.bit a hmem h64, Bool.true_or]⟩
  | below hf h0 htop hbit => exact absurd h0 (ha.2 hf)

/-! ## Whole runs -/

/-- **No sequence number is accepted twice** in a run whose wraps each move the SA by at least a
window and whose high half never wraps. -/
theorem accepted_nodup (ns : List (BitVec 64)) (hr : Along (gate receiveEsn) Advances initSa ns) :
    (accepted receiveEsn initSa ns).Nodup := by
  refine (gate_history (fun sa acc => Seen acc sa ∧ acc.Nodup) (fun sa acc n h ha => ?_)
    ⟨seen_initSa, nodup_nil⟩ hr).2
  unfold receiveEsn
  cases hrec : receive sa n with
  | none => exact h
  | some sa' =>
    exact ⟨(h.1.receive ha hrec).of_subset (perm_append_singleton n acc).subset,
      nodup_append.mpr ⟨h.2, nodup_singleton n, fun a ha' b hb he =>
        h.1.not_mem ha hrec (mem_singleton.mp hb ▸ he ▸ ha')⟩⟩

/-- A run over the end of the low half, with late and duplicate packets: only the fresh ones pass. -/
theorem accepted_nodup_wrap :
    Along (gate receiveEsn) Advances initSa
        [0x80000000, 0xfffffff0, 0xffffffef, 0x100000040, 0xfffffff0, 0x100000040] ∧
      accepted receiveEsn initSa
          [0x80000000, 0xfffffff0, 0xffffffef, 0x100000040, 0xfffffff0, 0x100000040] =
        [0x80000000, 0xfffffff0, 0xffffffef, 0x100000040] ∧
      (accepted receiveEsn initSa
        [0x80000000, 0xfffffff0, 0xffffffef, 0x100000040, 0xfffffff0, 0x100000040]).Nodup :=
  ⟨by decide, by decide, accepted_nodup _ (by decide)⟩

/-! ## Short wraps -/

/-- The number below the wrap is accepted again right after it. -/
theorem accepted_replay_after_wrap : ¬ ∀ ns : List (BitVec 64), (accepted receiveEsn initSa ns).Nodup := by
  intro h
  exact absurd (h [0x80000000, 0xffffffff, 0x100000000, 0xffffffff]) (by decide)

/-! ## The high half that is asked for -/

/-- Of the numbers up to the highest one, only accepted ones have their bit set. -/
structure Marks (acc : List (BitVec 64)) (sa : Sa) : Prop where
  esn : sa.useEsn = true
  antiReplay : sa.useAntiReplay = true
  mem : ∀ a : BitVec 64, a.toNat ≤ top sa → top sa - a.toNat < 64 →
    sa.replayWindow.getLsbD (top sa - a.toNat) = true → a ∈ acc

theorem marks_initSa : Marks [] initSa :=
  ⟨rfl, rfl, fun a _ _ hb => by simp [initSa] at hb⟩

theorem Marks.mono {acc' : List (BitVec 64)} (h : Marks acc sa) (hsub : acc ⊆ acc') : Marks acc' sa :=
  ⟨h.esn, h.antiReplay, fun a hle hlt hb => hsub (h.mem a hle hlt hb)⟩

theorem Marks.receive (hm : Marks acc sa) (h : receive sa n = some sa') : Marks (n :: acc) sa' := by
  obtain ⟨hE, hA, hmoved⟩ := moved_of_receive hm.esn hm.antiReplay h
  refine ⟨hE, hA, fun a hle hlt hb => ?_⟩
  have hself : a.toNat = n.toNat → a ∈ n :: acc := fun h =>
    mem_cons.mpr (.inl (BitVec.eq_of_toNat_eq h))
  have hold := fun hle hlt hb => mem_cons_of_mem n (hm.mem a hle hlt hb)
  cases hmoved with
  | wrap hw htop hbit =>
    rw [hbit _ hlt, decide_eq_true_iff] at hb
    exact hself (by omega)
  | ahead hgt htop hbit =>
    rw [htop] at hle hlt hb
    rw [hbit _ hlt, Bool.or_eq_true, Bool.and_eq_true, decide_eq_true_iff, decide_eq_true_iff] at hb
    rcases hb with hb | ⟨hinc, hb⟩
    · exact hself (by omega)
    · rw [show n.toNat - a.toNat - (n.toNat - top sa) = top sa - a.toNat by omega] at hb
      exact hold (by omega) (by omega) hb
  | behind hn hlt' hnew htop hbit =>
    rw [htop] at hle hlt hb
    rw [hbit _ hlt, Bool.or_eq_true, decide_eq_true_iff] at hb
    exact hb.elim (hold hle hlt) fun hb => hself (by omega)
  | below hf h0 htop hbit =>
    rw [htop] at hle hlt hb
    rw [hbit _ (Nat.sub_le ..) hlt] at hb
    exact hold hle hlt hb

theorem marks_run (ns : List (BitVec 64)) :
    Marks (accepted receiveEsn initSa ns) (after (gate receiveEsn) initSa ns) := by
  have hany : Along (gate receiveEsn) (fun _ _ => True) initSa ns := along_of_forall (fun _ _ => trivial) _ _
  refine gate_history (fun sa acc => Marks acc sa) (fun sa acc n h _ => ?_) marks_initSa hany
  unfold receiveEsn
  cases hrec : receive sa n with
  | none => exact h
  | some sa' => exact (h.receive hrec).mono (perm_append_singleton n acc).symm.subset

/-- **The high half is inferred.** In every state reached, a number less than a window behind the highest one
and less than `2 ^ 32` ahead of the window gets its own high half asked for, and what is reported as a replay
was accepted before. -/
theorem hi_seq_inferred (ns : List (BitVec 64)) (n : BitVec 64) (used : BitVec 32)
    (hlow : top (after (gate receiveEsn) initSa ns) ≤ n.toNat + 63)
    (hhigh : n.toNat + 64 ≤ top (after (gate receiveEsn) initSa ns) + 2 ^ 32) :
    (antiReplayAndSnAdvance (after (gate receiveEsn) initSa ns) (lo n) used false).2 = some (hi n) ∧
      ((antiReplayAndSnAdvance (after (gate receiveEsn) initSa ns) (lo n) used false).1 = true →
        n ∈ accepted receiveEsn initSa ns) := by
  have hm := marks_run ns
  generalize after (gate receiveEsn) initSa ns = sa at hlow hhigh hm
  have hn := toNat_eq_hi_lo n
  have hlb := toNat_windowLowerBound sa.seq
  have hmax : windowMaxIndex.toNat = 63 := rfl
  have hmem : ∀ d, top sa - n.toNat = d → n.toNat ≤ top sa → d < 64 →
      sa.replayWindow.getLsbD d = true → n ∈ accepted receiveEsn initSa ns := by
    rintro _ rfl hle hlt hb
    exact hm.mem n hle hlt hb
  unfold top at hlow hhigh hmem
  -- a number of the epoch of the highest one: only its own bit can turn it down
  have hepoch : (hi n).toNat = sa.seqHi.toNat →
      (if lo n ≤ sa.seq then (sa.replayWindow.getLsbD (sa.seq - lo n).toNat, some sa.seqHi)
        else (false, some sa.seqHi)).2 = some (hi n) ∧
      ((if lo n ≤ sa.seq then (sa.replayWindow.getLsbD (sa.seq - lo n).toNat, some sa.seqHi)
        else (false, some sa.seqHi)).1 = true → n ∈ accepted receiveEsn initSa ns) := by
    intro heq
    rw [BitVec.eq_of_toNat_eq heq]
    by_cases hle : lo n ≤ sa.seq
    · rw [if_pos hle, BitVec.toNat_sub_of_le hle]
      rw [BitVec.le_def] at hle
      exact ⟨rfl, hmem _ (by omega) (by omega) (by omega)⟩
    · rw [if_neg hle]
      exact ⟨rfl, fun h => nomatch h⟩
  rw [antiReplayAndSnAdvance_esn hm.esn hm.antiReplay]
  by_cases hA : windowMaxIndex ≤ sa.seq
  · simp only [if_pos hA]
    rw [BitVec.le_def] at hA
    by_cases hlt : lo n < windowLowerBound sa.seq
    · simp only [if_pos hlt]
      rw [BitVec.lt_def] at hlt
      refine ⟨congrArg some (BitVec.eq_of_toNat_eq ?_), fun h => nomatch h⟩
      rw [BitVec.toNat_add, BitVec.toNat_ofNat]
      omega
    · simp only [if_neg hlt]
      rw [BitVec.lt_def] at hlt
      exact hepoch (by omega)
  · simp only [if_neg hA]
    rw [BitVec.le_def] at hA
    by_cases hlt : lo n < windowLowerBound sa.seq
    · simp only [if_pos hlt]
      rw [BitVec.lt_def] at hlt
      exact hepoch (by omega)
    simp only [if_neg hlt]
    rw [BitVec.lt_def] at hlt
    refine ⟨congrArg some (BitVec.eq_of_toNat_eq ?_), hmem _ ?_ ?_ ?_⟩
    · rw [BitVec.toNat_sub, BitVec.toNat_ofNat]
      omega
    · rw [BitVec.toNat_sub]
      omega
    · omega
    · rw [BitVec.toNat_sub]
      omega

/-- The highest number is 16 past a wrap; one from just below it is still in the window. -/
theorem hi_seq_inferred_wrap :
    (antiReplayAndSnAdvance (after (gate receiveEsn) initSa [0x80000000, 0xfffffff0, 0x100000010])
      (lo 0xfffffff5) 0#32 false).2 = some 0#32 :=
  (hi_seq_inferred [0x80000000, 0xfffffff0, 0x100000010] 0xfffffff5 0#32 (by decide) (by decide)).1

end Vpp.Ipsec
