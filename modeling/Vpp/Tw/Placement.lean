import Vpp.Lib.Odometer
import Vpp.Tw.Wheel

/-!
# Where a timer belongs

`Within` says which slot a timer may be in at a tick, from the tick at which it is due. A timer is in
the ring of a wheel that must still turn; once the wheels below are through, its slot is dealt out, so a
due slot is pending until then. With an overflow vector the ring shift is at most ten:
`1 << (3 * TW_RING_SHIFT)` is an `int`.
-/

namespace Vpp.Tw

open Vpp.Lib Nat

/-- The ring shift leaves three wheels in an `int`. -/
def Geometry.Fits (g : Geometry) : Prop := g.ringShift ≤ 10

instance (g : Geometry) : Decidable g.Fits := inferInstanceAs (Decidable (_ ≤ _))

namespace Geometry

variable {g : Geometry}

theorem slotsPerRing_pos : 0 < g.slotsPerRing := Nat.two_pow_pos _

theorem Fits.slotsPerRing_le (h : g.Fits) : g.slotsPerRing ≤ 2 ^ 10 :=
  Nat.pow_le_pow_right (by decide) h

theorem Fits.tripleWrap_eq (h : g.Fits) : g.tripleWrap = g.slotsPerRing ^ 3 := by
  have hall : ∀ n < 11, ((1#32 <<< (3 * n)).signExtend 64).toNat = (2 ^ n) ^ 3 := by decide
  exact hall g.ringShift (lt_succ_of_le h)

theorem Fits.pow_three_le (h : g.Fits) : g.slotsPerRing ^ 3 ≤ 2 ^ 30 :=
  Nat.pow_le_pow_left h.slotsPerRing_le 3

theorem shift_two (g : Geometry) : 2 ^ (2 * g.ringShift) = g.slotsPerRing ^ 2 := by
  rw [slotsPerRing, ← Nat.pow_mul, Nat.mul_comm]

end Geometry

/-! ## The union -/

theorem fastRingOffset_set (w x : Nat) : fastRingOffset (setFastRingOffset w x) = x % 2 ^ 16 := by
  unfold setFastRingOffset fastRingOffset
  omega

theorem slowRingOffset_setFast (w x : Nat) :
    slowRingOffset (setFastRingOffset w x) = slowRingOffset w := by
  unfold setFastRingOffset slowRingOffset fastRingOffset
  omega

theorem slowRingOffset_set (w x : Nat) : slowRingOffset (setSlowRingOffset w x) = x % 2 ^ 16 := by
  unfold setSlowRingOffset slowRingOffset
  omega

/-! ## Ring offsets -/

section Factor

variable {g : Geometry} {n : Nat}

theorem glacier_lt (hn : n < g.slotsPerRing ^ 3) : n / g.slotsPerRing ^ 2 < g.slotsPerRing :=
  Nat.div_lt_of_lt_mul (by exact hn)

theorem mod_sq_div (b n : Nat) : n % b ^ 2 / b = n / b % b := by
  rw [Nat.pow_two, Nat.mod_mul_right_div_self]

theorem sub_slow (b n : Nat) : (n % b ^ 2 - n / b % b * b) % b = n % b := by
  have hmod : n % b ^ 2 % b = n % b := by rw [Nat.pow_two, Nat.mod_mul_right_mod]
  have := div_add_mod' (n % b ^ 2) b
  rw [mod_sq_div, hmod] at this
  rw [← this, Nat.add_sub_cancel_left, Nat.mod_mod]

theorem factor_eq (hb : g.slotsPerRing ≤ 2 ^ 15) (hn : n < g.slotsPerRing ^ 3) :
    factor g n = (n % g.slotsPerRing, n / g.slotsPerRing % g.slotsPerRing,
      n / g.slotsPerRing ^ 2) := by
  have hb0 := g.slotsPerRing_pos
  have hgl := glacier_lt hn
  have hsl := mod_lt (n / g.slotsPerRing) hb0
  have hfl := mod_lt n hb0
  have hshift : 2 ^ g.ringShift = g.slotsPerRing := rfl
  simp only [factor, shiftRight_eq_div_pow, shiftLeft_eq, g.shift_two, hshift]
  rw [mod_eq_of_lt (by omega : n / g.slotsPerRing ^ 2 < 2 ^ 16), ← mod_eq_sub_div_mul, mod_sq_div,
    mod_eq_of_lt (by omega : n / g.slotsPerRing % g.slotsPerRing < 2 ^ 16), sub_slow,
    mod_eq_of_lt (by omega)]

end Factor

variable {g : Geometry} {tw : Wheel} {t n : Nat}

theorem ringOffsets_wheel (hb : g.slotsPerRing ≤ 2 ^ 15)
    (hfast : tw.fastIndex = wheelIndex g.slotsPerRing 0 t)
    (hslow : tw.slowIndex = wheelIndex g.slotsPerRing 1 t)
    (hglacier : tw.glacierIndex = wheelIndex g.slotsPerRing 2 t) (hn : n < g.slotsPerRing ^ 3) :
    ringOffsets g tw n = (wheel g.slotsPerRing 0 (t + n), wheel g.slotsPerRing 1 (t + n),
      wheel g.slotsPerRing 2 (t + n)) := by
  have hb0 := g.slotsPerRing_pos
  have hgl := glacier_lt hn
  simp only [ringOffsets, factor_eq hb hn, hfast, hslow, hglacier, wheelIndex_mod]
  generalize g.slotsPerRing = b at hb hb0 hgl ⊢
  have hdiv1 := add_carry_div hb0 (x := n) (y := t) (Nat.zero_le 1)
  have hdiv2 := add_carry_div hb0 (x := n / b) (y := t / b) (carry_le b n t 0)
  have hw2 : ∀ m, wheel b 2 m = m / b / b % b := fun m => by rw [wheel, block_succ, block_one]
  have hn2 : n / b ^ 2 = n / b / b := by rw [Nat.pow_two, Nat.div_div_eq_div_mul]
  rw [Nat.add_zero] at hdiv1
  have h0 := mod_lt n hb0
  have h1 := mod_lt t hb0
  have h2 := mod_lt (n / b) hb0
  have h3 := mod_lt (t / b) hb0
  have h4 := mod_lt (t / b / b) hb0
  have hc1 := carry_le b n t 0
  have hc2 := carry_le b (n / b) (t / b) (carry b n t 0)
  have hcarry1 : (if n % b + t % b ≥ b then 1 else 0) = carry b n t 0 := rfl
  have hcarry2 : (if n / b % b + t / b % b + carry b n t 0 ≥ b then 1 else 0) =
      carry b (n / b) (t / b) (carry b n t 0) := rfl
  rw [hn2] at hgl ⊢
  rw [hw2, hw2, wheel_order_one, wheel_order_one, wheel_order_zero, wheel_order_zero,
    Nat.add_comm t n]
  rw [Nat.mod_eq_of_lt (by omega : n % b + t % b < 2 ^ 16), hcarry1, ← Nat.add_assoc,
    mod_eq_of_lt (by omega : n / b % b + t / b % b + carry b n t 0 < 2 ^ 16), hcarry2,
    ← Nat.add_assoc, Nat.mod_eq_of_lt (by omega : _ < 2 ^ 16), hdiv1, hdiv2,
    add_carry_mod b (n / b / b) (t / b / b), add_carry_mod b (n / b), add_mod n t,
    mod_eq_of_lt hgl]

/-! ## Slots and due ticks -/

def ring : Slot → Nat
  | .fast _ => 0
  | .slow _ => 1
  | .glacier _ => 2
  | .overflow => 3

theorem ring_le (s : Slot) : ring s ≤ 3 := by
  cases s <;> simp [ring]

/-- The slot of ring `k` that is due at tick `t`. -/
def dueSlot (b t : Nat) : Nat → Slot
  | 0 => .fast (wheel b 0 t)
  | 1 => .slow (wheel b 1 t)
  | 2 => .glacier (wheel b 2 t)
  | _ => .overflow

/-- The timers of ring `k` that must be dealt out at tick `t`, if this is still to be done for the rings below
`p`. -/
def Pending (b t p k d : Nat) : Prop :=
  k < p ∧ (k ≠ 0 → 0 < t) ∧ AtStart b k t ∧ block b k d = block b k t

/-- What the slot and the union of a timer say of the tick at which it is due. -/
def Offsets (b : Nat) : Slot → Nat → Nat → Prop
  | .fast i, _, d => wheel b 0 d = i
  | .slow i, word, d => wheel b 1 d = i ∧ fastRingOffset word = wheel b 0 d
  | .glacier i, word, d => wheel b 2 d = i ∧ fastRingOffset word = wheel b 0 d ∧
    slowRingOffset word = wheel b 1 d
  | .overflow, word, d => word = d ∧ d < 2 ^ 64

/-- At tick `t`, a timer with this union may be in the slot and is due at tick `d`: the block that `d` is in
comes up within a revolution of the wheel, or has come up and the ring is still to be dealt out. -/
structure Within (b t p : Nat) (s : Slot) (word d : Nat) : Prop where
  offsets : Offsets b s word d
  ahead : block b (ring s) t < block b (ring s) d ∧
      (ring s < 3 → block b (ring s) d < block b (ring s) t + b) ∨ Pending b t p (ring s) d

section Within

variable {b p q k d word : Nat} {s : Slot}

theorem lt_of_block_lt (h : block b k t < block b k d) : t < d := by
  by_contra hge
  have := block_le (b := b) (k := k) (Nat.le_of_not_lt hge)
  omega

theorem wheel_ne (h1 : block b k t < block b k d) (h2 : block b k d < block b k t + b) :
    wheel b k d ≠ wheel b k t := by
  intro he
  have hmod := sub_mod_eq_zero_of_mod_eq he
  rw [mod_eq_of_lt (by omega)] at hmod
  omega

theorem block_lt_add (h : block b (k + 1) d = block b (k + 1) t) (hb : 0 < b) :
    block b k d < block b k t + b := by
  rw [block_succ, block_succ] at h
  have h1 := div_add_mod (block b k d) b
  have h2 := div_add_mod (block b k t) b
  have h3 := mod_lt (block b k d) hb
  rw [h] at h1
  omega

theorem within_of_block (hb : 0 < b) (ho : Offsets b s word d)
    (hup : block b (ring s + 1) d = block b (ring s + 1) t)
    (h : block b (ring s) t < block b (ring s) d ∨ Pending b t p (ring s) d) : Within b t p s word d :=
  ⟨ho, h.imp_left fun hlt => ⟨hlt, fun _ => block_lt_add hup hb⟩⟩

theorem Offsets.eq_dueSlot (h : Offsets b s word d) (he : block b (ring s) d = block b (ring s) t) :
    s = dueSlot b t (ring s) := by
  have hw : wheel b (ring s) d = wheel b (ring s) t := by rw [wheel, wheel, he]
  cases s with
  | fast i => exact congrArg Slot.fast (h.symm.trans hw)
  | slow i => exact congrArg Slot.slow (h.1.symm.trans hw)
  | glacier i => exact congrArg Slot.glacier (h.1.symm.trans hw)
  | overflow => rfl

theorem Within.settle (h : Within b t (q + 1) s word d)
    (hs : (q ≠ 0 → 0 < t) ∧ AtStart b q t → s ≠ dueSlot b t q) : Within b t q s word d := by
  refine ⟨h.offsets, h.ahead.imp_right fun hp => ⟨Nat.lt_of_le_of_ne (Nat.le_of_lt_succ hp.1) ?_, hp.2⟩⟩
  rintro rfl
  exact hs ⟨hp.2.1, hp.2.2.1⟩ (h.offsets.eq_dueSlot hp.2.2.2)

theorem Within.turn (h : Within b t 0 s word d) (hs : ring s < p) : Within b (t + 1) p s word d := by
  obtain ⟨h1, h2⟩ := h.ahead.resolve_right fun hp => Nat.not_lt_zero _ hp.1
  have hle := block_le (b := b) (k := ring s) (show t + 1 ≤ d from lt_of_block_lt h1)
  have hadd := block_add_one b (ring s) t
  refine ⟨h.offsets, ?_⟩
  rcases Nat.lt_or_ge (block b (ring s) (t + 1)) (block b (ring s) d) with hlt | hge
  · refine .inl ⟨hlt, fun h3 => ?_⟩
    have := h2 h3
    split at hadd <;> omega
  · refine .inr ⟨hs, fun _ => succ_pos t, ?_, by omega⟩
    by_contra hn
    rw [if_neg hn] at hadd
    omega

theorem Within.lt (h : Within b t 0 s word d) : t < d :=
  lt_of_block_lt (h.ahead.resolve_right fun hp => Nat.not_lt_zero _ hp.1).1

theorem Within.le (h : Within b t p s word d) : t ≤ d := by
  rcases h.ahead with hk | hk
  · exact Nat.le_of_lt (lt_of_block_lt hk.1)
  · exact hk.2.2.1.le (Nat.le_of_eq hk.2.2.2.symm)

/-- A slot whose wheel stands at it, and has not come round, is due. -/
theorem Within.block_eq (h : Within b t p s word d) (hs : ring s < 3)
    (hw : wheel b (ring s) d = wheel b (ring s) t) : block b (ring s) d = block b (ring s) t :=
  (h.ahead.resolve_left fun hlt => wheel_ne hlt.1 (hlt.2 hs) hw).2.2.2

end Within

/-! ## The clock -/

/-- After `t` ticks the indices of `n` rings stand where the count says. An overflow vector counts as the
fourth ring, and needs ticks of 64 bits. -/
structure Clock (n : Nat) (g : Geometry) (t : Nat) (tw : Wheel) : Prop where
  tick : tw.currentTick = t % 2 ^ 64
  fast : tw.fastIndex = wheelIndex g.slotsPerRing 0 t
  slow : tw.slowIndex = wheelIndex g.slotsPerRing 1 t
  glacier : 2 < n → tw.glacierIndex = wheelIndex g.slotsPerRing 2 t
  bound : 3 < n → t < 2 ^ 64

theorem clock_init (n : Nat) (g : Geometry) : Clock n g 0 .init := by
  refine ⟨rfl, ?_, ?_, fun _ => ?_, fun _ => by decide⟩ <;> simp [Wheel.init, wheelIndex, wheel, block]

theorem wheelIndex_clicked {b k n : Nat} {c : Prop} [Decidable c] (hc : 0 < n ∧ AtStart b (k + 1) n → c) :
    (if c then wheelIndex b k n % b else wheelIndex b k n) = wheel b k n := by
  split
  · exact wheelIndex_mod
  · rename_i hn
    rw [wheelIndex, if_neg fun h => hn (hc h)]

namespace Clock

variable {m : Nat} (C : Clock m g t tw)
include C

theorem tick_eq (hm : 3 < m) : tw.currentTick = t := C.tick.trans (mod_eq_of_lt (C.bound hm))

theorem fast_click :
    tw.fastIndex = g.slotsPerRing ↔ 0 < t ∧ AtStart g.slotsPerRing 1 t := by
  rw [C.fast, wheelIndex_eq_iff g.slotsPerRing_pos]

theorem slow_click :
    tw.fastIndex = g.slotsPerRing ∧ tw.slowIndex = g.slotsPerRing ↔
      0 < t ∧ AtStart g.slotsPerRing 2 t := by
  rw [C.fast_click, C.slow, wheelIndex_eq_iff g.slotsPerRing_pos]
  exact ⟨fun h => h.2, fun h => ⟨⟨h.1, h.2.of_succ⟩, h⟩⟩

theorem glacier_click (hm : 2 < m) :
    tw.fastIndex = g.slotsPerRing ∧ tw.slowIndex = g.slotsPerRing ∧
        tw.glacierIndex = g.slotsPerRing ↔
      0 < t ∧ AtStart g.slotsPerRing 3 t := by
  rw [← and_assoc, C.slow_click, C.glacier hm, wheelIndex_eq_iff g.slotsPerRing_pos]
  exact ⟨fun h => h.2, fun h => ⟨⟨h.1, h.2.of_succ⟩, h⟩⟩

theorem advance (hb : 3 < m → t + 1 < 2 ^ 64) : Clock m g (t + 1) (advanceTick g tw) := by
  have hb0 := g.slotsPerRing_pos
  have hslow := wheelIndex_clicked fun hc => C.fast_click.mpr ⟨hc.1, hc.2.of_succ⟩
  rw [← C.slow] at hslow
  have hfast : tw.fastIndex % g.slotsPerRing + 1 = wheelIndex g.slotsPerRing 0 (t + 1) := by
    rw [wheelIndex_add_one hb0, if_pos atStart_zero, C.fast, wheelIndex_mod]
  refine ⟨?_, hfast, ?_, fun hm => ?_, hb⟩
  · rw [advanceTick, C.tick, mod_add_mod]
  · simp only [advanceTick, hslow, hfast, wheelIndex_moves hb0]
  · have hglacier := wheelIndex_clicked fun hc => C.slow_click.mpr ⟨hc.1, hc.2.of_succ⟩
    rw [← C.glacier hm] at hglacier
    simp only [advanceTick, hslow, hglacier, hfast, wheelIndex_moves hb0]

end Clock

/-! ## Adding a timer -/

theorem timerAddSlot_within (hg : g.Fits) (C : Clock 4 g t tw) {p : Nat} (hmax : t + n < 2 ^ 64)
    (hn : 0 < n ∨ 0 < p) (word : Nat) :
    Within g.slotsPerRing t p (timerAddSlot g tw n word).1 (timerAddSlot g tw n word).2 (t + n) := by
  have hb := hg.slotsPerRing_le
  have hb0 := g.slotsPerRing_pos
  have hb3 : 0 < g.slotsPerRing ^ 3 := Nat.pow_pos hb0
  have htick := div_add_mod' t (g.slotsPerRing ^ 3)
  simp only [timerAddSlot, hg.tripleWrap_eq, C.tick_eq (by decide)]
  rw [mod_eq_of_lt (by omega), mod_eq_of_lt hmax]
  split
  · refine ⟨⟨rfl, hmax⟩, .inl ⟨?_, fun h => absurd h (Nat.lt_irrefl 3)⟩⟩
    show block g.slotsPerRing 3 t < block g.slotsPerRing 3 (t + n)
    rw [block, block, Nat.lt_iff_add_one_le, Nat.le_div_iff_mul_le hb3, Nat.add_mul]
    omega
  rename_i hwrap
  have hn3 : n < g.slotsPerRing ^ 3 :=
    Nat.lt_of_le_of_lt (Nat.le_add_right _ _) (Nat.lt_of_not_le hwrap)
  have hsame : block g.slotsPerRing 3 (t + n) = block g.slotsPerRing 3 t := by
    rw [block, Nat.add_div hb3, Nat.div_eq_of_lt hn3, Nat.mod_eq_of_lt hn3, Nat.add_comm _ n,
      if_neg hwrap]
    rfl
  have hle : t ≤ t + n := Nat.le_add_right _ _
  rw [ringOffsets_wheel (Nat.le_trans hb (by decide)) C.fast C.slow (C.glacier (by decide)) hn3,
    C.glacier (by decide), C.slow, wheelIndex_mod, wheelIndex_mod]
  have hlt : t < t + n ∨ 0 < p ∧ t + n = t := by omega
  generalize t + n = d at hsame hle hlt ⊢
  generalize g.slotsPerRing = b at hb hb0 hsame ⊢
  have hf : wheel b 0 d < 2 ^ 16 := Nat.lt_of_lt_of_le (wheel_lt hb0 0 d) (by omega)
  have hs : wheel b 1 d < 2 ^ 16 := Nat.lt_of_lt_of_le (wheel_lt hb0 1 d) (by omega)
  split
  · rename_i hne
    refine within_of_block hb0 ⟨rfl, ?_, ?_⟩ hsame (.inl (block_lt hle hne))
    · rw [fastRingOffset_set, mod_eq_of_lt hf]
    · rw [slowRingOffset_setFast, slowRingOffset_set, mod_eq_of_lt hs]
  rename_i heq
  have h2 := block_eq hsame (not_not.mp heq)
  split
  · rename_i hne
    refine within_of_block hb0 ⟨rfl, ?_⟩ h2 (.inl (block_lt hle hne))
    rw [fastRingOffset_set, mod_eq_of_lt hf]
  · rename_i heq'
    refine within_of_block hb0 rfl (block_eq h2 (not_not.mp heq')) (hlt.imp ?_ ?_)
    · exact fun hlt => by rwa [ring, block_zero, block_zero]
    · exact fun hnow => ⟨hnow.1, fun h => absurd rfl h, atStart_zero, by rw [hnow.2]⟩

/-! ## Dealing out -/

/-- Where a timer of ring `p` may be taken: it expires at its tick, or goes to a slot where it belongs. -/
def DealsTo (b t p d : Nat) : Option (Slot × Nat) → Prop
  | none => d = t
  | some (s, word) => ring s ≤ p ∧ Within b t p s word d

section Deal

variable {b d word p : Nat}

theorem placeSlow_dealsTo (hb : 0 < b) (ht : AtStart b 1 t) (hd : block b 1 d = block b 1 t)
    (hf : fastRingOffset word = wheel b 0 d) : DealsTo b t p d (placeSlow word) := by
  have hle := ht.le (Nat.le_of_eq hd.symm)
  have hz := ht.wheel_eq_zero
  unfold placeSlow
  split
  · have := block_eq hd (by omega)
    rwa [block_zero, block_zero] at this
  · have hlt := block_lt hle (by omega : wheel b 0 d ≠ wheel b 0 t)
    exact ⟨Nat.zero_le p, within_of_block hb hf.symm hd (.inl hlt)⟩

theorem placeGlacier_dealsTo (hb : 0 < b) (hp : 1 ≤ p) (ht : AtStart b 2 t)
    (hd : block b 2 d = block b 2 t) (hf : fastRingOffset word = wheel b 0 d)
    (hs : slowRingOffset word = wheel b 1 d) : DealsTo b t p d (placeGlacier word) := by
  have hle := ht.le (Nat.le_of_eq hd.symm)
  have hz := ht.wheel_eq_zero
  by_cases hslow : slowRingOffset word = 0
  · have heq : placeGlacier word = placeSlow word := by simp [placeGlacier, placeSlow, hslow]
    rw [heq]
    exact placeSlow_dealsTo hb ht.of_succ (block_eq hd (by omega)) hf
  · have heq : placeGlacier word = some (.slow (slowRingOffset word), word) := by
      simp [placeGlacier, hslow]
    have hlt := block_lt hle (by omega : wheel b 1 d ≠ wheel b 1 t)
    rw [heq]
    exact ⟨hp, within_of_block hb ⟨hs.symm, hf⟩ hd (.inl hlt)⟩

end Deal

theorem placeOverflow_of_lt (hg : g.Fits) {word : Nat}
    (hint : (word + 2 ^ 64 - t) % 2 ^ 64 = n) (hn : n < g.slotsPerRing ^ 3) :
    placeOverflow g t word =
      let word' := setFastRingOffset (setSlowRingOffset word (n / g.slotsPerRing % g.slotsPerRing))
        (n % g.slotsPerRing)
      if n / g.slotsPerRing ^ 2 = 0 then placeGlacier word'
      else some (.glacier (n / g.slotsPerRing ^ 2), word') := by
  have hb := hg.slotsPerRing_le
  have hb3 := hg.pow_three_le
  have hgl := glacier_lt hn
  have hsl := mod_lt (n / g.slotsPerRing) g.slotsPerRing_pos
  have hshift : 2 ^ g.ringShift = g.slotsPerRing := rfl
  have hle2 : n / g.slotsPerRing ^ 2 * g.slotsPerRing ^ 2 ≤ n := div_mul_le_self _ _
  have hle1 : n / g.slotsPerRing % g.slotsPerRing * g.slotsPerRing ≤ n :=
    Nat.le_trans (Nat.mul_le_mul_right _ (Nat.mod_le _ _)) (Nat.div_mul_le_self _ _)
  simp only [placeOverflow, hint, hg.tripleWrap_eq, if_neg (Nat.not_le.mpr hn),
    shiftRight_eq_div_pow, shiftLeft_eq, g.shift_two, hshift]
  rw [mod_eq_of_lt (by omega : n / g.slotsPerRing ^ 2 < 2 ^ 32),
    mod_eq_of_lt (by omega : n / g.slotsPerRing ^ 2 * g.slotsPerRing ^ 2 < 2 ^ 32), ← mod_eq_sub_div_mul,
    mod_sq_div, mod_eq_of_lt (by omega),
    mod_eq_of_lt (by omega : n / g.slotsPerRing % g.slotsPerRing * g.slotsPerRing < 2 ^ 32),
    sub_slow]
  generalize setFastRingOffset _ _ = word'
  by_cases hz : n / g.slotsPerRing ^ 2 = 0
  · by_cases hs : slowRingOffset word' = 0
    · simp [hz, placeGlacier]
    · simp [hz, placeGlacier]
  · simp [hz]

theorem placeOverflow_dealsTo (hg : g.Fits) {d : Nat}
    (ht : AtStart g.slotsPerRing 3 t) (hd : block g.slotsPerRing 3 t ≤ block g.slotsPerRing 3 d)
    (hmax : d < 2 ^ 64) : DealsTo g.slotsPerRing t 3 d (placeOverflow g t d) := by
  have hb := hg.slotsPerRing_le
  have hb0 := g.slotsPerRing_pos
  have hb3 : 0 < g.slotsPerRing ^ 3 := Nat.pow_pos hb0
  have hle := ht.le hd
  have hint : (d + 2 ^ 64 - t) % 2 ^ 64 = d - t := by omega
  by_cases hn : d - t < g.slotsPerRing ^ 3
  · have hsame : block g.slotsPerRing 3 d = block g.slotsPerRing 3 t := by
      rw [block, ← Nat.add_sub_cancel' hle, Nat.add_div hb3, Nat.div_eq_of_lt hn, ht,
        mod_eq_of_lt hn, if_neg (by omega)]
      rfl
    have hmod := ht.sub_eq_mod hsame
    rw [placeOverflow_of_lt hg hint hn, hmod]
    generalize g.slotsPerRing = b at hb hb0 ht hsame ⊢
    have hw2 : d % b ^ 3 / b ^ 2 = wheel b 2 d := by
      rw [Nat.pow_succ, Nat.mod_mul_right_div_self]
      rfl
    have hw1 : d % b ^ 3 / b % b = wheel b 1 d := by
      rw [Nat.pow_succ', Nat.mod_mul_right_div_self, Nat.pow_two, Nat.mod_mul_right_mod,
        wheel_order_one]
    have hw0 : d % b ^ 3 % b = wheel b 0 d := by
      rw [Nat.pow_succ', mod_mul_right_mod, wheel_order_zero]
    have hf : wheel b 0 d < 2 ^ 16 := Nat.lt_of_lt_of_le (wheel_lt hb0 0 d) (by omega)
    have hs : wheel b 1 d < 2 ^ 16 := Nat.lt_of_lt_of_le (wheel_lt hb0 1 d) (by omega)
    rw [hw2, hw1, hw0]
    have hfast := fastRingOffset_set (setSlowRingOffset d (wheel b 1 d)) (wheel b 0 d)
    have hslow := slowRingOffset_setFast (setSlowRingOffset d (wheel b 1 d)) (wheel b 0 d)
    rw [slowRingOffset_set, mod_eq_of_lt hs] at hslow
    rw [mod_eq_of_lt hf] at hfast
    have hz := ht.wheel_eq_zero
    split
    · exact placeGlacier_dealsTo hb0 (by decide) ht.of_succ (block_eq hsame (by omega)) hfast hslow
    · have hlt := block_lt hle (by omega : wheel b 2 d ≠ wheel b 2 t)
      exact ⟨(by decide : 2 ≤ 3), within_of_block hb0 ⟨rfl, hfast, hslow⟩ hsame (.inl hlt)⟩
  · have heq : placeOverflow g t d = some (.overflow, d) := by
      simp only [placeOverflow, hint, hg.tripleWrap_eq, if_pos (Nat.le_of_not_lt hn)]
    have htick := div_add_mod' t (g.slotsPerRing ^ 3)
    rw [show t % _ = 0 from ht] at htick
    rw [heq]
    refine ⟨Nat.le_refl 3, ⟨rfl, hmax⟩, .inl ⟨?_, fun h => absurd h (Nat.lt_irrefl 3)⟩⟩
    show block g.slotsPerRing 3 t < block g.slotsPerRing 3 d
    rw [block, block, Nat.lt_iff_add_one_le, Nat.le_div_iff_mul_le hb3, Nat.add_mul]
    omega

def placeRing (g : Geometry) (t : Nat) : Nat → Nat → Option (Slot × Nat)
  | 0 => placeFast
  | 1 => placeSlow
  | 2 => placeGlacier
  | _ => placeOverflow g t

theorem Within.deal {q d word : Nat} (hq : q ≤ 3) (hg : q = 3 → g.Fits) (hat : AtStart g.slotsPerRing q t)
    (h : Within g.slotsPerRing t (q + 1) (dueSlot g.slotsPerRing t q) word d) :
    DealsTo g.slotsPerRing t q d (placeRing g t q word) := by
  have hb := g.slotsPerRing_pos
  rcases (by omega : q = 0 ∨ q = 1 ∨ q = 2 ∨ q = 3) with rfl | rfl | rfl | rfl
  · have := h.block_eq (by decide : 0 < 3) h.offsets
    rwa [dueSlot, ring, block_zero, block_zero] at this
  · obtain ⟨hw, hf⟩ := h.offsets
    exact placeSlow_dealsTo hb hat (h.block_eq (by decide : 1 < 3) hw) hf
  · obtain ⟨hw, hf, hs⟩ := h.offsets
    exact placeGlacier_dealsTo hb (by decide) hat (h.block_eq (by decide : 2 < 3) hw) hf hs
  · obtain ⟨rfl, hmax⟩ := h.offsets
    refine placeOverflow_dealsTo (hg rfl) hat ?_ hmax
    rcases h.ahead with hlt | hpend
    · exact Nat.le_of_lt hlt.1
    · exact Nat.le_of_eq hpend.2.2.2.symm

end Vpp.Tw
