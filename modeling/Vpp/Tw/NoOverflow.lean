import Vpp.Tw.Following

/-!
# Wheels without an overflow vector

`tw_timer_template.c` with two wheels, and with three and no overflow vector. A timer goes to the ring of
the first wheel, from above, that is to stand elsewhere when it is due. This is right for a timer that is
due before the highest wheel comes round; the offset of one that is due later may be the present one, and
the timer then goes to a lower ring.
-/

namespace Vpp.Tw

open Vpp.Lib Nat

/-- `TW_TIMER_WHEELS`. -/
inductive Rings
  | two
  | three
deriving DecidableEq, Repr

def Rings.count : Rings → Nat
  | .two => 2
  | .three => 3

/-! ## The code -/

def twoRingOffsets (g : Geometry) (tw : Wheel) (interval : Nat) : Nat × Nat :=
  let s := g.slotsPerRing
  let slow := interval >>> g.ringShift % 2 ^ 16
  let interval := interval - slow <<< g.ringShift
  let fast := interval % s % 2 ^ 16
  let fast := (fast + tw.fastIndex % s) % 2 ^ 16
  let carry := if fast ≥ s then 1 else 0
  let slow := (slow + (tw.slowIndex % s + carry)) % 2 ^ 16
  (fast % s, slow % s)

namespace Rings

variable (r : Rings) (g : Geometry)

/-- `timer_add`: the slot for a timer, and the union. -/
def timerAddSlot (tw : Wheel) (interval word : Nat) : Slot × Nat :=
  let s := g.slotsPerRing
  match r with
  | .two =>
    let (fast, slow) := twoRingOffsets g tw interval
    if slow ≠ tw.slowIndex % s then (.slow slow, setFastRingOffset word fast)
    else (.fast fast, word)
  | .three =>
    let (fast, slow, glacier) := ringOffsets g tw interval
    if glacier ≠ tw.glacierIndex % s then
      (.glacier glacier, setFastRingOffset (setSlowRingOffset word slow) fast)
    else if slow ≠ tw.slowIndex % s then (.slow slow, setFastRingOffset word fast)
    else (.fast fast, word)

def timerAdd (tw : Wheel) (h interval : Nat) : Wheel :=
  match tw.timers.elts h with
  | none => tw
  | some t =>
    let (slot, word) := r.timerAddSlot g tw interval t.word
    tw.addhead slot h { t with word := word }

def twTimerStart (tw : Wheel) (userId timerId interval : Nat) : Wheel × Nat :=
  let h := tw.timers.next
  let t := ⟨makeInternalTimerHandle g userId timerId, 2 ^ 64 - 1⟩
  (r.timerAdd g { tw with timers := tw.timers.get t } h interval, h)

def twTimerUpdate (tw : Wheel) (h interval : Nat) : Wheel :=
  r.timerAdd g (tw.timerRemove h) h interval

def processTick (tw : Wheel) : Wheel × List Expired :=
  let (tw, e₂) := match r with
    | .two => (tw, [])
    | .three => processGlacier g tw
  let (tw, e₁) := processSlow g tw
  let (tw, e₀) := processFast g tw
  ({ tw with inTick := true }, e₂ ++ e₁ ++ e₀)

/-- The end of a tick. The wheels turn as with an overflow vector; with two there is no glacier index. -/
def advanceTick (tw : Wheel) : Wheel :=
  match r with
  | .two => { Tw.advanceTick g tw with glacierIndex := tw.glacierIndex }
  | .three => Tw.advanceTick g tw

def step (tw : Wheel) : Event → Wheel × Output
  | .start userId timerId interval =>
    let (tw, h) := r.twTimerStart g tw userId timerId interval
    (tw, .started h)
  | .update h interval => (r.twTimerUpdate g tw h interval, .none)
  | .stop h => (twTimerStop tw h, .none)
  | .process =>
    let (tw, es) := r.processTick g tw
    (tw, .expired es)
  | .advance => (r.advanceTick g tw, .none)

end Rings

/-! ## Adding a timer -/

section Add

variable {b t n k : Nat}

theorem block_add_lt_iff (hb : 0 < b) :
    block b k (t + n) < block b k t + b ↔ t % b ^ k + n < b ^ (k + 1) := by
  have hpos : 0 < b ^ k := Nat.pow_pos hb
  have ht := div_add_mod' t (b ^ k)
  rw [block, block, Nat.div_lt_iff_lt_mul hpos, Nat.add_mul, Nat.pow_succ, Nat.mul_comm (b ^ k) b]
  omega

theorem block_add_le (hb : 0 < b) (hn : n < b ^ (k + 1)) : block b k (t + n) ≤ block b k t + b := by
  have hpos : 0 < b ^ k := Nat.pow_pos hb
  have ht := div_add_mod' t (b ^ k)
  have hlt := mod_lt t hpos
  rw [Nat.pow_succ, Nat.mul_comm] at hn
  rw [block, block, ← Nat.lt_succ_iff, Nat.div_lt_iff_lt_mul hpos, Nat.succ_mul, Nat.add_mul]
  omega

theorem block_of_wheel_eq (hb : 0 < b) (hn : n < b ^ (k + 1))
    (hw : wheel b k (t + n) = wheel b k t) :
    block b k (t + n) = block b k t ∨ block b k (t + n) = block b k t + b := by
  have h1 := block_add_le (t := t) hb hn
  have h2 := block_le (b := b) (k := k) (Nat.le_add_right t n)
  by_cases h0 : block b k (t + n) = block b k t
  · exact .inl h0
  · by_cases hb' : block b k (t + n) = block b k t + b
    · exact .inr hb'
    · exact absurd hw (wheel_ne (by omega) (by omega))

theorem le_of_gone_round (hk : 0 < k) (hb : 0 < b) (hmod : n % b ≠ 0)
    (h : block b k (t + n) = block b k t + b) : b ≤ n := by
  by_contra hlt
  have hpos : 0 < b ^ k := Nat.pow_pos hb
  have hle : b ^ 1 ≤ b ^ k := Nat.pow_le_pow_right hb hk
  have ht := div_add_mod' t (b ^ k)
  have htl := mod_lt t hpos
  rw [Nat.pow_one] at hle
  have hup : block b k (t + n) < block b k t + 2 := by
    rw [block, block, Nat.div_lt_iff_lt_mul hpos, Nat.add_mul]
    omega
  obtain rfl : b = 1 := by omega
  exact hmod (mod_one n)

theorem block_one_add_of_dvd (hb : 0 < b) (hn : n % b = 0) :
    block b 1 (t + n) = block b 1 t + n / b := by
  rw [block_one, block_one, Nat.add_div hb, if_neg (by have := Nat.mod_lt t hb; omega)]
  rfl

theorem block_lt_of_wheel_ne (hb : 0 < b) (hn : n < b ^ (k + 1)) (hw : wheel b k (t + n) ≠ wheel b k t) :
    block b k (t + n) < block b k t + b := by
  have hup := block_add_le (t := t) hb hn
  have hne : block b k (t + n) ≠ block b k t + b := fun he => hw (by rw [wheel, he, add_mod_right]; rfl)
  omega

theorem lt_add_of_block_eq (hb : 0 < b) (h : block b 1 (t + n) = block b 1 t) : t + n < t + b := by
  have := block_lt_add h hb
  rwa [block_zero, block_zero] at this

theorem far_of_gone_round (hb : 0 < b) (hw : wheel b 1 (t + n) ≠ wheel b 1 t)
    (h : block b 2 (t + n) = block b 2 t + b) : block b 1 t + b ≤ block b 1 (t + n) := by
  by_contra hnear
  refine hw ?_
  have hup : block b 2 (t + n) ≤ block b 2 t + 1 := by
    rw [block_succ b 1 (t + n), block_succ b 1 t, ← add_div_right _ hb]
    exact Nat.div_le_div_right (by omega)
  have hone : b = 1 := by omega
  rw [wheel, wheel, hone, mod_one, mod_one]

theorem mod_ne_zero_of_gone_round_one (hb : 0 < b) (hn : n < b ^ 2)
    (h : block b 1 (t + n) = block b 1 t + b) : n % b ≠ 0 := fun hz => by
  have h1 := block_one_add_of_dvd (t := t) hb hz
  have h2 : n / b < b := Nat.div_lt_of_lt_mul (by rw [← Nat.pow_two]; exact hn)
  omega

theorem mod_ne_zero_of_gone_round_two (hb : 0 < b) (hn : n < b ^ 3)
    (hw : wheel b 1 (t + n) = wheel b 1 t) (h : block b 2 (t + n) = block b 2 t + b) : n % b ≠ 0 :=
  fun hz => by
    have h1 := block_one_add_of_dvd (t := t) hb hz
    have h2 : n / b / b < b := by
      rw [Nat.div_div_eq_div_mul, ← Nat.pow_two]
      exact Nat.div_lt_of_lt_mul (by exact hn)
    have h3 : n / b % b = 0 := by
      rw [wheel, h1] at hw
      have := sub_mod_eq_zero_of_mod_eq hw
      rwa [Nat.add_sub_cancel_left] at this
    have h4 : block b 2 (t + n) = block b 2 t + n / b / b := by
      rw [block_succ, h1, block_succ b 1 t, Nat.add_div hb,
        if_neg (by have := mod_lt (block b 1 t) hb; omega)]
      rfl
    omega

variable (p : Nat)

theorem within_fast (hb : 0 < b) (hn : n % b ≠ 0) (word : Nat) :
    Within b t p (.fast (wheel b 0 (t + n))) word (t + n % b) := by
  have hlt := mod_lt n hb
  refine ⟨?_, .inl ⟨?_, fun _ => ?_⟩⟩
  · show wheel b 0 (t + n % b) = wheel b 0 (t + n)
    rw [wheel_order_zero, wheel_order_zero, add_mod_mod]
  · rw [ring, block_zero, block_zero]
    omega
  · rw [ring, block_zero, block_zero]
    omega

theorem exists_within_slow (hb : 0 < b) {word : Nat} (hw : wheel b 1 (t + n) ≠ wheel b 1 t)
    (hf : fastRingOffset word = wheel b 0 (t + n)) (hround : block b 1 t + b ≤ block b 1 (t + n)) :
    ∃ d, t < d ∧ d < t + n ∧ Within b t p (.slow (wheel b 1 (t + n))) word d := by
  have hm : (block b 1 (t + n) - block b 1 t) % b ≠ 0 := by
    intro hz
    refine hw ?_
    have hadd := add_mod (block b 1 (t + n) - block b 1 t) (block b 1 t) b
    rwa [Nat.sub_add_cancel (by omega), hz, Nat.zero_add, Nat.mod_mod] at hadd
  have hmlt := mod_lt (block b 1 (t + n) - block b 1 t) hb
  generalize hmdef : (block b 1 (t + n) - block b 1 t) % b = m at hm hmlt
  have hd1 : block b 1 ((block b 1 t + m) * b + (t + n) % b) = block b 1 t + m := by
    rw [block_one, Nat.add_comm, Nat.add_mul_div_right _ _ hb, Nat.div_eq_of_lt (Nat.mod_lt _ hb),
      Nat.zero_add]
  have hd0 : wheel b 0 ((block b 1 t + m) * b + (t + n) % b) = wheel b 0 (t + n) := by
    rw [wheel_order_zero, wheel_order_zero, Nat.mul_comm, Nat.mul_add_mod, Nat.mod_mod]
  refine ⟨(block b 1 t + m) * b + (t + n) % b, lt_of_block_lt (b := b) (k := 1) (by omega),
    lt_of_block_lt (b := b) (k := 1) (by omega), ⟨?_, by rw [hf, hd0]⟩,
    .inl ⟨(by omega : block b 1 t < block b 1 _), fun _ => (by omega : block b 1 _ < block b 1 t + b)⟩⟩
  rw [wheel, hd1, ← hmdef, add_mod_mod, Nat.add_sub_cancel' (by omega)]
  rfl

end Add

variable {g : Geometry} {tw : Wheel} {t n : Nat}

theorem twoRingOffsets_wheel (hb : g.slotsPerRing ≤ 2 ^ 15)
    (hfast : tw.fastIndex = wheelIndex g.slotsPerRing 0 t)
    (hslow : tw.slowIndex = wheelIndex g.slotsPerRing 1 t) (hn : n < g.slotsPerRing ^ 2) :
    twoRingOffsets g tw n = (wheel g.slotsPerRing 0 (t + n), wheel g.slotsPerRing 1 (t + n)) := by
  have hb0 := g.slotsPerRing_pos
  have hshift : 2 ^ g.ringShift = g.slotsPerRing := rfl
  have hsl : n / g.slotsPerRing < g.slotsPerRing :=
    Nat.div_lt_of_lt_mul (by rw [← Nat.pow_two]; exact hn)
  simp only [twoRingOffsets, shiftRight_eq_div_pow, shiftLeft_eq, hshift, hfast, hslow,
    wheelIndex_mod]
  generalize g.slotsPerRing = b at hb hb0 hsl ⊢
  have h0 := mod_lt n hb0
  have h1 := mod_lt t hb0
  have h2 := mod_lt (t / b) hb0
  have hc := carry_le b n t 0
  have hcarry : (if n % b + t % b ≥ b then 1 else 0) = carry b n t 0 := rfl
  have hdiv := add_carry_div hb0 (x := n) (y := t) (Nat.zero_le 1)
  rw [Nat.add_zero] at hdiv
  have hsub : (n - n / b * b) % b = n % b := by
    have := div_add_mod' n b
    rw [show n - n / b * b = n % b by omega, mod_mod]
  rw [wheel_order_one, wheel_order_one, wheel_order_zero, wheel_order_zero, Nat.add_comm t n,
    mod_eq_of_lt (by omega : n / b < 2 ^ 16), hsub, mod_eq_of_lt (by omega : n % b < 2 ^ 16),
    Nat.mod_eq_of_lt (by omega : n % b + t % b < 2 ^ 16), hcarry, ← Nat.add_assoc,
    mod_eq_of_lt (by omega : n / b + t / b % b + carry b n t 0 < 2 ^ 16), hdiv,
    add_carry_mod b (n / b) (t / b), add_mod n t, mod_eq_of_lt hsl]

theorem Rings.timerAddSlot_within (r : Rings)
    (hb : g.slotsPerRing ≤ 2 ^ 15) (hc : Clock r.count g t tw) (hn : 1 ≤ n)
    (hlt : n < g.slotsPerRing ^ r.count) (p word : Nat) :
    ∃ d, t < d ∧ d ≤ t + n ∧
      (d = t + n ↔ t % g.slotsPerRing ^ (r.count - 1) + n < g.slotsPerRing ^ r.count) ∧
      ring (r.timerAddSlot g tw n word).1 < r.count ∧
      Within g.slotsPerRing t p (r.timerAddSlot g tw n word).1 (r.timerAddSlot g tw n word).2 d := by
  have hb0 := g.slotsPerRing_pos
  have hle : t ≤ t + n := Nat.le_add_right t n
  have hset : ∀ w x, x < g.slotsPerRing → fastRingOffset (setFastRingOffset w x) = x := fun w x hx => by
    rw [fastRingOffset_set, mod_eq_of_lt (by omega)]
  have hwl : ∀ j m, wheel g.slotsPerRing j m < g.slotsPerRing := wheel_lt hb0
  cases r with
  | two =>
    have hround := block_add_lt_iff (t := t) (n := n) (k := 1) hb0
    unfold timerAddSlot
    dsimp only
    rw [twoRingOffsets_wheel hb hc.fast hc.slow hlt, hc.slow, wheelIndex_mod]
    split
    · rename_i hw
      have hlt' := block_lt_of_wheel_ne hb0 hlt hw
      exact ⟨t + n, by omega, Nat.le_refl _, iff_of_true rfl (hround.mp hlt'), Nat.one_lt_two,
        ⟨rfl, hset _ _ (hwl 0 _)⟩, .inl ⟨block_lt hle hw, fun _ => hlt'⟩⟩
    · rename_i hw
      rcases block_of_wheel_eq hb0 hlt (not_not.mp hw) with heq | hgone
      · have hfast := lt_add_of_block_eq hb0 heq
        refine ⟨t + n, by omega, Nat.le_refl _, iff_of_true rfl (hround.mp (by omega)), Nat.zero_lt_two,
          rfl, .inl ?_⟩
        rw [ring, block_zero, block_zero]
        exact ⟨by omega, fun _ => hfast⟩
      · have hmod := mod_ne_zero_of_gone_round_one hb0 hlt hgone
        have hnle := le_of_gone_round Nat.zero_lt_one hb0 hmod hgone
        have hless := mod_lt n hb0
        exact ⟨t + n % g.slotsPerRing, by omega, by omega, iff_of_false (by omega) fun h =>
          absurd (hround.mpr h) (by omega), Nat.zero_lt_two, within_fast p hb0 hmod word⟩
  | three =>
    have hround := block_add_lt_iff (t := t) (n := n) (k := 2) hb0
    unfold timerAddSlot
    dsimp only
    rw [ringOffsets_wheel hb hc.fast hc.slow (hc.glacier (Nat.lt_succ_self 2)) hlt, hc.slow,
      hc.glacier (Nat.lt_succ_self 2), wheelIndex_mod,
      wheelIndex_mod]
    split
    · rename_i hw
      have hlt' := block_lt_of_wheel_ne hb0 hlt hw
      refine ⟨t + n, by omega, Nat.le_refl _, iff_of_true rfl (hround.mp hlt'), Nat.lt_succ_self 2,
        ⟨rfl, hset _ _ (hwl 0 _), ?_⟩, .inl ⟨block_lt hle hw, fun _ => hlt'⟩⟩
      have := hwl 1 (t + n)
      rw [slowRingOffset_setFast, slowRingOffset_set, mod_eq_of_lt (by omega)]
    · rename_i hw
      rcases block_of_wheel_eq hb0 hlt (not_not.mp hw) with heq | hgone
      · -- due before the glacier wheel moves
        have hcond := hround.mp (by omega)
        split
        · rename_i hw1
          exact ⟨t + n, by omega, Nat.le_refl _, iff_of_true rfl hcond, (by decide : 1 < 3),
            within_of_block hb0 ⟨rfl, hset _ _ (hwl 0 _)⟩ heq (.inl (block_lt hle hw1))⟩
        rename_i hw1
        have hfast := lt_add_of_block_eq hb0 (block_eq heq (not_not.mp hw1))
        refine ⟨t + n, by omega, Nat.le_refl _, iff_of_true rfl hcond, (by decide : 0 < 3), rfl, .inl ?_⟩
        rw [ring, block_zero, block_zero]
        exact ⟨by omega, fun _ => hfast⟩
      · -- the glacier wheel comes round
        have hcond : ¬ t % g.slotsPerRing ^ 2 + n < g.slotsPerRing ^ 3 := fun h =>
          absurd (hround.mpr h) (by omega)
        split
        · rename_i hw1
          have hfar := far_of_gone_round hb0 hw1 hgone
          obtain ⟨d, h1, h2, h3⟩ := exists_within_slow p hb0 hw1 (hset word _ (hwl 0 _)) hfar
          exact ⟨d, h1, Nat.le_of_lt h2, iff_of_false (by omega) hcond, (by decide : 1 < 3), h3⟩
        · rename_i hw1
          have hmod := mod_ne_zero_of_gone_round_two hb0 hlt (not_not.mp hw1) hgone
          have hnle := le_of_gone_round Nat.zero_lt_two hb0 hmod hgone
          have hless := mod_lt n hb0
          exact ⟨t + n % g.slotsPerRing, by omega, by omega, iff_of_false (by omega) hcond,
            (by decide : 0 < 3), within_fast p hb0 hmod word⟩

end Vpp.Tw
