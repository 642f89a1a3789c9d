import Vpp.Tw.NoOverflowExact

/-!
# Ticks and time

`tw_timer_expire_timers_internal` works out how many ticks have passed since it last ran and processes
them, but at most until so many timers have expired. Time is a multiple of the timer interval here. There
is no expiry callback: the expired timers are returned, in the caller's vector or in the wheel's own.
-/

namespace Vpp.Tw

open Vpp.Lib Nat

/-- The wheels there are: `TW_TIMER_WHEELS` and `TW_OVERFLOW_VECTOR`. -/
inductive Kind
  | one
  | plain (r : Rings)
  | overflow
deriving DecidableEq, Repr

namespace Kind

variable (k : Kind) (g : Geometry)

/-- `timer_add` on a single wheel. -/
def oneRingSlot (tw : Wheel) (interval : Nat) : Slot :=
  let s := g.slotsPerRing
  let fast := interval % s % 2 ^ 16
  let fast := (fast + tw.fastIndex % s) % 2 ^ 16
  .fast (fast % s)

def oneRingAdd (tw : Wheel) (h interval : Nat) : Wheel :=
  match tw.timers.elts h with
  | none => tw
  | some t => tw.addhead (oneRingSlot g tw interval) h t

/-- What users do with timers. -/
inductive Op
  | start (userId timerId interval : Nat)
  | update (h interval : Nat)
  | stop (h : Nat)
deriving DecidableEq, Repr

def apply (tw : Wheel) : Op → Wheel
  | .start userId timerId interval =>
    match k with
    | .one =>
      let t := ⟨makeInternalTimerHandle g userId timerId, 2 ^ 64 - 1⟩
      oneRingAdd g { tw with timers := tw.timers.get t } tw.timers.next interval
    | .plain r => (r.twTimerStart g tw userId timerId interval).1
    | .overflow => (twTimerStart g tw userId timerId interval).1
  | .update h interval =>
    match k with
    | .one => oneRingAdd g (tw.timerRemove h) h interval
    | .plain r => r.twTimerUpdate g tw h interval
    | .overflow => twTimerUpdate g tw h interval
  | .stop h => twTimerStop tw h

def processTick (tw : Wheel) : Wheel × List Expired :=
  match k with
  | .one =>
    let (tw, es) := processFast g tw
    ({ tw with inTick := true }, es)
  | .plain r => r.processTick g tw
  | .overflow => Tw.processTick g tw

def advanceTick (tw : Wheel) : Wheel :=
  match k with
  | .one =>
    { tw with
      currentTick := (tw.currentTick + 1) % 2 ^ 64
      fastIndex := tw.fastIndex % g.slotsPerRing + 1
      inTick := false }
  | .plain r => r.advanceTick g tw
  | .overflow => Tw.advanceTick g tw

/-- The loop over the ticks, with the value that its counter ends with: it is left before the counter is
increased. -/
def tickLoop (maxExpirations : Nat) : Nat → Wheel → List Expired → Wheel × List Expired × Nat
  | 0, tw, callbackVector => (tw, callbackVector, 0)
  | nticks + 1, tw, callbackVector =>
    let (tw, es) := k.processTick g tw
    let callbackVector := callbackVector ++ es
    let tw := k.advanceTick g tw
    if maxExpirations ≤ callbackVector.length then (tw, callbackVector, 0)
    else
      let (tw, callbackVector, i) := tickLoop maxExpirations nticks tw callbackVector
      (tw, callbackVector, i + 1)

end Kind

structure Timed where
  wheel : Wheel
  nextRunTime : Nat
  lastRunTime : Nat

def Timed.init : Timed := ⟨.init, 0, 0⟩

namespace Timed

variable (k : Kind) (g : Geometry) (maxExpirations : Nat)

/-- The ticks since the last run; `nticks` has 32 bits. -/
def nticks (s : Timed) (now : Nat) : Nat := (now - s.lastRunTime) % 2 ^ 32

/-- `tw_timer_expire_timers_internal`, with the vector to begin with. -/
def expireTimers (s : Timed) (now : Nat) (callbackVector : List Expired) : Timed × List Expired :=
  if now < s.nextRunTime then (s, callbackVector)
  else if s.nticks now = 0 then (s, callbackVector)
  else
    let nticks := s.nticks now
    let s := { s with nextRunTime := now + 1 }
    if s.lastRunTime = 0 ∨ now ≤ s.lastRunTime then ({ s with lastRunTime := now }, callbackVector)
    else
      let (tw, callbackVector, i) := k.tickLoop g maxExpirations nticks s.wheel callbackVector
      ({ s with
        wheel := tw
        lastRunTime := s.lastRunTime + i }, callbackVector)

def Processes (s : Timed) (now : Nat) : Prop :=
  s.nextRunTime ≤ now ∧ s.nticks now ≠ 0 ∧ s.lastRunTime ≠ 0 ∧ s.lastRunTime < now

instance (s : Timed) (now : Nat) : Decidable (s.Processes now) := inferInstanceAs (Decidable (_ ∧ _))

end Timed

/-! ## One call -/

section Call

variable (k : Kind) (g : Geometry)

def Kind.expiredIn : Nat → Wheel → List Expired
  | 0, _ => []
  | n + 1, tw => (k.processTick g tw).2 ++ expiredIn n (k.advanceTick g (k.processTick g tw).1)

theorem currentTick_processTick (tw : Wheel) :
    (k.processTick g tw).1.currentTick = tw.currentTick := by
  have hslot : ∀ (place : Nat → Option (Slot × Nat)) (slot : Slot) (tw : Wheel) (c : Prop) [Decidable c],
      (if c then processSlot place slot tw else (tw, [])).1.currentTick = tw.currentTick := by
    intro place slot tw c _
    split
    · exact (processSlot_sameClock place slot).currentTick
    · rfl
  have hfast : ∀ tw, (processFast g tw).1.currentTick = tw.currentTick := fun tw =>
    (processSlot_sameClock _ _).currentTick
  cases k with
  | one => exact hfast tw
  | plain r =>
    cases r with
    | two => exact (hfast _).trans (hslot ..)
    | three => exact (hfast _).trans ((hslot ..).trans (hslot ..))
  | overflow => exact (hfast _).trans ((hslot ..).trans ((hslot ..).trans (hslot ..)))

theorem currentTick_advanceTick (tw : Wheel) :
    (k.advanceTick g tw).currentTick = (tw.currentTick + 1) % 2 ^ 64 := by
  cases k with
  | one => rfl
  | plain r => cases r <;> rfl
  | overflow => rfl

theorem tickLoop_spec (maxExpirations n : Nat) (tw : Wheel) (v : List Expired) :
    let r := k.tickLoop g maxExpirations n tw v
    r.2.2 ≤ n ∧
      (n = 0 ∨ v.length + (k.expiredIn g n tw).length < maxExpirations →
        r.1.currentTick % 2 ^ 64 = (tw.currentTick + r.2.2) % 2 ^ 64) ∧
      (¬ (n = 0 ∨ v.length + (k.expiredIn g n tw).length < maxExpirations) →
        r.2.2 < n ∧ r.1.currentTick % 2 ^ 64 = (tw.currentTick + r.2.2 + 1) % 2 ^ 64) := by
  induction n generalizing tw v with
  | zero => exact ⟨Nat.le_refl 0, fun _ => rfl, fun h => absurd (.inl rfl) h⟩
  | succ n ih =>
    have htick : (k.advanceTick g (k.processTick g tw).1).currentTick =
        (tw.currentTick + 1) % 2 ^ 64 := by
      rw [currentTick_advanceTick, currentTick_processTick]
    obtain ⟨hle, hroom, hfull⟩ := ih (k.advanceTick g (k.processTick g tw).1)
      (v ++ (k.processTick g tw).2)
    unfold Kind.tickLoop Kind.expiredIn
    dsimp only
    generalize k.tickLoop g maxExpirations n (k.advanceTick g (k.processTick g tw).1)
      (v ++ (k.processTick g tw).2) = res at hle hroom hfull ⊢
    obtain ⟨tw', v', i⟩ := res
    simp only [List.length_append] at hroom hfull ⊢
    split
    · refine ⟨Nat.zero_le _, fun h => by omega, fun _ => ⟨succ_pos n, ?_⟩⟩
      dsimp only
      rw [htick, Nat.mod_mod]
    rename_i hmax
    dsimp only
    by_cases hc : n = 0 ∨
        v.length + (k.processTick g tw).2.length +
          (k.expiredIn g n (k.advanceTick g (k.processTick g tw).1)).length < maxExpirations
    · refine ⟨succ_le_succ hle, fun _ => ?_, fun h => ?_⟩
      · omega
      · exfalso
        rcases hc with rfl | hc
        · exact h (by simpa [Kind.expiredIn] using hmax)
        · omega
    · obtain ⟨h1, h2⟩ := hfull hc
      refine ⟨succ_le_succ hle, fun h => ?_, fun _ => ⟨succ_lt_succ h1, ?_⟩⟩
      · exact absurd (.inr (by omega)) hc
      · omega

def Output.expiredTimers : Output → List Expired
  | .expired es => es
  | _ => []

/-- The vector after `m` ticks, one step after the other. -/
def vectorAfter (tw : Wheel) (v : List Expired) (m : Nat) : List Expired :=
  v ++ (outputs (step g) tw (ticks m)).flatMap Output.expiredTimers

theorem vectorAfter_zero {tw : Wheel} {v : List Expired} : vectorAfter g tw v 0 = v := List.append_nil v

/-- The ticks by which `current_tick` advances are the intervals by which `last_run_time` does. -/
def Timed.NoDrift (maxExpirations : Nat) (s : Timed) (now : Nat) (v : List Expired) : Prop :=
  let s' := (s.expireTimers k g maxExpirations now v).1
  s.lastRunTime ≤ s'.lastRunTime ∧
    s'.wheel.currentTick % 2 ^ 64 =
      (s.wheel.currentTick + (s'.lastRunTime - s.lastRunTime)) % 2 ^ 64

/-- There is room in the vector for all timers that expire. -/
def Timed.Room (maxExpirations : Nat) (s : Timed) (now : Nat) (v : List Expired) : Prop :=
  v.length + (k.expiredIn g (s.nticks now) s.wheel).length < maxExpirations

variable {k g} {maxExpirations now : Nat} {s : Timed} {v : List Expired}

theorem Timed.expireTimers_of_processes (hp : s.Processes now) :
    (s.expireTimers k g maxExpirations now v).1 =
      ⟨(k.tickLoop g maxExpirations (s.nticks now) s.wheel v).1, now + 1,
        s.lastRunTime + (k.tickLoop g maxExpirations (s.nticks now) s.wheel v).2.2⟩ := by
  obtain ⟨h1, h2, h3, h4⟩ := hp
  unfold Timed.expireTimers
  rw [if_neg (Nat.not_lt.mpr h1), if_neg h2]
  dsimp only
  rw [if_neg (by omega)]

theorem Timed.noDrift_iff (hp : s.Processes now) :
    s.NoDrift k g maxExpirations now v ↔ s.Room k g maxExpirations now v := by
  obtain ⟨hle, hroom, hfull⟩ := tickLoop_spec k g maxExpirations (s.nticks now) s.wheel v
  unfold NoDrift Room
  rw [Timed.expireTimers_of_processes hp]
  dsimp only
  rw [Nat.add_sub_cancel_left]
  refine ⟨fun hd => ?_, fun hr => ⟨Nat.le_add_right _ _, hroom (.inr hr)⟩⟩
  by_contra hr
  obtain ⟨-, h2⟩ := hfull fun h => h.elim hp.2.1 hr
  omega

end Call

/-! ## Runs -/

/-- What happens to a wheel. -/
inductive Action
  | op (o : Kind.Op)
  | call (now : Nat) (callbackVector : List Expired)
deriving DecidableEq, Repr

section Run

variable (k : Kind) (g : Geometry) (maxExpirations : Nat)

def Timed.step (s : Timed) : Action → Timed × List Expired
  | .op o => ({ s with wheel := k.apply g s.wheel o }, [])
  | .call now v => s.expireTimers k g maxExpirations now v

def Ordered : Nat → List Action → Prop
  | _, [] => True
  | t, .op _ :: as => Ordered t as
  | t, .call now _ :: as => t ≤ now ∧ Ordered now as

/-- The time that the first call remembers: the wheel has not run before. -/
def firstRunTime : List Action → Option Nat
  | [] => none
  | .op _ :: as => firstRunTime as
  | .call now _ :: as => if now % 2 ^ 32 ≠ 0 then some now else firstRunTime as

/-- A call that processes ticks has room for all timers that expire. -/
def Roomy (s : Timed) : Action → Prop
  | .op _ => True
  | .call now v => s.Processes now → s.Room k g maxExpirations now v

instance (s : Timed) (now : Nat) (v : List Expired) : Decidable (s.Room k g maxExpirations now v) :=
  inferInstanceAs (Decidable (_ < _))

instance (s : Timed) : (a : Action) → Decidable (Roomy k g maxExpirations s a)
  | .op _ => inferInstanceAs (Decidable True)
  | .call _ _ => inferInstanceAs (Decidable (_ → _))

/-- Where the times stand, with the time of the first run and that of the latest call. -/
structure Keeps (t : Nat) (f : Option Nat) (s : Timed) : Prop where
  le : s.lastRunTime ≤ t
  lt : s.wheel.currentTick < 2 ^ 64
  fresh : f = none → s.lastRunTime = 0 ∧ s.nextRunTime = 0 ∧ s.wheel.currentTick = 0
  since : ∀ f₀, f = some f₀ → f₀ ≠ 0 ∧ f₀ ≤ s.lastRunTime ∧
    s.wheel.currentTick = (s.lastRunTime - f₀) % 2 ^ 64

variable {k g maxExpirations}

theorem currentTick_apply (tw : Wheel) (o : Kind.Op) :
    (k.apply g tw o).currentTick = tw.currentTick := by
  have hone : ∀ (tw : Wheel) h n, (Kind.oneRingAdd g tw h n).currentTick = tw.currentTick := by
    intro tw h n
    unfold Kind.oneRingAdd
    split <;> rfl
  have hplain : ∀ r (tw : Wheel) h n, (Rings.timerAdd r g tw h n).currentTick = tw.currentTick := by
    intro r tw h n
    unfold Rings.timerAdd
    split <;> rfl
  have hoverflow : ∀ (tw : Wheel) h n, (timerAdd g tw h n).currentTick = tw.currentTick := by
    intro tw h n
    unfold timerAdd
    split <;> rfl
  cases o with
  | start userId timerId n =>
    cases k with
    | one => exact hone _ _ n
    | plain r => exact hplain r _ _ n
    | overflow => exact hoverflow _ _ n
  | update h n =>
    cases k with
    | one => exact hone _ h n
    | plain r => exact hplain r _ h n
    | overflow => exact hoverflow _ h n
  | stop h => rfl

variable (k g maxExpirations) in
theorem currentTick_tickLoop_lt (n : Nat) {tw : Wheel} (h : tw.currentTick < 2 ^ 64) (v : List Expired) :
    (k.tickLoop g maxExpirations n tw v).1.currentTick < 2 ^ 64 := by
  induction n generalizing tw v with
  | zero => exact h
  | succ n ih =>
    have hlt : (k.advanceTick g (k.processTick g tw).1).currentTick < 2 ^ 64 := by
      rw [currentTick_advanceTick]
      exact mod_lt _ (by decide)
    unfold Kind.tickLoop
    dsimp only
    split
    · exact hlt
    · exact ih hlt _

variable {t : Nat} {f : Option Nat} {s : Timed}

theorem Keeps.op (K : Keeps t f s) (o : Kind.Op) :
    Keeps t f (s.step k g maxExpirations (.op o)).1 := by
  have htick := currentTick_apply (k := k) (g := g) s.wheel o
  refine ⟨K.le, ?_, fun hf => ?_, fun f₀ hf => ?_⟩
  · exact Nat.lt_of_le_of_lt (Nat.le_of_eq htick) K.lt
  · obtain ⟨h1, h2, h3⟩ := K.fresh hf
    exact ⟨h1, h2, htick.trans h3⟩
  · obtain ⟨h1, h2, h3⟩ := K.since f₀ hf
    exact ⟨h1, h2, htick.trans h3⟩

theorem Keeps.first {t now : Nat} (K : Keeps t none s) (v : List Expired) (ht : t ≤ now) :
    Keeps now (if now % 2 ^ 32 ≠ 0 then some now else none)
      (s.step k g maxExpirations (.call now v)).1 := by
  obtain ⟨hlast, hnext, htick⟩ := K.fresh rfl
  have hnow : s.nticks now = now % 2 ^ 32 := by rw [Timed.nticks, hlast, Nat.sub_zero]
  unfold Timed.step Timed.expireTimers
  dsimp only
  rw [if_neg (show ¬ now < s.nextRunTime by omega), hnow]
  by_cases hz : now % 2 ^ 32 = 0
  · rw [if_pos hz, if_neg (not_not.mpr hz)]
    exact ⟨Nat.le_trans K.le ht, K.lt, K.fresh, fun f₀ hf => by cases hf⟩
  rw [if_neg hz, if_pos (show s.lastRunTime = 0 ∨ now ≤ s.lastRunTime from .inl hlast), if_pos hz]
  refine ⟨Nat.le_refl now, K.lt, fun hf => (by cases hf), fun f₀ hf => ?_⟩
  obtain rfl := Option.some.inj hf
  refine ⟨fun h0 => hz (by rw [h0, Nat.zero_mod]), Nat.le_refl _, ?_⟩
  rw [htick, Nat.sub_self, Nat.zero_mod]

theorem Keeps.call {t now f : Nat} {v : List Expired} (K : Keeps t (some f) s) (ht : t ≤ now)
    (hroom : Roomy k g maxExpirations s (.call now v)) :
    Keeps now (some f) (s.step k g maxExpirations (.call now v)).1 := by
  obtain ⟨h0, hle, htick⟩ := K.since f rfl
  have hsame : Keeps now (some f) s := { K with le := Nat.le_trans K.le ht }
  by_cases hp : s.Processes now
  · obtain ⟨hmono, hdrift⟩ := (Timed.noDrift_iff hp).mpr (hroom hp)
    have hloop := (tickLoop_spec k g maxExpirations (s.nticks now) s.wheel v).1
    have hlt := currentTick_tickLoop_lt k g maxExpirations (s.nticks now) K.lt v
    have hn : s.nticks now ≤ now - s.lastRunTime := mod_le _ _
    have hpl := hp.2.2.2
    unfold Timed.step
    rw [Timed.expireTimers_of_processes hp] at hmono hdrift ⊢
    dsimp only at hmono hdrift
    refine ⟨by dsimp only; omega, hlt, fun hf => (by cases hf), fun f₀ hf => ?_⟩
    obtain rfl := Option.some.inj hf
    dsimp only
    omega
  · have hstay : (s.step k g maxExpirations (.call now v)).1 = s := by
      unfold Timed.step Timed.expireTimers
      dsimp only
      split
      · rfl
      split
      · rfl
      · rename_i hnext hz
        have hlast := K.le
        have hne : now ≠ s.lastRunTime := fun he => hz (by rw [Timed.nticks, he, Nat.sub_self, Nat.zero_mod])
        exact absurd ⟨by omega, hz, by omega, by omega⟩ hp
    rw [hstay]
    exact hsame

theorem Keeps.run (K : Keeps t f s) {acts : List Action}
    (hord : Ordered t acts) (hroom : Along (Timed.step k g maxExpirations) (Roomy k g maxExpirations) s acts) :
    ∃ t', Keeps t' (f.or (firstRunTime acts)) (after (Timed.step k g maxExpirations) s acts) := by
  induction acts generalizing t f s with
  | nil => exact ⟨t, by rw [firstRunTime, Option.or_none]; exact K⟩
  | cons a acts ih =>
    cases a with
    | op o => exact ih (K.op o) hord hroom.2
    | call now v =>
      cases f with
      | none =>
        have hrest := ih (K.first v hord.1) hord.2 hroom.2
        unfold firstRunTime
        split at hrest
        · rename_i hz
          rw [if_pos hz]
          exact hrest
        · rename_i hz
          rw [if_neg hz]
          exact hrest
      | some f => exact ih (K.call hord.1 hroom.1) hord.2 hroom.2

theorem keeps_init : Keeps 0 none .init :=
  ⟨Nat.le_refl 0, by decide, fun _ => ⟨rfl, rfl, rfl⟩, fun _ hf => by cases hf⟩

end Run

/-- **Ticks and time.** A call advances `current_tick` by as many ticks as `last_run_time` by intervals
exactly if there is room for all timers that expire. If all calls have room, `current_tick` is the number of
intervals since the first run. -/
theorem wheel_keeps_time (k : Kind) (g : Geometry) (maxExpirations : Nat) :
    (∀ s now v, Timed.Processes s now →
      (s.NoDrift k g maxExpirations now v ↔ s.Room k g maxExpirations now v)) ∧
    ∀ acts f, Ordered 0 acts →
      Along (Timed.step k g maxExpirations) (Roomy k g maxExpirations) .init acts →
      firstRunTime acts = some f →
      let s := after (Timed.step k g maxExpirations) .init acts
      f ≤ s.lastRunTime ∧ s.wheel.currentTick = (s.lastRunTime - f) % 2 ^ 64 ∧
        s.wheel.currentTick ≤ s.lastRunTime - f := by
  refine ⟨fun s now v hp => Timed.noDrift_iff hp, fun acts f hord hroom hf => ?_⟩
  obtain ⟨t, K⟩ := keeps_init.run hord hroom
  rw [hf] at K
  obtain ⟨-, hle, htick⟩ := K.since f rfl
  refine ⟨hle, htick, ?_⟩
  rw [htick]
  exact mod_le _ _

/-- A timer that expires at tick 1, with room for five. -/
theorem time_kept_with_room :
    let acts : List Action := [.call 1 [], .op (.start 7 1 1), .call 3 []]
    let s := after (Timed.step (.plain .two) ⟨2, 1⟩ 5) .init acts
    s.lastRunTime = 3 ∧ s.wheel.currentTick ≤ 3 - 1 := by
  have h := (wheel_keeps_time (.plain .two) ⟨2, 1⟩ 5).2 [.call 1 [], .op (.start 7 1 1), .call 3 []] 1
    ⟨by decide, by decide, trivial⟩ (by decide) rfl
  exact ⟨by decide, h.2.2⟩

/-- With room for one the call is left early: two ticks have been processed in what counts as one
interval. -/
theorem tick_ahead_of_time :
    let acts : List Action := [.call 1 [], .op (.start 7 1 1), .call 3 []]
    let s := after (Timed.step (.plain .two) ⟨2, 1⟩ 1) .init acts
    firstRunTime acts = some 1 ∧ s.lastRunTime = 2 ∧ s.wheel.currentTick = 2 := by
  decide

end Vpp.Tw
