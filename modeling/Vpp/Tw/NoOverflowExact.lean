import Vpp.Tw.NoOverflow

/-!
# When timers expire without an overflow vector

A timer expires exactly once, at the tick that its slot stands for. That is the one it was started for exactly
if the highest wheel does not come round before.
-/

namespace Vpp.Tw

open Vpp.Lib
open List hiding after

variable {h : Nat} {tw : Wheel} {r : Rings} {g : Geometry} {t : Nat}

theorem Rings.processTick_processed (C : Clock r.count g t tw) :
    ∃ x, r.processTick g tw = ({ x.1 with inTick := true }, x.2) ∧ Processed r.count g t 0 tw x := by
  cases r with
  | two => exact ⟨_, rfl, (processed_start 2 g t tw).lower C (by decide)⟩
  | three =>
    have P := (processed_start 3 g t tw).processRing (by decide) (by decide) fun h => absurd h (by decide)
    rw [← C.processGlacier_eq (by decide)] at P
    exact ⟨_, rfl, P.lower C (by decide)⟩

theorem Rings.advanceTick_clock (C : Clock r.count g t tw) : Clock r.count g (t + 1) (r.advanceTick g tw) := by
  cases r with
  | two =>
    have C' := C.advance fun h => absurd h (by decide)
    exact { C' with glacier := fun h => absurd h (by decide) }
  | three => exact C.advance fun h => absurd h (by decide)

/-- Wheels without an overflow vector. -/
def Rings.machine (r : Rings) (g : Geometry) : Machine where
  geometry := g
  rings := r.count
  addSlot := r.timerAddSlot g
  process := r.processTick g
  advance := r.advanceTick g
  ok := Legal
  legal _ _ hok := hok
  processed _ _ := processTick_processed
  clock _ _ C _ := advanceTick_clock C
  keeps _ := by cases r <;> exact ⟨rfl, rfl, rfl⟩

theorem Rings.machine_step (r : Rings) (g : Geometry) : (r.machine g).step = r.step g := by
  funext tw e
  have hadd : ∀ tw h n, (r.machine g).timerAdd tw h n = r.timerAdd g tw h n := fun tw h n => by
    unfold Machine.timerAdd Rings.timerAdd
    cases tw.timers.elts h <;> rfl
  cases e with
  | start userId timerId n => rw [Machine.step, hadd]; rfl
  | update h n => rw [Machine.step, hadd]; rfl
  | _ => rfl

theorem after_process_inTick : (r.step g tw .process).1.inTick = true := by
  cases r <;> rfl

theorem after_advance_inTick : (r.step g tw .advance).1.inTick = false := by
  cases r <;> rfl

theorem along_ticks {k : Nat} (hin : tw.inTick = false) :
    Along (r.step g) (fun tw e => Legal tw e ∧ ¬ Touches tw h e) tw (ticks k ++ [.process]) ∧
      (after (r.step g) tw (ticks k ++ [.process])).inTick = true ∧
      elapsed (ticks k ++ [.process]) = k := by
  induction k generalizing tw with
  | zero => exact ⟨⟨⟨hin, id⟩, trivial⟩, after_process_inTick, rfl⟩
  | succ k ih =>
    obtain ⟨h1, h2, h3⟩ := ih after_advance_inTick
    refine ⟨⟨⟨hin, id⟩, ⟨after_process_inTick, id⟩, h1⟩, h2, ?_⟩
    unfold elapsed at h3 ⊢
    rw [ticks, cons_append, cons_append, count_cons_of_ne (by decide), count_cons_self, h3]

theorem exists_ticks {k : Nat} (hk : 1 ≤ k) :
    ∃ es, Along (r.step g) (fun tw e => Legal tw e ∧ ¬ Touches tw h e) tw es ∧
      (after (r.step g) tw es).inTick = true ∧ elapsed es = k := by
  cases hin : tw.inTick with
  | false => exact ⟨_, along_ticks hin⟩
  | true =>
    obtain ⟨h1, h2, h3⟩ := along_ticks after_advance_inTick
    refine ⟨.advance :: (ticks (k - 1) ++ [.process]), ⟨⟨hin, id⟩, h1⟩, h2, ?_⟩
    rw [elapsed_cons, show elapsed [Event.advance] = 1 from rfl]
    omega

/-- However it goes on, timer `h` is reported once, at the tick `n` after the one in which it is set by
`e`, as long as it is not touched. -/
def ExpiresOnTime (r : Rings) (g : Geometry) (tw : Wheel) (e : Event) (h n : Nat) : Prop :=
  ∃ timer, (r.step g tw e).1.timers.elts h = some timer ∧
    ∀ post, Along (r.step g) (fun tw e => Legal tw e ∧ ¬ Touches tw h e) (r.step g tw e).1 post →
      (after (r.step g) (r.step g tw e).1 post).currentTick =
          (tw.currentTick + elapsed post) % 2 ^ 64 ∧
        expirations h (outputs (r.step g) (r.step g tw e).1 post) =
          if n < elapsed post ∨
              n = elapsed post ∧ (after (r.step g) (r.step g tw e).1 post).inTick = true
          then [timer.userHandle] else []

/-- **Exactness.** In every reachable state a timer is reported once and on its tick exactly if the highest
wheel does not come round before. -/
theorem expires_on_time_iff (r : Rings) {g : Geometry} (hg : g.ringShift ≤ 15) {pre : List Event}
    {e : Event} {h n : Nat} (hpre : Along (r.step g) Legal .init pre)
    (hok : Legal (after (r.step g) .init pre) e) (hset : Sets (after (r.step g) .init pre) h n e)
    (hn : 1 ≤ n) (hlt : n < g.slotsPerRing ^ r.count) :
    ExpiresOnTime r g (after (r.step g) .init pre) e h n ↔
      (after (r.step g) .init pre).currentTick % g.slotsPerRing ^ (r.count - 1) + n <
        g.slotsPerRing ^ r.count := by
  have hb : g.slotsPerRing ≤ 2 ^ 15 := Nat.pow_le_pow_right (by decide) hg
  unfold ExpiresOnTime
  rw [← r.machine_step g] at hpre hok hset ⊢
  obtain ⟨⟨t, C⟩, N⟩ := (r.machine g).reached hpre
  generalize after (r.machine g).step .init pre = tw at *
  obtain ⟨word, tw', timer, C', htimer, hfollow⟩ := (N h).followed C hok hset
  obtain ⟨d, htd, hdn, hiff, hring, hw⟩ := r.timerAddSlot_within hb C' hn hlt
    (if tw.inTick then 0 else r.count) word
  have F := hfollow d hring hw
  have hdvd : g.slotsPerRing ^ (r.count - 1) ∣ 2 ^ 64 := by
    rw [Geometry.slotsPerRing, ← Nat.pow_mul]
    refine Nat.pow_dvd_pow 2 ?_
    cases r with
    | two => exact Nat.le_trans (Nat.mul_le_mul_right 1 hg) (by decide)
    | three => exact Nat.le_trans (Nat.mul_le_mul_right 2 hg) (by decide)
  rw [C.tick, Nat.mod_mod_of_dvd _ hdvd, ← hiff]
  refine ⟨fun h => ?_, fun hd => ⟨timer, htimer, fun post hpost => ?_⟩⟩
  · -- run until the timer expires
    obtain ⟨timer', htimer', hall⟩ := h
    by_contra hne
    obtain ⟨post, hpost, hin, helapsed⟩ := exists_ticks (show 1 ≤ d - t by omega)
    rw [← r.machine_step g] at hpost hin
    have h1 := (F.run hpost).expirations_eq
    have h2 := (hall post hpost).2
    rw [nil_append] at h1
    rw [h1, if_pos (.inr ⟨by omega, hin⟩), if_neg (by omega)] at h2
    cases h2
  · have F' := F.run hpost
    have hexp := F'.expirations_eq
    rw [nil_append, hd] at hexp
    refine ⟨?_, hexp.trans (if_congr ?_ rfl rfl)⟩
    · rw [F'.clock.tick, Nat.mod_add_mod]
    · rw [Nat.add_lt_add_iff_left, Nat.add_left_cancel_iff]

/-- Two wheels with four slots each: fourteen ticks from tick 1 on. -/
theorem expires_on_time_two_wheels :
    expirations 0 (outputs (Rings.two.step ⟨2, 1⟩)
      (after (Rings.two.step ⟨2, 1⟩) .init (ticks 1 ++ [.start 7 1 14])) (ticks 14 ++ [.process])) =
      [2 ^ 31 + 7] := by
  obtain ⟨timer, htimer, hall⟩ := (@expires_on_time_iff .two ⟨2, 1⟩ (by decide) (ticks 1)
    (.start 7 1 14) 0 14 (by decide) trivial ⟨rfl, rfl⟩ (by decide) (by decide)).mpr (by decide)
  have hrun := (hall (ticks 14 ++ [.process]) (by decide +kernel)).2
  cases htimer
  exact hrun

/-- Thirteen ticks from tick 3 on, the slow wheel has come round to where it is: the timer expires after one
tick. With three wheels of two slots it is the same with five. -/
theorem expires_early :
    (after (Rings.two.step ⟨2, 1⟩) .init (ticks 3)).currentTick = 3 ∧
    expirations 0 (outputs (Rings.two.step ⟨2, 1⟩)
      (after (Rings.two.step ⟨2, 1⟩) .init (ticks 3 ++ [.start 7 1 13])) (ticks 1 ++ [.process])) =
      [2 ^ 31 + 7] ∧
    expirations 0 (outputs (Rings.three.step ⟨1, 1⟩)
      (after (Rings.three.step ⟨1, 1⟩) .init (ticks 3 ++ [.start 7 1 5])) (ticks 1 ++ [.process])) =
      [2 ^ 31 + 7] := by
  decide +kernel

end Vpp.Tw
