import Vpp.Tw.Following

/-!
# Timers expire exactly once, on their tick

Runs of the wheel from `tw_timer_wheel_init` on. Timers are updated and stopped through live handles
only, and ticks and due ticks fit in 64 bits. An interval of zero is due at the current tick, so it is
too late for it once that tick has been processed.
-/

namespace Vpp.Tw

open Vpp.Lib
open List hiding after

def Ok (tw : Wheel) : Event → Prop
  | .start _ _ n => 0 < n ∧ tw.currentTick + n < 2 ^ 64
  | .update h n => tw.timers.elts h ≠ none ∧ (0 < n ∨ tw.inTick = false) ∧
    tw.currentTick + n < 2 ^ 64
  | .stop h => tw.timers.elts h ≠ none
  | .process => tw.inTick = false
  | .advance => tw.inTick = true ∧ tw.currentTick + 1 < 2 ^ 64

instance (tw : Wheel) : (e : Event) → Decidable (Ok tw e)
  | .start _ _ _ => inferInstanceAs (Decidable (_ ∧ _))
  | .update _ _ => inferInstanceAs (Decidable (_ ∧ _))
  | .stop _ => inferInstanceAs (Decidable (_ ≠ _))
  | .process => inferInstanceAs (Decidable (_ = _))
  | .advance => inferInstanceAs (Decidable (_ ∧ _))

/-- Tick `d` has been processed. -/
def Passed (tw : Wheel) (d : Nat) : Prop := d < tw.currentTick ∨ d = tw.currentTick ∧ tw.inTick = true

instance (tw : Wheel) (d : Nat) : Decidable (Passed tw d) := inferInstanceAs (Decidable (_ ∨ _))

section Machine

variable {g : Geometry} {tw : Wheel} {t h n : Nat} {e : Event}

theorem Ok.legal (hok : Ok tw e) : Legal tw e := by
  cases e with
  | start _ _ _ => exact trivial
  | update _ _ => exact hok.1
  | stop _ => exact hok
  | process => exact hok
  | advance => exact hok.1

theorem Ok.room (hok : Ok tw e) (hset : Sets tw h n e) :
    tw.currentTick + n < 2 ^ 64 ∧ (0 < n ∨ tw.inTick = false) := by
  cases e with
  | start _ _ m =>
    obtain ⟨-, rfl⟩ := hset
    exact ⟨hok.2, .inl hok.1⟩
  | update _ m =>
    obtain ⟨-, rfl⟩ := hset
    exact ⟨hok.2.2, hok.2.1⟩
  | _ => exact hset.elim

theorem processTick_processed (hg : g.Fits) (C : Clock 4 g t tw) :
    ∃ x, processTick g tw = ({ x.1 with inTick := true }, x.2) ∧ Processed 4 g t 0 tw x := by
  have P₃ := (processed_start 4 g t tw).processRing (Nat.le_refl 3) (by decide) fun _ => hg
  rw [← C.processOverflow_eq (by decide)] at P₃
  have P₂ := P₃.processRing (by decide) (by decide) fun h => absurd h (by decide)
  rw [← (C.of_sameClock P₃.clock).processGlacier_eq (by decide)] at P₂
  exact ⟨_, rfl, P₂.lower C (by decide)⟩

/-- Three wheels and an overflow vector. -/
def overflowWheel (g : Geometry) (hg : g.Fits) : Machine where
  geometry := g
  rings := 4
  addSlot := timerAddSlot g
  process := processTick g
  advance := advanceTick g
  ok := Ok
  legal _ _ := Ok.legal
  processed _ _ := processTick_processed hg
  clock _ _ C hok := C.advance fun hm => C.tick_eq hm ▸ hok.2
  keeps _ := ⟨rfl, rfl, rfl⟩

theorem overflowWheel_step (hg : g.Fits) : (overflowWheel g hg).step = step g := by
  funext tw e
  have hadd : ∀ tw h n, (overflowWheel g hg).timerAdd tw h n = timerAdd g tw h n := fun tw h n => by
    unfold Machine.timerAdd timerAdd
    cases tw.timers.elts h <;> rfl
  cases e with
  | start userId timerId n => rw [Machine.step, hadd]; rfl
  | update h n => rw [Machine.step, hadd]; rfl
  | _ => rfl

end Machine

/-- A timer set to expire `n` ticks after tick `t`, and not touched since, has been reported once if tick `t +
n` was processed, and not before. -/
theorem expires_exactly_once {g : Geometry} (hg : g.Fits) {pre post : List Event} {e : Event}
    {h n : Nat} (hpre : Along (step g) Ok .init pre) (hok : Ok (after (step g) .init pre) e)
    (hset : Sets (after (step g) .init pre) h n e)
    (hpost : Along (step g) (fun tw e => Ok tw e ∧ ¬ Touches tw h e)
      (step g (after (step g) .init pre) e).1 post) :
    let t := (after (step g) .init pre).currentTick
    let tw := (step g (after (step g) .init pre) e).1
    let now := after (step g) tw post
    ∃ timer, tw.timers.elts h = some timer ∧
      expirations h (outputs (step g) tw post) =
        if Passed now (t + n) then [timer.userHandle] else [] := by
  have hstep := overflowWheel_step hg
  rw [← hstep] at hpre hok hset hpost ⊢
  obtain ⟨⟨t, C⟩, N⟩ := (overflowWheel g hg).reached hpre
  generalize after (overflowWheel g hg).step .init pre = tw at *
  obtain ⟨hmax, hn⟩ := hok.room hset
  rw [C.tick_eq (Nat.lt_succ_self 3)] at hmax ⊢
  obtain ⟨word, tw', timer, C', htimer, hfollow⟩ := (N h).followed C hok hset
  refine ⟨timer, htimer, ?_⟩
  have F := (hfollow (t + n) ?_ (timerAddSlot_within hg C' hmax ?_ word)).run hpost
  · rw [nil_append] at F
    refine F.expirations_eq.trans (if_congr ?_ rfl rfl)
    unfold Passed
    rw [F.clock.tick_eq (Nat.lt_succ_self 3)]
  · exact Nat.lt_succ_of_le (ring_le _)
  · exact hn.imp_right fun hin => by rw [hin]; exact Nat.zero_lt_succ 3

/-- With two slots a ring, a timer that goes through the overflow vector and all three rings. -/
theorem expires_exactly_once_overflow :
    expirations 0 (outputs (step ⟨1, 2⟩) (after (step ⟨1, 2⟩) .init (ticks 1 ++ [.start 7 1 14]))
      (ticks 14 ++ [.process])) = [2 ^ 30 + 7] := by
  obtain ⟨timer, htimer, h⟩ := @expires_exactly_once ⟨1, 2⟩ (by decide) (ticks 1)
    (ticks 14 ++ [.process]) (.start 7 1 14) 0 14 (by decide) (by decide) ⟨rfl, rfl⟩ (by decide +kernel)
  rw [if_pos (by decide +kernel)] at h
  cases htimer
  exact h

/-- Where `current_tick` and the interval leave 64 bits, the timer expires at once. -/
theorem expires_early_past_64_bits :
    let tw := after (step ⟨2, 2⟩) .init ([.process, .advance, .start 7 1 (2 ^ 64 - 1)] : List Event)
    tw.currentTick = 1 ∧ expirations 0 (outputs (step ⟨2, 2⟩) tw ([.process, .advance, .process, .advance, .process,
      .advance, .process] : List Event)) = [2 ^ 30 + 7] := by
  decide

end Vpp.Tw
