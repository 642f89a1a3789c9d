import Vpp.Tw.Placement

/-!
# Following one timer

One timer is followed through a run, whatever becomes of the others: it is linked into one slot, and at
every tick that slot is right for the tick at which it is due. So it expires exactly once, and at that
tick. This is the same for all wheels: a `Machine` has what they differ in, and what they must keep to.
-/

namespace Vpp.Tw

open Vpp.Lib
open List hiding after
open Function (update_self update_of_ne)

/-! ## Events -/

def Output.expirations (h : Nat) : Output → List Nat
  | .expired es => (es.filter (·.handle == h)).map Expired.userHandle
  | _ => []

def expirations (h : Nat) (outs : List Output) : List Nat := outs.flatMap (Output.expirations h)

/-- The event sets timer `h` to expire in `n` ticks. -/
def Sets (tw : Wheel) (h n : Nat) : Event → Prop
  | .start _ _ m => tw.timers.next = h ∧ m = n
  | .update h' m => h' = h ∧ m = n
  | _ => False

/-- The event stops or updates timer `h`, or its handle is given to a new timer. -/
def Touches (tw : Wheel) (h : Nat) : Event → Prop
  | .start _ _ _ => tw.timers.next = h
  | .update h' _ => h' = h
  | .stop h' => h' = h
  | _ => False

instance (tw : Wheel) (h : Nat) : (e : Event) → Decidable (Touches tw h e)
  | .start _ _ _ => inferInstanceAs (Decidable (_ = _))
  | .update _ _ => inferInstanceAs (Decidable (_ = _))
  | .stop _ => inferInstanceAs (Decidable (_ = _))
  | .process => inferInstanceAs (Decidable False)
  | .advance => inferInstanceAs (Decidable False)

def ticks : Nat → List Event
  | 0 => []
  | n + 1 => .process :: .advance :: ticks n

def elapsed (es : List Event) : Nat := es.count .advance

/-- What callers keep to: handles are live, and ticks are processed one after the other. -/
def Legal (tw : Wheel) : Event → Prop
  | .start _ _ _ => True
  | .update h _ => tw.timers.elts h ≠ none
  | .stop h => tw.timers.elts h ≠ none
  | .process => tw.inTick = false
  | .advance => tw.inTick = true

instance (tw : Wheel) : (e : Event) → Decidable (Legal tw e)
  | .start _ _ _ => inferInstanceAs (Decidable True)
  | .update _ _ => inferInstanceAs (Decidable (_ ≠ _))
  | .stop _ => inferInstanceAs (Decidable (_ ≠ _))
  | .process => inferInstanceAs (Decidable (_ = _))
  | .advance => inferInstanceAs (Decidable (_ = _))

/-! ## One timer -/

/-- Handle `h` has the element `o` and is linked into the slot `s`, once, or into none. -/
structure Linked (tw : Wheel) (h : Nat) (o : Option Timer) (s : Option Slot) : Prop where
  elt : tw.timers.elts h = o
  count : ∀ s', (tw.slots s').count h = if s = some s' then 1 else 0

variable {es : List Expired} {m n h u d : Nat} {tw tw' : Wheel} {o : Option Timer} {s : Option Slot}
  {g : Geometry} {e : Event}

section Linked

variable {h' : Nat} {slot : Slot} {t : Timer}

theorem Linked.addhead_other (L : Linked tw h o s) (hne : h ≠ h') :
    Linked (tw.addhead slot h' t) h o s := by
  refine ⟨(tw.timers.elts_set_of_ne hne t).trans L.elt, fun s' => ?_⟩
  rw [← L.count s', Wheel.addhead]
  dsimp only
  by_cases hs : s' = slot
  · rw [hs, update_self, count_cons_of_ne (Ne.symm hne)]
  · rw [update_of_ne hs]

theorem Linked.addhead_self (L : Linked tw h (some t) none) {t' : Timer} :
    Linked (tw.addhead slot h t') h (some t') (some slot) := by
  refine ⟨?_, fun s' => ?_⟩
  · rw [Wheel.addhead]
    rw [tw.timers.elts_set (by rw [L.elt]; exact Option.some_ne_none t), update_self]
  have hzero := L.count s'
  rw [if_neg (by simp)] at hzero
  rw [Wheel.addhead]
  dsimp only
  by_cases hs : s' = slot
  · subst hs
    rw [update_self, count_cons_self, hzero, if_pos rfl]
  · rw [update_of_ne hs, hzero, if_neg fun he => hs (Option.some.inj he).symm]

theorem Linked.put_other (L : Linked tw h o s) (hne : h ≠ h') :
    Linked { tw with timers := tw.timers.put h' } h o s :=
  ⟨by rw [Pool.elts_put, update_of_ne hne, L.elt], L.count⟩

theorem Linked.put_self (L : Linked tw h o none) :
    Linked { tw with timers := tw.timers.put h } h none none :=
  ⟨by rw [Pool.elts_put, update_self], L.count⟩

theorem Linked.remove_other (L : Linked tw h o s) (hne : h ≠ h') : Linked (tw.timerRemove h') h o s :=
  ⟨L.elt, fun s' => by rw [← L.count s', Wheel.timerRemove, count_erase_of_ne hne]⟩

theorem Linked.remove_self (L : Linked tw h o s) : Linked (tw.timerRemove h) h o none := by
  refine ⟨L.elt, fun s' => ?_⟩
  rw [Wheel.timerRemove]
  rw [count_erase_self, L.count s']
  split <;> simp

theorem expirations_cons {e : Expired} :
    Output.expirations h (.expired (e :: es)) =
      (if e.handle = h then [e.userHandle] else []) ++ Output.expirations h (.expired es) := by
  unfold Output.expirations
  dsimp only
  by_cases he : e.handle = h
  · rw [filter_cons_of_pos (by simpa using he), if_pos he]
    rfl
  · rw [filter_cons_of_neg (by simpa using he), if_neg he]
    rfl

theorem expirations_expired_append {es' : List Expired} :
    Output.expirations h (.expired (es ++ es')) =
      Output.expirations h (.expired es) ++ Output.expirations h (.expired es') := by
  simp [Output.expirations]

/-- What becomes of handle `h`: where it is linked, and its expirations. -/
def Dealt (x : Wheel × List Expired) (h : Nat) (o : Option Timer) (s : Option Slot) (us : List Nat) :
    Prop :=
  Linked x.1 h o s ∧ Output.expirations h (.expired x.2) = us

section

variable (place : Nat → Option (Slot × Nat))
include place

theorem Linked.deal_other {hs : List Nat} (L : Linked tw h o s) (hnot : h ∉ hs) :
    Dealt (deal place hs tw) h o s [] := by
  induction hs generalizing tw with
  | nil => exact ⟨L, rfl⟩
  | cons x hs ih =>
    have hne : h ≠ x := fun he => hnot (he ▸ mem_cons_self)
    have hnot' : h ∉ hs := fun hin => hnot (mem_cons_of_mem x hin)
    unfold deal
    cases hx : tw.timers.elts x with
    | none => exact ih L hnot'
    | some t =>
      dsimp only
      cases hp : place t.word with
      | none =>
        obtain ⟨h1, h2⟩ := ih (L.put_other hne) hnot'
        refine ⟨h1, ?_⟩
        rw [expirations_cons, if_neg (Ne.symm hne)]
        exact h2
      | some r => exact ih (L.addhead_other hne) hnot'

theorem Linked.deal_self {hs : List Nat} (L : Linked tw h (some t) none) (hone : hs.count h = 1) :
    match place t.word with
    | none => Dealt (deal place hs tw) h none none [t.userHandle]
    | some r => Dealt (deal place hs tw) h (some { t with word := r.2 }) (some r.1) [] := by
  induction hs generalizing tw with
  | nil => cases hone
  | cons x hs ih =>
    unfold deal
    by_cases hx : x = h
    · subst hx
      rw [count_cons_self] at hone
      have hnot : x ∉ hs := count_eq_zero.mp (by omega)
      rw [L.elt]
      dsimp only
      cases hp : place t.word with
      | none =>
        obtain ⟨h1, h2⟩ := L.put_self.deal_other place hnot
        refine ⟨h1, ?_⟩
        rw [expirations_cons, if_pos rfl, h2]
        rfl
      | some r => exact L.addhead_self.deal_other place hnot
    · have hne : h ≠ x := Ne.symm hx
      rw [count_cons_of_ne hx] at hone
      cases hxe : tw.timers.elts x with
      | none => exact ih L hone
      | some t' =>
        dsimp only
        cases hp : place t'.word with
        | none =>
          have hrest := ih (L.put_other hne) hone
          unfold Dealt at hrest ⊢
          rw [expirations_cons, if_neg hx]
          exact hrest
        | some r => exact ih (L.addhead_other hne) hone

theorem Linked.processSlot_other (L : Linked tw h o s) (hs : s ≠ some slot) :
    Dealt (processSlot place slot tw) h o s [] := by
  have hzero := L.count slot
  rw [if_neg hs] at hzero
  refine Linked.deal_other place ⟨L.elt, fun s' => ?_⟩ (count_eq_zero.mp hzero)
  rw [← L.count s']
  by_cases he : s' = slot
  · rw [he, hzero]
    dsimp only
    rw [update_self, count_nil]
  · dsimp only
    rw [update_of_ne he]

theorem Linked.processSlot_self (L : Linked tw h (some t) (some slot)) :
    match place t.word with
    | none => Dealt (processSlot place slot tw) h none none [t.userHandle]
    | some r => Dealt (processSlot place slot tw) h (some { t with word := r.2 }) (some r.1) [] := by
  have hone := L.count slot
  rw [if_pos rfl] at hone
  refine Linked.deal_self place ⟨L.elt, fun s' => ?_⟩ hone
  rw [if_neg (by simp)]
  by_cases he : s' = slot
  · dsimp only
    rw [he, update_self, count_nil]
  · have := L.count s'
    rw [if_neg fun h => he (Option.some.inj h).symm] at this
    dsimp only
    rw [update_of_ne he, this]

end

end Linked

/-! ## A tick -/

structure SameClock (tw tw' : Wheel) : Prop where
  currentTick : tw'.currentTick = tw.currentTick
  fastIndex : tw'.fastIndex = tw.fastIndex
  slowIndex : tw'.slowIndex = tw.slowIndex
  glacierIndex : tw'.glacierIndex = tw.glacierIndex

theorem SameClock.rfl' (tw : Wheel) : SameClock tw tw := ⟨rfl, rfl, rfl, rfl⟩

theorem SameClock.trans {tw'' : Wheel} (h : SameClock tw tw') (h' : SameClock tw' tw'') :
    SameClock tw tw'' :=
  ⟨h'.currentTick.trans h.currentTick, h'.fastIndex.trans h.fastIndex,
    h'.slowIndex.trans h.slowIndex, h'.glacierIndex.trans h.glacierIndex⟩

theorem deal_sameClock {place : Nat → Option (Slot × Nat)} (hs : List Nat) (tw : Wheel) :
    SameClock tw (deal place hs tw).1 := by
  induction hs generalizing tw with
  | nil => exact .rfl' tw
  | cons x hs ih =>
    unfold deal
    cases tw.timers.elts x with
    | none => exact ih tw
    | some t =>
      dsimp only
      cases place t.word with
      | none =>
        exact { ih { tw with timers := tw.timers.put x } with }
      | some r =>
        exact { ih (tw.addhead r.1 x { t with word := r.2 }) with }

theorem processSlot_sameClock (place : Nat → Option (Slot × Nat)) (slot : Slot) :
    SameClock tw (processSlot place slot tw).1 :=
  { deal_sameClock (tw.slots slot) { tw with slots := Function.update tw.slots slot [] } with }

/-- A handle is linked once if it is in use, and else nowhere. -/
def Neat (tw : Wheel) (h : Nat) : Prop := ∃ o s, Linked tw h o s ∧ (o = none → s = none)

theorem Neat.alive (N : Neat tw h) (ha : tw.timers.elts h ≠ none) :
    ∃ t s, Linked tw h (some t) s := by
  obtain ⟨o, s, L, -⟩ := N
  rw [L.elt] at ha
  obtain ⟨t, rfl⟩ := Option.ne_none_iff_exists'.mp ha
  exact ⟨t, s, L⟩

theorem Neat.dead (N : Neat tw h) (ha : tw.timers.elts h = none) : Linked tw h none none := by
  obtain ⟨o, s, L, hs⟩ := N
  obtain rfl : o = none := L.elt.symm.trans ha
  obtain rfl := hs rfl
  exact L

theorem Neat.processSlot (place : Nat → Option (Slot × Nat)) (slot : Slot) (N : Neat tw h) :
    Neat (processSlot place slot tw).1 h := by
  obtain ⟨o, s, L, hs⟩ := N
  by_cases he : s = some slot
  · subst he
    obtain ⟨t, rfl⟩ : ∃ t, o = some t :=
      Option.ne_none_iff_exists'.mp fun hn => Option.some_ne_none slot (hs hn)
    have hself := L.processSlot_self place
    cases hp : place t.word with
    | none =>
      rw [hp] at hself
      exact ⟨_, _, hself.1, fun _ => rfl⟩
    | some x =>
      rw [hp] at hself
      exact ⟨_, _, hself.1, fun hn => by cases hn⟩
  · exact ⟨o, s, (L.processSlot_other place he).1, hs⟩

section Tick

variable {t q : Nat}

/-- One ring at a tick: its due slot is dealt out if the wheels below have clicked. -/
def processRing (g : Geometry) (t q : Nat) (tw : Wheel) : Wheel × List Expired :=
  if (q ≠ 0 → 0 < t) ∧ AtStart g.slotsPerRing q t then
    processSlot (placeRing g t q) (dueSlot g.slotsPerRing t q) tw
  else (tw, [])

theorem processRing_sameClock : SameClock tw (processRing g t q tw).1 := by
  unfold processRing
  split
  · exact processSlot_sameClock _ _
  · exact .rfl' tw

/-- Timer `h` of user handle `u` is in one of `m` rings and due at tick `d`, when the rings from `p` on have
been dealt out. -/
def Follows (m : Nat) (g : Geometry) (t p h u d : Nat) (tw : Wheel) : Prop :=
  ∃ timer s, Linked tw h (some timer) (some s) ∧ timer.userHandle = u ∧ ring s < m ∧
    Within g.slotsPerRing t p s timer.word d

theorem Follows.processRing (hq : q ≤ 3) (hqm : q < m) (hg : q = 3 → g.Fits)
    (F : Follows m g t (q + 1) h u d tw) :
    Follows m g t q h u d (processRing g t q tw).1 ∧
        Output.expirations h (.expired (processRing g t q tw).2) = [] ∨
      d = t ∧ Dealt (processRing g t q tw) h none none [u] := by
  obtain ⟨timer, s, L, rfl, hring, hw⟩ := F
  unfold Tw.processRing
  split
  · rename_i hclick
    by_cases hs : s = dueSlot g.slotsPerRing t q
    · subst hs
      have hdeal := hw.deal hq hg hclick.2
      have hself := L.processSlot_self (placeRing g t q)
      cases hp : placeRing g t q timer.word with
      | none =>
        rw [hp] at hdeal hself
        exact .inr ⟨hdeal, hself⟩
      | some x =>
        rw [hp] at hdeal hself
        exact .inl ⟨⟨_, _, hself.1, rfl, Nat.lt_of_le_of_lt hdeal.1 hqm, hdeal.2⟩, hself.2⟩
    · obtain ⟨h1, h2⟩ := L.processSlot_other (placeRing g t q) fun he => hs (Option.some.inj he)
      exact .inl ⟨⟨timer, s, h1, rfl, hring, hw.settle fun _ => hs⟩, h2⟩
  · rename_i hno
    exact .inl ⟨⟨timer, s, L, rfl, hring, hw.settle fun hclick => absurd hclick hno⟩, rfl⟩

theorem Linked.processRing_gone (L : Linked tw h none none) :
    Dealt (processRing g t q tw) h none none [] := by
  unfold processRing
  split
  · exact L.processSlot_other _ (by simp)
  · exact ⟨L, rfl⟩

/-- The timer is still due, or has expired at this tick. -/
def Stage (m : Nat) (g : Geometry) (t p h u d : Nat) (x : Wheel × List Expired) : Prop :=
  Follows m g t p h u d x.1 ∧ Output.expirations h (.expired x.2) = [] ∨
    d = t ∧ Linked x.1 h none none ∧ Output.expirations h (.expired x.2) = [u]

theorem Stage.processRing (hq : q ≤ 3) (hqm : q < m) (hg : q = 3 → g.Fits)
    (S : Stage m g t (q + 1) h u d (tw, es)) :
    Stage m g t q h u d ((processRing g t q tw).1, es ++ (processRing g t q tw).2) := by
  rcases S with ⟨F, hes⟩ | ⟨hd, L, hes⟩
  · rcases F.processRing hq hqm hg with ⟨F', hes'⟩ | ⟨hd, L, hes'⟩
    · exact .inl ⟨F', by rw [expirations_expired_append, hes, hes', append_nil]⟩
    · exact .inr ⟨hd, L, by rw [expirations_expired_append, hes, hes', nil_append]⟩
  · obtain ⟨L', hes'⟩ := L.processRing_gone
    exact .inr ⟨hd, L', by rw [expirations_expired_append, hes, hes', append_nil]⟩

/-- What the timers of a wheel have come to once the rings from the top down to `q` are done. -/
structure Processed (m : Nat) (g : Geometry) (t q : Nat) (tw : Wheel) (x : Wheel × List Expired) : Prop where
  clock : SameClock tw x.1
  follows : ∀ h u d, Follows m g t m h u d tw → Stage m g t q h u d x
  gone : ∀ h, Linked tw h none none → Dealt x h none none []
  neat : ∀ h, Neat tw h → Neat x.1 h

theorem processed_start (m : Nat) (g : Geometry) (t : Nat) (tw : Wheel) : Processed m g t m tw (tw, []) :=
  ⟨.rfl' tw, fun _ _ _ F => .inl ⟨F, rfl⟩, fun _ L => ⟨L, rfl⟩, fun _ N => N⟩

theorem Processed.processRing (hq : q ≤ 3) (hqm : q < m) (hg : q = 3 → g.Fits)
    (P : Processed m g t (q + 1) tw (tw', es)) :
    Processed m g t q tw ((processRing g t q tw').1, es ++ (processRing g t q tw').2) := by
  refine ⟨P.clock.trans processRing_sameClock,
    fun h u d F => (P.follows h u d F).processRing hq hqm hg, fun h L => ?_, fun h N => ?_⟩
  · obtain ⟨L1, he1⟩ := P.gone h L
    obtain ⟨L0, he0⟩ := L1.processRing_gone
    exact ⟨L0, by rw [expirations_expired_append, he1, he0]; rfl⟩
  · unfold Tw.processRing
    split
    · exact (P.neat h N).processSlot _ _
    · exact P.neat h N

theorem click_iff (hq : q ≠ 0) : 0 < t ∧ AtStart g.slotsPerRing q t ↔
    (q ≠ 0 → 0 < t) ∧ AtStart g.slotsPerRing q t :=
  and_congr_left fun _ => ⟨fun h _ => h, fun h => h hq⟩

theorem Clock.of_sameClock (C : Clock m g t tw) (hs : SameClock tw tw') : Clock m g t tw' :=
  ⟨hs.currentTick.trans C.tick, hs.fastIndex.trans C.fast, hs.slowIndex.trans C.slow,
    fun hm => hs.glacierIndex.trans (C.glacier hm), C.bound⟩

section

variable (C : Clock m g t tw)
include C

theorem Clock.processOverflow_eq (hm : 3 < m) : processOverflow g tw = processRing g t 3 tw := by
  unfold processOverflow processRing
  rw [C.tick_eq hm]
  exact if_congr ((C.glacier_click (Nat.lt_of_succ_lt hm)).trans (click_iff (by decide))) rfl rfl

theorem Clock.processGlacier_eq (hm : 2 < m) : processGlacier g tw = processRing g t 2 tw := by
  unfold processGlacier processRing
  rw [C.glacier hm, wheelIndex_mod]
  exact if_congr (C.slow_click.trans (click_iff (by decide))) rfl rfl

theorem Clock.processSlow_eq : processSlow g tw = processRing g t 1 tw := by
  unfold processSlow processRing
  rw [C.slow, wheelIndex_mod]
  exact if_congr (C.fast_click.trans (click_iff (by decide))) rfl rfl

theorem Clock.processFast_eq : processFast g tw = processRing g t 0 tw := by
  unfold processFast processRing
  rw [C.fast, wheelIndex_mod, if_pos ⟨fun h => absurd rfl h, atStart_zero⟩]
  rfl

/-- The two rings that all wheels have. -/
theorem Processed.lower (hm : 1 < m) (P : Processed m g t 2 tw (tw', es)) :
    Processed m g t 0 tw ((processFast g (processSlow g tw').1).1,
      es ++ (processSlow g tw').2 ++ (processFast g (processSlow g tw').1).2) := by
  have C' := C.of_sameClock P.clock
  rw [C'.processSlow_eq, (C'.of_sameClock processRing_sameClock).processFast_eq]
  exact (P.processRing (by decide) hm fun h => absurd h (by decide)).processRing (by decide)
    (Nat.zero_lt_of_lt hm) fun h => absurd h (by decide)

end

end Tick

/-! ## Machines -/

/-- A timer wheel with `rings` rings. Calls that are `ok` keep to their side, and then so do the wheels. -/
structure Machine where
  geometry : Geometry
  rings : Nat
  addSlot : Wheel → Nat → Nat → Slot × Nat
  process : Wheel → Wheel × List Expired
  advance : Wheel → Wheel
  ok : Wheel → Event → Prop
  legal : ∀ tw e, ok tw e → Legal tw e
  processed : ∀ t tw, Clock rings geometry t tw →
    ∃ x, process tw = ({ x.1 with inTick := true }, x.2) ∧ Processed rings geometry t 0 tw x
  clock : ∀ t tw, Clock rings geometry t tw → ok tw .advance → Clock rings geometry (t + 1) (advance tw)
  keeps : ∀ tw, (advance tw).timers = tw.timers ∧ (advance tw).slots = tw.slots ∧ (advance tw).inTick = false

namespace Machine

variable (M : Machine)

def timerAdd (tw : Wheel) (h interval : Nat) : Wheel :=
  match tw.timers.elts h with
  | none => tw
  | some t =>
    tw.addhead (M.addSlot tw interval t.word).1 h { t with word := (M.addSlot tw interval t.word).2 }

def step (tw : Wheel) : Event → Wheel × Output
  | .start userId timerId interval =>
    let t := ⟨makeInternalTimerHandle M.geometry userId timerId, 2 ^ 64 - 1⟩
    (M.timerAdd { tw with timers := tw.timers.get t } tw.timers.next interval, .started tw.timers.next)
  | .update h interval => (M.timerAdd (tw.timerRemove h) h interval, .none)
  | .stop h => (twTimerStop tw h, .none)
  | .process => ((M.process tw).1, .expired (M.process tw).2)
  | .advance => (M.advance tw, .none)

/-- Where the timer stands in a run, `t` ticks after the beginning. -/
structure Followed (h u d t : Nat) (tw : Wheel) (outs : List Output) : Prop where
  clock : Clock M.rings M.geometry t tw
  timer :
    Follows M.rings M.geometry t (if tw.inTick then 0 else M.rings) h u d tw ∧ expirations h outs = [] ∨
      Linked tw h none none ∧ (d < t ∨ d = t ∧ tw.inTick = true) ∧ expirations h outs = [u]

end Machine

variable {M : Machine} {t : Nat}

/-! ## Steps -/

theorem Linked.timerAdd {t : Timer} (L : Linked tw h (some t) none) (n : Nat) :
    Linked (M.timerAdd tw h n) h (some { t with word := (M.addSlot tw n t.word).2 })
      (some (M.addSlot tw n t.word).1) := by
  unfold Machine.timerAdd
  rw [L.elt]
  exact L.addhead_self

theorem Linked.timerAdd_other {h' : Nat} (L : Linked tw h o s) (hne : h ≠ h') :
    Linked (M.timerAdd tw h' n) h o s := by
  unfold Machine.timerAdd
  cases tw.timers.elts h' with
  | none => exact L
  | some t => exact L.addhead_other hne

theorem Linked.step_other (L : Linked tw h o s)
    (ht : ¬ Touches tw h e) (hp : e ≠ .process) : Linked (M.step tw e).1 h o s := by
  cases e with
  | start userId timerId n =>
    have hget : ∀ t : Timer, Linked { tw with timers := tw.timers.get t } h o s := fun t =>
      ⟨by rw [Pool.elts_get, update_of_ne (Ne.symm ht), L.elt], L.count⟩
    exact (hget _).timerAdd_other (Ne.symm ht)
  | update h' n => exact (L.remove_other (Ne.symm ht)).timerAdd_other (Ne.symm ht)
  | stop h' => exact (L.remove_other (Ne.symm ht)).put_other (Ne.symm ht)
  | process => exact absurd rfl hp
  | advance =>
    obtain ⟨htimers, hslots, -⟩ := M.keeps tw
    exact ⟨by rw [Machine.step, htimers, L.elt], fun s' => by rw [Machine.step, hslots, L.count]⟩

theorem Neat.set (N : Neat tw h) (hok : Legal tw e) (hset : Sets tw h n e) :
    ∃ (t : Timer) (tw' : Wheel), Linked (M.step tw e).1 h (some { t with word := (M.addSlot tw' n t.word).2 })
      (some (M.addSlot tw' n t.word).1) ∧ SameClock tw tw' := by
  cases e with
  | start userId timerId m =>
    obtain ⟨rfl, rfl⟩ := hset
    have L := N.dead tw.timers.elts_next
    have hget : ∀ t : Timer, Linked { tw with timers := tw.timers.get t } tw.timers.next (some t) none :=
      fun t => ⟨update_self .., L.count⟩
    exact ⟨_, _, (hget _).timerAdd m, rfl, rfl, rfl, rfl⟩
  | update h' m =>
    obtain ⟨rfl, rfl⟩ := hset
    obtain ⟨t, s, L⟩ := N.alive hok
    exact ⟨t, _, L.remove_self.timerAdd m, rfl, rfl, rfl, rfl⟩
  | _ => exact hset.elim

theorem Machine.step_process (C : Clock M.rings M.geometry t tw) :
    ∃ x, M.step tw .process = ({ x.1 with inTick := true }, .expired x.2) ∧
      Processed M.rings M.geometry t 0 tw x := by
  obtain ⟨x, hx, P⟩ := M.processed t tw C
  exact ⟨x, by rw [Machine.step, hx], P⟩

theorem Neat.step (N : Neat tw h) (C : Clock M.rings M.geometry t tw) (hok : Legal tw e) :
    Neat (M.step tw e).1 h := by
  by_cases hp : e = .process
  · subst hp
    obtain ⟨x, hx, P⟩ := Machine.step_process C
    obtain ⟨o, s, L, hs⟩ := P.neat h N
    rw [hx]
    exact ⟨o, s, ⟨L.elt, L.count⟩, hs⟩
  by_cases ht : Touches tw h e
  · cases e with
    | stop h' =>
      obtain rfl : h' = h := ht
      obtain ⟨t, s, L⟩ := N.alive hok
      exact ⟨none, none, L.remove_self.put_self, fun _ => rfl⟩
    | process => exact absurd rfl hp
    | advance => exact ht.elim
    | _ =>
      obtain ⟨t, tw', L, -⟩ := N.set hok ⟨ht, rfl⟩
      exact ⟨_, _, L, fun hn => by cases hn⟩
  · obtain ⟨o, s, L, hs⟩ := N
    exact ⟨o, s, L.step_other ht hp, hs⟩

theorem Machine.timerAdd_same (tw : Wheel) (h n : Nat) :
    SameClock tw (M.timerAdd tw h n) ∧ (M.timerAdd tw h n).inTick = tw.inTick := by
  unfold Machine.timerAdd
  cases tw.timers.elts h with
  | none => exact ⟨.rfl' tw, rfl⟩
  | some t => exact ⟨⟨rfl, rfl, rfl, rfl⟩, rfl⟩

theorem Machine.step_same (tw : Wheel) (hp : e ≠ .process) (ha : e ≠ .advance) :
    SameClock tw (M.step tw e).1 ∧ (M.step tw e).1.inTick = tw.inTick := by
  cases e with
  | start userId timerId n =>
    have hadd := fun t => @Machine.timerAdd_same M { tw with timers := tw.timers.get t } tw.timers.next n
    exact ⟨{ (hadd _).1 with }, (hadd _).2⟩
  | update h n =>
    have hadd := @Machine.timerAdd_same M (tw.timerRemove h) h n
    exact ⟨{ hadd.1 with }, hadd.2⟩
  | stop h => exact ⟨⟨rfl, rfl, rfl, rfl⟩, rfl⟩
  | process => exact absurd rfl hp
  | advance => exact absurd rfl ha

theorem elapsed_of_ne (ha : e ≠ .advance) : elapsed [e] = 0 :=
  count_eq_zero.mpr fun hin => ha (mem_singleton.mp hin).symm

theorem Clock.step (C : Clock M.rings M.geometry t tw) (hok : M.ok tw e) :
    Clock M.rings M.geometry (t + elapsed [e]) (M.step tw e).1 := by
  by_cases ha : e = .advance
  · subst ha
    exact M.clock t tw C hok
  rw [elapsed_of_ne ha]
  by_cases hp : e = .process
  · subst hp
    obtain ⟨x, hx, P⟩ := Machine.step_process C
    rw [hx]
    exact { C.of_sameClock P.clock with }
  · exact C.of_sameClock (Machine.step_same tw hp ha).1

/-! ## Runs -/

theorem elapsed_cons {es : List Event} : elapsed (e :: es) = elapsed [e] + elapsed es := by
  unfold elapsed
  rw [← singleton_append, count_append]

/-- In every reachable state the clock is right, and handles are linked as they should be. -/
theorem Machine.reached {es : List Event} (hes : Along M.step M.ok .init es) :
    (∃ t, Clock M.rings M.geometry t (after M.step .init es)) ∧ ∀ h, Neat (after M.step .init es) h := by
  refine (Along.invariant (fun tw => (∃ t, Clock M.rings M.geometry t tw) ∧ ∀ h, Neat tw h) (fun _ => True)
    (fun tw e ⟨⟨t, C⟩, N⟩ hok => ⟨⟨⟨_, C.step hok⟩, fun h => (N h).step C (M.legal tw e hok)⟩, trivial⟩)
    ⟨⟨0, clock_init _ _⟩, fun _ => ⟨none, none, ⟨rfl, fun _ => rfl⟩, fun _ => rfl⟩⟩ hes).1

namespace Machine.Followed

variable {outs : List Output}

theorem expirations_snoc {o : Output} :
    expirations h (outs ++ [o]) = expirations h outs ++ o.expirations h := by
  simp [expirations]

theorem process (F : M.Followed h u d t tw outs) (hin : tw.inTick = false) :
    M.Followed h u d t (M.step tw .process).1 (outs ++ [(M.step tw .process).2]) := by
  obtain ⟨x, hx, P⟩ := Machine.step_process F.clock
  rw [hx]
  refine ⟨{ F.clock.of_sameClock P.clock with }, ?_⟩
  rw [expirations_snoc]
  rcases F.timer with ⟨F', hnil⟩ | ⟨L, hd, hu⟩
  · rw [hin] at F'
    rw [hnil]
    rcases P.follows h u d F' with ⟨F0, hes⟩ | ⟨hd, L, hes⟩
    · obtain ⟨timer, s, L, h1, h2, h3⟩ := F0
      exact .inl ⟨⟨timer, s, ⟨L.elt, L.count⟩, h1, h2, h3⟩, by rw [hes]; rfl⟩
    · exact .inr ⟨⟨L.elt, L.count⟩, .inr ⟨hd, rfl⟩, by rw [hes]; rfl⟩
  · obtain ⟨L', hes⟩ := P.gone h L
    refine .inr ⟨⟨L'.elt, L'.count⟩, hd.imp_right fun hd' => ⟨hd'.1, rfl⟩, ?_⟩
    rw [hes, hu]
    rfl

/-- **One step.** -/
theorem step (F : M.Followed h u d t tw outs) (hok : M.ok tw e) (ht : ¬ Touches tw h e) :
    M.Followed h u d (t + elapsed [e]) (M.step tw e).1 (outs ++ [(M.step tw e).2]) := by
  have hlegal := M.legal tw e hok
  by_cases hp : e = .process
  · subst hp
    exact F.process hlegal
  have hexp : expirations h (outs ++ [(M.step tw e).2]) = expirations h outs := by
    rw [expirations_snoc]
    cases e with
    | process => exact absurd rfl hp
    | _ => exact append_nil _
  refine ⟨F.clock.step hok, ?_⟩
  rw [hexp]
  by_cases ha : e = .advance
  · subst ha
    have hin : (M.step tw .advance).1.inTick = false := (M.keeps tw).2.2
    have hone : elapsed [Event.advance] = 1 := rfl
    rw [hin]
    rcases F.timer with ⟨⟨timer, s, L, h1, h2, h3⟩, hnil⟩ | ⟨L, hd, hu⟩
    · rw [if_pos (show tw.inTick = true from hlegal)] at h3
      exact .inl ⟨⟨timer, s, L.step_other ht hp, h1, h2, h3.turn h2⟩, hnil⟩
    · exact .inr ⟨L.step_other ht hp, .inl (by omega), hu⟩
  · rw [(Machine.step_same tw hp ha).2, elapsed_of_ne ha]
    rcases F.timer with ⟨⟨timer, s, L, h1, h2, h3⟩, hnil⟩ | ⟨L, hd, hu⟩
    · exact .inl ⟨⟨timer, s, L.step_other ht hp, h1, h2, h3⟩, hnil⟩
    · exact .inr ⟨L.step_other ht hp, hd, hu⟩

/-- **Runs.** -/
theorem run (F : M.Followed h u d t tw outs) {es : List Event}
    (hes : Along M.step (fun tw e => M.ok tw e ∧ ¬ Touches tw h e) tw es) :
    M.Followed h u d (t + elapsed es) (after M.step tw es) (outs ++ outputs M.step tw es) := by
  induction es generalizing tw t outs with
  | nil => simpa [elapsed, after, outputs] using F
  | cons e es ih =>
    obtain ⟨⟨hok, ht⟩, hrest⟩ := hes
    have := ih (F.step hok ht) hrest
    rwa [append_assoc, Nat.add_assoc, ← elapsed_cons] at this

theorem expirations_eq (F : M.Followed h u d t tw outs) :
    expirations h outs = if d < t ∨ d = t ∧ tw.inTick = true then [u] else [] := by
  rcases F.timer with ⟨⟨timer, s, L, h1, h2, h3⟩, hnil⟩ | ⟨L, hd, hu⟩
  · have hle := h3.le
    rw [hnil, if_neg]
    rintro (hlt | ⟨heq, hin⟩)
    · omega
    · rw [if_pos hin] at h3
      have := h3.lt
      omega
  · rw [hu, if_pos hd]

end Machine.Followed

/-- A timer that has been set is followed from then on. -/
theorem Neat.followed (N : Neat tw h) (C : Clock M.rings M.geometry t tw) (hok : M.ok tw e)
    (hset : Sets tw h n e) :
    ∃ (word : Nat) (tw' : Wheel) (timer : Timer), Clock M.rings M.geometry t tw' ∧
      (M.step tw e).1.timers.elts h = some timer ∧
      ∀ d, ring (M.addSlot tw' n word).1 < M.rings →
        Within M.geometry.slotsPerRing t (if tw.inTick then 0 else M.rings) (M.addSlot tw' n word).1
          (M.addSlot tw' n word).2 d →
        M.Followed h timer.userHandle d t (M.step tw e).1 [] := by
  obtain ⟨timer, tw', L, hs⟩ := N.set (M := M) (M.legal tw e hok) hset
  have hne : e ≠ .process ∧ e ≠ .advance := by
    constructor <;> (rintro rfl; exact hset.elim)
  have C' := C.step hok
  rw [elapsed_of_ne hne.2] at C'
  refine ⟨timer.word, tw', _, C.of_sameClock hs, L.elt, fun d hr hw => ⟨C', .inl ⟨⟨_, _, L, rfl, hr, ?_⟩, rfl⟩⟩⟩
  rwa [(Machine.step_same tw hne.1 hne.2).2]

end Vpp.Tw
