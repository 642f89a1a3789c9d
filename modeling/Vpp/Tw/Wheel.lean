import Vpp.Lib.Pool
import Vpp.Lib.Run

/-!
# The timer wheel

`tw_timer_template.c` with three wheels and an overflow vector, for any ring shift. A slot is the list
of the handles linked to its head; the list heads take no place in the pool here. One turn of the loop
in `tw_timer_expire_timers_internal` is two steps, `processTick` and `advanceTick`, since the expiry
callback runs between them and may start, update and stop timers. How many ticks have passed is an
argument. Integers are unbounded, with the width of the C variable taken where it is stored.
-/

namespace Vpp.Tw

open Vpp.Lib

/-- `TW_RING_SHIFT` and `LOG2_TW_TIMERS_PER_OBJECT`. -/
structure Geometry where
  ringShift : Nat
  log2TimersPerObject : Nat

def Geometry.slotsPerRing (g : Geometry) : Nat := 2 ^ g.ringShift

/-- `1 << (3 * TW_RING_SHIFT)`, an `int`, as it is compared with a `u64`. -/
def Geometry.tripleWrap (g : Geometry) : Nat :=
  ((1#32 <<< (3 * g.ringShift)).signExtend 64).toNat

structure Timer where
  userHandle : Nat
  /-- The union: `expiration_time`, or the ring offsets in its two low halfwords. -/
  word : Nat
deriving DecidableEq, Repr

def fastRingOffset (word : Nat) : Nat := word % 2 ^ 16

def slowRingOffset (word : Nat) : Nat := word / 2 ^ 16 % 2 ^ 16

def setFastRingOffset (word x : Nat) : Nat := word - fastRingOffset word + x % 2 ^ 16

def setSlowRingOffset (word x : Nat) : Nat :=
  word - slowRingOffset word * 2 ^ 16 + x % 2 ^ 16 * 2 ^ 16

/-- `w[ring][slot]`, or the overflow vector. -/
inductive Slot
  | fast (i : Nat)
  | slow (i : Nat)
  | glacier (i : Nat)
  | overflow
deriving DecidableEq, Repr

structure Wheel where
  timers : Pool Timer
  currentTick : Nat
  /-- `current_index`. -/
  fastIndex : Nat
  slowIndex : Nat
  glacierIndex : Nat
  slots : Slot → List Nat
  /-- The current tick has been processed and the callback runs. -/
  inTick : Bool

/-- `tw_timer_wheel_init`. -/
def Wheel.init : Wheel := ⟨.empty, 0, 0, 0, 0, fun _ => [], false⟩

/-- An entry of the expired timer vector, with the pool index it came from. -/
structure Expired where
  handle : Nat
  userHandle : Nat
deriving DecidableEq, Repr

namespace Wheel

variable (tw : Wheel)

/-- `timer_addhead` for a timer whose union is set to `word`. -/
def addhead (slot : Slot) (h : Nat) (t : Timer) : Wheel :=
  { tw with
    timers := tw.timers.set h t
    slots := Function.update tw.slots slot (h :: tw.slots slot) }

def timerRemove (h : Nat) : Wheel := { tw with slots := fun s => (tw.slots s).erase h }

end Wheel

/-! ## Adding a timer -/

/-- The ring offsets of an interval, before the wheels' positions are added. -/
def factor (g : Geometry) (interval : Nat) : Nat × Nat × Nat :=
  let glacier := interval >>> (2 * g.ringShift) % 2 ^ 16
  let interval := interval - glacier <<< (2 * g.ringShift)
  let slow := interval >>> g.ringShift % 2 ^ 16
  let interval := interval - slow <<< g.ringShift
  (interval % g.slotsPerRing % 2 ^ 16, slow, glacier)

/-- The ring offsets with the wheels' positions added, fast ring first. -/
def ringOffsets (g : Geometry) (tw : Wheel) (interval : Nat) : Nat × Nat × Nat :=
  let s := g.slotsPerRing
  let (fast, slow, glacier) := factor g interval
  let fast := (fast + tw.fastIndex % s) % 2 ^ 16
  let carry := if fast ≥ s then 1 else 0
  let slow := (slow + (tw.slowIndex % s + carry)) % 2 ^ 16
  let carry := if slow ≥ s then 1 else 0
  let glacier := (glacier + (tw.glacierIndex % s + carry)) % 2 ^ 16
  (fast % s, slow % s, glacier % s)

/-- `timer_add`: the slot for a timer, and the union. -/
def timerAddSlot (g : Geometry) (tw : Wheel) (interval word : Nat) : Slot × Nat :=
  let s := g.slotsPerRing
  if g.tripleWrap ≤ (interval + tw.currentTick % g.tripleWrap) % 2 ^ 64 then
    (.overflow, (tw.currentTick + interval) % 2 ^ 64)
  else
    let (fast, slow, glacier) := ringOffsets g tw interval
    if glacier ≠ tw.glacierIndex % s then
      (.glacier glacier, setFastRingOffset (setSlowRingOffset word slow) fast)
    else if slow ≠ tw.slowIndex % s then (.slow slow, setFastRingOffset word fast)
    else (.fast fast, word)

def timerAdd (g : Geometry) (tw : Wheel) (h interval : Nat) : Wheel :=
  match tw.timers.elts h with
  | none => tw
  | some t =>
    let (slot, word) := timerAddSlot g tw interval t.word
    tw.addhead slot h { t with word := word }

def makeInternalTimerHandle (g : Geometry) (poolIndex timerId : Nat) : Nat :=
  if 0 < g.log2TimersPerObject then
    timerId <<< (32 - g.log2TimersPerObject) % 2 ^ 32 ||| poolIndex
  else poolIndex

def twTimerStart (g : Geometry) (tw : Wheel) (userId timerId interval : Nat) : Wheel × Nat :=
  let h := tw.timers.next
  let t := ⟨makeInternalTimerHandle g userId timerId, 2 ^ 64 - 1⟩
  (timerAdd g { tw with timers := tw.timers.get t } h interval, h)

def twTimerStop (tw : Wheel) (h : Nat) : Wheel :=
  let tw := tw.timerRemove h
  { tw with timers := tw.timers.put h }

def twTimerUpdate (g : Geometry) (tw : Wheel) (h interval : Nat) : Wheel :=
  timerAdd g (tw.timerRemove h) h interval

/-! ## Processing a tick -/

/-- Empty a slot and deal its timers out: `place` says where a timer goes, or that it expires. -/
def deal (place : Nat → Option (Slot × Nat)) : List Nat → Wheel → Wheel × List Expired
  | [], tw => (tw, [])
  | h :: hs, tw =>
    match tw.timers.elts h with
    | none => deal place hs tw
    | some t =>
      match place t.word with
      | none =>
        let (tw, es) := deal place hs { tw with timers := tw.timers.put h }
        (tw, ⟨h, t.userHandle⟩ :: es)
      | some (slot, word) => deal place hs (tw.addhead slot h { t with word := word })

def processSlot (place : Nat → Option (Slot × Nat)) (slot : Slot) (tw : Wheel) :
    Wheel × List Expired :=
  deal place (tw.slots slot) { tw with slots := Function.update tw.slots slot [] }

/-- From the overflow vector; the wheels are at (0, 0, 0). -/
def placeOverflow (g : Geometry) (currentTick word : Nat) : Option (Slot × Nat) :=
  let interval := (word + 2 ^ 64 - currentTick) % 2 ^ 64
  if g.tripleWrap ≤ interval then some (.overflow, word)
  else
    let glacier := interval >>> (2 * g.ringShift) % 2 ^ 32
    let interval := interval - glacier <<< (2 * g.ringShift) % 2 ^ 32
    let slow := interval >>> g.ringShift % 2 ^ 32
    let interval := interval - slow <<< g.ringShift % 2 ^ 32
    let fast := interval % g.slotsPerRing
    let word := setFastRingOffset (setSlowRingOffset word slow) fast
    if slowRingOffset word = 0 ∧ fastRingOffset word = 0 ∧ glacier = 0 then none
    else if glacier ≠ 0 then some (.glacier glacier, word)
    else if slowRingOffset word ≠ 0 then some (.slow (slowRingOffset word), word)
    else some (.fast (fastRingOffset word), word)

def placeGlacier (word : Nat) : Option (Slot × Nat) :=
  if slowRingOffset word = 0 ∧ fastRingOffset word = 0 then none
  else if slowRingOffset word = 0 then some (.fast (fastRingOffset word), word)
  else some (.slow (slowRingOffset word), word)

def placeSlow (word : Nat) : Option (Slot × Nat) :=
  if fastRingOffset word = 0 then none else some (.fast (fastRingOffset word), word)

def placeFast (_word : Nat) : Option (Slot × Nat) := none

def processOverflow (g : Geometry) (tw : Wheel) : Wheel × List Expired :=
  if tw.fastIndex = g.slotsPerRing ∧ tw.slowIndex = g.slotsPerRing ∧
      tw.glacierIndex = g.slotsPerRing then
    processSlot (placeOverflow g tw.currentTick) .overflow tw
  else (tw, [])

def processGlacier (g : Geometry) (tw : Wheel) : Wheel × List Expired :=
  if tw.fastIndex = g.slotsPerRing ∧ tw.slowIndex = g.slotsPerRing then
    processSlot placeGlacier (.glacier (tw.glacierIndex % g.slotsPerRing)) tw
  else (tw, [])

def processSlow (g : Geometry) (tw : Wheel) : Wheel × List Expired :=
  if tw.fastIndex = g.slotsPerRing then
    processSlot placeSlow (.slow (tw.slowIndex % g.slotsPerRing)) tw
  else (tw, [])

def processFast (g : Geometry) (tw : Wheel) : Wheel × List Expired :=
  processSlot placeFast (.fast (tw.fastIndex % g.slotsPerRing)) tw

/-- The slots that are due at a tick, from the overflow vector down to the fast ring. The indices are
not written back before the end of the tick. -/
def processTick (g : Geometry) (tw : Wheel) : Wheel × List Expired :=
  let (tw, e₃) := processOverflow g tw
  let (tw, e₂) := processGlacier g tw
  let (tw, e₁) := processSlow g tw
  let (tw, e₀) := processFast g tw
  ({ tw with inTick := true }, e₃ ++ e₂ ++ e₁ ++ e₀)

def advanceTick (g : Geometry) (tw : Wheel) : Wheel :=
  let s := g.slotsPerRing
  let glacier := if tw.fastIndex = s ∧ tw.slowIndex = s then tw.glacierIndex % s else tw.glacierIndex
  let slow := if tw.fastIndex = s then tw.slowIndex % s else tw.slowIndex
  let fast := tw.fastIndex % s + 1
  let slow := if fast = s then slow + 1 else slow
  let glacier := if slow = s then glacier + 1 else glacier
  { tw with
    currentTick := (tw.currentTick + 1) % 2 ^ 64
    fastIndex := fast
    slowIndex := slow
    glacierIndex := glacier
    inTick := false }

/-! ## The wheel as a machine -/

inductive Event
  | start (userId timerId interval : Nat)
  | update (h interval : Nat)
  | stop (h : Nat)
  | process
  | advance
deriving DecidableEq, Repr

inductive Output
  | none
  | started (h : Nat)
  | expired (es : List Expired)
deriving DecidableEq, Repr

def step (g : Geometry) (tw : Wheel) : Event → Wheel × Output
  | .start userId timerId interval =>
    let (tw, h) := twTimerStart g tw userId timerId interval
    (tw, .started h)
  | .update h interval => (twTimerUpdate g tw h interval, .none)
  | .stop h => (twTimerStop tw h, .none)
  | .process =>
    let (tw, es) := processTick g tw
    (tw, .expired es)
  | .advance => (advanceTick g tw, .none)

end Vpp.Tw
