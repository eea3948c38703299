import Journey.Cost.Model
import Journey.Search.Arena
import Journey.Slack

/-!
# Extending chains forward

The extender applies slack and costs to walks and rides, so that a search only
decides which of them to try.

A traveller who arrives on a trip is free after the alight slack, on foot at
once. A walk starts as soon as the traveller is free. A trip can be boarded
after the board slack from then on and, right after another ride, after the
transfer slack from its arrival on. The alight slack of the boarded trip is
charged as waiting when the trip is boarded.
-/

namespace Journey

/-- Why a ride cannot be appended to a chain. -/
inductive RideRefusal where
  | missedBoarding (stop : Nat) (boardTime earliest : Int)
  | wrongBoardStop (expected found : Nat)
  | alightNotAfterBoard (boardPosition alightPosition : Nat)
  deriving DecidableEq, Repr

def RideRefusal.message : RideRefusal → String
  | .missedBoarding stop boardTime earliest =>
    s!"missed boarding at stop {stop}: trip departs {Clock.long boardTime} " ++
      s!"but earliest boarding is {Clock.long earliest}"
  | .wrongBoardStop expected found =>
    s!"trip boards at stop {found} but the traveller is at stop {expected}"
  | .alightNotAfterBoard boardPosition alightPosition =>
    s!"alight position {alightPosition} is not after board position {boardPosition}"

/-- A ride that can be appended, and what the cost model was told about it. -/
structure Ride where
  round : Nat
  alightStop : Nat
  alightTime : Int
  boardTime : Int
  /-- Seconds charged as waiting. -/
  wait : Int
  aboard : Int
  cost : Int
  deriving DecidableEq, Repr

structure Stroll where
  fromTime : Int
  toTime : Int
  cost : Int
  deriving DecidableEq, Repr

/-- Slack and costs that chains are extended with. -/
structure Extender where
  cost : CostModel
  slack : Slack

namespace Extender

/-! ## One leg -/

/-- When the traveller is free at the stop of an arrival. -/
def available (x : Extender) (a : Arrival) : Checked Int :=
  match a.trip? with
  | some trip => x.slack.freeAfter a.time trip.value.pattern
  | none => .ok a.time

def stroll (x : Extender) (fromTime duration : Int) : Checked Stroll := do
  let toTime ← Checked.add fromTime duration
  let cost ← x.cost.walk duration
  return { fromTime, toTime, cost }

/-- When a trip of a pattern can be boarded at the earliest by a traveller who
is free from `available` on. -/
def earliest (x : Extender) (a : Arrival) (available : Int) (p : Pattern) : Checked Int := do
  let boarding ← x.slack.earliestBoarding available p
  if a.isTransit then
    let change ← Checked.add a.time x.slack.transfer
    return max boarding change
  else return boarding

/-- The ride that starts at a stop and times known to fit the pattern. -/
def rideOf (x : Extender) (a : Arrival) (p : Pattern) (boardStop alightStop : Nat)
    (available boardTime alightTime : Int) : Checked Ride := do
  let waiting ← Checked.sub boardTime available
  -- charged in advance: the leg after this ride starts that much later
  let wait ← Checked.add waiting (x.slack.alight p)
  let aboard ← Checked.sub alightTime boardTime
  let cost ← x.cost.ride (a.kind == .access) boardStop wait aboard alightStop
  let round ← Checked.next roundLimit a.round
  return { round, alightStop, alightTime, boardTime, wait, aboard, cost }

/-- The ride on a trip between two positions of its pattern, from an arrival on. -/
def rideFrom (x : Extender) (a : Arrival) (trip : TimedTrip) (boardPosition alightPosition : Nat) :
    Outcome RideRefusal Ride := do
  let boardStop ← trip.pattern.stopAt boardPosition
  let alightStop ← trip.pattern.stopAt alightPosition
  if boardStop ≠ a.stop then Outcome.refuse (.wrongBoardStop a.stop boardStop)
  else
    let boardTime ← trip.departure boardPosition
    let alightTime ← trip.arrival alightPosition
    let available ← x.available a
    let earliest ← x.earliest a available trip.pattern
    if boardTime < earliest then
      Outcome.refuse (.missedBoarding boardStop boardTime earliest)
    else
      x.rideOf a trip.pattern boardStop alightStop available boardTime alightTime

/-! ## Legs of an arena -/

/-- Start a chain by walking to a stop at a departure time. -/
def access (x : Extender) (arena : Arena) (departure : Int) (walk : Walk) :
    Checked (Arena × Nat) := do
  let leg ← x.stroll departure walk.duration
  return arena.access walk.stop leg.fromTime leg.toTime leg.cost

/-- Walk from an arrival to another stop, as soon as the traveller is free. -/
def transfer (x : Extender) (arena : Arena) (previous : Nat) (walk : Walk) :
    Checked (Arena × Nat) := do
  let a ← arena.get previous
  let leg ← x.stroll (← x.available a) walk.duration
  arena.transfer a.round walk.stop leg.fromTime leg.toTime leg.cost previous

/-- Ride a trip from an arrival, between two positions of its pattern. A ride
that is refused leaves the arena as it is. -/
def ride (x : Extender) (arena : Arena) (previous : Nat) (trip : Shared TimedTrip)
    (boardPosition alightPosition : Nat) : Checked (Arena × Except RideRefusal Nat) := do
  if alightPosition ≤ boardPosition then
    return (arena, .error (.alightNotAfterBoard boardPosition alightPosition))
  let a ← arena.get previous
  match x.rideFrom a trip.value boardPosition alightPosition with
  | .error (.fault f) => throw f
  | .error (.refused refusal) => return (arena, .error refusal)
  | .ok leg =>
    let (arena, id) ←
      arena.ride leg.round leg.alightStop leg.alightTime leg.boardTime leg.cost trip previous
    return (arena, .ok id)

/-- Complete a chain by walking to the destination, as soon as the traveller is free. -/
def egress (x : Extender) (arena : Arena) (previous : Nat) (duration : Int) :
    Checked (Arena × Nat) := do
  let a ← arena.get previous
  let leg ← x.stroll (← x.available a) duration
  arena.egress leg.fromTime leg.toTime leg.cost previous

end Extender

end Journey
