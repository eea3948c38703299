import Journey.Pattern
import Journey.Timetable.TripTimes

/-!
# Trips on their patterns

A `TimedTrip` is a pattern with one version of the times of a trip along it.
Since a pattern can visit a stop more than once, a stop alone does not say
which visit is meant: `findDeparture` and `findArrival` look for it by stop
and time.
-/

namespace Journey

structure TimedTrip where
  pattern : Pattern
  times : TripTimes
  deriving DecidableEq, Repr

/-- The first of the positions that passes a test. Later ones are not looked at. -/
def firstPosition (test : Nat → Checked Bool) : List Nat → Checked (Option Nat)
  | [] => .ok none
  | position :: rest => do
    if ← test position then return some position else firstPosition test rest

namespace TimedTrip

/-- Pair a pattern with times. Both must have the same number of stops. -/
def pair (pattern : Pattern) (times : TripTimes) : Except TripRefusal TimedTrip :=
  if pattern.stops.length = times.stopCount then .ok { pattern, times }
  else .error (.patternMismatch times.trip.id pattern.stops.length times.stopCount)

def arrival (t : TimedTrip) (position : Nat) : Checked Int := t.times.arrival position

def departure (t : TimedTrip) (position : Nat) : Checked Int := t.times.departure position

/-- The trip is at the stop, and the given time of that visit is this one. The
time is read only where the stop is right. -/
def visits (t : TimedTrip) (timeAt : Nat → Checked Int) (stop : Nat) (time : Int)
    (position : Nat) : Checked Bool := do
  if (← t.pattern.stopAt position) = stop then return (← timeAt position) = time
  else return false

/-- The first position from which the trip departs at a time from a stop. -/
def findDeparture (t : TimedTrip) (time : Int) (stop : Nat) : Checked (Option Nat) :=
  firstPosition (t.visits t.departure stop time) (List.range t.pattern.stops.length)

/-- The last position at which the trip arrives at a time at a stop. -/
def findArrival (t : TimedTrip) (time : Int) (stop : Nat) : Checked (Option Nat) :=
  firstPosition (t.visits t.arrival stop time) (List.range t.pattern.stops.length).reverse

/-- The first position behind another at which the trip arrives at a time at a stop. -/
def findArrivalAfter (t : TimedTrip) (position : Nat) (time : Int) (stop : Nat) :
    Checked (Option Nat) :=
  firstPosition (t.visits t.arrival stop time)
    (List.range' (position + 1) (t.pattern.stops.length - (position + 1)))

end TimedTrip

end Journey
