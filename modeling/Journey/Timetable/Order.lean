import Journey.Timetable.TripTimes

/-!
# Order of times along a trip

Times must not go backwards: a trip departs no earlier than it arrives, and
arrives no earlier than it departed from the stop before.
`TripTimes.firstViolation` finds the first stop at which they do. Equal times
are in order, so a canceled trip is.
-/

namespace Journey.TripTimes

/-- The first violation at the stops listed, after a departure from the stop
before them, if there is one. At one stop the dwell is looked at first. -/
def violationFrom (t : TripTimes) : Option Int → List Nat → Checked (Option TimeViolation)
  | _, [] => .ok none
  | previous, stop :: stops => do
    let arrival ← t.arrival stop
    let departure ← t.departure stop
    if departure < arrival then return some { stop, kind := .negativeDwell }
    else if previous.any fun p => arrival < p then return some { stop, kind := .negativeRunning }
    else violationFrom t (some departure) stops

/-- The first stop at which times go backwards. -/
def firstViolation (t : TripTimes) : Checked (Option TimeViolation) :=
  t.violationFrom none (List.range t.stopCount)

def isIncreasing (t : TripTimes) : Checked Bool := Option.isNone <$> t.firstViolation

def orderRefusal? (t : TripTimes) : Checked (Option TripRefusal) := do
  let violation ← t.firstViolation
  return violation.map (.notIncreasing t.trip.id)

end Journey.TripTimes
