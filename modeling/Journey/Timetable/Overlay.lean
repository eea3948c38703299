import Journey.Clock.Basic
import Journey.Timetable.StopTime

/-!
# Realtime data of a trip

The first realtime data that a trip receives copies its schedule into an
`Overlay`, which from then on answers for every value of a stop that can
change. An overlay has a column for each `StopField`, and a column has an entry
for each stop. Times are absolute: the shift of the trip is in them.
-/

namespace Journey

/-- A value of a stop that realtime data can change. -/
inductive StopField where
  | arrival
  | departure
  /-- The stop has been recorded as served. -/
  | recorded
  | cancelled
  /-- The times predicted for the stop are not to be relied on. -/
  | inaccurate
  | pickup
  | dropoff
  deriving DecidableEq, Repr

namespace StopField

abbrev Value : StopField → Type
  | arrival | departure => Int
  | recorded | cancelled | inaccurate => Bool
  | pickup | dropoff => PickDrop

end StopField

/-- What realtime data says about the stops of a trip. -/
structure Overlay where
  arrivals : List Int
  departures : List Int
  recorded : List Bool
  cancelled : List Bool
  inaccurate : List Bool
  pickups : List PickDrop
  dropoffs : List PickDrop
  deriving DecidableEq, Repr

namespace Overlay

/-- Copy a schedule, with its times moved by the shift of the trip. -/
def ofSchedule (arrivals departures : List Int) (timeShift : Int)
    (pickups dropoffs : List PickDrop) : Checked Overlay := do
  let absoluteArrivals ← arrivals.mapM (Checked.add · timeShift)
  let absoluteDepartures ← departures.mapM (Checked.add · timeShift)
  let unset := List.replicate arrivals.length false
  return {
    arrivals := absoluteArrivals, departures := absoluteDepartures
    recorded := unset, cancelled := unset, inaccurate := unset, pickups, dropoffs }

def column (o : Overlay) : (f : StopField) → List f.Value
  | .arrival => o.arrivals
  | .departure => o.departures
  | .recorded => o.recorded
  | .cancelled => o.cancelled
  | .inaccurate => o.inaccurate
  | .pickup => o.pickups
  | .dropoff => o.dropoffs

def withColumn (o : Overlay) : (f : StopField) → List f.Value → Overlay
  | .arrival, arrivals => { o with arrivals }
  | .departure, departures => { o with departures }
  | .recorded, recorded => { o with recorded }
  | .cancelled, cancelled => { o with cancelled }
  | .inaccurate, inaccurate => { o with inaccurate }
  | .pickup, pickups => { o with pickups }
  | .dropoff, dropoffs => { o with dropoffs }

def write (o : Overlay) (f : StopField) (stop : Nat) (value : f.Value) : Checked Overlay := do
  return o.withColumn f (← Checked.set (o.column f) stop value)

/-- The overlay of a trip that does not run: every stop is unavailable and
closed to passengers. What was recorded stays on record, and so does which
predictions were inaccurate. -/
def close (o : Overlay) : Overlay :=
  { o with
    arrivals := o.arrivals.map fun _ => Clock.unavailable
    departures := o.departures.map fun _ => Clock.unavailable
    cancelled := o.cancelled.map fun _ => true
    pickups := o.pickups.map fun _ => .unavailable
    dropoffs := o.dropoffs.map fun _ => .unavailable }

@[simp]
theorem column_withColumn_self (o : Overlay) (f : StopField) (xs : List f.Value) :
    (o.withColumn f xs).column f = xs := by
  cases f <;> rfl

theorem column_withColumn_of_ne (o : Overlay) {f g : StopField} (h : g ≠ f)
    (xs : List f.Value) : (o.withColumn f xs).column g = o.column g := by
  cases f <;> cases g <;> first | rfl | exact absurd rfl h

end Overlay

end Journey
