import Journey.Timetable.Interner
import Journey.Timetable.Overlay
import Journey.Timetable.Refusal

/-!
# Times of a trip

The baseline of a trip is built once from its stop times: arrivals and
departures relative to the first arrival, which becomes the time shift, and
further columns, all of them shared between trips. Realtime data lies on top,
in an `Overlay`. Where there is one, every read of a value that can change goes
there.

A trip is in one of three states, `Realtime`: as scheduled, updated, or
canceled for good. Stops are addressed by position.
-/

namespace Journey

/-- How a trip stands to its schedule. -/
inductive Realtime where
  | scheduled
  /-- At least one value of a stop has been set. -/
  | updated
  | canceled
  deriving DecidableEq, Repr

def Realtime.label : Realtime → String
  | scheduled => "SCHEDULED"
  | updated => "UPDATED"
  | canceled => "CANCELED"

structure TripTimes where
  trip : Trip
  serviceCode : Option Nat
  /-- Seconds to add to every baseline time. -/
  timeShift : Int
  baseArrivals : Shared (List Int)
  baseDepartures : Shared (List Int)
  sequences : Shared (List Nat)
  timepoints : Shared (List Bool)
  pickups : Shared (List PickDrop)
  dropoffs : Shared (List PickDrop)
  /-- Nothing, when every stop shows the headsign of the trip. -/
  headsigns : Option (Shared (List (Option String)))
  bookings : Shared (List (Option Booking))
  /-- Realtime data, as soon as there is any. -/
  overlay : Option Overlay := none
  realtime : Realtime
  deriving DecidableEq, Repr

namespace TripTimes

/-! ## Building -/

/-- Every stop shows the headsign of the trip. -/
def plainHeadsigns (trip : Trip) (stops : List StopTime) : Bool :=
  stops.all fun s => s.headsign.isNone || s.headsign == trip.headsign

/-- The column of headsigns, where one is needed. -/
def shareHeadsigns (trip : Trip) (stops : List StopTime) :
    StateM Interner (Option (Shared (List (Option String)))) :=
  if plainHeadsigns trip stops then return none
  else return some (← Interner.share .headsigns (stops.map (·.headsign)))

/-- The baseline with these relative times. Columns are asked for in a fixed order. -/
def baseline (trip : Trip) (stops : List StopTime) (timeShift : Int)
    (arrivals departures : List Int) : StateM Interner TripTimes := do
  let headsigns ← shareHeadsigns trip stops
  let baseArrivals ← Interner.share .times arrivals
  let baseDepartures ← Interner.share .times departures
  let sequences ← Interner.share .sequences (stops.map (·.sequence))
  let timepoints ← Interner.share .flags (stops.map (·.timepoint))
  let pickups ← Interner.share .pickDrops (stops.map (·.pickup))
  let dropoffs ← Interner.share .pickDrops (stops.map (·.dropoff))
  let bookings ← Interner.share .bookings (stops.map (·.booking))
  return {
    trip, serviceCode := none, timeShift, baseArrivals, baseDepartures, sequences, timepoints,
    pickups, dropoffs, headsigns, bookings, realtime := .scheduled }

/-- Build the times of a trip. Its stop times come in order, at least one of them. -/
def build (trip : Trip) (stops : List StopTime) (interner : Interner) :
    Outcome TripRefusal (TripTimes × Interner) :=
  match stops with
  | [] => Outcome.refuse (.empty trip.id)
  | first :: _ => do
    -- all arrivals come before all departures, and both before the first request for a column
    let arrivals ← stops.mapM fun s => Checked.sub s.arrival first.arrival
    let departures ← stops.mapM fun s => Checked.sub s.departure first.arrival
    return (baseline trip stops first.arrival arrivals departures).run interner

/-! ## Reading -/

def stopCount (t : TripTimes) : Nat := t.baseArrivals.value.length

def isScheduled (t : TripTimes) : Bool := t.overlay.isNone

def isCanceled (t : TripTimes) : Bool := t.realtime == .canceled

def scheduledArrival (t : TripTimes) (stop : Nat) : Checked Int := do
  Checked.add (← Checked.get t.baseArrivals.value stop) t.timeShift

def scheduledDeparture (t : TripTimes) (stop : Nat) : Checked Int := do
  Checked.add (← Checked.get t.baseDepartures.value stop) t.timeShift

/-- A value of a stop before any realtime data. -/
def scheduledValue (t : TripTimes) : (f : StopField) → Nat → Checked f.Value
  | .arrival, stop => t.scheduledArrival stop
  | .departure, stop => t.scheduledDeparture stop
  | .recorded, _ | .cancelled, _ | .inaccurate, _ => .ok false
  | .pickup, stop => Checked.get t.pickups.value stop
  | .dropoff, stop => Checked.get t.dropoffs.value stop

/-- A value of a stop, from realtime data where there is any. -/
def value (t : TripTimes) (f : StopField) (stop : Nat) : Checked f.Value :=
  match t.overlay with
  | some overlay => Checked.get (overlay.column f) stop
  | none => t.scheduledValue f stop

def arrival (t : TripTimes) (stop : Nat) : Checked Int := t.value .arrival stop

def departure (t : TripTimes) (stop : Nat) : Checked Int := t.value .departure stop

/-- Seconds by which the arrival is later than scheduled. -/
def arrivalDelay (t : TripTimes) (stop : Nat) : Checked Int := do
  let actual ← t.arrival stop
  let scheduled ← t.scheduledArrival stop
  Checked.sub actual scheduled

/-- Seconds by which the departure is later than scheduled. -/
def departureDelay (t : TripTimes) (stop : Nat) : Checked Int := do
  let actual ← t.departure stop
  let scheduled ← t.scheduledDeparture stop
  Checked.sub actual scheduled

/-- Seconds that the vehicle waits at a stop. -/
def dwell (t : TripTimes) (stop : Nat) : Checked Int := do
  let departure ← t.departure stop
  let arrival ← t.arrival stop
  Checked.sub departure arrival

/-- Seconds from a stop to the next one. -/
def running (t : TripTimes) (stop : Nat) : Checked Int := do
  let next ← Checked.next indexLimit stop
  let arrival ← t.arrival next
  let departure ← t.departure stop
  Checked.sub arrival departure

def isRecorded (t : TripTimes) (stop : Nat) : Checked Bool := t.value .recorded stop

def isCancelledStop (t : TripTimes) (stop : Nat) : Checked Bool := t.value .cancelled stop

def isInaccurate (t : TripTimes) (stop : Nat) : Checked Bool := t.value .inaccurate stop

def pickup (t : TripTimes) (stop : Nat) : Checked PickDrop := t.value .pickup stop

def dropoff (t : TripTimes) (stop : Nat) : Checked PickDrop := t.value .dropoff stop

def sequence (t : TripTimes) (stop : Nat) : Checked Nat := Checked.get t.sequences.value stop

def positionOfSequence? (t : TripTimes) (sequence : Nat) : Option Nat :=
  t.sequences.value.idxOf? sequence

/-- The times at the stop are kept exactly, not interpolated. -/
def isTimepoint (t : TripTimes) (stop : Nat) : Checked Bool :=
  Checked.get t.timepoints.value stop

/-- The headsign at a stop: its own, else that of the trip. -/
def headsign (t : TripTimes) (stop : Nat) : Checked (Option String) :=
  match t.headsigns with
  | some own => (·.or t.trip.headsign) <$> Checked.get own.value stop
  | none => .ok t.trip.headsign

def booking (t : TripTimes) (stop : Nat) : Checked (Option Booking) :=
  Checked.get t.bookings.value stop

/-- Order two trips by their departure from the first stop. -/
def compareFirstDeparture (a b : TripTimes) : Checked Ordering := do
  let first ← a.departure 0
  let second ← b.departure 0
  return compare first second

end TripTimes

end Journey
