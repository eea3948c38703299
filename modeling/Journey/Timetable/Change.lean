import Journey.Timetable.TripTimes

/-!
# Changes of a trip

A `Change` is one thing that can happen to the times of a trip: a value of a
stop is set, the trip moves as a whole, it gets a service code, or it is
canceled. `Change.run` gives an `Attempt`: the trip afterwards, and why the
change was refused, if it was.

The first change of a stop copies the schedule into an overlay. A canceled trip
takes no further change of a stop, and a trip with realtime data cannot move.
-/

namespace Journey

/-- What came of a change: the trip afterwards, and the refusal, if any. -/
structure Attempt where
  trip : TripTimes
  refusal : Option TripRefusal := none
  deriving DecidableEq, Repr

namespace TripTimes

/-! ## Values of a stop -/

/-- The trip with an overlay, copied from the schedule where there is none yet. -/
def materialize (t : TripTimes) : Checked (TripTimes × Overlay) :=
  match t.overlay with
  | some overlay => .ok (t, overlay)
  | none => do
    let overlay ← Overlay.ofSchedule t.baseArrivals.value t.baseDepartures.value t.timeShift
      t.pickups.value t.dropoffs.value
    return ({ t with overlay := some overlay, realtime := .updated }, overlay)

/-- Why a stop cannot be written. That the trip is canceled comes first. -/
def writeRefusal? (t : TripTimes) (stop : Nat) : Option TripRefusal :=
  if t.isCanceled then some (.canceled t.trip.id)
  else if t.stopCount ≤ stop then some (.stopOutOfRange stop t.stopCount)
  else none

def writeStop (t : TripTimes) (f : StopField) (stop : Nat) (value : f.Value) : Checked Attempt :=
  match t.writeRefusal? stop with
  | some refusal => .ok { trip := t, refusal := some refusal }
  | none => do
    let (t, overlay) ← t.materialize
    let overlay ← overlay.write f stop value
    return { trip := { t with overlay := some overlay } }

/-- Write a time to a stop, given as a delay against the schedule. -/
def writeDelay (t : TripTimes) (stop : Nat) (scheduled : Checked Int) (delay : Int)
    (write : Int → Checked Attempt) : Checked Attempt :=
  match t.writeRefusal? stop with
  | some refusal => .ok { trip := t, refusal := some refusal }
  | none => do
    let time ← Checked.add (← scheduled) delay
    write time

/-! ## The trip as a whole -/

/-- Cancel the trip: every stop is closed. A canceled trip stays as it is. -/
def cancel (t : TripTimes) : Checked TripTimes :=
  if t.isCanceled then .ok t
  else do
    let (t, overlay) ← t.materialize
    return { t with overlay := some overlay.close, realtime := .canceled }

/-- Why the trip cannot move. That it has realtime data comes first. -/
def shiftRefusal? (t : TripTimes) (stop : Nat) : Option TripRefusal :=
  if t.isScheduled then
    if t.stopCount ≤ stop then some (.stopOutOfRange stop t.stopCount) else none
  else some (.hasRealtimeData t.trip.id)

/-- The trip moved so that its arrival at a stop, or its departure from there,
is at a time. -/
def moveTo (t : TripTimes) (stop : Nat) (time : Int) (departure : Bool) : Checked TripTimes := do
  let current ← (if departure then t.departure stop else t.arrival stop)
  let distance ← Checked.sub time current
  let timeShift ← Checked.add t.timeShift distance
  return { t with timeShift }

/-- Move the trip, if it can be. Only a trip without realtime data can move. -/
def shiftTo (t : TripTimes) (stop : Nat) (time : Int) (departure : Bool) :
    Outcome TripRefusal TripTimes :=
  match t.shiftRefusal? stop with
  | some refusal => Outcome.refuse refusal
  | none => t.moveTo stop time departure

end TripTimes

inductive Change where
  | arrivalTime (stop : Nat) (time : Int)
  | departureTime (stop : Nat) (time : Int)
  | arrivalDelay (stop : Nat) (delay : Int)
  | departureDelay (stop : Nat) (delay : Int)
  | cancelledStop (stop : Nat) (value : Bool)
  | recorded (stop : Nat) (value : Bool)
  | inaccurate (stop : Nat) (value : Bool)
  | pickup (stop : Nat) (value : PickDrop)
  | dropoff (stop : Nat) (value : PickDrop)
  | shift (stop : Nat) (time : Int) (departure : Bool)
  | cancel
  | serviceCode (code : Nat)
  deriving DecidableEq, Repr

namespace Change

def run (c : Change) (t : TripTimes) : Checked Attempt :=
  match c with
  | arrivalTime stop time => t.writeStop .arrival stop time
  | departureTime stop time => t.writeStop .departure stop time
  | arrivalDelay stop delay =>
    t.writeDelay stop (t.scheduledArrival stop) delay (t.writeStop .arrival stop)
  | departureDelay stop delay =>
    t.writeDelay stop (t.scheduledDeparture stop) delay (t.writeStop .departure stop)
  | cancelledStop stop value => t.writeStop .cancelled stop value
  | recorded stop value => t.writeStop .recorded stop value
  | inaccurate stop value => t.writeStop .inaccurate stop value
  | pickup stop value => t.writeStop .pickup stop value
  | dropoff stop value => t.writeStop .dropoff stop value
  | shift stop time departure =>
    match t.shiftTo stop time departure with
    | .ok moved => .ok { trip := moved }
    | .error (.refused refusal) => .ok { trip := t, refusal := some refusal }
    | .error (.fault f) => .error f
  | cancel => do return { trip := ← t.cancel }
  | serviceCode code => .ok { trip := { t with serviceCode := some code } }

/-- Apply changes in order, up to the first that is refused. -/
def runAll : List Change → TripTimes → Checked Attempt
  | [], t => .ok { trip := t }
  | c :: cs, t => do
    let attempt ← c.run t
    match attempt.refusal with
    | none => runAll cs attempt.trip
    | some _ => return attempt

end Change

end Journey
