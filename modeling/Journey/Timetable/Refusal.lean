import Journey.Timetable.StopTime

/-!
# Refusals of the timetable

Why a trip cannot be built or changed, and why a timetable update is not
taken over. Reading never refuses.
-/

namespace Journey

/-- Which rule of timing is broken. -/
inductive ViolationKind where
  /-- The trip departs before it arrives. -/
  | negativeDwell
  /-- The trip arrives before it departs from the stop before. -/
  | negativeRunning
  deriving DecidableEq, Repr

/-- A stop, by position, at which times go backwards. -/
structure TimeViolation where
  stop : Nat
  kind : ViolationKind
  deriving DecidableEq, Repr

def TimeViolation.message (v : TimeViolation) : String :=
  match v.kind with
  | .negativeDwell => s!"negative dwell time at stop {v.stop}"
  | .negativeRunning => s!"negative running time arriving at stop {v.stop}"

/-- Why a trip is not built, changed or paired with a pattern. -/
inductive TripRefusal where
  | empty (trip : TripId)
  | stopOutOfRange (stop stops : Nat)
  | canceled (trip : TripId)
  | hasRealtimeData (trip : TripId)
  | notIncreasing (trip : TripId) (violation : TimeViolation)
  | patternMismatch (trip : TripId) (patternStops tripStops : Nat)
  deriving DecidableEq, Repr

def TripRefusal.message : TripRefusal → String
  | .empty trip => s!"trip {trip} has no stop times"
  | .stopOutOfRange stop stops => s!"stop {stop} out of range for trip with {stops} stops"
  | .canceled trip => s!"trip {trip} is canceled"
  | .hasRealtimeData trip => s!"trip {trip} has realtime data and cannot be time-shifted"
  | .notIncreasing trip violation => s!"trip {trip}: {violation.message}"
  | .patternMismatch trip patternStops tripStops =>
    s!"pattern has {patternStops} stops but trip {trip} has {tripStops}"

/-- Why an update leaves the timetable as it is. -/
inductive UpdateRefusal where
  | unknownTrip (trip : TripId)
  | duplicateTrip (trip : TripId)
  /-- The change itself was refused. -/
  | failed (trip : TripId) (cause : TripRefusal)
  /-- The times that came of it go backwards. -/
  | rejected (trip : TripId) (violation : TimeViolation)
  deriving DecidableEq, Repr

def UpdateRefusal.message : UpdateRefusal → String
  | .unknownTrip trip => s!"unknown trip {trip}"
  | .duplicateTrip trip => s!"trip {trip} already exists"
  | .failed trip cause => s!"update of trip {trip} failed: {cause.message}"
  | .rejected trip violation => s!"update of trip {trip} rejected: {violation.message}"

end Journey
