import Journey.Checked

/-!
# Trips and their stop times

The static side of a timetable, as a feed delivers it: which trip runs, when
it stops, and on what terms passengers board and alight.
-/

namespace Journey

abbrev TripId := String

def TripId.tagged (id : TripId) : String := s!"TripId({id})"

/-- A trip, apart from its times. -/
structure Trip where
  id : TripId
  /-- Shown at every stop that has no headsign of its own. -/
  headsign : Option String := none
  deriving DecidableEq, Repr

/-- On what terms passengers board or alight at a stop. -/
inductive PickDrop where
  | scheduled
  | unavailable
  | callAgency
  | askDriver
  deriving DecidableEq, Repr

namespace PickDrop

def ofCode? : Int → Option PickDrop
  | 0 => some scheduled
  | 1 => some unavailable
  | 2 => some callAgency
  | 3 => some askDriver
  | _ => none

def code : PickDrop → Int
  | scheduled => 0
  | unavailable => 1
  | callAgency => 2
  | askDriver => 3

/-- Passengers are not barred. -/
def isRoutable (p : PickDrop) : Bool := p != unavailable

theorem ofCode?_code (p : PickDrop) : ofCode? p.code = some p := by cases p <;> rfl

end PickDrop

/-- What passengers must do before a stop on demand. -/
structure Booking where
  message : Option String := none
  phone : Option String := none
  url : Option String := none
  /-- Least notice before departure, in seconds. -/
  notice : Option Int := none
  deriving DecidableEq, Repr

structure StopTime where
  arrival : Int
  departure : Int
  /-- Grows along the trip, with gaps allowed. -/
  sequence : Nat
  timepoint : Bool := true
  pickup : PickDrop := .scheduled
  dropoff : PickDrop := .scheduled
  headsign : Option String := none
  booking : Option Booking := none
  deriving DecidableEq, Repr

end Journey
