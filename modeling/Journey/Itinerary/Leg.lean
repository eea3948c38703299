import Journey.Timetable.TimedTrip

/-!
# Legs of an itinerary

A journey is a walk to the first stop, rides with walks between them, and a
walk from the last stop. Times are service times, costs whole seconds. The
walk to the first stop starts at no stop, and the walk from the last one ends
at none.
-/

namespace Journey

inductive LegKind where
  | access
  | transit
  | transfer
  | egress
  deriving DecidableEq, Repr

def LegKind.name : LegKind → String
  | access => "access"
  | transit => "transit"
  | transfer => "transfer"
  | egress => "egress"

/-- Which rule for the legs of an itinerary is broken. -/
inductive LegFlaw where
  | firstNotAccess
  | lastNotEgress
  | endsInside
  | noTransit
  | alightNotAfterBoard
  | transferNotAfterTransit
  | transferNotBeforeTransit
  | walkEndsBeforeStart
  | rideArrivesBeforeBoarding
  | noPredecessorStop
  deriving DecidableEq, Repr

def LegFlaw.text : LegFlaw → String
  | firstNotAccess => "first leg must be access"
  | lastNotEgress => "last leg must be egress"
  | endsInside => "access and egress only at the ends"
  | noTransit => "no transit leg"
  | alightNotAfterBoard => "transit leg must alight after boarding"
  | transferNotAfterTransit => "transfer must follow a transit leg"
  | transferNotBeforeTransit => "transfer must be followed by a transit leg"
  | walkEndsBeforeStart => "walk ends before it starts"
  | rideArrivesBeforeBoarding => "ride arrives before it is boarded"
  | noPredecessorStop => "arrival has no predecessor stop"

/-- Why there is no itinerary, or no such view of a leg. -/
inductive ItineraryError where
  | legKind (expected found : LegKind)
  | noFromStop (kind : LegKind)
  | noToStop (kind : LegKind)
  | invalid (flaw : LegFlaw)
  | disconnected (index toStop fromStop : Nat)
  | overlap (index : Nat)
  | tripTimeNotFound (route : String) (stop : Nat) (time : Int)
  deriving DecidableEq, Repr

def ItineraryError.message : ItineraryError → String
  | legKind expected found => s!"expected {expected.name} leg, found {found.name} leg"
  | noFromStop kind => s!"{kind.name} leg has no from stop"
  | noToStop kind => s!"{kind.name} leg has no to stop"
  | invalid flaw => s!"invalid path: {flaw.text}"
  | disconnected index toStop fromStop =>
    s!"leg {index} ends at stop {toStop} but leg {index + 1} starts at stop {fromStop}"
  | overlap index => s!"leg {index + 1} starts before leg {index} ends"
  | tripTimeNotFound route stop time =>
    s!"{route} does not serve stop {stop} at {Clock.long time}"

/-- A walk from the origin to the first stop. -/
structure AccessLeg where
  fromTime : Int
  toTime : Int
  toStop : Nat
  cost : Int
  deriving DecidableEq, Repr

/-- A ride on a trip, with the positions of its pattern that it leads between. -/
structure TransitLeg where
  fromStop : Nat
  toStop : Nat
  fromTime : Int
  toTime : Int
  cost : Int
  trip : Shared TimedTrip
  boardPosition : Nat
  alightPosition : Nat
  deriving DecidableEq, Repr

structure TransferLeg where
  fromStop : Nat
  toStop : Nat
  fromTime : Int
  toTime : Int
  cost : Int
  deriving DecidableEq, Repr

/-- A walk from the last stop to the destination. -/
structure EgressLeg where
  fromStop : Nat
  fromTime : Int
  toTime : Int
  cost : Int
  deriving DecidableEq, Repr

namespace TransitLeg

def routeLabel (l : TransitLeg) : String := l.trip.value.pattern.label

/-- Stops passed without alighting. -/
def intermediateStops (l : TransitLeg) : Checked Nat := do
  let next ← Checked.next indexLimit l.boardPosition
  return l.alightPosition - next

/-- The same positions of the same instance of a trip, at the same times and cost. -/
def same (a b : TransitLeg) : Bool :=
  a.trip.same b.trip && a.fromStop == b.fromStop && a.toStop == b.toStop &&
    a.fromTime == b.fromTime && a.toTime == b.toTime && a.cost == b.cost &&
    a.boardPosition == b.boardPosition && a.alightPosition == b.alightPosition

end TransitLeg

inductive Leg where
  | access (leg : AccessLeg)
  | transit (leg : TransitLeg)
  | transfer (leg : TransferLeg)
  | egress (leg : EgressLeg)
  deriving DecidableEq, Repr

namespace Leg

def kind : Leg → LegKind
  | access _ => .access
  | transit _ => .transit
  | transfer _ => .transfer
  | egress _ => .egress

def fromTime : Leg → Int
  | access l => l.fromTime
  | transit l => l.fromTime
  | transfer l => l.fromTime
  | egress l => l.fromTime

def toTime : Leg → Int
  | access l => l.toTime
  | transit l => l.toTime
  | transfer l => l.toTime
  | egress l => l.toTime

def duration (l : Leg) : Checked Int := Checked.sub l.toTime l.fromTime

def cost : Leg → Int
  | access l => l.cost
  | transit l => l.cost
  | transfer l => l.cost
  | egress l => l.cost

/-- The stop at which a leg starts, if it starts at one. -/
def fromStop? : Leg → Option Nat
  | access _ => none
  | transit l => some l.fromStop
  | transfer l => some l.fromStop
  | egress l => some l.fromStop

/-- The stop at which a leg ends, if it ends at one. -/
def toStop? : Leg → Option Nat
  | access l => some l.toStop
  | transit l => some l.toStop
  | transfer l => some l.toStop
  | egress _ => none

def fromStop (l : Leg) : Except ItineraryError Nat :=
  match l.fromStop? with
  | some stop => .ok stop
  | none => .error (.noFromStop l.kind)

def toStop (l : Leg) : Except ItineraryError Nat :=
  match l.toStop? with
  | some stop => .ok stop
  | none => .error (.noToStop l.kind)

def isAccess (l : Leg) : Bool := l.kind == .access

def isTransit (l : Leg) : Bool := l.kind == .transit

def isTransfer (l : Leg) : Bool := l.kind == .transfer

def isEgress (l : Leg) : Bool := l.kind == .egress

def asAccess : Leg → Except ItineraryError AccessLeg
  | access l => .ok l
  | other => .error (.legKind .access other.kind)

def asTransit : Leg → Except ItineraryError TransitLeg
  | transit l => .ok l
  | other => .error (.legKind .transit other.kind)

def asTransfer : Leg → Except ItineraryError TransferLeg
  | transfer l => .ok l
  | other => .error (.legKind .transfer other.kind)

def asEgress : Leg → Except ItineraryError EgressLeg
  | egress l => .ok l
  | other => .error (.legKind .egress other.kind)

def transit? : Leg → Option TransitLeg
  | transit l => some l
  | _ => none

/-- Equal legs. Rides must be on the same instance of a trip. -/
def same : Leg → Leg → Bool
  | access a, access b => a == b
  | transit a, transit b => a.same b
  | transfer a, transfer b => a == b
  | egress a, egress b => a == b
  | _, _ => false

/-- What moves the traveller: a walk, or mode and route. -/
def label : Leg → String
  | transit l => l.routeLabel
  | _ => "Walk"

/-- A leg as in `BUS L11 10:04-10:35(31m) ~ 2`. -/
def text (l : Leg) : Checked String := do
  let duration ← l.duration
  let times := s!"{Clock.compact l.fromTime}-{Clock.compact l.toTime}"
  let line := s!"{l.label} {times}({Clock.duration duration})"
  return match l.toStop? with
    | some stop => s!"{line} ~ {stop}"
    | none => line

end Leg

end Journey
