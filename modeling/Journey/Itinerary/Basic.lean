import Journey.Calendar
import Journey.Itinerary.Leg

/-!
# Itineraries

An `Itinerary` is a whole journey: its legs in travel order and its total
cost. `Itinerary.ofLegs` accepts legs that make one: a walk to the first stop,
at least one ride, a walk from the last stop, walks in between only from one
ride to the next, each leg starting at the stop where the one before it ends
and no earlier than that one ends.
-/

namespace Journey

structure Itinerary where
  legs : List Leg
  access : AccessLeg
  egress : EgressLeg
  /-- Total cost, in whole seconds. -/
  cost : Int
  deriving DecidableEq, Repr

namespace Itinerary

/-! ## Building -/

/-- The flaw of the legs between the first and the last, if there is one. -/
def middleFlaw? (middle : List Leg) : Option LegFlaw :=
  if middle.any fun l => l.isAccess || l.isEgress then some .endsInside
  else if !middle.any Leg.isTransit then some .noTransit
  else if (middle.filterMap Leg.transit?).any fun l => l.alightPosition ≤ l.boardPosition then
    some .alightNotAfterBoard
  else none

def checkPair (index : Nat) (leg next : Leg) : Except ItineraryError Unit := do
  if next.isTransfer && !leg.isTransit then throw (.invalid .transferNotAfterTransit)
  if leg.isTransfer && !next.isTransit then throw (.invalid .transferNotBeforeTransit)
  let toStop ← leg.toStop
  let fromStop ← next.fromStop
  if toStop ≠ fromStop then throw (.disconnected index toStop fromStop)
  if next.fromTime < leg.toTime then throw (.overlap index)

/-- Check each leg from an index on with the one that follows it. -/
def checkPairs : Nat → List Leg → Except ItineraryError Unit
  | index, leg :: next :: rest => do
    checkPair index leg next
    checkPairs (index + 1) (next :: rest)
  | _, _ => .ok ()

/-- The itinerary of legs in travel order, with its total cost. -/
def ofLegs (legs : List Leg) (cost : Int) : Except ItineraryError Itinerary :=
  match legs.head?, legs.getLast? with
  | some (.access access), some (.egress egress) =>
    match middleFlaw? legs.tail.dropLast with
    | some flaw => .error (.invalid flaw)
    | none => do
      checkPairs 0 legs
      return { legs, access, egress, cost }
  | some (.access _), _ => .error (.invalid .lastNotEgress)
  | _, _ => .error (.invalid .firstNotAccess)

/-! ## Reading -/

def startTime (i : Itinerary) : Int := i.access.fromTime

def endTime (i : Itinerary) : Int := i.egress.toTime

def duration (i : Itinerary) : Checked Int := Checked.sub i.endTime i.startTime

def transitLegs (i : Itinerary) : List TransitLeg := i.legs.filterMap Leg.transit?

/-- The first ride behind an index, with its own index. -/
def nextTransit (i : Itinerary) (index : Nat) : Checked (Option (Nat × TransitLeg)) := do
  let next ← Checked.next indexLimit index
  return (i.legs.zipIdx.drop next).findSome? fun (leg, position) =>
    leg.transit?.map fun l => (position, l)

/-- Changes from one ride to the next. -/
def transfers (i : Itinerary) : Nat := i.transitLegs.length - 1

def stops (i : Itinerary) : List Nat := i.legs.filterMap Leg.toStop?

def startMoment? (i : Itinerary) (serviceDate : Date) : Option DateTime :=
  DateTime.ofService? serviceDate i.startTime

def endMoment? (i : Itinerary) (serviceDate : Date) : Option DateTime :=
  DateTime.ofService? serviceDate i.endTime

def same (a b : Itinerary) : Bool :=
  a.cost == b.cost && a.legs.length == b.legs.length &&
    (a.legs.zip b.legs).all fun (l, m) => l.same m

/-! ## Writing -/

def legText (l : Leg) : Checked String :=
  match l with
  | .access a => do
    let duration ← l.duration
    return s!"Walk {Clock.duration duration} ~ {a.toStop} ~ "
  | .transit t =>
    return s!"{t.routeLabel} {Clock.compact t.fromTime} {Clock.compact t.toTime} ~ {t.toStop} ~ "
  | .transfer t => do
    let duration ← l.duration
    return s!"Walk {Clock.duration duration} ~ {t.toStop} ~ "
  | .egress _ => do
    let duration ← l.duration
    return s!"Walk {Clock.duration duration} "

def summary (i : Itinerary) : Checked String := do
  let duration ← i.duration
  let times := s!"{Clock.long i.startTime} {Clock.long i.endTime} {Clock.duration duration}"
  return s!"[{times}, cost: {i.cost}]"

/-- The itinerary on one line: its legs, then start, end, duration and cost. -/
def text (i : Itinerary) : Checked String := do
  let legs ← i.legs.mapM legText
  let summary ← i.summary
  return String.join legs ++ summary

end Itinerary

end Journey
