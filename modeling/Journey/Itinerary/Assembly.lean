import Journey.Cost.Units
import Journey.Itinerary.Basic
import Journey.Search.Arena
import Journey.Search.Direction

/-!
# Itineraries from chains

A complete chain becomes an itinerary. In a forward chain each node is where a
leg ends; in a reverse chain each node is where a leg starts, and its time is
the start of the leg. The cost of a leg is what its node adds to the
accumulated cost.

A ride is found on its trip by stop and time at both ends: the first position
it departs from, then the first one behind it that it arrives at. So a
pattern that visits a stop more than once is resolved in the same way in
either direction.
-/

namespace Journey

/-- Each node of a chain with the node behind it, if there is one. -/
def withPrevious : List Node → List (Node × Option Node)
  | [] => []
  | n :: rest => (n, rest.head?) :: withPrevious rest

namespace Assembly

/-- What a node adds to the accumulated cost, in whole seconds. -/
def legCost (node : Node) (previous : Option Node) : Checked Int := do
  let before := (previous.map Node.cost).getD 0
  Cost.toWhole (← Checked.sub node.cost before)

def previousStop (previous : Option Node) : Except ItineraryError Nat :=
  match previous.bind Node.stop? with
  | some stop => .ok stop
  | none => .error (.invalid .noPredecessorStop)

/-- A walk must not end before it starts in search direction. -/
def checkWalk (d : Direction) (fromTime toTime : Int) : Outcome ItineraryError Unit := do
  let duration ← d.duration fromTime toTime
  if duration < 0 then Outcome.refuse (.invalid .walkEndsBeforeStart)

/-- Where and when a ride is boarded and left in travel order, and on what trip. -/
structure RideEnds where
  fromStop : Nat
  fromTime : Int
  toStop : Nat
  toTime : Int
  trip : Shared TimedTrip
  deriving DecidableEq, Repr

def RideEnds.ofArrival (d : Direction) (a : Arrival) (boardStop : Nat) (boardTime : Int)
    (trip : Shared TimedTrip) : RideEnds :=
  match d with
  | .forward =>
    { fromStop := boardStop, fromTime := boardTime, toStop := a.stop, toTime := a.time, trip }
  | .reverse =>
    { fromStop := a.stop, fromTime := a.time, toStop := boardStop, toTime := boardTime, trip }

/-- The positions of a ride on the pattern of its trip. -/
def RideEnds.positions (r : RideEnds) : Outcome ItineraryError (Nat × Nat) := do
  let trip := r.trip.value
  let notFound stop time := ItineraryError.tripTimeNotFound trip.pattern.label stop time
  match ← trip.findDeparture r.fromTime r.fromStop with
  | none => Outcome.refuse (notFound r.fromStop r.fromTime)
  | some board =>
    match ← trip.findArrivalAfter board r.toTime r.toStop with
    | none => Outcome.refuse (notFound r.toStop r.toTime)
    | some alight => return (board, alight)

def transitLeg (d : Direction) (a : Arrival) (boardStop : Nat) (boardTime : Int)
    (trip : Shared TimedTrip) (cost : Int) : Outcome ItineraryError Leg := do
  if d.isBefore a.time boardTime then
    Outcome.refuse (.invalid .rideArrivesBeforeBoarding)
  else
    let ends := RideEnds.ofArrival d a boardStop boardTime trip
    let (board, alight) ← ends.positions
    return .transit {
      fromStop := ends.fromStop, toStop := ends.toStop, fromTime := ends.fromTime
      toTime := ends.toTime, cost, trip, boardPosition := board, alightPosition := alight }

/-- The leg that ends at a node of a forward chain. -/
def forwardLeg (node : Node) (previous : Option Node) : Outcome ItineraryError Leg := do
  let cost ← legCost node previous
  match node with
  | .egress e =>
    checkWalk .forward e.fromTime e.time
    let fromStop ← Outcome.ofExcept (previousStop previous)
    return .egress { fromStop, fromTime := e.fromTime, toTime := e.time, cost }
  | .arrival a =>
    match a.how with
    | .access fromTime =>
      checkWalk .forward fromTime a.time
      return .access { fromTime, toTime := a.time, toStop := a.stop, cost }
    | .transfer fromTime =>
      checkWalk .forward fromTime a.time
      let fromStop ← Outcome.ofExcept (previousStop previous)
      return .transfer { fromStop, toStop := a.stop, fromTime, toTime := a.time, cost }
    | .transit boardStop boardTime trip => transitLeg .forward a boardStop boardTime trip cost

/-- The leg that starts at a node of a reverse chain. -/
def reverseLeg (node : Node) (previous : Option Node) : Outcome ItineraryError Leg := do
  let cost ← legCost node previous
  match node with
  | .egress e =>
    checkWalk .reverse e.fromTime e.time
    let toStop ← Outcome.ofExcept (previousStop previous)
    return .access { fromTime := e.time, toTime := e.fromTime, toStop, cost }
  | .arrival a =>
    match a.how with
    | .access fromTime =>
      checkWalk .reverse fromTime a.time
      return .egress { fromStop := a.stop, fromTime := a.time, toTime := fromTime, cost }
    | .transfer fromTime =>
      checkWalk .reverse fromTime a.time
      let toStop ← Outcome.ofExcept (previousStop previous)
      return .transfer { fromStop := a.stop, toStop, fromTime := a.time, toTime := fromTime, cost }
    | .transit boardStop boardTime trip => transitLeg .reverse a boardStop boardTime trip cost

/-- The legs of a chain that stands latest node first, in travel order. -/
def legs (d : Direction) (nodes : List Node) : Outcome ItineraryError (List Leg) :=
  match d with
  -- the latest node of a forward chain is the end of the journey, that of a reverse chain its start
  | .forward => (withPrevious nodes).reverse.mapM fun (node, previous) => forwardLeg node previous
  | .reverse => (withPrevious nodes).mapM fun (node, previous) => reverseLeg node previous

/-- The accumulated cost of a chain that stands latest node first. -/
def chainCost (nodes : List Node) : Int := (nodes.head?.map Node.cost).getD 0

/-- The itinerary of a complete chain that stands latest node first. -/
def itinerary (d : Direction) (nodes : List Node) : Outcome ItineraryError Itinerary := do
  let total ← Cost.toWhole (chainCost nodes)
  let legs ← legs d nodes
  Outcome.ofExcept (Itinerary.ofLegs legs total)

end Assembly

/-- The itinerary of the chain of an egress, found by a search in a direction. -/
def Arena.assemble (arena : Arena) (d : Direction) (egress : Nat) :
    Outcome ItineraryError Itinerary := do
  let nodes ← arena.chain egress
  Assembly.itinerary d nodes

end Journey
