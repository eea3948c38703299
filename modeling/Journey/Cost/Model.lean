import Journey.Cost.Units
import Journey.Settings.Basic

/-!
# Cost models

A `CostModel` says what walks and rides cost and bounds the cost of a journey
from below. `CostRates` is the model made from the settings: walking and
waiting are weighted, each boarding is charged, each boarding but the first
pays for the transfer, and a table may charge for visiting a stop.
-/

namespace Journey

/-- What legs of a journey cost. -/
structure CostModel where
  walk : Int → Checked Int
  /-- Waiting for, boarding and riding a trip: whether the boarding is the
  first, the stop boarded at, the seconds waited and ridden, and the stop the
  trip is left at. -/
  ride : Bool → Nat → Int → Int → Nat → Checked Int
  /-- A bound from below for journeys of at least this many seconds and
  transfers. -/
  least : Int → Int → Checked Int

/-- Rates of the cost model that settings describe. -/
structure CostRates where
  boardCost : Float
  transferCost : Float
  transferReluctance : Float
  waitReluctance : Float
  /-- What visiting a stop costs, by stop. -/
  stopCosts : Option (List Int)

namespace CostRates

/-- The rates of settings, with a table of stop costs or without. -/
def ofSettings (s : CostSettings) (stopCosts : Option (List Int)) : CostRates where
  boardCost := Float.ofInt s.boardCost
  transferCost := Float.ofInt s.transferCost
  transferReluctance := s.transferReluctance
  waitReluctance := s.waitReluctance
  stopCosts := stopCosts

/-- What visiting a stop costs. A stop that the table does not reach is free. -/
def stopCost (r : CostRates) (stop : Nat) : Int :=
  match r.stopCosts with
  | some costs => costs[stop]?.getD 0
  | none => 0

def walkCost (r : CostRates) (duration : Int) : Int :=
  Cost.ofSeconds (Float.ofInt duration * r.transferReluctance)

/-- The seconds that a boarding, a wait and a ride are charged with. -/
def rideSeconds (r : CostRates) (first : Bool) (wait ride : Int) : Float :=
  let transfer := if first then 0 else r.transferCost
  r.boardCost + transfer + r.waitReluctance * Float.ofInt wait + Float.ofInt ride

/-- What a ride costs: both of its stops, the boarding, the wait and the time aboard. -/
def rideCost (r : CostRates) (first : Bool) (boardStop : Nat) (wait ride : Int)
    (alightStop : Nat) : Checked Int := do
  let stops ← Checked.add (r.stopCost boardStop) (r.stopCost alightStop)
  Checked.add stops (Cost.ofSeconds (r.rideSeconds first wait ride))

/-- The seconds that a journey of this duration is charged with at least. -/
def leastSeconds (r : CostRates) (duration transfers boardings : Int) : Float :=
  r.boardCost * Float.ofInt boardings + r.transferCost * Float.ofInt transfers +
    Float.ofInt duration

def leastCost (r : CostRates) (duration transfers : Int) : Checked Int := do
  let boardings ← Checked.add 1 transfers
  return Cost.ofSeconds (r.leastSeconds duration transfers boardings)

def model (r : CostRates) : CostModel where
  walk duration := .ok (r.walkCost duration)
  ride := r.rideCost
  least := r.leastCost

end CostRates

end Journey
