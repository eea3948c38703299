import Journey.Search.Extender

/-!
# Plans

A `Plan` says what a traveller tries: when to leave, the walk to the first
stop, walks and rides in order, and the walk from the last stop. `Plan.run`
extends one chain by them, leg by leg, and completes it. The first ride that
is refused ends the run.
-/

namespace Journey

/-- A leg between the walk to the first stop and the walk from the last one. -/
inductive Plan.Step where
  | walk (walk : Walk)
  | ride (trip : Shared TimedTrip) (boardPosition alightPosition : Nat)
  deriving DecidableEq, Repr

/-- What a traveller tries. -/
structure Plan where
  departure : Int
  /-- The walk to the first stop. -/
  access : Walk
  steps : List Plan.Step
  /-- Seconds to walk from the last stop. -/
  egress : Int
  deriving DecidableEq, Repr

namespace Plan

/-- Append a leg to the chain of an arrival. -/
def Step.run (x : Extender) (arena : Arena) (previous : Nat) :
    Step → Outcome RideRefusal (Arena × Nat)
  | walk w => x.transfer arena previous w
  | ride trip boardPosition alightPosition => do
    let (arena, ridden) ← x.ride arena previous trip boardPosition alightPosition
    let id ← Outcome.ofExcept ridden
    return (arena, id)

/-- Append legs in order. The number of the last arrival is given. -/
def runSteps (x : Extender) : List Step → Arena → Nat → Outcome RideRefusal (Arena × Nat)
  | [], arena, last => .ok (arena, last)
  | step :: steps, arena, last => do
    let (arena, next) ← step.run x arena last
    runSteps x steps arena next

/-- Build the chain of a plan. The number of its egress is given. -/
def run (x : Extender) (arena : Arena) (p : Plan) : Outcome RideRefusal (Arena × Nat) := do
  let (arena, first) ← x.access arena p.departure p.access
  let (arena, last) ← runSteps x p.steps arena first
  x.egress arena last p.egress

end Plan

end Journey
