import Journey.Itinerary.Assembly
import Journey.Search.ChainRules
import Journey.Search.Plan
import Journey.Timetable.Store

/-!
# The sample journey

A small timetable of three bus lines and one journey on it, from the origin A
over the stops B to D to the destination E. It takes settings through the
whole router: the timetable is published and read back, the journey is built
leg by leg, checked as a chain, and assembled into an itinerary.
-/

namespace Journey.Sample

/-- Why there is no sample journey. -/
inductive Refusal where
  | trip (cause : TripRefusal)
  | update (cause : UpdateRefusal)
  | ride (cause : RideRefusal)
  | chain (cause : ChainFlaw)
  | itinerary (cause : ItineraryError)
  deriving DecidableEq, Repr

def Refusal.message : Refusal → String
  | trip cause => cause.message
  | update cause => cause.message
  | ride cause => cause.message
  | chain cause => cause.message
  | itinerary cause => cause.message

/-- Report the reason of a refusal in a wider type. -/
def widen {ε α : Type} (wrap : ε → Refusal) : Outcome ε α → Outcome Refusal α
  | .ok a => .ok a
  | .error (.fault f) => .error (.fault f)
  | .error (.refused e) => .error (.refused (wrap e))

def clock (hour minute : Int) : Int := hour * 3600 + minute * 60

/-- What visiting each stop costs, in seconds. Two of them are charged. -/
def stopCosts : List Int := [0, 0, 30, 0, 60, 0]

/-- A line of the sample: its route, and stop, arrival and departure of each visit. -/
structure Line where
  route : String
  visits : List (Nat × Int × Int)

def lines : List Line :=
  [{ route := "L11", visits := [(1, clock 10 4, clock 10 4), (2, clock 10 35, clock 10 35)] },
   { route := "L21", visits := [(3, clock 11 0, clock 11 0), (4, clock 11 23, clock 11 23)] },
   { route := "L31", visits := [(4, clock 0 0, clock 11 40), (5, clock 11 52, clock 23 59)] }]

def Line.pattern (l : Line) : Pattern :=
  { mode := .bus, route := l.route, stops := l.visits.map (·.1) }

/-- The stop times of a line, numbered from one. -/
def Line.stopTimes (l : Line) : List StopTime :=
  l.visits.zipIdx.map fun ((_, arrival, departure), i) => { arrival, departure, sequence := i + 1 }

/-- Add lines to a timetable. The trip of a line is named for its route. -/
def addLines : List (Line × Nat) → Interner → Builder → Outcome Refusal Builder
  | [], _, b => .ok b
  | (l, tag) :: rest, interner, b => do
    let (times, interner) ← widen .trip (TripTimes.build { id := l.route } l.stopTimes interner)
    let attempt ← b.add { tag, value := l.pattern } times
    match attempt.refusal with
    | some cause => Outcome.refuse (.update cause)
    | none => addLines rest interner attempt.builder

def timetable : Outcome Refusal Snapshot := do
  let b ← addLines lines.zipIdx {} (Snapshot.edit {})
  return b.publish

def findTrip (s : Snapshot) (tag : Nat) (route : String) : Outcome Refusal (Shared TimedTrip) :=
  match s.find? route with
  | some entry => .ok { tag, value := entry.trip }
  | none => Outcome.refuse (.update (.unknownTrip route))

/-- The walks and rides of the sample journey. Each ride leads from the first
stop of a line to its second. -/
def plan (s : Snapshot) : Outcome Refusal Plan := do
  let first ← findTrip s 0 "L11"
  let second ← findTrip s 1 "L21"
  let third ← findTrip s 2 "L31"
  return {
    departure := clock 10 0
    access := { stop := 1, duration := 195 }
    steps := [.ride first 0 1, .walk { stop := 3, duration := 225 }, .ride second 0 1,
      .ride third 0 1]
    egress := 465 }

def extender (settings : Settings) : Checked Extender := do
  let costs ← Cost.ofWholes stopCosts
  return { cost := (CostRates.ofSettings settings.cost (some costs)).model
           slack := Slack.ofSettings settings.slack }

def journey (settings : Settings) : Outcome Refusal Itinerary := do
  let s ← timetable
  let plan ← plan s
  let x ← extender settings
  let (arena, egress) ← widen .ride (plan.run x {})
  widen .chain (arena.validate egress)
  widen .itinerary (arena.assemble .forward egress)

end Journey.Sample
