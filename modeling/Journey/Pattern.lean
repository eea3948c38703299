import Journey.Clock.Text

/-!
# Stops, patterns and walks

Stops are numbered. A `Pattern` is the ordered list of stops that the trips of
a route variant visit; it may visit a stop more than once, so a place on it
is a position and not a stop. A `Walk` leads to or from a stop in a given time.
-/

namespace Journey

inductive Mode where
  | bus
  | tram
  | rail
  | subway
  | ferry
  | coach
  deriving DecidableEq, Repr

def Mode.label : Mode → String
  | bus => "BUS"
  | tram => "TRAM"
  | rail => "RAIL"
  | subway => "SUBWAY"
  | ferry => "FERRY"
  | coach => "COACH"

/-- The stops that the trips of one route variant visit, in order. -/
structure Pattern where
  mode : Mode
  route : String
  stops : List Nat
  deriving DecidableEq, Repr

namespace Pattern

def stopAt (p : Pattern) (position : Nat) : Checked Nat := Checked.get p.stops position

/-- Mode and route, as in `BUS L11`. -/
def label (p : Pattern) : String := s!"{p.mode.label} {p.route}"

end Pattern

/-- A walk of fixed duration that leads to or from a stop. -/
structure Walk where
  stop : Nat
  duration : Int
  deriving DecidableEq, Repr

/-- A walk as in `Walk 3m45s ~ 3`. -/
def Walk.text (w : Walk) : String := s!"Walk {Clock.duration w.duration} ~ {w.stop}"

end Journey
