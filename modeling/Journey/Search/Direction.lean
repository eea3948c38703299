import Journey.Checked

/-!
# Search directions

A forward search moves later in time from the origin, a reverse search moves
earlier from the destination.
-/

namespace Journey

/-- Which way a search runs through time. -/
inductive Direction where
  | forward
  | reverse
  deriving DecidableEq, Repr

namespace Direction

def isForward (d : Direction) : Bool := d == forward

/-- `a` is reached strictly before `b` when searching. -/
def isBefore (d : Direction) (a b : Int) : Bool :=
  match d with
  | forward => a < b
  | reverse => b < a

/-- Seconds from one time to another, counted in search direction. -/
def duration (d : Direction) (start stop : Int) : Checked Int :=
  match d with
  | forward => Checked.sub stop start
  | reverse => Checked.sub start stop

end Direction

end Journey
