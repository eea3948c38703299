import Journey.Checked

/-!
# Service time

A time is a number of whole seconds since the start of a service day. Hours
run past 24 for trips that continue after midnight, so a time is no wall-clock
time. One value, `unavailable`, marks a stop that cannot be used.

`Parts` is a time cut into hours, minutes and seconds with a sign apart; both
written forms of a time and the written form of a duration are made from it.
-/

namespace Journey.Clock

/-- Marks a stop that cannot be used, cancelled or passed. -/
def unavailable : Int := -1

def isAvailable (time : Int) : Bool := time != unavailable

def hms (hour minute second : Int) : Checked Int := do
  let hours ← Checked.mul hour 3600
  let minutes ← Checked.mul minute 60
  let sum ← Checked.add hours minutes
  Checked.add sum second

/-- Hours, minutes and seconds of a magnitude, and whether it stands for a
negative number of seconds. -/
structure Parts where
  negative : Bool
  hours : Int
  minutes : Int
  seconds : Int
  deriving DecidableEq, Repr

/-- The magnitude of a time as a 32-bit integer. The least one has no positive
counterpart in range and stays as it is. -/
def magnitude (time : Int) : Int :=
  if time = minInt then minInt else time.natAbs

/-- Cut a time into its parts. Each part of the least time is negative, since
its magnitude is. -/
def Parts.ofSeconds (time : Int) : Parts where
  negative := time < 0
  hours := (magnitude time).tdiv 3600
  minutes := ((magnitude time).tdiv 60).tmod 60
  seconds := (magnitude time).tmod 60

end Journey.Clock
