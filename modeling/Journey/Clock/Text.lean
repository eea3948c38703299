import Journey.Clock.Basic

/-!
# Written times and durations

* `Clock.compact` writes `HH:MM`, and `HH:MM:SS` when there are seconds.
* `Clock.long` always writes `HH:MM:SS`.
* `Clock.duration` writes `2h`, `3m15s`, `45s`, `1h0m5s`: zero units at either
  end are dropped, one between two others is kept.

A negative value has a minus sign in front. A component has at least two
characters, its own sign included.
-/

namespace Journey.Clock

/-- A component of a time: at least two characters, filled up with a zero. -/
def twoPlaces (n : Int) : String :=
  if 0 ≤ n ∧ n < 10 then s!"0{n}" else toString n

def Parts.sign (p : Parts) : String := if p.negative then "-" else ""

/-- A time as `HH:MM`, or as `HH:MM:SS` when the seconds are not zero. -/
def compact (time : Int) : String :=
  let p := Parts.ofSeconds time
  if p.seconds = 0 then
    p.sign ++ twoPlaces p.hours ++ ":" ++ twoPlaces p.minutes
  else
    p.sign ++ twoPlaces p.hours ++ ":" ++ twoPlaces p.minutes ++ ":" ++ twoPlaces p.seconds

/-- A time as `HH:MM:SS`. -/
def long (time : Int) : String :=
  let p := Parts.ofSeconds time
  p.sign ++ twoPlaces p.hours ++ ":" ++ twoPlaces p.minutes ++ ":" ++ twoPlaces p.seconds

def Parts.units (p : Parts) : String :=
  if p.hours ≠ 0 then
    if p.seconds ≠ 0 then s!"{p.hours}h{p.minutes}m{p.seconds}s"
    else if p.minutes ≠ 0 then s!"{p.hours}h{p.minutes}m"
    else s!"{p.hours}h"
  else if p.minutes ≠ 0 then
    if p.seconds ≠ 0 then s!"{p.minutes}m{p.seconds}s" else s!"{p.minutes}m"
  else s!"{p.seconds}s"

def duration (seconds : Int) : String :=
  let p := Parts.ofSeconds seconds
  p.sign ++ p.units

end Journey.Clock
