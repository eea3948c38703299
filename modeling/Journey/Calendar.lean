import Journey.Clock.Basic

/-!
# Calendar days of service times

Dates follow the Gregorian calendar, carried back before its start. A date is
a day number and the other way round: `Date.dayNumber` counts the days from
1 January of the year 0, `Date.ofDayNumber` finds the date of such a count.

`DateTime.ofService?` puts a service time on a service date. Time zero is the
midnight at which the date begins; a time past 24:00 lands on a later day and
a negative one on an earlier day.
-/

namespace Journey

/-- A day of the calendar. Months and days count from one. -/
structure Date where
  year : Int
  month : Nat
  day : Nat
  deriving DecidableEq, Repr

namespace Date

/-- Every fourth year is a leap year, save the centuries that 400 does not divide. -/
def isLeap (year : Int) : Bool := year % 4 = 0 ∧ (year % 100 ≠ 0 ∨ year % 400 = 0)

def monthLengths (leap : Bool) : List Nat :=
  [31, if leap then 29 else 28, 31, 30, 31, 30, 31, 31, 30, 31, 30, 31]

/-- The day number of 1 January of a year: 365 days for each year from the
year 0, and one more for each leap year among them. -/
def yearStart (year : Int) : Int :=
  365 * year + (year + 3) / 4 - (year + 99) / 100 + (year + 399) / 400

/-- Days from 1 January of the year 0. -/
def dayNumber (d : Date) : Int :=
  let earlier : List Nat := (monthLengths (isLeap d.year)).take (d.month - 1)
  yearStart d.year + (earlier.foldr (· + ·) 0 : Nat) + (d.day - 1 : Nat)

def Valid (d : Date) : Prop :=
  1 ≤ d.month ∧ 1 ≤ d.day ∧
    ∃ length, (monthLengths (isLeap d.year))[d.month - 1]? = some length ∧ d.day ≤ length

/-- The year of a day number. The quotient by the mean length of a year is off
by at most one. -/
def yearOf (n : Int) : Int :=
  let guess := n * 400 / 146097
  if n < yearStart guess then guess - 1
  else if n < yearStart (guess + 1) then guess
  else guess + 1

/-- Month and day of a count of days from the start of the months listed. -/
def monthAndDay : List Nat → Nat → Nat × Nat
  | [], days => (1, days + 1)
  | length :: rest, days =>
    if days < length then (1, days + 1)
    else
      let (month, day) := monthAndDay rest (days - length)
      (month + 1, day)

def ofDayNumber (n : Int) : Date :=
  let year := yearOf n
  let (month, day) := monthAndDay (monthLengths (isLeap year)) (n - yearStart year).toNat
  { year, month, day }

/-- The first and the last year that dates are kept for. -/
def firstYear : Int := -262143

@[inherit_doc firstYear]
def lastYear : Int := 262142

/-- The date lies in the years that dates are kept for. -/
def Kept (d : Date) : Prop := firstYear ≤ d.year ∧ d.year ≤ lastYear

instance (d : Date) : Decidable d.Kept := inferInstanceAs (Decidable (_ ∧ _))

end Date

/-- A day of the calendar and a time of that day. -/
structure DateTime where
  date : Date
  hour : Nat
  minute : Nat
  second : Nat
  deriving DecidableEq, Repr

namespace DateTime

def secondsPerDay : Int := 86400

/-- The moment that lies a number of seconds after the midnight at which a day
begins. -/
def ofSeconds (day : Int) (seconds : Int) : DateTime :=
  let rest := (seconds % secondsPerDay).toNat
  { date := Date.ofDayNumber (day + seconds / secondsPerDay)
    hour := rest / 3600
    minute := rest / 60 % 60
    second := rest % 60 }

/-- A service time on a service date. There is none for an unavailable time,
nor where the day falls out of the years kept. -/
def ofService? (serviceDate : Date) (time : Int) : Option DateTime :=
  if Clock.isAvailable time then
    let moment := ofSeconds serviceDate.dayNumber time
    if moment.date.Kept then some moment else none
  else none

/-- Seconds from the midnight at which 1 January of the year 0 begins. -/
def instant (m : DateTime) : Int :=
  m.date.dayNumber * secondsPerDay + (m.hour * 3600 + m.minute * 60 + m.second : Nat)

/-- Decimal digits, filled up with zeros in front to at least `width`. -/
def padded (width n : Nat) : String :=
  let digits := toString n
  String.ofList (List.replicate (width - digits.length) '0') ++ digits

/-- A year from 0 to 9999 has four digits; any other has a sign and at least
four. -/
def yearText (year : Int) : String :=
  if 0 ≤ year ∧ year ≤ 9999 then padded 4 year.toNat
  else (if year < 0 then "-" else "+") ++ padded 4 year.natAbs

def text (m : DateTime) : String :=
  yearText m.date.year ++ "-" ++ padded 2 m.date.month ++ "-" ++ padded 2 m.date.day ++ " " ++
    padded 2 m.hour ++ ":" ++ padded 2 m.minute ++ ":" ++ padded 2 m.second

end DateTime

end Journey
