import Journey.Timetable.Change
import Journey.Timetable.Order
import Journey.Timetable.TimedTrip

/-!
# Versions of the timetable

Readers hold a `Snapshot` and are never disturbed. A writer opens a `Builder`
on the current one, changes it trip by trip, and publishes it as the next
version, or drops it and leaves no trace.

A change is taken over as a whole or not at all: the operations of a builder
give the builder afterwards and the refusal, if there is one, and a refused
change leaves every trip as it was. Each accepted change makes a new instance
of the times of its trip, numbered by the accepted changes of all versions so
far; a trip keeps the instance of its pattern.
-/

namespace Journey

/-- A trip as it is held: which instance of its pattern, which of its times. -/
structure Entry where
  pattern : Shared Pattern
  times : Shared TripTimes
  deriving DecidableEq, Repr

def Entry.trip (e : Entry) : TimedTrip := { pattern := e.pattern.value, times := e.times.value }

/-- Trips by identifier, in the order in which they were added. -/
abbrev Entries := List (TripId × Entry)

/-- Put an entry in the place of the one with the same identifier, or at the end. -/
def Entries.put (id : TripId) (entry : Entry) : Entries → Entries
  | [] => [(id, entry)]
  | (key, old) :: rest =>
    if key = id then (id, entry) :: rest else (key, old) :: Entries.put id entry rest

/-- Looking up after putting finds the new entry, and all others as they were. -/
theorem Entries.lookup_put (id key : TripId) (entry : Entry) (entries : Entries) :
    (Entries.put id entry entries).lookup key =
      if key = id then some entry else entries.lookup key := by
  induction entries with
  | nil =>
    by_cases h : key = id
    · simp [Entries.put, h]
    · have hb : (key == id) = false := beq_eq_false_iff_ne.mpr h
      simp [Entries.put, List.lookup_cons, h, hb]
  | cons head rest ih =>
    obtain ⟨k, old⟩ := head
    by_cases hk : k = id
    · subst hk
      by_cases h : key = k
      · simp [Entries.put, h]
      · have hb : (key == k) = false := beq_eq_false_iff_ne.mpr h
        simp [Entries.put, List.lookup_cons, h, hb]
    · by_cases h : key = k
      · subst h
        simp [Entries.put, hk]
      · have hb : (key == k) = false := beq_eq_false_iff_ne.mpr h
        simp [Entries.put, hk, List.lookup_cons, hb, ih]

/-- A published version of the timetable. -/
structure Snapshot where
  version : Nat := 0
  entries : Entries := []
  /-- Changes accepted in all versions up to this one. -/
  accepted : Nat := 0
  deriving DecidableEq, Repr

namespace Snapshot

def find? (s : Snapshot) (id : TripId) : Option Entry := s.entries.lookup id

def size (s : Snapshot) : Nat := s.entries.length

def isEmpty (s : Snapshot) : Bool := s.entries.isEmpty

def sorted (s : Snapshot) : Entries := s.entries.mergeSort fun a b => a.1 ≤ b.1

end Snapshot

/-- A version in the making. -/
structure Builder where
  base : Snapshot
  entries : Entries
  /-- Changes accepted so far. -/
  applied : Nat := 0
  /-- Changes turned down so far, other than for the name of the trip. -/
  rejected : Nat := 0
  deriving DecidableEq, Repr

def Snapshot.edit (s : Snapshot) : Builder := { base := s, entries := s.entries }

/-- What came of a change of the timetable: the builder afterwards, and the
refusal, if any. -/
structure UpdateAttempt where
  builder : Builder
  refusal : Option UpdateRefusal := none
  deriving DecidableEq, Repr

namespace Builder

/-- The number of the next instance of times. -/
def nextTag (b : Builder) : Nat := b.base.accepted + b.applied

def accept (b : Builder) (id : TripId) (entry : Entry) : UpdateAttempt :=
  { builder := { b with entries := b.entries.put id entry, applied := b.applied + 1 } }

def reject (b : Builder) (refusal : UpdateRefusal) : UpdateAttempt :=
  { builder := { b with rejected := b.rejected + 1 }, refusal := some refusal }

/-- Turn a change down without counting it. -/
def dismiss (b : Builder) (refusal : UpdateRefusal) : UpdateAttempt :=
  { builder := b, refusal := some refusal }

/-- Add a trip that is not there yet. Its times must not go backwards. -/
def add (b : Builder) (pattern : Shared Pattern) (times : TripTimes) : Checked UpdateAttempt := do
  let id := times.trip.id
  if (b.entries.lookup id).isSome then return b.dismiss (.duplicateTrip id)
  match ← times.firstViolation with
  | some violation => return b.reject (.rejected id violation)
  | none =>
    match TimedTrip.pair pattern.value times with
    | .error cause => return b.dismiss (.failed id cause)
    | .ok _ => return b.accept id { pattern, times := { tag := b.nextTag, value := times } }

/-- Change the times of a trip. The function works on a copy, which is taken
over if it is not refused and its times do not go backwards. -/
def update (b : Builder) (id : TripId) (change : TripTimes → Checked Attempt) :
    Checked UpdateAttempt := do
  match b.entries.lookup id with
  | none => return b.dismiss (.unknownTrip id)
  | some entry =>
    let attempt ← change entry.times.value
    -- nothing is taken over before the times that came of it are known to be in order
    match attempt.refusal with
    | some cause => return b.reject (.failed id cause)
    | none =>
      match ← attempt.trip.firstViolation with
      | some violation => return b.reject (.rejected id violation)
      | none =>
        return b.accept id { entry with times := { tag := b.nextTag, value := attempt.trip } }

def cancel (b : Builder) (id : TripId) : Checked UpdateAttempt := b.update id Change.cancel.run

def publish (b : Builder) : Snapshot where
  version := b.base.version + 1
  entries := b.entries
  accepted := b.base.accepted + b.applied

end Builder

end Journey
