import Journey.Timetable.Store

/-!
# Writer sessions

A `Request` is one call to a `Builder`. In a `Session` a writer opens a builder
on the current version of the timetable, makes its requests, and publishes or
drops the builder. `Snapshot.runAll` takes the timetable through sessions, one
after the other: there is never more than one writer.

A refused request does not end a session.
-/

namespace Journey

/-- A call to a builder. The function of an update can be any function. -/
inductive Request where
  | add (pattern : Shared Pattern) (times : TripTimes)
  | update (id : TripId) (change : TripTimes → Checked Attempt)
  | cancel (id : TripId)

namespace Request

/-- The trip that the request is about. -/
def trip : Request → TripId
  | add _ times => times.trip.id
  | update id _ => id
  | cancel id => id

def run (r : Request) (b : Builder) : Checked UpdateAttempt :=
  match r with
  | add pattern times => b.add pattern times
  | update id change => b.update id change
  | cancel id => b.cancel id

end Request

/-- A request with the refusal that it met, if any. -/
structure Call where
  request : Request
  refusal : Option UpdateRefusal

def Call.accepted (c : Call) : Bool := c.refusal.isNone

namespace Builder

/-- Make requests in order. -/
def runAll : List Request → Builder → Checked (Builder × List Call)
  | [], b => .ok (b, [])
  | r :: rs, b => do
    let attempt ← r.run b
    let (b, calls) ← runAll rs attempt.builder
    return (b, { request := r, refusal := attempt.refusal } :: calls)

end Builder

/-- What a writer does with one builder. -/
structure Session where
  requests : List Request
  /-- The builder is published, not dropped. -/
  publishes : Bool

namespace Snapshot

/-- Take a timetable through sessions. The calls of those that publish are listed. -/
def runAll : List Session → Snapshot → Checked (Snapshot × List (List Call))
  | [], s => .ok (s, [])
  | session :: sessions, s => do
    let (b, calls) ← Builder.runAll session.requests s.edit
    if session.publishes then
      let (s, published) ← runAll sessions b.publish
      return (s, calls :: published)
    else runAll sessions s

end Snapshot

end Journey
