import Journey.Timetable.TimedTrip

/-!
# Arrivals of a search

Whenever a search reaches a stop it records an `Arrival`, which points back at
the arrival it was extended from; an `Egress` completes a chain at the far
end of the journey. An arrival is named by its number in order of creation,
and never changes.

The arena keeps the latest arrival first. The history of an arrival lies in
the part of the arena behind it, which is why walking it back is a plain
recursion on the arena, and why nothing recorded later can change it
(`Arena.Extends.history`).
-/

namespace Journey

inductive Reached where
  /-- On a walk from the start of the search. -/
  | access (fromTime : Int)
  /-- On a ride. In a reverse search the stop and time of boarding are those at
  which the trip is left. -/
  | transit (boardStop : Nat) (boardTime : Int) (trip : Shared TimedTrip)
  | transfer (fromTime : Int)
  deriving DecidableEq, Repr

inductive NodeKind where
  | access
  | transit
  | transfer
  | egress
  deriving DecidableEq, Repr

def NodeKind.label : NodeKind → String
  | access => "Access"
  | transit => "Transit"
  | transfer => "Transfer"
  | egress => "Egress"

/-- An arrival at a stop. Its time is the time the stop is reached in search
direction. -/
structure Arrival where
  /-- Boardings up to and including this arrival. -/
  round : Nat
  stop : Nat
  time : Int
  /-- Accumulated cost, in cost units. -/
  cost : Int
  /-- The arrival this one extends. -/
  previous : Option Nat
  how : Reached
  deriving DecidableEq, Repr

namespace Arrival

def kind (a : Arrival) : NodeKind :=
  match a.how with
  | .access _ => .access
  | .transit .. => .transit
  | .transfer _ => .transfer

def fromTime? (a : Arrival) : Option Int :=
  match a.how with
  | .access fromTime | .transfer fromTime => some fromTime
  | .transit .. => none

def boardTime? (a : Arrival) : Option Int :=
  match a.how with
  | .transit _ boardTime _ => some boardTime
  | _ => none

def boardStop? (a : Arrival) : Option Nat :=
  match a.how with
  | .transit boardStop _ _ => some boardStop
  | _ => none

def trip? (a : Arrival) : Option (Shared TimedTrip) :=
  match a.how with
  | .transit _ _ trip => some trip
  | _ => none

def isTransit (a : Arrival) : Bool := a.kind == .transit

end Arrival

/-- The end of a chain. It is not at a stop. -/
structure Egress where
  round : Nat
  fromTime : Int
  time : Int
  cost : Int
  previous : Nat
  deriving DecidableEq, Repr

inductive Node where
  | arrival (a : Arrival)
  | egress (e : Egress)
  deriving DecidableEq, Repr

namespace Node

def round : Node → Nat
  | arrival a => a.round
  | egress e => e.round

def time : Node → Int
  | arrival a => a.time
  | egress e => e.time

def cost : Node → Int
  | arrival a => a.cost
  | egress e => e.cost

def kind : Node → NodeKind
  | arrival a => a.kind
  | egress _ => .egress

def fromTime? : Node → Option Int
  | arrival a => a.fromTime?
  | egress e => some e.fromTime

def previous? : Node → Option Nat
  | arrival a => a.previous
  | egress e => some e.previous

def stop? : Node → Option Nat
  | arrival a => some a.stop
  | egress _ => none

def trip? : Node → Option (Shared TimedTrip)
  | arrival a => a.trip?
  | egress _ => none

end Node

/-- All that a search has recorded, the latest first. -/
structure Arena where
  arrivals : List Arrival := []
  egresses : List Egress := []
  deriving DecidableEq, Repr

namespace Arena

/-- Arrivals from a number back to the access, among arrivals that stand latest
first. -/
def historyIn : List Arrival → Nat → List Arrival
  | [], _ => []
  | a :: older, id =>
    -- the newest arrival has the greatest number
    if id = older.length then
      a :: match a.previous with
        | some previous => historyIn older previous
        | none => []
    else historyIn older id

def history (arena : Arena) (id : Nat) : List Arrival := historyIn arena.arrivals id

def get (arena : Arena) (id : Nat) : Checked Arrival := Checked.get arena.arrivals.reverse id

def getEgress (arena : Arena) (id : Nat) : Checked Egress := Checked.get arena.egresses.reverse id

/-- Everything recorded, egresses included. -/
def size (arena : Arena) : Nat := arena.arrivals.length + arena.egresses.length

def isEmpty (arena : Arena) : Bool := arena.size == 0

/-- The chain of an arrival, from it back to the access. -/
def ancestors (arena : Arena) (id : Nat) : List Node := (arena.history id).map .arrival

def chain (arena : Arena) (id : Nat) : Checked (List Node) := do
  let e ← arena.getEgress id
  return .egress e :: arena.ancestors e.previous

/-! ## Recording -/

def record (arena : Arena) (a : Arrival) : Arena × Nat :=
  ({ arena with arrivals := a :: arena.arrivals }, arena.arrivals.length)

def access (arena : Arena) (stop : Nat) (fromTime toTime cost : Int) : Arena × Nat :=
  arena.record { round := 0, stop, time := toTime, cost, previous := none, how := .access fromTime }

/-- Extend a chain by a ride that is boarded at the stop of its last arrival. -/
def ride (arena : Arena) (round alightStop : Nat) (alightTime boardTime legCost : Int)
    (trip : Shared TimedTrip) (previous : Nat) : Checked (Arena × Nat) := do
  let before ← arena.get previous
  let cost ← Checked.add before.cost legCost
  return arena.record {
    round, stop := alightStop, time := alightTime, cost, previous := some previous
    how := .transit before.stop boardTime trip }

/-- Extend a chain by a walk to another stop. -/
def transfer (arena : Arena) (round toStop : Nat) (fromTime toTime legCost : Int)
    (previous : Nat) : Checked (Arena × Nat) := do
  let before ← arena.get previous
  let cost ← Checked.add before.cost legCost
  return arena.record {
    round, stop := toStop, time := toTime, cost, previous := some previous
    how := .transfer fromTime }

/-- Complete a chain by a walk to the far end. It keeps the round of the last arrival. -/
def egress (arena : Arena) (fromTime toTime legCost : Int) (previous : Nat) :
    Checked (Arena × Nat) := do
  let before ← arena.get previous
  let cost ← Checked.add before.cost legCost
  let e : Egress := { round := before.round, fromTime, time := toTime, cost, previous }
  return ({ arena with egresses := e :: arena.egresses }, arena.egresses.length)

/-! ## Histories -/

/-- A history starts with the arrival it is the history of. -/
theorem head?_historyIn (arrivals : List Arrival) (id : Nat) :
    (historyIn arrivals id).head? = arrivals.reverse[id]? := by
  induction arrivals with
  | nil => simp [historyIn]
  | cons a older ih =>
    rw [historyIn, List.reverse_cons]
    by_cases h : id = older.length
    · simp [h]
    · rw [if_neg h, ih]
      by_cases hlt : id < older.length
      · rw [List.getElem?_append_left (by simpa using hlt)]
      · have hout : older.length + 1 ≤ id := by omega
        rw [List.getElem?_eq_none (by simp; omega), List.getElem?_eq_none (by simp; omega)]

/-- What is found under a number is the start of its history. -/
theorem get_eq_ok_iff_head?_history {arena : Arena} {id : Nat} {a : Arrival} :
    arena.get id = .ok a ↔ (arena.history id).head? = some a := by
  rw [get, Checked.get_eq_ok_iff, history, head?_historyIn]

/-- A new arrival is put in front of the history of the one it extends. -/
theorem history_record_self (arena : Arena) (a : Arrival) :
    (arena.record a).1.history (arena.record a).2 =
      a :: match a.previous with
        | some previous => arena.history previous
        | none => [] := by
  simp [record, history, historyIn]

end Arena

end Journey
