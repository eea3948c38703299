import Journey.Shared
import Journey.Timetable.StopTime

/-!
# Shared columns

Many trips of a pattern run with equal timings, so the arrays that describe
them, the columns, are kept once. The interner has a table for each
`ColumnKind`, and an array is looked for in the table of its kind alone: two
columns of different kinds are never one, whatever they hold.

A request is answered with the array that the table holds, or else with a new
one, which the table holds from then on. `hits` counts the requests of all
kinds that found their array there.
-/

namespace Journey

/-- What an array says of each stop of a trip. -/
inductive ColumnKind where
  | times
  | sequences
  | flags
  | pickDrops
  | headsigns
  | bookings
  deriving DecidableEq, Repr

namespace ColumnKind

abbrev Value : ColumnKind → Type
  | times => Int
  | sequences => Nat
  | flags => Bool
  | pickDrops => PickDrop
  | headsigns => Option String
  | bookings => Option Booking

instance : (k : ColumnKind) → DecidableEq k.Value
  | times => inferInstanceAs (DecidableEq Int)
  | sequences => inferInstanceAs (DecidableEq Nat)
  | flags => inferInstanceAs (DecidableEq Bool)
  | pickDrops => inferInstanceAs (DecidableEq PickDrop)
  | headsigns => inferInstanceAs (DecidableEq (Option String))
  | bookings => inferInstanceAs (DecidableEq (Option Booking))

instance : (k : ColumnKind) → Repr k.Value
  | times => inferInstanceAs (Repr Int)
  | sequences => inferInstanceAs (Repr Nat)
  | flags => inferInstanceAs (Repr Bool)
  | pickDrops => inferInstanceAs (Repr PickDrop)
  | headsigns => inferInstanceAs (Repr (Option String))
  | bookings => inferInstanceAs (Repr (Option Booking))

/-- The kinds, in the order of their tables. -/
def all : List ColumnKind := [times, sequences, flags, pickDrops, headsigns, bookings]

theorem mem_all (k : ColumnKind) : k ∈ all := by cases k <;> decide

theorem all_nodup : all.Nodup := by decide

end ColumnKind

/-- An array that describes all stops of a trip, and its kind. -/
structure Column where
  kind : ColumnKind
  values : List kind.Value
  deriving DecidableEq, Repr

namespace Column

abbrev times (values : List Int) : Column := { kind := .times, values }

abbrev sequences (values : List Nat) : Column := { kind := .sequences, values }

abbrev flags (values : List Bool) : Column := { kind := .flags, values }

abbrev pickDrops (values : List PickDrop) : Column := { kind := .pickDrops, values }

abbrev headsigns (values : List (Option String)) : Column := { kind := .headsigns, values }

abbrev bookings (values : List (Option Booking)) : Column := { kind := .bookings, values }

end Column

/-- The arrays held, a table for each kind, and how often one of them was found again. -/
structure Interner where
  times : List (Shared (List Int)) := []
  sequences : List (Shared (List Nat)) := []
  flags : List (Shared (List Bool)) := []
  pickDrops : List (Shared (List PickDrop)) := []
  headsigns : List (Shared (List (Option String))) := []
  bookings : List (Shared (List (Option Booking))) := []
  hits : Nat := 0
  deriving DecidableEq, Repr

namespace Interner

def table (i : Interner) : (k : ColumnKind) → List (Shared (List k.Value))
  | .times => i.times
  | .sequences => i.sequences
  | .flags => i.flags
  | .pickDrops => i.pickDrops
  | .headsigns => i.headsigns
  | .bookings => i.bookings

def withTable (i : Interner) : (k : ColumnKind) → List (Shared (List k.Value)) → Interner
  | .times, times => { i with times }
  | .sequences, sequences => { i with sequences }
  | .flags, flags => { i with flags }
  | .pickDrops, pickDrops => { i with pickDrops }
  | .headsigns, headsigns => { i with headsigns }
  | .bookings, bookings => { i with bookings }

/-- How many arrays are held, in all tables. -/
def size (i : Interner) : Nat :=
  i.times.length + i.sequences.length + i.flags.length + i.pickDrops.length +
    i.headsigns.length + i.bookings.length

def isEmpty (i : Interner) : Bool := i.size == 0

/-- The array that a table holds for these values. -/
def find? (i : Interner) (k : ColumnKind) (values : List k.Value) :
    Option (Shared (List k.Value)) :=
  (i.table k).find? fun s => s.value = values

/-- Ask for the array of a kind with these values: an old one where there is one. -/
def share (k : ColumnKind) (values : List k.Value) :
    StateM Interner (Shared (List k.Value)) := fun i =>
  match i.find? k values with
  | some s => (s, { i with hits := i.hits + 1 })
  | none =>
    let s := { tag := i.size, value := values }
    (s, i.withTable k (i.table k ++ [s]))

/-- Ask for a column. -/
def answer (c : Column) : StateM Interner (Shared Column) :=
  (·.map (Column.mk c.kind)) <$> share c.kind c.values

/-- Ask for columns in order. -/
def answerAll (columns : List Column) : StateM Interner (List (Shared Column)) :=
  columns.mapM answer

/-- Ask for a column: the instance that holds it. -/
def request (c : Column) : StateM Interner Nat := (·.tag) <$> answer c

/-- All arrays held, table by table. -/
def arrays (i : Interner) : List (Shared Column) :=
  ColumnKind.all.flatMap fun k => (i.table k).map (·.map (Column.mk k))

/-- The columns held, in the order of their instances. -/
def columns (i : Interner) : List Column :=
  (List.range i.size).filterMap fun tag => (i.arrays.find? (·.tag = tag)).map (·.value)

/-! ## Tables -/

@[simp]
theorem table_withTable_self (i : Interner) (k : ColumnKind) (xs : List (Shared (List k.Value))) :
    (i.withTable k xs).table k = xs := by
  cases k <;> rfl

theorem table_withTable_of_ne (i : Interner) {k l : ColumnKind} (h : l ≠ k)
    (xs : List (Shared (List k.Value))) : (i.withTable k xs).table l = i.table l := by
  cases k <;> cases l <;> first | rfl | exact absurd rfl h

@[simp]
theorem hits_withTable (i : Interner) (k : ColumnKind) (xs : List (Shared (List k.Value))) :
    (i.withTable k xs).hits = i.hits := by
  cases k <;> rfl

@[simp]
theorem table_hits (i : Interner) (hits : Nat) (k : ColumnKind) :
    ({ i with hits } : Interner).table k = i.table k := by
  cases k <;> rfl

theorem length_arrays (i : Interner) : i.arrays.length = i.size := by
  simp [arrays, ColumnKind.all, size, table]
  omega

end Interner

end Journey
