import Journey.Proofs.Itinerary.Positions
import Journey.Timetable.Order

/-!
# Regular trips

A trip is regular when it has times for each stop of its pattern and they never
go backwards (`TimedTrip.Regular`). Such a trip can be read at every position,
and a traveller who boards at one position and leaves at a later one arrives no
earlier than the trip departed: `Regular.departure_le_arrival`. For that alone it is
enough that the times are `Steady`, whatever the pattern.

Whether times go backwards is decided by comparing neighbours. That this orders
any two positions is the induction of `TripTimes.ordered_of_violationFrom`,
which carries the departure from the stop before as a lower bound.
-/

namespace Journey

namespace TripTimes

/-- The trip can be read at a stop, where it departs no earlier than it
arrives and arrives no earlier than `bound`. -/
def CallsFrom (t : TripTimes) (bound : Option Int) (stop : Nat) : Prop :=
  ∃ a d, t.arrival stop = .ok a ∧ t.departure stop = .ok d ∧ a ≤ d ∧ ∀ p ∈ bound, p ≤ a

/-- A stop passes, and so do those behind it. -/
theorem violationFrom_cons {t : TripTimes} {bound : Option Int} {stop : Nat} {stops : List Nat}
    (h : t.violationFrom bound (stop :: stops) = .ok none) :
    ∃ a d, t.arrival stop = .ok a ∧ t.departure stop = .ok d ∧ a ≤ d ∧ (∀ p ∈ bound, p ≤ a) ∧
      t.violationFrom (some d) stops = .ok none := by
  obtain ⟨a, ha, h⟩ := bind_eq_ok_iff.mp h
  obtain ⟨d, hd, h⟩ := bind_eq_ok_iff.mp h
  by_cases hdwell : d < a
  · rw [if_pos hdwell] at h
    cases h
  · rw [if_neg hdwell] at h
    by_cases hrun : bound.any fun p => a < p
    · rw [if_pos hrun] at h
      cases h
    · rw [if_neg hrun] at h
      refine ⟨a, d, ha, hd, by omega, ?_, h⟩
      intro p hp
      rw [Option.mem_def.mp hp, Option.any_some, decide_eq_true_eq] at hrun
      omega

/-- A stop whose times do not go backwards passes. -/
theorem violationFrom_cons_of_le {t : TripTimes} {bound : Option Int} {stop : Nat}
    {stops : List Nat} {a d : Int} (ha : t.arrival stop = .ok a) (hd : t.departure stop = .ok d)
    (hdwell : a ≤ d) (hbound : ∀ p ∈ bound, p ≤ a) :
    t.violationFrom bound (stop :: stops) = t.violationFrom (some d) stops := by
  have hrun : ¬ (bound.any fun p => a < p) := by
    rw [Option.any_eq_true]
    rintro ⟨p, hp, hlt⟩
    have hle := hbound p hp
    rw [decide_eq_true_eq] at hlt
    omega
  rw [violationFrom, ha, hd]
  simp only [bind, Except.bind]
  rw [if_neg (by omega), if_neg hrun]

/-- Without a violation the stops can be read, and each is left no later than
any stop behind it is reached. -/
theorem ordered_of_violationFrom {t : TripTimes} {bound : Option Int} {stops : List Nat}
    (h : t.violationFrom bound stops = .ok none) :
    (∀ stop ∈ stops, t.CallsFrom bound stop) ∧
      stops.Pairwise fun i j => ∀ d a, t.departure i = .ok d → t.arrival j = .ok a → d ≤ a := by
  induction stops generalizing bound with
  | nil => exact ⟨fun _ hmem => absurd hmem List.not_mem_nil, .nil⟩
  | cons stop rest ih =>
      obtain ⟨a, d, ha, hd, hdwell, hbound, hrest⟩ := violationFrom_cons h
      obtain ⟨hcalls, hpairs⟩ := ih hrest
      constructor
      · intro later hmem
        rcases List.mem_cons.mp hmem with rfl | hmem
        · exact ⟨a, d, ha, hd, hdwell, hbound⟩
        · obtain ⟨a', d', ha', hd', hdwell', hbound'⟩ := hcalls later hmem
          -- the bound passes from stop to stop through the departure of each
          have hle : d ≤ a' := hbound' d rfl
          refine ⟨a', d', ha', hd', hdwell', fun p hp => ?_⟩
          have := hbound p hp
          omega
      · refine .cons (fun later hmem d' a' hd' ha' => ?_) hpairs
        obtain ⟨a'', _, ha'', _, _, hbound'⟩ := hcalls later hmem
        have hd'' : d' = d := Except.ok.inj (hd'.symm.trans hd)
        have ha''' : a' = a'' := Except.ok.inj (ha'.symm.trans ha'')
        have := hbound' d rfl
        omega

/-- Times that never go backwards do not from one stop to any later one either. -/
theorem departure_le_arrival {t : TripTimes} (h : t.firstViolation = .ok none)
    {board alight : Nat} {boardTime alightTime : Int} (hafter : board < alight)
    (hlt : alight < t.stopCount) (hboard : t.departure board = .ok boardTime)
    (halight : t.arrival alight = .ok alightTime) : boardTime ≤ alightTime := by
  have hpairs := (ordered_of_violationFrom h).2
  rw [List.pairwise_iff_getElem] at hpairs
  have hpair := hpairs board alight (by simp; omega) (by simp; omega) hafter
  simp only [List.getElem_range] at hpair
  exact hpair boardTime alightTime hboard halight

/-- The times never go backwards. Realtime data, where there is any, is about the
stops of the trip and no others. -/
structure Steady (t : TripTimes) : Prop where
  ordered : t.firstViolation = .ok none
  sized : ∀ overlay, t.overlay = some overlay → (overlay.column .arrival).length = t.stopCount

theorem Steady.lt_stopCount {t : TripTimes} (h : t.Steady) {stop : Nat} {time : Int}
    (ha : t.arrival stop = .ok time) : stop < t.stopCount := by
  unfold arrival value at ha
  cases hoverlay : t.overlay with
  | none =>
      rw [hoverlay] at ha
      obtain ⟨base, hbase, _⟩ := bind_eq_ok_iff.mp ha
      exact (List.getElem?_eq_some_iff.mp (Checked.get_eq_ok_iff.mp hbase)).1
  | some overlay =>
      rw [hoverlay] at ha
      rw [← h.sized overlay hoverlay]
      exact (List.getElem?_eq_some_iff.mp (Checked.get_eq_ok_iff.mp ha)).1

theorem Steady.departure_le_arrival {t : TripTimes} (h : t.Steady) {board alight : Nat}
    {boardTime alightTime : Int} (hafter : board < alight)
    (hboard : t.departure board = .ok boardTime) (halight : t.arrival alight = .ok alightTime) :
    boardTime ≤ alightTime :=
  TripTimes.departure_le_arrival h.ordered hafter (h.lt_stopCount halight) hboard halight

end TripTimes

namespace TimedTrip

/-- The trip has times for each stop of its pattern, and they never go backwards. -/
structure Regular (t : TimedTrip) : Prop where
  paired : t.pattern.stops.length = t.times.stopCount
  ordered : t.times.firstViolation = .ok none

theorem Regular.readable {t : TimedTrip} (h : t.Regular) : t.Readable := by
  intro p hp
  have hmem : p ∈ List.range t.times.stopCount := by
    rw [List.mem_range, ← h.paired]
    exact hp
  obtain ⟨a, d, ha, hd, _⟩ := (TripTimes.ordered_of_violationFrom h.ordered).1 p hmem
  exact ⟨⟨a, ha⟩, d, hd⟩

/-- A ride takes no less than no time. -/
theorem Regular.departure_le_arrival {t : TimedTrip} (h : t.Regular) {board alight : Nat}
    {boardTime alightTime : Int} (hafter : board < alight)
    (hlt : alight < t.pattern.stops.length) (hboard : t.departure board = .ok boardTime)
    (halight : t.arrival alight = .ok alightTime) : boardTime ≤ alightTime := by
  rw [h.paired] at hlt
  exact TripTimes.departure_le_arrival h.ordered hafter hlt hboard halight

/-- The trip of a bus that runs as scheduled: stop, arrival and departure of each visit. -/
def bus (route : String) (visits : List (Nat × Int × Int)) : TimedTrip where
  pattern := { mode := .bus, route, stops := visits.map (·.1) }
  times :=
    { trip := { id := route }, serviceCode := none, timeShift := 0
      baseArrivals := { tag := 0, value := visits.map (·.2.1) }
      baseDepartures := { tag := 1, value := visits.map (·.2.2) }
      sequences := { tag := 2, value := List.range visits.length }
      timepoints := { tag := 3, value := visits.map fun _ => true }
      pickups := { tag := 4, value := visits.map fun _ => .scheduled }
      dropoffs := { tag := 4, value := visits.map fun _ => .scheduled }
      headsigns := none
      bookings := { tag := 5, value := visits.map fun _ => none }
      realtime := .scheduled }

end TimedTrip

end Journey
