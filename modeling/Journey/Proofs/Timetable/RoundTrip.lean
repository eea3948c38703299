import Journey.Proofs.Timetable.LastWrite

/-!
# What is built reads back

A trip keeps its stop times as columns that it shares with other trips, its times
relative to the first arrival, and headsigns only where some stop does not show that
of the trip.

**Statement** (`reads_back_of_build`): none of this is seen from outside. With any
interner, every stop reads as the stop time that was handed over, and shows its own
headsign or else that of the trip (`StopTime.shown`). Every column is the instance that
the interner holds. Whatever the interner was asked for in between, a trip that shows the
same headsign and runs at other times of the day, all by the same number of seconds,
gets the very same columns and adds none.
-/

namespace Journey

/-- The stop time as passengers see it. -/
def StopTime.shown (st : StopTime) (trip : Trip) : StopTime :=
  { st with headsign := st.headsign.or trip.headsign }

namespace TripTimes

/-- Everything that is read at a stop. -/
def readStop (t : TripTimes) (stop : Nat) : Checked StopTime := do
  let arrival ← t.arrival stop
  let departure ← t.departure stop
  let sequence ← t.sequence stop
  let timepoint ← t.isTimepoint stop
  let pickup ← t.pickup stop
  let dropoff ← t.dropoff stop
  let headsign ← t.headsign stop
  let booking ← t.booking stop
  return { arrival, departure, sequence, timepoint, pickup, dropoff, headsign, booking }

section

variable {t : TripTimes} {trip : Trip} {stops : List StopTime} {timeShift : Int}
  {arrivals departures : List Int} {stop : Nat} {st : StopTime}

theorem get_map_of_getElem? {α : Type} {column : List α} {read : StopTime → α}
    (h : column = stops.map read) (hst : stops[stop]? = some st) :
    Checked.get column stop = .ok (read st) := by
  rw [Checked.get_eq_ok_iff, h, List.getElem?_map, hst]
  rfl

/-- A headsign is left out only where that of the trip says the same. -/
theorem Lays.headsign_eq (h : t.Lays trip stops timeShift arrivals departures)
    (hst : stops[stop]? = some st) : t.headsign stop = .ok (st.headsign.or trip.headsign) := by
  have hheadsigns := h.headsigns
  unfold headsign
  rw [h.trip]
  by_cases hplain : plainHeadsigns trip stops
  · rw [if_pos hplain] at hheadsigns
    rw [Option.map_eq_none_iff.mp hheadsigns]
    have hshows := List.all_eq_true.mp hplain st (List.mem_of_getElem? hst)
    cases hown : st.headsign with
    | none => rfl
    | some own =>
        rw [hown, Option.isNone_some, Bool.false_or, beq_iff_eq] at hshows
        rw [← hshows]
        rfl
  · rw [if_neg hplain] at hheadsigns
    obtain ⟨own, hown, hvalue⟩ := Option.map_eq_some_iff.mp hheadsigns
    rw [hown]
    show (·.or trip.headsign) <$> Checked.get own.value stop = _
    rw [get_map_of_getElem? hvalue hst]
    rfl

/-- The times at a stop, where they are in range, are those it was built from. -/
theorem Schedules.readStop_eq (hschedule : t.Schedules stops 0)
    (hlays : t.Lays trip stops timeShift arrivals departures) (hst : stops[stop]? = some st)
    (hrange : InRange st.arrival ∧ InRange st.departure) :
    t.scheduledArrival stop = .ok st.arrival ∧ t.scheduledDeparture stop = .ok st.departure ∧
      t.readStop stop = .ok (st.shown trip) := by
  have harrival : t.scheduledArrival stop = .ok st.arrival := by
    rw [hschedule.scheduledArrival_eq hst, Checked.add_eq_ok_iff, Int.add_zero]
    exact ⟨hrange.1, rfl⟩
  have hdeparture : t.scheduledDeparture stop = .ok st.departure := by
    rw [hschedule.scheduledDeparture_eq hst, Checked.add_eq_ok_iff, Int.add_zero]
    exact ⟨hrange.2, rfl⟩
  refine ⟨harrival, hdeparture, ?_⟩
  have hvalue := fun f => value_of_overlay_none hlays.overlay f stop
  unfold readStop arrival departure pickup dropoff sequence isTimepoint booking
  rw [hvalue .arrival, hvalue .departure, hvalue .pickup, hvalue .dropoff,
    hschedule.scheduledValue_eq hst .pickup, hschedule.scheduledValue_eq hst .dropoff,
    get_map_of_getElem? hlays.sequences hst, get_map_of_getElem? hlays.timepoints hst,
    hlays.headsign_eq hst, get_map_of_getElem? hlays.bookings hst]
  show (t.scheduledArrival stop >>= _) = _
  rw [harrival]
  show (t.scheduledDeparture stop >>= _) = _
  rw [hdeparture]
  rfl

end

/-! ## Statement -/

theorem reads_back_of_build {trip : Trip} {stops : List StopTime} {interner : Interner}
    (hstops : stops ≠ []) (hrange : ∀ st ∈ stops, InRange st.arrival ∧ InRange st.departure) :
    Ends (fun built => built.1.stopCount = stops.length ∧
        (∀ stop st, stops[stop]? = some st →
          built.1.scheduledArrival stop = .ok st.arrival ∧
          built.1.scheduledDeparture stop = .ok st.departure ∧
          built.1.readStop stop = .ok (st.shown trip)) ∧
        built.1.HeldIn built.2 ∧
        ∀ (trip' : Trip) (seconds : Int) (later : Interner), trip'.headsign = trip.headsign →
          built.2.Extends later →
          ∃ hits, build trip' (stops.map (·.moved seconds)) later =
            .ok ({ built.1 with trip := trip', timeShift := built.1.timeShift + seconds },
              { later with hits }))
      (Failure.OverflowsUnless (SpansInRange stops)) (build trip stops interner) := by
  refine (build_ends hstops).forget.of_forall ?_
  rintro ⟨t, interner'⟩ hbuild
  obtain ⟨hschedule, _⟩ := schedules_of_build hbuild
  obtain ⟨first, arrivals, departures, _, _, _, hlaid⟩ := laid_of_build hbuild
  refine ⟨hschedule.stopCount_eq, ?_, hlaid.held, ?_⟩
  · intro stop st hst
    exact hschedule.readStop_eq hlaid.lays hst (hrange st (List.mem_of_getElem? hst))
  · intro trip' seconds later hheadsign hle
    obtain ⟨hits, hagain⟩ := build_again hbuild hle
    exact ⟨hits, build_moved hagain hheadsign seconds⟩

/-- A tour of the harbour. One stop says what the trip says, and one says something else. -/
def tour : List StopTime :=
  [{ arrival := 36000, departure := 36000, sequence := 1 },
   { arrival := 36600, departure := 36660, sequence := 2, headsign := some "Harbour" },
   { arrival := 37200, departure := 37200, sequence := 3, headsign := some "Depot"
     timepoint := false }]

/-- Between two tours that are ten minutes apart, a ferry is built with the same interner. -/
theorem tour_reads_back :
    ∃ t held later again latest,
      build { id := "T1", headsign := some "Harbour" } tour {} = .ok (t, held) ∧
      t.readStop 0 = .ok { arrival := 36000, departure := 36000, sequence := 1
                           headsign := some "Harbour" } ∧
      t.readStop 2 = .ok { arrival := 37200, departure := 37200, sequence := 3
                           headsign := some "Depot", timepoint := false } ∧
      (∃ ferry, build { id := "F" } crossing held = .ok (ferry, later)) ∧
      build { id := "T2", headsign := some "Harbour" } (tour.map (·.moved 600)) later =
        .ok (again, latest) ∧
      again.baseDepartures = t.baseDepartures ∧ again.headsigns = t.headsigns ∧
      latest.size = later.size ∧ again.timeShift = 36600 := by
  have hruns : ∃ t held ferry later,
      build { id := "T1", headsign := some "Harbour" } tour {} = .ok (t, held) ∧
      build { id := "F" } crossing held = .ok (ferry, later) ∧ t.timeShift = 36000 :=
    ⟨_, _, _, _, rfl, rfl, rfl⟩
  obtain ⟨t, held, ferry, later, hbuild, hferry, hshift⟩ := hruns
  obtain ⟨_, _, _, _, _, _, hlaid⟩ := laid_of_build hferry
  have hlaw := @reads_back_of_build { id := "T1", headsign := some "Harbour" } tour {} (by decide)
    (by decide)
  rw [hbuild] at hlaw
  obtain ⟨_, hreads, _, hshares⟩ := hlaw
  obtain ⟨hits, hagain⟩ := hshares { id := "T2", headsign := some "Harbour" } 600 later rfl hlaid.later
  refine ⟨t, held, later, _, _, hbuild, (hreads 0 _ rfl).2.2, (hreads 2 _ rfl).2.2, ⟨ferry, hferry⟩,
    hagain, rfl, rfl, rfl, ?_⟩
  show t.timeShift + 600 = 36600
  rw [hshift]
  rfl

end TripTimes

end Journey
