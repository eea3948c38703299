import Journey.Proofs.Timetable.Lifecycle
import Journey.Proofs.Timetable.Regular

/-!
# Rides are found where they fit

A pattern may visit a stop again and again, at times that need not increase or even
differ. So a ride can fit its trip in several places, and a search that settles on a
departure before it looks for the arrival could miss them all, or answer differently in
the two directions.

* **trips as they are made** (`TimedTrip.readable_of_reflects`) can be read at every
  position of their pattern, unless they were moved out of range;
* **statement** (`transitLeg_finds_least`): a ride is found exactly if it fits somewhere,
  and then at the least positions. If not, the refusal names the end that is not found:
  where it is boarded if the trip never departs from there then, and else where it is left.
-/

namespace Journey

/-- A trip was paired with a pattern of its length. Then it can be read if it has
realtime data, and else if its schedule is in range. -/
theorem TimedTrip.readable_of_reflects {t : TimedTrip} {stops : List StopTime}
    {accepted : List Change} (h : t.times.Reflects stops accepted)
    (hpaired : t.pattern.stops.length = t.times.stopCount)
    (hrange : t.times.overlay = none →
      TimesInRange stops (movedBy stops accepted)) : t.Readable := by
  intro p hp
  rw [hpaired] at hp
  cases hoverlay : t.times.overlay with
  | none =>
      have hp' : p < stops.length := by
        rw [← h.schedule.stopCount_eq]
        exact hp
      have hst : stops[p]? = some stops[p] := List.getElem?_eq_getElem hp'
      obtain ⟨harrival, hdeparture⟩ := hrange hoverlay stops[p] (List.getElem_mem hp')
      constructor
      · exact ⟨_, (h.time_of_overlay_none hoverlay hst false).trans (if_pos harrival)⟩
      · exact ⟨_, (h.time_of_overlay_none hoverlay hst true).trans (if_pos hdeparture)⟩
  | some o =>
      -- every column of an overlay has an entry for each stop
      have hread : ∀ f : StopField, ∃ value, t.times.value f p = .ok value := by
        intro f
        have hlt : p < (o.column f).length := by
          rw [h.length_column hoverlay f]
          exact hp
        unfold TripTimes.value
        rw [hoverlay]
        exact ⟨_, Checked.get_eq_ok_iff.mpr (List.getElem?_eq_getElem hlt)⟩
      exact ⟨hread .arrival, hread .departure⟩

namespace Assembly

variable {r : RideEnds}

/-- Where the trip does not depart as asked for, that is what is reported. -/
theorem RideEnds.TurnedAway.eq_of_no_departure {failure : Failure ItineraryError}
    (h : r.TurnedAway failure) (hread : r.trip.value.Readable)
    (hnone : ∀ board, ¬ r.DepartsAt board) : failure = r.notFound r.fromStop r.fromTime := by
  obtain ⟨reason, hreason⟩ := h.refused hread
  cases h with
  | noDeparture _ => rfl
  | noArrival hdeparts _ => exact absurd hdeparts (hnone _)
  | blindDeparture _ _ => cases hreason
  | blindArrival _ _ _ _ => cases hreason

/-- Where it does, the arrival is reported. -/
theorem RideEnds.TurnedAway.eq_of_departure {failure : Failure ItineraryError} {board : Nat}
    (h : r.TurnedAway failure) (hread : r.trip.value.Readable) (hdeparts : r.DepartsAt board) :
    failure = r.notFound r.toStop r.toTime := by
  obtain ⟨reason, hreason⟩ := h.refused hread
  cases h with
  | noDeparture hnone => exact absurd hdeparts (hnone board)
  | noArrival _ _ => rfl
  | blindDeparture _ _ => cases hreason
  | blindArrival _ _ _ _ => cases hreason

/-- On any trip, and in either direction, a ride comes to the leg between the least
positions that fit, or it is turned away. On a trip whose times can be read it is turned
away exactly if nothing fits, and the refusal names the departure if there is none, else
the arrival. -/
theorem transitLeg_finds_least (d : Direction) (a : Arrival) (boardStop : Nat) (boardTime : Int)
    (trip : Shared TimedTrip) (cost : Int) {r : RideEnds}
    (hr : r = .ofArrival d a boardStop boardTime trip) (htimes : r.fromTime ≤ r.toTime) :
    Ends (fun leg => ∃ board alight, r.IsLeast board alight ∧ leg = r.leg cost board alight)
      r.TurnedAway (transitLeg d a boardStop boardTime trip cost) ∧
    (r.trip.value.Readable →
      ((∃ leg, transitLeg d a boardStop boardTime trip cost = .ok leg) ↔
        ∃ board alight, r.Fits board alight) ∧
      ((∀ board, ¬ r.DepartsAt board) →
        transitLeg d a boardStop boardTime trip cost =
          .error (r.notFound r.fromStop r.fromTime)) ∧
      ((∃ board, r.DepartsAt board) → (∀ board alight, ¬ r.Fits board alight) →
        transitLeg d a boardStop boardTime trip cost =
          .error (r.notFound r.toStop r.toTime))) := by
  have hends := transitLeg_ends cost hr htimes
  refine ⟨hends, fun hread => ?_⟩
  cases hresult : transitLeg d a boardStop boardTime trip cost with
  | ok leg =>
      rw [hresult] at hends
      obtain ⟨board, alight, hleast, _⟩ := hends
      have hfits := hleast.fits
      refine ⟨⟨fun _ => ⟨board, alight, hfits⟩, fun _ => ⟨leg, rfl⟩⟩, ?_, ?_⟩
      · intro hnone
        exact absurd hfits.departs (hnone board)
      · intro _ hnone
        exact absurd hfits (hnone board alight)
  | error failure =>
      rw [hresult] at hends
      have hturned : r.TurnedAway failure := hends
      refine ⟨⟨?_, ?_⟩, ?_, ?_⟩
      · rintro ⟨leg, hleg⟩
        cases hleg
      · rintro ⟨board, alight, hfits⟩
        exact absurd hfits (hturned.not_fits hread board alight)
      · intro hnone
        rw [hturned.eq_of_no_departure hread hnone]
      · rintro ⟨board, hdeparts⟩ _
        rw [hturned.eq_of_departure hread hdeparts]

/-- A bus that goes round twice, by a timetable that has the same times for both rounds. -/
def twiceRound : Shared TimedTrip :=
  { tag := 0, value := .bus "C" [(1, 100, 100), (2, 200, 200), (1, 100, 100), (2, 200, 200)] }

/-- It was boarded at stop 2 by a search that goes back in time. -/
def goneBack : Arrival :=
  { round := 1, stop := 1, time := 100, cost := 0, previous := none
    how := .transit 2 200 twiceRound }

theorem twiceRound_readable : twiceRound.value.Readable := by
  intro p hp
  have hcases : p = 0 ∨ p = 1 ∨ p = 2 ∨ p = 3 := by
    have hlt : p < 4 := hp
    omega
  rcases hcases with rfl | rfl | rfl | rfl <;> exact ⟨⟨_, rfl⟩, _, rfl⟩

/-- The ride fits in the second round, and is found in the first one. -/
theorem goneBack_finds_first_round :
    ∃ r : RideEnds, r = .ofArrival .reverse goneBack 2 200 twiceRound ∧ r.fromTime ≤ r.toTime ∧
      r.trip.value.Readable ∧ r.Fits 2 3 ∧ r.IsLeast 0 1 ∧
      transitLeg .reverse goneBack 2 200 twiceRound 0 = .ok (r.leg 0 0 1) := by
  have hfits : (RideEnds.ofArrival .reverse goneBack 2 200 twiceRound).Fits 2 3 :=
    ⟨⟨rfl, rfl⟩, ⟨rfl, rfl⟩, by decide⟩
  obtain ⟨hends, hexact⟩ :=
    transitLeg_finds_least .reverse goneBack 2 200 twiceRound 0 rfl (by decide)
  obtain ⟨hsome, _⟩ := hexact twiceRound_readable
  obtain ⟨leg, hleg⟩ := hsome.mpr ⟨2, 3, hfits⟩
  rw [hleg] at hends
  obtain ⟨board, alight, hleast, rfl⟩ := hends
  cases hleg
  exact ⟨_, rfl, by decide, twiceRound_readable, hfits, hleast, rfl⟩

end Assembly

end Journey
