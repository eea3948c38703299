import Journey.Proofs.Outcome
import Journey.Proofs.Timetable.Baseline
import Journey.Timetable.Change

/-!
# The schedule of a trip

A trip keeps its times relative to a time shift. What that schedule says, in
times of day, is a list of stop times moved by some seconds: `TripTimes.Schedules`.
A trip that has just been built schedules the stop times it was built from,
moved by nothing (`schedules_of_build`); a shift of the trip adds to what they
are moved by (`Schedules.move`), and nothing else does.

What is read of a schedule is known stop by stop (`Schedules.scheduledValue_eq`),
whether or not a time is out of range.
-/

namespace Journey

theorem Checked.add_congr {a b c d : Int} (h : a + b = c + d) : add a b = add c d := by
  unfold add
  rw [h]

/-- The value of a stop by schedule, once the schedule has moved. -/
def StopTime.scheduled (st : StopTime) (moved : Int) : (f : StopField) → Checked f.Value
  | .arrival => Checked.add st.arrival moved
  | .departure => Checked.add st.departure moved
  | .recorded | .cancelled | .inaccurate => .ok false
  | .pickup => .ok st.pickup
  | .dropoff => .ok st.dropoff

namespace TripTimes

/-- The trip is scheduled at these stop times, moved by so many seconds. -/
structure Schedules (t : TripTimes) (stops : List StopTime) (moved : Int) : Prop where
  arrivals : t.baseArrivals.value.map (· + t.timeShift) = stops.map (·.arrival + moved)
  departures : t.baseDepartures.value.map (· + t.timeShift) = stops.map (·.departure + moved)
  pickups : t.pickups.value = stops.map (·.pickup)
  dropoffs : t.dropoffs.value = stops.map (·.dropoff)
  /-- Times are kept relative to the first arrival. -/
  timeShift : ∀ first ∈ stops.head?, t.timeShift = first.arrival + moved

/-! ## Building -/

/-- Times kept relative to a shift are the times they were. -/
theorem map_add_of_relative {time : StopTime → Int} {shift : Int} {stops : List StopTime}
    {kept : List Int} (h : relative time shift stops = .ok kept) :
    kept.map (· + shift) = stops.map fun st => time st + 0 := by
  unfold relative at h
  induction stops generalizing kept with
  | nil =>
      cases h
      rfl
  | cons st stops ih =>
      rw [List.mapM_cons] at h
      obtain ⟨first, hfirst, h⟩ := bind_eq_ok_iff.mp h
      obtain ⟨rest, hrest, h⟩ := bind_eq_ok_iff.mp h
      obtain ⟨_, rfl⟩ := Checked.sub_eq_ok_iff.mp (Outcome.ofChecked_eq_ok_iff.mp hfirst)
      cases h
      rw [List.map_cons, List.map_cons, ih hrest]
      congr 1
      omega

theorem schedules_of_build {trip : Trip} {stops : List StopTime} {interner interner' : Interner}
    {t : TripTimes} (h : build trip stops interner = .ok (t, interner')) :
    t.Schedules stops 0 ∧ t.trip = trip ∧ t.overlay = none ∧ t.realtime = .scheduled := by
  obtain ⟨first, arrivals, departures, hfirst, harrivals, hdepartures, hlaid⟩ := laid_of_build h
  have hlays : t.Lays trip stops first.arrival arrivals departures := hlaid.lays
  refine ⟨⟨?_, ?_, hlays.pickups, hlays.dropoffs, ?_⟩, hlays.trip, hlays.overlay, hlays.realtime⟩
  · rw [hlays.arrivals, hlays.timeShift]
    exact map_add_of_relative harrivals
  · rw [hlays.departures, hlays.timeShift]
    exact map_add_of_relative hdepartures
  · intro other hother
    obtain rfl : first = other := Option.some.inj (hfirst.symm.trans hother)
    rw [hlays.timeShift, Int.add_zero]

/-! ## Reading -/

section

variable {t : TripTimes} {stops : List StopTime} {moved : Int}

theorem Schedules.stopCount_eq (h : t.Schedules stops moved) : t.stopCount = stops.length := by
  have hlength := congrArg List.length h.arrivals
  simpa [stopCount] using hlength

/-- Adding the shift to a kept time is adding what it has moved by to the time
it was, and goes through if and only if that does. -/
theorem add_shift_eq {time : StopTime → Int} {base : List Int} {shift : Int}
    (h : base.map (· + shift) = stops.map (time · + moved)) :
    base.map (Checked.add · shift) = stops.map fun st => Checked.add (time st) moved := by
  induction base generalizing stops with
  | nil => rw [List.map_eq_nil_iff.mp h.symm]; rfl
  | cons b base ih =>
      cases stops with
      | nil => cases h
      | cons st stops =>
          obtain ⟨hfirst, hrest⟩ := List.cons.inj h
          rw [List.map_cons, List.map_cons, ih hrest, Checked.add_congr hfirst]

theorem get_add_eq {time : StopTime → Int} {base : List Int} {shift : Int} {stop : Nat}
    {st : StopTime} (h : base.map (· + shift) = stops.map (time · + moved))
    (hst : stops[stop]? = some st) :
    (Checked.get base stop >>= fun b => Checked.add b shift) = Checked.add (time st) moved := by
  have hadd := congrArg (·[stop]?) (add_shift_eq h)
  simp only [List.getElem?_map, hst, Option.map_some] at hadd
  obtain ⟨b, hb, hsum⟩ := Option.map_eq_some_iff.mp hadd
  rw [Checked.get_eq_ok_iff.mpr hb]
  exact hsum

theorem Schedules.scheduledArrival_eq (h : t.Schedules stops moved) {stop : Nat} {st : StopTime}
    (hst : stops[stop]? = some st) : t.scheduledArrival stop = Checked.add st.arrival moved :=
  get_add_eq h.arrivals hst

theorem Schedules.scheduledDeparture_eq (h : t.Schedules stops moved) {stop : Nat}
    {st : StopTime} (hst : stops[stop]? = some st) :
    t.scheduledDeparture stop = Checked.add st.departure moved :=
  get_add_eq h.departures hst

/-- Without realtime data, the schedule is read. -/
theorem value_of_overlay_none (h : t.overlay = none) (f : StopField) (stop : Nat) :
    t.value f stop = t.scheduledValue f stop := by
  unfold value
  rw [h]

/-- What is read of the schedule is what the stop times say. -/
theorem Schedules.scheduledValue_eq (h : t.Schedules stops moved) {stop : Nat} {st : StopTime}
    (hst : stops[stop]? = some st) (f : StopField) :
    t.scheduledValue f stop = st.scheduled moved f := by
  cases f with
  | arrival => exact h.scheduledArrival_eq hst
  | departure => exact h.scheduledDeparture_eq hst
  | recorded => rfl
  | cancelled => rfl
  | inaccurate => rfl
  | pickup =>
      show Checked.get t.pickups.value stop = .ok st.pickup
      rw [Checked.get_eq_ok_iff, h.pickups, List.getElem?_map, hst]
      rfl
  | dropoff =>
      show Checked.get t.dropoffs.value stop = .ok st.dropoff
      rw [Checked.get_eq_ok_iff, h.dropoffs, List.getElem?_map, hst]
      rfl

/-! ## Moving and copying -/

theorem Schedules.move (h : t.Schedules stops moved) (distance : Int) :
    { t with timeShift := t.timeShift + distance }.Schedules stops (moved + distance) where
  arrivals := by
    have hmap := congrArg (List.map (· + distance)) h.arrivals
    simpa [Function.comp_def, Int.add_assoc] using hmap
  departures := by
    have hmap := congrArg (List.map (· + distance)) h.departures
    simpa [Function.comp_def, Int.add_assoc] using hmap
  pickups := h.pickups
  dropoffs := h.dropoffs
  timeShift := by
    intro first hfirst
    show t.timeShift + distance = _
    rw [h.timeShift first hfirst, Int.add_assoc]

/-- Realtime data and service codes are no part of the schedule. -/
theorem Schedules.withData (h : t.Schedules stops moved) (serviceCode : Option Nat)
    (overlay : Option Overlay) (realtime : Realtime) :
    { t with serviceCode, overlay, realtime }.Schedules stops moved where
  arrivals := h.arrivals
  departures := h.departures
  pickups := h.pickups
  dropoffs := h.dropoffs
  timeShift := h.timeShift

/-- A copy of the schedule has, in every column, the value of each stop. -/
theorem Schedules.column_ofSchedule (h : t.Schedules stops moved) {o : Overlay}
    (hcopy : Overlay.ofSchedule t.baseArrivals.value t.baseDepartures.value t.timeShift
      t.pickups.value t.dropoffs.value = .ok o) (f : StopField) :
    (o.column f).map .ok = stops.map fun st => st.scheduled moved f := by
  obtain ⟨arrivals, harrivals, hcopy⟩ := bind_eq_ok_iff.mp hcopy
  obtain ⟨departures, hdepartures, hcopy⟩ := bind_eq_ok_iff.mp hcopy
  cases hcopy
  have hunset : (List.replicate t.baseArrivals.value.length false).map (Except.ok (ε := Fault)) =
      stops.map fun _ => .ok false := by
    rw [List.map_replicate, List.map_const', ← h.stopCount_eq]
    rfl
  cases f with
  | arrival =>
      show arrivals.map Except.ok = _
      rw [← mapM_eq_ok_iff.mp harrivals]
      exact add_shift_eq h.arrivals
  | departure =>
      show departures.map Except.ok = _
      rw [← mapM_eq_ok_iff.mp hdepartures]
      exact add_shift_eq h.departures
  | recorded => exact hunset
  | cancelled => exact hunset
  | inaccurate => exact hunset
  | pickup =>
      show t.pickups.value.map Except.ok = _
      rw [h.pickups, List.map_map]
      rfl
  | dropoff =>
      show t.dropoffs.value.map Except.ok = _
      rw [h.dropoffs, List.map_map]
      rfl

end

end TripTimes

end Journey
