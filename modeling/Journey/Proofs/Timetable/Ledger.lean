import Journey.Proofs.Timetable.Changes
import Journey.Proofs.Timetable.Schedule

/-!
# The ledger of a trip

A trip that changes were tried on, accepted and refused ones mixed, is told by the
stop times it was built from and the changes it accepted, the latest first:

* the schedule is the stop times, moved by all accepted shifts (`movedBy`);
* a value of a stop is what the last accepted change of that field at that stop
  set it to (`Change.sets?`), and what is scheduled where no change has
  (`StopTime.after`). A cancellation counts as a change of all stops.

`Reflects` says so of a trip. A trip that has just been built reflects its stop
times (`reflects_of_build`). An accepted change adds itself to what the trip
reflects (`Reflects.step`) and a refused one leaves it, so it holds whatever is
tried (`Reflects.tryAll`).
-/

namespace Journey

/-! ## Accepted changes -/

namespace Change

/-- The change bears on what is read at stops, other than by moving the schedule. -/
def touches (c : Change) : Bool := c.isWrite || c == cancel

/-- What the change, once accepted, sets a field of a stop to, if anything. The
stop is scheduled at `st`, moved by so many seconds. -/
def sets? (c : Change) (st : StopTime) (moved : Int) (stop : Nat) : (f : StopField) → Option f.Value
  | .arrival =>
    match c with
    | arrivalTime s time => if s = stop then some time else none
    | arrivalDelay s delay => if s = stop then some (st.arrival + moved + delay) else none
    | cancel => some Clock.unavailable
    | _ => none
  | .departure =>
    match c with
    | departureTime s time => if s = stop then some time else none
    | departureDelay s delay => if s = stop then some (st.departure + moved + delay) else none
    | cancel => some Clock.unavailable
    | _ => none
  | .recorded =>
    match c with
    | recorded s value => if s = stop then some value else none
    | _ => none
  | .cancelled =>
    match c with
    | cancelledStop s value => if s = stop then some value else none
    | cancel => some true
    | _ => none
  | .inaccurate =>
    match c with
    | inaccurate s value => if s = stop then some value else none
    | _ => none
  | .pickup =>
    match c with
    | pickup s value => if s = stop then some value else none
    | cancel => some .unavailable
    | _ => none
  | .dropoff =>
    match c with
    | dropoff s value => if s = stop then some value else none
    | cancel => some .unavailable
    | _ => none

end Change

/-- The time of a stop that a shift names. -/
def StopTime.time (st : StopTime) (departure : Bool) : Int :=
  if departure then st.departure else st.arrival

/-- Seconds by which accepted changes, the latest first, have moved stop times.
A shift moves them from where the time that it names was to where it is to be. -/
def movedBy (stops : List StopTime) : List Change → Int
  | [] => 0
  | .shift stop time departure :: earlier =>
    let before := movedBy stops earlier
    match stops[stop]? with
    | some st => before + (time - (st.time departure + before))
    | none => before
  | _ :: earlier => movedBy stops earlier

/-- The value of a stop after accepted changes, the latest first. -/
def StopTime.after (st : StopTime) (accepted : List Change) (moved : Int) (stop : Nat)
    (f : StopField) : Checked f.Value :=
  match accepted.findSome? fun c => c.sets? st moved stop f with
  | some value => .ok value
  | none => st.scheduled moved f

/-- How a trip stands to its schedule after accepted changes. -/
def Realtime.after (accepted : List Change) : Realtime :=
  if .cancel ∈ accepted then .canceled
  else if accepted.any Change.isWrite then .updated
  else .scheduled

/-- Try changes in order. Given and listed are the accepted ones, the latest first. -/
def Change.tryAll (accepted : List Change) : List Change → TripTimes →
    Checked (TripTimes × List Change)
  | [], t => .ok (t, accepted)
  | c :: cs, t => do
    let attempt ← c.run t
    tryAll (if attempt.refusal.isNone then c :: accepted else accepted) cs attempt.trip

/-! ## One more change -/

/-- What a field holds at every stop of a trip that does not run, where that is
settled. -/
def StopField.closed? : (f : StopField) → Option f.Value
  | .arrival | .departure => some Clock.unavailable
  | .recorded | .inaccurate => none
  | .cancelled => some true
  | .pickup | .dropoff => some .unavailable

theorem Overlay.column_close (o : Overlay) (f : StopField) :
    o.close.column f = match f.closed? with
      | some value => (o.column f).map fun _ => value
      | none => o.column f := by
  cases f <;> rfl

namespace Change

theorem sets?_cancel (st : StopTime) (moved : Int) (stop : Nat) (f : StopField) :
    cancel.sets? st moved stop f = f.closed? := by
  cases f <;> rfl

theorem sets?_of_not_touches {c : Change} (h : c.touches = false) (st : StopTime) (moved : Int)
    (stop : Nat) (f : StopField) : c.sets? st moved stop f = none := by
  cases c with
  | shift s time departure => cases f <;> rfl
  | serviceCode code => cases f <;> rfl
  | _ => cases h

/-- A change that sets a value of a stop sets it to that value, once accepted. -/
theorem Sets.sets?_eq {t : TripTimes} {c : Change} {f : StopField} {stop : Nat} {value : f.Value}
    {stops : List StopTime} {moved : Int} {st : StopTime} (h : Sets t c f stop value)
    (hschedule : t.Schedules stops moved) (hst : stops[stop]? = some st) :
    c.sets? st moved stop f = some value := by
  cases h with
  | arrivalDelay hscheduled =>
      rw [hschedule.scheduledArrival_eq hst] at hscheduled
      obtain ⟨_, rfl⟩ := Checked.add_eq_ok_iff.mp hscheduled
      simp [sets?]
  | departureDelay hscheduled =>
      rw [hschedule.scheduledDeparture_eq hst] at hscheduled
      obtain ⟨_, rfl⟩ := Checked.add_eq_ok_iff.mp hscheduled
      simp [sets?]
  | _ => simp [sets?]

/-- It sets no other field, and none at any other stop. -/
theorem Sets.sets?_eq_none {t : TripTimes} {c : Change} {f g : StopField} {stop other : Nat}
    {value : f.Value} (h : Sets t c f stop value) (hother : g = f → stop ≠ other)
    (st : StopTime) (moved : Int) : c.sets? st moved other g = none := by
  cases h <;> cases g <;> first | rfl | exact if_neg (hother rfl)

theorem Sets.movedBy_eq {t : TripTimes} {c : Change} {f : StopField} {stop : Nat} {value : f.Value}
    (h : Sets t c f stop value) (stops : List StopTime) (accepted : List Change) :
    movedBy stops (c :: accepted) = movedBy stops accepted := by
  cases h <;> rfl

end Change

section

variable {st : StopTime} {accepted : List Change} {c : Change} {moved : Int} {stop : Nat}
  {f : StopField}

theorem StopTime.after_cons_of_some {value : f.Value} (h : c.sets? st moved stop f = some value) :
    st.after (c :: accepted) moved stop f = .ok value := by
  unfold after
  rw [List.findSome?_cons_of_isSome (by rw [h]; rfl), h]

theorem StopTime.after_cons_of_none (h : c.sets? st moved stop f = none) :
    st.after (c :: accepted) moved stop f = st.after accepted moved stop f := by
  unfold after
  rw [List.findSome?_cons_of_isNone (by rw [h]; rfl)]

theorem StopTime.after_of_not_touches (h : ∀ c ∈ accepted, c.touches = false) :
    st.after accepted moved stop f = st.scheduled moved f := by
  have hnone : accepted.findSome? (fun c => c.sets? st moved stop f) = none := by
    rw [List.findSome?_eq_none_iff]
    intro c hc
    exact Change.sets?_of_not_touches (h c hc) st moved stop f
  unfold after
  rw [hnone]

end

theorem Realtime.after_eq_scheduled_iff {accepted : List Change} :
    after accepted = .scheduled ↔ ∀ c ∈ accepted, c.touches = false := by
  unfold after
  constructor
  · intro hscheduled c hc
    by_cases hcancel : .cancel ∈ accepted
    · simp [hcancel] at hscheduled
    · by_cases hwrite : accepted.any Change.isWrite
      · simp [hcancel, hwrite] at hscheduled
      · have hne : c ≠ .cancel := fun heq => hcancel (heq ▸ hc)
        have hnot : ¬ c.isWrite = true := fun hw => hwrite (List.any_eq_true.mpr ⟨c, hc, hw⟩)
        simp [Change.touches, hne, hnot]
  · intro huntouched
    have hcancel : .cancel ∉ accepted := by
      intro hmem
      have htouches := huntouched _ hmem
      cases htouches
    have hwrite : ¬ accepted.any Change.isWrite := by
      rw [List.any_eq_true]
      rintro ⟨c, hc, hw⟩
      have htouches := huntouched c hc
      rw [Change.touches, hw] at htouches
      cases htouches
    rw [if_neg hcancel, if_neg hwrite]

/-! ## What a trip reflects -/

/-- The overlay has, in every column, the value of each stop after the changes. -/
def Overlay.Holds (o : Overlay) (stops : List StopTime) (accepted : List Change) : Prop :=
  ∀ (f : StopField) (stop : Nat), (o.column f)[stop]?.map Except.ok =
    stops[stop]?.map fun st => st.after accepted (movedBy stops accepted) stop f

theorem Overlay.Holds.length_column {o : Overlay} {stops : List StopTime}
    {accepted : List Change} (h : o.Holds stops accepted) (f : StopField) :
    (o.column f).length = stops.length := by
  -- the column ends where the stops do
  have hends : ∀ stop, stop < (o.column f).length ↔ stop < stops.length := by
    intro stop
    have hnone := congrArg (· = none) (h f stop)
    simp only [Option.map_eq_none_iff, List.getElem?_eq_none_iff, eq_iff_iff] at hnone
    omega
  have hcolumn := hends (o.column f).length
  have hstops := hends stops.length
  omega

/-- The trip is what stop times and accepted changes make of it. -/
structure TripTimes.Reflects (t : TripTimes) (stops : List StopTime) (accepted : List Change) :
    Prop where
  schedule : t.Schedules stops (movedBy stops accepted)
  realtime : t.realtime = Realtime.after accepted
  overlay : t.overlay = none ↔ ∀ c ∈ accepted, c.touches = false
  columns : ∀ o, t.overlay = some o → o.Holds stops accepted
  /-- What a cancellation closes stays closed. -/
  closed : .cancel ∈ accepted → ∀ (st : StopTime) (moved : Int) (stop : Nat) (f : StopField)
    (value : f.Value), f.closed? = some value → st.after accepted moved stop f = .ok value

namespace TripTimes

variable {t : TripTimes} {stops : List StopTime} {accepted : List Change}

theorem reflects_of_build {trip : Trip} {interner interner' : Interner}
    (hbuild : build trip stops interner = .ok (t, interner')) : t.Reflects stops [] := by
  obtain ⟨hschedule, _, hoverlay, hrealtime⟩ := schedules_of_build hbuild
  refine ⟨hschedule, hrealtime, ?_, ?_, ?_⟩
  · simp [hoverlay]
  · simp [hoverlay]
  · simp

theorem Reflects.isCanceled_iff (h : t.Reflects stops accepted) :
    t.isCanceled = true ↔ .cancel ∈ accepted := by
  unfold isCanceled
  rw [h.realtime, beq_iff_eq]
  unfold Realtime.after
  by_cases hcancel : .cancel ∈ accepted
  · simp [hcancel]
  · by_cases hwrite : accepted.any Change.isWrite
    · simp [hcancel, hwrite]
    · simp [hcancel, hwrite]

theorem Reflects.not_mem_cancel (h : t.Reflects stops accepted) (hcanceled : t.isCanceled = false) :
    .cancel ∉ accepted := by
  intro hmem
  rw [h.isCanceled_iff.mpr hmem] at hcanceled
  cases hcanceled

theorem Reflects.scheduled_iff (h : t.Reflects stops accepted) :
    t.realtime = .scheduled ↔ t.overlay = none := by
  rw [h.realtime, h.overlay, Realtime.after_eq_scheduled_iff]

theorem Reflects.overlay_of_canceled (h : t.Reflects stops accepted)
    (hcanceled : t.isCanceled = true) : t.overlay ≠ none := by
  intro hnone
  have htouches := h.overlay.mp hnone _ (h.isCanceled_iff.mp hcanceled)
  cases htouches

/-- What is read at a stop is what the accepted changes make of it. -/
theorem Reflects.value_eq (h : t.Reflects stops accepted) {stop : Nat} {st : StopTime}
    (hst : stops[stop]? = some st) (f : StopField) :
    t.value f stop = st.after accepted (movedBy stops accepted) stop f := by
  unfold value
  cases hoverlay : t.overlay with
  | none =>
      rw [StopTime.after_of_not_touches (h.overlay.mp hoverlay)]
      exact h.schedule.scheduledValue_eq hst f
  | some o =>
      have hcolumn := h.columns o hoverlay f stop
      rw [hst] at hcolumn
      obtain ⟨value, hvalue, hafter⟩ := Option.map_eq_some_iff.mp hcolumn
      show Checked.get (o.column f) stop = _
      rw [Checked.get_eq_ok_iff.mpr hvalue]
      exact hafter

theorem Reflects.value_of_overlay_none (h : t.Reflects stops accepted) (hoverlay : t.overlay = none)
    {stop : Nat} {st : StopTime} (hst : stops[stop]? = some st) (f : StopField) :
    t.value f stop = st.scheduled (movedBy stops accepted) f := by
  rw [h.value_eq hst f, StopTime.after_of_not_touches (h.overlay.mp hoverlay)]

/-- Without realtime data, the time that is read is the one that is scheduled. -/
theorem Reflects.time_of_overlay_none (h : t.Reflects stops accepted) (hoverlay : t.overlay = none)
    {stop : Nat} {st : StopTime} (hst : stops[stop]? = some st) (departure : Bool) :
    (if departure then t.departure stop else t.arrival stop) =
      Checked.add (st.time departure) (movedBy stops accepted) := by
  cases departure with
  | false => exact h.value_of_overlay_none hoverlay hst .arrival
  | true => exact h.value_of_overlay_none hoverlay hst .departure

/-- A trip that is written to has an overlay that holds what came before. -/
theorem Reflects.materialize (h : t.Reflects stops accepted) {t' : TripTimes} {o : Overlay}
    (hmaterialize : t.materialize = .ok (t', o)) :
    o.Holds stops accepted ∧ t'.Schedules stops (movedBy stops accepted) ∧
      (t.isCanceled = false → t'.realtime = .updated) := by
  rcases materialize_cases hmaterialize with ⟨hoverlay, rfl⟩ | ⟨hoverlay, rfl, hcopy⟩
  · refine ⟨h.columns o hoverlay, h.schedule, fun hcanceled => ?_⟩
    -- there is an overlay, and the trip is not canceled
    cases hrealtime : t'.realtime with
    | scheduled =>
        rw [h.scheduled_iff.mp hrealtime] at hoverlay
        cases hoverlay
    | updated => rfl
    | canceled =>
        rw [isCanceled, hrealtime] at hcanceled
        cases hcanceled
  · refine ⟨fun f stop => ?_, h.schedule.withData .., fun _ => rfl⟩
    have hcolumn := congrArg (·[stop]?) (h.schedule.column_ofSchedule hcopy f)
    simp only [List.getElem?_map] at hcolumn
    rw [hcolumn]
    simp only [StopTime.after_of_not_touches (h.overlay.mp hoverlay)]

end TripTimes

/-- Setting a value of a stop leaves every other value as it was. -/
theorem Overlay.Holds.set {o : Overlay} {stops : List StopTime} {accepted : List Change}
    {t : TripTimes} {c : Change} {f : StopField} {stop : Nat} {value : f.Value}
    (h : o.Holds stops accepted) (hsets : c.Sets t f stop value)
    (hschedule : t.Schedules stops (movedBy stops accepted)) (hlt : stop < (o.column f).length) :
    (o.withColumn f ((o.column f).set stop value)).Holds stops (c :: accepted) := by
  intro g other
  rw [hsets.movedBy_eq]
  by_cases hfield : g = f
  · subst hfield
    rw [Overlay.column_withColumn_self]
    by_cases hstop : stop = other
    · subst hstop
      have hbefore := h g stop
      rw [List.getElem?_eq_getElem hlt] at hbefore
      obtain ⟨st, hst, _⟩ := Option.map_eq_some_iff.mp hbefore.symm
      rw [List.getElem?_set_self hlt, hst, Option.map_some, Option.map_some,
        StopTime.after_cons_of_some (hsets.sets?_eq hschedule hst)]
    · rw [List.getElem?_set_ne hstop, h g other]
      simp only [StopTime.after_cons_of_none (hsets.sets?_eq_none (fun _ => hstop) _ _)]
  · rw [Overlay.column_withColumn_of_ne o hfield, h g other]
    simp only [StopTime.after_cons_of_none
      (hsets.sets?_eq_none (fun heq => absurd heq hfield) _ _)]

/-- Closing every stop is what a cancellation comes to. -/
theorem Overlay.Holds.close {o : Overlay} {stops : List StopTime} {accepted : List Change}
    (h : o.Holds stops accepted) : o.close.Holds stops (.cancel :: accepted) := by
  intro f stop
  have hmoved : movedBy stops (.cancel :: accepted) = movedBy stops accepted := rfl
  have hbefore := h f stop
  rw [hmoved, Overlay.column_close]
  cases hclosed : f.closed? with
  | none =>
      have hsets := fun st => (Change.sets?_cancel st (movedBy stops accepted) stop f).trans hclosed
      simp only [StopTime.after_cons_of_none (hsets _)]
      exact hbefore
  | some value =>
      have hsets := fun st => (Change.sets?_cancel st (movedBy stops accepted) stop f).trans hclosed
      simp only [StopTime.after_cons_of_some (hsets _), List.getElem?_map, Option.map_map]
      -- what the column held before is only good for where it ends
      cases hst : stops[stop]? with
      | none =>
          rw [hst] at hbefore
          rw [Option.map_eq_none_iff.mp hbefore]
          rfl
      | some st =>
          rw [hst] at hbefore
          obtain ⟨_, hold, _⟩ := Option.map_eq_some_iff.mp hbefore
          rw [hold]
          rfl

/-! ## Steps and runs -/

namespace Realtime

theorem after_cons_of_write {c : Change} {accepted : List Change} (hwrite : c.isWrite = true)
    (hcancel : .cancel ∉ c :: accepted) : after (c :: accepted) = .updated := by
  unfold after
  rw [if_neg hcancel, if_pos]
  simp [hwrite]

theorem after_cons_cancel (accepted : List Change) : after (.cancel :: accepted) = .canceled :=
  if_pos List.mem_cons_self

theorem after_cons_of_not_touches {c : Change} {accepted : List Change}
    (h : c.touches = false) : after (c :: accepted) = after accepted := by
  obtain ⟨hwrite, hcancel⟩ := Bool.or_eq_false_iff.mp h
  have hne : .cancel ≠ c := fun heq => by rw [← heq] at hcancel; cases hcancel
  unfold after
  simp [hwrite, hne]

end Realtime

namespace TripTimes

variable {t : TripTimes} {stops : List StopTime} {accepted : List Change}

/-- What neither writes nor cancels leaves what is read at stops to the schedule. -/
theorem Reflects.of_not_touches {t' : TripTimes} {c : Change} (h : t.Reflects stops accepted)
    (hc : c.touches = false) (hschedule : t'.Schedules stops (movedBy stops (c :: accepted)))
    (hrealtime : t'.realtime = t.realtime) (hoverlay : t'.overlay = t.overlay)
    (hmoved : t.overlay ≠ none → movedBy stops (c :: accepted) = movedBy stops accepted) :
    t'.Reflects stops (c :: accepted) where
  schedule := hschedule
  realtime := by rw [hrealtime, h.realtime, Realtime.after_cons_of_not_touches hc]
  overlay := by
    rw [hoverlay, h.overlay, List.forall_mem_cons]
    exact ⟨fun hrest => ⟨hc, hrest⟩, fun hall => hall.2⟩
  columns := by
    intro o ho f stop
    rw [hoverlay] at ho
    rw [hmoved (by rw [ho]; exact Option.some_ne_none o), h.columns o ho f stop]
    simp only [StopTime.after_cons_of_none (Change.sets?_of_not_touches hc _ _ _ _)]
  closed := by
    intro hcancel st moved stop f value hclosed
    have hmem : .cancel ∈ accepted := by
      rcases List.mem_cons.mp hcancel with rfl | hmem
      · cases hc
      · exact hmem
    rw [StopTime.after_cons_of_none (Change.sets?_of_not_touches hc _ _ _ _)]
    exact h.closed hmem st moved stop f value hclosed

theorem closed_cons_cancel (st : StopTime) (moved : Int) (stop : Nat) (f : StopField)
    (value : f.Value) (hclosed : f.closed? = some value) :
    st.after (.cancel :: accepted) moved stop f = .ok value :=
  StopTime.after_cons_of_some ((Change.sets?_cancel st moved stop f).trans hclosed)

theorem shiftRefusal?_eq_none_iff {stop : Nat} :
    t.shiftRefusal? stop = none ↔ t.overlay = none ∧ stop < t.stopCount := by
  unfold shiftRefusal? isScheduled
  cases t.overlay with
  | some o => simp
  | none => simp

theorem Reflects.set {c : Change} {f : StopField} {stop : Nat} {value : f.Value}
    {t' : TripTimes} {o : Overlay} (h : t.Reflects stops accepted) (hnone : c.refusal? t = none)
    (hsets : c.Sets t f stop value) (hmaterialize : t.materialize = .ok (t', o))
    (hlt : stop < (o.column f).length) :
    { t' with overlay := some (o.withColumn f ((o.column f).set stop value)) }.Reflects stops
      (c :: accepted) := by
  rw [Change.refusal?_of_stop? hsets.stop?, writeRefusal?_eq_none_iff] at hnone
  have hwrite : c.isWrite = true := by
    rw [Change.isWrite, hsets.stop?]
    rfl
  have hcancel : .cancel ∉ c :: accepted := by
    intro hmem
    rcases List.mem_cons.mp hmem with rfl | hmem
    · cases hwrite
    · exact h.not_mem_cancel hnone.1 hmem
  obtain ⟨hholds, hschedule, hupdated⟩ := h.materialize hmaterialize
  refine ⟨?_, ?_, ?_, ?_, fun hmem => absurd hmem hcancel⟩
  · rw [hsets.movedBy_eq]
    exact hschedule.withData ..
  · rw [Realtime.after_cons_of_write hwrite hcancel]
    exact hupdated hnone.1
  · simp [Change.touches, hwrite]
  · intro o' ho'
    cases ho'
    exact hholds.set hsets h.schedule hlt

theorem Reflects.move {stop : Nat} {time current : Int} {departure : Bool}
    (h : t.Reflects stops accepted) (hnone : t.shiftRefusal? stop = none)
    (hcurrent : (if departure then t.departure stop else t.arrival stop) = .ok current) :
    { t with timeShift := t.timeShift + (time - current) }.Reflects stops
      (.shift stop time departure :: accepted) := by
  obtain ⟨hoverlay, hlt⟩ := shiftRefusal?_eq_none_iff.mp hnone
  rw [h.schedule.stopCount_eq] at hlt
  have hst : stops[stop]? = some stops[stop] := List.getElem?_eq_getElem hlt
  rw [h.time_of_overlay_none hoverlay hst] at hcurrent
  obtain ⟨_, hscheduled⟩ := Checked.add_eq_ok_iff.mp hcurrent
  have hmoved : movedBy stops (.shift stop time departure :: accepted) =
      movedBy stops accepted + (time - current) := by
    rw [movedBy, hst, hscheduled]
  refine h.of_not_touches rfl ?_ rfl rfl (fun hsome => absurd hoverlay hsome)
  rw [hmoved]
  exact h.schedule.move (time - current)

theorem Reflects.close {t' : TripTimes} {o : Overlay} (h : t.Reflects stops accepted)
    (hmaterialize : t.materialize = .ok (t', o)) :
    { t' with overlay := some o.close, realtime := .canceled }.Reflects stops
      (.cancel :: accepted) := by
  obtain ⟨hholds, hschedule, _⟩ := h.materialize hmaterialize
  refine ⟨?_, ?_, ?_, ?_, fun _ => closed_cons_cancel⟩
  · exact hschedule.withData ..
  · exact (Realtime.after_cons_cancel accepted).symm
  · simp [Change.touches]
  · intro o' ho'
    cases ho'
    exact hholds.close

/-- To cancel once more is to say again what holds. -/
theorem Reflects.stay (h : t.Reflects stops accepted) (hcanceled : t.isCanceled = true) :
    t.Reflects stops (.cancel :: accepted) := by
  have hcancel := h.isCanceled_iff.mp hcanceled
  refine ⟨h.schedule, ?_, ?_, ?_, fun _ => closed_cons_cancel⟩
  · rw [Realtime.after_cons_cancel, h.realtime]
    exact if_pos hcancel
  · simp [Change.touches, h.overlay_of_canceled hcanceled]
  · intro o ho f stop
    rw [h.columns o ho f stop]
    cases hclosed : f.closed? with
    | none =>
        simp only [StopTime.after_cons_of_none ((Change.sets?_cancel _ _ _ f).trans hclosed)]
        rfl
    | some value =>
        -- the stop is set to what it was set to before
        simp only [h.closed hcancel _ _ _ f value hclosed,
          closed_cons_cancel _ _ _ f value hclosed]

/-- What is accepted is put in front of what was accepted before. -/
theorem Reflects.step {c : Change} {attempt : Attempt} (h : t.Reflects stops accepted)
    (hdoes : c.Does t attempt) (haccepted : attempt.refusal = none) :
    attempt.trip.Reflects stops (c :: accepted) := by
  cases hdoes with
  | refuse _ => cases haccepted
  | set hnone hsets hmaterialize hlt => exact h.set hnone hsets hmaterialize hlt
  | move hnone hcurrent => exact h.move hnone hcurrent
  | close _ hmaterialize => exact h.close hmaterialize
  | stay hcanceled => exact h.stay hcanceled
  | code code => exact h.of_not_touches rfl (h.schedule.withData ..) rfl rfl (fun _ => rfl)

/-- Whatever is tried, the trip reflects its stop times and what it accepted. -/
theorem Reflects.tryAll {changes : List Change} {t' : TripTimes} {accepted' : List Change}
    (h : t.Reflects stops accepted)
    (htry : Change.tryAll accepted changes t = .ok (t', accepted')) :
    t'.Reflects stops accepted' := by
  induction changes generalizing t accepted with
  | nil =>
      cases htry
      exact h
  | cons c changes ih =>
      obtain ⟨attempt, hrun, hrest⟩ := bind_eq_ok_iff.mp htry
      have hdoes := Change.does_of_run hrun
      cases hrefusal : attempt.refusal with
      | none =>
          rw [hrefusal] at hrest
          exact ih (h.step hdoes hrefusal) hrest
      | some reason =>
          rw [hrefusal, hdoes.trip_eq_of_refusal hrefusal] at hrest
          exact ih h hrest

end TripTimes

end Journey
