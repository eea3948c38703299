import Journey.Proofs.Timetable.Ledger

/-!
# The last write wins

**Statement** (`value_of_tryAll`): build a trip from stop times, at least one,
and try any changes on it, one after the other. Then

* the trip is scheduled at its stop times, moved by all shifts it accepted;
* every value of a stop is what the last accepted change of it says, and what
  is scheduled where there is none;
* the next change is accepted exactly if it can be made (`Change.Fits`).

Only an overflow can keep a trip from being built and a change from being made,
and none occurs as long as times are in range (`SpansInRange`, `Change.InReach`).

The first two are read off the invariant `Reflects`. For the rest, every
position that a change looks at has to be one that the trip has
(`Reflects.run_ends`).
-/

namespace Journey

/-- The change can be made. A stop can be written to as long as the trip runs,
and a trip can move as long as there is no realtime data. -/
def Change.Fits (c : Change) (stops : List StopTime) (accepted : List Change) : Prop :=
  match c.stop? with
  | some stop => .cancel ∉ accepted ∧ stop < stops.length
  | none =>
    match c with
    | shift stop _ _ => (∀ earlier ∈ accepted, earlier.touches = false) ∧ stop < stops.length
    | _ => True

/-- The times of all stops, moved by some seconds, are in range. -/
def TimesInRange (stops : List StopTime) (moved : Int) : Prop :=
  ∀ st ∈ stops, InRange (st.arrival + moved) ∧ InRange (st.departure + moved)

/-- The times of all stops, relative to the first arrival, are in range. -/
def SpansInRange (stops : List StopTime) : Prop :=
  ∀ first ∈ stops.head?, TimesInRange stops (-first.arrival)

/-- No time of the trip is out of range, nor is what the change makes of one. -/
def Change.InReach (c : Change) (stops : List StopTime) (moved : Int) : Prop :=
  TimesInRange stops moved ∧
  match c with
  | arrivalDelay stop delay => ∀ st ∈ stops[stop]?, InRange (st.arrival + moved + delay)
  | departureDelay stop delay => ∀ st ∈ stops[stop]?, InRange (st.departure + moved + delay)
  | shift stop time departure =>
    ∀ first ∈ stops.head?, ∀ st ∈ stops[stop]?,
      InRange (time - (st.time departure + moved)) ∧
        InRange (first.arrival + moved + (time - (st.time departure + moved)))
  | _ => True

namespace TripTimes

/-! ## How building and changing end -/

theorem relative_ends {stops : List StopTime} {first : StopTime}
    (hfirst : first ∈ stops.head?) {time : StopTime → Int}
    (htime : ∀ st ∈ stops, TimesInRange stops (-first.arrival) →
      InRange (time st - first.arrival)) :
    Ends (fun _ => True) (Failure.OverflowsUnless (SpansInRange stops))
      (relative time first.arrival stops) := by
  have hitem : ∀ st ∈ stops, Ends (· = time st - first.arrival)
      (Failure.OverflowsUnless (SpansInRange stops))
      (liftM (Checked.sub (time st) first.arrival) : Outcome TripRefusal Int) := by
    intro st hst
    have hsub := Checked.sub_exactly (time st) first.arrival
    exact Ends.ofChecked (hsub.unless fun hspans => htime st hst (hspans first hfirst))
  exact (Ends.mapM hitem).forget

/-- A trip is built if its times can be kept relative to its first arrival. -/
theorem build_ends {trip : Trip} {stops : List StopTime} {interner : Interner}
    (hstops : stops ≠ []) :
    Ends (fun built => built.1.Reflects stops []) (Failure.OverflowsUnless (SpansInRange stops))
      (build trip stops interner) := by
  refine Ends.of_forall ?_ ?_
  · cases stops with
    | nil => exact absurd rfl hstops
    | cons first rest =>
        refine Ends.bind (relative_ends rfl fun st hst hrange => (hrange st hst).1) fun _ _ => ?_
        refine Ends.bind (relative_ends rfl fun st hst hrange => (hrange st hst).2) fun _ _ => ?_
        trivial
  · rintro ⟨start, interner'⟩ hbuild
    exact reflects_of_build hbuild

variable {t : TripTimes} {stops : List StopTime} {accepted : List Change} {moved : Int}

theorem absolute_ends {base : List Int} {shift : Int} {time : StopTime → Int}
    (hbase : base.map (· + shift) = stops.map (time · + moved))
    (htime : ∀ st ∈ stops, TimesInRange stops moved → InRange (time st + moved)) :
    Ends (fun _ => True) (Fault.OverflowsUnless (TimesInRange stops moved))
      (base.mapM (Checked.add · shift)) := by
  have hitem : ∀ b ∈ base, Ends (· = b + shift) (Fault.OverflowsUnless (TimesInRange stops moved))
      (Checked.add b shift) := by
    intro b hb
    have hmem : b + shift ∈ stops.map (time · + moved) := by
      rw [← hbase]
      exact List.mem_map_of_mem hb
    obtain ⟨st, hst, hsum⟩ := List.mem_map.mp hmem
    refine (Checked.add_exactly b shift).unless fun hrange => ?_
    rw [← hsum]
    exact htime st hst hrange
  exact (Ends.mapM hitem).forget

/-- A schedule can be copied if its times are in range. -/
theorem Schedules.materialize_ends (h : t.Schedules stops moved) :
    Ends (fun p => t.materialize = .ok p) (Fault.OverflowsUnless (TimesInRange stops moved))
      t.materialize := by
  refine Ends.of_forall ?_ fun _ hmaterialize => hmaterialize
  unfold materialize
  cases t.overlay with
  | some o => trivial
  | none =>
      have hcopy : Ends (fun _ => True) (Fault.OverflowsUnless (TimesInRange stops moved))
          (Overlay.ofSchedule t.baseArrivals.value t.baseDepartures.value t.timeShift
            t.pickups.value t.dropoffs.value) := by
        refine Ends.bind (absolute_ends h.arrivals fun st hst hrange => (hrange st hst).1) ?_
        intro _ _
        refine Ends.bind (absolute_ends h.departures fun st hst hrange => (hrange st hst).2) ?_
        intro _ _
        trivial
      exact Ends.bind hcopy fun _ _ => trivial

theorem Reflects.refusal?_eq_none_iff (h : t.Reflects stops accepted) (c : Change) :
    c.refusal? t = none ↔ c.Fits stops accepted := by
  cases hstop : c.stop? with
  | some stop =>
      have hcanceled : t.isCanceled = false ↔ .cancel ∉ accepted := by
        rw [← h.isCanceled_iff, Bool.not_eq_true]
      unfold Change.Fits
      rw [Change.refusal?_of_stop? hstop, writeRefusal?_eq_none_iff, hcanceled, hstop,
        h.schedule.stopCount_eq]
  | none =>
      cases c with
      | shift stop time departure =>
          show t.shiftRefusal? stop = none ↔ _ ∧ stop < stops.length
          rw [shiftRefusal?_eq_none_iff, h.overlay, h.schedule.stopCount_eq]
      | cancel => exact ⟨fun _ => trivial, fun _ => rfl⟩
      | serviceCode code => exact ⟨fun _ => trivial, fun _ => rfl⟩
      | _ => cases hstop

theorem Reflects.getElem?_of_writable (h : t.Reflects stops accepted) {stop : Nat}
    (hnone : t.writeRefusal? stop = none) : ∃ st ∈ stops, stops[stop]? = some st := by
  have hlt := (writeRefusal?_eq_none_iff.mp hnone).2
  rw [h.schedule.stopCount_eq] at hlt
  exact ⟨stops[stop], List.getElem_mem hlt, List.getElem?_eq_getElem hlt⟩

/-- The stops that a trip has can be written to. -/
theorem Reflects.writeStop_ends (h : t.Reflects stops accepted) {stop : Nat} {reach : Prop}
    (hreach : reach → TimesInRange stops (movedBy stops accepted))
    (hnone : t.writeRefusal? stop = none) (f : StopField) (value : f.Value) :
    Ends (fun _ => True) (Fault.OverflowsUnless reach) (t.writeStop f stop value) := by
  unfold writeStop
  rw [hnone]
  refine Ends.bind (h.schedule.materialize_ends.unless_mono hreach) ?_
  rintro ⟨t', o⟩ hmaterialize
  have hlt : stop < (o.column f).length := by
    rw [(h.materialize hmaterialize).1.length_column, ← h.schedule.stopCount_eq]
    exact (writeRefusal?_eq_none_iff.mp hnone).2
  simp only [Overlay.write, Checked.set, if_pos hlt]
  trivial

theorem writeDelay_ends {reach : Prop} {stop : Nat} {scheduled : Checked Int} {time delay : Int}
    {write : Int → Checked Attempt} (hnone : t.writeRefusal? stop = none)
    (hscheduled : scheduled = Checked.add time moved) (htime : reach → InRange (time + moved))
    (hdelayed : reach → InRange (time + moved + delay))
    (hwrite : ∀ time, Ends (fun _ => True) (Fault.OverflowsUnless reach) (write time)) :
    Ends (fun _ => True) (Fault.OverflowsUnless reach)
      (t.writeDelay stop scheduled delay write) := by
  unfold writeDelay
  rw [hnone, hscheduled]
  refine Ends.bind ((Checked.add_exactly _ _).unless htime) ?_
  rintro _ rfl
  exact Ends.bind ((Checked.add_exactly _ _).unless hdelayed) fun delayed _ => hwrite delayed

/-- A move overflows nowhere but where the time is read, or the seconds to it are taken. -/
theorem moveTo_ends {reach : Prop} {stop : Nat} {time : Int} {departure : Bool}
    (hread : Ends
      (fun current => reach → InRange (time - current) ∧ InRange (t.timeShift + (time - current)))
      (Fault.OverflowsUnless reach) (if departure then t.departure stop else t.arrival stop)) :
    Ends (fun _ => True) (Fault.OverflowsUnless reach) (t.moveTo stop time departure) := by
  unfold moveTo
  refine Ends.bind hread fun current hrange => ?_
  refine Ends.bind ((Checked.sub_exactly _ _).unless fun hreach => (hrange hreach).1) ?_
  rintro _ rfl
  refine Ends.bind ((Checked.add_exactly _ _).unless fun hreach => (hrange hreach).2) ?_
  exact fun _ _ => trivial

theorem Reflects.moveTo_ends (h : t.Reflects stops accepted) {stop : Nat} (time : Int)
    (departure : Bool) (hnone : t.shiftRefusal? stop = none) :
    Ends (fun _ => True)
      (Fault.OverflowsUnless
        ((Change.shift stop time departure).InReach stops (movedBy stops accepted)))
      (t.moveTo stop time departure) := by
  obtain ⟨hoverlay, hlt⟩ := shiftRefusal?_eq_none_iff.mp hnone
  rw [h.schedule.stopCount_eq] at hlt
  have hst : stops[stop]? = some stops[stop] := List.getElem?_eq_getElem hlt
  obtain ⟨first, hfirst⟩ : ∃ first, stops.head? = some first := by
    cases stops with
    | nil => cases hst
    | cons first rest => exact ⟨first, rfl⟩
  refine TripTimes.moveTo_ends ?_
  rw [h.time_of_overlay_none hoverlay hst, h.schedule.timeShift first hfirst]
  refine ((Checked.add_exactly _ _).unless fun hreach => ?_).mono ?_ fun _ he => he
  · have hstop := hreach.1 stops[stop] (List.getElem_mem hlt)
    cases departure with
    | false => exact hstop.1
    | true => exact hstop.2
  · rintro _ rfl hreach
    exact hreach.2 first hfirst _ hst

theorem Reflects.cancel_ends (h : t.Reflects stops accepted) :
    Ends (fun _ => True) (Fault.OverflowsUnless (TimesInRange stops (movedBy stops accepted)))
      t.cancel := by
  unfold cancel
  by_cases hcanceled : t.isCanceled
  · rw [if_pos hcanceled]
    trivial
  · rw [if_neg hcanceled]
    exact Ends.bind h.schedule.materialize_ends fun _ _ => trivial

/-- A change either goes through, accepted if it can be made, or overflows. -/
theorem Reflects.run_ends (h : t.Reflects stops accepted) (c : Change) :
    Ends (fun attempt => attempt.refusal = none ↔ c.Fits stops accepted)
      (Fault.OverflowsUnless (c.InReach stops (movedBy stops accepted))) (c.run t) := by
  refine Ends.of_forall ?_ ?_
  · cases hrefusal : c.refusal? t with
    | some reason =>
        rw [Change.run_of_refusal hrefusal]
        trivial
    | none =>
        cases c with
        | arrivalTime stop time => exact h.writeStop_ends (·.1) hrefusal .arrival time
        | departureTime stop time => exact h.writeStop_ends (·.1) hrefusal .departure time
        | arrivalDelay stop delay =>
            obtain ⟨st, hmem, hst⟩ := h.getElem?_of_writable hrefusal
            exact writeDelay_ends hrefusal (h.schedule.scheduledArrival_eq hst)
              (fun hreach => (hreach.1 st hmem).1) (fun hreach => hreach.2 st hst)
              (h.writeStop_ends (·.1) hrefusal .arrival)
        | departureDelay stop delay =>
            obtain ⟨st, hmem, hst⟩ := h.getElem?_of_writable hrefusal
            exact writeDelay_ends hrefusal (h.schedule.scheduledDeparture_eq hst)
              (fun hreach => (hreach.1 st hmem).2) (fun hreach => hreach.2 st hst)
              (h.writeStop_ends (·.1) hrefusal .departure)
        | cancelledStop stop value => exact h.writeStop_ends (·.1) hrefusal .cancelled value
        | recorded stop value => exact h.writeStop_ends (·.1) hrefusal .recorded value
        | inaccurate stop value => exact h.writeStop_ends (·.1) hrefusal .inaccurate value
        | pickup stop value => exact h.writeStop_ends (·.1) hrefusal .pickup value
        | dropoff stop value => exact h.writeStop_ends (·.1) hrefusal .dropoff value
        | shift stop time departure =>
            have hnone : t.shiftRefusal? stop = none := hrefusal
            have hmoved := h.moveTo_ends time departure hnone
            unfold Change.run shiftTo
            simp only [hnone]
            cases hmove : t.moveTo stop time departure with
            | error f =>
                rw [hmove] at hmoved
                exact hmoved
            | ok moved => trivial
        | cancel => exact Ends.bind (h.cancel_ends.unless_mono (·.1)) fun _ _ => trivial
        | serviceCode code => trivial
  · intro attempt hrun
    rw [(Change.does_of_run hrun).refusal_eq]
    exact h.refusal?_eq_none_iff c

/-! ## Main statement -/

theorem value_of_tryAll {trip : Trip} {stops : List StopTime} {interner : Interner}
    (hstops : stops ≠ []) :
    Ends (fun built => ∀ changes t accepted, Change.tryAll [] changes built.1 = .ok (t, accepted) →
        t.stopCount = stops.length ∧
        (∀ stop st, stops[stop]? = some st →
          t.scheduledArrival stop = Checked.add st.arrival (movedBy stops accepted) ∧
          t.scheduledDeparture stop = Checked.add st.departure (movedBy stops accepted) ∧
          ∀ f, t.value f stop = st.after accepted (movedBy stops accepted) stop f) ∧
        ∀ c, Ends (fun attempt => attempt.refusal = none ↔ c.Fits stops accepted)
          (Fault.OverflowsUnless (c.InReach stops (movedBy stops accepted))) (Change.run c t))
      (Failure.OverflowsUnless (SpansInRange stops)) (build trip stops interner) := by
  refine (build_ends hstops).mono ?_ fun _ he => he
  rintro ⟨start, interner'⟩ hstart changes t accepted htry
  have h := hstart.tryAll htry
  refine ⟨h.schedule.stopCount_eq, ?_, h.run_ends⟩
  intro stop st hst
  exact ⟨h.schedule.scheduledArrival_eq hst, h.schedule.scheduledDeparture_eq hst, h.value_eq hst⟩

/-- A ferry with a call on the way. -/
def crossing : List StopTime :=
  [{ arrival := 36000, departure := 36000, sequence := 1, dropoff := .unavailable },
   { arrival := 36600, departure := 36660, sequence := 2 },
   { arrival := 37200, departure := 37200, sequence := 3, pickup := .unavailable }]

/-- The crossing moves by a minute, is delayed on the way, and forecast again.
Then it does not move any more, and a fourth stop it never had. -/
def roughSea : List Change :=
  [.shift 0 36060 true, .arrivalDelay 1 90, .shift 0 36000 true, .recorded 1 true,
   .recorded 3 true, .arrivalTime 1 36780]

theorem crossing_reads_last_writes :
    ∃ start interner t, build { id := "F" } crossing {} = .ok (start, interner) ∧
      Change.tryAll [] roughSea start = .ok (t, [.arrivalTime 1 36780, .recorded 1 true,
        .arrivalDelay 1 90, .shift 0 36060 true]) ∧
      t.arrival 1 = .ok 36780 ∧ t.departure 1 = .ok 36720 ∧ t.isRecorded 1 = .ok true ∧
      t.arrival 2 = .ok 37260 ∧ t.pickup 2 = .ok .unavailable := by
  have hruns : ∃ start interner t, build { id := "F" } crossing {} = .ok (start, interner) ∧
      Change.tryAll [] roughSea start = .ok (t, [.arrivalTime 1 36780, .recorded 1 true,
        .arrivalDelay 1 90, .shift 0 36060 true]) := ⟨_, _, _, rfl, rfl⟩
  obtain ⟨start, interner, t, hbuild, htry⟩ := hruns
  have hlaw := @value_of_tryAll { id := "F" } crossing {} (by decide)
  rw [hbuild] at hlaw
  obtain ⟨_, hreads, _⟩ := hlaw _ t _ htry
  obtain ⟨_, _, hmiddle⟩ := hreads 1 _ rfl
  obtain ⟨_, _, hlast⟩ := hreads 2 _ rfl
  exact ⟨start, interner, t, hbuild, htry, hmiddle .arrival, hmiddle .departure,
    hmiddle .recorded, hlast .arrival, hlast .pickup⟩

end TripTimes

end Journey
