import Journey.Proofs.Timetable.Sharing

/-!
# The baseline of a trip

What is laid down when a trip is built: its times relative to the first arrival, and a
column for everything else that its stop times say (`TripTimes.Lays`). From then on the
interner holds all of these columns (`TripTimes.HeldIn`), which is `lays_of_baseline`.

Two facts follow on building again:

* **the same** trip, with an interner that has held its columns since: each column is
  found, and what is built is the very same (`build_again`);
* stop times that are all **moved** by some seconds: the relative times are equal, so
  the same columns are asked for, and the trip differs in its shift alone
  (`build_moved`). Of the trip, only the headsign matters.
-/

namespace Journey

/-- The stop time, so many seconds later. -/
def StopTime.moved (st : StopTime) (seconds : Int) : StopTime :=
  { st with arrival := st.arrival + seconds, departure := st.departure + seconds }

/-- The value, whichever instance it is. -/
def Shared.untagged {α : Type} (s : Shared α) : Shared α := { s with tag := 0 }

namespace TripTimes

/-! ## Laying a baseline -/

/-- The trip is its baseline: these relative times, what else the stop times say, and no
realtime data. -/
structure Lays (t : TripTimes) (trip : Trip) (stops : List StopTime) (timeShift : Int)
    (arrivals departures : List Int) : Prop where
  headsigns : t.headsigns.map (·.value) =
    if plainHeadsigns trip stops then none else some (stops.map (·.headsign))
  trip : t.trip = trip
  serviceCode : t.serviceCode = none
  timeShift : t.timeShift = timeShift
  arrivals : t.baseArrivals.value = arrivals
  departures : t.baseDepartures.value = departures
  sequences : t.sequences.value = stops.map (·.sequence)
  timepoints : t.timepoints.value = stops.map (·.timepoint)
  pickups : t.pickups.value = stops.map (·.pickup)
  dropoffs : t.dropoffs.value = stops.map (·.dropoff)
  bookings : t.bookings.value = stops.map (·.booking)
  overlay : t.overlay = none
  realtime : t.realtime = .scheduled

/-- The trip, whichever instances its columns are. -/
def untagged (t : TripTimes) : TripTimes :=
  { t with
    baseArrivals := t.baseArrivals.untagged
    baseDepartures := t.baseDepartures.untagged
    sequences := t.sequences.untagged
    timepoints := t.timepoints.untagged
    pickups := t.pickups.untagged
    dropoffs := t.dropoffs.untagged
    headsigns := t.headsigns.map (·.untagged)
    bookings := t.bookings.untagged }

/-- The columns of the trip are the instances that the interner holds. -/
structure HeldIn (t : TripTimes) (i : Interner) : Prop where
  baseArrivals : t.baseArrivals.HeldIn .times i
  baseDepartures : t.baseDepartures.HeldIn .times i
  sequences : t.sequences.HeldIn .sequences i
  timepoints : t.timepoints.HeldIn .flags i
  pickups : t.pickups.HeldIn .pickDrops i
  dropoffs : t.dropoffs.HeldIn .pickDrops i
  headsigns : ∀ own, t.headsigns = some own → own.HeldIn .headsigns i
  bookings : t.bookings.HeldIn .bookings i

variable {t : TripTimes} {trip : Trip} {stops : List StopTime} {timeShift : Int}
  {arrivals departures : List Int} {i i' later : Interner}

/-- Two trips with one baseline differ at most in which instances their columns are. -/
theorem Lays.untagged_eq {u : TripTimes} (hu : u.Lays trip stops timeShift arrivals departures)
    (ht : t.Lays trip stops timeShift arrivals departures) : u.untagged = t.untagged := by
  have hheadsigns : u.headsigns.map (·.untagged) = t.headsigns.map (·.untagged) := by
    have hvalues := congrArg (Option.map (Shared.mk 0)) (hu.headsigns.trans ht.headsigns.symm)
    rw [Option.map_map, Option.map_map] at hvalues
    exact hvalues
  unfold untagged
  rw [hheadsigns]
  unfold Shared.untagged
  rw [hu.trip, hu.serviceCode, hu.timeShift, hu.arrivals, hu.departures, hu.sequences,
    hu.timepoints, hu.pickups, hu.dropoffs, hu.bookings, hu.overlay, hu.realtime, ht.trip,
    ht.serviceCode, ht.timeShift, ht.arrivals, ht.departures, ht.sequences, ht.timepoints,
    ht.pickups, ht.dropoffs, ht.bookings, ht.overlay, ht.realtime]

theorem HeldIn.mono (h : t.HeldIn i) (hle : i.Extends later) : t.HeldIn later where
  baseArrivals := h.baseArrivals.mono hle
  baseDepartures := h.baseDepartures.mono hle
  sequences := h.sequences.mono hle
  timepoints := h.timepoints.mono hle
  pickups := h.pickups.mono hle
  dropoffs := h.dropoffs.mono hle
  headsigns own hown := (h.headsigns own hown).mono hle
  bookings := h.bookings.mono hle

theorem run_shareHeadsigns_bind {β : Type} {good : β × Interner → Prop}
    {next : Option (Shared (List (Option String))) → StateM Interner β}
    (h : ∀ headsigns later, headsigns.map (·.value) =
        (if plainHeadsigns trip stops then none else some (stops.map (·.headsign))) →
      (∀ own, headsigns = some own → own.HeldIn .headsigns later) → i.Extends later →
      good ((next headsigns).run later)) : good ((shareHeadsigns trip stops >>= next).run i) := by
  unfold shareHeadsigns
  by_cases hplain : plainHeadsigns trip stops
  · rw [if_pos hplain] at h ⊢
    exact h none i rfl nofun (Interner.Extends.refl i)
  · rw [if_neg hplain] at h ⊢
    rw [bind_assoc]
    refine Interner.run_share_bind fun own later hvalue hheld hextends => ?_
    refine h (some own) later (congrArg some hvalue) ?_ hextends
    rintro _ ⟨⟩
    exact hheld

/-- A baseline was laid with an interner: the trip and the interner afterwards. -/
structure Laid (trip : Trip) (stops : List StopTime) (timeShift : Int)
    (arrivals departures : List Int) (i : Interner) (built : TripTimes × Interner) : Prop where
  lays : built.1.Lays trip stops timeShift arrivals departures
  held : built.1.HeldIn built.2
  later : i.Extends built.2

theorem laid_baseline (trip : Trip) (stops : List StopTime) (timeShift : Int)
    (arrivals departures : List Int) (i : Interner) :
    Laid trip stops timeShift arrivals departures i
      ((baseline trip stops timeShift arrivals departures).run i) := by
  unfold baseline
  refine run_shareHeadsigns_bind fun headsigns i₁ vheadsigns hheadsigns e₁ => ?_
  refine Interner.run_share_bind fun baseArrivals i₂ vbaseArrivals hbaseArrivals e₂ => ?_
  refine Interner.run_share_bind fun baseDepartures i₃ vbaseDepartures hbaseDepartures e₃ => ?_
  refine Interner.run_share_bind fun sequences i₄ vsequences hsequences e₄ => ?_
  refine Interner.run_share_bind fun timepoints i₅ vtimepoints htimepoints e₅ => ?_
  refine Interner.run_share_bind fun pickups i₆ vpickups hpickups e₆ => ?_
  refine Interner.run_share_bind fun dropoffs i₇ vdropoffs hdropoffs e₇ => ?_
  refine Interner.run_share_bind fun bookings i₈ vbookings hbookings e₈ => ?_
  -- what was held when it was asked for is held in the end
  have e₇ := e₇.trans e₈
  have e₆ := e₆.trans e₇
  have e₅ := e₅.trans e₆
  have e₄ := e₄.trans e₅
  have e₃ := e₃.trans e₄
  have e₂ := e₂.trans e₃
  refine ⟨?_, ?_, e₁.trans e₂⟩
  · exact ⟨vheadsigns, rfl, rfl, rfl, vbaseArrivals, vbaseDepartures, vsequences, vtimepoints,
      vpickups, vdropoffs, vbookings, rfl, rfl⟩
  · exact ⟨hbaseArrivals.mono e₃, hbaseDepartures.mono e₄, hsequences.mono e₅,
      htimepoints.mono e₆, hpickups.mono e₇, hdropoffs.mono e₈,
      fun own hown => (hheadsigns own hown).mono e₂, hbookings⟩

/-! ## Building again -/

/-- To lay a baseline that is held gives the same, and adds nothing. -/
theorem Lays.baseline_of_held (h : t.Lays trip stops timeShift arrivals departures)
    (hheld : t.HeldIn i) :
    ∃ hits, (baseline trip stops timeShift arrivals departures).run i = (t, { i with hits }) := by
  obtain ⟨hheadsigns, rfl, hcode, rfl, rfl, rfl, hsequences, htimepoints, hpickups, hdropoffs,
    hbookings, hoverlay, hrealtime⟩ := h
  unfold baseline
  rw [← hsequences, ← htimepoints, ← hpickups, ← hdropoffs, ← hbookings]
  -- the column of headsigns is asked for only where there is one
  obtain ⟨hits, hshare⟩ : ∃ hits, ∀ {β : Type}
      (next : Option (Shared (List (Option String))) → StateM Interner β),
      (shareHeadsigns t.trip stops >>= next).run i = (next t.headsigns).run { i with hits } := by
    unfold shareHeadsigns
    by_cases hplain : plainHeadsigns t.trip stops
    · rw [if_pos hplain] at hheadsigns ⊢
      rw [Option.map_eq_none_iff.mp hheadsigns]
      exact ⟨i.hits, fun _ => rfl⟩
    · rw [if_neg hplain] at hheadsigns ⊢
      obtain ⟨own, hown, hvalue⟩ := Option.map_eq_some_iff.mp hheadsigns
      refine ⟨i.hits + 1, fun next => ?_⟩
      rw [← hvalue, bind_assoc, hown]
      exact Interner.run_share_of_held (hheld.headsigns own hown) (fun own => next (some own)) i.hits
  rw [hshare, Interner.run_share_of_held hheld.baseArrivals,
    Interner.run_share_of_held hheld.baseDepartures, Interner.run_share_of_held hheld.sequences,
    Interner.run_share_of_held hheld.timepoints, Interner.run_share_of_held hheld.pickups,
    Interner.run_share_of_held hheld.dropoffs, Interner.run_share_of_held hheld.bookings]
  cases t
  cases hcode
  cases hoverlay
  cases hrealtime
  exact ⟨_, rfl⟩

/-- Of the trip only the headsign is looked at, and of the stop times all but the times. -/
theorem baseline_moved {trip' : Trip} (hheadsign : trip'.headsign = trip.headsign)
    (seconds timeShift' : Int) :
    baseline trip' (stops.map (·.moved seconds)) timeShift' arrivals departures =
      (fun t => { t with trip := trip', timeShift := timeShift' }) <$>
        baseline trip stops timeShift arrivals departures := by
  have hcolumn : ∀ {α : Type} (column : StopTime → α),
      (∀ st : StopTime, column (st.moved seconds) = column st) →
      (stops.map (·.moved seconds)).map column = stops.map column := by
    intro α column hkept
    rw [List.map_map]
    exact List.map_congr_left fun st _ => hkept st
  have hplain : plainHeadsigns trip' (stops.map (·.moved seconds)) = plainHeadsigns trip stops := by
    unfold plainHeadsigns
    rw [List.all_map, hheadsign]
    rfl
  have hheadsigns : shareHeadsigns trip' (stops.map (·.moved seconds)) =
      shareHeadsigns trip stops := by
    unfold shareHeadsigns
    rw [hplain, hcolumn (·.headsign) fun _ => rfl]
  unfold baseline
  simp only [map_bind, map_pure]
  rw [hheadsigns, hcolumn (·.sequence) fun _ => rfl, hcolumn (·.timepoint) fun _ => rfl,
    hcolumn (·.pickup) fun _ => rfl, hcolumn (·.dropoff) fun _ => rfl,
    hcolumn (·.booking) fun _ => rfl]

/-! ## Building -/

/-- Times of all stops, relative to a start. -/
def relative (time : StopTime → Int) (start : Int) (stops : List StopTime) :
    Outcome TripRefusal (List Int) :=
  stops.mapM fun st => (liftM (Checked.sub (time st) start) : Outcome TripRefusal Int)

theorem relative_moved {time : StopTime → Int} (seconds : Int)
    (htime : ∀ st : StopTime, time (st.moved seconds) = time st + seconds) (start : Int) :
    relative time (start + seconds) (stops.map (·.moved seconds)) = relative time start stops := by
  have hsub : ∀ st : StopTime, Checked.sub (time (st.moved seconds)) (start + seconds) =
      Checked.sub (time st) start := by
    intro st
    unfold Checked.sub
    rw [htime, Int.add_sub_add_right]
  unfold relative
  rw [List.mapM_map]
  refine congrArg (List.mapM · stops) (funext fun st => ?_)
  rw [Function.comp_apply, hsub]

/-- A trip is built where its times can be kept relative to its first arrival. -/
theorem build_eq_ok_iff :
    build trip stops i = .ok (t, i') ↔ ∃ first arrivals departures, stops.head? = some first ∧
      relative (·.arrival) first.arrival stops = .ok arrivals ∧
      relative (·.departure) first.arrival stops = .ok departures ∧
      (baseline trip stops first.arrival arrivals departures).run i = (t, i') := by
  cases stops with
  | nil =>
      constructor
      · intro h
        cases h
      · rintro ⟨_, _, _, hfirst, _⟩
        cases hfirst
  | cons first rest =>
      constructor
      · intro h
        obtain ⟨arrivals, harrivals, h⟩ := bind_eq_ok_iff.mp h
        obtain ⟨departures, hdepartures, h⟩ := bind_eq_ok_iff.mp h
        exact ⟨first, arrivals, departures, rfl, harrivals, hdepartures, Except.ok.inj h⟩
      · rintro ⟨_, arrivals, departures, ⟨⟩, harrivals, hdepartures, hrun⟩
        refine bind_eq_ok_iff.mpr ⟨arrivals, harrivals, ?_⟩
        refine bind_eq_ok_iff.mpr ⟨departures, hdepartures, ?_⟩
        exact congrArg Except.ok hrun

theorem laid_of_build (h : build trip stops i = .ok (t, i')) :
    ∃ first arrivals departures, stops.head? = some first ∧
      relative (·.arrival) first.arrival stops = .ok arrivals ∧
      relative (·.departure) first.arrival stops = .ok departures ∧
      Laid trip stops first.arrival arrivals departures i (t, i') := by
  obtain ⟨first, arrivals, departures, hfirst, harrivals, hdepartures, hrun⟩ := build_eq_ok_iff.mp h
  refine ⟨first, arrivals, departures, hfirst, harrivals, hdepartures, ?_⟩
  rw [← hrun]
  exact laid_baseline trip stops first.arrival arrivals departures i

/-- To build the same trip again gives the same, and no column is added. -/
theorem build_again (h : build trip stops i = .ok (t, i')) (hle : i'.Extends later) :
    ∃ hits, build trip stops later = .ok (t, { later with hits }) := by
  obtain ⟨first, arrivals, departures, hfirst, harrivals, hdepartures, hlaid⟩ := laid_of_build h
  obtain ⟨hits, hrun⟩ := hlaid.lays.baseline_of_held (hlaid.held.mono hle)
  exact ⟨hits, build_eq_ok_iff.mpr
    ⟨first, arrivals, departures, hfirst, harrivals, hdepartures, hrun⟩⟩

/-- With any interner the same is built, apart from which instances its columns are, and
with one that has held them since, the very same. -/
theorem build_alike (h : build trip stops i = .ok (t, i')) (other : Interner) :
    ∃ u other', build trip stops other = .ok (u, other') ∧ u.untagged = t.untagged ∧
      (i'.Extends other → u = t) := by
  obtain ⟨first, arrivals, departures, hfirst, harrivals, hdepartures, hlaid⟩ := laid_of_build h
  have hother := laid_baseline trip stops first.arrival arrivals departures other
  obtain ⟨u, other', hrun⟩ : ∃ u other',
      (baseline trip stops first.arrival arrivals departures).run other = (u, other') := ⟨_, _, rfl⟩
  rw [hrun] at hother
  have hbuild : build trip stops other = .ok (u, other') :=
    build_eq_ok_iff.mpr ⟨first, arrivals, departures, hfirst, harrivals, hdepartures, hrun⟩
  refine ⟨u, other', hbuild, hother.lays.untagged_eq hlaid.lays, fun hle => ?_⟩
  obtain ⟨hits, hagain⟩ := build_again h hle
  cases hbuild.symm.trans hagain
  rfl

/-- A trip that shows the same headsign, at stop times that are all moved by some
seconds, differs in its shift alone. -/
theorem build_moved (h : build trip stops i = .ok (t, i')) {trip' : Trip}
    (hheadsign : trip'.headsign = trip.headsign) (seconds : Int) :
    build trip' (stops.map (·.moved seconds)) i =
      .ok ({ t with trip := trip', timeShift := t.timeShift + seconds }, i') := by
  obtain ⟨first, arrivals, departures, hfirst, harrivals, hdepartures, hrun⟩ := build_eq_ok_iff.mp h
  have hshift : t.timeShift = first.arrival := by
    have hlaid := laid_baseline trip stops first.arrival arrivals departures i
    rw [hrun] at hlaid
    exact hlaid.lays.timeShift
  refine build_eq_ok_iff.mpr ⟨first.moved seconds, arrivals, departures, ?_, ?_, ?_, ?_⟩
  · rw [List.head?_map, hfirst]
    rfl
  · exact (relative_moved seconds (fun _ => rfl) first.arrival).trans harrivals
  · exact (relative_moved seconds (fun _ => rfl) first.arrival).trans hdepartures
  · rw [baseline_moved hheadsign, StateT.run_map, hrun, hshift]
    rfl

end TripTimes

end Journey
