import Journey.Proofs.Search.Limits
import Journey.Proofs.Timetable.Lifecycle

/-!
# Rides on canceled trips

Every stop of a canceled trip is at `Clock.unavailable`, one second before the
service day. The extender does not ask whether a time is available: it takes
this one for a time like any other, and what keeps a traveller off the trip is
that it has left.

**Statement** (`ride_of_canceled`): a ride between two positions of a canceled
trip is refused, with nothing recorded, exactly when it is barred
(`Extender.Barred`): when the positions do not follow each other, when the
traveller is at another stop, or when the traveller can board only after
`Clock.unavailable`. Nothing but an overflow of the slack that is added can stand
in for the refusal. Who arrives within the service day is always barred; who
is on the way before it is not, and is taken along to `Clock.unavailable`, at which
the trip also arrives: `earlyRiser_rides_canceled`.
-/

namespace Journey

/-! ## Canceled trips on their patterns -/

/-- The trip is closed at each stop of its pattern. -/
structure TimedTrip.Withdrawn (t : TimedTrip) : Prop where
  paired : t.pattern.stops.length = t.times.stopCount
  closed : t.times.Closed

namespace TimedTrip.Withdrawn

variable {t : TimedTrip}

theorem value_eq (h : t.Withdrawn) {position : Nat} (hlt : position < t.pattern.stops.length)
    {f : StopField} {value : f.Value} (hclosed : f.closed? = some value) :
    t.times.value f position = .ok value := by
  rw [h.paired] at hlt
  exact h.closed.value position hlt f value hclosed

theorem departure_eq (h : t.Withdrawn) {position : Nat}
    (hlt : position < t.pattern.stops.length) : t.departure position = .ok Clock.unavailable :=
  h.value_eq (f := .departure) hlt rfl

theorem arrival_eq (h : t.Withdrawn) {position : Nat}
    (hlt : position < t.pattern.stops.length) : t.arrival position = .ok Clock.unavailable :=
  h.value_eq (f := .arrival) hlt rfl

end TimedTrip.Withdrawn

/-- Whatever else is tried on a trip that is canceled, on its pattern it is withdrawn. -/
theorem TripTimes.withdrawn_of_tryAll {trip : Trip} {stops : List StopTime}
    {interner interner' : Interner} {start times : TripTimes} {changes accepted : List Change}
    {pattern : Pattern} {t : TimedTrip}
    (hbuild : build trip stops interner = .ok (start, interner'))
    (htry : Change.tryAll [] changes start = .ok (times, accepted))
    (hcanceled : times.isCanceled = true) (hpair : TimedTrip.pair pattern times = .ok t) :
    t.Withdrawn := by
  have hreflects := (reflects_of_build hbuild).tryAll htry
  unfold TimedTrip.pair at hpair
  split at hpair
  · rename_i hpaired
    cases hpair
    exact ⟨hpaired, hreflects.closed_of_canceled hcanceled⟩
  · cases hpair

namespace Extender

variable {x : Extender} {a : Arrival} {p : Pattern}

/-! ## Rides -/

/-- A ride on a canceled trip is refused: the positions are the wrong way round,
the traveller is at another stop, or the trip has left. -/
def Barred (x : Extender) (a : Arrival) (p : Pattern) (board alight : Nat) : Prop :=
  alight ≤ board ∨ p.stops[board]? ≠ some a.stop ∨ Clock.unavailable < x.boardable a p

/-- Within the service day a canceled trip has always left. -/
theorem barred_of_nonneg (hslack : x.slack.Nonnegative) (htime : 0 ≤ a.time) (p : Pattern)
    (board alight : Nat) : x.Barred a p board alight := by
  have hfree := time_le_free hslack a
  have hboardable := free_le_boardable hslack a p
  refine .inr (.inr ?_)
  unfold Clock.unavailable
  omega

/-- The ride has been taken: the traveller gets off when the trip is unavailable. -/
def Boards (x : Extender) (arena arena' : Arena) (last : Nat) (a : Arrival)
    (trip : Shared TimedTrip) (board alight id : Nat) : Prop :=
  ∃ after, x.RidesTo a trip board alight Clock.unavailable after ∧
    after.time = Clock.unavailable ∧ arena'.history id = after :: arena.history last

theorem rideFrom_of_other_stop {t : TimedTrip} {board alight : Nat}
    (hboard : board < t.pattern.stops.length) (halight : alight < t.pattern.stops.length)
    (hother : t.pattern.stops[board] ≠ a.stop) :
    x.rideFrom a t board alight =
      Outcome.refuse (.wrongBoardStop a.stop t.pattern.stops[board]) := by
  have hread : ∀ {position : Nat} (hlt : position < t.pattern.stops.length),
      t.pattern.stopAt position = .ok t.pattern.stops[position] :=
    fun hlt => Checked.get_eq_ok_iff.mpr (List.getElem?_eq_getElem hlt)
  unfold rideFrom
  rw [hread hboard, hread halight]
  show (if t.pattern.stops[board] ≠ a.stop then _ else _) = _
  rw [if_pos hother]

/-- Where the traveller is at the stop, a canceled trip leads on from the time at which it is
unavailable to the same time. -/
theorem leads_of_withdrawn {t : TimedTrip} (ht : t.Withdrawn) {board alight : Nat}
    (hforward : board < alight) (halight : alight < t.pattern.stops.length)
    (hstop : t.pattern.stops[board]? = some a.stop) :
    Leads t board alight a.stop t.pattern.stops[alight] Clock.unavailable Clock.unavailable where
  forward := hforward
  boardStop := Checked.get_eq_ok_iff.mpr hstop
  alightStop := Checked.get_eq_ok_iff.mpr (List.getElem?_eq_getElem halight)
  departs := ht.departure_eq (Nat.lt_trans hforward halight)
  arrives := ht.arrival_eq halight

section

variable {arena : Arena} {last board alight : Nat} {trip : Shared TimedTrip}

/-- A ride that is barred is refused, unless slack that is added overflows before. -/
theorem ride_of_barred (ha : arena.get last = .ok a) (ht : trip.value.Withdrawn)
    (hboard : board < trip.value.pattern.stops.length)
    (halight : alight < trip.value.pattern.stops.length)
    (hbarred : x.Barred a trip.value.pattern board alight) :
    Ends (fun out => out.1 = arena ∧ ∃ reason, out.2 = .error reason)
      (Fault.OverflowsUnless (x.BoardingFits a trip.value.pattern))
      (x.ride arena last trip board alight) := by
  by_cases hback : alight ≤ board
  · unfold ride
    rw [if_pos hback]
    exact ⟨rfl, _, rfl⟩
  · have hforward : board < alight := Nat.lt_of_not_le hback
    by_cases hstop : trip.value.pattern.stops[board] = a.stop
    · have hhere : trip.value.pattern.stops[board]? = some a.stop := by
        rw [List.getElem?_eq_getElem hboard, hstop]
      have hleft : Clock.unavailable < x.boardable a trip.value.pattern :=
        (hbarred.resolve_left hback).resolve_left (not_not.mpr hhere)
      refine (ride_exactly_of_missed ha (leads_of_withdrawn ht hforward halight hhere) hleft).mono
        ?_ fun _ hf => hf
      rintro _ ⟨rfl, _⟩
      exact ⟨rfl, _, rfl⟩
    · rw [ride_eq_conclude ha hforward, rideFrom_of_other_stop hboard halight hstop]
      exact ⟨rfl, _, rfl⟩

/-- A ride that is not barred is not refused. -/
theorem ridden_of_not_barred (ha : arena.get last = .ok a) (ht : trip.value.Withdrawn)
    (halight : alight < trip.value.pattern.stops.length)
    (hopen : ¬ x.Barred a trip.value.pattern board alight) :
    Ends (fun out => ∃ id, out.2 = .ok id) x.Exceeds (x.ride arena last trip board alight) := by
  simp only [Barred, not_or, not_not] at hopen
  obtain ⟨hforward, hstop, honTime⟩ := hopen
  have hleads := leads_of_withdrawn ht (Nat.lt_of_not_le hforward) halight hstop
  exact x.ride_ends_of_caught ha hleads (Int.not_lt.mp honTime)

/-- A ride that is taken on a canceled trip is taken at the time at which it is unavailable. -/
theorem boards_of_ridden (ha : arena.get last = .ok a) (ht : trip.value.Withdrawn)
    (hboard : board < trip.value.pattern.stops.length)
    (halight : alight < trip.value.pattern.stops.length) {arena' : Arena} {id : Nat}
    (hride : x.ride arena last trip board alight = .ok (arena', .ok id)) :
    x.Boards arena arena' last a trip board alight id := by
  obtain ⟨before, after, boardTime, hbefore, hrides, hhistory⟩ := history_of_ridden hride
  obtain rfl : a = before := Except.ok.inj (ha.symm.trans hbefore)
  obtain rfl : boardTime = Clock.unavailable :=
    Except.ok.inj (hrides.departs.2.symm.trans (ht.departure_eq hboard))
  have htime : after.time = Clock.unavailable :=
    Except.ok.inj (hrides.arrives.2.symm.trans (ht.arrival_eq halight))
  exact ⟨after, hrides, htime, hhistory⟩

theorem ride_of_withdrawn (x : Extender) (ha : arena.get last = .ok a)
    (ht : trip.value.Withdrawn) (hboard : board < trip.value.pattern.stops.length)
    (halight : alight < trip.value.pattern.stops.length) :
    Ends (fun out =>
        (x.Barred a trip.value.pattern board alight ∧ out.1 = arena ∧
          ∃ reason, out.2 = .error reason) ∨
        (¬ x.Barred a trip.value.pattern board alight ∧
          ∃ id, out.2 = .ok id ∧ x.Boards arena out.1 last a trip board alight id))
      (fun f => x.Barred a trip.value.pattern board alight →
        f.OverflowsUnless (x.BoardingFits a trip.value.pattern))
      (x.ride arena last trip board alight) := by
  by_cases hbarred : x.Barred a trip.value.pattern board alight
  · exact (ride_of_barred ha ht hboard halight hbarred).mono
      (fun _ hrefused => .inl ⟨hbarred, hrefused⟩) fun _ hf _ => hf
  · have hends := ridden_of_not_barred ha ht halight hbarred
    cases hride : x.ride arena last trip board alight with
    | error f => exact fun hb => absurd hb hbarred
    | ok out =>
        rw [hride] at hends
        obtain ⟨arena', ridden⟩ := out
        obtain ⟨id, rfl⟩ := hends
        exact .inr ⟨hbarred, id, rfl, boards_of_ridden ha ht hboard halight hride⟩

end

/-! ## Main statement -/

theorem ride_of_canceled {service : Trip} {stops : List StopTime} {interner interner' : Interner}
    {start times : TripTimes} {changes accepted : List Change} {pattern : Pattern}
    {trip : Shared TimedTrip} {arena : Arena} {last board alight : Nat}
    (hbuild : TripTimes.build service stops interner = .ok (start, interner'))
    (htry : Change.tryAll [] changes start = .ok (times, accepted))
    (hcanceled : times.isCanceled = true) (hpair : TimedTrip.pair pattern times = .ok trip.value)
    (hslack : x.slack.Nonnegative) (ha : arena.get last = .ok a)
    (hboard : board < trip.value.pattern.stops.length)
    (halight : alight < trip.value.pattern.stops.length) :
    (0 ≤ a.time → x.Barred a trip.value.pattern board alight) ∧
    Ends (fun out =>
        (x.Barred a trip.value.pattern board alight ∧ out.1 = arena ∧
          ∃ reason, out.2 = .error reason) ∨
        (¬ x.Barred a trip.value.pattern board alight ∧
          ∃ id, out.2 = .ok id ∧ x.Boards arena out.1 last a trip board alight id))
      (fun f => x.Barred a trip.value.pattern board alight →
        f.OverflowsUnless (x.BoardingFits a trip.value.pattern))
      (x.ride arena last trip board alight) := by
  have hwithdrawn := TripTimes.withdrawn_of_tryAll hbuild htry hcanceled hpair
  exact ⟨fun htime => barred_of_nonneg hslack htime _ board alight,
    x.ride_of_withdrawn ha hwithdrawn hboard halight⟩

/-- A morning bus over two stops. -/
def morning : List StopTime :=
  [{ arrival := 28800, departure := 28800, sequence := 1 },
   { arrival := 29400, departure := 29400, sequence := 2 }]

/-- It is canceled, and whoever waits for it is told that it has left. -/
theorem morning_turns_away :
    ∃ start interner times trip arena last, TripTimes.build { id := "M" } morning {} =
        .ok (start, interner) ∧
      Change.tryAll [] [.departureDelay 1 60, .cancel, .recorded 0 true] start =
        .ok (times, [.cancel, .departureDelay 1 60]) ∧
      TimedTrip.pair { mode := .bus, route := "M", stops := [1, 2] } times = .ok trip.value ∧
      unhurried.access {} 28000 { stop := 1, duration := 300 } = .ok (arena, last) ∧
      ∃ arena' reason, unhurried.ride arena last trip 0 1 = .ok (arena', .error reason) ∧
        arena' = arena := by
  have hruns : ∃ start interner times trip arena last a out,
      TripTimes.build { id := "M" } morning {} = .ok (start, interner) ∧
      Change.tryAll [] [.departureDelay 1 60, .cancel, .recorded 0 true] start =
        .ok (times, [.cancel, .departureDelay 1 60]) ∧ times.isCanceled = true ∧
      TimedTrip.pair { mode := .bus, route := "M", stops := [1, 2] } times = .ok trip.value ∧
      trip.value.pattern.stops.length = 2 ∧
      unhurried.access {} 28000 { stop := 1, duration := 300 } = .ok (arena, last) ∧
      arena.get last = .ok a ∧ a.time = 28300 ∧
      unhurried.ride arena last trip 0 1 = .ok out :=
    ⟨_, _, _, { tag := 0, value := _ }, _, _, _, _, rfl, rfl, rfl, rfl, rfl, rfl, rfl, rfl, rfl⟩
  obtain ⟨start, interner, times, trip, arena, last, a, ⟨arena', ridden⟩, hbuild, htry, hcanceled,
    hpair, hstops, haccess, ha, htime, hride⟩ := hruns
  have hboard : 0 < trip.value.pattern.stops.length := by omega
  have halight : 1 < trip.value.pattern.stops.length := by omega
  obtain ⟨hbarred, hends⟩ := ride_of_canceled hbuild htry hcanceled hpair
    unhurried_slack_nonnegative ha hboard halight
  rw [hride] at hends
  rcases hends with ⟨_, harena, reason, hreason⟩ | ⟨hopen, _⟩
  · cases hreason
    exact ⟨start, interner, times, trip, arena, last, hbuild, htry, hpair, haccess, arena', reason,
      hride, harena⟩
  · exact absurd (hbarred (by omega)) hopen

/-- Who sets out before the service day rides it, from one second before the day to
the same second. -/
theorem earlyRiser_rides_canceled :
    ∃ start interner times trip arena last arena' id after,
      TripTimes.build { id := "M" } morning {} = .ok (start, interner) ∧
      Change.tryAll [] [.cancel] start = .ok (times, [.cancel]) ∧ times.isCanceled = true ∧
      TimedTrip.pair { mode := .bus, route := "M", stops := [1, 2] } times = .ok trip.value ∧
      unhurried.access {} (-100) { stop := 1, duration := 0 } = .ok (arena, last) ∧
      unhurried.ride arena last trip 0 1 = .ok (arena', .ok id) ∧ arena' ≠ arena ∧
      arena'.get id = .ok after ∧ after.stop = 2 ∧ after.time = Clock.unavailable :=
  ⟨_, _, _, { tag := 0, value := _ }, _, _, _, _, _, rfl, rfl, rfl, rfl, rfl, rfl, by decide, rfl,
    rfl, rfl⟩

end Extender

end Journey
