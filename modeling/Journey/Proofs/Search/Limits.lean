import Journey.Cost.Model
import Journey.Proofs.Search.Trail

/-!
# Where legs overflow

Nothing in a leg can go wrong but arithmetic, and a refusal. Each leg gives what it
should exactly where its numbers fit (`Checked.Exactly`), which follows from the
same of its times (`available_exactly`, `earliest_exactly`), its charge
(`CostRates.rideCost_exactly`) and the operations in between.

* **walks**: `access_exactly`, `transfer_exactly`, `egress_exactly`;
* **rides**: a ride that is missed is refused (`ride_exactly_of_missed`) and one
  that is caught is appended (`ride_exactly_of_caught`). `step_ends` tells the two
  apart in one statement, and both from an overflow (`Hinders`).

This is for legs that have a charge. A cost model that has none for some legs adds its
own faults to those of the arithmetic (`Exceeds`), and no refusal
(`ride_ends_of_caught`).
-/

namespace Journey

theorem inRange_of_nonneg {n : Int} (hn : 0 ≤ n) (hle : n ≤ maxInt) : InRange n := by
  unfold InRange minInt
  omega

open Checked

/-! ## Charges -/

namespace CostRates

/-- What both stops of a ride cost. -/
def stopsCost (r : CostRates) (boardStop alightStop : Nat) : Int :=
  r.stopCost boardStop + r.stopCost alightStop

theorem rideCost_exactly (r : CostRates) (first : Bool) (boardStop : Nat) (wait ride : Int)
    (alightStop : Nat) :
    Exactly
      (InRange (r.stopsCost boardStop alightStop) ∧
        InRange (r.stopsCost boardStop alightStop + Cost.ofSeconds (r.rideSeconds first wait ride)))
      (r.stopsCost boardStop alightStop + Cost.ofSeconds (r.rideSeconds first wait ride))
      (r.rideCost first boardStop wait ride alightStop) :=
  (add_exactly _ _).bind (add_exactly _ _)

end CostRates

/-- The cost model stops with this fault on some leg. -/
def CostModel.Faults (m : CostModel) (f : Fault) : Prop :=
  (∃ duration, m.walk duration = .error f) ∨
    ∃ first boardStop wait aboard alightStop,
      m.ride first boardStop wait aboard alightStop = .error f

/-- Rates stop at nothing but a sum that is out of range. -/
theorem CostRates.isOverflow_of_faults {r : CostRates} {f : Fault} (h : r.model.Faults f) :
    f.IsOverflow := by
  rcases h with ⟨_, hwalk⟩ | ⟨first, boardStop, wait, aboard, alightStop, hride⟩
  · cases hwalk
  · have hends := r.rideCost_exactly first boardStop wait aboard alightStop
    rw [show r.rideCost first boardStop wait aboard alightStop = .error f from hride] at hends
    exact hends.1

namespace Extender

variable {x : Extender} {arena : Arena} {last : Nat} {a : Arrival}

/-! ## Walks -/

theorem stroll_exactly {duration cost : Int} (hcost : x.cost.walk duration = .ok cost)
    (fromTime : Int) :
    Exactly (InRange (fromTime + duration)) { fromTime, toTime := fromTime + duration, cost }
      (x.stroll fromTime duration) :=
  ((add_exactly fromTime duration).bind ((exactly_of_ok hcost).map _)).congr
    (and_iff_left trivial)

theorem access_exactly {w : Walk} {cost : Int} (hcost : x.cost.walk w.duration = .ok cost)
    (arena : Arena) (departure : Int) :
    Exactly (InRange (departure + w.duration))
      (arena.access w.stop departure (departure + w.duration) cost)
      (x.access arena departure w) :=
  (stroll_exactly hcost departure).map _

/-- The arrival that a walk adds behind another. -/
def afterWalk (x : Extender) (a : Arrival) (last : Nat) (w : Walk) (cost : Int) : Arrival where
  round := a.round
  stop := w.stop
  time := x.free a + w.duration
  cost := a.cost + cost
  previous := some last
  how := .transfer (x.free a)

theorem transfer_exactly {w : Walk} {cost : Int} (ha : arena.get last = .ok a)
    (hcost : x.cost.walk w.duration = .ok cost) :
    Exactly (x.FreeFits a ∧ InRange (x.free a + w.duration) ∧ InRange (a.cost + cost))
      (arena.record (x.afterWalk a last w cost)) (x.transfer arena last w) := by
  have hrecord : Exactly (InRange (a.cost + cost)) (arena.record (x.afterWalk a last w cost))
      (arena.transfer a.round w.stop (x.free a) (x.free a + w.duration) cost last) := by
    unfold Arena.transfer
    rw [ha]
    exact (add_exactly a.cost cost).map _
  unfold transfer
  rw [ha]
  exact (available_exactly x a).bind ((stroll_exactly hcost (x.free a)).bind hrecord)

/-- The egress that completes the chain of an arrival. -/
def completion (x : Extender) (a : Arrival) (last : Nat) (duration cost : Int) : Egress where
  round := a.round
  fromTime := x.free a
  time := x.free a + duration
  cost := a.cost + cost
  previous := last

theorem egress_exactly {duration cost : Int} (ha : arena.get last = .ok a)
    (hcost : x.cost.walk duration = .ok cost) :
    Exactly (x.FreeFits a ∧ InRange (x.free a + duration) ∧ InRange (a.cost + cost))
      ({ arena with egresses := x.completion a last duration cost :: arena.egresses },
        arena.egresses.length)
      (x.egress arena last duration) := by
  have hrecord : Exactly (InRange (a.cost + cost))
      ({ arena with egresses := x.completion a last duration cost :: arena.egresses },
        arena.egresses.length)
      (arena.egress (x.free a) (x.free a + duration) cost last) := by
    unfold Arena.egress
    rw [ha]
    exact (add_exactly a.cost cost).map _
  unfold egress
  rw [ha]
  exact (available_exactly x a).bind ((stroll_exactly hcost (x.free a)).bind hrecord)

/-! ## Rides -/

/-- A trip leads from a stop to another, between two positions and two times. -/
structure Leads (t : TimedTrip) (board alight boardStop alightStop : Nat)
    (boardTime alightTime : Int) : Prop where
  forward : board < alight
  boardStop : t.pattern.stopAt board = .ok boardStop
  alightStop : t.pattern.stopAt alight = .ok alightStop
  departs : t.departure board = .ok boardTime
  arrives : t.arrival alight = .ok alightTime

/-- The numbers of a ride are in range: what is waited and ridden, what it is charged,
where `fits` says so of the charge, and the boardings. -/
structure RideFits (x : Extender) (a : Arrival) (p : Pattern) (boardTime alightTime : Int)
    (fits : Prop) : Prop where
  waiting : InRange (boardTime - x.free a)
  wait : InRange (boardTime - x.free a + x.slack.alight p)
  aboard : InRange (alightTime - boardTime)
  charge : fits
  round : a.round + 1 < roundLimit

variable {t : TimedTrip} {trip : Shared TimedTrip} {board alight alightStop : Nat}
  {boardTime alightTime charge : Int} {fits : Prop}

theorem rideOf_exactly {p : Pattern}
    (hcharge : Exactly fits charge (x.cost.ride (a.kind == .access) a.stop
      (boardTime - x.free a + x.slack.alight p) (alightTime - boardTime) alightStop)) :
    Exactly (x.RideFits a p boardTime alightTime fits)
      { round := a.round + 1, alightStop, alightTime, boardTime
        wait := boardTime - x.free a + x.slack.alight p, aboard := alightTime - boardTime
        cost := charge }
      (x.rideOf a p a.stop alightStop (x.free a) boardTime alightTime) := by
  refine Exactly.congr ((sub_exactly _ _).bind ((add_exactly _ _).bind ((sub_exactly _ _).bind
    (hcharge.bind ((next_exactly _ _).map _))))) ⟨?_, ?_⟩
  · exact fun ⟨hwaiting, hwait, haboard, hcharge, hround⟩ =>
      ⟨hwaiting, hwait, haboard, hcharge, hround⟩
  · exact fun h => ⟨h.waiting, h.wait, h.aboard, h.charge, h.round⟩

/-- Before a ride is appended or refused, only slack is added. -/
theorem rideFrom_eq (hleads : Leads t board alight a.stop alightStop boardTime alightTime) :
    x.rideFrom a t board alight =
      (liftM (x.available a) : Outcome RideRefusal Int) >>= fun available =>
        (liftM (x.earliest a available t.pattern) : Outcome RideRefusal Int) >>= fun earliest =>
          if boardTime < earliest then
            Outcome.refuse (.missedBoarding a.stop boardTime earliest)
          else liftM (x.rideOf a t.pattern a.stop alightStop available boardTime alightTime) := by
  unfold rideFrom
  rw [hleads.boardStop, hleads.alightStop, hleads.departs, hleads.arrives]
  show (if a.stop ≠ a.stop then _ else _) = _
  rw [if_neg (not_not.mpr rfl)]
  rfl

/-- What comes of a ride that was tried from an arrival. -/
def conclude (arena : Arena) (last : Nat) (trip : Shared TimedTrip) :
    Outcome RideRefusal Ride → Checked (Arena × Except RideRefusal Nat)
  | .error (.fault f) => .error f
  | .error (.refused refusal) => .ok (arena, .error refusal)
  | .ok leg =>
    arena.ride leg.round leg.alightStop leg.alightTime leg.boardTime leg.cost trip last >>=
      fun out => .ok (out.1, .ok out.2)

theorem ride_eq_conclude (ha : arena.get last = .ok a) (hforward : board < alight) :
    x.ride arena last trip board alight =
      conclude arena last trip (x.rideFrom a trip.value board alight) := by
  unfold ride
  rw [if_neg (Nat.not_le.mpr hforward), ha]
  cases hfrom : x.rideFrom a trip.value board alight with
  | error failure => cases failure <;> simp only [bind, Except.bind, hfrom] <;> rfl
  | ok leg =>
      simp only [bind, Except.bind, hfrom]
      rfl

theorem conclude_bind {α : Type} (arena : Arena) (last : Nat) (trip : Shared TimedTrip)
    (y : Checked α) (f : α → Outcome RideRefusal Ride) :
    conclude arena last trip ((liftM y : Outcome RideRefusal α) >>= f) =
      y >>= fun v => conclude arena last trip (f v) := by
  cases y <;> rfl

/-- A ride from the stop of an arrival, as a computation that can only overflow. -/
theorem ride_eq (ha : arena.get last = .ok a)
    (hleads : Leads trip.value board alight a.stop alightStop boardTime alightTime) :
    x.ride arena last trip board alight = x.available a >>= fun available =>
      x.earliest a available trip.value.pattern >>= fun earliest =>
        if boardTime < earliest then
          .ok (arena, .error (.missedBoarding a.stop boardTime earliest))
        else
          x.rideOf a trip.value.pattern a.stop alightStop available boardTime alightTime >>=
            fun leg => conclude arena last trip (.ok leg) := by
  rw [ride_eq_conclude ha hleads.forward, rideFrom_eq hleads, conclude_bind]
  refine congrArg _ (funext fun available => ?_)
  rw [conclude_bind]
  refine congrArg _ (funext fun earliest => ?_)
  rw [apply_ite (conclude arena last trip)]
  refine congrArg _ ?_
  cases x.rideOf a trip.value.pattern a.stop alightStop available boardTime alightTime <;> rfl

theorem ride_exactly_of_missed (ha : arena.get last = .ok a)
    (hleads : Leads trip.value board alight a.stop alightStop boardTime alightTime)
    (hmissed : boardTime < x.boardable a trip.value.pattern) :
    Exactly (x.BoardingFits a trip.value.pattern)
      (arena, .error (.missedBoarding a.stop boardTime (x.boardable a trip.value.pattern)))
      (x.ride arena last trip board alight) := by
  rw [ride_eq ha hleads]
  refine Exactly.congr ((available_exactly x a).bind ((earliest_exactly x a _).bind ?_))
    ⟨?_, fun h => ⟨h.free, ⟨h.boarding, h.change⟩, trivial⟩⟩
  · rw [if_pos hmissed]
    exact ok_exactly _
  · exact fun ⟨hfree, ⟨hboarding, hchange⟩, _⟩ => ⟨hfree, hboarding, hchange⟩

/-- The arrival that a ride adds behind another. -/
def afterRide (a : Arrival) (last : Nat) (trip : Shared TimedTrip) (alightStop : Nat)
    (boardTime alightTime charge : Int) : Arrival where
  round := a.round + 1
  stop := alightStop
  time := alightTime
  cost := a.cost + charge
  previous := some last
  how := .transit a.stop boardTime trip

theorem ride_exactly_of_caught (ha : arena.get last = .ok a)
    (hleads : Leads trip.value board alight a.stop alightStop boardTime alightTime)
    (hcharge : Exactly fits charge (x.cost.ride (a.kind == .access) a.stop
      (boardTime - x.free a + x.slack.alight trip.value.pattern) (alightTime - boardTime)
      alightStop))
    (hcaught : x.boardable a trip.value.pattern ≤ boardTime) :
    Exactly (x.BoardingFits a trip.value.pattern ∧
        x.RideFits a trip.value.pattern boardTime alightTime fits ∧ InRange (a.cost + charge))
      ((arena.record (afterRide a last trip alightStop boardTime alightTime charge)).1,
        .ok arena.arrivals.length)
      (x.ride arena last trip board alight) := by
  have hrecord : Exactly (InRange (a.cost + charge))
      (arena.record (afterRide a last trip alightStop boardTime alightTime charge))
      (arena.ride (a.round + 1) alightStop alightTime boardTime charge trip last) := by
    unfold Arena.ride
    rw [ha]
    exact (add_exactly a.cost charge).map _
  rw [ride_eq ha hleads]
  refine Exactly.congr ((available_exactly x a).bind ((earliest_exactly x a _).bind ?_))
    ⟨?_, fun h => ⟨h.1.free, ⟨h.1.boarding, h.1.change⟩, h.2⟩⟩
  · rw [if_neg (Int.not_lt.mpr hcaught)]
    exact (rideOf_exactly hcharge).bind (hrecord.map _)
  · exact fun ⟨hfree, ⟨hboarding, hchange⟩, hrest⟩ => ⟨⟨hfree, hboarding, hchange⟩, hrest⟩

/-! ## Boarding from a walk or from a ride -/

theorem isTransit_eq (a : Arrival) : a.isTransit = a.trip?.isSome := by
  obtain ⟨round, stop, time, cost, previous, how⟩ := a
  cases how <;> rfl

theorem free_of_trip_eq_none (h : a.trip? = none) : x.free a = a.time := by
  unfold free
  rw [h]

theorem free_of_trip_eq_some (h : a.trip? = some trip) :
    x.free a = a.time + x.slack.alight trip.value.pattern := by
  unfold free
  rw [h]

theorem boardable_of_walk (h : a.trip? = none) (p : Pattern) :
    x.boardable a p = a.time + x.slack.board p := by
  unfold boardable
  rw [isTransit_eq, h, free_of_trip_eq_none h]
  rfl

theorem boardable_of_ride (h : a.trip? = some trip) (p : Pattern) :
    x.boardable a p = max (a.time + x.slack.alight trip.value.pattern + x.slack.board p)
      (a.time + x.slack.transfer) := by
  unfold boardable
  rw [isTransit_eq, h, free_of_trip_eq_some h]
  rfl

theorem boardingFits_of_walk (h : a.trip? = none) (p : Pattern) :
    x.BoardingFits a p ↔ InRange (a.time + x.slack.board p) := by
  have htransit := isTransit_eq a
  rw [h] at htransit
  constructor
  · intro hfits
    have hboarding := hfits.boarding
    rwa [free_of_trip_eq_none h] at hboarding
  · intro hrange
    refine ⟨fun hsome => ?_, ?_, fun hride => ?_⟩
    · rw [h] at hsome
      cases hsome
    · rwa [free_of_trip_eq_none h]
    · rw [htransit] at hride
      cases hride

theorem boardingFits_of_ride (h : a.trip? = some trip) (p : Pattern) :
    x.BoardingFits a p ↔ InRange (a.time + x.slack.alight trip.value.pattern) ∧
      InRange (a.time + x.slack.alight trip.value.pattern + x.slack.board p) ∧
        InRange (a.time + x.slack.transfer) := by
  have htransit := isTransit_eq a
  rw [h] at htransit
  rw [← free_of_trip_eq_some h]
  constructor
  · intro hfits
    exact ⟨hfits.free (by rw [h]; rfl), hfits.boarding, hfits.change htransit⟩
  · rintro ⟨hfree, hboarding, hchange⟩
    exact ⟨fun _ => hfree, hboarding, fun _ => hchange⟩

/-! ## Steps -/

/-- What keeps a ride from being appended: slack or its own numbers do not fit, or it
is missed. -/
def Hinders (x : Extender) (a : Arrival) (p : Pattern) (boardTime : Int) (fits : Prop) :
    Failure RideRefusal → Prop
  | .refused _ => x.BoardingFits a p ∧ boardTime < x.boardable a p
  | .fault f =>
    f.IsOverflow ∧ (¬ x.BoardingFits a p ∨ x.boardable a p ≤ boardTime ∧ ¬ fits)

/-- A ride is appended where it is caught and its numbers are in range. -/
theorem step_ends (ha : arena.get last = .ok a)
    (hleads : Leads trip.value board alight a.stop alightStop boardTime alightTime)
    (hcharge : Exactly fits charge (x.cost.ride (a.kind == .access) a.stop
      (boardTime - x.free a + x.slack.alight trip.value.pattern) (alightTime - boardTime)
      alightStop)) :
    Ends
      (fun out =>
        out = arena.record (afterRide a last trip alightStop boardTime alightTime charge) ∧
        x.boardable a trip.value.pattern ≤ boardTime ∧
        x.RideFits a trip.value.pattern boardTime alightTime fits ∧ InRange (a.cost + charge))
      (x.Hinders a trip.value.pattern boardTime
        (x.RideFits a trip.value.pattern boardTime alightTime fits ∧ InRange (a.cost + charge)))
      ((Plan.Step.ride trip board alight).run x arena last) := by
  by_cases hcaught : x.boardable a trip.value.pattern ≤ boardTime
  · refine Ends.bind (Ends.ofChecked (Ends.mono (ride_exactly_of_caught ha hleads hcharge hcaught)
      (fun _ h => h) fun f ⟨hoverflow, hnot⟩ => ?_)) ?_
    · exact ⟨hoverflow, (not_and_or.mp hnot).imp_right fun h => ⟨hcaught, h⟩⟩
    · rintro _ ⟨rfl, _, hfits⟩
      exact ⟨rfl, hcaught, hfits⟩
  · have hmissed : boardTime < x.boardable a trip.value.pattern := Int.not_le.mp hcaught
    refine Ends.bind (Ends.ofChecked (Ends.mono (ride_exactly_of_missed ha hleads hmissed)
      (fun _ h => h) fun f ⟨hoverflow, hnot⟩ => ?_)) ?_
    · exact ⟨hoverflow, .inl hnot⟩
    · rintro _ ⟨rfl, hfits⟩
      exact ⟨hfits, hmissed⟩

/-- Of a ride that is caught, the wait is the only time that can be too long. -/
theorem rideFits_iff {p : Pattern} (hslack : x.slack.Nonnegative)
    (hcaught : x.boardable a p ≤ boardTime) (haboard : InRange (alightTime - boardTime))
    (hround : a.round + 1 < roundLimit) :
    x.RideFits a p boardTime alightTime fits ↔
      boardTime - x.free a + x.slack.alight p ≤ maxInt ∧ fits := by
  have hfree := free_le_boardable hslack a p
  have halight := hslack.2.1 p
  constructor
  · exact fun h => ⟨h.wait.2, h.charge⟩
  · rintro ⟨hwait, hfits⟩
    exact ⟨inRange_of_nonneg (by omega) (by omega), inRange_of_nonneg (by omega) hwait, haboard,
      hfits, hround⟩

/-! ## Under any cost model -/

/-- A number is out of range, or the cost model has no answer. -/
def Exceeds (x : Extender) (f : Fault) : Prop := f.IsOverflow ∨ x.cost.Faults f

/-- What can only overflow gives its value, or exceeds. -/
theorem ends_of_exactly {α : Type} {fits : Prop} {value : α} {c : Checked α} (x : Extender)
    (h : Exactly fits value c) : Ends (· = value) x.Exceeds c :=
  h.ends (fun _ => rfl) fun _ _ hoverflow => .inl hoverflow

theorem stroll_ends (x : Extender) (fromTime duration : Int) :
    Ends (fun _ => True) x.Exceeds (x.stroll fromTime duration) := by
  refine Ends.bind (x.ends_of_exactly (add_exactly _ _)) fun _ _ => ?_
  refine Ends.bind_cases (fun f hf => ?_) fun _ _ => trivial
  exact .inr (.inl ⟨duration, hf⟩)

theorem access_ends (x : Extender) (arena : Arena) (departure : Int) (w : Walk) :
    Ends (fun _ => True) x.Exceeds (x.access arena departure w) :=
  Ends.bind (x.stroll_ends departure w.duration) fun _ _ => trivial

theorem transfer_ends (x : Extender) (ha : arena.get last = .ok a) (w : Walk) :
    Ends (fun _ => True) x.Exceeds (x.transfer arena last w) := by
  refine Ends.bind_of_ok ha ?_
  refine Ends.bind (x.ends_of_exactly (x.available_exactly a)) fun _ _ => ?_
  refine Ends.bind (x.stroll_ends _ _) fun _ _ => ?_
  refine Ends.bind_of_ok ha ?_
  exact Ends.bind (x.ends_of_exactly (add_exactly _ _)) fun _ _ => trivial

theorem egress_ends (x : Extender) (ha : arena.get last = .ok a) (duration : Int) :
    Ends (fun _ => True) x.Exceeds (x.egress arena last duration) := by
  refine Ends.bind_of_ok ha ?_
  refine Ends.bind (x.ends_of_exactly (x.available_exactly a)) fun _ _ => ?_
  refine Ends.bind (x.stroll_ends _ _) fun _ _ => ?_
  refine Ends.bind_of_ok ha ?_
  exact Ends.bind (x.ends_of_exactly (add_exactly _ _)) fun _ _ => trivial

theorem rideOf_ends (x : Extender) (a : Arrival) (p : Pattern) (boardStop alightStop : Nat)
    (available boardTime alightTime : Int) :
    Ends (fun _ => True) x.Exceeds
      (x.rideOf a p boardStop alightStop available boardTime alightTime) := by
  refine Ends.bind (x.ends_of_exactly (sub_exactly _ _)) fun _ _ => ?_
  refine Ends.bind (x.ends_of_exactly (add_exactly _ _)) fun _ _ => ?_
  refine Ends.bind (x.ends_of_exactly (sub_exactly _ _)) fun _ _ => ?_
  refine Ends.bind_cases (fun f hf => .inr (.inr ⟨_, _, _, _, _, hf⟩)) fun _ _ => ?_
  exact Ends.bind (x.ends_of_exactly (next_exactly _ _)) fun _ _ => trivial

/-- A ride that is caught is not refused. -/
theorem ride_ends_of_caught (x : Extender) (ha : arena.get last = .ok a)
    (hleads : Leads trip.value board alight a.stop alightStop boardTime alightTime)
    (hcaught : x.boardable a trip.value.pattern ≤ boardTime) :
    Ends (fun out => ∃ id, out.2 = .ok id) x.Exceeds (x.ride arena last trip board alight) := by
  rw [ride_eq ha hleads]
  refine Ends.bind (x.ends_of_exactly (x.available_exactly a)) ?_
  rintro _ rfl
  refine Ends.bind (x.ends_of_exactly (x.earliest_exactly a _)) ?_
  rintro _ rfl
  rw [if_neg (Int.not_lt.mpr hcaught)]
  refine Ends.bind (x.rideOf_ends a _ _ _ _ _ _) fun leg _ => ?_
  have hrecord : Ends (fun _ => True) x.Exceeds (arena.ride leg.round leg.alightStop
      leg.alightTime leg.boardTime leg.cost trip last) := by
    refine Ends.bind_of_ok ha ?_
    exact Ends.bind (x.ends_of_exactly (add_exactly _ _)) fun _ _ => trivial
  exact Ends.bind hrecord fun out _ => ⟨out.2, rfl⟩

end Extender

end Journey
