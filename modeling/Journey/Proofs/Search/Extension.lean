import Journey.Proofs.Itinerary.Positions
import Journey.Proofs.Outcome
import Journey.Proofs.Search.Recording
import Journey.Search.Plan

/-!
# One leg further

What the extender adds to a chain, as relations between an arrival and the one
that extends it:

* **walks** (`WalksTo`) start as soon as the traveller is free;
* **rides** (`RidesTo`) are boarded where the traveller is, no earlier than
  `boardable`, and charged for the time since the traveller was free;
* **inversion**: a leg that is run adds an arrival of this kind in front of the
  history (`history_of_run`), a complete chain starts and ends in the ways of
  `Starts` and `Completes`;
* **refusal**: a ride that is missed is refused with the very time from which
  on it could have been boarded (`Misses`).
-/

namespace Journey.Extender

/-! ## Times -/

/-- When the traveller is free at the stop of an arrival, as a number. -/
def free (x : Extender) (a : Arrival) : Int :=
  match a.trip? with
  | some trip => a.time + x.slack.alight trip.value.pattern
  | none => a.time

/-- From when on a trip of a pattern can be boarded after an arrival. -/
def boardable (x : Extender) (a : Arrival) (p : Pattern) : Int :=
  if a.isTransit then max (x.free a + x.slack.board p) (a.time + x.slack.transfer)
  else x.free a + x.slack.board p

/-- The time at which the traveller is free is in range. -/
def FreeFits (x : Extender) (a : Arrival) : Prop := a.trip?.isSome = true → InRange (x.free a)

theorem available_exactly (x : Extender) (a : Arrival) :
    Checked.Exactly (x.FreeFits a) (x.free a) (x.available a) := by
  unfold available free FreeFits
  cases htrip : a.trip? with
  | none => exact (Checked.ok_exactly a.time).congr (by simp)
  | some trip => exact (Checked.add_exactly _ _).congr (by simp [free, htrip])

/-- The times that are compared with a departure are in range. -/
structure BoardingFits (x : Extender) (a : Arrival) (p : Pattern) : Prop where
  free : x.FreeFits a
  boarding : InRange (x.free a + x.slack.board p)
  change : a.isTransit = true → InRange (a.time + x.slack.transfer)

theorem earliest_exactly (x : Extender) (a : Arrival) (p : Pattern) :
    Checked.Exactly (InRange (x.free a + x.slack.board p) ∧
        (a.isTransit = true → InRange (a.time + x.slack.transfer)))
      (x.boardable a p) (x.earliest a (x.free a) p) := by
  unfold earliest boardable
  refine (Checked.add_exactly _ _).bind ?_
  by_cases htransit : a.isTransit = true
  · rw [if_pos htransit, if_pos htransit]
    exact ((Checked.add_exactly _ _).map _).congr (by simp [htransit])
  · rw [if_neg htransit, if_neg htransit]
    exact (Checked.ok_exactly _).congr (by simp [htransit])

theorem time_le_free {x : Extender} (hslack : x.slack.Nonnegative) (a : Arrival) :
    a.time ≤ x.free a := by
  unfold free
  split
  · rename_i trip _
    have := hslack.2.1 trip.value.pattern
    omega
  · exact Int.le_refl _

theorem free_add_board_le_boardable (x : Extender) (a : Arrival) (p : Pattern) :
    x.free a + x.slack.board p ≤ x.boardable a p := by
  unfold boardable
  split
  · exact Int.le_max_left _ _
  · exact Int.le_refl _

theorem free_le_boardable {x : Extender} (hslack : x.slack.Nonnegative) (a : Arrival)
    (p : Pattern) : x.free a ≤ x.boardable a p := by
  have hboard := hslack.1 p
  have hle := x.free_add_board_le_boardable a p
  omega

/-! ## Legs -/

/-- `a` is where a chain stands after the walk to its first stop. -/
structure Starts (x : Extender) (departure : Int) (w : Walk) (a : Arrival) : Prop where
  how : a.how = .access departure
  stop : a.stop = w.stop
  time : a.time = departure + w.duration
  round : a.round = 0
  cost : x.cost.walk w.duration = .ok a.cost

structure WalksTo (x : Extender) (before : Arrival) (w : Walk) (after : Arrival) : Prop where
  how : after.how = .transfer (x.free before)
  stop : after.stop = w.stop
  time : after.time = x.free before + w.duration
  round : after.round = before.round
  cost : ∃ charge, x.cost.walk w.duration = .ok charge ∧ after.cost = before.cost + charge

/-- `after` extends `before` by a ride that is boarded at a time. -/
structure RidesTo (x : Extender) (before : Arrival) (trip : Shared TimedTrip)
    (board alight : Nat) (boardTime : Int) (after : Arrival) : Prop where
  how : after.how = .transit before.stop boardTime trip
  forward : board < alight
  departs : trip.value.VisitsAt trip.value.departure before.stop boardTime board
  arrives : trip.value.VisitsAt trip.value.arrival after.stop after.time alight
  onTime : x.boardable before trip.value.pattern ≤ boardTime
  round : after.round = before.round + 1
  cost : ∃ charge,
    x.cost.ride (before.kind == .access) before.stop
      (boardTime - x.free before + x.slack.alight trip.value.pattern) (after.time - boardTime)
      after.stop = .ok charge ∧
    after.cost = before.cost + charge

def Adds (x : Extender) (before : Arrival) : Plan.Step → Arrival → Prop
  | .walk w, after => x.WalksTo before w after
  | .ride trip board alight, after =>
    ∃ boardTime, x.RidesTo before trip board alight boardTime after

structure Completes (x : Extender) (before : Arrival) (duration : Int) (e : Egress) : Prop where
  fromTime : e.fromTime = x.free before
  time : e.time = x.free before + duration
  round : e.round = before.round
  cost : ∃ charge, x.cost.walk duration = .ok charge ∧ e.cost = before.cost + charge

/-! ## What a call adds -/

theorem stroll_eq_ok {x : Extender} {fromTime duration : Int} {leg : Stroll}
    (h : x.stroll fromTime duration = .ok leg) :
    leg.fromTime = fromTime ∧ leg.toTime = fromTime + duration ∧
      x.cost.walk duration = .ok leg.cost := by
  obtain ⟨toTime, hto, h⟩ := bind_eq_ok_iff.mp h
  obtain ⟨cost, hcost, h⟩ := bind_eq_ok_iff.mp h
  obtain ⟨_, rfl⟩ := Checked.add_eq_ok_iff.mp hto
  cases h
  exact ⟨rfl, rfl, hcost⟩

/-- A walk to a first stop is recorded as it was taken. -/
theorem access_eq_ok {x : Extender} {arena : Arena} {departure : Int} {w : Walk}
    {result : Arena × Nat} (h : x.access arena departure w = .ok result) :
    ∃ leg, x.stroll departure w.duration = .ok leg ∧
      arena.access w.stop leg.fromTime leg.toTime leg.cost = result := by
  obtain ⟨leg, hleg, h⟩ := bind_eq_ok_iff.mp h
  exact ⟨leg, hleg, Except.ok.inj h⟩

/-- A walk from an arrival starts when the traveller is free. -/
theorem transfer_eq_ok {x : Extender} {arena : Arena} {last : Nat} {w : Walk}
    {result : Arena × Nat} (h : x.transfer arena last w = .ok result) :
    ∃ before leg, arena.get last = .ok before ∧ x.stroll (x.free before) w.duration = .ok leg ∧
      arena.transfer before.round w.stop leg.fromTime leg.toTime leg.cost last = .ok result := by
  obtain ⟨before, hbefore, h⟩ := bind_eq_ok_iff.mp h
  obtain ⟨available, havailable, h⟩ := bind_eq_ok_iff.mp h
  obtain ⟨leg, hleg, hrecord⟩ := bind_eq_ok_iff.mp h
  obtain ⟨_, rfl⟩ := (x.available_exactly before).eq_ok_iff.mp havailable
  exact ⟨before, leg, hbefore, hleg, hrecord⟩

theorem egress_eq_ok {x : Extender} {arena : Arena} {last : Nat} {duration : Int}
    {result : Arena × Nat} (h : x.egress arena last duration = .ok result) :
    ∃ before leg, arena.get last = .ok before ∧ x.stroll (x.free before) duration = .ok leg ∧
      arena.egress leg.fromTime leg.toTime leg.cost last = .ok result := by
  obtain ⟨before, hbefore, h⟩ := bind_eq_ok_iff.mp h
  obtain ⟨available, havailable, h⟩ := bind_eq_ok_iff.mp h
  obtain ⟨leg, hleg, hrecord⟩ := bind_eq_ok_iff.mp h
  obtain ⟨_, rfl⟩ := (x.available_exactly before).eq_ok_iff.mp havailable
  exact ⟨before, leg, hbefore, hleg, hrecord⟩

theorem history_of_start {x : Extender} {arena arena' : Arena} {departure : Int} {w : Walk}
    {id : Nat} (h : x.access arena departure w = .ok (arena', id)) :
    ∃ a, x.Starts departure w a ∧ arena'.history id = [a] := by
  obtain ⟨leg, hleg, hrecord⟩ := access_eq_ok h
  obtain ⟨hfrom, hto, hcost⟩ := stroll_eq_ok hleg
  refine ⟨_, ?_, Arena.history_of_access hrecord⟩
  exact ⟨by rw [hfrom], rfl, hto, rfl, hcost⟩

theorem history_of_walk {x : Extender} {arena arena' : Arena} {last id : Nat} {w : Walk}
    (h : x.transfer arena last w = .ok (arena', id)) :
    ∃ before after, arena.get last = .ok before ∧ x.WalksTo before w after ∧
      arena'.history id = after :: arena.history last := by
  obtain ⟨before, leg, hbefore, hleg, hrecord⟩ := transfer_eq_ok h
  obtain ⟨hfrom, hto, hcost⟩ := stroll_eq_ok hleg
  obtain ⟨before', hbefore', hhistory⟩ := Arena.history_of_transfer hrecord
  obtain rfl : before = before' := Except.ok.inj (hbefore.symm.trans hbefore')
  refine ⟨before, _, hbefore, ?_, hhistory⟩
  exact ⟨by rw [hfrom], rfl, hto, rfl, leg.cost, hcost, rfl⟩

/-- All that is known of a ride that can be appended. -/
theorem rideOf_eq_ok {x : Extender} {a : Arrival} {p : Pattern} {boardStop alightStop : Nat}
    {available boardTime alightTime : Int} {leg : Ride}
    (h : x.rideOf a p boardStop alightStop available boardTime alightTime = .ok leg) :
    leg.round = a.round + 1 ∧ leg.alightStop = alightStop ∧ leg.alightTime = alightTime ∧
      leg.boardTime = boardTime ∧ leg.wait = boardTime - available + x.slack.alight p ∧
      leg.aboard = alightTime - boardTime ∧
      x.cost.ride (a.kind == .access) boardStop leg.wait leg.aboard alightStop = .ok leg.cost := by
  obtain ⟨waiting, hwaiting, h⟩ := bind_eq_ok_iff.mp h
  obtain ⟨wait, hwait, h⟩ := bind_eq_ok_iff.mp h
  obtain ⟨aboard, haboard, h⟩ := bind_eq_ok_iff.mp h
  obtain ⟨cost, hcost, h⟩ := bind_eq_ok_iff.mp h
  obtain ⟨round, hround, h⟩ := bind_eq_ok_iff.mp h
  obtain ⟨_, rfl⟩ := Checked.sub_eq_ok_iff.mp hwaiting
  obtain ⟨_, rfl⟩ := Checked.add_eq_ok_iff.mp hwait
  obtain ⟨_, rfl⟩ := Checked.sub_eq_ok_iff.mp haboard
  obtain ⟨_, rfl⟩ := Checked.next_eq_ok_iff.mp hround
  cases h
  exact ⟨rfl, rfl, rfl, rfl, rfl, rfl, hcost⟩

theorem stopAt_eq_ok {p : Pattern} {position stop : Nat} (h : p.stopAt position = .ok stop) :
    p.stops[position]? = some stop :=
  Checked.get_eq_ok_iff.mp h

/-- A ride has passed its guards. -/
structure Passes (x : Extender) (a : Arrival) (trip : TimedTrip) (board alight : Nat)
    (leg : Ride) : Prop where
  departs : trip.VisitsAt trip.departure a.stop leg.boardTime board
  arrives : trip.VisitsAt trip.arrival leg.alightStop leg.alightTime alight
  onTime : x.boardable a trip.pattern ≤ leg.boardTime
  ride : x.rideOf a trip.pattern a.stop leg.alightStop (x.free a) leg.boardTime leg.alightTime =
    .ok leg

/-- A ride that is refused as missed departs before the time from which on it
could be boarded, and the refusal gives that time. -/
def Misses (x : Extender) (a : Arrival) (trip : TimedTrip) (board : Nat) :
    Failure RideRefusal → Prop
  | .refused (.missedBoarding stop boardTime earliest) =>
    trip.VisitsAt trip.departure stop boardTime board ∧ stop = a.stop ∧
      earliest = x.boardable a trip.pattern ∧ boardTime < earliest
  | _ => True

theorem rideFrom_ends (x : Extender) (a : Arrival) (trip : TimedTrip) (board alight : Nat) :
    Ends (x.Passes a trip board alight) (x.Misses a trip board)
      (x.rideFrom a trip board alight) := by
  unfold rideFrom
  refine Ends.bind (Ends.ofLift fun _ => trivial) fun boardStop hboardStop => ?_
  refine Ends.bind (Ends.ofLift fun _ => trivial) fun alightStop halightStop => ?_
  by_cases hstop : boardStop ≠ a.stop
  · rw [if_pos hstop]
    trivial
  · rw [if_neg hstop]
    obtain rfl : boardStop = a.stop := by omega
    refine Ends.bind (Ends.ofLift fun _ => trivial) fun boardTime hboardTime => ?_
    refine Ends.bind (Ends.ofLift fun _ => trivial) fun alightTime halightTime => ?_
    refine Ends.bind (Ends.ofLift fun _ => trivial) fun available havailable => ?_
    obtain ⟨_, rfl⟩ := (x.available_exactly a).eq_ok_iff.mp havailable
    refine Ends.bind (Ends.ofLift fun _ => trivial) fun earliest hearliest => ?_
    obtain ⟨_, rfl⟩ := (x.earliest_exactly a trip.pattern).eq_ok_iff.mp hearliest
    have hdeparts : trip.VisitsAt trip.departure a.stop boardTime board :=
      ⟨stopAt_eq_ok hboardStop, hboardTime⟩
    by_cases hmissed : boardTime < x.boardable a trip.pattern
    · rw [if_pos hmissed]
      exact ⟨hdeparts, rfl, rfl, hmissed⟩
    · rw [if_neg hmissed]
      -- the ride keeps the times that the guards were about
      refine Ends.mono (Ends.ofLift fun _ => trivial) (fun leg hleg => ?_) fun _ h => h
      obtain ⟨_, halightStop', halightTime', hboardTime', _⟩ := rideOf_eq_ok hleg
      refine ⟨?_, ?_, ?_, ?_⟩
      · rw [hboardTime']
        exact hdeparts
      · rw [halightStop', halightTime']
        exact ⟨stopAt_eq_ok halightStop, halightTime⟩
      · rw [hboardTime']
        omega
      · rw [halightStop', hboardTime', halightTime']
        exact hleg

/-- The three answers to a ride that is tried. -/
theorem ride_cases {x : Extender} {arena arena' : Arena} {last board alight : Nat}
    {trip : Shared TimedTrip} {ridden : Except RideRefusal Nat}
    (h : x.ride arena last trip board alight = .ok (arena', ridden)) :
    alight ≤ board ∧ arena' = arena ∧ ridden = .error (.alightNotAfterBoard board alight) ∨
    board < alight ∧ ∃ before, arena.get last = .ok before ∧
      ((∃ reason, x.rideFrom before trip.value board alight = .error (.refused reason) ∧
          arena' = arena ∧ ridden = .error reason) ∨
        ∃ leg id, x.rideFrom before trip.value board alight = .ok leg ∧ ridden = .ok id ∧
          arena.ride leg.round leg.alightStop leg.alightTime leg.boardTime leg.cost trip last =
            .ok (arena', id)) := by
  unfold ride at h
  by_cases hback : alight ≤ board
  · rw [if_pos hback] at h
    cases h
    exact .inl ⟨hback, rfl, rfl⟩
  · rw [if_neg hback] at h
    obtain ⟨before, hbefore, h⟩ := bind_eq_ok_iff.mp h
    refine .inr ⟨by omega, before, hbefore, ?_⟩
    cases htry : x.rideFrom before trip.value board alight with
    | error failure =>
        rw [htry] at h
        cases failure with
        | fault f => cases h
        | refused reason =>
            cases h
            exact .inl ⟨reason, rfl, rfl, rfl⟩
    | ok leg =>
        rw [htry] at h
        obtain ⟨⟨recorded, id⟩, hrecord, h⟩ := bind_eq_ok_iff.mp h
        cases h
        exact .inr ⟨leg, id, rfl, rfl, hrecord⟩

theorem history_of_ridden {x : Extender} {arena arena' : Arena} {last board alight id : Nat}
    {trip : Shared TimedTrip}
    (h : x.ride arena last trip board alight = .ok (arena', .ok id)) :
    ∃ before after boardTime, arena.get last = .ok before ∧
      x.RidesTo before trip board alight boardTime after ∧
      arena'.history id = after :: arena.history last := by
  rcases ride_cases h with ⟨_, _, hnone⟩ | ⟨hforward, before, hbefore, hcases⟩
  · cases hnone
  · rcases hcases with ⟨_, _, _, hnone⟩ | ⟨leg, id', hleg, hid, hrecord⟩
    · cases hnone
    · cases hid
      have hends := x.rideFrom_ends before trip.value board alight
      rw [hleg] at hends
      obtain ⟨hround, _, _, _, hwait, haboard, hcost⟩ := rideOf_eq_ok hends.ride
      obtain ⟨before', hbefore', hhistory⟩ := Arena.history_of_ride hrecord
      obtain rfl : before = before' := Except.ok.inj (hbefore.symm.trans hbefore')
      rw [hwait, haboard] at hcost
      refine ⟨before, _, leg.boardTime, hbefore, ?_, hhistory⟩
      exact ⟨rfl, hforward, hends.departs, hends.arrives, hends.onTime, hround, leg.cost, hcost,
        rfl⟩

/-- The refusal of a missed ride gives the time from which on the trip could
have been boarded. -/
theorem missed_of_ride {x : Extender} {arena arena' : Arena} {last board alight stop : Nat}
    {trip : Shared TimedTrip} {boardTime earliest : Int}
    (h : x.ride arena last trip board alight =
      .ok (arena', .error (.missedBoarding stop boardTime earliest))) :
    ∃ before, arena.get last = .ok before ∧ stop = before.stop ∧
      trip.value.VisitsAt trip.value.departure stop boardTime board ∧
      earliest = x.boardable before trip.value.pattern ∧ boardTime < earliest := by
  rcases ride_cases h with ⟨_, _, hnone⟩ | ⟨_, before, hbefore, hcases⟩
  · cases hnone
  · rcases hcases with ⟨reason, hrefused, _, hreason⟩ | ⟨_, _, _, hnone, _⟩
    · cases hreason
      have hends := x.rideFrom_ends before trip.value board alight
      rw [hrefused] at hends
      obtain ⟨hdeparts, hstop, hearliest, hmissed⟩ := hends
      exact ⟨before, hbefore, hstop, hdeparts, hearliest, hmissed⟩
    · cases hnone

/-- A leg that is run adds its arrival in front of the history it extends. -/
theorem history_of_run {x : Extender} {arena arena' : Arena} {last id : Nat} {s : Plan.Step}
    (h : s.run x arena last = .ok (arena', id)) :
    ∃ before after, arena.get last = .ok before ∧ x.Adds before s after ∧
      arena'.history id = after :: arena.history last := by
  cases s with
  | walk w => exact history_of_walk (Outcome.ofChecked_eq_ok_iff.mp h)
  | ride trip board alight =>
      obtain ⟨⟨recorded, ridden⟩, hride, h⟩ := bind_eq_ok_iff.mp h
      obtain ⟨id', hid, h⟩ := bind_eq_ok_iff.mp h
      rw [Outcome.ofExcept_eq_ok_iff] at hid
      cases hid
      cases h
      obtain ⟨before, after, boardTime, hbefore, hadds, hhistory⟩ :=
        history_of_ridden (Outcome.ofChecked_eq_ok_iff.mp hride)
      exact ⟨before, after, hbefore, ⟨boardTime, hadds⟩, hhistory⟩

theorem chain_of_egress {x : Extender} {arena arena' : Arena} {last id : Nat} {duration : Int}
    (h : x.egress arena last duration = .ok (arena', id)) :
    ∃ before e, arena.get last = .ok before ∧ x.Completes before duration e ∧
      e.previous = last ∧ arena'.arrivals = arena.arrivals ∧ arena'.getEgress id = .ok e ∧
      arena'.chain id = .ok (.egress e :: arena.ancestors last) := by
  obtain ⟨before, leg, hbefore, hleg, hrecord⟩ := egress_eq_ok h
  obtain ⟨hfrom, hto, hcost⟩ := stroll_eq_ok hleg
  obtain ⟨before', e, hbefore', he, harrivals, hget, hchain⟩ := Arena.chain_of_egress hrecord
  obtain rfl : before = before' := Except.ok.inj (hbefore.symm.trans hbefore')
  have hcompletes : x.Completes before duration e := by
    rw [he]
    exact ⟨hfrom, hto, rfl, leg.cost, hcost, rfl⟩
  have hprevious : e.previous = last := by rw [he]
  exact ⟨before, e, hbefore, hcompletes, hprevious, harrivals, hget, hchain⟩

end Journey.Extender
