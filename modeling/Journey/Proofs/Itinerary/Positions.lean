import Journey.Itinerary.Assembly
import Journey.Proofs.Outcome

/-!
# Where a ride is found on its trip

A ride is known by stop and time at both of its ends, and the assembly looks
for the positions of the pattern that fit. A search reads the time of a visit
only where the stop is right, and ends at the first visit that fits or cannot be
read (`TimedTrip.findDeparture_ends`, `TimedTrip.findArrivalAfter_ends`).

`RideEnds.positions_ends` says what the search for both ends comes to, on any trip: the
least positions that the ride can lead between (`RideEnds.IsLeast`), or the reason
why none are found (`RideEnds.TurnedAway`). The first departure that fits is settled
before the arrival is looked for; that this hides no ride is `RideEnds.Fits.of_least`.
The direction of a search decides which end of a node is boarded, and nothing else
(`transitLeg_eq`), so `transitLeg_ends` says the same of the leg of a ride in either one.
-/

namespace Journey

/-- `found` is the least number with the property, if there is one. -/
def LeastWith (hit : Nat → Prop) : Option Nat → Prop
  | some p => hit p ∧ ∀ q, hit q → p ≤ q
  | none => ∀ q, ¬ hit q

/-- A search through ascending positions that misses no hit finds the least one, unless
it faults at a position that no hit lies before. -/
theorem firstPosition_ends {hit : Nat → Prop} {blind : Fault → Nat → Prop}
    {test : Nat → Checked Bool} {xs : List Nat} (hsorted : xs.Pairwise (· < ·))
    (htest : ∀ p ∈ xs, Ends (fun b => b = true ↔ hit p) (fun f => blind f p) (test p))
    (hall : ∀ p, hit p → p ∈ xs) :
    Ends (LeastWith hit) (fun f => ∃ p ∈ xs, blind f p ∧ ∀ q, hit q → p ≤ q)
      (firstPosition test xs) := by
  induction xs with
  | nil =>
      intro q hq
      exact List.not_mem_nil (hall q hq)
  | cons x rest ih =>
      obtain ⟨hless, hrest⟩ := List.pairwise_cons.mp hsorted
      have hfirst : ∀ q, hit q → x ≤ q := by
        intro q hq
        rcases List.mem_cons.mp (hall q hq) with rfl | hmem
        · exact Nat.le_refl _
        · exact Nat.le_of_lt (hless q hmem)
      have hx := htest x List.mem_cons_self
      rw [firstPosition]
      cases hresult : test x with
      | error f =>
          rw [hresult] at hx
          exact ⟨x, List.mem_cons_self, hx, hfirst⟩
      | ok b =>
          rw [hresult] at hx
          cases b with
          | true => exact ⟨hx.mp rfl, hfirst⟩
          | false =>
              -- a miss takes nothing away from the hits of the rest
              have hmiss : ¬ hit x := by
                intro hhit
                exact Bool.false_ne_true (hx.mpr hhit)
              have hall' : ∀ p, hit p → p ∈ rest := by
                intro p hp
                rcases List.mem_cons.mp (hall p hp) with rfl | hmem
                · exact absurd hp hmiss
                · exact hmem
              have htest' := fun p hp => htest p (List.mem_cons_of_mem x hp)
              refine (ih hrest htest' hall').mono (fun _ hfound => hfound) ?_
              rintro f ⟨p, hp, hblind, hle⟩
              exact ⟨p, List.mem_cons_of_mem x hp, hblind, hle⟩

namespace TimedTrip

/-- Both times of every visit of the pattern can be read. -/
def Readable (t : TimedTrip) : Prop :=
  ∀ p < t.pattern.stops.length, (∃ time, t.arrival p = .ok time) ∧ ∃ time, t.departure p = .ok time

/-- The trip is at the stop, and the given time of that visit is this one. -/
def VisitsAt (t : TimedTrip) (timeAt : Nat → Checked Int) (stop : Nat) (time : Int) (p : Nat) :
    Prop :=
  t.pattern.stops[p]? = some stop ∧ timeAt p = .ok time

/-- The trip is at the stop, and the given time of that visit cannot be read. -/
def BlindAt (t : TimedTrip) (timeAt : Nat → Checked Int) (stop : Nat) (f : Fault) (p : Nat) :
    Prop :=
  t.pattern.stops[p]? = some stop ∧ timeAt p = .error f

variable {t : TimedTrip} {timeAt : Nat → Checked Int} {stop p : Nat} {time : Int} {f : Fault}

theorem VisitsAt.lt_length (h : t.VisitsAt timeAt stop time p) : p < t.pattern.stops.length :=
  (List.getElem?_eq_some_iff.mp h.1).choose

theorem BlindAt.lt_length (h : t.BlindAt timeAt stop f p) : p < t.pattern.stops.length :=
  (List.getElem?_eq_some_iff.mp h.1).choose

/-- The test of a position decides whether the visit is the one looked for. -/
theorem visits_ends (t : TimedTrip) (timeAt : Nat → Checked Int) (stop : Nat) (time : Int)
    (hp : p < t.pattern.stops.length) :
    Ends (fun b => b = true ↔ t.VisitsAt timeAt stop time p)
      (fun f => t.BlindAt timeAt stop f p) (t.visits timeAt stop time p) := by
  have hstop : t.pattern.stopAt p = .ok t.pattern.stops[p] :=
    Checked.get_eq_ok_iff.mpr (List.getElem?_eq_getElem hp)
  unfold visits VisitsAt BlindAt
  rw [hstop, List.getElem?_eq_getElem hp]
  by_cases h : t.pattern.stops[p] = stop
  · cases htime : timeAt p with
    | error f => simp [bind, Except.bind, h, Ends]
    | ok actual => simp [bind, Except.bind, pure, Except.pure, h, Ends]
  · simp [bind, Except.bind, pure, Except.pure, h, Ends]

/-- The first departure from a stop at a time is found, unless a departure from
there that comes first cannot be read. -/
theorem findDeparture_ends (t : TimedTrip) (time : Int) (stop : Nat) :
    Ends (LeastWith (t.VisitsAt t.departure stop time))
      (fun f => ∃ p, t.BlindAt t.departure stop f p ∧
        ∀ q, t.VisitsAt t.departure stop time q → p ≤ q)
      (t.findDeparture time stop) := by
  have htest : ∀ p ∈ List.range t.pattern.stops.length,
      Ends (fun b => b = true ↔ t.VisitsAt t.departure stop time p)
        (fun f => t.BlindAt t.departure stop f p) (t.visits t.departure stop time p) := by
    intro p hp
    exact t.visits_ends t.departure stop time (List.mem_range.mp hp)
  have hall : ∀ p, t.VisitsAt t.departure stop time p →
      p ∈ List.range t.pattern.stops.length := by
    intro p hp
    exact List.mem_range.mpr hp.lt_length
  refine (firstPosition_ends List.pairwise_lt_range htest hall).mono (fun _ hfound => hfound) ?_
  rintro f ⟨p, _, hblind, hle⟩
  exact ⟨p, hblind, hle⟩

/-- The first arrival at a stop at a time behind a position is found, unless an
arrival there that comes first cannot be read. -/
theorem findArrivalAfter_ends (t : TimedTrip) (position : Nat) (time : Int) (stop : Nat) :
    Ends (LeastWith fun p => position < p ∧ t.VisitsAt t.arrival stop time p)
      (fun f => ∃ p, position < p ∧ t.BlindAt t.arrival stop f p ∧
        ∀ q, position < q → t.VisitsAt t.arrival stop time q → p ≤ q)
      (t.findArrivalAfter position time stop) := by
  have htest : ∀ p ∈ List.range' (position + 1) (t.pattern.stops.length - (position + 1)),
      Ends (fun b => b = true ↔ position < p ∧ t.VisitsAt t.arrival stop time p)
        (fun f => t.BlindAt t.arrival stop f p) (t.visits t.arrival stop time p) := by
    intro p hp
    have hrange := List.mem_range'_1.mp hp
    have hbehind : position < p := by omega
    refine (t.visits_ends t.arrival stop time (by omega)).mono ?_ (fun _ hblind => hblind)
    intro b hb
    rw [hb]
    exact ⟨fun h => ⟨hbehind, h⟩, And.right⟩
  have hall : ∀ p, position < p ∧ t.VisitsAt t.arrival stop time p →
      p ∈ List.range' (position + 1) (t.pattern.stops.length - (position + 1)) := by
    rintro p ⟨hbehind, hvisits⟩
    have hlt := hvisits.lt_length
    exact List.mem_range'_1.mpr (by omega)
  refine (firstPosition_ends List.pairwise_lt_range' htest hall).mono (fun _ hfound => hfound) ?_
  rintro f ⟨p, hp, hblind, hle⟩
  have hrange := List.mem_range'_1.mp hp
  exact ⟨p, by omega, hblind, fun q hq hvisits => hle q ⟨hq, hvisits⟩⟩

end TimedTrip

namespace Assembly.RideEnds

/-- The trip departs at a position from where and when the ride is boarded. -/
def DepartsAt (r : RideEnds) (p : Nat) : Prop :=
  r.trip.value.VisitsAt r.trip.value.departure r.fromStop r.fromTime p

/-- The trip arrives at a position where and when the ride is left. -/
def ArrivesAt (r : RideEnds) (p : Nat) : Prop :=
  r.trip.value.VisitsAt r.trip.value.arrival r.toStop r.toTime p

/-- The refusal of a ride whose trip is not at a stop at a time. -/
def notFound (r : RideEnds) (stop : Nat) (time : Int) : Failure ItineraryError :=
  .refused (.tripTimeNotFound r.trip.value.pattern.label stop time)

/-- The ride leads from one position of its trip to another one behind it. -/
structure Fits (r : RideEnds) (board alight : Nat) : Prop where
  departs : r.DepartsAt board
  arrives : r.ArrivesAt alight
  forward : board < alight

/-- Of all positions that the ride can lead between, these are the least: first by where
it is boarded, then by where it is left. -/
structure IsLeast (r : RideEnds) (board alight : Nat) : Prop where
  fits : r.Fits board alight
  least : ∀ b a, r.Fits b a → board < b ∨ board = b ∧ alight ≤ a

/-- Why no positions are found. -/
inductive TurnedAway (r : RideEnds) : Failure ItineraryError → Prop
  | noDeparture : (∀ b, ¬ r.DepartsAt b) → TurnedAway r (r.notFound r.fromStop r.fromTime)
  | noArrival {b : Nat} : r.DepartsAt b → (∀ b a, ¬ r.Fits b a) →
      TurnedAway r (r.notFound r.toStop r.toTime)
  /-- A departure cannot be read, and none before it fits. -/
  | blindDeparture {f : Fault} {p : Nat} :
      r.trip.value.BlindAt r.trip.value.departure r.fromStop f p →
      (∀ b, r.DepartsAt b → p ≤ b) → TurnedAway r (.fault f)
  /-- An arrival cannot be read, and none before it fits. -/
  | blindArrival {f : Fault} {b p : Nat} : LeastWith r.DepartsAt (some b) → b < p →
      r.trip.value.BlindAt r.trip.value.arrival r.toStop f p →
      (∀ a, r.Fits b a → p ≤ a) → TurnedAway r (.fault f)

variable {r : RideEnds}

/-- The first departure that fits hides no ride: what is left behind a later one is left
behind the first one, too. -/
theorem Fits.of_least {b board alight : Nat} (h : r.Fits board alight)
    (hb : LeastWith r.DepartsAt (some b)) : r.Fits b alight := by
  have hle := hb.2 board h.departs
  have hforward := h.forward
  exact ⟨hb.1, h.arrives, by omega⟩

/-- The search finds the least positions that fit, or it says why there are none. -/
theorem positions_ends (r : RideEnds) :
    Ends (fun found => r.IsLeast found.1 found.2) r.TurnedAway r.positions := by
  have hdeparture : Ends (LeastWith r.DepartsAt) r.TurnedAway
      (Outcome.ofChecked (r.trip.value.findDeparture r.fromTime r.fromStop)) := by
    apply Ends.ofChecked
    refine (r.trip.value.findDeparture_ends r.fromTime r.fromStop).mono (fun _ h => h) ?_
    rintro f ⟨p, hblind, hle⟩
    exact .blindDeparture hblind hle
  unfold positions
  refine Ends.bind hdeparture fun board hboard => ?_
  cases board with
  | none => exact .noDeparture hboard
  | some b =>
      have harrival : Ends (LeastWith fun p => b < p ∧ r.ArrivesAt p) r.TurnedAway
          (Outcome.ofChecked (r.trip.value.findArrivalAfter b r.toTime r.toStop)) := by
        apply Ends.ofChecked
        refine (r.trip.value.findArrivalAfter_ends b r.toTime r.toStop).mono (fun _ h => h) ?_
        rintro f ⟨p, hbehind, hblind, hle⟩
        exact .blindArrival hboard hbehind hblind fun a ha => hle a ha.forward ha.arrives
      refine Ends.bind harrival fun alight halight => ?_
      cases alight with
      | none =>
          apply TurnedAway.noArrival hboard.1
          intro b' a hfits
          have hfits' := hfits.of_least hboard
          exact halight a ⟨hfits'.forward, hfits'.arrives⟩
      | some a =>
          refine ⟨⟨hboard.1, halight.1.2, halight.1.1⟩, ?_⟩
          intro b' a' hfits
          have hfits' := hfits.of_least hboard
          have hle := hboard.2 b' hfits.departs
          have hle' := halight.2 a' ⟨hfits'.forward, hfits'.arrives⟩
          omega

/-- On a trip that can be read, a ride is turned away by rule. -/
theorem TurnedAway.refused {failure : Failure ItineraryError} (h : r.TurnedAway failure)
    (hread : r.trip.value.Readable) : ∃ reason, failure = .refused reason := by
  cases h with
  | noDeparture _ => exact ⟨_, rfl⟩
  | noArrival _ _ => exact ⟨_, rfl⟩
  | blindDeparture hblind _ =>
      obtain ⟨time, htime⟩ := (hread _ hblind.lt_length).2
      cases htime.symm.trans hblind.2
  | blindArrival _ _ hblind _ =>
      obtain ⟨time, htime⟩ := (hread _ hblind.lt_length).1
      cases htime.symm.trans hblind.2

/-- On a trip that can be read, no ride is turned away that fits. -/
theorem TurnedAway.not_fits {failure : Failure ItineraryError} (h : r.TurnedAway failure)
    (hread : r.trip.value.Readable) (board alight : Nat) : ¬ r.Fits board alight := by
  intro hfits
  obtain ⟨reason, hreason⟩ := h.refused hread
  cases h with
  | noDeparture hnone => exact hnone board hfits.departs
  | noArrival _ hnone => exact hnone board alight hfits
  | blindDeparture _ _ => cases hreason
  | blindArrival _ _ _ _ => cases hreason

end Assembly.RideEnds

/-! ## The leg of a ride -/

namespace Assembly

variable {d : Direction} {a : Arrival} {boardStop : Nat} {boardTime : Int}
  {trip : Shared TimedTrip} {r : RideEnds}

/-- The leg of a ride between two positions of its trip. -/
def RideEnds.leg (r : RideEnds) (cost : Int) (board alight : Nat) : Leg :=
  .transit {
    fromStop := r.fromStop, toStop := r.toStop, fromTime := r.fromTime, toTime := r.toTime, cost
    trip := r.trip, boardPosition := board, alightPosition := alight }

/-- A ride is looked up by its ends in travel order, unless they are the wrong way round. -/
theorem transitLeg_eq (cost : Int) (hr : r = .ofArrival d a boardStop boardTime trip) :
    transitLeg d a boardStop boardTime trip cost =
      if r.toTime < r.fromTime then .error (.refused (.invalid .rideArrivesBeforeBoarding))
      else r.positions.map fun found => r.leg cost found.1 found.2 := by
  have hbefore : d.isBefore a.time boardTime = decide (r.toTime < r.fromTime) := by
    rw [hr]
    cases d with
    | forward => rfl
    | reverse => rfl
  have htrip : r.trip = trip := by
    rw [hr]
    cases d with
    | forward => rfl
    | reverse => rfl
  unfold transitLeg
  rw [hbefore, ← hr]
  by_cases h : r.toTime < r.fromTime
  · simp only [h, decide_true, if_true]
    rfl
  · simp only [h, decide_false, if_false, Bool.false_eq_true]
    cases r.positions with
    | error failure => rfl
    | ok found =>
        rw [← htrip]
        rfl

/-- The leg of a ride leads between the least positions that fit. -/
theorem transitLeg_ends (cost : Int) (hr : r = .ofArrival d a boardStop boardTime trip)
    (htimes : r.fromTime ≤ r.toTime) :
    Ends (fun leg => ∃ board alight, r.IsLeast board alight ∧ leg = r.leg cost board alight)
      r.TurnedAway (transitLeg d a boardStop boardTime trip cost) := by
  rw [transitLeg_eq cost hr, if_neg (by omega)]
  have hends := r.positions_ends
  cases hpositions : r.positions with
  | error failure =>
      rw [hpositions] at hends
      exact hends
  | ok found =>
      rw [hpositions] at hends
      exact ⟨found.1, found.2, hends, rfl⟩

end Assembly

end Journey
