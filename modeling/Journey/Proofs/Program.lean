import Journey.Proofs.Cost.Charges
import Journey.Proofs.Itinerary.Report
import Journey.Proofs.Search.Limits

/-!
# How the program ends

Settings that are accepted are not bounded from above. The program plans its
journey with them all the same, and where a slack or a weight is too great a number
leaves its range on the way.

* **leg by leg**: each leg of the sample journey is appended, missed, or overflows
  (`Sample.first_ends` up to `Sample.egress_ends`). What it takes for either is
  written down once, in seconds and costs (`Sample.Caught`, `Sample.Overflows`),
  and each leg rules out a part of it;
* **the journey**: a chain that is complete passes the rules of chains, and all of
  it can be assembled and described, but for a cost that cannot be rounded
  (`Sample.finish_ends`);
* **statement** (`Program.reports_or_overflows`): on any settings file, readable or not, the
  program reports the journey with 0, or one message with 1. It overflows instead
  exactly where the settings are accepted and `Sample.Overflows` holds of them.

Such settings exist: `Program.eternalSlack_overflows`.
-/

namespace Journey

open Checked Extender

namespace Sample

/-! ## The plan -/

/-- What visiting each stop costs, in cost units. -/
def stopCharges : List Int := [0, 0, 3000, 0, 6000, 0]

/-- The extender that the sample journey is built with. -/
abbrev router (s : Settings) : Extender := .ofSettings s (some stopCharges)

theorem extender_eq (s : Settings) : extender s = .ok (router s) := rfl

theorem stopCharges_nonneg : ∀ costs ∈ some stopCharges, ∀ c ∈ costs, 0 ≤ c := by
  decide

/-- A trip of the sample and its ride, from the first of its stops to the second. -/
structure Runs (trip : Shared TimedTrip) (tag boardStop alightStop : Nat)
    (boardTime alightTime : Int) : Prop where
  tag : trip.tag = tag
  leads : Leads trip.value 0 1 boardStop alightStop boardTime alightTime
  regular : trip.value.Regular

/-- The plan of the sample journey. -/
structure Planned (p : Plan) (first second third : Shared TimedTrip) : Prop where
  departure : p.departure = 36000
  access : p.access = { stop := 1, duration := 195 }
  steps : p.steps =
    [.ride first 0 1, .walk { stop := 3, duration := 225 }, .ride second 0 1, .ride third 0 1]
  egress : p.egress = 465
  first : Runs first 0 1 2 36240 38100
  second : Runs second 1 3 4 39600 40980
  third : Runs third 2 4 5 42000 42720

theorem plan_eq_ok : ∃ snapshot p first second third, timetable = .ok snapshot ∧
    plan snapshot = .ok p ∧ Planned p first second third :=
  ⟨_, _, _, _, _, rfl, rfl, rfl, rfl, rfl, rfl, ⟨rfl, ⟨Nat.one_pos, rfl, rfl, rfl, rfl⟩, rfl, rfl⟩,
    ⟨rfl, ⟨Nat.one_pos, rfl, rfl, rfl, rfl⟩, rfl, rfl⟩,
    ⟨rfl, ⟨Nat.one_pos, rfl, rfl, rfl, rfl⟩, rfl, rfl⟩⟩

theorem Planned.admissible {p : Plan} {first second third : Shared TimedTrip}
    (h : Planned p first second third) : p.Admissible := by
  refine ⟨?_, ?_, ?_⟩
  · rw [h.access]
    decide
  · rw [h.steps]
    intro s hs
    simp only [List.mem_cons, List.not_mem_nil, or_false] at hs
    rcases hs with rfl | rfl | rfl | rfl
    · exact h.first.regular
    · show (0 : Int) ≤ 225
      decide
    · exact h.second.regular
    · exact h.third.regular
  · rw [h.egress]
    decide

theorem Planned.connected {p : Plan} {first second third : Shared TimedTrip}
    (h : Planned p first second third) : Plan.Connected p.steps := by
  rw [h.steps]
  exact .walk _ _ _ _ (.change _ _ _ (.ride _ _ _))

/-- No two rides in a row are on one trip. -/
theorem Planned.fresh {p : Plan} {first second third : Shared TimedTrip}
    (h : Planned p first second third) :
    (p.steps.map Plan.Step.trip?).IsChain fun last next => ¬ Resumes last next := by
  have hrides : ¬ Resumes (some second) (some third) := by
    rintro ⟨_, _, hlast, hnext, hsame⟩
    cases hlast
    cases hnext
    unfold Shared.same at hsame
    rw [h.second.tag, h.third.tag] at hsame
    cases hsame
  rw [h.steps]
  refine .cons_cons ?_ (.cons_cons (not_resumes_none _) (.cons_cons hrides (.singleton _)))
  exact fun ⟨_, _, _, hnone, _⟩ => nomatch hnone

/-! ## Charges -/

section charges

variable (s : Settings)

def rates : CostRates := .ofSettings s.cost (some stopCharges)

def walkCharge (duration : Int) : Int := (rates s).walkCost duration

/-- What a ride is charged, with what its stops cost. -/
def rideCharge (stops : Int) (first : Bool) (wait ride : Int) : Int :=
  stops + Cost.ofSeconds ((rates s).rideSeconds first wait ride)

/-- What each leg is charged, if none is missed. The alight slack counts as waiting,
but shortens the wait for the next trip by as much. -/
def charges : List Int :=
  [walkCharge s 195, rideCharge s 3000 true (45 + s.slack.alight) 1860, walkCharge s 225,
    rideCharge s 6000 false 1275 1380, rideCharge s 6000 false 1020 720, walkCharge s 465]

/-- What has been spent after some of the legs. -/
def spent (legs : Nat) : Int := ((charges s).take legs).sum

theorem spent_succ (legs : Nat) {charge : Int} (h : (charges s)[legs]? = some charge) :
    spent s (legs + 1) = spent s legs + charge := by
  unfold spent
  rw [List.take_add_one, h, List.sum_append]
  simp

/-- Every ride is caught. -/
def Caught : Prop :=
  s.slack.board ≤ 45 ∧ s.slack.board + s.slack.alight ≤ 1020 ∧ s.slack.transfer ≤ 1020

/-- A number runs out of range before a ride is missed: when the traveller could board,
or what has been spent. At the end a cost is raised by half a second, to be rounded. -/
def Overflows : Prop :=
  maxInt < 36195 + s.slack.board ∨
  s.slack.board ≤ 45 ∧
    (maxInt < 38325 + s.slack.alight + s.slack.board ∨ maxInt < spent s 3 ∨
      s.slack.board + s.slack.alight ≤ 1275 ∧
        (maxInt < 40980 + s.slack.transfer ∨ maxInt < spent s 4 ∨
          s.slack.board + s.slack.alight ≤ 1020 ∧ s.slack.transfer ≤ 1020 ∧
            maxInt < spent s 6 + 50))

variable {s}

theorem rates_nonnegative (h : s.Valid) : (rates s).Nonnegative :=
  CostRates.nonnegative_ofSettings h stopCharges_nonneg

theorem walkCharge_nonneg (h : s.Valid) {duration : Int} (hduration : 0 ≤ duration) :
    0 ≤ walkCharge s duration :=
  (rates_nonnegative h).walkCost_nonneg hduration

theorem le_rideCharge (h : s.Valid) (stops : Int) (first : Bool) {wait ride : Int}
    (hwait : 0 ≤ wait) (hride : 0 ≤ ride) : stops ≤ rideCharge s stops first wait ride := by
  have hseconds := ((rates_nonnegative h).rideSeconds first hwait hride).mul
    (CostRates.notNegative_ofInt (n := 100) (by omega))
  exact Int.le_add_of_nonneg_right hseconds.nearestInt_nonneg

/-- A ride of the sample is charged, where the charge is in range. -/
theorem rideCharge_exactly (h : s.Valid) (first : Bool) {boardStop alightStop : Nat}
    {wait ride stops : Int} (hstops : (rates s).stopsCost boardStop alightStop = stops)
    (hnonneg : 0 ≤ stops) (hwait : 0 ≤ wait) (hride : 0 ≤ ride) :
    Exactly (rideCharge s stops first wait ride ≤ maxInt) (rideCharge s stops first wait ride)
      ((router s).cost.ride first boardStop wait ride alightStop) := by
  have hle := le_rideCharge h stops first hwait hride
  have hexactly := (rates s).rideCost_exactly first boardStop wait ride alightStop
  rw [hstops] at hexactly
  refine hexactly.congr ⟨fun hfits => hfits.2.2, fun hfits => ?_⟩
  exact ⟨inRange_of_nonneg hnonneg (hle.trans hfits), inRange_of_nonneg (hnonneg.trans hle) hfits⟩

end charges

/-! ## The arrivals -/

section arrivals

variable (s : Settings) (first second third : Shared TimedTrip)

/-- At the first stop. -/
def atFirst : Arrival where
  round := 0
  stop := 1
  time := 36195
  cost := walkCharge s 195
  previous := none
  how := .access 36000

def offFirst : Arrival :=
  afterRide (atFirst s) 0 first 2 36240 38100 (rideCharge s 3000 true (45 + s.slack.alight) 1860)

def atSecond : Arrival :=
  afterWalk (router s) (offFirst s first) 1 { stop := 3, duration := 225 } (walkCharge s 225)

def offSecond : Arrival :=
  afterRide (atSecond s first) 2 second 4 39600 40980 (rideCharge s 6000 false 1275 1380)

def offThird : Arrival :=
  afterRide (offSecond s first second) 3 third 5 42000 42720 (rideCharge s 6000 false 1020 720)

theorem access_eq : (router s).access {} 36000 { stop := 1, duration := 195 } =
    .ok ({ arrivals := [atFirst s] }, 0) := by
  have hwalk : (router s).cost.walk 195 = .ok (walkCharge s 195) := rfl
  exact (access_exactly (w := { stop := 1, duration := 195 }) hwalk {} 36000).eq_ok_iff.mpr
    ⟨by decide, rfl⟩

theorem cost_atFirst : (atFirst s).cost = spent s 1 := by
  rw [spent_succ s 0 rfl]
  exact (Int.zero_add _).symm

theorem cost_offFirst : (offFirst s first).cost = spent s 2 := by
  rw [spent_succ s 1 rfl, ← cost_atFirst]
  rfl

theorem cost_atSecond : (atSecond s first).cost = spent s 3 := by
  rw [spent_succ s 2 rfl, ← cost_offFirst s first]
  rfl

theorem cost_offSecond : (offSecond s first second).cost = spent s 4 := by
  rw [spent_succ s 3 rfl, ← cost_atSecond s first]
  rfl

theorem cost_offThird : (offThird s first second third).cost = spent s 5 := by
  rw [spent_succ s 4 rfl, ← cost_offSecond s first second]
  rfl

end arrivals

/-! ## Leg by leg -/

/-- How the sample journey is cut short: by an overflow, or by a ride that is missed. -/
def CutShort (s : Settings) : Failure RideRefusal → Prop
  | .fault f => f.IsOverflow ∧ Overflows s
  | .refused _ => ¬ Caught s ∧ ¬ Overflows s

theorem cutShort_of_hinders {s : Settings} {x : Extender} {a : Arrival} {p : Pattern}
    {boardTime : Int} {fits : Prop}
    (hover : ¬ x.BoardingFits a p ∨ x.boardable a p ≤ boardTime ∧ ¬ fits → Overflows s)
    (hmissed : x.BoardingFits a p ∧ boardTime < x.boardable a p → ¬ Caught s ∧ ¬ Overflows s) :
    ∀ failure, x.Hinders a p boardTime fits failure → CutShort s failure
  | .fault _, h => ⟨h.1, hover h.2⟩
  | .refused _, h => hmissed h

section legs

variable {s : Settings} (hs : s.Valid)

include hs

/-- A ride of the sample from an arrival, by its wait and by what has been spent. -/
theorem ride_ends {arena : Arena} {last tag alightStop : Nat} {a : Arrival}
    {trip : Shared TimedTrip} {boardTime alightTime : Int} (wait ride stops : Int) (first : Bool)
    (ha : arena.get last = .ok a) (hruns : Runs trip tag a.stop alightStop boardTime alightTime)
    (hfirst : (a.kind == .access) = first) (hround : a.round + 1 < roundLimit)
    (hspent : 0 ≤ a.cost)
    (hwait : boardTime - (router s).free a + s.slack.alight = wait)
    (hwait' : 0 ≤ wait) (hride : alightTime - boardTime = ride) (hride' : 0 ≤ ride)
    (hrange : ride ≤ maxInt) (hstops : (rates s).stopsCost a.stop alightStop = stops)
    (hstops' : 0 ≤ stops) :
    Ends
      (fun out => out = arena.record (afterRide a last trip alightStop boardTime alightTime
          (rideCharge s stops first wait ride)) ∧
        (router s).boardable a trip.value.pattern ≤ boardTime ∧
        wait ≤ maxInt ∧ a.cost + rideCharge s stops first wait ride ≤ maxInt)
      ((router s).Hinders a trip.value.pattern boardTime
        (wait ≤ maxInt ∧ a.cost + rideCharge s stops first wait ride ≤ maxInt))
      ((Plan.Step.ride trip 0 1).run (router s) arena last) := by
  have hcharge := rideCharge_exactly hs first hstops hstops' hwait' hride'
  have hstops'' := le_rideCharge hs stops first hwait' hride'
  rw [← hfirst, ← hwait, ← hride] at hcharge
  have hends := step_ends (x := router s) ha hruns.leads hcharge
  rw [hfirst, hwait, hride] at hends
  have haboard : InRange (alightTime - boardTime) := by
    rw [hride]
    exact inRange_of_nonneg hride' hrange
  have hfits : ∀ hcaught : (router s).boardable a trip.value.pattern ≤
      boardTime, (router s).RideFits a trip.value.pattern boardTime
        alightTime (rideCharge s stops first wait ride ≤ maxInt) ∧
          InRange (a.cost + rideCharge s stops first wait ride) ↔
      wait ≤ maxInt ∧ a.cost + rideCharge s stops first wait ride ≤ maxInt := by
    intro hcaught
    rw [rideFits_iff hs.slack hcaught haboard hround]
    show (boardTime - (router s).free a + s.slack.alight ≤ maxInt ∧ _) ∧ _ ↔
      _
    rw [hwait]
    constructor
    · exact fun ⟨⟨hwait, _⟩, hcost⟩ => ⟨hwait, hcost.2⟩
    · exact fun ⟨hwait, hcost⟩ => ⟨⟨hwait, by omega⟩, inRange_of_nonneg (by omega) hcost⟩
  refine hends.mono ?_ ?_
  · rintro _ ⟨rfl, hcaught, hrest⟩
    exact ⟨rfl, hcaught, (hfits hcaught).mp hrest⟩
  · rintro (f | reason) h
    · exact ⟨h.1, h.2.imp_right fun ⟨hcaught, hnot⟩ =>
        ⟨hcaught, fun hrest => hnot ((hfits hcaught).mpr hrest)⟩⟩
    · exact h

theorem charges_nonneg : ∀ charge ∈ charges s, 0 ≤ charge := by
  have halight := hs.alightSlack
  have hstops : (0 : Int) ≤ 3000 ∧ (0 : Int) ≤ 6000 := by decide
  intro charge hmem
  simp only [charges, List.mem_cons, List.not_mem_nil, or_false] at hmem
  rcases hmem with rfl | rfl | rfl | rfl | rfl | rfl
  · exact walkCharge_nonneg hs (by omega)
  · exact hstops.1.trans (le_rideCharge hs 3000 true (by omega) (by omega))
  · exact walkCharge_nonneg hs (by omega)
  · exact hstops.2.trans (le_rideCharge hs 6000 false (by omega) (by omega))
  · exact hstops.2.trans (le_rideCharge hs 6000 false (by omega) (by omega))
  · exact walkCharge_nonneg hs (by omega)

/-- What has been spent never gets less. -/
theorem spent_mono : Monotone (spent s) := by
  refine monotone_nat_of_le_succ fun legs => ?_
  unfold spent
  rw [List.take_add_one, List.sum_append]
  cases hcharge : (charges s)[legs]? with
  | none => simp
  | some charge =>
      have hnonneg := charges_nonneg hs charge (List.mem_of_getElem? hcharge)
      simpa using hnonneg

theorem spent_nonneg (legs : Nat) : 0 ≤ spent s legs := spent_mono hs (Nat.zero_le legs)

theorem first_ends {first : Shared TimedTrip} (hfirst : Runs first 0 1 2 36240 38100) :
    Ends (fun out => out = ({ arrivals := [offFirst s first, atFirst s] }, 1) ∧
        s.slack.board ≤ 45 ∧ spent s 2 ≤ maxInt)
      (CutShort s)
      ((Plan.Step.ride first 0 1).run (router s) { arrivals := [atFirst s] } 0) := by
  have hboard := hs.boardSlack
  have halight := hs.alightSlack
  have hspent : spent s 2 = spent s 1 + _ := spent_succ s 1 rfl
  have hspent' : spent s 2 ≤ spent s 3 := spent_mono hs (Nat.le_succ 2)
  have hboardable : (router s).boardable (atFirst s) first.value.pattern = 36195 + s.slack.board :=
    boardable_of_walk rfl _
  have hboarding : (router s).BoardingFits (atFirst s) first.value.pattern ↔
      InRange (36195 + s.slack.board) := boardingFits_of_walk rfl _
  have hround : 0 + 1 < roundLimit := by decide
  have hlast : Arena.get { arrivals := [atFirst s] } 0 = .ok (atFirst s) := rfl
  have hends := ride_ends hs (45 + s.slack.alight) 1860 3000 true hlast hfirst rfl hround
    (cost_atFirst s ▸ spent_nonneg hs 1) rfl (by omega) rfl (by omega) (by decide) rfl (by omega)
  rw [hboardable, cost_atFirst, ← hspent] at hends
  refine hends.mono ?_ (cutShort_of_hinders ?_ ?_)
  · rintro _ ⟨rfl, hcaught, _, htotal⟩
    exact ⟨rfl, by omega, htotal⟩
  · rw [hboarding, hboardable]
    unfold InRange minInt Overflows
    omega
  · rw [hboarding, hboardable]
    unfold InRange Caught Overflows
    omega

theorem change_ends (first : Shared TimedTrip) (hcaught : s.slack.board ≤ 45) :
    Ends (fun out =>
        out = ({ arrivals := [atSecond s first, offFirst s first, atFirst s] }, 2) ∧
        38325 + s.slack.alight ≤ maxInt ∧ spent s 3 ≤ maxInt)
      (CutShort s)
      ((Plan.Step.walk { stop := 3, duration := 225 }).run (router s)
        { arrivals := [offFirst s first, atFirst s] } 1) := by
  have hboard := hs.boardSlack
  have halight := hs.alightSlack
  have hspent : spent s 3 = spent s 2 + _ := spent_succ s 2 rfl
  have hspent' := spent_nonneg hs 3
  have hfree : (router s).free (offFirst s first) = 38100 + s.slack.alight := rfl
  have hlast : Arena.get { arrivals := [offFirst s first, atFirst s] } 1 =
      .ok (offFirst s first) := rfl
  have hwalk : (router s).cost.walk 225 = .ok (walkCharge s 225) := rfl
  have hexactly := transfer_exactly (w := { stop := 3, duration := 225 }) hlast hwalk
  unfold FreeFits at hexactly
  rw [hfree, cost_offFirst, ← hspent] at hexactly
  refine Ends.ofChecked (hexactly.ends ?_ ?_)
  · rintro ⟨_, htime, htotal⟩
    have htime' : 38100 + s.slack.alight + 225 ≤ maxInt := htime.2
    exact ⟨rfl, by omega, htotal.2⟩
  · intro hnot f hoverflow
    refine ⟨hoverflow, ?_⟩
    by_contra hwithin
    unfold Overflows at hwithin
    refine hnot ⟨fun _ => inRange_of_nonneg (by omega) (by omega), ?_, ?_⟩
    · exact inRange_of_nonneg (n := 38100 + s.slack.alight + 225) (by omega) (by omega)
    · exact inRange_of_nonneg hspent' (by omega)

theorem second_ends {first second : Shared TimedTrip} (hsecond : Runs second 1 3 4 39600 40980)
    (hcaught : s.slack.board ≤ 45) (hwithin : spent s 3 ≤ maxInt) :
    Ends (fun out =>
        out = ({ arrivals :=
            [offSecond s first second, atSecond s first, offFirst s first, atFirst s] }, 3) ∧
        s.slack.board + s.slack.alight ≤ 1275 ∧ spent s 4 ≤ maxInt)
      (CutShort s)
      ((Plan.Step.ride second 0 1).run (router s)
        { arrivals := [atSecond s first, offFirst s first, atFirst s] } 2) := by
  have hboard := hs.boardSlack
  have halight := hs.alightSlack
  have hspent : spent s 4 = spent s 3 + _ := spent_succ s 3 rfl
  have htime : (atSecond s first).time = 38325 + s.slack.alight := by
    show 38100 + s.slack.alight + 225 = _
    omega
  have hfree : (router s).free (atSecond s first) = 38325 + s.slack.alight := htime
  have hboardable : (router s).boardable (atSecond s first) second.value.pattern =
      38325 + s.slack.alight + s.slack.board := by
    rw [← htime]
    exact boardable_of_walk rfl _
  have hboarding : (router s).BoardingFits (atSecond s first) second.value.pattern ↔
      InRange (38325 + s.slack.alight + s.slack.board) := by
    rw [← htime]
    exact boardingFits_of_walk rfl _
  have hround : 1 + 1 < roundLimit := by decide
  have hwait : 39600 - (router s).free (atSecond s first) + s.slack.alight = 1275 := by
    rw [hfree]
    omega
  have hlast : Arena.get { arrivals := [atSecond s first, offFirst s first, atFirst s] } 2 =
      .ok (atSecond s first) := rfl
  have hends := ride_ends hs 1275 1380 6000 false hlast hsecond rfl hround
    (cost_atSecond s first ▸ spent_nonneg hs 3) hwait (by omega) rfl (by omega) (by decide) rfl
    (by omega)
  rw [hboardable, cost_atSecond, ← hspent] at hends
  refine hends.mono ?_ (cutShort_of_hinders ?_ ?_)
  · rintro _ ⟨rfl, hcaught, _, htotal⟩
    exact ⟨rfl, by omega, htotal⟩
  · rw [hboarding, hboardable]
    unfold InRange minInt Overflows
    omega
  · rw [hboarding, hboardable]
    unfold InRange Caught Overflows
    omega

theorem third_ends {first second third : Shared TimedTrip}
    (hthird : Runs third 2 4 5 42000 42720)
    (hfirst : s.slack.board ≤ 45) (hcaught : s.slack.board + s.slack.alight ≤ 1275)
    (hwithin : spent s 4 ≤ maxInt) :
    Ends (fun out =>
        out = ({ arrivals := [offThird s first second third, offSecond s first second,
            atSecond s first, offFirst s first, atFirst s] }, 4) ∧
        s.slack.board + s.slack.alight ≤ 1020 ∧ s.slack.transfer ≤ 1020 ∧ spent s 5 ≤ maxInt)
      (CutShort s)
      ((Plan.Step.ride third 0 1).run (router s)
        { arrivals := [offSecond s first second, atSecond s first, offFirst s first, atFirst s] }
        3) := by
  have hboard := hs.boardSlack
  have halight := hs.alightSlack
  have htransfer := hs.transferSlack
  have hspent : spent s 5 = spent s 4 + _ := spent_succ s 4 rfl
  have hspent' : spent s 3 ≤ spent s 4 := spent_mono hs (Nat.le_succ 3)
  have hspent'' : spent s 5 ≤ spent s 6 := spent_mono hs (Nat.le_succ 5)
  have hfree : (router s).free (offSecond s first second) = 40980 + s.slack.alight := rfl
  have hboardable : (router s).boardable (offSecond s first second) third.value.pattern =
      max (40980 + s.slack.alight + s.slack.board) (40980 + s.slack.transfer) :=
    boardable_of_ride rfl _
  have hboarding : (router s).BoardingFits (offSecond s first second) third.value.pattern ↔
      InRange (40980 + s.slack.alight) ∧ InRange (40980 + s.slack.alight + s.slack.board) ∧
        InRange (40980 + s.slack.transfer) := boardingFits_of_ride rfl _
  have hround : 2 + 1 < roundLimit := by decide
  have hwait : 42000 - (router s).free (offSecond s first second) + s.slack.alight = 1020 := by
    rw [hfree]
    omega
  have hlast : Arena.get
      { arrivals := [offSecond s first second, atSecond s first, offFirst s first, atFirst s] } 3 =
      .ok (offSecond s first second) := rfl
  have hends := ride_ends hs 1020 720 6000 false hlast hthird rfl hround
    (cost_offSecond s first second ▸ spent_nonneg hs 4) hwait (by omega) rfl (by omega) (by decide)
    rfl (by omega)
  rw [hboardable, cost_offSecond, ← hspent] at hends
  refine hends.mono ?_ (cutShort_of_hinders ?_ ?_)
  · rintro _ ⟨rfl, hcaught, _, htotal⟩
    exact ⟨rfl, by omega, by omega, htotal⟩
  · rw [hboarding, hboardable]
    unfold InRange minInt Overflows
    unfold maxInt at *
    omega
  · rw [hboarding, hboardable]
    unfold InRange Caught Overflows
    unfold maxInt at *
    omega

theorem egress_ends (first second third : Shared TimedTrip)
    (hcaught : Caught s) :
    Ends (fun out => spent s 6 ≤ maxInt ∧ ∃ last, out.1.getEgress out.2 = .ok last ∧
        last.time = 43185 + s.slack.alight ∧ last.cost = spent s 6)
      (CutShort s)
      (liftM ((router s).egress { arrivals := [offThird s first second third,
        offSecond s first second, atSecond s first, offFirst s first, atFirst s] } 4 465) :
          Outcome RideRefusal (Arena × Nat)) := by
  obtain ⟨hboard, hchange, htransfer⟩ := hcaught
  have hboard' := hs.boardSlack
  have halight := hs.alightSlack
  have hspent : spent s 6 = spent s 5 + _ := spent_succ s 5 rfl
  have hspent' := spent_nonneg hs 6
  have hfree : (router s).free (offThird s first second third) = 42720 + s.slack.alight := rfl
  have hlast : Arena.get { arrivals := [offThird s first second third, offSecond s first second,
      atSecond s first, offFirst s first, atFirst s] } 4 = .ok (offThird s first second third) :=
    rfl
  have hwalk : (router s).cost.walk 465 = .ok (walkCharge s 465) := rfl
  have hexactly := egress_exactly hlast hwalk
  unfold FreeFits at hexactly
  rw [hfree, cost_offThird, ← hspent] at hexactly
  refine Ends.ofChecked (hexactly.ends ?_ ?_)
  · rintro ⟨_, _, htotal⟩
    refine ⟨htotal.2, _, rfl, ?_, ?_⟩
    · show 42720 + s.slack.alight + 465 = _
      omega
    · show (offThird s first second third).cost + _ = _
      rw [cost_offThird, hspent]
  · intro hnot f hoverflow
    refine ⟨hoverflow, ?_⟩
    by_contra hwithin
    unfold Overflows maxInt at hwithin
    refine hnot ⟨fun _ => ?_, ?_, ?_⟩
    · exact inRange_of_nonneg (by omega) (by unfold maxInt; omega)
    · exact inRange_of_nonneg (n := 42720 + s.slack.alight + 465) (by omega)
        (by unfold maxInt; omega)
    · exact inRange_of_nonneg hspent' (by unfold maxInt; omega)

/-- The steps of the sample journey, one after the other. -/
theorem steps_ends {first second third : Shared TimedTrip}
    (hfirst : Runs first 0 1 2 36240 38100) (hsecond : Runs second 1 3 4 39600 40980)
    (hthird : Runs third 2 4 5 42000 42720) :
    Ends (fun out =>
        out = ({ arrivals := [offThird s first second third, offSecond s first second,
            atSecond s first, offFirst s first, atFirst s] }, 4) ∧ Caught s)
      (CutShort s)
      (Plan.runSteps (router s)
        [.ride first 0 1, .walk { stop := 3, duration := 225 }, .ride second 0 1, .ride third 0 1]
        { arrivals := [atFirst s] } 0) := by
  refine Ends.bind (first_ends hs hfirst) ?_
  rintro _ ⟨rfl, hboard, _⟩
  refine Ends.bind (change_ends hs first hboard) ?_
  rintro _ ⟨rfl, _, hspent⟩
  refine Ends.bind (second_ends hs hsecond hboard hspent) ?_
  rintro _ ⟨rfl, hchange, hspent⟩
  refine Ends.bind (third_ends hs hthird hboard hchange hspent) ?_
  rintro _ ⟨rfl, hchange, htransfer, _⟩
  exact ⟨rfl, hboard, hchange, htransfer⟩

theorem chain_ends {p : Plan} {first second third : Shared TimedTrip}
    (hp : Planned p first second third) :
    Ends (fun out => Caught s ∧ spent s 6 ≤ maxInt ∧ ∃ last, out.1.getEgress out.2 = .ok last ∧
        last.time = 43185 + s.slack.alight ∧ last.cost = spent s 6)
      (CutShort s) (p.run (router s) {}) := by
  unfold Plan.run
  rw [hp.departure, hp.access, hp.steps, hp.egress, access_eq]
  refine Ends.bind (Ends.of_ok (a := ({ arrivals := [atFirst s] }, 0)) rfl rfl) ?_
  rintro _ rfl
  refine Ends.bind (steps_ends hs hp.first hp.second hp.third) ?_
  rintro _ ⟨rfl, hcaught⟩
  refine (egress_ends hs first second third hcaught).mono ?_ fun _ h => h
  exact fun _ h => ⟨hcaught, h⟩

end legs

/-! ## The journey -/

/-- How the sample journey ends. -/
def Stops (s : Settings) : Failure Refusal → Prop
  | .fault f => f.IsOverflow ∧ Overflows s
  | .refused refusal => ¬ Caught s ∧ ¬ Overflows s ∧ ∃ reason, refusal = .ride reason

/-- A chain that is complete is checked, assembled and described, where its cost can
be rounded. -/
theorem finish_ends {s : Settings} (hs : s.Valid) {p : Plan} {first second third : Shared TimedTrip}
    (hp : Planned p first second third) {arena : Arena} {e : Nat}
    (hcarries : (router s).Carries p arena e)
    (hchain : Caught s ∧ spent s 6 ≤ maxInt ∧ ∃ last, arena.getEgress e = .ok last ∧
      last.time = 43185 + s.slack.alight ∧ last.cost = spent s 6) :
    Ends (fun i => Caught s ∧ ¬ Overflows s ∧ ∃ text, Program.describe i = .ok text) (Stops s)
      (do
        widen .chain (arena.validate e)
        widen .itinerary (arena.assemble .forward e)) := by
  obtain ⟨hcaught, hspent, last, hlast, htime, hcost⟩ := hchain
  have hcosts := (CostRates.nonnegative_ofSettings hs stopCharges_nonneg).model
  have hvalidate := validate_eq_ok hs.slack hcosts hp.admissible hcarries hp.fresh
  rw [hvalidate]
  show Ends _ _ (widen .itinerary (arena.assemble .forward e))
  obtain ⟨hboard, hchange, htransfer⟩ := id hcaught
  have hboard' := hs.boardSlack
  have halight := hs.alightSlack
  have hspent₃ : spent s 3 ≤ spent s 6 := spent_mono hs (by decide)
  have hspent₄ : spent s 4 ≤ spent s 6 := spent_mono hs (by decide)
  have hspent₆ := spent_nonneg hs 6
  have hhalf : Cost.scale / 2 = 50 := rfl
  by_cases hround : InRange (last.cost + Cost.scale / 2)
  · have hspan : InRange (last.time - p.departure) := by
      rw [htime, hp.departure]
      exact inRange_of_nonneg (by omega) (by unfold maxInt; omega)
    obtain ⟨nodes, i, hi, htells, hwithin⟩ :=
      assemble_eq_ok hs.slack hcosts hp.admissible hp.connected hcarries hlast hspan hround
    obtain ⟨text, htext⟩ := Program.describe_eq_ok htells hwithin hspan
    rw [hi]
    refine ⟨hcaught, ?_, text, htext⟩
    have hmost := hround.2
    rw [hcost, hhalf] at hmost
    unfold Overflows
    unfold maxInt at *
    omega
  · rw [assemble_overflows hcarries hlast hround]
    refine ⟨trivial, ?_⟩
    have hmore : maxInt < spent s 6 + 50 := by
      by_contra hfits
      refine hround ?_
      rw [hcost, hhalf]
      exact inRange_of_nonneg (by omega) (by omega)
    exact .inr ⟨hboard, .inr (.inr ⟨by omega, .inr (.inr ⟨hchange, htransfer, hmore⟩)⟩)⟩

theorem journey_ends {s : Settings} (hs : s.Valid) :
    Ends (fun i => Caught s ∧ ¬ Overflows s ∧ ∃ text, Program.describe i = .ok text) (Stops s)
      (journey s) := by
  obtain ⟨snapshot, p, first, second, third, hsnapshot, hplan, hplanned⟩ := plan_eq_ok
  unfold journey
  refine Ends.bind (Ends.of_ok hsnapshot rfl) ?_
  rintro _ rfl
  refine Ends.bind (Ends.of_ok hplan rfl) ?_
  rintro _ rfl
  refine Ends.bind (Ends.ofChecked (Ends.of_ok (extender_eq s) rfl)) ?_
  rintro _ rfl
  have hchain := chain_ends hs hplanned
  cases hrun : p.run (router s) {} with
  | error failure =>
      rw [hrun] at hchain
      cases failure with
      | fault f => exact hchain
      | refused reason => exact ⟨hchain.1, hchain.2, reason, rfl⟩
  | ok out =>
      obtain ⟨arena, e⟩ := out
      rw [hrun] at hchain
      exact finish_ends hs hplanned (carries_of_run hrun) hchain

end Sample

namespace Settings

theorem valid_of_ofFile {file : String} {read : FileRead} {s : Settings}
    (h : ofFile file read = .ok s) : s.Valid := by
  cases read with
  | failed cause => cases h
  | content bytes =>
      unfold ofFile at h
      cases hdecode : Utf8.decode? bytes with
      | none =>
          simp only [hdecode] at h
          cases h
      | some document =>
          simp only [hdecode] at h
          unfold ofDocument at h
          cases hread : (Json.read? document).bind ofJson? with
          | none =>
              rw [hread] at h
              cases h
          | some settings =>
              rw [hread] at h
              change settings.validate.map _ = _ at h
              cases hvalidate : settings.validate with
              | error e =>
                  rw [hvalidate] at h
                  cases h
              | ok _ =>
                  rw [hvalidate] at h
                  cases h
                  exact valid_of_validate hvalidate

end Settings

namespace Program

theorem run_file (file : String) (read : Settings.FileRead) :
    run (some (file, read)) =
      match Settings.ofFile file read with
      | .ok settings => reportJourney settings
      | .error e => .ok (failure e.message) :=
  rfl

/-- On every settings file the program ends with the journey and 0, or with one message
and 1: what is wrong with the file, or the ride that is missed. Only a number out of
range can stand in between, and it does exactly where the settings say so. -/
theorem reports_or_overflows (file : String) (read : Settings.FileRead) :
    Ends
      (fun report =>
        (∃ e, Settings.ofFile file read = .error e ∧ report = failure e.message) ∨
        ∃ s, Settings.ofFile file read = .ok s ∧ ¬ Sample.Overflows s ∧
          (Sample.Caught s ∧ (∃ i stdout, Sample.journey s = .ok i ∧ describe i = .ok stdout ∧
              report = { exitCode := 0, stdout }) ∨
            ¬ Sample.Caught s ∧ ∃ refusal, Sample.journey s = .error (.refused (.ride refusal)) ∧
              report = failure refusal.message))
      (fun f => f.IsOverflow ∧ ∃ s, Settings.ofFile file read = .ok s ∧ Sample.Overflows s)
      (run (some (file, read))) := by
  rw [run_file]
  cases hsettings : Settings.ofFile file read with
  | error e => exact .inl ⟨e, rfl, rfl⟩
  | ok s =>
      have hends := Sample.journey_ends (Settings.valid_of_ofFile hsettings)
      show Ends _ _ (reportJourney s)
      unfold reportJourney
      cases hjourney : Sample.journey s with
      | ok i =>
          rw [hjourney] at hends
          obtain ⟨hcaught, hover, text, htext⟩ := hends
          show Ends _ _ (describe i >>= _)
          rw [htext]
          exact .inr ⟨s, rfl, hover, .inl ⟨hcaught, i, text, hjourney, htext, rfl⟩⟩
      | error failure =>
          rw [hjourney] at hends
          cases failure with
          | fault f => exact ⟨hends.1, s, rfl, hends.2⟩
          | refused refusal =>
              obtain ⟨hmissed, hover, reason, rfl⟩ := hends
              exact .inr ⟨s, rfl, hover, .inr ⟨hmissed, reason, hjourney, rfl⟩⟩

/-- A document whose only value is the greatest board slack that is accepted. -/
def eternalSlack : List UInt8 := "[[],[2147483647]]".toUTF8.toList

theorem eternalSlack_overflows :
    run (some ("settings.json", .content eternalSlack)) = .error .addOverflow := by
  decide +kernel

end Program

end Journey
