import Journey.Proofs.Search.Trail
import Mathlib.Algebra.Ring.Int.Defs
import Mathlib.Data.List.Chain

/-!
# Time to change trips

How long after the arrival of one ride the next one is boarded at the earliest.
`Extender.changeTime` is the exact answer of the extender:

* from a ride straight to the next, the greater of the transfer slack and the
  two other slacks together;
* with walks in between, their durations and the slacks for alighting and
  boarding, **without** the transfer slack.

No two rides of a chain are closer, and no more is asked for: a ride that is
refused as missed departs before that time. So the transfer slack is kept where
no walk lies between, or where the walks take long enough, and is not kept
elsewhere (`shortWalk`).
-/

namespace Journey.Extender

/-- Seconds that the walk of an arrival took. -/
def walked (a : Arrival) : Int :=
  match a.fromTime? with
  | some fromTime => a.time - fromTime
  | none => 0

/-- Seconds from the arrival of a ride to the earliest boarding of the next one,
after walks. -/
def changeTime (x : Extender) (left boarded : Pattern) (walks : List Arrival) : Int :=
  if walks = [] then max (x.slack.alight left + x.slack.board boarded) x.slack.transfer
  else x.slack.alight left + (walks.map walked).sum + x.slack.board boarded

/-- The history goes back over walks to a ride. -/
structure AfterRide (left : Shared TimedTrip) (ridden : Arrival) (walks history : List Arrival) :
    Prop where
  split : ∃ older, history = walks ++ ridden :: older
  walks : ∀ a ∈ walks, a.isTransit = false
  trip : ridden.trip? = some left

def Linked (x : Extender) (after before : Arrival) : Prop := ∃ s, x.Adds before s after

theorem Trail.linked {x : Extender} {departure : Int} {w : Walk} {steps : List Plan.Step}
    {arena : Arena} {last : Nat} (h : x.Trail departure w steps arena last) :
    (∃ now, arena.get last = .ok now) ∧ (arena.history last).IsChain x.Linked := by
  induction h with
  | start haccess =>
      obtain ⟨first, _, hhistory⟩ := history_of_start haccess
      rw [hhistory]
      refine ⟨⟨first, ?_⟩, .singleton first⟩
      rw [Arena.get_eq_ok_iff_head?_history, hhistory]
      rfl
  | step _ hrun ih =>
      obtain ⟨before, after, hbefore, hadds, hhistory⟩ := history_of_run hrun
      rw [hhistory]
      refine ⟨⟨after, ?_⟩, ih.2.cons fun now hnow => ?_⟩
      · rw [Arena.get_eq_ok_iff_head?_history, hhistory]
        rfl
      · rw [Arena.get_eq_ok_iff_head?_history] at hbefore
        rw [hbefore] at hnow
        cases hnow
        exact ⟨_, hadds⟩
  | later _ hle ih =>
      obtain ⟨⟨now, hnow⟩, hchain⟩ := ih
      rw [hle.history (Arena.lt_length_of_get hnow)]
      exact ⟨⟨now, hle.get hnow⟩, hchain⟩

theorem isTransit_of_trip? {a : Arrival} {trip : Shared TimedTrip} (h : a.trip? = some trip) :
    a.isTransit = true := by
  unfold Arrival.trip? at h
  split at h
  · rename_i hhow
    simp [Arrival.isTransit, Arrival.kind, hhow]
  · cases h

section

variable {x : Extender} {left : Shared TimedTrip} {walks older : List Arrival}
  {ridden now : Arrival}

/-- Walking moves the time at which the traveller is free by as long as it takes. -/
theorem free_of_walk {before after : Arrival} (h : x.Linked after before)
    (hwalk : after.isTransit = false) : x.free after = x.free before + walked after := by
  obtain ⟨s, hadds⟩ := h
  cases s with
  | walk w =>
      have hwalks : x.WalksTo before w after := hadds
      have htrip : after.trip? = none := by simp only [Arrival.trip?, hwalks.how]
      have hfrom : after.fromTime? = some (x.free before) := by
        simp only [Arrival.fromTime?, hwalks.how]
      unfold free walked
      rw [htrip, hfrom]
      show after.time = x.free before + (after.time - x.free before)
      omega
  | ride trip board alight =>
      obtain ⟨_, hride⟩ := hadds
      simp [Arrival.isTransit, Arrival.kind, hride.how] at hwalk

/-- So does any number of walks. The latest arrival stands first. -/
theorem free_of_walks (h : (walks ++ ridden :: older).IsChain x.Linked)
    (hwalks : ∀ a ∈ walks, a.isTransit = false)
    (hnow : (walks ++ ridden :: older).head? = some now) :
    x.free now = x.free ridden + (walks.map walked).sum := by
  induction walks generalizing now with
  | nil =>
      cases hnow
      show x.free ridden = x.free ridden + 0
      omega
  | cons a rest ih =>
      cases hnow
      rw [List.cons_append, List.isChain_cons] at h
      obtain ⟨before, hbefore⟩ : ∃ before, (rest ++ ridden :: older).head? = some before := by
        cases rest with
        | nil => exact ⟨ridden, rfl⟩
        | cons b _ => exact ⟨b, rfl⟩
      have hlinked : x.Linked a before := h.1 before hbefore
      have hrest := ih h.2 (fun b hb => hwalks b (List.mem_cons_of_mem _ hb)) hbefore
      rw [free_of_walk hlinked (hwalks a List.mem_cons_self), hrest, List.map_cons, List.sum_cons]
      omega

/-- After a ride and walks, boarding is possible from the time to change on. -/
theorem boardable_after_walks {history : List Arrival} (hafter : AfterRide left ridden walks history)
    (h : history.IsChain x.Linked) (hnow : history.head? = some now) (boarded : Pattern) :
    x.boardable now boarded = ridden.time + x.changeTime left.value.pattern boarded walks := by
  obtain ⟨⟨older, rfl⟩, hwalks, htrip⟩ := hafter
  have hfree := free_of_walks h hwalks hnow
  have hridden : x.free ridden = ridden.time + x.slack.alight left.value.pattern := by
    unfold free
    rw [htrip]
  rw [hridden] at hfree
  cases walks with
  | nil =>
      -- only here the arrival is a ride, and the transfer slack looked at
      cases hnow
      unfold boardable changeTime
      rw [if_pos (isTransit_of_trip? htrip), if_pos rfl, hridden]
      omega
  | cons a rest =>
      cases hnow
      have hwalk : ¬ now.isTransit = true := by
        rw [hwalks now List.mem_cons_self]
        exact Bool.false_ne_true
      unfold boardable changeTime
      rw [if_neg hwalk, if_neg (List.cons_ne_nil _ _), hfree]
      omega

/-- A ride that was boarded then left no sooner than that. -/
theorem boarding_after_walks {boarding : Arrival} {rest : List Arrival} {stop : Nat}
    {boardTime : Int} {boarded : Shared TimedTrip} (hafter : AfterRide left ridden walks rest)
    (h : (boarding :: rest).IsChain x.Linked)
    (hboarding : boarding.how = .transit stop boardTime boarded) :
    ridden.time + x.changeTime left.value.pattern boarded.value.pattern walks ≤ boardTime := by
  obtain ⟨hhead, hchain⟩ := List.isChain_cons.mp h
  cases rest with
  | nil =>
      obtain ⟨⟨older, hnil⟩, _⟩ := hafter
      exact absurd hnil (by simp)
  | cons before rest =>
      obtain ⟨s, hadds⟩ := hhead before rfl
      rw [← boardable_after_walks hafter hchain rfl]
      cases s with
      | walk v =>
          have hwalks : x.WalksTo before v boarding := hadds
          rw [hwalks.how] at hboarding
          cases hboarding
      | ride trip board alight =>
          obtain ⟨_, hride⟩ := hadds
          have hhow := hride.how
          rw [hboarding] at hhow
          cases hhow
          exact hride.onTime

end

/-- In a chain of the extender, a ride is boarded no earlier than the time to
change after the ride before it, so the transfer slack is kept where the time to
change is no less. Where a ride is missed after that ride, the time to change is
what it is missed by. -/
theorem changeTime_of_trail {x : Extender} {departure : Int} {w : Walk}
    {steps : List Plan.Step} {arena : Arena} {last : Nat}
    (h : x.Trail departure w steps arena last) :
    (∀ newer boarding rest left ridden walks stop boardTime boarded,
      arena.history last = newer ++ boarding :: rest → AfterRide left ridden walks rest →
      boarding.how = .transit stop boardTime boarded →
      ridden.time + x.changeTime left.value.pattern boarded.value.pattern walks ≤ boardTime ∧
        (walks = [] ∨
          x.slack.transfer ≤ x.changeTime left.value.pattern boarded.value.pattern walks →
          ridden.time + x.slack.transfer ≤ boardTime)) ∧
    ∀ left ridden walks boarded board alight stop boardTime earliest arena',
      AfterRide left ridden walks (arena.history last) →
      x.ride arena last boarded board alight =
        .ok (arena', .error (.missedBoarding stop boardTime earliest)) →
      boardTime < earliest ∧ earliest =
        ridden.time + x.changeTime left.value.pattern boarded.value.pattern walks := by
  obtain ⟨_, hchain⟩ := h.linked
  constructor
  · intro newer boarding rest left ridden walks stop boardTime boarded hhistory hafter hboarding
    rw [hhistory] at hchain
    have hle := boarding_after_walks hafter hchain.right_of_append hboarding
    refine ⟨hle, fun hkept => ?_⟩
    rcases hkept with rfl | hkept
    · unfold changeTime at hle
      rw [if_pos rfl] at hle
      omega
    · omega
  · intro left ridden walks boarded board alight stop boardTime earliest arena' hafter hmissed
    obtain ⟨now, hnow, _, _, hearliest, hlate⟩ := missed_of_ride hmissed
    rw [Arena.get_eq_ok_iff_head?_history] at hnow
    rw [boardable_after_walks hafter hchain hnow] at hearliest
    exact ⟨hlate, hearliest⟩

theorem acrossTown_changeTime :
    ∃ arena boarding rest left ridden walks stop boardTime boarded,
      unhurried.Trail acrossTown.departure acrossTown.access acrossTown.steps arena 3 ∧
      arena.history 3 = boarding :: rest ∧ AfterRide left ridden walks rest ∧
      boarding.how = .transit stop boardTime boarded ∧
      ridden.time + unhurried.changeTime left.value.pattern boarded.value.pattern walks ≤
        boardTime ∧
      unhurried.changeTime left.value.pattern boarded.value.pattern walks = 10 + 30 + 5 := by
  have hrun : ∃ opened arena,
      unhurried.access {} acrossTown.departure acrossTown.access = .ok (opened, 0) ∧
      Plan.runSteps unhurried acrossTown.steps opened 0 = .ok (arena, 3) :=
    ⟨_, _, rfl, rfl⟩
  obtain ⟨opened, arena, haccess, hsteps⟩ := hrun
  have htrail := trail_of_runSteps haccess hsteps
  let walk : Arrival :=
    { round := 1, stop := 3, time := 440, cost := 440, previous := some 1, how := .transfer 410 }
  have hhistory : ∃ boarding ridden first left stop boardTime boarded,
      arena.history 3 = [boarding, walk, ridden, first] ∧ ridden.trip? = some left ∧
      boarding.how = .transit stop boardTime boarded ∧
      unhurried.changeTime left.value.pattern boarded.value.pattern [walk] = 10 + 30 + 5 := by
    cases haccess
    cases hsteps
    exact ⟨_, _, _, _, _, _, _, rfl, rfl, rfl, rfl⟩
  obtain ⟨boarding, ridden, first, left, stop, boardTime, boarded, hhistory, htrip, hboarding,
    htime⟩ := hhistory
  have hafter : AfterRide left ridden [walk] [walk, ridden, first] :=
    ⟨⟨[first], rfl⟩, by decide, htrip⟩
  have hlaw := ((changeTime_of_trail htrail).1 [] boarding _ left ridden [walk] stop boardTime
    boarded hhistory hafter hboarding).1
  exact ⟨arena, boarding, _, left, ridden, [walk], stop, boardTime, boarded, htrail, hhistory,
    hafter, hboarding, hlaw, htime⟩

/-- A ride, a walk of ten seconds, and a ride that departs as the walk ends. -/
def shortWalk : Plan where
  departure := 0
  access := { stop := 1, duration := 0 }
  steps :=
    [.ride { tag := 0, value := .bus "8" [(1, 0, 0), (2, 100, 100)] } 0 1,
     .walk { stop := 3, duration := 10 },
     .ride { tag := 1, value := .bus "9" [(3, 110, 110), (4, 200, 200)] } 0 1]
  egress := 0

/-- No buffer but for the change from one vehicle to the next. -/
def punctual : Extender where
  cost := .perSecond
  slack := { board := fun _ => 0, alight := fun _ => 0, transfer := 120 }

/-- The transfer slack is not kept between any two consecutive rides. -/
theorem shortWalk_undercuts_transfer :
    punctual.slack.Nonnegative ∧ shortWalk.Admissible ∧
    ∃ arena boarding walk ridden first left stop boarded,
      punctual.Trail shortWalk.departure shortWalk.access shortWalk.steps arena 3 ∧
      arena.history 3 = [boarding, walk, ridden, first] ∧ walk.isTransit = false ∧
      ridden.trip? = some left ∧ boarding.how = .transit stop 110 boarded ∧
      ridden.time = 100 ∧ 110 < 100 + punctual.slack.transfer := by
  refine ⟨⟨fun _ => Int.le_refl 0, fun _ => Int.le_refl 0, Int.natCast_nonneg 120⟩, ?_, ?_⟩
  · refine ⟨by decide, ?_, by decide⟩
    intro s hs
    simp only [shortWalk, List.mem_cons, List.not_mem_nil, or_false] at hs
    rcases hs with rfl | rfl | rfl
    · exact ⟨rfl, rfl⟩
    · exact Int.natCast_nonneg 10
    · exact ⟨rfl, rfl⟩
  · have hrun : ∃ opened arena,
        punctual.access {} shortWalk.departure shortWalk.access = .ok (opened, 0) ∧
        Plan.runSteps punctual shortWalk.steps opened 0 = .ok (arena, 3) :=
      ⟨_, _, rfl, rfl⟩
    obtain ⟨opened, arena, haccess, hsteps⟩ := hrun
    have htrail := trail_of_runSteps haccess hsteps
    cases haccess
    cases hsteps
    exact ⟨_, _, _, _, _, _, _, _, htrail, rfl, rfl, rfl, rfl, rfl, by decide⟩

end Journey.Extender
