import Journey.Proofs.Search.Extension
import Journey.Proofs.Timetable.Regular

/-!
# Trails

A `Trail` is a chain as the extender builds it: the walk to a first stop, then
step after step, each from the arrival that the last one added. Between steps
anything else may be recorded in the same arena, so a law of every trail is a
law for every order in which a search builds its chains, those included that
share their first steps.

* `Onward` tells a trail by its nodes alone, in travel order; every trail is
  told so (`Trail.onward`), and so is every completed one (`Carries.chain`);
* the round of a node counts the rides up to it (`Onward.round_last`).
-/

namespace Journey

/-! ## Assumptions -/

namespace CostModel

/-- No leg of no negative duration costs less than nothing. -/
structure Nonnegative (m : CostModel) : Prop where
  walk : ∀ {duration cost}, 0 ≤ duration → m.walk duration = .ok cost → 0 ≤ cost
  ride : ∀ {first boardStop wait aboard alightStop cost}, 0 ≤ wait → 0 ≤ aboard →
    m.ride first boardStop wait aboard alightStop = .ok cost → 0 ≤ cost

/-- Each second of walking, waiting and riding costs one unit. -/
def perSecond : CostModel where
  walk duration := .ok duration
  ride _ _ wait aboard _ := Checked.add wait aboard
  least duration _ := .ok duration

theorem perSecond_nonnegative : perSecond.Nonnegative where
  walk hduration h := by
    cases h
    exact hduration
  ride hwait haboard h := by
    obtain ⟨_, rfl⟩ := Checked.add_eq_ok_iff.mp h
    omega

end CostModel

namespace Plan

def Step.trip? : Step → Option (Shared TimedTrip)
  | .walk _ => none
  | .ride trip _ _ => some trip

def Step.isRide (s : Step) : Bool := s.trip?.isSome

/-- How many of the steps are rides. -/
def rides (steps : List Step) : Nat := steps.countP Step.isRide

theorem rides_walk (w : Walk) (steps : List Step) : rides (.walk w :: steps) = rides steps :=
  List.countP_cons_of_neg Bool.false_ne_true

theorem rides_ride (trip : Shared TimedTrip) (board alight : Nat) (steps : List Step) :
    rides (.ride trip board alight :: steps) = rides steps + 1 :=
  List.countP_cons_of_pos rfl

/-- The walk takes no less than no time, the trip is regular. -/
def Step.Admissible : Step → Prop
  | .walk w => 0 ≤ w.duration
  | .ride trip _ _ => trip.value.Regular

/-- The leg takes no less than no time, whether it is walked or ridden. -/
def Step.Timely : Step → Prop
  | .walk w => 0 ≤ w.duration
  | .ride trip board alight => ∀ boardTime alightTime, board < alight →
    alight < trip.value.pattern.stops.length → trip.value.departure board = .ok boardTime →
    trip.value.arrival alight = .ok alightTime → boardTime ≤ alightTime

theorem Step.Admissible.timely {s : Step} (h : s.Admissible) : s.Timely := by
  cases s with
  | walk w => exact h
  | ride trip board alight =>
      intro boardTime alightTime hforward hlt hboard halight
      exact TimedTrip.Regular.departure_le_arrival h hforward hlt hboard halight

/-- No walk takes less than no time, and all trips are regular. -/
structure Admissible (p : Plan) : Prop where
  access : 0 ≤ p.access.duration
  steps : ∀ s ∈ p.steps, s.Admissible
  egress : 0 ≤ p.egress

end Plan

namespace Extender

/-! ## Building -/

/-- The chain of an arrival has been built by these steps, after a walk to the
first stop. -/
inductive Trail (x : Extender) (departure : Int) (w : Walk) : List Plan.Step → Arena → Nat → Prop
  | start {arena arena' : Arena} {id : Nat} : x.access arena departure w = .ok (arena', id) →
      Trail x departure w [] arena' id
  | step {steps : List Plan.Step} {s : Plan.Step} {arena arena' : Arena} {last id : Nat} :
      Trail x departure w steps arena last → s.run x arena last = .ok (arena', id) →
      Trail x departure w (steps ++ [s]) arena' id
  /-- Anything may be recorded in between. -/
  | later {steps : List Plan.Step} {arena arena' : Arena} {last : Nat} :
      Trail x departure w steps arena last → arena.Extends arena' →
      Trail x departure w steps arena' last

/-- The arena holds, under this number, an egress whose chain has been built
leg by leg as a plan says. -/
def Carries (x : Extender) (p : Plan) (arena : Arena) (e : Nat) : Prop :=
  ∃ travelled closed last, x.Trail p.departure p.access p.steps travelled last ∧
    x.egress travelled last p.egress = .ok (closed, e) ∧ closed.Extends arena

theorem Trail.runSteps {x : Extender} {departure : Int} {w : Walk} {done steps : List Plan.Step}
    {arena arena' : Arena} {last id : Nat} (h : x.Trail departure w done arena last)
    (hrun : Plan.runSteps x steps arena last = .ok (arena', id)) :
    x.Trail departure w (done ++ steps) arena' id := by
  induction steps generalizing done arena last with
  | nil =>
      cases hrun
      rw [List.append_nil]
      exact h
  | cons s rest ih =>
      obtain ⟨⟨middle, next⟩, hstep, hrest⟩ := bind_eq_ok_iff.mp hrun
      have hnext := ih (.step h hstep) hrest
      rw [List.append_assoc] at hnext
      exact hnext

theorem trail_of_runSteps {x : Extender} {departure : Int} {w : Walk} {steps : List Plan.Step}
    {start opened arena : Arena} {first last : Nat}
    (haccess : x.access start departure w = .ok (opened, first))
    (hsteps : Plan.runSteps x steps opened first = .ok (arena, last)) :
    x.Trail departure w steps arena last :=
  (Trail.start haccess).runSteps hsteps

/-- A plan that is run is carried by the arena it leaves. -/
theorem carries_of_run {x : Extender} {p : Plan} {start arena : Arena} {e : Nat}
    (h : p.run x start = .ok (arena, e)) : x.Carries p arena e := by
  obtain ⟨⟨opened, first⟩, haccess, h⟩ := bind_eq_ok_iff.mp h
  obtain ⟨⟨travelled, last⟩, hsteps, hegress⟩ := bind_eq_ok_iff.mp h
  have htrail := trail_of_runSteps (Outcome.ofChecked_eq_ok_iff.mp haccess) hsteps
  exact ⟨travelled, arena, last, htrail, Outcome.ofChecked_eq_ok_iff.mp hegress,
    Arena.Extends.refl _⟩

/-! ## Nodes in travel order -/

/-- The nodes behind `before`, in travel order, are those of the steps, and then
perhaps the egress after a walk of `out` seconds. -/
inductive Onward (x : Extender) (out : Int) : Arrival → List Plan.Step → List Node → Prop
  | here {before : Arrival} : Onward x out before [] []
  | egress {before : Arrival} {e : Egress} : x.Completes before out e →
      Onward x out before [] [.egress e]
  | step {before after : Arrival} {s : Plan.Step} {steps : List Plan.Step} {nodes : List Node} :
      x.Adds before s after → Onward x out after steps nodes →
      Onward x out before (s :: steps) (.arrival after :: nodes)

/-- The chain of a trail, up to the arrival it has come to. -/
theorem Trail.onward {x : Extender} {departure : Int} {w : Walk} {steps : List Plan.Step}
    {arena : Arena} {last : Nat} (h : x.Trail departure w steps arena last) (out : Int) :
    ∃ first arrivals now, x.Starts departure w first ∧ arena.get last = .ok now ∧
      arena.history last = (first :: arrivals).reverse ∧
      ∀ rest nodes, x.Onward out now rest nodes →
        x.Onward out first (steps ++ rest) (arrivals.map .arrival ++ nodes) := by
  induction h with
  | start haccess =>
      obtain ⟨first, hstart, hhistory⟩ := history_of_start haccess
      refine ⟨first, [], first, hstart, ?_, hhistory, fun _ _ h => h⟩
      rw [Arena.get_eq_ok_iff_head?_history, hhistory]
      rfl
  | step _ hrun ih =>
      obtain ⟨first, arrivals, now, hstart, hnow, hhistory, honward⟩ := ih
      obtain ⟨before, after, hbefore, hadds, hhistory'⟩ := history_of_run hrun
      obtain rfl : now = before := Except.ok.inj (hnow.symm.trans hbefore)
      rw [hhistory] at hhistory'
      refine ⟨first, arrivals ++ [after], after, hstart, ?_, ?_, ?_⟩
      · rw [Arena.get_eq_ok_iff_head?_history, hhistory']
        rfl
      · rw [hhistory']
        simp
      · intro rest nodes hrest
        have hnext := honward _ _ (.step hadds hrest)
        simpa using hnext
  | later _ hle ih =>
      -- what is recorded later moves neither the arrival nor its history
      obtain ⟨first, arrivals, now, hstart, hnow, hhistory, honward⟩ := ih
      refine ⟨first, arrivals, now, hstart, hle.get hnow, ?_, honward⟩
      rw [hle.history (Arena.lt_length_of_get hnow), hhistory]

/-- The chain of an egress that is carried, with the egress at its end. -/
theorem Carries.chain {x : Extender} {p : Plan} {arena : Arena} {e : Nat}
    (h : x.Carries p arena e) :
    ∃ first nodes last, x.Starts p.departure p.access first ∧
      x.Onward p.egress first p.steps (nodes ++ [.egress last]) ∧
      arena.getEgress e = .ok last ∧
      arena.chain e = .ok (.arrival first :: (nodes ++ [.egress last])).reverse := by
  obtain ⟨travelled, closed, last, htrail, hegress, hlater⟩ := h
  obtain ⟨first, arrivals, now, hstart, hnow, hhistory, honward⟩ := htrail.onward p.egress
  obtain ⟨before, egress, hbefore, hcompletes, hprevious, harrivals, hget, hchain⟩ :=
    chain_of_egress hegress
  obtain rfl : now = before := Except.ok.inj (hnow.symm.trans hbefore)
  have hlt : egress.previous < closed.arrivals.length := by
    rw [hprevious, harrivals]
    exact Arena.lt_length_of_get hnow
  refine ⟨first, arrivals.map .arrival, egress, hstart, ?_, hlater.getEgress hget, ?_⟩
  · have hnodes := honward [] _ (.egress hcompletes)
    rw [List.append_nil] at hnodes
    exact hnodes
  · rw [hlater.chain hget hlt, hchain]
    unfold Arena.ancestors
    rw [hhistory]
    simp

/-! ## Along the nodes -/

theorem Adds.round {x : Extender} {before after : Arrival} {s : Plan.Step}
    (h : x.Adds before s after) :
    after.round = before.round + if s.isRide then 1 else 0 := by
  cases s with
  | walk w => exact WalksTo.round h
  | ride trip board alight =>
      obtain ⟨_, hride⟩ := h
      exact hride.round

/-- The last node has counted the rides. -/
theorem Onward.round_last {x : Extender} {out : Int} {before : Arrival} {steps : List Plan.Step}
    {nodes : List Node} (h : x.Onward out before steps nodes) :
    ∀ n, (Node.arrival before :: nodes).getLast? = some n →
      n.round = before.round + Plan.rides steps := by
  induction h with
  | here =>
      intro n hn
      cases hn
      rfl
  | egress hcompletes =>
      intro n hn
      cases hn
      exact hcompletes.round
  | step hadds _ ih =>
      intro n hn
      rw [List.getLast?_cons_cons] at hn
      rw [ih n hn, hadds.round, Plan.rides, Plan.rides, List.countP_cons]
      omega

/-! ## A sample -/

/-- A ride to the second call at a stop, a walk, and another ride. -/
def acrossTown : Plan where
  departure := 0
  access := { stop := 1, duration := 100 }
  steps :=
    [.ride { tag := 0, value := .bus "5" [(1, 100, 110), (2, 200, 210), (1, 300, 310),
       (2, 400, 410)] } 0 3,
     .walk { stop := 3, duration := 30 },
     .ride { tag := 1, value := .bus "6" [(3, 500, 500), (4, 600, 600)] } 0 1]
  egress := 60

/-- Buffers of some seconds for everything, and a cost of one for each second. -/
def unhurried : Extender where
  cost := .perSecond
  slack := { board := fun _ => 5, alight := fun _ => 10, transfer := 60 }

theorem unhurried_slack_nonnegative : unhurried.slack.Nonnegative :=
  ⟨fun _ => Int.natCast_nonneg 5, fun _ => Int.natCast_nonneg 10, Int.natCast_nonneg 60⟩

theorem acrossTown_admissible : acrossTown.Admissible := by
  refine ⟨by decide, ?_, by decide⟩
  intro s hs
  simp only [acrossTown, List.mem_cons, List.not_mem_nil, or_false] at hs
  rcases hs with rfl | rfl | rfl
  · exact ⟨rfl, rfl⟩
  · show (0 : Int) ≤ 30
    decide
  · exact ⟨rfl, rfl⟩

end Extender

end Journey
