import Journey.Proofs.Search.Trail
import Mathlib.Algebra.Ring.Int.Defs

/-!
# Where the time of a journey goes

Each second between leaving and being there is charged once: as walking,
waiting or riding. The alight slack of a trip is charged as waiting when the
trip is boarded, and the leg behind it starts that much later, so what a leg is
charged for is how far it moves the time at which the traveller is free:

* **one leg**: `Adds.free_eq`, with the `Enquiry` that the cost model answers
  for the leg;
* **a chain**: the seconds of all enquiries add up to the time between its ends
  (`Onward.seconds_eq`);
* **any cost model**: the enquiries of a complete chain are the same under every
  cost model (`Onward.enquiries_eq`), and their answers add up to its cost.
-/

namespace Journey

/-- What a cost model is asked about a leg. -/
inductive Enquiry where
  | walk (duration : Int)
  | ride (first : Bool) (boardStop : Nat) (wait aboard : Int) (alightStop : Nat)
  deriving DecidableEq, Repr

/-- Seconds of walking, waiting and riding. -/
def Enquiry.seconds : Enquiry → Int
  | walk duration => duration
  | ride _ _ wait aboard _ => wait + aboard

def CostModel.answer (m : CostModel) : Enquiry → Checked Int
  | .walk duration => m.walk duration
  | .ride first boardStop wait aboard alightStop => m.ride first boardStop wait aboard alightStop

/-- The enquiry is about this step: the whole walk, or the ride from the
departure where the trip is boarded to the arrival where it is left. -/
def Plan.Step.Asks : Plan.Step → Enquiry → Prop
  | .walk w, q => q = .walk w.duration
  | .ride trip board alight, q =>
    ∃ first boardStop wait boardTime alightTime alightStop,
      trip.value.departure board = .ok boardTime ∧ trip.value.arrival alight = .ok alightTime ∧
        q = .ride first boardStop wait (alightTime - boardTime) alightStop

/-- The enquiries are about this plan: the walk to the first stop, each step and
the walk from the last stop. -/
def Plan.Asks (p : Plan) (enquiries : List Enquiry) : Prop :=
  ∃ middle, List.Forall₂ Plan.Step.Asks p.steps middle ∧
    enquiries = .walk p.access.duration :: (middle ++ [.walk p.egress])

namespace Extender

/-! ## One leg -/

/-- What is asked about the leg from one arrival to the next. -/
def enquiry (x : Extender) (before after : Arrival) : Enquiry :=
  match after.how with
  | .transit boardStop boardTime trip =>
    .ride (before.kind == .access) boardStop
      (boardTime - x.free before + x.slack.alight trip.value.pattern) (after.time - boardTime)
      after.stop
  | .access fromTime | .transfer fromTime => .walk (after.time - fromTime)

section

variable {x : Extender} {before after : Arrival} {s : Plan.Step}

theorem WalksTo.enquiry_eq {w : Walk} (h : x.WalksTo before w after) :
    x.enquiry before after = .walk w.duration := by
  unfold enquiry
  rw [h.how, h.time]
  show Enquiry.walk (x.free before + w.duration - x.free before) = .walk w.duration
  congr 1
  omega

theorem RidesTo.enquiry_eq {trip : Shared TimedTrip} {board alight : Nat} {boardTime : Int}
    (h : x.RidesTo before trip board alight boardTime after) :
    x.enquiry before after =
      .ride (before.kind == .access) before.stop
        (boardTime - x.free before + x.slack.alight trip.value.pattern) (after.time - boardTime)
        after.stop := by
  unfold enquiry
  rw [h.how]

theorem Adds.asks (h : x.Adds before s after) : s.Asks (x.enquiry before after) := by
  cases s with
  | walk w => exact WalksTo.enquiry_eq h
  | ride trip board alight =>
      obtain ⟨boardTime, hride⟩ := h
      exact ⟨_, _, _, boardTime, after.time, _, hride.departs.2, hride.arrives.2, hride.enquiry_eq⟩

/-- What the model answers is what the leg adds to the cost. -/
theorem Adds.answer (h : x.Adds before s after) :
    ∃ charge, x.cost.answer (x.enquiry before after) = .ok charge ∧
      after.cost = before.cost + charge := by
  cases s with
  | walk w =>
      have hwalk : x.WalksTo before w after := h
      rw [hwalk.enquiry_eq]
      exact hwalk.cost
  | ride trip board alight =>
      obtain ⟨_, hride⟩ := h
      rw [hride.enquiry_eq]
      exact hride.cost

/-- A leg moves the time at which the traveller is free by what it is charged for. -/
theorem Adds.free_eq (h : x.Adds before s after) :
    x.free after = x.free before + (x.enquiry before after).seconds := by
  cases s with
  | walk w =>
      have hwalk : x.WalksTo before w after := h
      have htrip : after.trip? = none := by simp only [Arrival.trip?, hwalk.how]
      rw [hwalk.enquiry_eq, free, htrip]
      exact hwalk.time
  | ride trip board alight =>
      obtain ⟨boardTime, hride⟩ := h
      have htrip : after.trip? = some trip := by simp only [Arrival.trip?, hride.how]
      rw [hride.enquiry_eq, free, htrip]
      show after.time + x.slack.alight trip.value.pattern = x.free before +
        (boardTime - x.free before + x.slack.alight trip.value.pattern + (after.time - boardTime))
      -- the alight slack, charged with the wait, is when the next leg starts
      omega

end

/-! ## Along a chain -/

/-- What is asked about the nodes behind an arrival. -/
def enquiries (x : Extender) : Arrival → List Node → List Enquiry
  | _, [] => []
  | before, .arrival after :: nodes => x.enquiry before after :: x.enquiries after nodes
  | before, .egress e :: nodes => .walk (e.time - e.fromTime) :: x.enquiries before nodes

theorem getLast?_of_cons_arrival {a : Arrival} {nodes : List Node} {last : Egress}
    (h : (Node.arrival a :: nodes).getLast? = some (.egress last)) :
    nodes.getLast? = some (.egress last) := by
  cases nodes with
  | nil => cases h
  | cons n nodes => rwa [List.getLast?_cons_cons] at h

section

variable {x : Extender} {out : Int} {before : Arrival} {steps : List Plan.Step}
  {nodes : List Node} {last : Egress}

theorem Completes.enquiry_eq {e : Egress} (h : x.Completes before out e) :
    Enquiry.walk (e.time - e.fromTime) = .walk out := by
  rw [h.time, h.fromTime]
  congr 1
  omega

/-- The steps are asked about in order, then the walk from the last stop. -/
theorem Onward.asks (h : x.Onward out before steps nodes)
    (hlast : nodes.getLast? = some (.egress last)) :
    ∃ middle, x.enquiries before nodes = middle ++ [.walk out] ∧
      List.Forall₂ Plan.Step.Asks steps middle := by
  induction h with
  | here => cases hlast
  | egress hcompletes => exact ⟨[], by rw [enquiries, hcompletes.enquiry_eq]; rfl, .nil⟩
  | step hadds _ ih =>
      obtain ⟨middle, hmiddle, hasks⟩ := ih (getLast?_of_cons_arrival hlast)
      exact ⟨_ :: middle, by rw [enquiries, hmiddle]; rfl, .cons hadds.asks hasks⟩

/-- All that is asked about comes to the time from when the traveller is free to
the end. -/
theorem Onward.seconds_eq (h : x.Onward out before steps nodes)
    (hlast : nodes.getLast? = some (.egress last)) :
    ((x.enquiries before nodes).map Enquiry.seconds).sum = last.time - x.free before := by
  induction h with
  | here => cases hlast
  | egress hcompletes =>
      cases hlast
      rw [enquiries, hcompletes.enquiry_eq]
      have htime := hcompletes.time
      show out + 0 = _
      omega
  | step hadds _ ih =>
      have hrest := ih (getLast?_of_cons_arrival hlast)
      have hfree := hadds.free_eq
      rw [enquiries, List.map_cons, List.sum_cons, hrest]
      omega

/-- The answers add up to the cost. -/
theorem Onward.answers (h : x.Onward out before steps nodes)
    (hlast : nodes.getLast? = some (.egress last)) :
    ∃ charges, List.Forall₂ (fun q charge => x.cost.answer q = .ok charge)
        (x.enquiries before nodes) charges ∧ last.cost = before.cost + charges.sum := by
  induction h with
  | here => cases hlast
  | egress hcompletes =>
      cases hlast
      obtain ⟨charge, hcharge, hcost⟩ := hcompletes.cost
      rw [enquiries, hcompletes.enquiry_eq]
      refine ⟨[charge], .cons hcharge .nil, ?_⟩
      rw [hcost]
      simp
  | step hadds _ ih =>
      obtain ⟨charges, hcharges, hcost⟩ := ih (getLast?_of_cons_arrival hlast)
      obtain ⟨charge, hcharge, hafter⟩ := hadds.answer
      refine ⟨charge :: charges, .cons hcharge hcharges, ?_⟩
      rw [hcost, hafter, List.sum_cons]
      omega

end

/-! ## Under any cost model -/

/-- The arrivals differ at most in what they cost and where they are held. -/
structure Alike (a b : Arrival) : Prop where
  round : a.round = b.round
  stop : a.stop = b.stop
  time : a.time = b.time
  how : a.how = b.how

section

variable {x y : Extender} {before before' after after' : Arrival} {s : Plan.Step}
  (hslack : x.slack = y.slack)

include hslack

theorem Alike.free_eq (h : Alike before before') : x.free before = y.free before' := by
  unfold free Arrival.trip?
  rw [h.how, h.time, hslack]

/-- Where a leg leads is not up to the cost model. -/
theorem Adds.alike (hbefore : Alike before before') (h : x.Adds before s after)
    (h' : y.Adds before' s after') : Alike after after' := by
  have hfree := hbefore.free_eq hslack
  cases s with
  | walk w =>
      have hwalk : x.WalksTo before w after := h
      have hwalk' : y.WalksTo before' w after' := h'
      refine ⟨?_, ?_, ?_, ?_⟩
      · rw [hwalk.round, hwalk'.round, hbefore.round]
      · rw [hwalk.stop, hwalk'.stop]
      · rw [hwalk.time, hwalk'.time, hfree]
      · rw [hwalk.how, hwalk'.how, hfree]
  | ride trip board alight =>
      obtain ⟨boardTime, hride⟩ := h
      obtain ⟨boardTime', hride'⟩ := h'
      -- the trip and the positions settle where it is left, and both times
      have hstop := hride.arrives.1.symm.trans hride'.arrives.1
      have hboard := hride.departs.2.symm.trans hride'.departs.2
      have halight := hride.arrives.2.symm.trans hride'.arrives.2
      refine ⟨?_, Option.some.inj hstop, Except.ok.inj halight, ?_⟩
      · rw [hride.round, hride'.round, hbefore.round]
      · rw [hride.how, hride'.how, hbefore.stop, Except.ok.inj hboard]

theorem Alike.enquiry_eq (hbefore : Alike before before') (hafter : Alike after after') :
    x.enquiry before after = y.enquiry before' after' := by
  unfold enquiry Arrival.kind
  rw [hafter.how, hafter.time, hafter.stop, hbefore.how, hbefore.free_eq hslack, hslack]

/-- Two complete chains of the same steps are asked about alike and end at the
same time, whatever the cost models answer. -/
theorem Onward.enquiries_eq {out : Int} {steps : List Plan.Step} {nodes nodes' : List Node}
    {last last' : Egress} (hbefore : Alike before before') (h : x.Onward out before steps nodes)
    (h' : y.Onward out before' steps nodes') (hlast : nodes.getLast? = some (.egress last))
    (hlast' : nodes'.getLast? = some (.egress last')) :
    x.enquiries before nodes = y.enquiries before' nodes' ∧ last.time = last'.time := by
  induction h generalizing before' nodes' with
  | here => cases hlast
  | egress hcompletes =>
      cases h' with
      | here => cases hlast'
      | egress hcompletes' =>
          cases hlast
          cases hlast'
          refine ⟨?_, ?_⟩
          · show [Enquiry.walk _] = [Enquiry.walk _]
            rw [hcompletes.enquiry_eq, hcompletes'.enquiry_eq]
          · rw [hcompletes.time, hcompletes'.time, hbefore.free_eq hslack]
  | step hadds _ ih =>
      cases h' with
      | step hadds' hrest' =>
          have hafter := hadds.alike hslack hbefore hadds'
          obtain ⟨hrest, htime⟩ := ih hafter hrest' (getLast?_of_cons_arrival hlast)
            (getLast?_of_cons_arrival hlast')
          refine ⟨?_, htime⟩
          rw [enquiries, enquiries, hbefore.enquiry_eq hslack hafter, hrest]

end

/-! ## Complete chains -/

theorem Starts.free_eq {x : Extender} {departure : Int} {w : Walk} {a : Arrival}
    (h : x.Starts departure w a) : x.free a = departure + w.duration := by
  have htrip : a.trip? = none := by simp only [Arrival.trip?, h.how]
  rw [free, htrip]
  exact h.time

theorem Starts.alike {x y : Extender} {departure : Int} {w : Walk} {a b : Arrival}
    (h : x.Starts departure w a) (h' : y.Starts departure w b) : Alike a b where
  round := by rw [h.round, h'.round]
  stop := by rw [h.stop, h'.stop]
  time := by rw [h.time, h'.time]
  how := by rw [h.how, h'.how]

end Extender

namespace CostModel

/-- At one unit per second, answers add up to the seconds asked about. -/
theorem perSecond_sum {enquiries : List Enquiry} {charges : List Int}
    (h : List.Forall₂ (fun q charge => perSecond.answer q = .ok charge) enquiries charges) :
    charges.sum = (enquiries.map Enquiry.seconds).sum := by
  induction h with
  | nil => rfl
  | @cons q charge _ _ hanswer _ ih =>
      have hcharge : charge = q.seconds := by
        cases q with
        | walk duration => exact (Except.ok.inj hanswer).symm
        | ride first boardStop wait aboard alightStop => exact (Checked.add_eq_ok_iff.mp hanswer).2
      rw [List.map_cons, List.sum_cons, List.sum_cons, hcharge, ih]

end CostModel

namespace Extender

/-- What a cost model is asked about a complete chain comes to the seconds from
departure to the end. It is the same for every cost model, and what the model
answers adds up to the cost of the chain. So at one unit per second, a chain
costs as much as it takes. -/
theorem seconds_of_carries {x : Extender} {p : Plan} {arena : Arena} {e : Nat}
    (h : x.Carries p arena e) :
    ∃ last enquiries, arena.getEgress e = .ok last ∧ p.Asks enquiries ∧
      (enquiries.map Enquiry.seconds).sum = last.time - p.departure ∧
      (∀ m arena' e', Extender.Carries { x with cost := m } p arena' e' →
        ∃ last' charges, arena'.getEgress e' = .ok last' ∧ last'.time = last.time ∧
          List.Forall₂ (fun q charge => m.answer q = .ok charge) enquiries charges ∧
          last'.cost = charges.sum) ∧
      ∀ arena' e', Extender.Carries { x with cost := .perSecond } p arena' e' →
        ∃ last', arena'.getEgress e' = .ok last' ∧ last'.cost = last'.time - p.departure := by
  obtain ⟨first, nodes, last, hstart, honward, hlast, _⟩ := h.chain
  have hend : (nodes ++ [Node.egress last]).getLast? = some (.egress last) := by simp
  obtain ⟨middle, hmiddle, hasks⟩ := honward.asks hend
  have hsum : ((Enquiry.walk p.access.duration :: (middle ++ [.walk p.egress])).map
      Enquiry.seconds).sum = last.time - p.departure := by
    have hseconds := honward.seconds_eq hend
    rw [hmiddle, hstart.free_eq] at hseconds
    rw [List.map_cons, List.sum_cons, hseconds]
    show p.access.duration + _ = _
    omega
  have hmodels : ∀ m arena' e', Extender.Carries { x with cost := m } p arena' e' →
      ∃ last' charges, arena'.getEgress e' = .ok last' ∧ last'.time = last.time ∧
        List.Forall₂ (fun q charge => m.answer q = .ok charge)
          (Enquiry.walk p.access.duration :: (middle ++ [.walk p.egress])) charges ∧
        last'.cost = charges.sum := by
    intro m arena' e' h'
    obtain ⟨first', nodes', last', hstart', honward', hlast', _⟩ := h'.chain
    have hend' : (nodes' ++ [Node.egress last']).getLast? = some (.egress last') := by simp
    have hslack : x.slack = ({ x with cost := m } : Extender).slack := rfl
    obtain ⟨hsame, htime⟩ :=
      honward.enquiries_eq hslack (hstart.alike hstart') honward' hend hend'
    obtain ⟨charges, hcharges, hcost⟩ := honward'.answers hend'
    rw [← hsame, hmiddle] at hcharges
    exact ⟨last', first'.cost :: charges, hlast', htime.symm, .cons hstart'.cost hcharges, hcost⟩
  refine ⟨last, _, hlast, ⟨middle, hasks, rfl⟩, hsum, hmodels, ?_⟩
  intro arena' e' h'
  obtain ⟨last', charges, hlast', htime, hcharges, hcost⟩ := hmodels _ arena' e' h'
  refine ⟨last', hlast', ?_⟩
  rw [hcost, CostModel.perSecond_sum hcharges, hsum, htime]

/-- Buffers of some seconds, longer where a trip has more stops. -/
def attentive : Extender where
  cost := .perSecond
  slack := { board := fun _ => 5, alight := fun p => 5 * p.stops.length, transfer := 60 }

theorem acrossTown_costs_its_duration :
    ∃ arena e last, acrossTown.run attentive {} = .ok (arena, e) ∧ arena.getEgress e = .ok last ∧
      last.cost = last.time - acrossTown.departure ∧ last.cost = 670 := by
  have hrun : ∃ arena e last, acrossTown.run attentive {} = .ok (arena, e) ∧
      arena.getEgress e = .ok last ∧ last.cost = 670 := ⟨_, _, _, rfl, rfl, rfl⟩
  obtain ⟨arena, e, last, hrun, hlast, hcost⟩ := hrun
  have hcarries := carries_of_run hrun
  obtain ⟨_, _, _, _, _, _, hduration⟩ := seconds_of_carries hcarries
  obtain ⟨last', hlast', hlaw⟩ := hduration arena e hcarries
  obtain rfl : last = last' := Except.ok.inj (hlast.symm.trans hlast')
  exact ⟨arena, e, last, hrun, hlast, hlaw, hcost⟩

end Extender

end Journey
