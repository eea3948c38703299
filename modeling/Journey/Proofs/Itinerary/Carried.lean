import Journey.Proofs.Itinerary.Nodes
import Journey.Proofs.Itinerary.Rules
import Journey.Proofs.Search.Trail

/-!
# Chains of the extender assemble

The guards of the assembly and of an itinerary are implied by what the
extender does. A plan of rides with at most one walk between two of them
(`Plan.Connected`), once carried by an arena, comes back as an itinerary with
one leg for each node of its chain (`Extender.Tells`).

The argument has two halves, and `Follows` stands between them. It says of
legs that they lead on from a stop and a time, step by step.

* **nodes to legs**: each node has its leg (`Onward.legs_ends`), and the legs
  follow the steps (`Onward.follows`);
* **legs to itinerary**: legs that follow connected steps pass every rule of an
  itinerary (`Follows.isChain_joined`, `Follows.ofLegs_eq_ok`).
-/

namespace Journey

/-- Rides, with at most one walk between one and the next. -/
inductive Plan.Connected : List Plan.Step → Prop
  | ride (trip : Shared TimedTrip) (board alight : Nat) : Connected [.ride trip board alight]
  | change (trip : Shared TimedTrip) (board alight : Nat) {steps : List Plan.Step} :
      Connected steps → Connected (.ride trip board alight :: steps)
  | walk (trip : Shared TimedTrip) (board alight : Nat) (w : Walk) {steps : List Plan.Step} :
      Connected steps → Connected (.ride trip board alight :: .walk w :: steps)

theorem Plan.Connected.rides_pos {steps : List Plan.Step} (h : Plan.Connected steps) :
    0 < Plan.rides steps := by
  cases h with
  | ride trip board alight =>
      rw [Plan.rides_ride]
      omega
  | change trip board alight _ =>
      rw [Plan.rides_ride]
      omega
  | walk trip board alight w _ =>
      rw [Plan.rides_ride]
      omega

namespace Itinerary

/-- Legs lead on from a stop and a time, as the steps do, to an egress that
ends at `finish`. -/
inductive Follows (finish : Int) : Nat → Int → List Plan.Step → List Leg → Prop
  | egress {stop : Nat} {time : Int} {l : EgressLeg} : l.fromStop = stop → time ≤ l.fromTime →
      l.toTime = finish → Follows finish stop time [] [.egress l]
  | walk {stop : Nat} {time : Int} {w : Walk} {l : TransferLeg} {steps : List Plan.Step}
      {legs : List Leg} : l.fromStop = stop → time ≤ l.fromTime →
      Follows finish l.toStop l.toTime steps legs →
      Follows finish stop time (.walk w :: steps) (.transfer l :: legs)
  | ride {stop : Nat} {time : Int} {trip : Shared TimedTrip} {board alight : Nat}
      {l : TransitLeg} {steps : List Plan.Step} {legs : List Leg} : l.fromStop = stop →
      time ≤ l.fromTime → l.boardPosition < l.alightPosition →
      Follows finish l.toStop l.toTime steps legs →
      Follows finish stop time (.ride trip board alight :: steps) (.transit l :: legs)

/-! ## Legs to itinerary -/

/-- A ride may follow any leg that ends where and before it starts. -/
theorem joined_transit {leg : Leg} {l : TransitLeg} (hto : leg.toStop? = some l.fromStop)
    (htimes : leg.toTime ≤ l.fromTime) : Joined leg (.transit l) :=
  ⟨nofun, fun _ => rfl, ⟨l.fromStop, hto, rfl⟩, htimes⟩

/-- Legs that follow connected steps keep the rules for neighbours, whatever
leg stands before them. -/
theorem Follows.isChain_joined {finish : Int} {stop : Nat} {time : Int}
    {steps : List Plan.Step} {legs : List Leg} (hsteps : Plan.Connected steps)
    (h : Follows finish stop time steps legs) {leg : Leg}
    (hstop : leg.toStop? = some stop) (htime : leg.toTime = time) :
    (leg :: legs).IsChain Joined := by
  induction hsteps generalizing stop time legs leg with
  | ride trip board alight =>
      -- the egress comes next, and a ride stands before it
      cases h with
      | ride hfrom htimes _ hrest =>
          refine .cons_cons (joined_transit (by rw [hstop, hfrom]) (by omega)) ?_
          cases hrest with
          | egress hfrom' htimes' _ =>
              refine .cons_cons ⟨fun _ => rfl, nofun, ⟨_, rfl, ?_⟩, htimes'⟩ (.singleton _)
              exact congrArg some hfrom'
  | change trip board alight _ ih =>
      cases h with
      | ride hfrom htimes _ hrest =>
          exact .cons_cons (joined_transit (by rw [hstop, hfrom]) (by omega)) (ih hrest rfl rfl)
  | walk trip board alight w _ ih =>
      -- two pairs at once: the hypothesis holds from behind the walk on only
      cases h with
      | ride hfrom htimes _ hrest =>
          refine .cons_cons (joined_transit (by rw [hstop, hfrom]) (by omega)) ?_
          cases hrest with
          | walk hfrom' htimes' hrest' =>
              refine .cons_cons ⟨fun _ => rfl, nofun, ⟨_, rfl, ?_⟩, htimes'⟩ (ih hrest' rfl rfl)
              exact congrArg some hfrom'

/-- Between the ends there are walks and rides only, and one ride for each that
is a step. -/
theorem Follows.middle {finish : Int} {stop : Nat} {time : Int} {steps : List Plan.Step}
    {legs : List Leg} (h : Follows finish stop time steps legs) :
    ∃ middle last, legs = middle ++ [.egress last] ∧ last.toTime = finish ∧
      (∀ l ∈ middle, l.kind ≠ .access ∧ l.kind ≠ .egress) ∧
      (∀ l ∈ middle.filterMap Leg.transit?, l.boardPosition < l.alightPosition) ∧
      (middle.filterMap Leg.transit?).length = Plan.rides steps := by
  induction h with
  | @egress _ _ l _ _ hfinish =>
      refine ⟨[], l, rfl, hfinish, ?_, ?_, rfl⟩
      · exact fun l' hl' => absurd hl' List.not_mem_nil
      · exact fun l' hl' => absurd hl' List.not_mem_nil
  | @walk _ _ _ l _ _ _ _ _ ih =>
      obtain ⟨middle, last, rfl, hfinish, hkinds, hrides, hcount⟩ := ih
      refine ⟨.transfer l :: middle, last, rfl, hfinish, ?_, hrides, ?_⟩
      · intro l' hl'
        rcases List.mem_cons.mp hl' with rfl | hl'
        · exact ⟨nofun, nofun⟩
        · exact hkinds l' hl'
      · show (middle.filterMap Leg.transit?).length = _
        rw [hcount, Plan.rides_walk]
  | @ride _ _ _ _ _ l _ _ _ _ hforward _ ih =>
      obtain ⟨middle, last, rfl, hfinish, hkinds, hrides, hcount⟩ := ih
      refine ⟨.transit l :: middle, last, rfl, hfinish, ?_, ?_, ?_⟩
      · intro l' hl'
        rcases List.mem_cons.mp hl' with rfl | hl'
        · exact ⟨nofun, nofun⟩
        · exact hkinds l' hl'
      · intro l' hl'
        rcases List.mem_cons.mp hl' with rfl | hl'
        · exact hforward
        · exact hrides l' hl'
      · show (middle.filterMap Leg.transit?).length + 1 = _
        rw [hcount, Plan.rides_ride]

/-- Legs that follow connected steps make an itinerary. -/
theorem Follows.ofLegs_eq_ok {finish : Int} {steps : List Plan.Step} {legs : List Leg}
    {access : AccessLeg} (hsteps : Plan.Connected steps)
    (h : Follows finish access.toStop access.toTime steps legs) (cost : Int) :
    ∃ i, ofLegs (.access access :: legs) cost = .ok i ∧ i.legs = .access access :: legs ∧
      i.cost = cost ∧ i.startTime = access.fromTime ∧ i.endTime = finish ∧
      i.transfers + 1 = Plan.rides steps := by
  have hjoined : (.access access :: legs : List Leg).IsChain Joined :=
    h.isChain_joined hsteps rfl rfl
  obtain ⟨middle, last, rfl, hfinish, hkinds, hrides, hcount⟩ := h.middle
  have hpos : 0 < (middle.filterMap Leg.transit?).length := by
    rw [hcount]
    exact hsteps.rides_pos
  have hride : ∃ l ∈ frame access middle last, l.kind = .transit := by
    obtain ⟨t, ht⟩ := List.exists_mem_of_length_pos hpos
    obtain ⟨l, hl, hlt⟩ := List.mem_filterMap.mp ht
    obtain rfl := eq_transit hlt
    exact exists_transit_frame.mpr ⟨.transit t, hl, rfl⟩
  have hforward : ∀ t ∈ (frame access middle last).filterMap Leg.transit?,
      t.boardPosition < t.alightPosition := by
    rw [transit?_frame]
    exact hrides
  have hwell : WellFormed (frame access middle last) :=
    wellFormed_of_joined hkinds hride hforward hjoined
  obtain ⟨i, hi⟩ : ∃ i, ofLegs (frame access middle last) cost = .ok i :=
    exists_ofLegs_iff.mpr hwell
  have hholds := holds_of_ofLegs hi hwell
  have hfirst : access = i.access := Leg.access.inj (Option.some.inj hholds.access)
  have hlast : last = i.egress := by
    have hend := hholds.egress
    rw [getLast?_frame] at hend
    exact Leg.egress.inj (Option.some.inj hend)
  refine ⟨i, hi, hholds.legs_eq, hholds.cost_eq, ?_, ?_, ?_⟩
  · rw [hfirst]
    rfl
  · rw [← hfinish, hlast]
    rfl
  · show (i.legs.filterMap Leg.transit?).length - 1 + 1 = _
    rw [hholds.legs_eq, transit?_frame]
    omega

end Itinerary

/-! ## Nodes to legs -/

namespace Extender

open Assembly Itinerary

variable {x : Extender} {out : Int} {before : Arrival} {steps : List Plan.Step}
  {nodes : List Node}

/-- Each node that a step adds has its leg, unless a cost or a time runs out of range. -/
theorem Adds.leg_ends {after : Arrival} {s : Plan.Step} (h : x.Adds before s after)
    (hs : s.Admissible) :
    Ends (Made (.arrival after) (some (.arrival before))) Failure.IsOverflow
      (forwardLeg (.arrival after) (some (.arrival before))) := by
  cases s with
  | walk w =>
      have hwalk : x.WalksTo before w after := h
      have hduration : 0 ≤ w.duration := hs
      have htime := hwalk.time
      exact forwardLeg_transfer_ends hwalk.how (by omega)
  | ride trip board alight =>
      obtain ⟨boardTime, hride⟩ := h
      have hregular : trip.value.Regular := hs
      have htimes : boardTime ≤ after.time :=
        hregular.departure_le_arrival hride.forward hride.arrives.lt_length hride.departs.2
          hride.arrives.2
      exact forwardLeg_transit_ends hride.how hregular.readable hride.departs hride.arrives
        hride.forward htimes

theorem Onward.legs_ends (h : x.Onward out before steps nodes)
    (hsteps : ∀ s ∈ steps, s.Admissible) (hout : 0 ≤ out) :
    ∀ pair ∈ withBefore (some (.arrival before)) nodes,
      Ends (Made pair.1 pair.2) Failure.IsOverflow (forwardLeg pair.1 pair.2) := by
  induction h with
  | here => exact fun pair hpair => absurd hpair List.not_mem_nil
  | @egress before e hcompletes =>
      intro pair hpair
      rw [List.mem_singleton.mp hpair]
      have hfrom := hcompletes.fromTime
      have htime := hcompletes.time
      exact forwardLeg_egress_ends (by omega)
  | step hadds _ ih =>
      intro pair hpair
      rcases List.mem_cons.mp hpair with rfl | hpair
      · exact hadds.leg_ends (hsteps _ List.mem_cons_self)
      · exact ih (fun s hs => hsteps s (List.mem_cons_of_mem _ hs)) pair hpair

/-- The legs of the nodes lead on from where the traveller is. -/
theorem Onward.follows (h : x.Onward out before steps nodes) (hslack : x.slack.Nonnegative)
    {last : Egress} (hlast : (Node.arrival before :: nodes).getLast? = some (.egress last))
    {legs : List Leg}
    (hlegs : List.Forall₂ (fun (pair : Node × Option Node) leg => Made pair.1 pair.2 leg)
      (withBefore (some (.arrival before)) nodes) legs) :
    Follows last.time before.stop before.time steps legs := by
  induction h generalizing legs with
  | here => cases hlast
  | @egress before e hcompletes =>
      cases hlast
      have hfree := time_le_free hslack before
      cases hlegs with
      | cons hmade hnil =>
          cases hnil
          cases hmade with
          | egress _ =>
              refine .egress rfl ?_ rfl
              show before.time ≤ last.fromTime
              rw [hcompletes.fromTime]
              exact hfree
  | @step before after s steps nodes hadds _ ih =>
      rw [List.getLast?_cons_cons] at hlast
      have hfree := time_le_free hslack before
      cases hlegs with
      | cons hmade hrest =>
          have hrest' := ih hlast hrest
          cases s with
          | walk w =>
              have hwalk : x.WalksTo before w after := hadds
              have hhow := hwalk.how
              -- how the arrival was reached leaves one kind of leg
              cases hmade with
              | transfer hhow' _ =>
                  rw [hhow] at hhow'
                  cases hhow'
                  exact .walk rfl hfree hrest'
              | transit hhow' _ _ _ _ =>
                  rw [hhow] at hhow'
                  cases hhow'
          | ride trip board alight =>
              obtain ⟨boardTime, hride⟩ := hadds
              have hhow := hride.how
              cases hmade with
              | transfer hhow' _ =>
                  rw [hhow] at hhow'
                  cases hhow'
              | transit hhow' _ _ _ hforward =>
                  rw [hhow] at hhow'
                  cases hhow'
                  have hboard := free_le_boardable hslack before trip.value.pattern
                  have htime := hride.onTime
                  have hle : before.time ≤ boardTime := by omega
                  exact .ride rfl hle hforward hrest'

theorem Starts.leg_ends {departure : Int} {w : Walk} {first : Arrival}
    (h : x.Starts departure w first) (hw : 0 ≤ w.duration) :
    Ends (Made (.arrival first) none) Failure.IsOverflow (forwardLeg (.arrival first) none) := by
  have htime := h.time
  exact forwardLeg_access_ends h.how (by omega)

/-- The itinerary of a chain has the legs of its nodes, and is charged and
timed as the chain is. -/
structure Tells (p : Plan) (nodes : List Node) (last : Egress) (i : Itinerary) : Prop where
  legs : List.Forall₂ (fun (pair : Node × Option Node) leg => Made pair.1 pair.2 leg)
    (withBefore none nodes) i.legs
  startTime : i.startTime = p.departure
  endTime : i.endTime = last.time
  transfers : i.transfers + 1 = Plan.rides p.steps
  rounds : Plan.rides p.steps = last.round
  cost : Cost.toWhole last.cost = .ok i.cost

/-- The assembly of a carried chain ends in its itinerary, unless a number runs
out of range. -/
theorem itinerary_ends {p : Plan} {first : Arrival} {last : Egress}
    (hslack : x.slack.Nonnegative) (hp : p.Admissible) (hsteps : Plan.Connected p.steps)
    (hstart : x.Starts p.departure p.access first)
    (honward : x.Onward p.egress first p.steps (nodes ++ [.egress last])) :
    Ends (Tells p (.arrival first :: (nodes ++ [.egress last])) last) Failure.IsOverflow
      (itinerary .forward (.arrival first :: (nodes ++ [.egress last])).reverse) := by
  have hend : (Node.arrival first :: (nodes ++ [.egress last])).getLast? = some (.egress last) := by
    rw [← List.cons_append, List.getLast?_concat]
  have hcharge : chainCost (.arrival first :: (nodes ++ [.egress last])).reverse = last.cost := by
    unfold chainCost
    rw [List.head?_reverse, hend]
    rfl
  have hlegs : Ends
      (List.Forall₂ (fun (pair : Node × Option Node) leg => Made pair.1 pair.2 leg)
        (withBefore none (.arrival first :: (nodes ++ [.egress last])))) Failure.IsOverflow
      (legs .forward (.arrival first :: (nodes ++ [.egress last])).reverse) := by
    rw [legs_forward]
    refine Ends.mapM fun pair hpair => ?_
    rcases List.mem_cons.mp hpair with rfl | hpair
    · exact hstart.leg_ends hp.access
    · exact honward.legs_ends hp.steps hp.egress pair hpair
  unfold itinerary
  rw [hcharge]
  refine Ends.bind (Ends.ofChecked (Cost.toWhole_exactly last.cost).gives) fun total htotal => ?_
  refine Ends.bind hlegs fun legs hmade => ?_
  cases hmade with
  | @cons _ _ _ rest hfirst hrest =>
      have hfollows := honward.follows hslack hend hrest
      cases hfirst with
      | @access _ fromTime cost hhow hcost =>
          let leg : AccessLeg := { fromTime, toTime := first.time, toStop := first.stop, cost }
          have hfollows' : Follows last.time leg.toStop leg.toTime p.steps rest := hfollows
          obtain ⟨i, hi, hi_legs, hi_cost, hi_start, hi_end, hi_transfers⟩ :=
            hfollows'.ofLegs_eq_ok hsteps total
          refine Ends.of_ok (Outcome.ofExcept_eq_ok_iff.mpr hi) ?_
          have hdeparture : fromTime = p.departure := by
            rw [hstart.how] at hhow
            cases hhow
            rfl
          have hround : last.round = first.round + Plan.rides p.steps :=
            honward.round_last (.egress last) hend
          rw [hstart.round, Nat.zero_add] at hround
          refine ⟨?_, ?_, hi_end, hi_transfers, hround.symm, ?_⟩
          · rw [hi_legs]
            exact .cons (.access hhow hcost) hrest
          · rw [hi_start]
            exact hdeparture
          · rw [hi_cost]
            exact htotal

/-- Rides with at most one walk between two of them, built by the extender on
regular trips, assemble to the itinerary that their chain tells. Only a number
out of range can keep the assembly from it. -/
theorem assemble_of_carries {p : Plan} {arena : Arena} {e : Nat}
    (hslack : x.slack.Nonnegative) (hp : p.Admissible) (hsteps : Plan.Connected p.steps)
    (hcarries : x.Carries p arena e)
    (hfits : ∀ failure, arena.assemble .forward e = .error failure → ¬ failure.IsOverflow) :
    ∃ nodes last i, arena.chain e = .ok nodes.reverse ∧ arena.getEgress e = .ok last ∧
      arena.assemble .forward e = .ok i ∧ Tells p nodes last i := by
  obtain ⟨first, nodes, last, hstart, honward, hlast, hchain⟩ := hcarries.chain
  have hassemble : arena.assemble .forward e =
      itinerary .forward (.arrival first :: (nodes ++ [.egress last])).reverse := by
    unfold Arena.assemble
    rw [hchain]
    rfl
  have hends := itinerary_ends hslack hp hsteps hstart honward
  rw [← hassemble] at hends
  obtain ⟨i, hi, htells⟩ := hends.exists_ok hfits
  exact ⟨_, last, i, hchain, hlast, hi, htells⟩

theorem acrossTown_assembles :
    ∃ arena e last i, acrossTown.run unhurried {} = .ok (arena, e) ∧
      arena.getEgress e = .ok last ∧ arena.assemble .forward e = .ok i ∧
      i.startTime = 0 ∧ i.endTime = last.time ∧ last.time = 670 ∧ i.transfers = 1 := by
  have hrun : ∃ arena e, acrossTown.run unhurried {} = .ok (arena, e) := ⟨_, _, rfl⟩
  obtain ⟨arena, e, hrun⟩ := hrun
  have hassemble : ∃ i, arena.assemble .forward e = .ok i := by
    cases hrun
    exact ⟨_, rfl⟩
  have hfits : ∀ failure, arena.assemble .forward e = .error failure → ¬ failure.IsOverflow := by
    obtain ⟨i, hi⟩ := hassemble
    intro failure hfailure
    rw [hi] at hfailure
    cases hfailure
  obtain ⟨nodes, last, i, _, hlast, hi, htells⟩ :=
    assemble_of_carries unhurried_slack_nonnegative acrossTown_admissible
      (.walk _ _ _ _ (.ride _ _ _)) (carries_of_run hrun) hfits
  have htime : last.time = 670 := by
    cases hrun
    cases hlast
    rfl
  have htransfers : i.transfers + 1 = 2 := htells.transfers
  exact ⟨arena, e, last, i, hrun, hlast, hi, htells.startTime, htells.endTime, htime, by omega⟩

end Extender

end Journey
