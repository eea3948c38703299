import Journey.Program
import Journey.Proofs.Itinerary.Carried
import Journey.Proofs.Search.ChainRules
import Journey.Proofs.Search.Conservation

/-!
# From a chain to a report

What is left to do with a chain that has been built is to check it, to assemble
it and to describe its itinerary. Along the chain neither cost nor time goes
back, so that what a leg adds is no more than what the whole chain comes to
(`Within`), and the only sums that are greater are those that round a cost to
whole seconds.

* **rules**: a chain passes that resumes no trip (`validate_eq_ok`);
* **assembly**: it comes to the itinerary of the chain exactly where the whole
  cost can be rounded (`assemble_eq_ok`, `assemble_overflows`);
* **description**: the itinerary can be written down (`describe_eq_ok`).
-/

namespace Journey

namespace Node

/-- When the leg of a node starts. -/
def startTime : Node → Int
  | .egress e => e.fromTime
  | .arrival a =>
    match a.how with
    | .access fromTime | .transfer fromTime => fromTime
    | .transit _ boardTime _ => boardTime

theorem startTime_of_fromTime? {n : Node} {t : Int} (h : n.fromTime? = some t) :
    n.startTime = t := by
  cases n with
  | egress e => exact Option.some.inj h
  | arrival a =>
      obtain ⟨round, stop, time, cost, previous, how⟩ := a
      cases how with
      | access fromTime => exact Option.some.inj h
      | transfer fromTime => exact Option.some.inj h
      | transit boardStop boardTime trip => cases h

end Node

namespace Assembly

/-- A node and the one before it lie between two times, and below a cost. -/
structure Within (low high top : Int) (pair : Node × Option Node) : Prop where
  nonneg : 0 ≤ (pair.2.map Node.cost).getD 0
  cost : (pair.2.map Node.cost).getD 0 ≤ pair.1.cost
  top : pair.1.cost ≤ top
  start : low ≤ pair.1.startTime
  time : pair.1.startTime ≤ pair.1.time
  high : pair.1.time ≤ high
  trip : ∀ trip, pair.1.trip? = some trip → trip.value.Readable

/-- The leg of a node starts and ends when the node says. -/
theorem Made.times {node : Node} {previous : Option Node} {leg : Leg} (h : Made node previous leg) :
    leg.fromTime = node.startTime ∧ leg.toTime = node.time := by
  cases h with
  | access hhow _ =>
      simp only [Node.startTime, hhow]
      exact ⟨rfl, rfl⟩
  | transfer hhow _ =>
      simp only [Node.startTime, hhow]
      exact ⟨rfl, rfl⟩
  | transit hhow _ _ _ _ =>
      simp only [Node.startTime, hhow]
      exact ⟨rfl, rfl⟩
  | egress _ => exact ⟨rfl, rfl⟩

variable {low high top : Int} {pair : Node × Option Node}

/-- A leg is made or refused where its numbers lie within bounds that are in range. -/
theorem Within.forwardLeg_settles (h : Within low high top pair) (hspan : InRange (high - low))
    (htop : InRange (top + Cost.scale / 2)) :
    Outcome.Settles (forwardLeg pair.1 pair.2) := by
  have hnonneg := h.nonneg
  have hcost := h.cost
  have htop' := h.top
  have hround : Roundable (added pair) := by
    unfold InRange Cost.scale minInt maxInt at htop
    unfold added
    constructor <;> unfold InRange minInt maxInt
    · omega
    · unfold Cost.scale
      omega
  refine Assembly.forwardLeg_settles hround ?_ h.trip
  intro fromTime hfrom
  have hstart := h.start
  have htime := h.time
  have hhigh := h.high
  rw [Node.startTime_of_fromTime? hfrom] at hstart htime
  unfold InRange minInt maxInt at hspan ⊢
  omega

end Assembly

namespace Extender

open Assembly Itinerary

variable {x : Extender} {out : Int} {before after : Arrival} {steps : List Plan.Step}
  {nodes : List Node} {last : Egress} {low : Int}

/-! ## Bounds along a chain -/

theorem Adds.startTime_mem {s : Plan.Step} (h : x.Adds before s after)
    (hslack : x.slack.Nonnegative) (hs : s.Admissible) :
    before.time ≤ (Node.arrival after).startTime ∧
      (Node.arrival after).startTime ≤ after.time := by
  have hfree := time_le_free hslack before
  cases s with
  | walk w =>
      have hwalk : x.WalksTo before w after := h
      have hduration : 0 ≤ w.duration := hs
      have htime := hwalk.time
      simp only [Node.startTime, hwalk.how]
      omega
  | ride trip board alight =>
      obtain ⟨boardTime, hride⟩ := h
      have hregular : trip.value.Regular := hs
      have hboard := free_le_boardable hslack before trip.value.pattern
      have honTime := hride.onTime
      have htimes := hregular.departure_le_arrival hride.forward hride.arrives.lt_length
        hride.departs.2 hride.arrives.2
      simp only [Node.startTime, hride.how]
      omega

theorem Adds.readable {s : Plan.Step} (h : x.Adds before s after) (hs : s.Admissible) :
    ∀ trip, after.trip? = some trip → trip.value.Readable := by
  rw [h.trip?]
  intro trip htrip
  cases s with
  | walk w => cases htrip
  | ride trip' board alight =>
      cases htrip
      have hregular : trip.value.Regular := hs
      exact hregular.readable

/-- Along a chain the numbers stay between where it starts and where it ends. -/
theorem Onward.within (h : x.Onward out before steps nodes) (hslack : x.slack.Nonnegative)
    (hcost : x.cost.Nonnegative) (hsteps : ∀ s ∈ steps, s.Admissible) (hout : 0 ≤ out)
    (hlast : nodes.getLast? = some (.egress last)) (hnonneg : 0 ≤ before.cost)
    (hlow : low ≤ before.time) :
    before.cost ≤ last.cost ∧ before.time ≤ last.time ∧
      ∀ pair ∈ withBefore (some (.arrival before)) nodes, Within low last.time last.cost pair := by
  induction h with
  | here => cases hlast
  | @egress before e hcompletes =>
      cases hlast
      have hgrows := (hcompletes.grows hcost hout).cost
      have hfree := time_le_free hslack before
      have hfrom := hcompletes.fromTime
      have htime := hcompletes.time
      refine ⟨hgrows, by omega, ?_⟩
      intro pair hpair
      rw [List.mem_singleton.mp hpair]
      refine ⟨hnonneg, hgrows, Int.le_refl _, ?_, ?_, Int.le_refl _, fun _ htrip => nomatch htrip⟩
      · show low ≤ last.fromTime
        omega
      · show last.fromTime ≤ last.time
        omega
  | @step before after s steps nodes hadds _ ih =>
      have hs := hsteps s List.mem_cons_self
      have hgrows := hadds.cost_le hslack hcost hs.timely
      obtain ⟨hstart, htime⟩ := hadds.startTime_mem hslack hs
      obtain ⟨hcost', htime', hrest⟩ := ih (fun s hs => hsteps s (List.mem_cons_of_mem _ hs))
        (getLast?_of_cons_arrival hlast) (by omega) (by omega)
      refine ⟨by omega, by omega, ?_⟩
      intro pair hpair
      rcases List.mem_cons.mp hpair with rfl | hpair
      · exact ⟨hnonneg, hgrows, hcost', Int.le_trans hlow hstart, htime, htime', hadds.readable hs⟩
      · exact hrest pair hpair

/-- The bounds of a chain that a plan has built. -/
theorem within_of_plan {p : Plan} {first : Arrival} (hslack : x.slack.Nonnegative)
    (hcost : x.cost.Nonnegative) (hp : p.Admissible)
    (hstart : x.Starts p.departure p.access first)
    (honward : x.Onward p.egress first p.steps (nodes ++ [.egress last])) :
    0 ≤ last.cost ∧ p.departure ≤ last.time ∧
      ∀ pair ∈ withBefore none (.arrival first :: (nodes ++ [.egress last])),
        Within p.departure last.time last.cost pair := by
  have hend : (nodes ++ [Node.egress last]).getLast? = some (.egress last) := by simp
  have hfirst : 0 ≤ first.cost := hcost.walk hp.access hstart.cost
  have haccess := hp.access
  have htime := hstart.time
  have hdeparture : p.departure ≤ first.time := by omega
  obtain ⟨htop, hhigh, hrest⟩ :=
    honward.within hslack hcost hp.steps hp.egress hend hfirst hdeparture
  refine ⟨by omega, by omega, ?_⟩
  intro pair hpair
  rcases List.mem_cons.mp hpair with rfl | hpair
  · have hfrom : (Node.arrival first).startTime = p.departure := by
      simp only [Node.startTime, hstart.how]
    refine ⟨Int.le_refl 0, hfirst, htop, Int.le_of_eq hfrom.symm, ?_, hhigh, ?_⟩
    · show (Node.arrival first).startTime ≤ first.time
      omega
    · intro trip htrip
      simp only [Node.trip?, Arrival.trip?, hstart.how] at htrip
      cases htrip
  · exact hrest pair hpair

/-! ## Checking and assembling -/

variable {p : Plan} {arena : Arena} {e : Nat}

/-- A chain that resumes no trip passes. -/
theorem validate_eq_ok (hslack : x.slack.Nonnegative) (hcost : x.cost.Nonnegative)
    (hp : p.Admissible) (hcarries : x.Carries p arena e)
    (hfresh : (p.steps.map Plan.Step.trip?).IsChain fun last next => ¬ Resumes last next) :
    arena.validate e = .ok () := by
  obtain ⟨first, nodes, last, hstart, honward, _, hchain⟩ := hcarries.chain
  have hgrows := honward.isChain_grows hslack hcost hp.steps hp.egress
  have hfirst : (Node.arrival first).trip? = none := by
    simp only [Node.trip?, Arrival.trip?, hstart.how]
  have hkind : (Node.arrival first).kind = .access := by
    simp only [Node.kind, Arrival.kind, hstart.how]
  have hsound : (Node.arrival first :: (nodes ++ [.egress last])).IsChain Node.Sound := by
    rw [isChain_sound_iff hgrows, List.map_cons, honward.map_trip?, hfirst, isChain_fresh_iff]
    exact hfresh
  have hcheck : checkChain (.arrival first :: (nodes ++ [.egress last])) = .ok () :=
    (if_pos hkind).trans (checkPairs_eq_ok_iff.mpr hsound)
  unfold Arena.validate
  rw [hchain]
  show Outcome.ofExcept (checkChain
    (Node.arrival first :: (nodes ++ [.egress last])).reverse.reverse) = _
  rw [List.reverse_reverse, hcheck]
  rfl

theorem assemble_of_chain (hchain : arena.chain e = .ok nodes) :
    arena.assemble .forward e = itinerary .forward nodes := by
  unfold Arena.assemble
  rw [hchain]
  rfl

/-- A complete chain has cost what its egress has. -/
theorem chainCost_egress (first : Node) (nodes : List Node) (last : Egress) :
    chainCost (first :: (nodes ++ [.egress last])).reverse = last.cost := by
  unfold chainCost
  simp [Node.cost]

/-- The itinerary of a chain is assembled where its whole cost can be rounded. -/
theorem assemble_eq_ok (hslack : x.slack.Nonnegative) (hcost : x.cost.Nonnegative)
    (hp : p.Admissible) (hsteps : Plan.Connected p.steps) (hcarries : x.Carries p arena e)
    (hlast : arena.getEgress e = .ok last) (hspan : InRange (last.time - p.departure))
    (hround : InRange (last.cost + Cost.scale / 2)) :
    ∃ nodes i, arena.assemble .forward e = .ok i ∧ Tells p nodes last i ∧
      ∀ pair ∈ withBefore none nodes, Within p.departure last.time last.cost pair := by
  obtain ⟨first, nodes, last', hstart, honward, hlast', hchain⟩ := hcarries.chain
  obtain rfl : last = last' := Except.ok.inj (hlast.symm.trans hlast')
  obtain ⟨hnonneg, _, hwithin⟩ := within_of_plan hslack hcost hp hstart honward
  have hends := itinerary_ends hslack hp hsteps hstart honward
  have htotal : Cost.toWhole (chainCost (.arrival first :: (nodes ++ [.egress last])).reverse) =
      .ok ((last.cost + Cost.scale / 2) / Cost.scale) := by
    rw [chainCost_egress]
    exact Cost.toWhole_eq_ok_iff.mpr ⟨hround, rfl⟩
  have hsettles : Outcome.Settles
      (itinerary .forward (.arrival first :: (nodes ++ [.egress last])).reverse) := by
    unfold itinerary
    rw [htotal, legs_forward]
    refine Outcome.Settles.bind (Ends.of_ok rfl trivial) fun total => ?_
    refine Outcome.Settles.bind (Outcome.settles_mapM fun pair hpair => ?_) fun legs =>
      Outcome.settles_ofExcept _
    exact (hwithin pair hpair).forwardLeg_settles hspan hround
  -- what neither overflows nor refuses has come to a value
  rw [← assemble_of_chain hchain] at hends hsettles
  obtain ⟨i, hi, htells⟩ := hends.exists_ok fun failure hfailure hoverflow => by
    rw [hfailure] at hsettles
    obtain ⟨reason, rfl⟩ := hsettles
    exact hoverflow
  exact ⟨_, i, hi, htells, hwithin⟩

/-- Where the whole cost cannot be rounded, that is what is reported. -/
theorem assemble_overflows (hcarries : x.Carries p arena e) (hlast : arena.getEgress e = .ok last)
    (hround : ¬ InRange (last.cost + Cost.scale / 2)) :
    arena.assemble .forward e = .error (.fault .addOverflow) := by
  obtain ⟨first, nodes, last', _, _, hlast', hchain⟩ := hcarries.chain
  obtain rfl : last = last' := Except.ok.inj (hlast.symm.trans hlast')
  have htotal : Cost.toWhole last.cost = .error .addOverflow := by
    unfold Cost.toWhole Checked.add
    rw [if_neg hround]
    rfl
  rw [assemble_of_chain hchain, itinerary, chainCost_egress, htotal]
  rfl

end Extender

namespace Program

open Assembly Itinerary

theorem mapM_eq_ok_of_forall {α β : Type} {f : α → Checked β} {xs : List α}
    (h : ∀ x ∈ xs, ∃ y, f x = .ok y) : ∃ ys, xs.mapM f = .ok ys := by
  have hends : Ends (List.Forall₂ (fun _ _ => True) xs) (fun _ => False) (xs.mapM f) := by
    refine Ends.mapM fun x hx => ?_
    obtain ⟨y, hy⟩ := h x hx
    exact Ends.of_ok hy trivial
  obtain ⟨ys, hys, _⟩ := hends.exists_ok fun _ _ hnone => hnone
  exact ⟨ys, hys⟩

/-- Each leg takes no longer than the whole chain. -/
theorem duration_eq_ok {low high top : Int} {pairs : List (Node × Option Node)} {legs : List Leg}
    (hmade : List.Forall₂ (fun (pair : Node × Option Node) leg => Made pair.1 pair.2 leg) pairs
      legs)
    (hwithin : ∀ pair ∈ pairs, Within low high top pair) (hspan : InRange (high - low)) :
    ∀ leg ∈ legs, leg.duration = .ok (leg.toTime - leg.fromTime) := by
  induction hmade with
  | nil => exact fun _ hleg => absurd hleg List.not_mem_nil
  | @cons pair leg pairs legs hmade _ ih =>
      intro leg' hleg
      rcases List.mem_cons.mp hleg with rfl | hleg
      · obtain ⟨hfrom, hto⟩ := hmade.times
        obtain ⟨_, _, _, hstart, htime, hhigh, _⟩ := hwithin pair List.mem_cons_self
        refine Checked.sub_eq_ok_iff.mpr ⟨?_, rfl⟩
        rw [hfrom, hto]
        unfold InRange minInt maxInt at hspan ⊢
        omega
      · exact ih (fun pair hpair => hwithin pair (List.mem_cons_of_mem _ hpair)) leg' hleg

theorem text_eq_ok {leg : Leg} {duration : Int} (h : leg.duration = .ok duration) :
    ∃ text, leg.text = .ok text := by
  unfold Leg.text
  rw [h]
  exact ⟨_, rfl⟩

theorem legText_eq_ok {leg : Leg} {duration : Int} (h : leg.duration = .ok duration) :
    ∃ text, legText leg = .ok text := by
  unfold legText
  cases leg with
  | transit l => exact ⟨_, rfl⟩
  | access l | transfer l | egress l =>
      simp only [h]
      exact ⟨_, rfl⟩

/-- An itinerary can be written down where its span is in range. -/
theorem describe_eq_ok {p : Plan} {nodes : List Node} {last : Egress} {i : Itinerary}
    (htells : Extender.Tells p nodes last i)
    (hwithin : ∀ pair ∈ withBefore none nodes, Within p.departure last.time last.cost pair)
    (hspan : InRange (last.time - p.departure)) : ∃ text, describe i = .ok text := by
  have hdurations := duration_eq_ok htells.legs hwithin hspan
  obtain ⟨texts, htexts⟩ := mapM_eq_ok_of_forall fun leg hleg => text_eq_ok (hdurations leg hleg)
  obtain ⟨parts, hparts⟩ := mapM_eq_ok_of_forall fun leg hleg =>
    legText_eq_ok (hdurations leg hleg)
  have hduration : i.duration = .ok (last.time - p.departure) := by
    refine Checked.sub_eq_ok_iff.mpr ?_
    rw [htells.startTime, htells.endTime]
    exact ⟨hspan, rfl⟩
  have htext : ∃ line, i.text = .ok line := by
    unfold Itinerary.text Itinerary.summary
    rw [hparts, hduration]
    exact ⟨_, rfl⟩
  obtain ⟨line, hline⟩ := htext
  unfold describe
  rw [htexts, hline]
  exact ⟨_, rfl⟩

end Program

end Journey
