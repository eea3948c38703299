import Journey.Proofs.Itinerary.Legs
import Journey.Proofs.Search.Recording
import Journey.Proofs.Timetable.Regular
import Journey.Search.Extender
import Mathlib.Algebra.Ring.Int.Defs

/-!
# One journey, two chains

A `Course` is a journey as it is travelled: a walk to a first stop, stages
from stop to stop on foot or aboard a trip, and a walk from the last stop. A
forward search records it from its start (`Course.recordForward`), a reverse
search from its end, each leg with its ends exchanged (`Course.recordReverse`).

* **equivalence**: whatever the course, both chains assemble to the same
  result, be it an itinerary, the same refusal, or the same fault;
* **result**: on a course within bounds (`Course.Bounded`), with trips whose
  times can be read, that result is an itinerary or a refusal.

The two chains share no node. They meet leg by leg: `forwardLeg` of the node
where a stage ends is `reverseLeg` of the node where it starts
(`Course.Stage.forwardLeg_eq_reverseLeg`), and the invariants `Course.Ahead`
and `Course.Behind` carry that along the stages.
-/

namespace Journey

/-- How a stage of a journey is travelled. -/
inductive Course.Means where
  | onFoot
  | aboard (trip : Shared TimedTrip)
  deriving DecidableEq, Repr

/-- A part of a journey that leads from stop to stop. -/
structure Course.Stage where
  toStop : Nat
  fromTime : Int
  toTime : Int
  /-- What the stage costs, in cost units. -/
  cost : Int
  means : Course.Means
  forwardRound : Nat
  reverseRound : Nat
  deriving DecidableEq, Repr

/-- A journey as it is travelled. Nothing in it has been checked. -/
structure Course where
  firstStop : Nat
  access : Stroll
  stages : List Course.Stage
  egress : Stroll
  deriving DecidableEq, Repr

namespace Course

/-! ## Recording -/

/-- Record a stage where it ends. -/
def Stage.recordForward (s : Stage) (arena : Arena) (last : Nat) : Checked (Arena × Nat) :=
  match s.means with
  | .aboard trip => arena.ride s.forwardRound s.toStop s.toTime s.fromTime s.cost trip last
  | .onFoot => arena.transfer s.forwardRound s.toStop s.fromTime s.toTime s.cost last

/-- Record a stage where it starts, with its ends exchanged. -/
def Stage.recordReverse (s : Stage) (fromStop : Nat) (arena : Arena) (last : Nat) :
    Checked (Arena × Nat) :=
  match s.means with
  | .aboard trip => arena.ride s.reverseRound fromStop s.fromTime s.toTime s.cost trip last
  | .onFoot => arena.transfer s.reverseRound fromStop s.toTime s.fromTime s.cost last

/-- Record stages in travel order. -/
def recordStages : List Stage → Arena → Nat → Checked (Arena × Nat)
  | [], arena, last => .ok (arena, last)
  | s :: rest, arena, last => do
    let (arena, next) ← s.recordForward arena last
    recordStages rest arena next

/-- Record stages that start at a stop, the last of them first. -/
def recordStagesBack : Nat → List Stage → Arena → Nat → Checked (Arena × Nat)
  | _, [], arena, last => .ok (arena, last)
  | fromStop, s :: rest, arena, last => do
    let (arena, next) ← recordStagesBack s.toStop rest arena last
    s.recordReverse fromStop arena next

/-- The stop at which stages from a stop on end. -/
def lastStopFrom : Nat → List Stage → Nat
  | stop, [] => stop
  | _, s :: rest => lastStopFrom s.toStop rest

/-- Record the journey from its start to its end. -/
def recordForward (c : Course) (arena : Arena) : Checked (Arena × Nat) := do
  let (arena, first) :=
    arena.access c.firstStop c.access.fromTime c.access.toTime c.access.cost
  let (arena, last) ← recordStages c.stages arena first
  arena.egress c.egress.fromTime c.egress.toTime c.egress.cost last

/-- Record the journey from its end to its start. -/
def recordReverse (c : Course) (arena : Arena) : Checked (Arena × Nat) := do
  let (arena, first) :=
    arena.access (lastStopFrom c.firstStop c.stages) c.egress.toTime c.egress.fromTime
      c.egress.cost
  let (arena, last) ← recordStagesBack c.firstStop c.stages arena first
  arena.egress c.access.toTime c.access.fromTime c.access.cost last

/-! ## The nodes of the two chains -/

/-- `a` is the node that a forward chain has for a stage after `before`. -/
structure Stage.EndsAt (s : Stage) (before a : Arrival) : Prop where
  stop : a.stop = s.toStop
  time : a.time = s.toTime
  cost : a.cost = before.cost + s.cost
  how : a.how = match s.means with
    | .aboard trip => .transit before.stop s.fromTime trip
    | .onFoot => .transfer s.fromTime

/-- `a` is the node that a reverse chain has for a stage from a stop, where
`after` is the node for the rest of the journey. -/
structure Stage.StartsAt (s : Stage) (fromStop : Nat) (after a : Arrival) : Prop where
  stop : a.stop = fromStop
  time : a.time = s.fromTime
  cost : a.cost = after.cost + s.cost
  how : a.how = match s.means with
    | .aboard trip => .transit after.stop s.toTime trip
    | .onFoot => .transfer s.toTime

theorem Stage.history_recordForward {s : Stage} {arena arena' : Arena} {last id : Nat}
    (h : s.recordForward arena last = .ok (arena', id)) :
    ∃ before a, arena.get last = .ok before ∧ s.EndsAt before a ∧
      arena'.history id = a :: arena.history last := by
  unfold recordForward at h
  split at h
  case h_1 trip hmeans =>
    obtain ⟨before, hbefore, hhistory⟩ := Arena.history_of_ride h
    exact ⟨before, _, hbefore, ⟨rfl, rfl, rfl, by rw [hmeans]⟩, hhistory⟩
  case h_2 hmeans =>
    obtain ⟨before, hbefore, hhistory⟩ := Arena.history_of_transfer h
    exact ⟨before, _, hbefore, ⟨rfl, rfl, rfl, by rw [hmeans]⟩, hhistory⟩

theorem Stage.history_recordReverse {s : Stage} {fromStop : Nat} {arena arena' : Arena}
    {last id : Nat} (h : s.recordReverse fromStop arena last = .ok (arena', id)) :
    ∃ after a, arena.get last = .ok after ∧ s.StartsAt fromStop after a ∧
      arena'.history id = a :: arena.history last := by
  unfold recordReverse at h
  split at h
  case h_1 trip hmeans =>
    obtain ⟨after, hafter, hhistory⟩ := Arena.history_of_ride h
    exact ⟨after, _, hafter, ⟨rfl, rfl, rfl, by rw [hmeans]⟩, hhistory⟩
  case h_2 hmeans =>
    obtain ⟨after, hafter, hhistory⟩ := Arena.history_of_transfer h
    exact ⟨after, _, hafter, ⟨rfl, rfl, rfl, by rw [hmeans]⟩, hhistory⟩

/-- The nodes of a forward chain behind `before`, in travel order: one for
each stage, then the walk `out` from the last stop. -/
inductive Ahead (out : Stroll) : Arrival → List Stage → List Node → Prop
  | egress {before : Arrival} {e : Egress} : e.fromTime = out.fromTime → e.time = out.toTime →
      e.cost = before.cost + out.cost → Ahead out before [] [.egress e]
  | stage {before a : Arrival} {s : Stage} {rest : List Stage} {nodes : List Node} :
      s.EndsAt before a → Ahead out a rest nodes →
      Ahead out before (s :: rest) (.arrival a :: nodes)

/-- The nodes of a reverse chain from a stop on, in travel order: one for each
stage, then the walk `out` from the last stop. -/
inductive Behind (out : Stroll) : Nat → List Stage → List Arrival → Prop
  | access {stop : Nat} {a : Arrival} : a.stop = stop → a.time = out.fromTime →
      a.cost = out.cost → a.how = .access out.toTime → Behind out stop [] [a]
  | stage {stop : Nat} {a after : Arrival} {s : Stage} {rest : List Stage}
      {older : List Arrival} : s.StartsAt stop after a →
      Behind out s.toStop rest (after :: older) →
      Behind out stop (s :: rest) (a :: after :: older)

theorem Behind.stop_eq {out : Stroll} {stop : Nat} {stages : List Stage} {a : Arrival}
    {older : List Arrival} (h : Behind out stop stages (a :: older)) : a.stop = stop := by
  cases h with
  | access hstop _ _ _ => exact hstop
  | stage hstarts _ => exact hstarts.stop

/-- Recording stages in travel order leaves their nodes, the latest first. -/
theorem ahead_of_recordStages {out : Stroll} {stages : List Stage} {arena arena' : Arena}
    {last id : Nat} {before : Arrival} (h : recordStages stages arena last = .ok (arena', id))
    (hbefore : arena.get last = .ok before) :
    ∃ (after : Arrival) (arrivals : List Arrival), arena'.get id = .ok after ∧
      arena'.history id = arrivals.reverse ++ arena.history last ∧
      ∀ nodes, Ahead out after [] nodes →
        Ahead out before stages (arrivals.map .arrival ++ nodes) := by
  induction stages generalizing arena last before with
  | nil =>
      cases h
      exact ⟨before, [], hbefore, rfl, fun nodes hnodes => hnodes⟩
  | cons s rest ih =>
      obtain ⟨⟨middle, next⟩, hstage, hrest⟩ := bind_eq_ok_iff.mp h
      obtain ⟨before', a, hbefore', hends, hhistory⟩ := Stage.history_recordForward hstage
      obtain rfl : before = before' := by
        rw [hbefore] at hbefore'
        exact Except.ok.inj hbefore'
      have hget : middle.get next = .ok a := by
        rw [Arena.get_eq_ok_iff_head?_history, hhistory, List.head?_cons]
      obtain ⟨after, arrivals, hafter, hall, hnodes⟩ := ih hrest hget
      refine ⟨after, a :: arrivals, hafter, ?_, fun nodes h' => .stage hends (hnodes nodes h')⟩
      rw [hall, hhistory]
      simp

/-- Recording stages from the last one on leaves their nodes in travel order. -/
theorem behind_of_recordStagesBack {out : Stroll} {stages : List Stage} {arena arena' : Arena}
    {stop last id : Nat} (h : recordStagesBack stop stages arena last = .ok (arena', id))
    (hlast : Behind out (lastStopFrom stop stages) [] (arena.history last)) :
    Behind out stop stages (arena'.history id) := by
  induction stages generalizing stop arena' id with
  | nil =>
      cases h
      exact hlast
  | cons s rest ih =>
      obtain ⟨⟨middle, next⟩, hrest, hstage⟩ := bind_eq_ok_iff.mp h
      obtain ⟨after, a, hafter, hstarts, hhistory⟩ := Stage.history_recordReverse hstage
      obtain ⟨older, holder⟩ := Arena.history_eq_cons hafter
      -- the rest of the journey is recorded first, and lies behind this stage
      have hbehind := ih hrest hlast
      rw [hhistory, holder]
      rw [holder] at hbehind
      exact .stage hstarts hbehind

/-! ## Leg by leg -/

open Assembly

/-- The leg that ends at the forward node of a stage is the leg that starts at
its reverse node. -/
theorem Stage.forwardLeg_eq_reverseLeg {s : Stage} {before a after b : Arrival}
    (hends : s.EndsAt before a) (hstarts : s.StartsAt before.stop after b)
    (hafter : after.stop = s.toStop) :
    forwardLeg (.arrival a) (some (.arrival before)) =
      reverseLeg (.arrival b) (some (.arrival after)) := by
  have hforward : legCost (.arrival a) (some (.arrival before)) = addedCost s.cost :=
    legCost_eq_addedCost hends.cost
  have hreverse : legCost (.arrival b) (some (.arrival after)) = addedCost s.cost :=
    legCost_eq_addedCost hstarts.cost
  unfold forwardLeg reverseLeg
  rw [hforward, hreverse]
  simp only [hends.how, hstarts.how]
  cases s.means with
  | onFoot =>
      simp only [hends.time, hends.stop, hstarts.time, hstarts.stop, checkWalk_reverse,
        previousStop, Option.bind_some, Node.stop?, hafter]
      rfl
  | aboard trip =>
      simp only [transitLeg, Direction.isBefore, RideEnds.ofArrival, hends.time, hends.stop,
        hstarts.time, hstarts.stop, hafter]

/-- The leg that ends at the egress of a forward chain is the leg that starts
at the access of the reverse one. -/
theorem forwardLeg_egress_eq_reverseLeg {out : Stroll} {before a : Arrival} {e : Egress}
    (hahead : Ahead out before [] [.egress e]) (hbehind : Behind out before.stop [] [a]) :
    forwardLeg (.egress e) (some (.arrival before)) = reverseLeg (.arrival a) none := by
  obtain ⟨hfrom, hto, hcost⟩ := hahead
  obtain ⟨hstop, htime, hcharge, hhow⟩ := hbehind
  have hforward : legCost (.egress e) (some (.arrival before)) = addedCost out.cost :=
    legCost_eq_addedCost hcost
  have hreverse : legCost (.arrival a) none = addedCost out.cost :=
    legCost_eq_addedCost (by simp [Node.cost, hcharge])
  unfold forwardLeg reverseLeg
  rw [hforward, hreverse]
  simp only [hhow, hfrom, hto, htime, hstop, checkWalk_reverse, previousStop, Option.bind_some,
    Node.stop?]
  rfl

/-- Both chains give the same legs from a stop on. -/
theorem mapM_forwardLeg_eq_mapM_reverseLeg {out : Stroll} {before : Arrival}
    {stages : List Stage} {nodes : List Node} {arrivals : List Arrival}
    (hahead : Ahead out before stages nodes) (hbehind : Behind out before.stop stages arrivals) :
    (withBefore (some (.arrival before)) nodes).mapM (fun (n, p) => forwardLeg n p) =
      (withPrevious (arrivals.map .arrival)).mapM (fun (n, p) => reverseLeg n p) := by
  refine mapM_congr_forall₂ ?_
  induction hahead generalizing arrivals with
  | egress hfrom hto hcost =>
      cases hbehind with
      | access hstop htime hcharge hhow =>
          refine .cons ?_ .nil
          exact forwardLeg_egress_eq_reverseLeg (.egress hfrom hto hcost)
            (.access hstop htime hcharge hhow)
  | stage hends hrest ih =>
      -- a reverse node starts where the one before ended: the chains meet at the stop
      cases hbehind with
      | stage hstarts holder =>
          have hafter := holder.stop_eq
          refine .cons (Stage.forwardLeg_eq_reverseLeg hends hstarts hafter) (ih ?_)
          rw [hends.stop]
          exact holder

/-- The leg to the first stop is the same in both chains. -/
theorem forwardLeg_access_eq_reverseLeg {into : Stroll} {first : Arrival} {e : Egress}
    {b : Arrival} (hfirst : first.how = .access into.fromTime) (htime : first.time = into.toTime)
    (hcost : first.cost = into.cost) (hfrom : e.fromTime = into.toTime)
    (hto : e.time = into.fromTime) (hcharge : e.cost = b.cost + into.cost)
    (hstop : b.stop = first.stop) :
    forwardLeg (.arrival first) none = reverseLeg (.egress e) (some (.arrival b)) := by
  have hforward : legCost (.arrival first) none = addedCost into.cost :=
    legCost_eq_addedCost (by simp [Node.cost, hcost])
  have hreverse : legCost (.egress e) (some (.arrival b)) = addedCost into.cost :=
    legCost_eq_addedCost hcharge
  unfold forwardLeg reverseLeg
  rw [hforward, hreverse]
  simp only [hfirst, htime, hfrom, hto, checkWalk_reverse, previousStop, Option.bind_some,
    Node.stop?, hstop]
  rfl

/-! ## Whole chains -/

/-- What the whole journey costs, in cost units. -/
def cost (c : Course) : Int := c.access.cost + (c.stages.map Stage.cost).sum + c.egress.cost

/-- The forward chain of a course, in travel order. -/
structure ForwardChain (c : Course) (first : Arrival) (nodes : List Node) : Prop where
  stop : first.stop = c.firstStop
  time : first.time = c.access.toTime
  cost : first.cost = c.access.cost
  how : first.how = .access c.access.fromTime
  ahead : Ahead c.egress first c.stages nodes

/-- The reverse chain of a course, in travel order. -/
structure ReverseChain (c : Course) (e : Egress) (b : Arrival) (older : List Arrival) : Prop where
  fromTime : e.fromTime = c.access.toTime
  time : e.time = c.access.fromTime
  cost : e.cost = b.cost + c.access.cost
  behind : Behind c.egress c.firstStop c.stages (b :: older)

theorem chain_recordForward {c : Course} {start arena : Arena} {e : Nat}
    (h : c.recordForward start = .ok (arena, e)) :
    ∃ first nodes, c.ForwardChain first nodes ∧
      arena.chain e = .ok (.arrival first :: nodes).reverse := by
  unfold recordForward at h
  rcases haccess : start.access c.firstStop c.access.fromTime c.access.toTime c.access.cost
    with ⟨opened, first⟩
  rw [haccess] at h
  obtain ⟨⟨middle, last⟩, hstages, hegress⟩ := bind_eq_ok_iff.mp h
  have hstart := Arena.history_of_access haccess
  have hfirst := Arena.get_eq_ok_iff_head?_history.mpr (by rw [hstart]; rfl)
  obtain ⟨after, arrivals, hafter, hhistory, hnodes⟩ :=
    ahead_of_recordStages hstages hfirst
  obtain ⟨before, egress, hbefore, he, _, _, hchain⟩ := Arena.chain_of_egress hegress
  obtain rfl : after = before := by
    rw [hafter] at hbefore
    exact Except.ok.inj hbefore
  -- the stages are told up to any end, and the egress is theirs
  have hahead := hnodes [.egress egress] (.egress (by rw [he]) (by rw [he]) (by rw [he]))
  refine ⟨_, _, ⟨rfl, rfl, rfl, rfl, hahead⟩, ?_⟩
  rw [hchain, Arena.ancestors, hhistory, hstart]
  simp

theorem chain_recordReverse {c : Course} {start arena : Arena} {e : Nat}
    (h : c.recordReverse start = .ok (arena, e)) :
    ∃ egress b older, c.ReverseChain egress b older ∧
      arena.chain e = .ok (.egress egress :: (b :: older).map .arrival) := by
  unfold recordReverse at h
  rcases haccess : start.access (lastStopFrom c.firstStop c.stages) c.egress.toTime
    c.egress.fromTime c.egress.cost with ⟨opened, first⟩
  rw [haccess] at h
  obtain ⟨⟨middle, last⟩, hstages, hegress⟩ := bind_eq_ok_iff.mp h
  have hlast : Behind c.egress (lastStopFrom c.firstStop c.stages) [] (opened.history first) := by
    rw [Arena.history_of_access haccess]
    exact .access rfl rfl rfl rfl
  have hbehind := behind_of_recordStagesBack hstages hlast
  obtain ⟨b, egress, hb, he, _, _, hchain⟩ := Arena.chain_of_egress hegress
  obtain ⟨older, holder⟩ := Arena.history_eq_cons hb
  rw [holder] at hbehind
  refine ⟨egress, b, older, ⟨by rw [he], by rw [he], by rw [he], hbehind⟩, ?_⟩
  rw [hchain, Arena.ancestors, holder]

theorem Ahead.cost_getLast? {out : Stroll} {before : Arrival} {stages : List Stage}
    {nodes : List Node} (h : Ahead out before stages nodes) :
    nodes.getLast?.map Node.cost =
      some (before.cost + (stages.map Stage.cost).sum + out.cost) := by
  induction h with
  | egress _ _ hcost => simp [Node.cost, hcost]
  | stage hends hrest ih =>
      obtain ⟨n, hn, hcost⟩ := Option.map_eq_some_iff.mp ih
      rw [List.getLast?_cons, hn, Option.getD_some, Option.map_some, hcost, hends.cost,
        List.map_cons, List.sum_cons]
      congr 1
      omega

theorem Behind.cost_eq {out : Stroll} {stop : Nat} {stages : List Stage} {b : Arrival}
    {older : List Arrival} (h : Behind out stop stages (b :: older)) :
    b.cost = out.cost + (stages.map Stage.cost).sum := by
  induction stages generalizing stop b older with
  | nil =>
      cases h with
      | access _ _ hcost _ => simp [hcost]
  | cons s rest ih =>
      cases h with
      | stage hstarts hrest =>
          rw [hstarts.cost, ih hrest, List.map_cons, List.sum_cons]
          omega

/-- Both chains accumulate the cost of the journey. -/
theorem ForwardChain.chainCost_eq {c : Course} {first : Arrival} {nodes : List Node}
    (h : c.ForwardChain first nodes) : chainCost (.arrival first :: nodes).reverse = c.cost := by
  obtain ⟨n, hn, hcost⟩ := Option.map_eq_some_iff.mp h.ahead.cost_getLast?
  unfold chainCost
  rw [List.head?_reverse, List.getLast?_cons, hn, Option.getD_some, Option.map_some,
    Option.getD_some, hcost, h.cost]
  rfl

theorem ReverseChain.chainCost_eq {c : Course} {e : Egress} {b : Arrival} {older : List Arrival}
    (h : c.ReverseChain e b older) :
    chainCost (.egress e :: (b :: older).map .arrival) = c.cost := by
  have hcost : e.cost = c.cost := by
    rw [h.cost, h.behind.cost_eq]
    show c.egress.cost + _ + c.access.cost = c.access.cost + _ + c.egress.cost
    omega
  exact hcost

theorem legs_forward_eq_legs_reverse {c : Course} {first b : Arrival} {nodes : List Node}
    {e : Egress} {older : List Arrival} (hf : c.ForwardChain first nodes)
    (hr : c.ReverseChain e b older) :
    legs .forward (.arrival first :: nodes).reverse =
      legs .reverse (.egress e :: (b :: older).map .arrival) := by
  have hstop : b.stop = first.stop := by rw [hr.behind.stop_eq, hf.stop]
  have haccess : forwardLeg (.arrival first) none = reverseLeg (.egress e) (some (.arrival b)) :=
    forwardLeg_access_eq_reverseLeg hf.how hf.time hf.cost hr.fromTime hr.time hr.cost hstop
  have hbehind : Behind c.egress first.stop c.stages (b :: older) := by
    rw [hf.stop]
    exact hr.behind
  have hrest := mapM_forwardLeg_eq_mapM_reverseLeg hf.ahead hbehind
  have hpairs : withPrevious (.egress e :: (b :: older).map .arrival) =
      (.egress e, some (.arrival b)) :: withPrevious ((b :: older).map .arrival) := rfl
  rw [legs_forward]
  unfold legs
  rw [hpairs, withBefore, List.mapM_cons, List.mapM_cons, hrest]
  simp only [haccess]

/-! ## Bounds -/

/-- The stage can be charged, measured and looked up. -/
structure Stage.Bounded (s : Stage) : Prop where
  cost : Roundable s.cost
  walk : s.means = .onFoot → InRange (s.toTime - s.fromTime)
  trip : ∀ trip, s.means = .aboard trip → trip.value.Readable

/-- No number of the journey leads out of range, and its trips can be read. -/
structure Bounded (c : Course) : Prop where
  total : Roundable c.cost
  access : Roundable c.access.cost ∧ InRange (c.access.toTime - c.access.fromTime)
  stages : ∀ s ∈ c.stages, s.Bounded
  egress : Roundable c.egress.cost ∧ InRange (c.egress.toTime - c.egress.fromTime)

theorem Stage.Bounded.forwardLeg_settles {s : Stage} {before a : Arrival} (hs : s.Bounded)
    (h : s.EndsAt before a) :
    Outcome.Settles (forwardLeg (.arrival a) (some (.arrival before))) := by
  have hadded : added (.arrival a, some (.arrival before)) = s.cost := added_eq h.cost
  have hcost : Roundable (added (.arrival a, some (.arrival before))) := by
    rw [hadded]
    exact hs.cost
  refine Assembly.forwardLeg_settles hcost ?_ ?_
  · intro fromTime hfrom
    cases hmeans : s.means with
    | onFoot =>
        have hhow := h.how
        rw [hmeans] at hhow
        simp only [Node.fromTime?, Arrival.fromTime?, hhow, Option.some.injEq] at hfrom
        show InRange (a.time - fromTime)
        rw [h.time, ← hfrom]
        exact hs.walk hmeans
    | aboard trip =>
        have hhow := h.how
        rw [hmeans] at hhow
        simp [Node.fromTime?, Arrival.fromTime?, hhow] at hfrom
  · intro trip htrip
    cases hmeans : s.means with
    | onFoot =>
        have hhow := h.how
        rw [hmeans] at hhow
        simp [Node.trip?, Arrival.trip?, hhow] at htrip
    | aboard ridden =>
        have hhow := h.how
        rw [hmeans] at hhow
        simp only [Node.trip?, Arrival.trip?, hhow, Option.some.injEq] at htrip
        rw [← htrip]
        exact hs.trip ridden hmeans

theorem Ahead.forwardLeg_settles {out : Stroll} {before : Arrival} {stages : List Stage}
    {nodes : List Node} (h : Ahead out before stages nodes)
    (hout : Roundable out.cost ∧ InRange (out.toTime - out.fromTime))
    (hstages : ∀ s ∈ stages, s.Bounded) :
    ∀ pair ∈ withBefore (some (.arrival before)) nodes, (forwardLeg pair.1 pair.2).Settles := by
  induction h with
  | @egress before e hfrom hto hcost =>
      intro pair hpair
      rw [List.mem_singleton.mp hpair]
      have hadded : added (.egress e, some (.arrival before)) = out.cost := added_eq hcost
      have hround : Roundable (added (.egress e, some (.arrival before))) := by
        rw [hadded]
        exact hout.1
      refine Assembly.forwardLeg_settles hround ?_ (fun trip htrip => nomatch htrip)
      intro fromTime hfromTime
      show InRange (e.time - fromTime)
      have hstart : e.fromTime = fromTime := Option.some.inj hfromTime
      rw [← hstart, hfrom, hto]
      exact hout.2
  | stage hends hrest ih =>
      intro pair hpair
      rcases List.mem_cons.mp hpair with rfl | hpair
      · exact (hstages _ List.mem_cons_self).forwardLeg_settles hends
      · exact ih (fun s hs => hstages s (List.mem_cons_of_mem _ hs)) pair hpair

/-- Within bounds, the assembly of a forward chain does not fault. -/
theorem ForwardChain.itinerary_settles {c : Course} {first : Arrival} {nodes : List Node}
    (h : c.ForwardChain first nodes) (hc : c.Bounded) :
    (itinerary .forward (.arrival first :: nodes).reverse).Settles := by
  have hadded : added (.arrival first, none) = c.access.cost :=
    added_eq (by simp [Node.cost, h.cost])
  have haccess : Roundable (added (.arrival first, none)) := by
    rw [hadded]
    exact hc.access.1
  have hfirst : (forwardLeg (.arrival first) none).Settles := by
    refine Assembly.forwardLeg_settles haccess ?_ ?_
    · intro fromTime hfrom
      simp only [Node.fromTime?, Arrival.fromTime?, h.how, Option.some.injEq] at hfrom
      show InRange (first.time - fromTime)
      rw [h.time, ← hfrom]
      exact hc.access.2
    · intro trip htrip
      simp [Node.trip?, Arrival.trip?, h.how] at htrip
  have hlegs : (legs .forward (.arrival first :: nodes).reverse).Settles := by
    rw [legs_forward]
    refine Outcome.settles_mapM fun pair hpair => ?_
    rcases List.mem_cons.mp hpair with rfl | hpair
    · exact hfirst
    · exact h.ahead.forwardLeg_settles hc.egress hc.stages pair hpair
  have htotal : Outcome.Settles (Outcome.ofChecked (ε := ItineraryError) (Cost.toWhole c.cost)) :=
    Ends.ofChecked (Ends.of_ok (Cost.toWhole_eq_ok_iff.mpr ⟨hc.total.2, rfl⟩) trivial)
  unfold itinerary
  rw [h.chainCost_eq]
  refine Outcome.Settles.bind htotal fun total => ?_
  exact Outcome.Settles.bind hlegs fun _ => Outcome.settles_ofExcept _

/-- Whatever the journey, the chain recorded from its start and the chain
recorded from its end assemble to the same result. Within bounds that result
is an itinerary or a refusal by rule. -/
theorem assemble_forward_eq_assemble_reverse {c : Course} {start start' arena arena' : Arena}
    {e e' : Nat} (hforward : c.recordForward start = .ok (arena, e))
    (hreverse : c.recordReverse start' = .ok (arena', e')) :
    arena.assemble .forward e = arena'.assemble .reverse e' ∧
      (c.Bounded → (∃ i, arena.assemble .forward e = .ok i) ∨
        ∃ reason, arena.assemble .forward e = .error (.refused reason)) := by
  obtain ⟨first, nodes, hf, hchain⟩ := chain_recordForward hforward
  obtain ⟨egress, b, older, hr, hchain'⟩ := chain_recordReverse hreverse
  have hassemble : arena.assemble .forward e =
      itinerary .forward (.arrival first :: nodes).reverse := by
    unfold Arena.assemble
    rw [hchain]
    rfl
  have hassemble' : arena'.assemble .reverse e' =
      itinerary .reverse (.egress egress :: (b :: older).map .arrival) := by
    unfold Arena.assemble
    rw [hchain']
    rfl
  constructor
  · rw [hassemble, hassemble']
    unfold itinerary
    rw [hf.chainCost_eq, hr.chainCost_eq, legs_forward_eq_legs_reverse hf hr]
  · intro hc
    rw [hassemble, ← Outcome.settles_iff]
    exact hf.itinerary_settles hc

/-- A bus that calls at its two first stops twice, a walk, and a second bus. -/
def roundTheBlock : Course where
  firstStop := 1
  access := { fromTime := 0, toTime := 100, cost := 20000 }
  stages :=
    [{ toStop := 2, fromTime := 110, toTime := 400, cost := 35049
       means := .aboard { tag := 0, value := .bus "5" [(1, 100, 110), (2, 200, 210),
         (1, 300, 310), (2, 400, 410)] }
       forwardRound := 1, reverseRound := 2 },
     { toStop := 3, fromTime := 400, toTime := 430, cost := 6050, means := .onFoot
       forwardRound := 1, reverseRound := 1 },
     { toStop := 4, fromTime := 500, toTime := 600, cost := -51
       means := .aboard { tag := 1, value := .bus "6" [(3, 500, 500), (4, 600, 600)] }
       forwardRound := 2, reverseRound := 1 }]
  egress := { fromTime := 600, toTime := 660, cost := 12000 }

theorem roundTheBlock_bounded : roundTheBlock.Bounded := by
  have htrips : ∀ s ∈ roundTheBlock.stages, ∀ trip, s.means = .aboard trip →
      trip.value.Readable := by
    intro s hs trip hmeans
    refine TimedTrip.Regular.readable ?_
    simp only [roundTheBlock, List.mem_cons, List.not_mem_nil, or_false] at hs
    rcases hs with rfl | rfl | rfl
    · cases hmeans
      exact ⟨rfl, rfl⟩
    · cases hmeans
    · cases hmeans
      exact ⟨rfl, rfl⟩
  have hnumbers : ∀ s ∈ roundTheBlock.stages, Roundable s.cost ∧ InRange (s.toTime - s.fromTime) := by
    decide
  refine ⟨by decide, by decide, fun s hs => ?_, by decide⟩
  exact ⟨(hnumbers s hs).1, fun _ => (hnumbers s hs).2, htrips s hs⟩

/-- The ride is taken from the first call to the last one in both directions. -/
theorem roundTheBlock_assembles_alike :
    ∃ arena e arena' e' i, roundTheBlock.recordForward {} = .ok (arena, e) ∧
      roundTheBlock.recordReverse {} = .ok (arena', e') ∧ roundTheBlock.Bounded ∧
      arena.assemble .forward e = .ok i ∧ arena'.assemble .reverse e' = .ok i ∧
      i.transitLegs.map (fun l => (l.boardPosition, l.alightPosition)) = [(0, 3), (0, 1)] := by
  have hforward : ∃ arena e, roundTheBlock.recordForward {} = .ok (arena, e) := ⟨_, _, rfl⟩
  have hreverse : ∃ arena e, roundTheBlock.recordReverse {} = .ok (arena, e) := ⟨_, _, rfl⟩
  obtain ⟨arena, e, hforward⟩ := hforward
  obtain ⟨arena', e', hreverse⟩ := hreverse
  obtain ⟨halike, hsettles⟩ := assemble_forward_eq_assemble_reverse hforward hreverse
  rcases hsettles roundTheBlock_bounded with ⟨i, hi⟩ | ⟨reason, hrefused⟩
  · refine ⟨arena, e, arena', e', i, hforward, hreverse, roundTheBlock_bounded, hi, ?_, ?_⟩
    · rw [← halike, hi]
    · cases hforward
      cases hi
      rfl
  · cases hforward
    cases hrefused

end Course

end Journey
