import Journey.Proofs.Itinerary.Course
import Journey.Proofs.Itinerary.RideSearch
import Journey.Proofs.Itinerary.Rules

/-!
# Assembled itineraries are sound

A chain can be recorded with any numbers in it. If an itinerary comes of it at all, then
the itinerary is a journey that can be made: `assemble_sound` says of any chain, and of
either direction of search, that each leg is the leg of its node, that time only goes
forward along the legs, and that each ride is on its trip where and when it says.

No single check ensures that. Each leg is looked at when it is made, and is known to
lead forward by then (`Drawn`). An itinerary looks at neighbours only, and finds that one
leg ends where the next one starts, and no later. That the times are in order all along
the journey takes both (`timeline_sorted`).
-/

namespace Journey

/-! ## Nodes and legs in travel order -/

/-- The leg that a search makes of a node. One that goes back in time starts with the
egress. -/
def Direction.legKind (d : Direction) : NodeKind → LegKind
  | .access => (d.orient .access .egress).1
  | .transit => .transit
  | .transfer => .transfer
  | .egress => (d.orient .access .egress).2

/-- Where and when a leg starts or ends. The two ends of a journey are not at stops. -/
structure LegEnd where
  stop? : Option Nat
  time : Int
  deriving DecidableEq, Repr

def Leg.start (l : Leg) : LegEnd := { stop? := l.fromStop?, time := l.fromTime }

def Leg.finish (l : Leg) : LegEnd := { stop? := l.toStop?, time := l.toTime }

def Leg.trip? (l : Leg) : Option (Shared TimedTrip) := l.transit?.map TransitLeg.trip

/-- The end of the leg of a node that the search came to. -/
def Node.reached (node : Node) : LegEnd := { stop? := node.stop?, time := node.time }

/-- The end of the leg of a node that the search came from. -/
def Node.reachedFrom (previous : Option Node) : Node → LegEnd
  | .egress e => { stop? := previous.bind stop?, time := e.fromTime }
  | .arrival a =>
    match a.how with
    | .access fromTime => { stop? := none, time := fromTime }
    | .transfer fromTime => { stop? := previous.bind stop?, time := fromTime }
    | .transit boardStop boardTime _ => { stop? := some boardStop, time := boardTime }

/-- The trip is at both ends of the ride where and when the leg says. -/
structure TransitLeg.Runs (t : TransitLeg) : Prop where
  forward : t.boardPosition < t.alightPosition
  fromStop : t.trip.value.pattern.stops[t.boardPosition]? = some t.fromStop
  departure : t.trip.value.departure t.boardPosition = .ok t.fromTime
  toStop : t.trip.value.pattern.stops[t.alightPosition]? = some t.toStop
  arrival : t.trip.value.arrival t.alightPosition = .ok t.toTime

namespace Assembly

/-- The nodes of a chain in travel order, each with the one that it extends. -/
def travelled (d : Direction) (nodes : List Node) : List (Node × Option Node) :=
  match d with
  | .forward => (withPrevious nodes).reverse
  | .reverse => withPrevious nodes

/-- The leg is the one of a node: its ends, its trip and what it costs are as the node says. -/
structure Depicts (d : Direction) (node : Node) (previous : Option Node) (leg : Leg) : Prop where
  kind : leg.kind = d.legKind node.kind
  ends : (leg.start, leg.finish) = d.orient (node.reachedFrom previous) node.reached
  trip : leg.trip? = node.trip?
  cost : legCost node previous = .ok leg.cost

/-- What is made of a node is its leg, leads forward, and if it is a ride the trip runs so. -/
structure Drawn (d : Direction) (node : Node) (previous : Option Node) (leg : Leg) : Prop where
  depicts : Depicts d node previous leg
  forward : leg.fromTime ≤ leg.toTime
  runs : ∀ t, leg = .transit t → t.Runs

def nodeLeg (d : Direction) (node : Node) (previous : Option Node) : Outcome ItineraryError Leg :=
  match d with
  | .forward => forwardLeg node previous
  | .reverse => reverseLeg node previous

theorem legs_eq (d : Direction) (nodes : List Node) :
    legs d nodes = (travelled d nodes).mapM fun pair => nodeLeg d pair.1 pair.2 := by
  cases d with
  | forward => rfl
  | reverse => rfl

/-! ## What is made of a node -/

variable {d : Direction} {node : Node} {previous : Option Node} {fromTime toTime : Int}

/-- A walk that passes leads forward in travel order. -/
theorem checkWalk_passes :
    Ends (fun _ => (d.orient fromTime toTime).1 ≤ (d.orient fromTime toTime).2) (fun _ => True)
      (checkWalk d fromTime toTime) :=
  (checkWalk_ends rfl).mono (fun _ hwalk => hwalk) fun _ _ => trivial

theorem previousStop_gives :
    Ends (fun stop => previous.bind Node.stop? = some stop) (fun _ => True)
      (Outcome.ofExcept (previousStop previous)) := by
  unfold previousStop
  cases h : previous.bind Node.stop? with
  | none => trivial
  | some stop => rfl

theorem transitLeg_drawn {a : Arrival} {boardStop : Nat} {boardTime cost : Int}
    {trip : Shared TimedTrip} (hhow : a.how = .transit boardStop boardTime trip)
    (hcost : legCost (.arrival a) previous = .ok cost) :
    Ends (Drawn d (.arrival a) previous) (fun _ => True)
      (transitLeg d a boardStop boardTime trip cost) := by
  generalize hr : RideEnds.ofArrival d a boardStop boardTime trip = r
  by_cases htimes : r.fromTime ≤ r.toTime
  · refine (transitLeg_ends cost hr.symm htimes).mono ?_ (fun _ _ => trivial)
    rintro leg ⟨board, alight, hleast, rfl⟩
    have hfits := hleast.fits
    refine ⟨⟨?_, ?_, ?_, hcost⟩, htimes, ?_⟩
    · simp only [Node.kind, Arrival.kind, hhow]
      rfl
    · rw [← hr]
      simp only [Node.reachedFrom, hhow]
      cases d with
      | forward => rfl
      | reverse => rfl
    · rw [← hr]
      simp only [Node.trip?, Arrival.trip?, hhow]
      cases d with
      | forward => rfl
      | reverse => rfl
    · rintro t ⟨⟩
      exact ⟨hfits.forward, hfits.departs.1, hfits.departs.2, hfits.arrives.1, hfits.arrives.2⟩
  · rw [transitLeg_eq cost hr.symm, if_pos (by omega)]
    trivial

/-- A leg that is made of a node is its leg, whichever way the search went. -/
theorem nodeLeg_drawn (d : Direction) (node : Node) (previous : Option Node) :
    Ends (Drawn d node previous) (fun _ => True) (nodeLeg d node previous) := by
  cases d with
  | forward | reverse =>
      simp only [nodeLeg, forwardLeg, reverseLeg]
      refine Ends.bind (Ends.ofLift fun _ => trivial) fun cost hcost => ?_
      cases node with
      | egress e =>
          refine Ends.bind checkWalk_passes fun _ hwalk => ?_
          refine Ends.bind previousStop_gives fun stop hstop => ?_
          refine ⟨⟨rfl, ?_, rfl, hcost⟩, hwalk, ?_⟩
          · simp only [Node.reachedFrom, hstop]
            rfl
          · rintro t ⟨⟩
      | arrival a =>
          obtain ⟨round, stop, time, accumulated, extended, how⟩ := a
          cases how with
          | access fromTime =>
              refine Ends.bind checkWalk_passes fun _ hwalk => ?_
              refine ⟨⟨rfl, rfl, rfl, hcost⟩, hwalk, ?_⟩
              rintro t ⟨⟩
          | transfer fromTime =>
              refine Ends.bind checkWalk_passes fun _ hwalk => ?_
              refine Ends.bind previousStop_gives fun stop' hstop => ?_
              refine ⟨⟨rfl, ?_, rfl, hcost⟩, hwalk, ?_⟩
              · simp only [Node.reachedFrom, hstop]
                rfl
              · rintro t ⟨⟩
          | transit boardStop boardTime trip => exact transitLeg_drawn rfl hcost

/-- The legs of a chain are those of its nodes. -/
theorem legs_drawn (d : Direction) (nodes : List Node) :
    Ends (List.Forall₂ (fun (pair : Node × Option Node) leg => Drawn d pair.1 pair.2 leg)
      (travelled d nodes)) (fun _ => True) (legs d nodes) := by
  rw [legs_eq]
  exact Ends.mapM fun pair _ => nodeLeg_drawn d pair.1 pair.2

end Assembly

/-! ## Time along legs -/

/-- How long a leg takes: less than nothing, if it is a leg that leads back in time. -/
def Leg.span (l : Leg) : Int := l.toTime - l.fromTime

namespace Itinerary

/-- How long the traveller stays where one leg ends and the next one starts. -/
def gaps (legs : List Leg) : List Int :=
  (legs.zip legs.tail).map fun (leg, next) => next.fromTime - leg.toTime

/-- When the legs start and end, one after the other. -/
def timeline (legs : List Leg) : List Int := legs.flatMap fun l => [l.fromTime, l.toTime]

variable {leg next last : Leg} {rest legs : List Leg}

theorem gaps_cons_cons : gaps (leg :: next :: rest) =
    (next.fromTime - leg.toTime) :: gaps (next :: rest) := rfl

theorem timeline_cons : timeline (leg :: rest) = leg.fromTime :: leg.toTime :: timeline rest := rfl

/-- Legs that lead forward and do not overlap are in order all along. -/
theorem timeline_sorted (hforward : ∀ l ∈ legs, l.fromTime ≤ l.toTime)
    (hordered : legs.IsChain fun leg next => leg.toTime ≤ next.fromTime) :
    (timeline legs).Pairwise (· ≤ ·) := by
  rw [← List.isChain_iff_pairwise]
  induction legs with
  | nil => exact .nil
  | cons leg rest ih =>
      obtain ⟨hleg, hrest⟩ := List.forall_mem_cons.mp hforward
      rw [timeline_cons]
      refine .cons_cons hleg ?_
      cases rest with
      | nil => exact .singleton _
      | cons next rest =>
          obtain ⟨hpair, hchain⟩ := List.isChain_cons_cons.mp hordered
          exact .cons_cons hpair (ih hrest hchain)

theorem gaps_nonneg (hordered : legs.IsChain fun leg next => leg.toTime ≤ next.fromTime) :
    ∀ gap ∈ gaps legs, 0 ≤ gap := by
  induction legs with
  | nil => exact fun gap hgap => absurd hgap List.not_mem_nil
  | cons leg rest ih =>
      cases rest with
      | nil => exact fun gap hgap => absurd hgap List.not_mem_nil
      | cons next rest =>
          obtain ⟨hpair, hchain⟩ := List.isChain_cons_cons.mp hordered
          rw [gaps_cons_cons, List.forall_mem_cons]
          exact ⟨by omega, ih hchain⟩

/-- From the start of the first leg to the end of the last one, all time is spent on
legs or between them. -/
theorem toTime_sub_fromTime (hlast : (leg :: rest).getLast? = some last) :
    last.toTime - leg.fromTime =
      ((leg :: rest).map Leg.span).sum + (gaps (leg :: rest)).sum := by
  induction rest generalizing leg with
  | nil =>
      cases hlast
      simp [Leg.span, gaps]
  | cons next rest ih =>
      rw [List.getLast?_cons_cons] at hlast
      have htail := ih hlast
      rw [List.map_cons, List.sum_cons, gaps_cons_cons, List.sum_cons]
      unfold Leg.span at htail ⊢
      omega

/-! ## Sound itineraries -/

/-- The itinerary of the nodes of a chain, which can be made as it says. -/
structure Sound (d : Direction) (nodes : List Node) (i : Itinerary) : Prop where
  depicts : List.Forall₂ (fun (pair : Node × Option Node) leg =>
    Assembly.Depicts d pair.1 pair.2 leg) (Assembly.travelled d nodes) i.legs
  first : i.legs.head? = some (.access i.access)
  last : i.legs.getLast? = some (.egress i.egress)
  sorted : (timeline i.legs).Pairwise (· ≤ ·)
  spans : ∀ l ∈ i.legs, 0 ≤ l.span
  gaps : ∀ gap ∈ gaps i.legs, 0 ≤ gap
  duration : i.endTime - i.startTime = (i.legs.map Leg.span).sum + (Itinerary.gaps i.legs).sum
  meets : i.legs.IsChain fun leg next =>
    ∃ stop, leg.toStop? = some stop ∧ next.fromStop? = some stop
  runs : ∀ t, .transit t ∈ i.legs → t.Runs

/-- All that is looked at before an itinerary comes of a chain. -/
structure Assembled (d : Direction) (nodes : List Node) (i : Itinerary) : Prop where
  total : Cost.toWhole (Assembly.chainCost nodes) = .ok i.cost
  drawn : List.Forall₂ (fun (pair : Node × Option Node) leg =>
    Assembly.Drawn d pair.1 pair.2 leg) (Assembly.travelled d nodes) i.legs
  wellFormed : WellFormed i.legs
  holds : i.Holds i.legs i.cost

theorem Assembled.sound {d : Direction} {nodes : List Node} {i : Itinerary}
    (h : i.Assembled d nodes) : i.Sound d nodes := by
  have hforward : ∀ l ∈ i.legs, l.fromTime ≤ l.toTime :=
    forall_mem_right h.drawn fun _ _ hleg => hleg.forward
  have hruns : ∀ l ∈ i.legs, ∀ t, l = .transit t → t.Runs :=
    forall_mem_right h.drawn fun _ _ hleg => hleg.runs
  have hordered := h.wellFormed.ordered
  refine ⟨h.drawn.imp fun _ _ hleg => hleg.depicts, h.holds.access, h.holds.egress,
    timeline_sorted hforward hordered, ?_, gaps_nonneg hordered, ?_, h.wellFormed.meets, ?_⟩
  · intro l hl
    have hle := hforward l hl
    unfold Leg.span
    omega
  · obtain ⟨rest, hrest⟩ := List.head?_eq_some_iff.mp h.holds.access
    have hlast := h.holds.egress
    rw [hrest] at hlast ⊢
    exact toTime_sub_fromTime hlast
  · exact fun t ht => hruns _ ht t rfl

end Itinerary

theorem Arena.assembled_of_assemble {arena : Arena} {d : Direction} {egress : Nat} {i : Itinerary}
    (h : arena.assemble d egress = .ok i) :
    ∃ nodes, arena.chain egress = .ok nodes ∧ i.Assembled d nodes := by
  obtain ⟨nodes, hchain, h⟩ := bind_eq_ok_iff.mp h
  obtain ⟨total, htotal, h⟩ := bind_eq_ok_iff.mp h
  obtain ⟨legs, hlegs, h⟩ := bind_eq_ok_iff.mp h
  have hof : Itinerary.ofLegs legs total = .ok i := Outcome.ofExcept_eq_ok_iff.mp h
  have hwell : Itinerary.WellFormed legs := Itinerary.exists_ofLegs_iff.mp ⟨i, hof⟩
  have hholds := Itinerary.holds_of_ofLegs hof hwell
  have hdrawn := Assembly.legs_drawn d nodes
  rw [hlegs] at hdrawn
  obtain rfl : i.legs = legs := hholds.legs_eq
  obtain rfl : i.cost = total := hholds.cost_eq
  exact ⟨nodes, Outcome.ofChecked_eq_ok_iff.mp hchain,
    Outcome.ofChecked_eq_ok_iff.mp htotal, hdrawn, hwell, hholds⟩

/-- Whatever chain is assembled, in either direction: if an itinerary comes of it, that
is the one of its nodes, and it is sound. -/
theorem Arena.assemble_sound {arena : Arena} {d : Direction} {egress : Nat} {i : Itinerary}
    (h : arena.assemble d egress = .ok i) :
    ∃ nodes, arena.chain egress = .ok nodes ∧ i.Sound d nodes := by
  obtain ⟨nodes, hchain, hassembled⟩ := arena.assembled_of_assemble h
  exact ⟨nodes, hchain, hassembled.sound⟩

/-- A journey round the block that was found from its end. -/
theorem roundTheBlock_back_sound :
    ∃ arena egress i nodes, Course.roundTheBlock.recordReverse {} = .ok (arena, egress) ∧
      arena.assemble .reverse egress = .ok i ∧ arena.chain egress = .ok nodes ∧
      i.Sound .reverse nodes := by
  have hreverse : ∃ arena e i, Course.roundTheBlock.recordReverse {} = .ok (arena, e) ∧
      arena.assemble .reverse e = .ok i := ⟨_, _, _, rfl, rfl⟩
  obtain ⟨arena, e, i, hrecord, hassemble⟩ := hreverse
  obtain ⟨nodes, hchain, hsound⟩ := Arena.assemble_sound hassemble
  exact ⟨arena, e, i, nodes, hrecord, hassemble, hchain, hsound⟩

end Journey
