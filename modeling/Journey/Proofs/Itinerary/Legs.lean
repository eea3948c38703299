import Journey.Proofs.Cost.Rounding
import Journey.Proofs.Itinerary.Positions
import Journey.Proofs.Outcome

/-!
# Legs, node by node

The assembly of a chain goes through its nodes one by one, each together with
the node that it extends. A chain stands latest node first, so travel order
is the order of a reverse chain and the opposite of a forward one:
`legs_forward` says what the assembly of a forward chain does with the nodes
in travel order.

A leg is made or refused, without a fault, where its cost can be rounded, its
walk can be measured and its trip can be read (`forwardLeg_settles`).
-/

namespace Journey

/-- Two things that a search meets one after the other, in travel order. -/
def Direction.orient {α : Type} (d : Direction) (a b : α) : α × α :=
  match d with
  | .forward => (a, b)
  | .reverse => (b, a)

namespace Assembly

/-- Each node of a chain that stands in travel order with the node before it. -/
def withBefore : Option Node → List Node → List (Node × Option Node)
  | _, [] => []
  | before, n :: rest => (n, before) :: withBefore (some n) rest

/-- Nodes put in front of a chain are paired with those they extend. -/
theorem withPrevious_reverse_append (nodes tail : List Node) :
    withPrevious (nodes.reverse ++ tail) =
      (withBefore tail.head? nodes).reverse ++ withPrevious tail := by
  induction nodes generalizing tail with
  | nil => rfl
  | cons n rest ih =>
      have hsplit : (n :: rest).reverse ++ tail = rest.reverse ++ (n :: tail) := by simp
      rw [hsplit, ih]
      simp [withBefore, withPrevious]

theorem reverse_withPrevious_reverse (nodes : List Node) :
    (withPrevious nodes.reverse).reverse = withBefore none nodes := by
  have h := withPrevious_reverse_append nodes []
  simp only [List.append_nil, List.head?_nil, withPrevious] at h
  rw [h, List.reverse_reverse]

/-- The legs of a forward chain, by its nodes in travel order. -/
theorem legs_forward (nodes : List Node) :
    legs .forward nodes.reverse =
      (withBefore none nodes).mapM fun (node, before) => forwardLeg node before := by
  unfold legs
  rw [reverse_withPrevious_reverse]

/-! ## Costs -/

/-- What a node adds to the accumulated cost, not rounded. -/
def added (pair : Node × Option Node) : Int := pair.1.cost - (pair.2.map Node.cost).getD 0

/-- The whole number of seconds nearest to a cost, a half going up. -/
def rounded (cost : Int) : Int := (cost + Cost.scale / 2) / Cost.scale

/-- The cost can be rounded to whole seconds. -/
def Roundable (cost : Int) : Prop := InRange cost ∧ InRange (cost + Cost.scale / 2)

instance (cost : Int) : Decidable (Roundable cost) := inferInstanceAs (Decidable (_ ∧ _))

/-- A leg is charged what its node adds, rounded. -/
theorem legCost_exactly (node : Node) (previous : Option Node) :
    Checked.Exactly (Roundable (added (node, previous))) (rounded (added (node, previous)))
      (legCost node previous) :=
  (Checked.sub_exactly _ _).bind (Cost.toWhole_exactly _)

theorem added_eq {node : Node} {previous : Option Node} {cost : Int}
    (h : node.cost = (previous.map Node.cost).getD 0 + cost) : added (node, previous) = cost := by
  show node.cost - (previous.map Node.cost).getD 0 = cost
  omega

/-- What a leg is charged that adds a cost to a chain. -/
def addedCost (cost : Int) : Checked Int := do
  Cost.toWhole (← Checked.sub cost 0)

/-- A leg is charged what its node adds, whatever was accumulated before. -/
theorem legCost_eq_addedCost {node : Node} {previous : Option Node} {cost : Int}
    (h : node.cost = (previous.map Node.cost).getD 0 + cost) :
    legCost node previous = addedCost cost := by
  have hsub : Checked.sub node.cost ((previous.map Node.cost).getD 0) = Checked.sub cost 0 := by
    have hdiff : node.cost - (previous.map Node.cost).getD 0 = cost - 0 := by omega
    unfold Checked.sub
    rw [hdiff]
  show (Checked.sub node.cost ((previous.map Node.cost).getD 0) >>= Cost.toWhole) =
    (Checked.sub cost 0 >>= Cost.toWhole)
  rw [hsub]

/-! ## Walks -/

/-- A walk with its ends exchanged, looked at in the opposite direction. -/
theorem checkWalk_reverse (fromTime toTime : Int) :
    checkWalk .reverse toTime fromTime = checkWalk .forward fromTime toTime := rfl

/-- A walk is refused if it leads back in travel order. Else it passes, where its span can
be measured. -/
theorem checkWalk_ends {d : Direction} {fromTime toTime start finish : Int}
    (htimes : d.orient fromTime toTime = (start, finish)) :
    Ends (fun _ => start ≤ finish)
      (fun failure => failure.OverflowsUnless (InRange (finish - start)) ∨
        finish < start ∧ failure = .refused (.invalid .walkEndsBeforeStart))
      (checkWalk d fromTime toTime) := by
  have hduration : d.duration fromTime toTime = Checked.sub finish start := by
    cases d with
    | forward | reverse =>
        cases htimes
        rfl
  have hspan : Ends (fun duration => duration = finish - start)
      (fun failure : Failure ItineraryError =>
        failure.OverflowsUnless (InRange (finish - start)) ∨
          finish < start ∧ failure = .refused (.invalid .walkEndsBeforeStart))
      (Outcome.ofChecked (d.duration fromTime toTime)) := by
    rw [hduration]
    apply Ends.ofChecked
    exact (Checked.sub_exactly finish start).mono (fun _ h => h.1) fun _ hf => .inl hf
  unfold checkWalk
  refine Ends.bind hspan fun duration hduration => ?_
  split
  · exact .inr ⟨by omega, rfl⟩
  · show start ≤ finish
    omega

/-! ## Legs without faults -/

theorem checkWalk_settles {fromTime toTime : Int} (h : InRange (toTime - fromTime)) :
    Outcome.Settles (checkWalk .forward fromTime toTime) := by
  have htimes : Direction.forward.orient fromTime toTime = (fromTime, toTime) := rfl
  refine (checkWalk_ends htimes).mono (fun _ _ => trivial) ?_
  rintro failure (⟨_, hout⟩ | ⟨_, hrefused⟩)
  · exact absurd h hout
  · exact ⟨_, hrefused⟩

theorem previousStop_settles (previous : Option Node) :
    Outcome.Settles (Outcome.ofExcept (previousStop previous)) :=
  Outcome.settles_ofExcept _

theorem transitLeg_settles {a : Arrival} {boardStop : Nat} {boardTime cost : Int}
    {trip : Shared TimedTrip} (h : trip.value.Readable) :
    Outcome.Settles (transitLeg .forward a boardStop boardTime trip cost) := by
  generalize hr : RideEnds.ofArrival .forward a boardStop boardTime trip = r
  have hread : r.trip.value.Readable := by
    rw [← hr]
    exact h
  by_cases htimes : r.fromTime ≤ r.toTime
  · refine (transitLeg_ends cost hr.symm htimes).mono (fun _ _ => trivial) ?_
    intro failure hturned
    exact hturned.refused hread
  · rw [transitLeg_eq cost hr.symm, if_pos (by omega)]
    exact ⟨_, rfl⟩

/-- A leg comes to a value or a refusal where its cost, its walk and the times
of its trip are within bounds. -/
theorem forwardLeg_settles {node : Node} {previous : Option Node}
    (hcost : Roundable (added (node, previous)))
    (hwalk : ∀ fromTime, node.fromTime? = some fromTime → InRange (node.time - fromTime))
    (htrip : ∀ trip, node.trip? = some trip → trip.value.Readable) :
    Outcome.Settles (forwardLeg node previous) := by
  unfold forwardLeg
  have hcharge := (legCost_exactly node previous).eq_ok_iff.mpr ⟨hcost, rfl⟩
  refine Outcome.Settles.bind (Ends.ofChecked (Ends.of_ok hcharge trivial)) fun cost => ?_
  cases node with
  | egress e =>
      refine Outcome.Settles.bind (checkWalk_settles (hwalk _ rfl)) fun _ => ?_
      exact Outcome.Settles.bind (previousStop_settles previous) fun _ => trivial
  | arrival a =>
      obtain ⟨round, stop, time, accumulated, extended, how⟩ := a
      cases how with
      | access fromTime =>
          exact Outcome.Settles.bind (checkWalk_settles (hwalk _ rfl)) fun _ => trivial
      | transfer fromTime =>
          refine Outcome.Settles.bind (checkWalk_settles (hwalk _ rfl)) fun _ => ?_
          exact Outcome.Settles.bind (previousStop_settles previous) fun _ => trivial
      | transit boardStop boardTime trip => exact transitLeg_settles (htrip trip rfl)

end Assembly

end Journey
