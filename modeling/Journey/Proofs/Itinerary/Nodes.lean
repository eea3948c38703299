import Journey.Proofs.Itinerary.Legs

/-!
# The leg of a node

What a forward assembly makes of a node: `Assembly.Made` relates a node and the
one before it to the leg between them, of the same kind, with the same stops
and times. Each lemma here says of one kind of node under which conditions its
leg is made, so that only a number out of range can come in between.
-/

namespace Journey.Assembly

/-- The leg of a node of a forward chain, after the node before it. -/
inductive Made : Node → Option Node → Leg → Prop
  | access {a : Arrival} {fromTime cost : Int} : a.how = .access fromTime →
      legCost (.arrival a) none = .ok cost →
      Made (.arrival a) none (.access { fromTime, toTime := a.time, toStop := a.stop, cost })
  | transfer {a before : Arrival} {fromTime cost : Int} : a.how = .transfer fromTime →
      legCost (.arrival a) (some (.arrival before)) = .ok cost →
      Made (.arrival a) (some (.arrival before))
        (.transfer { fromStop := before.stop, toStop := a.stop, fromTime, toTime := a.time, cost })
  | transit {a before : Arrival} {boardTime cost : Int} {trip : Shared TimedTrip}
      {boardPosition alightPosition : Nat} : a.how = .transit before.stop boardTime trip →
      legCost (.arrival a) (some (.arrival before)) = .ok cost →
      trip.value.VisitsAt trip.value.departure before.stop boardTime boardPosition →
      trip.value.VisitsAt trip.value.arrival a.stop a.time alightPosition →
      boardPosition < alightPosition →
      Made (.arrival a) (some (.arrival before))
        (.transit { fromStop := before.stop, toStop := a.stop, fromTime := boardTime,
                    toTime := a.time, cost, trip, boardPosition, alightPosition })
  | egress {e : Egress} {before : Arrival} {cost : Int} :
      legCost (.egress e) (some (.arrival before)) = .ok cost →
      Made (.egress e) (some (.arrival before))
        (.egress { fromStop := before.stop, fromTime := e.fromTime, toTime := e.time, cost })

/-- A walk that does not end before it starts passes. -/
theorem checkWalk_ends_of_le {fromTime toTime : Int} (h : fromTime ≤ toTime) :
    Ends (fun _ => True) Failure.IsOverflow (checkWalk .forward fromTime toTime) := by
  have htimes : Direction.forward.orient fromTime toTime = (fromTime, toTime) := rfl
  refine (checkWalk_ends htimes).mono (fun _ _ => trivial) ?_
  rintro failure (⟨hoverflow, _⟩ | ⟨hback, _⟩)
  · exact hoverflow
  · omega

section

variable {a before : Arrival}

theorem forwardLeg_access_ends {fromTime : Int} (hhow : a.how = .access fromTime)
    (hwalk : fromTime ≤ a.time) :
    Ends (Made (.arrival a) none) Failure.IsOverflow (forwardLeg (.arrival a) none) := by
  unfold forwardLeg
  refine Ends.bind (Ends.ofChecked (legCost_exactly _ _).gives) fun cost hcost => ?_
  simp only [hhow]
  exact Ends.bind (checkWalk_ends_of_le hwalk) fun _ _ => .access hhow hcost

theorem forwardLeg_transfer_ends {fromTime : Int} (hhow : a.how = .transfer fromTime)
    (hwalk : fromTime ≤ a.time) :
    Ends (Made (.arrival a) (some (.arrival before))) Failure.IsOverflow
      (forwardLeg (.arrival a) (some (.arrival before))) := by
  unfold forwardLeg
  refine Ends.bind (Ends.ofChecked (legCost_exactly _ _).gives) fun cost hcost => ?_
  simp only [hhow]
  exact Ends.bind (checkWalk_ends_of_le hwalk) fun _ _ => .transfer hhow hcost

theorem forwardLeg_egress_ends {e : Egress} (hwalk : e.fromTime ≤ e.time) :
    Ends (Made (.egress e) (some (.arrival before))) Failure.IsOverflow
      (forwardLeg (.egress e) (some (.arrival before))) := by
  unfold forwardLeg
  refine Ends.bind (Ends.ofChecked (legCost_exactly _ _).gives) fun cost hcost => ?_
  exact Ends.bind (checkWalk_ends_of_le hwalk) fun _ _ => .egress hcost

theorem forwardLeg_transit_ends {boardTime : Int} {trip : Shared TimedTrip} {board alight : Nat}
    (hhow : a.how = .transit before.stop boardTime trip) (hread : trip.value.Readable)
    (hboard : trip.value.VisitsAt trip.value.departure before.stop boardTime board)
    (halight : trip.value.VisitsAt trip.value.arrival a.stop a.time alight)
    (hforward : board < alight) (htimes : boardTime ≤ a.time) :
    Ends (Made (.arrival a) (some (.arrival before))) Failure.IsOverflow
      (forwardLeg (.arrival a) (some (.arrival before))) := by
  unfold forwardLeg
  refine Ends.bind (Ends.ofChecked (legCost_exactly _ _).gives) fun cost hcost => ?_
  simp only [hhow]
  generalize hr : RideEnds.ofArrival .forward a before.stop boardTime trip = r
  have hfits : r.Fits board alight := by
    rw [← hr]
    exact ⟨hboard, halight, hforward⟩
  have htimes' : r.fromTime ≤ r.toTime := by
    rw [← hr]
    exact htimes
  have hread' : r.trip.value.Readable := by
    rw [← hr]
    exact hread
  refine (transitLeg_ends cost hr.symm htimes').mono ?_ ?_
  · rintro leg ⟨b, l, hleast, rfl⟩
    have hfound := hleast.fits
    rw [← hr] at hfound ⊢
    exact .transit hhow hcost hfound.departs hfound.arrives hfound.forward
  · intro failure hturned
    exact absurd hfits (hturned.not_fits hread' board alight)

end

end Journey.Assembly
