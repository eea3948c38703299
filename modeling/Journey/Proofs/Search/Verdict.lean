import Journey.Proofs.Search.Ancestry

/-!
# What the check of a chain reports

A chain keeps its rules where each pair of neighbours does (`Node.Keeps`): the cost
does not decrease, the round does not decrease, and it increases only on a ride,
on a trip that is not the one just ridden. Neighbours that break rules break one of
them first, in this order, and the flaw names their position and values
(`Node.Breaks`).

**Statement** (`validate_reports_first`): of every complete chain in an arena that was
filled by postings, whatever their costs, rounds and trips, the check passes exactly
the chains whose neighbours all keep the rules. It reports a flaw exactly if this is the
flaw of the first neighbours that do not, and nothing else can come of it.
-/

namespace Journey

namespace Node

/-- The node is reached on a ride, and not on the trip that the node before it was
reached on. -/
def BoardsAfter (node previous : Node) : Prop :=
  ∃ a boardStop boardTime trip, node = .arrival a ∧ a.how = .transit boardStop boardTime trip ∧
    ∀ last, previous.trip? = some last → last.tag ≠ trip.tag

/-- Neighbours keep the rules of a chain. -/
structure Keeps (previous node : Node) : Prop where
  cost : previous.cost ≤ node.cost
  round : previous.round ≤ node.round
  boards : previous.round < node.round → node.BoardsAfter previous

/-- The flaw of neighbours that do not: it is of the first rule that they break. -/
inductive Breaks (previous node : Node) (position : Nat) : ChainFlaw → Prop
  | cost : node.cost < previous.cost →
      Breaks previous node position (.costDecreased position previous.cost node.cost)
  | round : previous.cost ≤ node.cost → node.round < previous.round →
      Breaks previous node position (.roundDecreased position previous.round node.round)
  | boards : previous.cost ≤ node.cost → previous.round < node.round →
      ¬ node.BoardsAfter previous →
      Breaks previous node position (.unexpectedRoundIncrease position)

variable {previous node : Node} {position : Nat} {flaw : ChainFlaw}

theorem trip?_eq_some_iff {trip : Shared TimedTrip} :
    node.trip? = some trip ↔
      ∃ a boardStop boardTime, node = .arrival a ∧ a.how = .transit boardStop boardTime trip := by
  cases node with
  | egress e => simp [trip?]
  | arrival a =>
      cases hhow : a.how with
      | access fromTime => simp [trip?, Arrival.trip?, hhow]
      | transfer fromTime => simp [trip?, Arrival.trip?, hhow]
      | transit boardStop boardTime ridden => simp [trip?, Arrival.trip?, hhow]

theorem boardsNewTrip_iff_boardsAfter :
    boardsNewTrip previous node = true ↔ node.BoardsAfter previous := by
  rw [boardsNewTrip_iff]
  constructor
  · rintro ⟨hride, hfresh⟩
    obtain ⟨trip, htrip⟩ := Option.isSome_iff_exists.mp hride
    obtain ⟨a, boardStop, boardTime, hnode, hhow⟩ := trip?_eq_some_iff.mp htrip
    refine ⟨a, boardStop, boardTime, trip, hnode, hhow, fun last hlast htag => hfresh ?_⟩
    exact ⟨last, trip, hlast, htrip, Shared.same_iff.mpr htag⟩
  · rintro ⟨a, boardStop, boardTime, trip, hnode, hhow, hother⟩
    have htrip := trip?_eq_some_iff.mpr ⟨a, boardStop, boardTime, hnode, hhow⟩
    refine ⟨Option.isSome_iff_exists.mpr ⟨trip, htrip⟩, ?_⟩
    rintro ⟨last, trip', hlast, htrip', hsame⟩
    obtain rfl : trip = trip' := Option.some.inj (htrip.symm.trans htrip')
    exact hother last hlast (Shared.same_iff.mp hsame)

theorem sound_iff_keeps : previous.Sound node ↔ previous.Keeps node := by
  constructor
  · intro h
    exact ⟨h.cost, h.round, fun hmore => boardsNewTrip_iff_boardsAfter.mp (h.boards hmore)⟩
  · intro h
    exact ⟨h.cost, h.round, fun hmore => boardsNewTrip_iff_boardsAfter.mpr (h.boards hmore)⟩

theorem Keeps.pairFlaw?_eq (h : previous.Keeps node) : pairFlaw? position previous node = none :=
  pairFlaw?_eq_none_iff.mpr (sound_iff_keeps.mpr h)

/-- Neighbours that do not keep the rules break one of them first. -/
theorem exists_breaks (position : Nat) (h : ¬ previous.Keeps node) :
    ∃ flaw, previous.Breaks node position flaw := by
  by_cases hcost : node.cost < previous.cost
  · exact ⟨_, .cost hcost⟩
  by_cases hround : node.round < previous.round
  · exact ⟨_, .round (Int.not_lt.mp hcost) hround⟩
  by_cases hboards : previous.round < node.round → node.BoardsAfter previous
  · exact absurd ⟨Int.not_lt.mp hcost, Nat.not_lt.mp hround, hboards⟩ h
  · obtain ⟨hmore, hnot⟩ := Classical.not_imp.mp hboards
    exact ⟨_, .boards (Int.not_lt.mp hcost) hmore hnot⟩

theorem Breaks.pairFlaw?_eq (h : previous.Breaks node position flaw) :
    pairFlaw? position previous node = some flaw := by
  unfold pairFlaw?
  cases h with
  | cost hless => rw [if_pos hless]
  | round hle hless => rw [if_neg (by omega), if_pos hless]
  | boards hle hmore hnot =>
      have hsame : boardsNewTrip previous node = false := by
        rw [← Bool.not_eq_true, boardsNewTrip_iff_boardsAfter]
        exact hnot
      rw [if_neg (by omega), if_neg (by omega), if_pos (by simp [hmore, hsame])]

theorem pairFlaw?_eq_some_iff :
    pairFlaw? position previous node = some flaw ↔ previous.Breaks node position flaw := by
  refine ⟨fun h => ?_, Breaks.pairFlaw?_eq⟩
  have hnot : ¬ previous.Keeps node := fun hkeeps => by cases hkeeps.pairFlaw?_eq.symm.trans h
  obtain ⟨flaw', hbreaks⟩ := exists_breaks position hnot
  obtain rfl : flaw = flaw' := Option.some.inj (h.symm.trans hbreaks.pairFlaw?_eq)
  exact hbreaks

end Node

/-! ## Along a chain -/

variable {position : Nat} {nodes : List Node} {flaw : ChainFlaw}

theorem checkPairs_eq_ok_iff_keeps :
    checkPairs position nodes = .ok () ↔ nodes.IsChain Node.Keeps := by
  have hrules : Node.Sound = Node.Keeps := by
    funext previous node
    exact propext Node.sound_iff_keeps
  rw [checkPairs_eq_ok_iff, hrules]

/-- The check goes past neighbours that keep the rules. -/
theorem checkPairs_cons_of_keeps {previous node : Node} (h : previous.Keeps node) :
    checkPairs position (previous :: node :: nodes) = checkPairs (position + 1) (node :: nodes) := by
  rw [checkPairs, h.pairFlaw?_eq]

theorem checkPairs_append_of_keeps {front : List Node} {node : Node}
    (h : (front ++ [node]).IsChain Node.Keeps) :
    checkPairs position (front ++ node :: nodes) =
      checkPairs (position + front.length) (node :: nodes) := by
  induction front generalizing position with
  | nil => rfl
  | cons previous front ih =>
      have hnext : position + (front.length + 1) = position + 1 + front.length := by omega
      -- the neighbour of the first node is the next of the front, or the node behind it
      cases front with
      | nil =>
          obtain ⟨hpair, _⟩ := List.isChain_cons_cons.mp h
          exact checkPairs_cons_of_keeps hpair
      | cons next front =>
          obtain ⟨hpair, hrest⟩ := List.isChain_cons_cons.mp h
          rw [List.length_cons, hnext, ← ih hrest]
          exact checkPairs_cons_of_keeps hpair

/-- A flaw is reported exactly if it is that of the first neighbours with a flaw. -/
theorem checkPairs_eq_error_iff :
    checkPairs position nodes = .error flaw ↔
      ∃ front previous node back, nodes = front ++ previous :: node :: back ∧
        (front ++ [previous]).IsChain Node.Keeps ∧
        previous.Breaks node (position + front.length) flaw := by
  constructor
  · intro h
    obtain ⟨front, previous, node, back, hsplit, hsound, hflaw⟩ := checkPairs_eq_error h
    refine ⟨front, previous, node, back, hsplit, ?_, Node.pairFlaw?_eq_some_iff.mp hflaw⟩
    exact hsound.imp fun _ _ => Node.sound_iff_keeps.mp
  · rintro ⟨front, previous, node, back, rfl, hkeeps, hbreaks⟩
    rw [checkPairs_append_of_keeps hkeeps, checkPairs, hbreaks.pairFlaw?_eq]

/-! ## Statement -/

namespace Arena

variable {arena : Arena} {ps : List Posting} {posted : List (Handle × Posting)} {e : Nat}
  {egress : Egress}

/-- Fill an arena by postings and complete a chain. It passes exactly if all its
neighbours keep the rules. A failure is exactly the flaw of the first neighbours that
do not, at their position counted from the access. -/
theorem validate_reports_first (hpost : postAll ps {} = .ok (arena, posted))
    (hegress : arena.getEgress e = .ok egress) :
    ∃ nodes, arena.chain e = .ok nodes.reverse ∧
      (∀ back, arena.LeadsBack (.egress egress) back ↔ back = nodes.reverse) ∧
      (∃ first rest, nodes = first :: rest ∧ first.kind = .access) ∧
      (arena.validate e = .ok () ↔ nodes.IsChain Node.Keeps) ∧
      ∀ failure, arena.validate e = .error failure ↔
        ∃ front previous node back flaw, nodes = front ++ previous :: node :: back ∧
          (front ++ [previous]).IsChain Node.Keeps ∧
          previous.Breaks node (front.length + 1) flaw ∧ failure = .refused flaw := by
  obtain ⟨htracks, _, _⟩ := tracks_empty.postAll hpost
  obtain ⟨back, _, htells⟩ := htracks.tells (node_egress_eq_ok_iff.mpr ⟨egress, hegress, rfl⟩)
  obtain ⟨newer, first, rfl, haccess, _⟩ := htells.access
  have hnodes : newer ++ [first] = (first :: newer.reverse).reverse := by simp
  have hchain : arena.chain e = .ok (first :: newer.reverse).reverse := by
    rw [← hnodes]
    exact htells.walk
  have hvalidate := validate_eq_of_chain hchain haccess
  refine ⟨first :: newer.reverse, hchain, ?_, ⟨first, _, rfl, haccess⟩, ?_, ?_⟩
  · rw [← hnodes]
    exact htells.back
  · rw [hvalidate, Outcome.ofExcept_eq_ok_iff]
    exact checkPairs_eq_ok_iff_keeps
  · intro failure
    have hrefused : arena.validate e = .error failure ↔
        ∃ flaw, checkPairs 1 (first :: newer.reverse) = .error flaw ∧ failure = .refused flaw := by
      rw [hvalidate]
      cases checkPairs 1 (first :: newer.reverse) with
      | ok _ => simp [Outcome.ofExcept]
      | error flaw => simp [Outcome.ofExcept, eq_comm]
    rw [hrefused]
    constructor
    · rintro ⟨flaw, hflaw, rfl⟩
      obtain ⟨front, previous, node, rest, hsplit, hkeeps, hbreaks⟩ :=
        checkPairs_eq_error_iff.mp hflaw
      rw [Nat.add_comm] at hbreaks
      exact ⟨front, previous, node, rest, flaw, hsplit, hkeeps, hbreaks, rfl⟩
    · rintro ⟨front, previous, node, rest, flaw, hsplit, hkeeps, hbreaks, rfl⟩
      rw [Nat.add_comm] at hbreaks
      exact ⟨flaw, checkPairs_eq_error_iff.mpr ⟨front, previous, node, rest, hsplit, hkeeps, hbreaks⟩,
        rfl⟩

/-- A bus is left and boarded again, at a cost below nothing. The walk behind that falls
back by a round, and costs less than nothing, too. -/
def tangled : List Posting :=
  [.access 1 0 60 100,
   .ride 1 2 200 100 50 { tag := 0, value := .bus "5" [(1, 100, 100), (2, 200, 200), (3, 300, 300)] }
     0,
   .ride 2 3 300 200 (-10)
     { tag := 0, value := .bus "5" [(1, 100, 100), (2, 200, 200), (3, 300, 300)] } 1,
   .transfer 1 4 300 330 (-1) 2, .egress 330 360 0 3]

theorem tangled_reports_cost :
    ∃ arena posted nodes failure, postAll tangled {} = .ok (arena, posted) ∧
      arena.chain 0 = .ok nodes.reverse ∧ ¬ nodes.IsChain Node.Keeps ∧
      arena.validate 0 = .error failure ∧ failure = .refused (.costDecreased 2 150 140) ∧
      ∃ front previous node back, nodes = front ++ previous :: node :: back ∧
        (front ++ [previous]).IsChain Node.Keeps ∧ front.length = 1 ∧ node.cost < previous.cost := by
  have hrun : ∃ arena posted egress, postAll tangled {} = .ok (arena, posted) ∧
      arena.getEgress 0 = .ok egress ∧
      arena.validate 0 = .error (.refused (.costDecreased 2 150 140)) :=
    ⟨_, _, _, rfl, rfl, rfl⟩
  obtain ⟨arena, posted, egress, hpost, hegress, hfails⟩ := hrun
  obtain ⟨nodes, hchain, _, _, hpasses, hreports⟩ := validate_reports_first hpost hegress
  obtain ⟨front, previous, node, back, flaw, hsplit, hkeeps, hbreaks, hflaw⟩ :=
    (hreports _).mp hfails
  have hnot : ¬ nodes.IsChain Node.Keeps := by
    rw [← hpasses, hfails]
    nofun
  refine ⟨arena, posted, nodes, _, hpost, hchain, hnot, hfails, rfl, front, previous, node, back,
    hsplit, hkeeps, ?_⟩
  have hkind := Failure.refused.inj hflaw
  cases hbreaks with
  | cost hless =>
      have hposition := (ChainFlaw.costDecreased.inj hkind).1
      exact ⟨by omega, hless⟩
  | round _ _ => cases hkind
  | boards _ _ _ => cases hkind

end Arena

end Journey
