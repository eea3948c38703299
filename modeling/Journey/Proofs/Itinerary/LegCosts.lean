import Journey.Proofs.Itinerary.Soundness
import Mathlib.Algebra.BigOperators.Group.List.Basic

/-!
# What the legs cost together

A leg costs what its node adds to the accumulated cost, rounded to whole seconds, and
the journey costs what is accumulated in the end, rounded once. What the nodes add makes
up the whole (`sum_added`), but the roundings do not:

* **bound**: rounding takes from each leg less than half a second, or gives at most half
  a second, so the two totals of a chain of `n` nodes differ by less than `(n + 1) / 2`
  seconds;
* **exactness**: where each node adds whole seconds, nothing is rounded and the totals
  are the same.

Both are read off the roundings of the legs, which add up in either direction
(`sum_rounded`).
-/

namespace Journey

namespace Assembly

variable {pairs : List (Node × Option Node)} {legs : List Leg} {cost total : Int}

theorem toWhole_rounds (h : Cost.toWhole cost = .ok total) : total = rounded cost :=
  (Cost.toWhole_eq_ok_iff.mp h).2

/-- What is added node by node is what is accumulated in the end. -/
theorem sum_added (nodes : List Node) :
    ((withPrevious nodes).map added).sum = chainCost nodes := by
  induction nodes with
  | nil => rfl
  | cons node rest ih =>
      rw [withPrevious, List.map_cons, List.sum_cons, ih]
      show node.cost - chainCost rest + chainCost rest = node.cost
      omega

theorem length_withPrevious (nodes : List Node) : (withPrevious nodes).length = nodes.length := by
  induction nodes with
  | nil => rfl
  | cons node rest ih => rw [withPrevious, List.length_cons, List.length_cons, ih]

/-- The direction of a search only decides which end is travelled first. -/
theorem travelled_perm (d : Direction) (nodes : List Node) :
    (travelled d nodes).Perm (withPrevious nodes) := by
  cases d with
  | forward => exact List.reverse_perm _
  | reverse => exact .refl _

/-- A rounding gives half a second at most, and takes less than that. -/
theorem rounded_bounds (cost : Int) :
    Cost.scale * rounded cost ≤ cost + 50 ∧ cost ≤ Cost.scale * rounded cost + 49 := by
  unfold rounded Cost.scale
  omega

theorem rounded_of_dvd (h : Cost.scale ∣ cost) : Cost.scale * rounded cost = cost := by
  unfold rounded Cost.scale at *
  omega

/-- Along the legs the roundings add up. -/
theorem sum_rounded (h : List.Forall₂ (fun pair (leg : Leg) => leg.cost = rounded (added pair))
    pairs legs) :
    Cost.scale * (legs.map Leg.cost).sum ≤ (pairs.map added).sum + 50 * legs.length ∧
      (pairs.map added).sum ≤ Cost.scale * (legs.map Leg.cost).sum + 49 * legs.length := by
  induction h with
  | nil => exact ⟨by simp, by simp⟩
  | @cons pair leg pairs legs hleg _ ih =>
      have hbounds := rounded_bounds (added pair)
      simp only [List.map_cons, List.sum_cons, List.length_cons, hleg, Nat.cast_succ]
      unfold Cost.scale at *
      omega

/-- Where nothing is rounded, nothing adds up. -/
theorem sum_of_dvd (h : List.Forall₂ (fun pair (leg : Leg) => leg.cost = rounded (added pair))
    pairs legs) (hdvd : ∀ pair ∈ pairs, Cost.scale ∣ added pair) :
    Cost.scale * (legs.map Leg.cost).sum = (pairs.map added).sum := by
  induction h with
  | nil => rfl
  | @cons pair leg pairs legs hleg _ ih =>
      obtain ⟨hfirst, hrest⟩ := List.forall_mem_cons.mp hdvd
      have hexact := rounded_of_dvd hfirst
      rw [List.map_cons, List.sum_cons, List.map_cons, List.sum_cons, ← ih hrest, hleg, Int.mul_add,
        hexact]

end Assembly

open Assembly

/-- In either direction, whatever the nodes cost: the legs of an itinerary together cost
as much as the itinerary, up to half a second for each node and for the whole, and
exactly as much if each node adds whole seconds. -/
theorem Arena.assemble_legs_cost {arena : Arena} {d : Direction} {egress : Nat} {i : Itinerary}
    (h : arena.assemble d egress = .ok i) :
    ∃ nodes, arena.chain egress = .ok nodes ∧ i.legs.length = nodes.length ∧
      2 * ((i.legs.map Leg.cost).sum - i.cost).natAbs < nodes.length + 1 ∧
      ((∀ pair ∈ withPrevious nodes, Cost.scale ∣ added pair) →
        (i.legs.map Leg.cost).sum = i.cost) := by
  obtain ⟨nodes, hchain, hassembled⟩ := arena.assembled_of_assemble h
  have hcosts : List.Forall₂ (fun pair (leg : Leg) => leg.cost = rounded (added pair))
      (travelled d nodes) i.legs :=
    hassembled.drawn.imp fun _ _ hleg => ((legCost_exactly _ _).eq_ok_iff.mp hleg.depicts.cost).2
  have hlength : i.legs.length = nodes.length := by
    rw [← hcosts.length_eq, (travelled_perm d nodes).length_eq, length_withPrevious]
  have hsum : ((travelled d nodes).map added).sum = chainCost nodes := by
    rw [((travelled_perm d nodes).map added).sum_eq, sum_added]
  have htwo := hassembled.wellFormed.two
  have htotal := toWhole_rounds hassembled.total
  refine ⟨nodes, hchain, hlength, ?_, ?_⟩
  · have hlegs := sum_rounded hcosts
    have hwhole := rounded_bounds (chainCost nodes)
    rw [hsum, hlength] at hlegs
    rw [← htotal] at hwhole
    unfold Cost.scale at hlegs hwhole
    omega
  · intro hdvd
    have hlegs := sum_of_dvd hcosts fun pair hpair =>
      hdvd pair ((travelled_perm d nodes).mem_iff.mp hpair)
    rw [hsum] at hlegs
    rw [htotal, ← hlegs]
    unfold rounded Cost.scale
    omega

/-- A walk, a ride and a walk, each for half a second of cost. -/
def halfSeconds : Course where
  firstStop := 1
  access := { fromTime := -60, toTime := 0, cost := 50 }
  stages :=
    [{ toStop := 2, fromTime := 0, toTime := 300, cost := 50
       means := .aboard { tag := 0, value := .bus "5" [(1, 0, 0), (2, 300, 300)] }
       forwardRound := 1, reverseRound := 1 }]
  egress := { fromTime := 300, toTime := 360, cost := 50 }

/-- Each leg is charged a whole second, and all of them together two. -/
theorem halfSeconds_legs_cost :
    ∃ arena egress i nodes, halfSeconds.recordForward {} = .ok (arena, egress) ∧
      arena.assemble .forward egress = .ok i ∧ (i.legs.map Leg.cost).sum = 3 ∧ i.cost = 2 ∧
      arena.chain egress = .ok nodes ∧ 2 * (3 - (2 : Int)).natAbs < nodes.length + 1 := by
  have hforward : ∃ arena e i, halfSeconds.recordForward {} = .ok (arena, e) ∧
      arena.assemble .forward e = .ok i ∧ (i.legs.map Leg.cost).sum = 3 ∧ i.cost = 2 :=
    ⟨_, _, _, rfl, rfl, rfl, rfl⟩
  obtain ⟨arena, e, i, hrecord, hassemble, hsum, hcost⟩ := hforward
  obtain ⟨nodes, hchain, _, hbound, _⟩ := Arena.assemble_legs_cost hassemble
  rw [hsum, hcost] at hbound
  exact ⟨arena, e, i, nodes, hrecord, hassemble, hsum, hcost, hchain, hbound⟩

end Journey
