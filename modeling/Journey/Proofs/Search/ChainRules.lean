import Journey.Proofs.Search.Trail
import Journey.Search.ChainRules
import Mathlib.Data.List.Chain

/-!
# The rules on chains of the extender

Along a chain that the extender builds, cost and round never decrease, and the
round increases on rides only. The remaining rule, that the trip boarded is not
the one just ridden, is not the extender's: it counts every boarding. So a
chain breaks a rule exactly where the trip that was just left is boarded again
(`Resumes`), and breaks no other (`Node.Grows.sound_iff`).
-/

namespace Journey

/-- Neighbours of a chain that break no rule. -/
structure Node.Sound (previous node : Node) : Prop where
  cost : previous.cost ≤ node.cost
  round : previous.round ≤ node.round
  boards : previous.round < node.round → boardsNewTrip previous node = true

/-- Cost and round of neighbours do not decrease, and each ride is counted. -/
structure Node.Grows (previous node : Node) : Prop where
  cost : previous.cost ≤ node.cost
  round : previous.round ≤ node.round
  rides : previous.round < node.round ↔ node.trip?.isSome = true

/-- The trip just ridden is boarded again at once. -/
def Resumes (last next : Option (Shared TimedTrip)) : Prop :=
  ∃ t t', last = some t ∧ next = some t' ∧ t.same t' = true

theorem not_resumes_none (next : Option (Shared TimedTrip)) : ¬ Resumes none next :=
  fun ⟨_, _, hnone, _⟩ => nomatch hnone

theorem boardsNewTrip_iff {previous node : Node} :
    boardsNewTrip previous node = true ↔
      node.trip?.isSome = true ∧ ¬ Resumes previous.trip? node.trip? := by
  unfold boardsNewTrip Resumes
  cases node.trip? with
  | none => simp
  | some trip =>
      cases previous.trip? with
      | none => simp
      | some last => simp

theorem pairFlaw?_eq_none_iff {position : Nat} {previous node : Node} :
    pairFlaw? position previous node = none ↔ previous.Sound node := by
  unfold pairFlaw?
  constructor
  · intro h
    by_cases hcost : node.cost < previous.cost
    · rw [if_pos hcost] at h
      cases h
    · rw [if_neg hcost] at h
      by_cases hround : node.round < previous.round
      · rw [if_pos hround] at h
        cases h
      · rw [if_neg hround] at h
        refine ⟨by omega, by omega, fun hmore => ?_⟩
        by_cases hboards : boardsNewTrip previous node
        · exact hboards
        · rw [if_pos (by simp [hmore, hboards])] at h
          cases h
  · intro h
    have hcost := h.cost
    have hround := h.round
    rw [if_neg (by omega), if_neg (by omega), if_neg]
    intro hflaw
    rw [Bool.and_eq_true, decide_eq_true_eq] at hflaw
    rw [h.boards hflaw.1] at hflaw
    exact absurd hflaw.2 (by decide)

/-- A chain passes exactly when all neighbours do. -/
theorem checkPairs_eq_ok_iff {position : Nat} {nodes : List Node} :
    checkPairs position nodes = .ok () ↔ nodes.IsChain Node.Sound := by
  induction nodes generalizing position with
  | nil => exact ⟨fun _ => .nil, fun _ => rfl⟩
  | cons previous rest ih =>
      cases rest with
      | nil => exact ⟨fun _ => .singleton previous, fun _ => rfl⟩
      | cons node rest =>
          have hpair : pairFlaw? position previous node = none ↔ previous.Sound node :=
            pairFlaw?_eq_none_iff
          rw [List.isChain_cons_cons, ← hpair, ← ih, checkPairs]
          cases pairFlaw? position previous node with
          | none =>
              constructor
              · exact fun h => ⟨rfl, h⟩
              · exact fun h => h.2
          | some flaw =>
              constructor
              · exact fun h => nomatch h
              · exact fun h => nomatch h.1

/-- What is reported is the flaw of the first neighbours that break a rule. -/
theorem checkPairs_eq_error {position : Nat} {nodes : List Node} {flaw : ChainFlaw}
    (h : checkPairs position nodes = .error flaw) :
    ∃ front previous node back, nodes = front ++ previous :: node :: back ∧
      (front ++ [previous]).IsChain Node.Sound ∧
      pairFlaw? (position + front.length) previous node = some flaw := by
  induction nodes generalizing position with
  | nil => cases h
  | cons previous rest ih =>
      cases rest with
      | nil => cases h
      | cons node rest =>
          rw [checkPairs] at h
          cases hpair : pairFlaw? position previous node with
          | some flaw' =>
              rw [hpair] at h
              cases h
              exact ⟨[], previous, node, rest, rfl, .singleton previous, hpair⟩
          | none =>
              rw [hpair] at h
              obtain ⟨front, previous', node', back, hsplit, hchain, hflaw⟩ := ih h
              refine ⟨previous :: front, previous', node', back, ?_, ?_, ?_⟩
              · rw [hsplit]
                rfl
              · have hsound := pairFlaw?_eq_none_iff.mp hpair
                cases front with
                | nil =>
                    cases hsplit
                    exact .cons_cons hsound hchain
                | cons m front =>
                    cases hsplit
                    exact .cons_cons hsound hchain
              · rw [List.length_cons, ← hflaw]
                congr 1
                omega

/-- A chain that starts with an access is checked pair by pair, from the access on. -/
theorem Arena.validate_eq_of_chain {arena : Arena} {e : Nat} {first : Node} {rest : List Node}
    (hchain : arena.chain e = .ok (first :: rest).reverse) (hfirst : first.kind = .access) :
    arena.validate e = Outcome.ofExcept (checkPairs 1 (first :: rest)) := by
  unfold Arena.validate
  rw [hchain]
  show Outcome.ofExcept (checkChain (first :: rest).reverse.reverse) = _
  rw [List.reverse_reverse]
  exact congrArg Outcome.ofExcept (if_pos hfirst)

/-! ## Where every ride is counted -/

/-- Of neighbours that grow, the rules leave only the one about trips. -/
theorem Node.Grows.sound_iff {previous node : Node} (h : previous.Grows node) :
    previous.Sound node ↔ ¬ Resumes previous.trip? node.trip? := by
  constructor
  · intro hsound hresumes
    have hride : node.trip?.isSome = true := by
      obtain ⟨_, _, _, hnext, _⟩ := hresumes
      rw [hnext]
      rfl
    have hboards := hsound.boards (h.rides.mpr hride)
    exact (boardsNewTrip_iff.mp hboards).2 hresumes
  · intro hfresh
    refine ⟨h.cost, h.round, fun hmore => ?_⟩
    exact boardsNewTrip_iff.mpr ⟨h.rides.mp hmore, hfresh⟩

theorem Node.Grows.flaw_eq {previous node : Node} {position : Nat} {flaw : ChainFlaw}
    (h : previous.Grows node) (hflaw : pairFlaw? position previous node = some flaw) :
    flaw = .unexpectedRoundIncrease position ∧ Resumes previous.trip? node.trip? := by
  have hresumes : Resumes previous.trip? node.trip? := by
    by_contra hfresh
    rw [pairFlaw?_eq_none_iff.mpr (h.sound_iff.mpr hfresh)] at hflaw
    cases hflaw
  refine ⟨?_, hresumes⟩
  have hcost := h.cost
  have hround := h.round
  unfold pairFlaw? at hflaw
  rw [if_neg (by omega), if_neg (by omega)] at hflaw
  split at hflaw
  · exact (Option.some.inj hflaw).symm
  · cases hflaw

/-- A chain that grows passes exactly when no trip is resumed. -/
theorem isChain_sound_iff {nodes : List Node} (h : nodes.IsChain Node.Grows) :
    nodes.IsChain Node.Sound ↔
      (nodes.map Node.trip?).IsChain fun last next => ¬ Resumes last next := by
  rw [List.isChain_map]
  rw [List.isChain_iff_getElem] at h ⊢
  rw [List.isChain_iff_getElem]
  constructor
  · intro hsound i hi
    exact (h i hi).sound_iff.mp (hsound i hi)
  · intro hfresh i hi
    exact (h i hi).sound_iff.mpr (hfresh i hi)

/-- What is reported of a chain that grows is the first trip that is resumed. -/
theorem checkPairs_eq_error_of_grows {position : Nat} {nodes : List Node} {flaw : ChainFlaw}
    (hgrows : nodes.IsChain Node.Grows) (h : checkPairs position nodes = .error flaw) :
    ∃ front last next back, nodes.map Node.trip? = front ++ last :: next :: back ∧
      Resumes last next ∧ flaw = .unexpectedRoundIncrease (position + front.length) := by
  obtain ⟨front, previous, node, back, rfl, _, hflaw⟩ := checkPairs_eq_error h
  have hpair : previous.Grows node := (List.isChain_cons_cons.mp hgrows.right_of_append).1
  obtain ⟨rfl, hresumes⟩ := hpair.flaw_eq hflaw
  refine ⟨front.map Node.trip?, _, _, back.map Node.trip?, ?_, hresumes, ?_⟩
  · rw [List.map_append, List.map_cons, List.map_cons]
  · rw [List.length_map]

/-! ## Chains of the extender -/

namespace Extender

variable {x : Extender} {out : Int} {before : Arrival} {steps : List Plan.Step}
  {nodes : List Node}

theorem Adds.trip? {after : Arrival} {s : Plan.Step} (h : x.Adds before s after) :
    after.trip? = s.trip? := by
  cases s with
  | walk w =>
      have hhow := WalksTo.how h
      simp only [Arrival.trip?, hhow, Plan.Step.trip?]
  | ride trip board alight =>
      obtain ⟨_, hride⟩ := h
      simp only [Arrival.trip?, hride.how, Plan.Step.trip?]

/-- The wait that a ride is charged for has room for both slacks. -/
theorem RidesTo.slack_le_wait {after : Arrival} {trip : Shared TimedTrip} {board alight : Nat}
    {boardTime : Int} (h : x.RidesTo before trip board alight boardTime after) :
    x.slack.board trip.value.pattern + x.slack.alight trip.value.pattern ≤
      boardTime - x.free before + x.slack.alight trip.value.pattern := by
  -- the traveller waits from when they are free, and the alight slack on top
  have hfree := x.free_add_board_le_boardable before trip.value.pattern
  have hboard := h.onTime
  omega

theorem RidesTo.boardTime_le {after : Arrival} {trip : Shared TimedTrip} {board alight : Nat}
    {boardTime : Int} (h : x.RidesTo before trip board alight boardTime after)
    (hs : (Plan.Step.ride trip board alight).Timely) : boardTime ≤ after.time :=
  hs boardTime after.time h.forward h.arrives.lt_length h.departs.2 h.arrives.2

theorem Adds.cost_le {after : Arrival} {s : Plan.Step} (h : x.Adds before s after)
    (hslack : x.slack.Nonnegative) (hcost : x.cost.Nonnegative) (hs : s.Timely) :
    before.cost ≤ after.cost := by
  cases s with
  | walk w =>
      obtain ⟨charge, hcharge, hafter⟩ := WalksTo.cost h
      have hpos := hcost.walk hs hcharge
      omega
  | ride trip board alight =>
      obtain ⟨boardTime, hride⟩ := h
      obtain ⟨charge, hcharge, hafter⟩ := hride.cost
      have hwait := hride.slack_le_wait
      have hboard := hslack.1 trip.value.pattern
      have halight := hslack.2.1 trip.value.pattern
      have haboard := hride.boardTime_le hs
      have hpos := hcost.ride (by omega) (by omega) hcharge
      omega

theorem Adds.grows {after : Arrival} {s : Plan.Step} (h : x.Adds before s after)
    (hslack : x.slack.Nonnegative) (hcost : x.cost.Nonnegative) (hs : s.Timely) :
    (Node.arrival before).Grows (.arrival after) := by
  have hround := h.round
  refine ⟨h.cost_le hslack hcost hs, ?_, ?_⟩
  · show before.round ≤ after.round
    omega
  · show before.round < after.round ↔ after.trip?.isSome = true
    rw [h.trip?, hround]
    show before.round < before.round + (if s.isRide = true then 1 else 0) ↔ s.isRide = true
    by_cases hride : s.isRide = true
    · rw [if_pos hride]
      exact ⟨fun _ => hride, fun _ => Nat.lt_succ_self _⟩
    · rw [if_neg hride]
      exact ⟨fun hmore => absurd hmore (Nat.lt_irrefl _), fun hride' => absurd hride' hride⟩

theorem Completes.grows {e : Egress} (h : x.Completes before out e)
    (hcost : x.cost.Nonnegative) (hout : 0 ≤ out) : (Node.arrival before).Grows (.egress e) := by
  obtain ⟨charge, hcharge, he⟩ := h.cost
  have hpos := hcost.walk hout hcharge
  have hround := h.round
  refine ⟨?_, ?_, ?_⟩
  · show before.cost ≤ e.cost
    omega
  · show before.round ≤ e.round
    omega
  · show before.round < e.round ↔ false = true
    rw [hround]
    exact ⟨fun hmore => absurd hmore (Nat.lt_irrefl _), fun hride => nomatch hride⟩

/-- What holds of each leg of a chain, and of the egress, holds all along it. -/
theorem Onward.isChain {R : Node → Node → Prop} (h : x.Onward out before steps nodes)
    (hadds : ∀ s ∈ steps, ∀ before after, x.Adds before s after →
      R (.arrival before) (.arrival after))
    (hcompletes : ∀ before e, x.Completes before out e → R (.arrival before) (.egress e)) :
    (Node.arrival before :: nodes).IsChain R := by
  induction h with
  | here => exact .singleton _
  | egress hlast => exact .cons_cons (hcompletes _ _ hlast) (.singleton _)
  | step hfirst _ ih =>
      refine .cons_cons (hadds _ List.mem_cons_self _ _ hfirst) ?_
      exact ih fun s hs => hadds s (List.mem_cons_of_mem _ hs)

/-- Along a chain of the extender, cost and round do not decrease, and each
ride is counted. -/
theorem Onward.isChain_grows (h : x.Onward out before steps nodes)
    (hslack : x.slack.Nonnegative) (hcost : x.cost.Nonnegative)
    (hsteps : ∀ s ∈ steps, s.Admissible) (hout : 0 ≤ out) :
    (Node.arrival before :: nodes).IsChain Node.Grows :=
  h.isChain (fun s hs _ _ hadds => hadds.grows hslack hcost (hsteps s hs).timely)
    fun _ _ hcompletes => hcompletes.grows hcost hout

/-- The trips of a complete chain are those of its steps. -/
theorem Onward.map_trip? {last : Egress}
    (h : x.Onward out before steps (nodes ++ [.egress last])) :
    (nodes ++ [Node.egress last]).map Node.trip? = steps.map Plan.Step.trip? ++ [none] := by
  generalize hnodes : nodes ++ [Node.egress last] = all at h ⊢
  induction h generalizing nodes with
  | here => exact absurd hnodes (by simp)
  | egress _ => rfl
  | @step before after s steps rest hadds _ ih =>
      cases nodes with
      | nil => cases hnodes
      | cons n nodes =>
          cases hnodes
          rw [List.map_cons, ih rfl, List.map_cons]
          show after.trip? :: _ = _
          rw [hadds.trip?]
          rfl

theorem isChain_fresh_iff {trips : List (Option (Shared TimedTrip))} :
    (none :: (trips ++ [none])).IsChain (fun last next => ¬ Resumes last next) ↔
      trips.IsChain fun last next => ¬ Resumes last next := by
  have hstart : ∀ next, ¬ Resumes none next := not_resumes_none
  have hend : ∀ last, ¬ Resumes last none := fun _ ⟨_, _, _, hnone, _⟩ => nomatch hnone
  rw [List.isChain_cons, List.isChain_append]
  constructor
  · exact fun h => h.2.1
  · intro h
    refine ⟨fun _ _ => hstart _, h, .singleton _, fun last _ next hnext => ?_⟩
    cases hnext
    exact hend last

/-- A trip is resumed neither from the access nor on the egress. -/
theorem resumes_inside {trips front back : List (Option (Shared TimedTrip))}
    {last next : Option (Shared TimedTrip)}
    (h : none :: (trips ++ [none]) = front ++ last :: next :: back)
    (hresumes : Resumes last next) :
    ∃ front' back', trips = front' ++ last :: next :: back' ∧
      front.length = front'.length + 1 := by
  obtain ⟨t, t', rfl, rfl, _⟩ := hresumes
  cases front with
  | nil => cases h
  | cons _ front =>
      have htail : trips ++ [none] = front ++ some t :: some t' :: back :=
        (List.cons.inj h).2
      -- were there nothing behind, the trip boarded again would be the egress
      rcases List.eq_nil_or_concat back with rfl | ⟨back', b, rfl⟩
      · have hend : trips ++ [none] = (front ++ [some t]) ++ [some t'] := by
          rw [htail]
          simp
        cases (List.append_inj' hend rfl).2
      · have hend : trips ++ [none] = (front ++ some t :: some t' :: back') ++ [b] := by
          rw [htail]
          simp
        exact ⟨front, back', (List.append_inj' hend rfl).1, rfl⟩

/-- On a chain built with slack and costs that are not negative, cost and round
never decrease and the round increases exactly at the rides. The rules of a
chain hold exactly when no ride resumes the trip that was just left, and are
reported broken where the first one does. -/
theorem validate_of_carries {p : Plan} {arena : Arena} {e : Nat}
    (hslack : x.slack.Nonnegative) (hcost : x.cost.Nonnegative) (hp : p.Admissible)
    (hcarries : x.Carries p arena e) :
    (∃ nodes : List Node, arena.chain e = .ok nodes.reverse ∧ nodes.IsChain Node.Grows) ∧
      (arena.validate e = .ok () ↔
        (p.steps.map Plan.Step.trip?).IsChain fun last next => ¬ Resumes last next) ∧
      ∀ failure, arena.validate e = .error failure →
        ∃ front last next back, p.steps.map Plan.Step.trip? = front ++ last :: next :: back ∧
          Resumes last next ∧
          failure = .refused (.unexpectedRoundIncrease (front.length + 2)) := by
  obtain ⟨first, nodes, last, hstart, honward, _, hchain⟩ := hcarries.chain
  have hgrows := honward.isChain_grows hslack hcost hp.steps hp.egress
  have htrips : (Node.arrival first :: (nodes ++ [.egress last])).map Node.trip? =
      none :: (p.steps.map Plan.Step.trip? ++ [none]) := by
    have hfirst : (Node.arrival first).trip? = none := by
      simp only [Node.trip?, Arrival.trip?, hstart.how]
    rw [List.map_cons, honward.map_trip?, hfirst]
  have hvalidate : arena.validate e = Outcome.ofExcept
      (checkPairs 1 (.arrival first :: (nodes ++ [.egress last]))) := by
    have hkind : (Node.arrival first).kind = .access := by
      simp only [Node.kind, Arrival.kind, hstart.how]
    unfold Arena.validate
    rw [hchain]
    show Outcome.ofExcept (checkChain
      (Node.arrival first :: (nodes ++ [.egress last])).reverse.reverse) = _
    rw [List.reverse_reverse]
    exact congrArg Outcome.ofExcept (if_pos hkind)
  refine ⟨⟨_, hchain, hgrows⟩, ?_, ?_⟩
  · -- the access and the egress have no trip, so only the steps are left
    rw [hvalidate, Outcome.ofExcept_eq_ok_iff, checkPairs_eq_ok_iff, isChain_sound_iff hgrows,
      htrips, isChain_fresh_iff]
  · intro failure hfailure
    rw [hvalidate] at hfailure
    cases hcheck : checkPairs 1 (.arrival first :: (nodes ++ [.egress last])) with
    | ok _ =>
        rw [hcheck] at hfailure
        cases hfailure
    | error flaw =>
        rw [hcheck] at hfailure
        cases hfailure
        obtain ⟨front, t, t', back, hsplit, hresumes, rfl⟩ :=
          checkPairs_eq_error_of_grows hgrows hcheck
        rw [htrips] at hsplit
        obtain ⟨front', back', hsplit', hlength⟩ := resumes_inside hsplit hresumes
        refine ⟨front', t, t', back', hsplit', hresumes, ?_⟩
        rw [hlength, Nat.add_comm]

theorem acrossTown_validates :
    ∃ arena e, acrossTown.run unhurried {} = .ok (arena, e) ∧ arena.validate e = .ok () := by
  have hrun : ∃ arena e, acrossTown.run unhurried {} = .ok (arena, e) := ⟨_, _, rfl⟩
  obtain ⟨arena, e, hrun⟩ := hrun
  have hfresh : (acrossTown.steps.map Plan.Step.trip?).IsChain fun last next =>
      ¬ Resumes last next := by
    refine .cons_cons ?_ (.cons_cons (not_resumes_none _) (.singleton _))
    exact fun ⟨_, _, _, hnone, _⟩ => nomatch hnone
  obtain ⟨_, hiff, _⟩ := validate_of_carries unhurried_slack_nonnegative
    CostModel.perSecond_nonnegative acrossTown_admissible (carries_of_run hrun)
  exact ⟨arena, e, hrun, hiff.mpr hfresh⟩

/-- The bus is left where it waits, and boarded again. -/
def longDwell : Plan where
  departure := 0
  access := { stop := 1, duration := 60 }
  steps := [.ride { tag := 0, value := .bus "7" [(1, 100, 100), (2, 200, 300), (3, 400, 400)] } 0 1,
    .ride { tag := 0, value := .bus "7" [(1, 100, 100), (2, 200, 300), (3, 400, 400)] } 1 2]
  egress := 60

theorem longDwell_admissible : longDwell.Admissible := by
  refine ⟨by decide, ?_, by decide⟩
  intro s hs
  simp only [longDwell, List.mem_cons, List.not_mem_nil, or_false] at hs
  rcases hs with rfl | rfl
  · exact ⟨rfl, rfl⟩
  · exact ⟨rfl, rfl⟩

/-- Not every chain that the extender builds keeps the rules of a chain. -/
theorem longDwell_breaks_rule :
    unhurried.slack.Nonnegative ∧ unhurried.cost.Nonnegative ∧ longDwell.Admissible ∧
      ∃ arena e, longDwell.run unhurried {} = .ok (arena, e) ∧
        arena.validate e = .error (.refused (.unexpectedRoundIncrease 2)) :=
  ⟨unhurried_slack_nonnegative, CostModel.perSecond_nonnegative, longDwell_admissible, _, _, rfl,
    rfl⟩

end Extender

end Journey
