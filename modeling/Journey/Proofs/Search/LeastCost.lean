import Journey.Proofs.Cost.Charges
import Journey.Proofs.Search.Conservation

/-!
# The least that a journey costs

`CostModel.least` bounds what a journey costs by the time it takes, door to door,
and by its transfers. A search may drop what it has found by such a bound, so it
must not be above the cost of any journey.

* **one leg**: a leg is charged with its seconds and with its boarding, or with
  all that a cost can be (`CostRates.le_answer`). This needs weights of no less
  than one, since the bound counts each second once;
* **a chain**: the seconds of the legs come to the time that the journey takes
  (`Onward.seconds_eq`), and their boardings to one for each ride and a transfer
  for each but the first (`Onward.boarding_sum`);
* **statement**: with such weights `least_le_cost` holds for every journey. With
  lighter ones, which settings may have, it does not: `idler_below_least`.
-/

namespace Journey

/-! ## One leg -/

namespace Enquiry

/-- Seconds charged for the boarding, on top of those that the leg takes. -/
def boarding (s : CostSettings) : Enquiry → ℤ
  | walk _ => 0
  | ride first _ _ _ _ => s.boardCost + if first then 0 else s.transferCost

/-- No part of the leg takes less than no time. -/
def Forward : Enquiry → Prop
  | walk duration => 0 ≤ duration
  | ride _ _ wait aboard _ => 0 ≤ wait ∧ 0 ≤ aboard

theorem Forward.seconds_nonneg {q : Enquiry} (h : q.Forward) : 0 ≤ q.seconds := by
  cases q with
  | walk duration => exact h
  | ride first boardStop wait aboard alightStop => exact Int.add_nonneg h.1 h.2

theorem seconds_sum_nonneg {enquiries : List Enquiry} (h : ∀ q ∈ enquiries, q.Forward) :
    0 ≤ (enquiries.map seconds).sum := by
  refine List.sum_nonneg fun total hmem => ?_
  obtain ⟨q, hq, rfl⟩ := List.mem_map.mp hmem
  exact (h q hq).seconds_nonneg

theorem boarding_nonneg {s : Settings} (h : s.Valid) (q : Enquiry) : 0 ≤ q.boarding s.cost := by
  cases q with
  | walk duration => exact le_rfl
  | ride first boardStop wait aboard alightStop =>
      have hboard := h.boardCost
      have htransfer := h.transferCost
      unfold boarding
      split <;> omega

theorem boarding_sum_nonneg {s : Settings} (h : s.Valid) (enquiries : List Enquiry) :
    0 ≤ (enquiries.map (boarding s.cost)).sum := by
  refine List.sum_nonneg fun total hmem => ?_
  obtain ⟨q, _, rfl⟩ := List.mem_map.mp hmem
  exact boarding_nonneg h q

end Enquiry

section charges

variable {s : Settings} {stopCosts : Option (List ℤ)} (h : s.Valid)
  (hwalk : 1 ≤ s.cost.transferReluctance) (hwait : 1 ≤ s.cost.waitReluctance)
  (hstops : ∀ costs ∈ stopCosts, ∀ c ∈ costs, 0 ≤ c)

include h hwalk hwait hstops

namespace CostRates

theorem le_answer {q : Enquiry} {charge : ℤ} (hq : q.Forward)
    (hanswer : (ofSettings s.cost stopCosts).model.answer q = .ok charge) :
    min (100 * (q.boarding s.cost + q.seconds)) maxInt ≤ charge := by
  cases q with
  | walk duration =>
      cases hanswer
      have hcharge : _ ≤ (ofSettings s.cost stopCosts).walkCost duration := le_walkCost h hwalk hq
      show min (100 * (0 + duration)) maxInt ≤ _
      rwa [zero_add]
  | ride first boardStop wait aboard alightStop =>
      have hcharge := le_rideCost h hwait hstops hq.1 hq.2 hanswer
      show min (100 * (_ + (wait + aboard))) maxInt ≤ charge
      rwa [← add_assoc]

/-- A sum is as far as its parts, up to the end of the range. -/
theorem le_answers {enquiries : List Enquiry} {charges : List ℤ}
    (hforward : ∀ q ∈ enquiries, q.Forward)
    (hanswers : List.Forall₂
      (fun q charge => (ofSettings s.cost stopCosts).model.answer q = .ok charge)
      enquiries charges) :
    min (100 * ((enquiries.map (Enquiry.boarding s.cost)).sum +
      (enquiries.map Enquiry.seconds).sum)) maxInt ≤ charges.sum := by
  induction hanswers with
  | nil => exact (by decide : min (100 * (0 + 0)) maxInt ≤ 0)
  | @cons q charge qs charges hanswer hrest ih =>
      have hhead := le_answer h hwalk hwait hstops (hforward q List.mem_cons_self) hanswer
      have hforward' : ∀ q ∈ qs, q.Forward := fun q hq => hforward q (List.mem_cons_of_mem _ hq)
      have htail := ih hforward'
      have hseconds := (hforward q List.mem_cons_self).seconds_nonneg
      have hboarding := Enquiry.boarding_nonneg h q
      have hseconds' := Enquiry.seconds_sum_nonneg hforward'
      have hboarding' := Enquiry.boarding_sum_nonneg h qs
      rw [List.map_cons, List.sum_cons, List.map_cons, List.sum_cons, List.sum_cons]
      unfold maxInt at hhead htail ⊢
      omega

end CostRates

end charges

namespace Extender

/-! ## Along a chain -/

variable {x : Extender} {out : ℤ} {before after : Arrival} {steps : List Plan.Step}
  {nodes : List Node} {last : Egress}

theorem Adds.forward {step : Plan.Step} (h : x.Adds before step after)
    (hslack : x.slack.Nonnegative) (hstep : step.Admissible) :
    (x.enquiry before after).Forward := by
  cases step with
  | walk w =>
      have hwalk : x.WalksTo before w after := h
      rw [hwalk.enquiry_eq]
      exact hstep
  | ride trip board alight =>
      obtain ⟨boardTime, hride⟩ := h
      have hregular : trip.value.Regular := hstep
      have hfree := free_le_boardable hslack before trip.value.pattern
      have honTime := hride.onTime
      have halight := hslack.2.1 trip.value.pattern
      have htimes := hregular.departure_le_arrival hride.forward hride.arrives.lt_length
        hride.departs.2 hride.arrives.2
      rw [hride.enquiry_eq]
      exact ⟨by omega, by omega⟩

theorem Onward.forward (h : x.Onward out before steps nodes) (hslack : x.slack.Nonnegative)
    (hsteps : ∀ s ∈ steps, s.Admissible) (hout : 0 ≤ out) :
    ∀ q ∈ x.enquiries before nodes, q.Forward := by
  induction h with
  | here => exact fun _ hq => absurd hq List.not_mem_nil
  | egress hcompletes =>
      intro q hq
      rw [enquiries, hcompletes.enquiry_eq] at hq
      rw [List.mem_singleton.mp hq]
      exact hout
  | step hadds _ ih =>
      intro q hq
      rcases List.mem_cons.mp hq with rfl | hq
      · exact hadds.forward hslack (hsteps _ List.mem_cons_self)
      · exact ih (fun s hs => hsteps s (List.mem_cons_of_mem _ hs)) q hq

/-- No transfer is charged for a boarding right after the access. -/
def spared (s : CostSettings) (before : Arrival) : ℤ :=
  if before.kind = .access then s.transferCost else 0

theorem Adds.kind_ne {step : Plan.Step} (h : x.Adds before step after) : after.kind ≠ .access := by
  cases step with
  | walk w =>
      have hwalk : x.WalksTo before w after := h
      simp only [Arrival.kind, hwalk.how, ne_eq, reduceCtorEq, not_false_eq_true]
  | ride trip board alight =>
      obtain ⟨_, hride⟩ := h
      simp only [Arrival.kind, hride.how, ne_eq, reduceCtorEq, not_false_eq_true]

theorem Onward.boarding_sum (h : x.Onward out before steps nodes) (s : CostSettings)
    (hlast : nodes.getLast? = some (.egress last)) (htransfer : 0 ≤ s.transferCost) :
    Plan.rides steps * (s.boardCost + s.transferCost) ≤
      ((x.enquiries before nodes).map (Enquiry.boarding s)).sum + spared s before := by
  induction h with
  | here => cases hlast
  | @egress before e hcompletes =>
      show 0 * _ ≤ 0 + 0 + spared s before
      unfold spared
      split <;> omega
  | @step before after step steps nodes hadds _ ih =>
      have hrest := ih (getLast?_of_cons_arrival hlast)
      have hspared : spared s after = 0 := if_neg hadds.kind_ne
      rw [enquiries, List.map_cons, List.sum_cons]
      cases step with
      | walk w =>
          have hwalk : x.WalksTo before w after := hadds
          rw [hwalk.enquiry_eq, Plan.rides_walk]
          have hnonneg : 0 ≤ spared s before := by
            unfold spared
            split <;> omega
          show _ ≤ 0 + _ + _
          omega
      | ride trip board alight =>
          obtain ⟨boardTime, hride⟩ := hadds
          rw [hride.enquiry_eq, Plan.rides_ride]
          -- a boarding right after the access is spared what the others pay
          have hpaid : s.transferCost =
              (if before.kind == .access then 0 else s.transferCost) + spared s before := by
            unfold spared
            cases before.kind <;> simp
          show _ ≤ s.boardCost + (if before.kind == .access then 0 else s.transferCost) + _ + _
          push_cast
          rw [add_mul, one_mul]
          omega

/-! ## Main statement -/

/-- What settings without light weights say a journey costs at least is no more than
what it costs, unless its boardings cannot be counted. -/
theorem least_le_cost {s : Settings} {stopCosts : Option (List ℤ)} {p : Plan} {arena : Arena}
    {e n : ℕ} (hsettings : s.validate = .ok ()) (hrange : InRange s.cost.transferCost)
    (hwalk : 1 ≤ s.cost.transferReluctance) (hwait : 1 ≤ s.cost.waitReluctance)
    (hstops : ∀ costs ∈ stopCosts, ∀ c ∈ costs, 0 ≤ c) (hp : p.Admissible)
    (hcarries : (ofSettings s stopCosts).Carries p arena e) (hrides : Plan.rides p.steps = n + 1) :
    ∃ last, arena.getEgress e = .ok last ∧
      Ends (· ≤ last.cost) (Fault.OverflowsUnless (InRange (1 + n)))
        ((ofSettings s stopCosts).cost.least (last.time - p.departure) n) := by
  have hvalid := Settings.valid_of_validate hsettings
  obtain ⟨first, nodes, last, hstart, honward, hlast, _⟩ := hcarries.chain
  have hend : (nodes ++ [Node.egress last]).getLast? = some (.egress last) := by simp
  have hforward := honward.forward hvalid.slack hp.steps hp.egress
  have hboardings := honward.boarding_sum s.cost hend hvalid.transferCost
  have hseconds := honward.seconds_eq hend
  obtain ⟨charges, hanswers, hcost⟩ := honward.answers hend
  generalize (ofSettings s stopCosts).enquiries first (nodes ++ [Node.egress last]) = enquiries
    at hforward hboardings hseconds hanswers
  -- the walk to the first stop is a leg like the others
  have hforward' : ∀ q ∈ .walk p.access.duration :: enquiries, q.Forward :=
    List.forall_mem_cons.mpr ⟨hp.access, hforward⟩
  have hanswers' : List.Forall₂
      (fun q charge => (CostRates.ofSettings s.cost stopCosts).model.answer q = .ok charge)
      (.walk p.access.duration :: enquiries) (first.cost :: charges) :=
    .cons hstart.cost hanswers
  have hall := CostRates.le_answers hvalid hwalk hwait hstops hforward' hanswers'
  have htime := Enquiry.seconds_sum_nonneg hforward'
  rw [hstart.free_eq] at hseconds
  rw [List.map_cons, List.sum_cons, hseconds] at htime
  rw [List.map_cons, List.sum_cons, List.map_cons, List.sum_cons, List.sum_cons, hseconds,
    ← hcost] at hall
  change 0 ≤ p.access.duration + _ at htime
  change min (100 * (0 + _ + (p.access.duration + _))) maxInt ≤ _ at hall
  have hspared : spared s.cost first = s.cost.transferCost := by
    refine if_pos ?_
    simp only [Arrival.kind, hstart.how]
  rw [hspared, hrides] at hboardings
  have hduration : 0 ≤ last.time - p.departure := by omega
  refine ⟨last, hlast, (CostRates.leastCost_ends hvalid hrange hduration n).mono ?_
    fun _ hf => hf⟩
  intro least hleast
  refine hleast.trans (le_trans (min_le_min_right maxInt ?_) hall)
  push_cast at hboardings
  have hboardings' : s.cost.boardCost * (1 + n) + s.cost.transferCost * n =
      (n + 1) * (s.cost.boardCost + s.cost.transferCost) - s.cost.transferCost := by
    ring
  omega

theorem acrossTown_costs_at_least :
    ∃ arena e last least, acrossTown.run (ofSettings {} none) {} = .ok (arena, e) ∧
      arena.getEgress e = .ok last ∧
      (ofSettings {} none).cost.least (last.time - acrossTown.departure) 1 = .ok least ∧
      least ≤ last.cost := by
  have hok : (acrossTown.run (ofSettings {} none) {}).isOk = true := by decide +kernel
  cases hrun : acrossTown.run (ofSettings {} none) {} with
  | error failure =>
      rw [hrun] at hok
      cases hok
  | ok out =>
      obtain ⟨arena, e⟩ := out
      have hstops : ∀ costs ∈ (none : Option (List ℤ)), ∀ c ∈ costs, 0 ≤ c := nofun
      obtain ⟨last, hlast, hends⟩ := least_le_cost (s := {}) (n := 1) rfl (by decide) (by decide)
        (by decide) hstops acrossTown_admissible (carries_of_run hrun) rfl
      obtain ⟨least, hleast, hle⟩ := hends.exists_ok fun _ _ hf => hf.2 (by decide)
      exact ⟨arena, e, last, least, rfl, hlast, hleast, hle⟩

/-- A second of waiting weighs less than a second of riding. -/
def lenient : Settings where
  cost := { boardCost := 60, transferCost := 120, transferReluctance := 2, waitReluctance := 0.8 }

/-- Two rides, each after an hour at the stop. -/
def idler : Plan where
  departure := 0
  access := { stop := 1, duration := 0 }
  steps :=
    [.ride { tag := 0, value := .bus "5" [(1, 3600, 3600), (2, 4200, 4200)] } 0 1,
     .ride { tag := 1, value := .bus "6" [(2, 7800, 7800), (3, 8400, 8400)] } 0 1]
  egress := 0

/-- Settings may make a journey cost less than what they say it costs at least. -/
theorem idler_below_least :
    lenient.validate = .ok () ∧ idler.Admissible ∧ Plan.rides idler.steps = 1 + 1 ∧
      ∃ arena e last, idler.run (ofSettings lenient none) {} = .ok (arena, e) ∧
        arena.getEgress e = .ok last ∧ last.cost = 720000 ∧
        (ofSettings lenient none).cost.least (last.time - idler.departure) 1 = .ok 864000 := by
  have hadmissible : idler.Admissible := by
    refine ⟨le_rfl, ?_, le_rfl⟩
    intro s hs
    simp only [idler, List.mem_cons, List.not_mem_nil, or_false] at hs
    rcases hs with rfl | rfl <;> exact ⟨rfl, rfl⟩
  have hends : (idler.run (ofSettings lenient none) {}).toOption.bind (fun out =>
      (out.1.getEgress out.2).toOption.map fun last => (last.time, last.cost)) =
      some (8400, 720000) := by decide +kernel
  have hleast : (ofSettings lenient none).cost.least 8400 1 = .ok 864000 := by decide +kernel
  refine ⟨rfl, hadmissible, rfl, ?_⟩
  cases hrun : idler.run (ofSettings lenient none) {} with
  | error failure =>
      rw [hrun] at hends
      cases hends
  | ok out =>
      obtain ⟨arena, e⟩ := out
      rw [hrun] at hends
      change (arena.getEgress e).toOption.map _ = _ at hends
      cases hlast : arena.getEgress e with
      | error f =>
          rw [hlast] at hends
          cases hends
      | ok last =>
          rw [hlast] at hends
          obtain ⟨htime, hcost⟩ := Prod.mk.inj (Option.some.inj hends)
          refine ⟨arena, e, last, rfl, hlast, hcost, ?_⟩
          rw [htime]
          exact hleast

end Extender

end Journey
