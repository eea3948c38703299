import Journey.Proofs.Search.Ancestry
import Journey.Proofs.Search.Conservation
import Journey.Search.Exploration

/-!
# All chains of an exploration

A search asks for legs in any order: it starts chains, goes on with old ones, and
lets several go on from the same arrival. What the arena holds at any time has
been built leg by leg all the same (`Explored`), and each call keeps this,
whether it is answered or refused (`Explored.run`).

So what holds of neighbours on every chain that is built leg by leg (`Advances`)
holds along the walk from every arrival and every egress (`Orderly`): time and
cost never decrease, the round counts the rides, a ride is boarded at the stop
where the traveller is, and is charged for no less than the slack around it.
-/

namespace Journey.Extender

variable {x : Extender} {arena arena' : Arena}

/-! ## Assumptions -/

/-- No walk takes less than no time, and no trip goes back in time. -/
def Call.Admissible : Call → Prop
  | .access _ walk | .transfer _ walk => 0 ≤ walk.duration
  | .ride _ trip _ _ => trip.value.times.Steady
  | .egress _ duration => 0 ≤ duration

theorem timely_of_steady {trip : Shared TimedTrip} (h : trip.value.times.Steady)
    (board alight : Nat) : (Plan.Step.ride trip board alight).Timely := by
  intro boardTime alightTime hforward _ hboard halight
  exact h.departure_le_arrival hforward hboard halight

/-! ## Explored arenas -/

/-- What the handle names has been built leg by leg, of legs that take no less than
no time. -/
inductive Built (x : Extender) (arena : Arena) : Handle → Prop
  | arrival {departure : Int} {w : Walk} {steps : List Plan.Step} {id : Nat} : 0 ≤ w.duration →
      (∀ s ∈ steps, s.Timely) → x.Trail departure w steps arena id → Built x arena (.arrival id)
  | egress {p : Plan} {e : Nat} : 0 ≤ p.access.duration → (∀ s ∈ p.steps, s.Timely) →
      0 ≤ p.egress → x.Carries p arena e → Built x arena (.egress e)

/-- All that the arena holds has been built leg by leg. -/
def Explored (x : Extender) (arena : Arena) : Prop :=
  ∀ handle n, arena.node handle = .ok n → x.Built arena handle

theorem Built.later {handle : Handle} (h : x.Built arena handle) (hle : arena.Extends arena') :
    x.Built arena' handle := by
  cases h with
  | arrival hw hsteps htrail => exact .arrival hw hsteps (.later htrail hle)
  | egress hw hsteps hout hcarries =>
      obtain ⟨travelled, closed, last, htrail, hegress, hclosed⟩ := hcarries
      exact .egress hw hsteps hout ⟨travelled, closed, last, htrail, hegress, hclosed.trans hle⟩

theorem explored_empty (x : Extender) : x.Explored {} := by
  intro handle n hn
  obtain ⟨p, hp⟩ := Arena.tracks_empty.all hn
  exact absurd hp List.not_mem_nil

theorem Explored.add {n : Node} (h : x.Explored arena)
    (hnew : x.Built (arena.add n).1 (arena.add n).2) : x.Explored (arena.add n).1 := by
  intro handle m hm
  rcases Arena.node_add_eq_ok_iff.mp hm with hold | ⟨rfl, _⟩
  · exact (h handle m hold).later (arena.extends_add n)
  · exact hnew

/-- The arrival that a call extends has been built. -/
theorem Explored.trail (h : x.Explored arena) {id : Nat} {a : Arrival}
    (ha : arena.get id = .ok a) :
    ∃ departure w steps, 0 ≤ w.duration ∧ (∀ s ∈ steps, s.Timely) ∧
      x.Trail departure w steps arena id := by
  cases h (.arrival id) (.arrival a) (Arena.node_arrival_eq_ok_iff.mpr ⟨a, ha, rfl⟩) with
  | arrival hw hsteps htrail => exact ⟨_, _, _, hw, hsteps, htrail⟩

theorem Explored.step (h : x.Explored arena) {last id : Nat} {s : Plan.Step} (hs : s.Timely)
    (hrun : s.run x arena last = .ok (arena', id)) : x.Built arena' (.arrival id) := by
  obtain ⟨before, _, hbefore, _⟩ := history_of_run hrun
  obtain ⟨departure, w, steps, hw, hsteps, htrail⟩ := h.trail hbefore
  refine .arrival hw ?_ (htrail.step hrun)
  intro s' hs'
  rcases List.mem_append.mp hs' with hold | hnew
  · exact hsteps s' hold
  · rw [List.mem_singleton.mp hnew]
    exact hs

/-! ## One call -/

/-- Whatever a call leaves of the arena is the same, or has one node more, whose
handle is the answer. -/
theorem Call.run_cases {c : Call} {answer : Except RideRefusal Handle}
    (h : c.run x arena = .ok (arena', answer)) :
    (∃ refusal, answer = .error refusal ∧ arena' = arena) ∨
      ∃ n, answer = .ok (arena.add n).2 ∧ arena' = (arena.add n).1 := by
  have hposted : ∀ {p : Posting} {handle : Handle}, p.run arena = .ok (arena', handle) →
      ∃ n, (Except.ok handle : Except RideRefusal Handle) = .ok (arena.add n).2 ∧
        arena' = (arena.add n).1 := by
    intro p handle hrun
    obtain ⟨n, _, hadd⟩ := p.eq_add_of_run hrun
    obtain ⟨rfl, rfl⟩ := Prod.mk.inj hadd
    exact ⟨n, rfl, rfl⟩
  cases c with
  | access departure walk =>
      obtain ⟨⟨recorded, id⟩, haccess, h⟩ := bind_eq_ok_iff.mp h
      cases h
      obtain ⟨leg, _, hrecord⟩ := access_eq_ok haccess
      refine .inr (hposted (p := .access walk.stop leg.fromTime leg.toTime leg.cost) ?_)
      rw [Posting.run, hrecord]
  | transfer previous walk =>
      obtain ⟨⟨recorded, id⟩, htransfer, h⟩ := bind_eq_ok_iff.mp h
      cases h
      obtain ⟨before, leg, _, _, hrecord⟩ := transfer_eq_ok htransfer
      refine .inr (hposted
        (p := .transfer before.round walk.stop leg.fromTime leg.toTime leg.cost previous) ?_)
      rw [Posting.run, hrecord]
      rfl
  | ride previous trip board alight =>
      obtain ⟨⟨recorded, ridden⟩, hride, h⟩ := bind_eq_ok_iff.mp h
      cases h
      rcases ride_cases hride with ⟨_, rfl, rfl⟩ | ⟨_, before, _, hcases⟩
      · exact .inl ⟨_, rfl, rfl⟩
      · rcases hcases with ⟨reason, _, rfl, rfl⟩ | ⟨leg, id, _, rfl, hrecord⟩
        · exact .inl ⟨_, rfl, rfl⟩
        · refine .inr (hposted (p := .ride leg.round leg.alightStop leg.alightTime leg.boardTime
            leg.cost trip previous) ?_)
          rw [Posting.run, hrecord]
          rfl
  | egress previous duration =>
      obtain ⟨⟨recorded, id⟩, hegress, h⟩ := bind_eq_ok_iff.mp h
      cases h
      obtain ⟨before, leg, _, _, hrecord⟩ := egress_eq_ok hegress
      refine .inr (hposted (p := .egress leg.fromTime leg.toTime leg.cost previous) ?_)
      rw [Posting.run, hrecord]
      rfl

/-- What a call is answered with has been built leg by leg. -/
theorem Explored.built (h : x.Explored arena) {c : Call} {handle : Handle} (hc : c.Admissible)
    (hrun : c.run x arena = .ok (arena', .ok handle)) : x.Built arena' handle := by
  cases c with
  | access departure walk =>
      obtain ⟨⟨recorded, id⟩, haccess, hrun⟩ := bind_eq_ok_iff.mp hrun
      cases hrun
      exact .arrival hc (fun s hs => absurd hs List.not_mem_nil) (.start haccess)
  | transfer previous walk =>
      obtain ⟨⟨recorded, id⟩, htransfer, hrun⟩ := bind_eq_ok_iff.mp hrun
      cases hrun
      have hstep : (Plan.Step.walk walk).run x arena previous = .ok (arena', id) :=
        Outcome.ofChecked_eq_ok_iff.mpr htransfer
      have htimely : (Plan.Step.walk walk).Timely := hc
      exact h.step htimely hstep
  | ride previous trip board alight =>
      obtain ⟨⟨recorded, ridden⟩, hride, hrun⟩ := bind_eq_ok_iff.mp hrun
      cases ridden with
      | error refusal => cases hrun
      | ok id =>
          cases hrun
          have hstep : (Plan.Step.ride trip board alight).run x arena previous =
              .ok (arena', id) := by
            show (Outcome.ofChecked (x.ride arena previous trip board alight) >>= _) = _
            rw [hride]
            rfl
          exact h.step (timely_of_steady hc board alight) hstep
  | egress previous duration =>
      obtain ⟨⟨recorded, id⟩, hegress, hrun⟩ := bind_eq_ok_iff.mp hrun
      cases hrun
      obtain ⟨before, _, hbefore, _⟩ := chain_of_egress hegress
      obtain ⟨departure, w, steps, hw, hsteps, htrail⟩ := h.trail hbefore
      exact .egress (p := ⟨departure, w, steps, duration⟩) hw hsteps hc
        ⟨arena, _, previous, htrail, hegress, .refl _⟩

/-- Each call keeps it that all there is has been built leg by leg. -/
theorem Explored.run (h : x.Explored arena) {c : Call} {answer : Except RideRefusal Handle}
    (hc : c.Admissible) (hrun : c.run x arena = .ok (arena', answer)) : x.Explored arena' := by
  rcases Call.run_cases hrun with ⟨_, _, rfl⟩ | ⟨n, rfl, rfl⟩
  · exact h
  · exact h.add (h.built hc hrun)

/-! ## Many calls -/

theorem Explored.explore (h : x.Explored arena) {calls : List Call}
    {answers : List (Except RideRefusal Handle)} (hcalls : ∀ c ∈ calls, c.Admissible)
    (hrun : x.explore calls arena = .ok (arena', answers)) :
    x.Explored arena' ∧ arena.Extends arena' ∧
      ∀ handle, .ok handle ∈ answers → ∃ n, arena'.node handle = .ok n := by
  induction calls generalizing arena answers with
  | nil =>
      cases hrun
      exact ⟨h, .refl _, fun handle hmem => absurd hmem List.not_mem_nil⟩
  | cons c calls ih =>
      obtain ⟨⟨middle, answer⟩, hfirst, hrun⟩ := bind_eq_ok_iff.mp hrun
      obtain ⟨⟨last, rest⟩, hrest, hrun⟩ := bind_eq_ok_iff.mp hrun
      cases hrun
      have hmiddle := h.run (hcalls c List.mem_cons_self) hfirst
      obtain ⟨hlast, hle, hhandles⟩ :=
        ih hmiddle (fun c' hc' => hcalls c' (List.mem_cons_of_mem _ hc')) hrest
      rcases Call.run_cases hfirst with ⟨refusal, rfl, rfl⟩ | ⟨n, rfl, rfl⟩
      · refine ⟨hlast, hle, fun handle hmem => ?_⟩
        rcases List.mem_cons.mp hmem with heq | hmem
        · cases heq
        · exact hhandles handle hmem
      · refine ⟨hlast, (arena.extends_add n).trans hle, fun handle hmem => ?_⟩
        rcases List.mem_cons.mp hmem with heq | hmem
        · cases heq
          exact ⟨n, hle.node (Arena.node_add_eq_ok_iff.mpr (.inr ⟨rfl, rfl⟩))⟩
        · exact hhandles handle hmem

/-! ## Along the walks -/

/-- How a node of a chain leads on to the next one. -/
structure Advances (x : Extender) (before after : Node) : Prop where
  time : before.time ≤ after.time
  cost : before.cost ≤ after.cost
  round : after.round = before.round + if after.kind = .transit then 1 else 0
  /-- A ride is boarded where the traveller is. The cost model is asked about a wait
  that has room for the slack before boarding and after alighting, and its answer is
  what the ride adds to the cost. -/
  ride : ∀ a stop boardTime trip, after = .arrival a → a.how = .transit stop boardTime trip →
    ∃ b wait aboard charge, before = .arrival b ∧ b.stop = stop ∧
      x.enquiry b a = .ride (b.kind == .access) stop wait aboard a.stop ∧
      x.cost.answer (x.enquiry b a) = .ok charge ∧ a.cost = b.cost + charge ∧
      x.slack.board trip.value.pattern + x.slack.alight trip.value.pattern ≤ wait ∧ 0 ≤ aboard

/-- The nodes of a chain, from its access on. -/
structure Orderly (x : Extender) (nodes : List Node) : Prop where
  access : ∃ first later, nodes = first :: later ∧ first.kind = .access
  advances : nodes.IsChain x.Advances
  /-- The round of a node is the number of rides up to it. -/
  rounds : ∀ front n back, nodes = front ++ n :: back →
    n.round = (front ++ [n]).countP fun m => m.kind = .transit

theorem Adds.time_le {before after : Arrival} {s : Plan.Step} (h : x.Adds before s after)
    (hslack : x.slack.Nonnegative) (hs : s.Timely) : before.time ≤ after.time := by
  have hfree := time_le_free hslack before
  cases s with
  | walk w =>
      have hduration : 0 ≤ w.duration := hs
      have htime := WalksTo.time h
      omega
  | ride trip board alight =>
      obtain ⟨boardTime, hride⟩ := h
      have hboard := hride.onTime
      have hboardable := free_le_boardable hslack before trip.value.pattern
      have haboard := hride.boardTime_le hs
      omega

theorem Adds.advances {before after : Arrival} {s : Plan.Step} (h : x.Adds before s after)
    (hslack : x.slack.Nonnegative) (hcost : x.cost.Nonnegative) (hs : s.Timely) :
    x.Advances (.arrival before) (.arrival after) where
  time := h.time_le hslack hs
  cost := h.cost_le hslack hcost hs
  round := by
    have hround := h.round
    cases s with
    | walk w =>
        have hkind : (Node.arrival after).kind ≠ .transit := by
          simp [Node.kind, Arrival.kind, WalksTo.how h]
        rw [if_neg hkind]
        exact hround
    | ride trip board alight =>
        obtain ⟨boardTime, hride⟩ := h
        have hkind : (Node.arrival after).kind = .transit := by
          simp [Node.kind, Arrival.kind, hride.how]
        rw [if_pos hkind]
        exact hround
  ride a stop boardTime trip ha hhow := by
    obtain rfl := Node.arrival.inj ha
    obtain ⟨charge, hcharge, hafter⟩ := h.answer
    cases s with
    | walk w =>
        rw [WalksTo.how h] at hhow
        cases hhow
    | ride ridden board alight =>
        obtain ⟨boardTime', hride⟩ := h
        have hwait := hride.slack_le_wait
        have haboard := hride.boardTime_le hs
        rw [hride.how] at hhow
        obtain ⟨rfl, rfl, rfl⟩ := Reached.transit.inj hhow
        exact ⟨before, _, _, charge, rfl, rfl, hride.enquiry_eq, hcharge, hafter, hwait, by omega⟩

theorem Completes.advances {before : Arrival} {duration : Int} {e : Egress}
    (h : x.Completes before duration e) (hslack : x.slack.Nonnegative)
    (hcost : x.cost.Nonnegative) (hout : 0 ≤ duration) :
    x.Advances (.arrival before) (.egress e) where
  time := by
    have hfree := time_le_free hslack before
    have htime := h.time
    show before.time ≤ e.time
    omega
  cost := (h.grows hcost hout).cost
  round := h.round
  ride a stop boardTime trip ha := by cases ha

/-- Each ride is counted, so the round of any node is that of the first one and the
rides behind it. -/
theorem round_of_advances {first n : Node} {later front back : List Node}
    (h : (first :: later).IsChain x.Advances) (hsplit : first :: later = front ++ n :: back) :
    n.round + (if first.kind = .transit then 1 else 0) =
      first.round + (front ++ [n]).countP fun m => m.kind = .transit := by
  induction front generalizing first later with
  | nil =>
      obtain ⟨rfl, _⟩ := List.cons.inj hsplit
      simp
  | cons m front ih =>
      obtain ⟨rfl, htail⟩ := List.cons.inj hsplit
      cases later with
      | nil => exact absurd htail (by simp)
      | cons second later =>
          obtain ⟨hadvances, hrest⟩ := List.isChain_cons_cons.mp h
          have hcount := ih hrest htail
          have hround := hadvances.round
          rw [List.cons_append, List.countP_cons]
          simp only [decide_eq_true_eq]
          omega

theorem Starts.orderly {departure out : Int} {w : Walk} {first : Arrival} {steps : List Plan.Step}
    {nodes : List Node} (hstart : x.Starts departure w first)
    (h : x.Onward out first steps nodes) (hslack : x.slack.Nonnegative)
    (hcost : x.cost.Nonnegative) (hsteps : ∀ s ∈ steps, s.Timely) (hout : 0 ≤ out) :
    x.Orderly (.arrival first :: nodes) := by
  have hadvances : (Node.arrival first :: nodes).IsChain x.Advances :=
    h.isChain (fun s hs _ _ hadds => hadds.advances hslack hcost (hsteps s hs))
      fun _ _ hcompletes => hcompletes.advances hslack hcost hout
  have hkind : (Node.arrival first).kind = .access := by
    simp [Node.kind, Arrival.kind, hstart.how]
  refine ⟨⟨_, _, rfl, hkind⟩, hadvances, ?_⟩
  intro front n back hsplit
  have hround := round_of_advances hadvances hsplit
  have hzero : (Node.arrival first).round = 0 := hstart.round
  rw [hkind, if_neg (by decide), hzero] at hround
  omega

/-- The walk from what has been built is that of a chain. -/
theorem Built.orderly {handle : Handle} (h : x.Built arena handle)
    (hslack : x.slack.Nonnegative) (hcost : x.cost.Nonnegative) :
    ∃ nodes, arena.walk handle = .ok nodes.reverse ∧ x.Orderly nodes := by
  cases h with
  | arrival hw hsteps htrail =>
      obtain ⟨first, arrivals, now, hstart, hnow, hhistory, honward⟩ := htrail.onward 0
      have hchain := honward [] [] .here
      rw [List.append_nil, List.append_nil] at hchain
      refine ⟨_, ?_, hstart.orderly hchain hslack hcost hsteps (Int.le_refl 0)⟩
      show (arena.get _ >>= fun _ => Except.ok (arena.ancestors _)) = _
      rw [hnow]
      show Except.ok (List.map Node.arrival _) = _
      rw [hhistory]
      simp
  | egress hw hsteps hout hcarries =>
      obtain ⟨first, nodes, last, hstart, honward, hlast, hchain⟩ := hcarries.chain
      exact ⟨_, hchain, hstart.orderly honward hslack hcost hsteps hout⟩

/-- However a search builds its chains, and however many of them: along the walk
from everything that it has recorded, time and cost do not increase going back to
the access, the round counts the rides, and each ride is boarded where the
traveller is and charged for a wait that leaves room for the slack. -/
theorem orderly_of_explore {calls : List Call} {answers : List (Except RideRefusal Handle)}
    (hslack : x.slack.Nonnegative) (hcost : x.cost.Nonnegative)
    (hcalls : ∀ c ∈ calls, c.Admissible) (hrun : x.explore calls {} = .ok (arena, answers)) :
    (∀ handle, .ok handle ∈ answers → ∃ n, arena.node handle = .ok n) ∧
      ∀ handle n, arena.node handle = .ok n →
        ∃ nodes, arena.walk handle = .ok nodes.reverse ∧ x.Orderly nodes := by
  obtain ⟨hexplored, _, hhandles⟩ := (explored_empty x).explore hcalls hrun
  refine ⟨hhandles, fun handle n hn => ?_⟩
  exact (hexplored handle n hn).orderly hslack hcost

/-- Two chains that go on from the same ride, one of them after it has missed a bus,
and another access in between. -/
def rushHour : List Call :=
  [.access 0 { stop := 1, duration := 60 },
   .ride 0 { tag := 0, value := .bus "5" [(1, 100, 110), (2, 200, 210)] } 0 1,
   .ride 1 { tag := 1, value := .bus "6" [(2, 205, 220), (4, 300, 300)] } 0 1,
   .transfer 1 { stop := 3, duration := 30 },
   .access 0 { stop := 5, duration := 10 },
   .ride 2 { tag := 2, value := .bus "7" [(3, 300, 300), (4, 400, 400)] } 0 1,
   .egress 1 20, .egress 4 60]

theorem steady_bus (route : String) (visits : List (Nat × Int × Int))
    (h : (TimedTrip.bus route visits).times.firstViolation = .ok none) :
    (TimedTrip.bus route visits).times.Steady :=
  ⟨h, fun _ hoverlay => nomatch hoverlay⟩

theorem rushHour_admissible : ∀ c ∈ rushHour, c.Admissible := by
  intro c hc
  simp only [rushHour, List.mem_cons, List.not_mem_nil, or_false] at hc
  rcases hc with rfl | rfl | rfl | rfl | rfl | rfl | rfl | rfl
  · exact Int.natCast_nonneg 60
  · exact steady_bus _ _ rfl
  · exact steady_bus _ _ rfl
  · exact Int.natCast_nonneg 30
  · exact Int.natCast_nonneg 10
  · exact steady_bus _ _ rfl
  · exact Int.natCast_nonneg 20
  · exact Int.natCast_nonneg 60

theorem rushHour_orderly :
    ∃ arena answers nodes, unhurried.explore rushHour {} = .ok (arena, answers) ∧
      .error (.missedBoarding 2 220 260) ∈ answers ∧
      arena.walk (.egress 1) = .ok nodes.reverse ∧ unhurried.Orderly nodes ∧
      nodes.map Node.round = [0, 1, 1, 2, 2] := by
  have hrun : ∃ arena answers nodes, unhurried.explore rushHour {} = .ok (arena, answers) ∧
      .error (.missedBoarding 2 220 260) ∈ answers ∧ .ok (.egress 1) ∈ answers ∧
      arena.walk (.egress 1) = .ok nodes ∧ nodes.reverse.map Node.round = [0, 1, 1, 2, 2] :=
    ⟨_, _, _, rfl, .tail _ (.tail _ (.head _)), by simp, rfl, rfl⟩
  obtain ⟨arena, answers, nodes, hrun, hmissed, hanswer, hwalk, hrounds⟩ := hrun
  obtain ⟨hhandles, horderly⟩ := orderly_of_explore unhurried_slack_nonnegative
    CostModel.perSecond_nonnegative rushHour_admissible hrun
  obtain ⟨n, hn⟩ := hhandles _ hanswer
  obtain ⟨nodes', hwalk', horder⟩ := horderly _ _ hn
  obtain rfl : nodes = nodes'.reverse := Except.ok.inj (hwalk.symm.trans hwalk')
  rw [List.reverse_reverse] at hrounds
  exact ⟨arena, answers, nodes', hrun, hmissed, hwalk, horder, hrounds⟩

end Journey.Extender
