import Journey.Proofs.Search.Conservation
import Journey.Proofs.Search.Limits

/-!
# Leaving sooner, with less slack

Two travellers make the same plan. The second leaves no later than the first and needs
no more slack, so at every stop it is there no later (`Arrival.NoLater`), can board no
later (`boardable_le_of_noLater`), and finds each trip that the first one caught. A trip
keeps its times, so after a ride the two are level again: what a head start gains is
gained on walks, and the waits take it back.

* **one leg**: what the first traveller added, the second can add, if its numbers stay
  in range (`step_ends_noLater`), and it is there no later (`Adds.noLater`);
* **all legs**, by induction along the chain of the first (`Onward.runSteps_ends_noLater`).

**Statement** (`run_ends_noLater`): where the chain of a plan has been completed, the
same plan with an earlier departure and less slack is completed too. It goes through the
same stops in the same rounds, on the same rides at the same times, and starts and ends
each walk no later. Only a number out of range can keep it from that.
-/

namespace Journey

/-! ## Less slack -/

/-- No buffer is longer than that of the other. -/
structure Slack.AtMost (s s' : Slack) : Prop where
  board : ∀ p, s.board p ≤ s'.board p
  alight : ∀ p, s.alight p ≤ s'.alight p
  transfer : s.transfer ≤ s'.transfer

theorem Slack.ofSettings_atMost {s s' : SlackSettings} (hboard : s.board ≤ s'.board)
    (halight : s.alight ≤ s'.alight) (htransfer : s.transfer ≤ s'.transfer) :
    (ofSettings s).AtMost (ofSettings s') where
  board _ := hboard
  alight _ := halight
  transfer := htransfer

/-! ## Being no later -/

/-- A walk that starts no later, or the very same ride. -/
def Reached.NoLater : Reached → Reached → Prop
  | .access fromTime, .access fromTime' => fromTime ≤ fromTime'
  | .transfer fromTime, .transfer fromTime' => fromTime ≤ fromTime'
  | .transit boardStop boardTime trip, how => how = .transit boardStop boardTime trip
  | _, _ => False

/-- The same leg in the same round, and the traveller is there no later. A ride arrives
when it arrives. -/
structure Arrival.NoLater (a b : Arrival) : Prop where
  round : a.round = b.round
  stop : a.stop = b.stop
  how : a.how.NoLater b.how
  time : a.time ≤ b.time
  ridden : a.isTransit = true → a.time = b.time

structure Egress.NoLater (e f : Egress) : Prop where
  round : e.round = f.round
  fromTime : e.fromTime ≤ f.fromTime
  time : e.time ≤ f.time

def Node.NoLater : Node → Node → Prop
  | .arrival a, .arrival b => a.NoLater b
  | .egress e, .egress f => e.NoLater f
  | _, _ => False

theorem Arrival.NoLater.trip?_eq {a b : Arrival} (h : a.NoLater b) : a.trip? = b.trip? := by
  have hhow := h.how
  unfold Arrival.trip?
  cases ha : a.how <;> cases hb : b.how <;> simp_all [Reached.NoLater]

namespace Extender

variable {x y : Extender} {a b after after' : Arrival}

/-- The run has stopped for a number out of range, or for a leg that has no charge. No ride
was refused. -/
def Overflows (x : Extender) : Failure RideRefusal → Prop
  | .fault f => x.Exceeds f
  | .refused _ => False

/-! ## Times -/

section

variable (hslack : y.slack.AtMost x.slack)

include hslack

theorem free_le_of_noLater (h : a.NoLater b) : y.free a ≤ x.free b := by
  have htrip := h.trip?_eq
  cases hb : b.trip? with
  | none =>
      rw [hb] at htrip
      rw [free_of_trip_eq_none htrip, free_of_trip_eq_none hb]
      exact h.time
  | some trip =>
      rw [hb] at htrip
      rw [free_of_trip_eq_some htrip, free_of_trip_eq_some hb]
      exact Int.add_le_add h.time (hslack.alight _)

theorem boardable_le_of_noLater (h : a.NoLater b) (p : Pattern) :
    y.boardable a p ≤ x.boardable b p := by
  have htransit : a.isTransit = b.isTransit := by
    rw [isTransit_eq, isTransit_eq, h.trip?_eq]
  have hboard : y.free a + y.slack.board p ≤ x.free b + x.slack.board p :=
    Int.add_le_add (free_le_of_noLater hslack h) (hslack.board p)
  have hchange : a.time + y.slack.transfer ≤ b.time + x.slack.transfer :=
    Int.add_le_add h.time hslack.transfer
  unfold boardable
  rw [htransit]
  split
  · omega
  · exact hboard

/-! ## One leg -/

/-- After a walk the traveller is there no later, and after a ride at the same time. -/
theorem Adds.noLater {s : Plan.Step} (h : a.NoLater b) (hy : y.Adds a s after')
    (hx : x.Adds b s after) : after'.NoLater after := by
  have hfree := free_le_of_noLater hslack h
  cases s with
  | walk w =>
      have hwalk : y.WalksTo a w after' := hy
      have hwalk' : x.WalksTo b w after := hx
      refine ⟨?_, ?_, ?_, ?_, ?_⟩
      · rw [hwalk.round, hwalk'.round, h.round]
      · rw [hwalk.stop, hwalk'.stop]
      · rw [hwalk.how, hwalk'.how]
        exact hfree
      · rw [hwalk.time, hwalk'.time]
        omega
      · intro htransit
        simp [Arrival.isTransit, Arrival.kind, hwalk.how] at htransit
  | ride trip board alight =>
      obtain ⟨boardTime, hride⟩ := hy
      obtain ⟨boardTime', hride'⟩ := hx
      -- the trip and the positions settle where it is left, and both times
      have hstop := hride.arrives.1.symm.trans hride'.arrives.1
      have hboard := hride.departs.2.symm.trans hride'.departs.2
      have halight := Except.ok.inj (hride.arrives.2.symm.trans hride'.arrives.2)
      refine ⟨?_, Option.some.inj hstop, ?_, Int.le_of_eq halight, fun _ => halight⟩
      · rw [hride.round, hride'.round, h.round]
      · rw [hride.how, hride'.how, h.stop, Except.ok.inj hboard]
        rfl

theorem Completes.noLater {duration : Int} {e f : Egress} (h : a.NoLater b)
    (hy : y.Completes a duration e) (hx : x.Completes b duration f) : e.NoLater f := by
  have hfree := free_le_of_noLater hslack h
  refine ⟨?_, ?_, ?_⟩
  · rw [hy.round, hx.round, h.round]
  · rw [hy.fromTime, hx.fromTime]
    exact hfree
  · rw [hy.time, hx.time]
    omega

end

theorem Starts.noLater {departure departure' : Int} {w : Walk} (h : departure' ≤ departure)
    (hy : y.Starts departure' w a) (hx : x.Starts departure w b) : a.NoLater b := by
  refine ⟨?_, ?_, ?_, ?_, ?_⟩
  · rw [hy.round, hx.round]
  · rw [hy.stop, hx.stop]
  · rw [hy.how, hx.how]
    exact h
  · rw [hy.time, hx.time]
    omega
  · intro htransit
    simp [Arrival.isTransit, Arrival.kind, hy.how] at htransit

/-! ## The second run -/

section

variable {arena : Arena} {last : Nat}

/-- What the first traveller added, the second can add. -/
theorem step_ends_of_adds (hslack : y.slack.AtMost x.slack) (h : a.NoLater b)
    (ha : arena.get last = .ok a) {s : Plan.Step} (hx : x.Adds b s after) :
    Ends (fun _ => True) y.Overflows (s.run y arena last) := by
  cases s with
  | walk w => exact Ends.ofChecked (y.transfer_ends ha w)
  | ride trip board alight =>
      obtain ⟨boardTime, hride⟩ := hx
      have hleads : Leads trip.value board alight a.stop after.stop boardTime after.time := by
        rw [h.stop]
        exact ⟨hride.forward, Checked.get_eq_ok_iff.mpr hride.departs.1,
          Checked.get_eq_ok_iff.mpr hride.arrives.1, hride.departs.2, hride.arrives.2⟩
      have hcaught : y.boardable a trip.value.pattern ≤ boardTime :=
        Int.le_trans (boardable_le_of_noLater hslack h _) hride.onTime
      refine Ends.bind (Ends.ofChecked (y.ride_ends_of_caught ha hleads hcaught)) ?_
      rintro ⟨arena', ridden⟩ ⟨id, hid⟩
      cases hid
      trivial

theorem step_ends_noLater (hslack : y.slack.AtMost x.slack) (h : a.NoLater b)
    (ha : arena.get last = .ok a) {s : Plan.Step} (hx : x.Adds b s after) :
    Ends (fun out => ∃ after', out.1.get out.2 = .ok after' ∧ after'.NoLater after ∧
        out.1.history out.2 = after' :: arena.history last)
      y.Overflows (s.run y arena last) := by
  refine (step_ends_of_adds hslack h ha hx).of_forall fun out hrun => ?_
  obtain ⟨before, after', hbefore, hadds, hhistory⟩ := history_of_run hrun
  obtain rfl : a = before := Except.ok.inj (ha.symm.trans hbefore)
  refine ⟨after', ?_, hadds.noLater hslack h hx, hhistory⟩
  rw [Arena.get_eq_ok_iff_head?_history, hhistory]
  rfl

theorem egress_ends_noLater (hslack : y.slack.AtMost x.slack) (h : a.NoLater b)
    (ha : arena.get last = .ok a) {duration : Int} {e : Egress} (hx : x.Completes b duration e) :
    Ends (fun out => ∃ e', out.1.chain out.2 = .ok (.egress e' :: arena.ancestors last) ∧
        e'.NoLater e)
      y.Exceeds (y.egress arena last duration) := by
  refine (y.egress_ends ha duration).of_forall fun out hrun => ?_
  obtain ⟨before, e', hbefore, hcompletes, _, _, _, hchain⟩ := chain_of_egress hrun
  obtain rfl : a = before := Except.ok.inj (ha.symm.trans hbefore)
  exact ⟨e', hchain, hcompletes.noLater hslack h hx⟩

theorem access_ends_noLater {departure departure' : Int} {w : Walk} (h : departure' ≤ departure)
    (hx : x.Starts departure w b) (y : Extender) (arena : Arena) :
    Ends (fun out => ∃ a, out.1.get out.2 = .ok a ∧ a.NoLater b ∧ out.1.history out.2 = [a])
      y.Exceeds (y.access arena departure' w) := by
  refine (y.access_ends arena departure' w).of_forall fun out hrun => ?_
  obtain ⟨a, hstart, hhistory⟩ := history_of_start hrun
  refine ⟨a, ?_, hstart.noLater h hx, hhistory⟩
  rw [Arena.get_eq_ok_iff_head?_history, hhistory]
  rfl

/-- The rest of a plan is run after that of the first traveller, node by node. -/
theorem Onward.runSteps_ends_noLater (hslack : y.slack.AtMost x.slack) {out : Int}
    {steps : List Plan.Step} {nodes : List Node} {e : Egress} (hx : x.Onward out b steps nodes)
    (hlast : nodes.getLast? = some (.egress e)) (h : a.NoLater b)
    (ha : arena.get last = .ok a) :
    Ends (fun done => ∃ nodes', done.1.chain done.2 = .ok (nodes'.reverse ++ arena.ancestors last) ∧
        List.Forall₂ Node.NoLater nodes' nodes)
      y.Overflows
      (Plan.runSteps y steps arena last >>= fun (arena, last) =>
        liftM (y.egress arena last out)) := by
  -- along the nodes of the first run, while the second one records its own
  induction hx generalizing a arena last with
  | here => cases hlast
  | egress hcompletes =>
      refine Ends.mono (Ends.ofChecked (egress_ends_noLater hslack h ha hcompletes)) ?_
        fun _ hf => hf
      rintro done ⟨e', hchain, he⟩
      exact ⟨[.egress e'], hchain, .cons he .nil⟩
  | step hadds _ ih =>
      rw [Plan.runSteps, bind_assoc]
      refine Ends.bind (step_ends_noLater hslack h ha hadds) ?_
      rintro ⟨arena', next⟩ ⟨after', hget, hafter, hhistory⟩
      refine Ends.mono (ih (getLast?_of_cons_arrival hlast) hafter hget) ?_ fun _ hf => hf
      rintro done ⟨nodes', hchain, hnodes⟩
      refine ⟨.arrival after' :: nodes', ?_, .cons hafter hnodes⟩
      rw [hchain, Arena.ancestors, hhistory, List.reverse_cons, List.append_assoc]
      rfl

end

/-! ## Main statement -/

/-- A plan that has been completed is completed, too, by who leaves no later and needs no
more slack: every ride is caught, each stop is reached no later and every ride is the same,
unless a number is out of range. -/
theorem run_ends_noLater {x y : Extender} {p : Plan} {arena : Arena} {e : Nat} {departure : Int}
    (hslack : y.slack.AtMost x.slack) (hdeparture : departure ≤ p.departure)
    (h : x.Carries p arena e) (start : Arena) :
    ∃ nodes, arena.chain e = .ok nodes ∧
      Ends (fun out => ∃ nodes', out.1.chain out.2 = .ok nodes' ∧
          List.Forall₂ Node.NoLater nodes' nodes)
        y.Overflows (Plan.run y start { p with departure }) := by
  obtain ⟨first, nodes, last, hstart, honward, _, hchain⟩ := h.chain
  have hend : (nodes ++ [Node.egress last]).getLast? = some (.egress last) := by simp
  refine ⟨_, hchain, ?_⟩
  refine Ends.bind (Ends.ofChecked (access_ends_noLater hdeparture hstart y start)) ?_
  rintro ⟨opened, id⟩ ⟨a, hget, ha, hhistory⟩
  refine Ends.mono (honward.runSteps_ends_noLater hslack hend ha hget) ?_ fun _ hf => hf
  rintro done ⟨nodes', hchain', hnodes⟩
  refine ⟨(.arrival a :: nodes').reverse, ?_, ?_⟩
  · rw [hchain', Arena.ancestors, hhistory, List.reverse_cons]
    rfl
  · exact List.rel_reverse (.cons ha hnodes)

/-- No buffers at all. -/
def hasty : Extender where
  cost := .perSecond
  slack := .ofSettings { board := 0, alight := 0, transfer := 0 }

/-- Half a minute earlier, the same rides: both of them are waited for. -/
theorem acrossTown_hasty_noLater :
    ∃ arena e nodes arena' e' nodes', acrossTown.run unhurried {} = .ok (arena, e) ∧
      Plan.run hasty {} { acrossTown with departure := -30 } = .ok (arena', e') ∧
      arena.chain e = .ok nodes ∧ arena'.chain e' = .ok nodes' ∧
      List.Forall₂ Node.NoLater nodes' nodes ∧
      nodes.map Node.time = [670, 600, 440, 400, 100] ∧
      nodes'.map Node.time = [660, 600, 430, 400, 70] := by
  have hruns : ∃ arena e nodes arena' e' nodes', acrossTown.run unhurried {} = .ok (arena, e) ∧
      Plan.run hasty {} { acrossTown with departure := -30 } = .ok (arena', e') ∧
      arena.chain e = .ok nodes ∧ arena'.chain e' = .ok nodes' ∧
      nodes.map Node.time = [670, 600, 440, 400, 100] ∧
      nodes'.map Node.time = [660, 600, 430, 400, 70] :=
    ⟨_, _, _, _, _, _, rfl, rfl, rfl, rfl, rfl, rfl⟩
  obtain ⟨arena, e, nodes, arena', e', nodes', hrun, hrun', hchain, hchain', htimes⟩ := hruns
  have hslack : (Slack.ofSettings { board := 0, alight := 0, transfer := 0 }).AtMost
      (Slack.ofSettings { board := 5, alight := 10, transfer := 60 }) :=
    Slack.ofSettings_atMost (by decide) (by decide) (by decide)
  have hdeparture : (-30 : Int) ≤ acrossTown.departure := by decide
  obtain ⟨_, hfirst, hsecond⟩ :=
    run_ends_noLater (x := unhurried) (y := hasty) hslack hdeparture (carries_of_run hrun) {}
  rw [hrun'] at hsecond
  obtain ⟨_, hlater, hnodes⟩ := hsecond
  obtain rfl := Except.ok.inj (hchain.symm.trans hfirst)
  obtain rfl := Except.ok.inj (hchain'.symm.trans hlater)
  exact ⟨arena, e, nodes, arena', e', nodes', hrun, hrun', hchain, hchain', hnodes, htimes⟩

end Extender

end Journey
