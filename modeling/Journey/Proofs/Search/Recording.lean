import Journey.Search.Arena

/-!
# What recording leaves behind

The operations of an arena, seen through the chains they leave behind:

* **one leg**: recording a ride, a walk or an egress puts one node in front of
  the history of the arrival it extends (`history_of_ride`,
  `history_of_transfer`, `chain_of_egress`);
* **frame**: recording only adds (`Arena.Extends`), and an arena that holds
  more gives the same history under every number that was there before
  (`Extends.history`, `Extends.chain`).
-/

namespace Journey

namespace Arena

/-! ## One leg -/

/-- A walk to a first stop starts a history. -/
theorem history_of_access {arena arena' : Arena} {stop id : Nat} {fromTime toTime cost : Int}
    (h : arena.access stop fromTime toTime cost = (arena', id)) :
    arena'.history id =
      [{ round := 0, stop, time := toTime, cost, previous := none, how := .access fromTime }] := by
  cases h
  exact history_record_self arena _

theorem history_of_ride {arena arena' : Arena} {round alightStop previous id : Nat}
    {alightTime boardTime legCost : Int} {trip : Shared TimedTrip}
    (h : arena.ride round alightStop alightTime boardTime legCost trip previous =
      .ok (arena', id)) :
    ∃ before, arena.get previous = .ok before ∧
      arena'.history id =
        { round, stop := alightStop, time := alightTime, cost := before.cost + legCost
          previous := some previous, how := .transit before.stop boardTime trip } ::
          arena.history previous := by
  obtain ⟨before, hbefore, h⟩ := bind_eq_ok_iff.mp h
  obtain ⟨cost, hcost, h⟩ := bind_eq_ok_iff.mp h
  obtain ⟨_, rfl⟩ := Checked.add_eq_ok_iff.mp hcost
  cases h
  exact ⟨before, hbefore, history_record_self arena _⟩

theorem history_of_transfer {arena arena' : Arena} {round toStop previous id : Nat}
    {fromTime toTime legCost : Int}
    (h : arena.transfer round toStop fromTime toTime legCost previous = .ok (arena', id)) :
    ∃ before, arena.get previous = .ok before ∧
      arena'.history id =
        { round, stop := toStop, time := toTime, cost := before.cost + legCost
          previous := some previous, how := .transfer fromTime } :: arena.history previous := by
  obtain ⟨before, hbefore, h⟩ := bind_eq_ok_iff.mp h
  obtain ⟨cost, hcost, h⟩ := bind_eq_ok_iff.mp h
  obtain ⟨_, rfl⟩ := Checked.add_eq_ok_iff.mp hcost
  cases h
  exact ⟨before, hbefore, history_record_self arena _⟩

/-- The chain of an egress is the egress in front of the history it completes. -/
theorem chain_of_egress {arena arena' : Arena} {previous id : Nat}
    {fromTime toTime legCost : Int}
    (h : arena.egress fromTime toTime legCost previous = .ok (arena', id)) :
    ∃ before e, arena.get previous = .ok before ∧
      e = { round := before.round, fromTime, time := toTime, cost := before.cost + legCost
            previous : Egress } ∧
      arena'.arrivals = arena.arrivals ∧ arena'.getEgress id = .ok e ∧
      arena'.chain id = .ok (.egress e :: arena.ancestors previous) := by
  obtain ⟨before, hbefore, h⟩ := bind_eq_ok_iff.mp h
  obtain ⟨cost, hcost, h⟩ := bind_eq_ok_iff.mp h
  obtain ⟨_, rfl⟩ := Checked.add_eq_ok_iff.mp hcost
  cases h
  refine ⟨before, _, hbefore, rfl, rfl, ?_, ?_⟩
  · simp [getEgress, Checked.get]
  · simp [chain, getEgress, Checked.get, ancestors, history, bind, Except.bind, pure, Except.pure]

/-- An arrival that is found starts its own history. -/
theorem history_eq_cons {arena : Arena} {id : Nat} {a : Arrival} (h : arena.get id = .ok a) :
    ∃ older, arena.history id = a :: older := by
  rw [get_eq_ok_iff_head?_history] at h
  exact List.head?_eq_some_iff.mp h

/-! ## Frame -/

/-- The later arena holds all that the earlier one does, under the same numbers. -/
structure Extends (earlier later : Arena) : Prop where
  arrivals : earlier.arrivals <:+ later.arrivals
  egresses : earlier.egresses <:+ later.egresses

theorem Extends.refl (arena : Arena) : arena.Extends arena :=
  ⟨List.suffix_refl _, List.suffix_refl _⟩

theorem Extends.trans {a b c : Arena} (hab : a.Extends b) (hbc : b.Extends c) : a.Extends c :=
  ⟨hab.arrivals.trans hbc.arrivals, hab.egresses.trans hbc.egresses⟩

/-- Arrivals put in front change no history that there was before. -/
theorem historyIn_append {newer older : List Arrival} {id : Nat} (h : id < older.length) :
    historyIn (newer ++ older) id = historyIn older id := by
  induction newer with
  | nil => rfl
  | cons a newer ih =>
      have hne : id ≠ (newer ++ older).length := by simp; omega
      rw [List.cons_append, historyIn, if_neg hne, ih]

theorem lt_length_of_get {arena : Arena} {id : Nat} {a : Arrival} (h : arena.get id = .ok a) :
    id < arena.arrivals.length := by
  have hget := Checked.get_eq_ok_iff.mp h
  obtain ⟨hlt, _⟩ := List.getElem?_eq_some_iff.mp hget
  simpa using hlt

/-- A history stays as it is in every later arena. -/
theorem Extends.history {earlier later : Arena} (hle : earlier.Extends later) {id : Nat}
    (hid : id < earlier.arrivals.length) : later.history id = earlier.history id := by
  obtain ⟨newer, hnewer⟩ := hle.arrivals
  unfold Arena.history
  rw [← hnewer, historyIn_append hid]

theorem Extends.get {earlier later : Arena} (hle : earlier.Extends later) {id : Nat}
    {a : Arrival} (h : earlier.get id = .ok a) : later.get id = .ok a := by
  rw [get_eq_ok_iff_head?_history] at h ⊢
  rw [hle.history (lt_length_of_get (get_eq_ok_iff_head?_history.mpr h)), h]

theorem Extends.getEgress {earlier later : Arena} (hle : earlier.Extends later) {id : Nat}
    {e : Egress} (h : earlier.getEgress id = .ok e) : later.getEgress id = .ok e := by
  obtain ⟨newer, hnewer⟩ := hle.egresses
  unfold Arena.getEgress at h ⊢
  rw [Checked.get_eq_ok_iff] at h ⊢
  obtain ⟨hlt, _⟩ := List.getElem?_eq_some_iff.mp h
  rw [← hnewer, List.reverse_append, List.getElem?_append_left hlt, h]

theorem Extends.chain {earlier later : Arena} (hle : earlier.Extends later) {id : Nat}
    {e : Egress} (h : earlier.getEgress id = .ok e)
    (hprevious : e.previous < earlier.arrivals.length) : later.chain id = earlier.chain id := by
  unfold Arena.chain ancestors
  rw [h, hle.getEgress h]
  show Except.ok (Node.egress e :: (later.history e.previous).map .arrival) =
    Except.ok (Node.egress e :: (earlier.history e.previous).map .arrival)
  rw [hle.history hprevious]

end Arena

end Journey
