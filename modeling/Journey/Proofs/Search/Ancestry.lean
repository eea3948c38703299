import Journey.Proofs.Search.ChainRules
import Journey.Search.Posting
import Mathlib.Algebra.Ring.Int.Defs

/-!
# Ancestry

An arena is filled by postings, and each posting extends an arrival that is there
already. So the number of an arrival is greater than that of the arrival it
extends, and whoever goes back from arrival to arrival comes to an access in the
end, however many chains grow in the arena at the same time.

* **one posting**: what it makes, and what it fails on, is said once and in full
  (`Posting.run_ends`);
* **all postings**: an arena `Tracks` what was posted to it. Each posting keeps
  this (`Tracks.add`), and so does a whole run (`Tracks.postAll`);
* **statement** (`tells_of_postAll`): every handle that was given out leads back,
  over the arrivals that were extended, to an access and no further. What the node
  costs is the sum of what was passed along these postings and no others
  (`Tells`), and no later posting changes any of it.
-/

namespace Journey

/-! ## One posting -/

/-- The node that is made of what is passed and of the arrival that is extended. -/
inductive Posting.Makes (arena : Arena) : Posting → Node → Prop
  | access (stop : Nat) (fromTime toTime cost : Int) :
      Makes arena (.access stop fromTime toTime cost)
        (.arrival { round := 0, stop, time := toTime, cost, previous := none
                    how := .access fromTime })
  | ride (round alightStop : Nat) (alightTime boardTime : Int) (trip : Shared TimedTrip)
      {legCost : Int} {previous : Nat} {before : Arrival} : arena.get previous = .ok before →
      InRange (before.cost + legCost) →
      Makes arena (.ride round alightStop alightTime boardTime legCost trip previous)
        (.arrival { round, stop := alightStop, time := alightTime, cost := before.cost + legCost
                    previous := some previous, how := .transit before.stop boardTime trip })
  | transfer (round toStop : Nat) (fromTime toTime : Int) {legCost : Int} {previous : Nat}
      {before : Arrival} : arena.get previous = .ok before → InRange (before.cost + legCost) →
      Makes arena (.transfer round toStop fromTime toTime legCost previous)
        (.arrival { round, stop := toStop, time := toTime, cost := before.cost + legCost
                    previous := some previous, how := .transfer fromTime })
  | egress (fromTime toTime : Int) {legCost : Int} {previous : Nat} {before : Arrival} :
      arena.get previous = .ok before → InRange (before.cost + legCost) →
      Makes arena (.egress fromTime toTime legCost previous)
        (.egress { round := before.round, fromTime, time := toTime, cost := before.cost + legCost
                   previous })

/-- There is nothing to extend under this number, or the cost leaves its range. -/
def Posting.Fails (arena : Arena) (p : Posting) (f : Fault) : Prop :=
  ∃ previous, p.previous? = some previous ∧
    (arena.get previous = .error f ∨ ∃ before, arena.get previous = .ok before ∧
      ¬ InRange (before.cost + p.cost) ∧ f = .addOverflow)

namespace Arena

/-- The arena with one more node, and the handle of that node. -/
def add (arena : Arena) : Node → Arena × Handle
  | .arrival a =>
    ({ arena with arrivals := a :: arena.arrivals }, .arrival arena.arrivals.length)
  | .egress e =>
    ({ arena with egresses := e :: arena.egresses }, .egress arena.egresses.length)

end Arena

/-- A ride is boarded at the stop of the arrival it extends, and an egress keeps its round. -/
structure Node.Joins (after before : Node) : Prop where
  ride : ∀ a stop, after = .arrival a → a.boardStop? = some stop → before.stop? = some stop
  egress : ∀ e, after = .egress e → e.round = before.round

namespace Posting

variable {arena : Arena} {p : Posting} {n : Node}

/-- All postings but an access look up the arrival that they extend, and add to its cost. -/
theorem extend_ends {α : Type} {good : α → Prop} {previous : Nat}
    (hprevious : p.previous? = some previous) {next : Arrival → Int → Checked α}
    (hnext : ∀ before, arena.get previous = .ok before → InRange (before.cost + p.cost) →
      Ends good (p.Fails arena) (next before (before.cost + p.cost))) :
    Ends good (p.Fails arena) (do
      let before ← arena.get previous
      let cost ← Checked.add before.cost p.cost
      next before cost) := by
  refine Ends.bind_cases ?_ fun before hbefore => ?_
  · intro f hf
    exact ⟨previous, hprevious, .inl hf⟩
  · unfold Checked.add
    by_cases hrange : InRange (before.cost + p.cost)
    · rw [if_pos hrange]
      exact hnext before hbefore hrange
    · rw [if_neg hrange]
      exact ⟨previous, hprevious, .inr ⟨before, hbefore, hrange, rfl⟩⟩

/-- A posting adds the node that it makes, or fails. -/
theorem run_ends (p : Posting) (arena : Arena) :
    Ends (fun result => ∃ n, p.Makes arena n ∧ result = arena.add n) (p.Fails arena)
      (p.run arena) := by
  cases p with
  | access stop fromTime toTime cost => exact ⟨_, .access stop fromTime toTime cost, rfl⟩
  | ride round alightStop alightTime boardTime legCost trip previous =>
      simp only [run, Arena.ride, bind_assoc]
      refine extend_ends rfl fun before hbefore hrange => ?_
      exact ⟨_, .ride round alightStop alightTime boardTime trip hbefore hrange, rfl⟩
  | transfer round toStop fromTime toTime legCost previous =>
      simp only [run, Arena.transfer, bind_assoc]
      refine extend_ends rfl fun before hbefore hrange => ?_
      exact ⟨_, .transfer round toStop fromTime toTime hbefore hrange, rfl⟩
  | egress fromTime toTime legCost previous =>
      simp only [run, Arena.egress, bind_assoc]
      refine extend_ends rfl fun before hbefore hrange => ?_
      exact ⟨_, .egress fromTime toTime hbefore hrange, rfl⟩

theorem eq_add_of_run {result : Arena × Handle} (h : p.run arena = .ok result) :
    ∃ n, p.Makes arena n ∧ result = arena.add n := by
  have hends := p.run_ends arena
  rw [h] at hends
  exact hends

theorem Makes.previous?_eq (h : p.Makes arena n) : n.previous? = p.previous? := by
  cases h <;> rfl

/-- Only an access extends nothing. -/
theorem Makes.kind_eq_access_iff (h : p.Makes arena n) :
    n.kind = .access ↔ n.previous? = none := by
  cases h with
  | access => exact ⟨fun _ => rfl, fun _ => rfl⟩
  | ride => exact ⟨nofun, nofun⟩
  | transfer => exact ⟨nofun, nofun⟩
  | egress => exact ⟨nofun, nofun⟩

theorem Makes.cost_of_previous_eq_none (h : p.Makes arena n) (hnone : p.previous? = none) :
    n.cost = p.cost := by
  cases h with
  | access => rfl
  | _ => cases hnone

/-- What extends an arrival joins it, and adds to its cost what was passed. -/
theorem Makes.of_previous {previous : Nat} (h : p.Makes arena n)
    (hprevious : p.previous? = some previous) :
    ∃ before, arena.get previous = .ok before ∧ n.cost = before.cost + p.cost ∧
      n.Joins (.arrival before) := by
  cases h with
  | access => cases hprevious
  | ride _ _ _ _ _ hbefore _ =>
      cases hprevious
      refine ⟨_, hbefore, rfl, ⟨?_, nofun⟩⟩
      intro a stop ha hstop
      obtain rfl := Node.arrival.inj ha
      exact hstop
  | transfer _ _ _ _ hbefore _ =>
      cases hprevious
      refine ⟨_, hbefore, rfl, ⟨?_, nofun⟩⟩
      intro a stop ha hstop
      obtain rfl := Node.arrival.inj ha
      cases hstop
  | egress _ _ hbefore _ =>
      cases hprevious
      refine ⟨_, hbefore, rfl, ⟨?_, ?_⟩⟩
      · intro a stop ha
        cases ha
      · intro e he
        obtain rfl := Node.egress.inj he
        rfl

theorem Makes.mono {later : Arena} (h : p.Makes arena n) (hle : arena.Extends later) :
    p.Makes later n := by
  cases h with
  | access stop fromTime toTime cost => exact .access stop fromTime toTime cost
  | ride round alightStop alightTime boardTime trip hbefore hrange =>
      exact .ride round alightStop alightTime boardTime trip (hle.get hbefore) hrange
  | transfer round toStop fromTime toTime hbefore hrange =>
      exact .transfer round toStop fromTime toTime (hle.get hbefore) hrange
  | egress fromTime toTime hbefore hrange =>
      exact .egress fromTime toTime (hle.get hbefore) hrange

end Posting

/-! ## All postings -/

theorem Checked.get_concat_eq_ok_iff {α : Type} {xs : List α} {x y : α} {i : Nat} :
    Checked.get (xs ++ [x]) i = .ok y ↔ Checked.get xs i = .ok y ∨ i = xs.length ∧ y = x := by
  rw [Checked.get_eq_ok_iff, Checked.get_eq_ok_iff]
  rcases Nat.lt_trichotomy i xs.length with hlt | rfl | hgt
  · rw [List.getElem?_append_left hlt]
    simp [Nat.ne_of_lt hlt]
  · simp [eq_comm]
  · rw [List.getElem?_eq_none (by simp; omega), List.getElem?_eq_none (by omega)]
    simp [Nat.ne_of_gt hgt]

namespace Arena

variable {arena : Arena} {posted : List (Handle × Posting)}

theorem node_arrival_eq_ok_iff {id : Nat} {n : Node} :
    arena.node (.arrival id) = .ok n ↔ ∃ a, arena.get id = .ok a ∧ n = .arrival a := by
  unfold node
  rw [bind_eq_ok_iff]
  simp [pure, Except.pure, eq_comm]

theorem node_egress_eq_ok_iff {id : Nat} {n : Node} :
    arena.node (.egress id) = .ok n ↔ ∃ e, arena.getEgress id = .ok e ∧ n = .egress e := by
  unfold node
  rw [bind_eq_ok_iff]
  simp [pure, Except.pure, eq_comm]

theorem extends_add (arena : Arena) (n : Node) : arena.Extends (arena.add n).1 := by
  cases n with
  | arrival a => exact ⟨List.suffix_cons a _, List.suffix_refl _⟩
  | egress e => exact ⟨List.suffix_refl _, List.suffix_cons e _⟩

/-- The new node is there, and so are all that were there before. -/
theorem node_add_eq_ok_iff {n m : Node} {handle : Handle} :
    (arena.add n).1.node handle = .ok m ↔
      arena.node handle = .ok m ∨ handle = (arena.add n).2 ∧ m = n := by
  cases n with
  | arrival a =>
      cases handle with
      | arrival id =>
          simp only [node_arrival_eq_ok_iff, add, get, List.reverse_cons,
            Checked.get_concat_eq_ok_iff, List.length_reverse, Handle.arrival.injEq]
          grind
      | egress id =>
          simp [node_egress_eq_ok_iff, add, getEgress]
  | egress e =>
      cases handle with
      | arrival id =>
          simp [node_arrival_eq_ok_iff, add, get]
      | egress id =>
          simp only [node_egress_eq_ok_iff, add, getEgress, List.reverse_cons,
            Checked.get_concat_eq_ok_iff, List.length_reverse, Handle.egress.injEq]
          grind

/-- A handle is not given out twice. -/
theorem node_add_fresh (arena : Arena) (n m : Node) : arena.node (arena.add n).2 ≠ .ok m := by
  cases n with
  | arrival a =>
      intro h
      obtain ⟨b, hb, _⟩ := node_arrival_eq_ok_iff.mp h
      exact absurd (lt_length_of_get hb) (Nat.lt_irrefl _)
  | egress e =>
      intro h
      obtain ⟨f, hf, _⟩ := node_egress_eq_ok_iff.mp h
      obtain ⟨hlt, _⟩ := List.getElem?_eq_some_iff.mp (Checked.get_eq_ok_iff.mp hf)
      simp at hlt

/-- The arena holds what has been posted to it, under the handles given out, and nothing else. -/
structure Tracks (arena : Arena) (posted : List (Handle × Posting)) : Prop where
  named : ∀ {handle p}, (handle, p) ∈ posted → ∃ n, arena.node handle = .ok n ∧ p.Makes arena n
  all : ∀ {handle n}, arena.node handle = .ok n → ∃ p, (handle, p) ∈ posted
  once : ∀ {handle p q}, (handle, p) ∈ posted → (handle, q) ∈ posted → p = q
  /-- What is extended has been recorded before. -/
  older : ∀ {id p previous}, (.arrival id, p) ∈ posted → p.previous? = some previous →
    previous < id

theorem tracks_empty : Tracks {} [] where
  named h := absurd h List.not_mem_nil
  all {handle n} h := by
    cases handle with
    | arrival id =>
        obtain ⟨a, ha, _⟩ := node_arrival_eq_ok_iff.mp h
        exact absurd (lt_length_of_get ha) (Nat.not_lt_zero _)
    | egress id =>
        obtain ⟨e, he, _⟩ := node_egress_eq_ok_iff.mp h
        cases he
  once h := absurd h List.not_mem_nil
  older h := absurd h List.not_mem_nil

/-- One more posting is tracked, too. -/
theorem Tracks.add {p : Posting} {n : Node} (h : arena.Tracks posted) (hmakes : p.Makes arena n) :
    (arena.add n).1.Tracks (posted ++ [((arena.add n).2, p)]) where
  named {handle q} hq := by
    rcases List.mem_append.mp hq with hold | hnew
    · obtain ⟨m, hm, hmakes'⟩ := h.named hold
      exact ⟨m, node_add_eq_ok_iff.mpr (.inl hm), hmakes'.mono (arena.extends_add n)⟩
    · obtain ⟨rfl, rfl⟩ := Prod.mk.inj (List.mem_singleton.mp hnew)
      exact ⟨n, node_add_eq_ok_iff.mpr (.inr ⟨rfl, rfl⟩), hmakes.mono (arena.extends_add n)⟩
  all {handle m} hm := by
    rcases node_add_eq_ok_iff.mp hm with hold | ⟨rfl, _⟩
    · obtain ⟨q, hq⟩ := h.all hold
      exact ⟨q, List.mem_append_left _ hq⟩
    · exact ⟨p, List.mem_append_right _ List.mem_cons_self⟩
  once {handle q q'} hq hq' := by
    -- a handle from before is not the new one
    have hfresh : ∀ {r}, ((arena.add n).2, r) ∉ posted := by
      intro r hr
      obtain ⟨m, hm, _⟩ := h.named hr
      exact node_add_fresh arena n m hm
    rcases List.mem_append.mp hq with hold | hnew
    · rcases List.mem_append.mp hq' with hold' | hnew'
      · exact h.once hold hold'
      · obtain ⟨rfl, rfl⟩ := Prod.mk.inj (List.mem_singleton.mp hnew')
        exact absurd hold hfresh
    · obtain ⟨rfl, rfl⟩ := Prod.mk.inj (List.mem_singleton.mp hnew)
      rcases List.mem_append.mp hq' with hold' | hnew'
      · exact absurd hold' hfresh
      · exact (Prod.mk.inj (List.mem_singleton.mp hnew')).2.symm
  older {id q previous} hq hprevious := by
    rcases List.mem_append.mp hq with hold | hnew
    · exact h.older hold hprevious
    · obtain ⟨hid, rfl⟩ := Prod.mk.inj (List.mem_singleton.mp hnew)
      cases hmakes with
      | access => cases hprevious
      | ride _ _ _ _ _ hbefore _ =>
          cases hid
          cases hprevious
          exact lt_length_of_get hbefore
      | transfer _ _ _ _ hbefore _ =>
          cases hid
          cases hprevious
          exact lt_length_of_get hbefore
      | egress => cases hid

theorem Tracks.postAll {ps : List Posting} {later : Arena} {new : List (Handle × Posting)}
    (h : arena.Tracks posted) (hpost : arena.postAll ps = .ok (later, new)) :
    later.Tracks (posted ++ new) ∧ arena.Extends later ∧ new.map (·.2) = ps := by
  induction ps generalizing arena posted new with
  | nil =>
      cases hpost
      rw [List.append_nil]
      exact ⟨h, Extends.refl _, rfl⟩
  | cons p ps ih =>
      obtain ⟨result, hrun, hpost⟩ := bind_eq_ok_iff.mp hpost
      obtain ⟨⟨last, rest⟩, hrest, hpost⟩ := bind_eq_ok_iff.mp hpost
      cases hpost
      obtain ⟨n, hmakes, rfl⟩ := p.eq_add_of_run hrun
      obtain ⟨htracks, hextends, hmap⟩ := ih (h.add hmakes) hrest
      rw [List.append_assoc] at htracks
      exact ⟨htracks, (arena.extends_add n).trans hextends, congrArg (p :: ·) hmap⟩

/-! ## The way back -/

/-- Whoever goes back from a node, each time to the arrival that was extended,
comes past these nodes and to an end. -/
inductive LeadsBack (arena : Arena) : Node → List Node → Prop
  | stop {n : Node} : n.previous? = none → LeadsBack arena n [n]
  | back {n : Node} {a : Arrival} {previous : Nat} {nodes : List Node} :
      n.previous? = some previous → arena.get previous = .ok a →
      LeadsBack arena (.arrival a) nodes → LeadsBack arena n (n :: nodes)

/-- The postings of a chain, going back from a handle to the access. -/
inductive Path (posted : List (Handle × Posting)) : Handle → List Posting → Prop
  | stop {handle : Handle} {p : Posting} : (handle, p) ∈ posted → p.previous? = none →
      Path posted handle [p]
  | back {handle : Handle} {p : Posting} {previous : Nat} {ps : List Posting} :
      (handle, p) ∈ posted → p.previous? = some previous → Path posted (.arrival previous) ps →
      Path posted handle (p :: ps)

/-- There is one way back at most. -/
theorem LeadsBack.unique {n : Node} {nodes nodes' : List Node} (h : arena.LeadsBack n nodes)
    (h' : arena.LeadsBack n nodes') : nodes' = nodes := by
  induction h generalizing nodes' with
  | stop hnone =>
      cases h' with
      | stop _ => rfl
      | back hsome _ _ => cases hnone.symm.trans hsome
  | back hsome ha _ ih =>
      cases h' with
      | stop hnone => cases hnone.symm.trans hsome
      | back hsome' ha' hrest =>
          cases hsome.symm.trans hsome'
          cases ha.symm.trans ha'
          rw [ih hrest]

theorem Tracks.path_unique (h : arena.Tracks posted) {handle : Handle} {ps ps' : List Posting}
    (hpath : Path posted handle ps) (hpath' : Path posted handle ps') : ps' = ps := by
  induction hpath generalizing ps' with
  | stop hp hnone =>
      cases hpath' with
      | stop hq _ => rw [h.once hp hq]
      | back hq hsome _ =>
          cases h.once hp hq
          cases hnone.symm.trans hsome
  | back hp hsome _ ih =>
      cases hpath' with
      | stop hq hnone =>
          cases h.once hp hq
          cases hnone.symm.trans hsome
      | back hq hsome' hrest =>
          cases h.once hp hq
          cases hsome.symm.trans hsome'
          rw [ih hrest]

/-- The history of an arrival is put together from that of an older one. -/
theorem historyIn_eq_of_older {arrivals : List Arrival} {id : Nat} {a : Arrival}
    (ha : arrivals.reverse[id]? = some a)
    (holder : ∀ previous, a.previous = some previous → previous < id) :
    historyIn arrivals id = a :: match a.previous with
      | some previous => historyIn arrivals previous
      | none => [] := by
  induction arrivals with
  | nil => cases ha
  | cons b older ih =>
      obtain ⟨hlt, _⟩ := List.getElem?_eq_some_iff.mp ha
      have hskip : ∀ previous, previous < older.length →
          historyIn (b :: older) previous = historyIn older previous := by
        intro previous hprevious
        rw [historyIn, if_neg (Nat.ne_of_lt hprevious)]
      rw [List.reverse_cons] at ha
      by_cases hid : id = older.length
      · -- the newest arrival, whose history goes on in the older ones
        subst hid
        rw [List.getElem?_append_right (by simp)] at ha
        obtain rfl : b = a := by simpa using ha
        rw [historyIn, if_pos rfl]
        cases hprevious : b.previous with
        | none => rfl
        | some previous => exact congrArg (b :: ·) (hskip previous (holder previous hprevious)).symm
      · have hold : id < older.length := by
          simp at hlt
          omega
        rw [List.getElem?_append_left (by simpa using hold)] at ha
        rw [hskip id hold, ih ha]
        cases hprevious : a.previous with
        | none => rfl
        | some previous =>
            have hbefore := holder previous hprevious
            exact congrArg (a :: ·) (hskip previous (by omega)).symm

namespace Tracks

variable (h : arena.Tracks posted)

include h

/-- What can be looked up has been posted, and is what the posting makes. -/
theorem makes_of_node {handle : Handle} {n : Node} (hn : arena.node handle = .ok n) :
    ∃ p, (handle, p) ∈ posted ∧ p.Makes arena n := by
  obtain ⟨p, hp⟩ := h.all hn
  obtain ⟨m, hm, hmakes⟩ := h.named hp
  cases hn.symm.trans hm
  exact ⟨p, hp, hmakes⟩

/-- The walk from a handle is the node in front of the ancestors of what it extends. -/
theorem walk_eq {handle : Handle} {n : Node} (hn : arena.node handle = .ok n) :
    arena.walk handle = .ok (n :: match n.previous? with
      | some previous => arena.ancestors previous
      | none => []) := by
  cases handle with
  | arrival id =>
      obtain ⟨a, ha, rfl⟩ := node_arrival_eq_ok_iff.mp hn
      obtain ⟨p, hp, hmakes⟩ := h.makes_of_node hn
      have holder : ∀ previous, a.previous = some previous → previous < id := by
        intro previous hprevious
        exact h.older hp (hmakes.previous?_eq.symm.trans hprevious)
      have hhistory := historyIn_eq_of_older (Checked.get_eq_ok_iff.mp ha) holder
      show (arena.get id >>= fun _ => Except.ok (arena.ancestors id)) = _
      rw [ha]
      show Except.ok ((historyIn arena.arrivals id).map Node.arrival) = _
      rw [hhistory]
      show Except.ok (Node.arrival a :: _) = _
      cases hprevious : a.previous with
      | none => simp [Node.previous?, hprevious]
      | some previous => simp [Node.previous?, hprevious, ancestors, history]
  | egress id =>
      obtain ⟨e, he, rfl⟩ := node_egress_eq_ok_iff.mp hn
      show (arena.getEgress id >>= fun e => Except.ok (.egress e :: arena.ancestors e.previous)) = _
      rw [he]
      rfl

end Tracks

/-! ## What a handle tells -/

/-- All that is seen from a handle: its node, the walk back to the access, and the
postings along it. -/
structure Tells (arena : Arena) (posted : List (Handle × Posting)) (handle : Handle) (n : Node)
    (nodes : List Node) (ps : List Posting) : Prop where
  node : arena.node handle = .ok n
  walk : arena.walk handle = .ok nodes
  back : ∀ nodes', arena.LeadsBack n nodes' ↔ nodes' = nodes
  access : ∃ newer first, nodes = newer ++ [first] ∧ first.kind = .access ∧
    ∀ m ∈ newer, m.kind ≠ .access
  joins : nodes.IsChain Node.Joins
  path : ∀ ps', Path posted handle ps' ↔ ps' = ps
  cost : n.cost = (ps.map Posting.cost).sum

namespace Tracks

variable (h : arena.Tracks posted)

include h

/-- What is seen from a handle is the node, and what is seen from the arrival it extends. -/
theorem tells_of_previous {handle : Handle} {n : Node} (hn : arena.node handle = .ok n)
    (hbefore : ∀ previous, n.previous? = some previous →
      ∃ m nodes ps, arena.Tells posted (.arrival previous) m nodes ps) :
    ∃ nodes ps, arena.Tells posted handle n nodes ps := by
  obtain ⟨p, hp, hmakes⟩ := h.makes_of_node hn
  have hwalk := h.walk_eq hn
  have hkind := hmakes.kind_eq_access_iff
  cases hprevious : n.previous? with
  | none =>
      rw [hprevious] at hwalk
      have hnone : p.previous? = none := hmakes.previous?_eq.symm.trans hprevious
      have hback : arena.LeadsBack n [n] := .stop hprevious
      have hpath : Path posted handle [p] := .stop hp hnone
      refine ⟨[n], [p], hn, hwalk, ?_, ?_, .singleton n, ?_, ?_⟩
      · exact fun nodes' => ⟨hback.unique, fun heq => heq ▸ hback⟩
      · exact ⟨[], n, rfl, hkind.mpr hprevious, fun m hm => absurd hm List.not_mem_nil⟩
      · exact fun ps' => ⟨h.path_unique hpath, fun heq => heq ▸ hpath⟩
      · rw [hmakes.cost_of_previous_eq_none hnone, List.map_singleton, List.sum_singleton]
  | some previous =>
      rw [hprevious] at hwalk
      have hsome : p.previous? = some previous := hmakes.previous?_eq.symm.trans hprevious
      obtain ⟨before, hget, hcost, hjoins⟩ := hmakes.of_previous hsome
      obtain ⟨m, nodes, ps, htells⟩ := hbefore previous hprevious
      obtain rfl : m = .arrival before := by
        obtain ⟨a, ha, rfl⟩ := node_arrival_eq_ok_iff.mp htells.node
        rw [Except.ok.inj (ha.symm.trans hget)]
      obtain rfl : nodes = arena.ancestors previous := by
        have hwalk' := htells.walk
        rw [Arena.walk, hget] at hwalk'
        exact (Except.ok.inj hwalk').symm
      have hback : arena.LeadsBack n (n :: arena.ancestors previous) :=
        .back hprevious hget ((htells.back _).mpr rfl)
      have hpath : Path posted handle (p :: ps) := .back hp hsome ((htells.path ps).mpr rfl)
      refine ⟨_, p :: ps, hn, hwalk, ?_, ?_, ?_, ?_, ?_⟩
      · exact fun nodes' => ⟨hback.unique, fun heq => heq ▸ hback⟩
      · obtain ⟨newer, first, hsplit, hfirst, hnewer⟩ := htells.access
        refine ⟨n :: newer, first, congrArg (n :: ·) hsplit, hfirst, ?_⟩
        intro m hm
        rcases List.mem_cons.mp hm with rfl | hm
        · intro haccess
          cases hprevious.symm.trans (hkind.mp haccess)
        · exact hnewer m hm
      · refine htells.joins.cons fun m hm => ?_
        -- the walk from the arrival that is extended starts with it
        obtain ⟨older, holder⟩ := history_eq_cons hget
        rw [ancestors, holder] at hm
        cases hm
        exact hjoins
      · exact fun ps' => ⟨h.path_unique hpath, fun heq => heq ▸ hpath⟩
      · rw [hcost, List.map_cons, List.sum_cons, ← htells.cost]
        exact Int.add_comm _ _

/-- An arrival is seen through to the access, since what it extends has a smaller number. -/
theorem tells_of_arrival {id : Nat} {n : Node} (hn : arena.node (.arrival id) = .ok n) :
    ∃ nodes ps, arena.Tells posted (.arrival id) n nodes ps := by
  induction id using Nat.strongRecOn generalizing n with
  | ind id ih =>
      refine h.tells_of_previous hn fun previous hprevious => ?_
      obtain ⟨p, hp, hmakes⟩ := h.makes_of_node hn
      have hsome : p.previous? = some previous := hmakes.previous?_eq.symm.trans hprevious
      obtain ⟨before, hbefore, _⟩ := hmakes.of_previous hsome
      exact ⟨_, ih previous (h.older hp hsome) (node_arrival_eq_ok_iff.mpr ⟨before, hbefore, rfl⟩)⟩

theorem tells {handle : Handle} {n : Node} (hn : arena.node handle = .ok n) :
    ∃ nodes ps, arena.Tells posted handle n nodes ps := by
  refine h.tells_of_previous hn fun previous hprevious => ?_
  obtain ⟨p, _, hmakes⟩ := h.makes_of_node hn
  obtain ⟨before, hbefore, _⟩ := hmakes.of_previous (hmakes.previous?_eq.symm.trans hprevious)
  exact ⟨_, h.tells_of_arrival (node_arrival_eq_ok_iff.mpr ⟨before, hbefore, rfl⟩)⟩

end Tracks

/-! ## Whatever is posted later -/

theorem LeadsBack.mono {later : Arena} {n : Node} {nodes : List Node}
    (h : arena.LeadsBack n nodes) (hle : arena.Extends later) : later.LeadsBack n nodes := by
  induction h with
  | stop hnone => exact .stop hnone
  | back hsome ha _ ih => exact .back hsome (hle.get ha) ih

theorem Path.mono {later : List (Handle × Posting)} {handle : Handle} {ps : List Posting}
    (h : Path posted handle ps) (hle : posted ⊆ later) : Path later handle ps := by
  induction h with
  | stop hp hnone => exact .stop (hle hp) hnone
  | back hp hsome _ ih => exact .back (hle hp) hsome ih

theorem Extends.node {later : Arena} (hle : arena.Extends later) {handle : Handle} {n : Node}
    (hn : arena.node handle = .ok n) : later.node handle = .ok n := by
  cases handle with
  | arrival id =>
      obtain ⟨a, ha, rfl⟩ := node_arrival_eq_ok_iff.mp hn
      exact node_arrival_eq_ok_iff.mpr ⟨a, hle.get ha, rfl⟩
  | egress id =>
      obtain ⟨e, he, rfl⟩ := node_egress_eq_ok_iff.mp hn
      exact node_egress_eq_ok_iff.mpr ⟨e, hle.getEgress he, rfl⟩

/-- A handle goes on to tell what it has told. -/
theorem Tells.later {later : Arena} {new : List (Handle × Posting)} {handle : Handle} {n : Node}
    {nodes : List Node} {ps : List Posting} (h : arena.Tells posted handle n nodes ps)
    (htracks : later.Tracks (posted ++ new)) (hle : arena.Extends later) :
    later.Tells (posted ++ new) handle n nodes ps := by
  obtain ⟨nodes', ps', htells⟩ := htracks.tells (hle.node h.node)
  have hback : arena.LeadsBack n nodes := (h.back nodes).mpr rfl
  have hpath : Path posted handle ps := (h.path ps).mpr rfl
  obtain rfl : nodes = nodes' := (htells.back nodes).mp (hback.mono hle)
  obtain rfl : ps = ps' := (htells.path ps).mp (hpath.mono (List.subset_append_left posted new))
  exact htells

/-! ## Statement -/

/-- No check of neighbours says that the access is missing. -/
theorem pairFlaw?_ne_missingAccess {position : Nat} {previous node : Node} :
    pairFlaw? position previous node ≠ some .missingAccess := by
  unfold pairFlaw?
  split
  · nofun
  · split
    · nofun
    · split
      · nofun
      · nofun

theorem validate_ne_missingAccess_of_chain {e : Nat} {newer : List Node} {first : Node}
    (hchain : arena.chain e = .ok (newer ++ [first])) (hfirst : first.kind = .access) :
    arena.validate e ≠ .error (.refused .missingAccess) := by
  intro hmissing
  have hnodes : newer ++ [first] = (first :: newer.reverse).reverse := by simp
  rw [hnodes] at hchain
  rw [validate_eq_of_chain hchain hfirst] at hmissing
  cases hcheck : checkPairs 1 (first :: newer.reverse) with
  | ok _ =>
      rw [hcheck] at hmissing
      cases hmissing
  | error flaw =>
      rw [hcheck] at hmissing
      cases hmissing
      obtain ⟨_, _, _, _, _, _, hflaw⟩ := checkPairs_eq_error hcheck
      exact pairFlaw?_ne_missingAccess hflaw

/-- The next posting fails only if its cost leaves the range, as long as it
extends an arrival whose number was given out. -/
theorem Tracks.run_ends (h : arena.Tracks posted) {p : Posting}
    (hp : ∀ previous, p.previous? = some previous → ∃ q, (.arrival previous, q) ∈ posted) :
    Ends (fun result => ∃ n, p.Makes arena n ∧ result = arena.add n)
      (fun f => f = .addOverflow ∧ ∃ previous before, p.previous? = some previous ∧
        arena.get previous = .ok before ∧ ¬ InRange (before.cost + p.cost))
      (p.run arena) := by
  refine (p.run_ends arena).mono (fun _ hgood => hgood) ?_
  rintro f ⟨previous, hprevious, hmissing | ⟨before, hbefore, hrange, rfl⟩⟩
  · obtain ⟨q, hq⟩ := hp previous hprevious
    obtain ⟨n, hn, _⟩ := h.named hq
    obtain ⟨a, ha, _⟩ := node_arrival_eq_ok_iff.mp hn
    cases hmissing.symm.trans ha
  · exact ⟨rfl, previous, before, hprevious, hbefore, hrange⟩

/-- However many chains are posted to an arena, and in whatever order: each handle
that was given out leads back to an access and no further, its cost is the sum
along its own chain, and it tells the same whatever is posted later. So no chain
is ever found to lack its access. A posting that extends an arrival from before
fails only if its cost leaves the range. -/
theorem tells_of_postAll {ps : List Posting} (hpost : postAll ps {} = .ok (arena, posted)) :
    posted.map (·.2) = ps ∧
      (∀ handle p, (handle, p) ∈ posted →
        ∃ n nodes along, arena.Tells posted handle n nodes along ∧
          ∀ more later new, arena.postAll more = .ok (later, new) →
            later.Tells (posted ++ new) handle n nodes along) ∧
      (∀ e, arena.validate e ≠ .error (.refused .missingAccess)) ∧
      ∀ p : Posting,
        (∀ previous, p.previous? = some previous → ∃ q, (.arrival previous, q) ∈ posted) →
        Ends (fun result => ∃ n, p.Makes arena n ∧ result = arena.add n)
          (fun f => f = .addOverflow ∧ ∃ previous before, p.previous? = some previous ∧
            arena.get previous = .ok before ∧ ¬ InRange (before.cost + p.cost))
          (p.run arena) := by
  obtain ⟨htracks, _, hmap⟩ := tracks_empty.postAll hpost
  refine ⟨hmap, ?_, ?_, fun p hp => htracks.run_ends hp⟩
  · intro handle p hp
    obtain ⟨n, hn, _⟩ := htracks.named hp
    obtain ⟨nodes, along, htells⟩ := htracks.tells hn
    refine ⟨n, nodes, along, htells, fun more later new hmore => ?_⟩
    obtain ⟨htracks', hle, _⟩ := htracks.postAll hmore
    exact htells.later htracks' hle
  · intro e
    cases hget : arena.getEgress e with
    | error f =>
        -- there is no chain under this number
        unfold Arena.validate chain
        rw [hget]
        nofun
    | ok egress =>
        have hn : arena.node (.egress e) = .ok (.egress egress) :=
          node_egress_eq_ok_iff.mpr ⟨egress, hget, rfl⟩
        obtain ⟨nodes, along, htells⟩ := htracks.tells hn
        obtain ⟨newer, first, rfl, hfirst, _⟩ := htells.access
        exact validate_ne_missingAccess_of_chain htells.walk hfirst

/-- Two ways on from one ride, with a chain from another access in between. -/
def forked : List Posting :=
  [.access 1 0 60 10,
   .ride 1 2 200 100 20 { tag := 0, value := .bus "5" [(1, 100, 100), (2, 200, 200)] } 0,
   .access 3 0 30 5, .transfer 1 4 200 230 3 1, .egress 200 260 7 1, .transfer 0 4 30 90 6 2,
   .egress 230 240 1 3]

theorem forked_tells :
    ∃ arena posted nodes, postAll forked {} = .ok (arena, posted) ∧
      arena.walk (.egress 1) = .ok nodes ∧ nodes.map Node.cost = [34, 33, 30, 10] ∧
      ∀ more later new, arena.postAll more = .ok (later, new) →
        later.walk (.egress 1) = .ok nodes := by
  have hrun : ∃ arena posted nodes, postAll forked {} = .ok (arena, posted) ∧
      (.egress 1, .egress 230 240 1 3) ∈ posted ∧ arena.walk (.egress 1) = .ok nodes ∧
      nodes.map Node.cost = [34, 33, 30, 10] :=
    ⟨_, _, _, rfl, by simp, rfl, rfl⟩
  obtain ⟨arena, posted, nodes, hpost, hposted, hwalk, hcosts⟩ := hrun
  obtain ⟨_, hall, _⟩ := tells_of_postAll hpost
  obtain ⟨n, nodes', along, htells, hlater⟩ := hall _ _ hposted
  obtain rfl : nodes = nodes' := Except.ok.inj (hwalk.symm.trans htells.walk)
  exact ⟨arena, posted, nodes, hpost, hwalk, hcosts, fun more later new hmore =>
    (hlater more later new hmore).walk⟩

end Arena

end Journey
