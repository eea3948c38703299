import Journey.Itinerary.Basic
import Journey.Proofs.Outcome
import Mathlib.Data.List.Chain

/-!
# The rules for the legs of an itinerary

What legs must be like to make an itinerary is said twice here:

* **as a whole** (`Itinerary.WellFormed`), without a word on checks or their order;
* **as a list of rules** (`Itinerary.rules`), each with what it reports where it is
  broken: first those on all legs together, then those on neighbours, pair by pair.

`Itinerary.ofLegs_accepts_wellFormed` says that legs are accepted exactly if they are
well formed, and else refused for the first rule of the list that they break. No check
ever asks a leg for a stop that it does not have: by the time neighbours are looked
at, the legs are in a `frame`, and within it each leg that another one follows ends at a
stop, and each that follows another one starts at a stop (`Itinerary.isChain_canMeet`).
-/

namespace Journey

/-! ## Rules in order -/

section

variable {ε α β : Type}

/-- A rule, as what it reports: nothing where what it asks for holds. -/
def demand (p : Prop) [Decidable p] (e : ε) : Option ε := if p then none else some e

/-- What the first rule that is broken reports. -/
def firstBroken (rules : List (Option ε)) : Option ε := rules.findSome? id

def errorOf? : Except ε α → Option ε
  | .ok _ => none
  | .error e => some e

theorem demand_of {p : Prop} [Decidable p] {e : ε} (h : p) : demand p e = none := if_pos h

theorem demand_of_not {p : Prop} [Decidable p] {e : ε} (h : ¬ p) : demand p e = some e := if_neg h

@[simp]
theorem demand_eq_none_iff {p : Prop} [Decidable p] {e : ε} : demand p e = none ↔ p := by
  simp [demand]

@[simp]
theorem demand_eq_some_iff {p : Prop} [Decidable p] {e e' : ε} :
    demand p e = some e' ↔ ¬ p ∧ e = e' := by
  simp [demand]

theorem firstBroken_cons (r : Option ε) (rules : List (Option ε)) :
    firstBroken (r :: rules) = r.or (firstBroken rules) := by
  cases r with
  | none => rfl
  | some e => rfl

theorem firstBroken_append (rules rules' : List (Option ε)) :
    firstBroken (rules ++ rules') = (firstBroken rules).or (firstBroken rules') :=
  List.findSome?_append

theorem firstBroken_map (f : ε → β) (rules : List (Option ε)) :
    firstBroken (rules.map (Option.map f)) = (firstBroken rules).map f := by
  induction rules with
  | nil => rfl
  | cons r rest ih =>
      rw [List.map_cons, firstBroken_cons, firstBroken_cons, ih]
      cases r with
      | none => rfl
      | some e => rfl

theorem firstBroken_eq_none_iff {rules : List (Option ε)} :
    firstBroken rules = none ↔ ∀ r ∈ rules, r = none :=
  List.findSome?_eq_none_iff

/-- All rules before the first broken one are kept. -/
theorem firstBroken_eq_some_iff {rules : List (Option ε)} {e : ε} :
    firstBroken rules = some e ↔
      ∃ kept later, rules = kept ++ some e :: later ∧ ∀ r ∈ kept, r = none := by
  simp [firstBroken, List.findSome?_eq_some_iff]

theorem errorOf?_eq_none_iff {x : Except ε α} : errorOf? x = none ↔ ∃ a, x = .ok a := by
  cases x with
  | error e => simp [errorOf?]
  | ok a => simp [errorOf?]

theorem errorOf?_eq_some_iff {x : Except ε α} {e : ε} : errorOf? x = some e ↔ x = .error e := by
  cases x with
  | error e' => simp [errorOf?]
  | ok a => simp [errorOf?]

/-- To look for a flaw is to demand that there is none. -/
theorem flaw_eq {fails holds : Prop} [Decidable fails] [Decidable holds] {e : ε} {x : Option ε}
    (h : fails ↔ ¬ holds) : (if fails then some e else x) = (demand holds e).or x := by
  by_cases hholds : holds
  · have hpasses : ¬ fails := fun hfails => h.mp hfails hholds
    rw [if_neg hpasses, demand_of hholds]
    rfl
  · rw [if_pos (h.mpr hholds), demand_of_not hholds]
    rfl

/-- A check refuses where what is demanded does not hold. -/
theorem errorOf?_guard {fails holds : Prop} [Decidable fails] [Decidable holds] {e : ε}
    {x : Except ε α} (h : fails ↔ ¬ holds) :
    errorOf? (if fails then .error e else x) = (demand holds e).or (errorOf? x) := by
  rw [apply_ite errorOf?]
  exact flaw_eq h

/-- Of two steps in a row, the first one is heard first. -/
theorem errorOf?_seq (x : Except ε α) (y : Except ε β) :
    errorOf? (x >>= fun _ => y) = (errorOf? x).or (errorOf? y) := by
  cases x with
  | error e => rfl
  | ok a => rfl

theorem errorOf?_last (x : Except ε α) (b : β) : errorOf? (x >>= fun _ => .ok b) = errorOf? x := by
  cases x with
  | error e => rfl
  | ok a => rfl

end

namespace Itinerary

/-! ## What is asked of legs -/

/-- The rules on all legs together. -/
def wholeRules (legs : List Leg) : List (Option LegFlaw) := [
  demand (legs.head?.map Leg.kind = some .access) .firstNotAccess,
  demand (1 < legs.length ∧ legs.getLast?.map Leg.kind = some .egress) .lastNotEgress,
  demand (∀ l ∈ legs.tail.dropLast, l.kind ≠ .access ∧ l.kind ≠ .egress) .endsInside,
  demand (∃ l ∈ legs, l.kind = .transit) .noTransit,
  demand (∀ t ∈ legs.filterMap Leg.transit?, t.boardPosition < t.alightPosition)
    .alightNotAfterBoard]

/-- A leg ends where the next one starts, if both have a stop there. -/
def meetingRule (index : Nat) (leg next : Leg) : Option ItineraryError :=
  match leg.toStop?, next.fromStop? with
  | some toStop, some fromStop => demand (toStop = fromStop) (.disconnected index toStop fromStop)
  | _, _ => none

/-- The rules on a leg and the one that follows it. -/
def pairRules (index : Nat) (leg next : Leg) : List (Option ItineraryError) := [
  demand (next.kind = .transfer → leg.kind = .transit) (.invalid .transferNotAfterTransit),
  demand (leg.kind = .transfer → next.kind = .transit) (.invalid .transferNotBeforeTransit),
  meetingRule index leg next,
  demand (leg.toTime ≤ next.fromTime) (.overlap index)]

/-- The rules on all neighbours. The first leg has this index. -/
def neighbourRules (index : Nat) (legs : List Leg) : List (Option ItineraryError) :=
  ((legs.zip legs.tail).zipIdx index).flatMap fun (pair, i) => pairRules i pair.1 pair.2

/-- All rules, in the order in which they are looked at. -/
def rules (legs : List Leg) : List (Option ItineraryError) :=
  (wholeRules legs).map (Option.map .invalid) ++ neighbourRules 0 legs

/-- Legs that make an itinerary. -/
structure WellFormed (legs : List Leg) : Prop where
  two : 2 ≤ legs.length
  access : ∃ first rest, legs = .access first :: rest ∧ ∀ l ∈ rest, l.kind ≠ .access
  egress : ∃ rest last, legs = rest ++ [.egress last] ∧ ∀ l ∈ rest, l.kind ≠ .egress
  ride : ∃ l ∈ legs, l.kind = .transit
  forward : ∀ t, .transit t ∈ legs → t.boardPosition < t.alightPosition
  /-- A walk from stop to stop leads from a ride to a ride. -/
  transfers : ∀ before walk after, legs = before ++ .transfer walk :: after →
    before.getLast?.map Leg.kind = some .transit ∧ after.head?.map Leg.kind = some .transit
  meets : legs.IsChain fun leg next =>
    ∃ stop, leg.toStop? = some stop ∧ next.fromStop? = some stop
  ordered : legs.IsChain fun leg next => leg.toTime ≤ next.fromTime

/-! ## Neighbours -/

/-- A leg ends at a stop, and the next one starts at a stop. -/
def CanMeet (leg next : Leg) : Prop := leg.kind ≠ .egress ∧ next.kind ≠ .access

variable {index : Nat} {leg next : Leg} {legs : List Leg} {cost : Int}

theorem exists_toStop (h : leg.kind ≠ .egress) : ∃ stop, leg.toStop? = some stop := by
  cases leg with
  | access l | transit l | transfer l => exact ⟨l.toStop, rfl⟩
  | egress l => exact absurd rfl h

theorem exists_fromStop (h : leg.kind ≠ .access) : ∃ stop, leg.fromStop? = some stop := by
  cases leg with
  | access l => exact absurd rfl h
  | transit l | transfer l | egress l => exact ⟨l.fromStop, rfl⟩

/-- Neighbours are refused for the first rule that they break. -/
theorem errorOf?_checkPair (h : CanMeet leg next) :
    errorOf? (checkPair index leg next) = firstBroken (pairRules index leg next) := by
  obtain ⟨toStop, hto⟩ := exists_toStop h.1
  obtain ⟨fromStop, hfrom⟩ := exists_fromStop h.2
  have hafter : (next.isTransfer && !leg.isTransit) = true ↔
      ¬ (next.kind = .transfer → leg.kind = .transit) := by
    simp [Leg.isTransfer, Leg.isTransit]
  have hbefore : (leg.isTransfer && !next.isTransit) = true ↔
      ¬ (leg.kind = .transfer → next.kind = .transit) := by
    simp [Leg.isTransfer, Leg.isTransit]
  have hoverlap : next.fromTime < leg.toTime ↔ ¬ leg.toTime ≤ next.fromTime := by omega
  have hcheck : checkPair index leg next =
      if next.isTransfer && !leg.isTransit then .error (.invalid .transferNotAfterTransit)
      else if leg.isTransfer && !next.isTransit then .error (.invalid .transferNotBeforeTransit)
      else if toStop ≠ fromStop then .error (.disconnected index toStop fromStop)
      else if next.fromTime < leg.toTime then .error (.overlap index)
      else .ok () := by
    unfold checkPair Leg.toStop Leg.fromStop
    rw [hto, hfrom]
    rfl
  rw [hcheck, errorOf?_guard hafter, errorOf?_guard hbefore, errorOf?_guard Iff.rfl,
    errorOf?_guard hoverlap]
  simp only [pairRules, meetingRule, hto, hfrom, firstBroken_cons]
  rfl

theorem neighbourRules_cons_cons (index : Nat) (leg next : Leg) (rest : List Leg) :
    neighbourRules index (leg :: next :: rest) =
      pairRules index leg next ++ neighbourRules (index + 1) (next :: rest) := rfl

/-- Pairs are checked one after the other, and the first one that is refused counts. -/
theorem errorOf?_checkPairs (h : legs.IsChain CanMeet) :
    errorOf? (checkPairs index legs) = firstBroken (neighbourRules index legs) := by
  induction legs generalizing index with
  | nil => rfl
  | cons leg rest ih =>
      cases rest with
      | nil => rfl
      | cons next rest =>
          obtain ⟨hpair, hrest⟩ := List.isChain_cons_cons.mp h
          rw [neighbourRules_cons_cons, firstBroken_append, checkPairs, errorOf?_seq,
            errorOf?_checkPair hpair, ih hrest]

/-- Neighbours that keep all rules. -/
structure Joined (leg next : Leg) : Prop where
  after : next.kind = .transfer → leg.kind = .transit
  before : leg.kind = .transfer → next.kind = .transit
  meets : ∃ stop, leg.toStop? = some stop ∧ next.fromStop? = some stop
  ordered : leg.toTime ≤ next.fromTime

theorem meetingRule_eq_none_iff (h : CanMeet leg next) :
    meetingRule index leg next = none ↔
      ∃ stop, leg.toStop? = some stop ∧ next.fromStop? = some stop := by
  obtain ⟨toStop, hto⟩ := exists_toStop h.1
  obtain ⟨fromStop, hfrom⟩ := exists_fromStop h.2
  simp only [meetingRule, hto, hfrom, demand_eq_none_iff]
  constructor
  · rintro rfl
    exact ⟨toStop, rfl, rfl⟩
  · rintro ⟨stop, hstop, hstop'⟩
    cases hstop
    exact (Option.some.inj hstop').symm

theorem pairRules_kept_iff (h : CanMeet leg next) :
    (∀ r ∈ pairRules index leg next, r = none) ↔ Joined leg next := by
  simp only [pairRules, List.forall_mem_cons, demand_eq_none_iff, meetingRule_eq_none_iff h]
  constructor
  · rintro ⟨hafter, hbefore, hmeets, hordered, _⟩
    exact ⟨hafter, hbefore, hmeets, hordered⟩
  · rintro ⟨hafter, hbefore, hmeets, hordered⟩
    exact ⟨hafter, hbefore, hmeets, hordered, fun _ hnone => absurd hnone List.not_mem_nil⟩

theorem neighbourRules_kept_iff (h : legs.IsChain CanMeet) :
    (∀ r ∈ neighbourRules index legs, r = none) ↔ legs.IsChain Joined := by
  induction legs generalizing index with
  | nil => exact ⟨fun _ => .nil, fun _ r hr => absurd hr List.not_mem_nil⟩
  | cons leg rest ih =>
      cases rest with
      | nil => exact ⟨fun _ => .singleton leg, fun _ r hr => absurd hr List.not_mem_nil⟩
      | cons next rest =>
          obtain ⟨hpair, hrest⟩ := List.isChain_cons_cons.mp h
          rw [neighbourRules_cons_cons, List.forall_mem_append, pairRules_kept_iff hpair,
            ih hrest, List.isChain_cons_cons]

/-! ## The frame -/

/-- An access, other legs, and an egress. -/
def frame (first : AccessLeg) (middle : List Leg) (last : EgressLeg) : List Leg :=
  .access first :: (middle ++ [.egress last])

variable {first : AccessLeg} {middle : List Leg} {last : EgressLeg}

theorem eq_access (h : leg.kind = .access) : ∃ l, leg = .access l := by
  cases leg with
  | access l => exact ⟨l, rfl⟩
  | transit l | transfer l | egress l => cases h

theorem eq_transit {t : TransitLeg} (h : leg.transit? = some t) : leg = .transit t := by
  cases leg with
  | transit l => rw [Option.some.inj h]
  | access l | transfer l | egress l => cases h

theorem eq_transfer (h : leg.kind = .transfer) : ∃ l, leg = .transfer l := by
  cases leg with
  | transfer l => exact ⟨l, rfl⟩
  | access l | transit l | egress l => cases h

theorem eq_egress (h : leg.kind = .egress) : ∃ l, leg = .egress l := by
  cases leg with
  | egress l => exact ⟨l, rfl⟩
  | access l | transit l | transfer l => cases h

/-- Legs that begin with an access and end with an egress behind it. -/
theorem exists_frame (hfirst : legs.head?.map Leg.kind = some .access)
    (hlast : 1 < legs.length ∧ legs.getLast?.map Leg.kind = some .egress) :
    ∃ first middle last, legs = frame first middle last := by
  obtain ⟨hlong, hlast⟩ := hlast
  obtain ⟨leg, hhead, hkind⟩ := Option.map_eq_some_iff.mp hfirst
  obtain ⟨first, rfl⟩ := eq_access hkind
  obtain ⟨rest, rfl⟩ := List.head?_eq_some_iff.mp hhead
  rcases List.eq_nil_or_concat rest with rfl | ⟨middle, leg', rfl⟩
  · exact absurd hlong (Nat.lt_irrefl 1)
  · rw [List.concat_eq_append] at hlast ⊢
    obtain ⟨leg'', hend, hkind'⟩ := Option.map_eq_some_iff.mp hlast
    obtain ⟨last, rfl⟩ := eq_egress hkind'
    have hsame : leg' = .egress last := by
      simpa [List.getLast?_cons] using hend
    exact ⟨first, middle, last, by rw [hsame, frame]⟩

theorem head?_frame : (frame first middle last).head? = some (.access first) := rfl

theorem getLast?_frame : (frame first middle last).getLast? = some (.egress last) := by
  simp [frame, List.getLast?_cons]

theorem middle_frame : (frame first middle last).tail.dropLast = middle := by
  simp [frame]

theorem transit?_frame :
    (frame first middle last).filterMap Leg.transit? = middle.filterMap Leg.transit? := by
  have happend : (middle ++ [Leg.egress last]).filterMap Leg.transit? =
      middle.filterMap Leg.transit? ++ [] := List.filterMap_append
  exact happend.trans (List.append_nil _)

theorem exists_transit_frame :
    (∃ l ∈ frame first middle last, l.kind = .transit) ↔ ∃ l ∈ middle, l.kind = .transit := by
  simp [frame, Leg.kind]

/-- Within a frame, neighbours can always be asked whether they meet. -/
theorem isChain_canMeet {leg : Leg} (hleg : leg.kind ≠ .egress)
    (hmiddle : ∀ l ∈ middle, l.kind ≠ .access ∧ l.kind ≠ .egress) :
    (leg :: (middle ++ [.egress last])).IsChain CanMeet := by
  induction middle generalizing leg with
  | nil => exact .cons_cons ⟨hleg, nofun⟩ (.singleton _)
  | cons l rest ih =>
      obtain ⟨⟨hstarts, hends⟩, hrest⟩ := List.forall_mem_cons.mp hmiddle
      exact .cons_cons ⟨hleg, hstarts⟩ (ih hends hrest)

/-- Within a frame, the rules are looked at that are left. -/
theorem ofLegs_frame : ofLegs (frame first middle last) cost =
    match middleFlaw? middle with
    | some flaw => .error (.invalid flaw)
    | none => do
      checkPairs 0 (frame first middle last)
      return { legs := frame first middle last, access := first, egress := last, cost } := by
  unfold ofLegs
  cases hflaw : middleFlaw? middle with
  | some flaw => simp only [head?_frame, getLast?_frame, middle_frame, hflaw]
  | none => simp only [head?_frame, getLast?_frame, middle_frame, hflaw]

theorem middleFlaw?_eq (hlegs : legs = frame first middle last) :
    middleFlaw? middle = firstBroken (wholeRules legs) := by
  have hfirst : legs.head?.map Leg.kind = some .access := by
    rw [hlegs]
    rfl
  have hlast : 1 < legs.length ∧ legs.getLast?.map Leg.kind = some .egress := by
    rw [hlegs, getLast?_frame]
    exact ⟨by simp [frame], rfl⟩
  have hinside : (middle.any fun l => l.isAccess || l.isEgress) = true ↔
      ¬ ∀ l ∈ legs.tail.dropLast, l.kind ≠ .access ∧ l.kind ≠ .egress := by
    rw [hlegs, middle_frame]
    simp [Leg.isAccess, Leg.isEgress, or_iff_not_imp_left]
  have hride : (!middle.any Leg.isTransit) = true ↔ ¬ ∃ l ∈ legs, l.kind = .transit := by
    rw [hlegs, exists_transit_frame]
    simp [Leg.isTransit]
  have hforward : ((middle.filterMap Leg.transit?).any fun l =>
      decide (l.alightPosition ≤ l.boardPosition)) = true ↔
      ¬ ∀ t ∈ legs.filterMap Leg.transit?, t.boardPosition < t.alightPosition := by
    rw [hlegs, transit?_frame, List.any_eq_true]
    simp only [decide_eq_true_eq, not_forall, Nat.not_lt, exists_prop]
  unfold middleFlaw?
  rw [flaw_eq hinside, flaw_eq hride, flaw_eq hforward]
  simp only [wholeRules, firstBroken_cons, demand_of hfirst, demand_of hlast]
  rfl

theorem inside_of_no_flaw (h : middleFlaw? middle = none) :
    ∀ l ∈ middle, l.kind ≠ .access ∧ l.kind ≠ .egress := by
  intro l hl
  by_contra hkind
  have hany : (middle.any fun l => l.isAccess || l.isEgress) = true := by
    refine List.any_eq_true.mpr ⟨l, hl, ?_⟩
    simpa [Leg.isAccess, Leg.isEgress, or_iff_not_imp_left] using hkind
  unfold middleFlaw? at h
  rw [if_pos hany] at h
  cases h

theorem ofLegs_of_no_access (h : ¬ legs.head?.map Leg.kind = some .access) :
    ofLegs legs cost = .error (.invalid .firstNotAccess) := by
  unfold ofLegs
  split
  case h_1 access egress hhead hlast => exact absurd (by rw [hhead]; rfl) h
  case h_2 access hhead _ => exact absurd (by rw [hhead]; rfl) h
  case h_3 => rfl

/-- A single leg cannot be both of the ends. -/
theorem ofLegs_of_no_egress (hfirst : legs.head?.map Leg.kind = some .access)
    (hlast : ¬ (1 < legs.length ∧ legs.getLast?.map Leg.kind = some .egress)) :
    ofLegs legs cost = .error (.invalid .lastNotEgress) := by
  obtain ⟨leg, hhead, hkind⟩ := Option.map_eq_some_iff.mp hfirst
  obtain ⟨first, rfl⟩ := eq_access hkind
  obtain ⟨rest, rfl⟩ := List.head?_eq_some_iff.mp hhead
  unfold ofLegs
  split
  case h_1 access egress _ hend =>
    cases rest with
    | nil => cases hend
    | cons l rest => exact absurd ⟨by simp, by rw [hend]; rfl⟩ hlast
  case h_2 => rfl
  case h_3 _ _ hnone _ => exact absurd rfl (hnone first)

/-- Legs are refused for the first rule that they break. -/
theorem errorOf?_ofLegs (legs : List Leg) (cost : Int) :
    errorOf? (ofLegs legs cost) = firstBroken (rules legs) := by
  unfold rules
  rw [firstBroken_append, firstBroken_map]
  by_cases hfirst : legs.head?.map Leg.kind = some .access
  · by_cases hlast : 1 < legs.length ∧ legs.getLast?.map Leg.kind = some .egress
    · obtain ⟨first, middle, last, hlegs⟩ := exists_frame hfirst hlast
      rw [← middleFlaw?_eq hlegs, hlegs, ofLegs_frame]
      cases hmiddle : middleFlaw? middle with
      | some flaw => rfl
      | none =>
          have hchain : (frame first middle last).IsChain CanMeet :=
            isChain_canMeet nofun (inside_of_no_flaw hmiddle)
          rw [← errorOf?_checkPairs hchain]
          exact errorOf?_last _ _
    · rw [ofLegs_of_no_egress hfirst hlast]
      simp only [wholeRules, firstBroken_cons, demand_of hfirst, demand_of_not hlast]
      rfl
  · rw [ofLegs_of_no_access hfirst]
    simp only [wholeRules, firstBroken_cons, demand_of_not hfirst]
    rfl

/-! ## Legs that keep all rules -/

/-- In legs that are joined, a walk between the ends leads from a ride to a ride. -/
theorem transfers_of_joined (hjoined : (frame first middle last).IsChain Joined)
    {before after : List Leg} {walk : TransferLeg}
    (hsplit : frame first middle last = before ++ .transfer walk :: after) :
    before.getLast?.map Leg.kind = some .transit ∧ after.head?.map Leg.kind = some .transit := by
  have hneighbours := List.isChain_iff_forall_rel_of_append_cons_cons.mp hjoined
  constructor
  · rcases List.eq_nil_or_concat before with rfl | ⟨front, leg, rfl⟩
    · cases hsplit
    · have hpair : frame first middle last = front ++ leg :: .transfer walk :: after := by
        rw [hsplit]
        simp
      rw [List.concat_eq_append, List.getLast?_concat, Option.map_some,
        (hneighbours hpair).after rfl]
  · cases after with
    | nil =>
        -- the last leg is the egress
        have hlast : (frame first middle last).getLast? = some (.egress last) := getLast?_frame
        rw [hsplit, List.getLast?_concat] at hlast
        cases hlast
    | cons next back => rw [List.head?_cons, Option.map_some, (hneighbours hsplit).before rfl]

theorem WellFormed.exists_frame (h : WellFormed legs) :
    ∃ first middle last, legs = frame first middle last ∧
      ∀ l ∈ middle, l.kind ≠ .access ∧ l.kind ≠ .egress := by
  obtain ⟨first, rest, hlegs, hrest⟩ := h.access
  obtain ⟨rest', last, hlegs', hrest'⟩ := h.egress
  obtain ⟨first', middle, last', rfl⟩ := Itinerary.exists_frame (by rw [hlegs]; rfl)
    ⟨h.two, by rw [hlegs', List.getLast?_concat]; rfl⟩
  refine ⟨first', middle, last', rfl, fun l hl => ⟨?_, ?_⟩⟩
  · have htail : rest = middle ++ [.egress last'] := (List.cons.inj hlegs).2.symm
    exact hrest l (by rw [htail]; exact List.mem_append_left _ hl)
  · have hends : rest' ++ [.egress last] = (.access first' :: middle) ++ [.egress last'] :=
      hlegs'.symm
    have hfront : rest' = .access first' :: middle := (List.append_inj' hends rfl).1
    exact hrest' l (by rw [hfront]; exact List.mem_cons_of_mem _ hl)

/-- Well-formed legs are joined, pair by pair. -/
theorem WellFormed.isChain_joined (h : WellFormed legs) : legs.IsChain Joined := by
  have hmeets := List.isChain_iff_forall_rel_of_append_cons_cons.mp h.meets
  have hordered := List.isChain_iff_forall_rel_of_append_cons_cons.mp h.ordered
  rw [List.isChain_iff_forall_rel_of_append_cons_cons]
  intro leg next front back hsplit
  refine ⟨fun hkind => ?_, fun hkind => ?_, hmeets hsplit, hordered hsplit⟩
  · obtain ⟨walk, rfl⟩ := eq_transfer hkind
    have hsplit' : legs = (front ++ [leg]) ++ .transfer walk :: back := by
      rw [hsplit]
      simp
    obtain ⟨hbefore, _⟩ := h.transfers _ _ _ hsplit'
    rw [List.getLast?_concat] at hbefore
    exact Option.some.inj hbefore
  · obtain ⟨walk, rfl⟩ := eq_transfer hkind
    obtain ⟨_, hafter⟩ := h.transfers _ _ _ hsplit
    exact Option.some.inj hafter

/-- Legs within a frame that are joined, and have rides that lead forward, are well formed. -/
theorem wellFormed_of_joined (hinside : ∀ l ∈ middle, l.kind ≠ .access ∧ l.kind ≠ .egress)
    (hride : ∃ l ∈ frame first middle last, l.kind = .transit)
    (hforward : ∀ t ∈ (frame first middle last).filterMap Leg.transit?,
      t.boardPosition < t.alightPosition)
    (hjoined : (frame first middle last).IsChain Joined) :
    WellFormed (frame first middle last) where
  two := by simp [frame]
  access := by
    refine ⟨first, middle ++ [.egress last], rfl, fun l hl => ?_⟩
    rcases List.mem_append.mp hl with hl | hl
    · exact (hinside l hl).1
    · rw [List.mem_singleton.mp hl]
      exact nofun
  egress := by
    refine ⟨.access first :: middle, last, rfl, fun l hl => ?_⟩
    rcases List.mem_cons.mp hl with rfl | hl
    · exact nofun
    · exact (hinside l hl).2
  ride := hride
  forward t ht := hforward t (List.mem_filterMap.mpr ⟨.transit t, ht, rfl⟩)
  transfers _ _ _ hsplit := transfers_of_joined hjoined hsplit
  meets := hjoined.imp fun _ _ h => h.meets
  ordered := hjoined.imp fun _ _ h => h.ordered

/-- Legs keep all rules exactly if they are well formed. -/
theorem rules_kept_iff : firstBroken (rules legs) = none ↔ WellFormed legs := by
  have hwhole : firstBroken (rules legs) = none ↔
      (∀ r ∈ wholeRules legs, r = none) ∧ ∀ r ∈ neighbourRules 0 legs, r = none := by
    rw [rules, firstBroken_append, firstBroken_map, Option.or_eq_none_iff,
      Option.map_eq_none_iff, firstBroken_eq_none_iff, firstBroken_eq_none_iff]
  rw [hwhole]
  simp only [wholeRules, List.forall_mem_cons, demand_eq_none_iff]
  constructor
  · rintro ⟨⟨hfirst, hlast, hinside, hride, hforward, _⟩, hneighbours⟩
    obtain ⟨first, middle, last, rfl⟩ := exists_frame hfirst hlast
    rw [middle_frame] at hinside
    have hchain : (frame first middle last).IsChain CanMeet := isChain_canMeet nofun hinside
    exact wellFormed_of_joined hinside hride hforward
      ((neighbourRules_kept_iff hchain).mp hneighbours)
  · intro h
    obtain ⟨first, middle, last, rfl, hinside⟩ := h.exists_frame
    have hchain : (frame first middle last).IsChain CanMeet := isChain_canMeet nofun hinside
    refine ⟨⟨rfl, ⟨h.two, ?_⟩, ?_, h.ride, ?_, ?_⟩,
      (neighbourRules_kept_iff hchain).mpr h.isChain_joined⟩
    · rw [getLast?_frame]
      rfl
    · rw [middle_frame]
      exact hinside
    · intro t ht
      obtain ⟨leg, hleg, hride⟩ := List.mem_filterMap.mp ht
      rw [eq_transit hride] at hleg
      exact h.forward t hleg
    · exact fun _ hnone => absurd hnone List.not_mem_nil

/-! ## What is never reported -/

/-- The error is about a rule, not about a stop or a view that a leg does not have. -/
def OfRule : ItineraryError → Prop
  | .invalid _ | .disconnected .. | .overlap _ => True
  | .legKind .. | .noFromStop _ | .noToStop _ | .tripTimeNotFound .. => False

theorem ofRule_of_mem_pairRules {e : ItineraryError} (h : some e ∈ pairRules index leg next) :
    OfRule e := by
  simp only [pairRules, List.mem_cons, List.not_mem_nil, or_false] at h
  rcases h with h | h | h | h
  · obtain ⟨_, rfl⟩ := demand_eq_some_iff.mp h.symm
    trivial
  · obtain ⟨_, rfl⟩ := demand_eq_some_iff.mp h.symm
    trivial
  · unfold meetingRule at h
    split at h
    · obtain ⟨_, rfl⟩ := demand_eq_some_iff.mp h.symm
      trivial
    · cases h
  · obtain ⟨_, rfl⟩ := demand_eq_some_iff.mp h.symm
    trivial

theorem ofRule_of_firstBroken {e : ItineraryError} (h : firstBroken (rules legs) = some e) :
    OfRule e := by
  obtain ⟨kept, later, hrules, _⟩ := firstBroken_eq_some_iff.mp h
  have hbroken : some e ∈ rules legs := by
    rw [hrules]
    exact List.mem_append_right _ List.mem_cons_self
  rcases List.mem_append.mp hbroken with hmem | hmem
  · obtain ⟨r, _, hr⟩ := List.mem_map.mp hmem
    obtain ⟨flaw, _, rfl⟩ := Option.map_eq_some_iff.mp hr
    trivial
  · obtain ⟨pair, _, hpair⟩ := List.mem_flatMap.mp hmem
    exact ofRule_of_mem_pairRules hpair

/-! ## Stops -/

/-- Where legs meet, and the last one is the egress, the stops where legs end are those
where the next ones start. -/
theorem stops_of_meets
    (hmeets : legs.IsChain fun leg next =>
      ∃ stop, leg.toStop? = some stop ∧ next.fromStop? = some stop)
    (hlast : legs.getLast?.map Leg.kind = some .egress) :
    (legs.filterMap Leg.toStop?).map some = legs.dropLast.map Leg.toStop? ∧
      (legs.filterMap Leg.toStop?).map some = legs.tail.map Leg.fromStop? := by
  induction legs with
  | nil => exact ⟨rfl, rfl⟩
  | cons leg rest ih =>
      cases rest with
      | nil =>
          obtain ⟨l, rfl⟩ := eq_egress (Option.some.inj hlast)
          exact ⟨rfl, rfl⟩
      | cons next rest =>
          obtain ⟨⟨stop, hto, hfrom⟩, hchain⟩ := List.isChain_cons_cons.mp hmeets
          rw [List.getLast?_cons_cons] at hlast
          obtain ⟨hends, hstarts⟩ := ih hchain hlast
          rw [List.filterMap_cons_some hto, List.map_cons]
          constructor
          · rw [hends, ← hto]
            rfl
          · rw [hstarts, ← hfrom]
            rfl

/-- An itinerary of legs: what it is made of, and its stops. -/
structure Holds (i : Itinerary) (legs : List Leg) (cost : Int) : Prop where
  legs_eq : i.legs = legs
  cost_eq : i.cost = cost
  access : legs.head? = some (.access i.access)
  egress : legs.getLast? = some (.egress i.egress)
  count : i.stops.length + 1 = legs.length
  /-- A stop is where a leg ends. -/
  ends : i.stops.map some = legs.dropLast.map Leg.toStop?
  /-- It is where the leg behind that one starts. -/
  starts : i.stops.map some = legs.tail.map Leg.fromStop?

/-- Well-formed legs make an itinerary of just these legs. -/
theorem holds_of_ofLegs {i : Itinerary} (h : ofLegs legs cost = .ok i) (hlegs : WellFormed legs) :
    i.Holds legs cost := by
  obtain ⟨first, middle, last, rfl, _⟩ := hlegs.exists_frame
  have hi : i = { legs := frame first middle last, access := first, egress := last, cost } := by
    rw [ofLegs_frame] at h
    split at h
    · cases h
    · obtain ⟨_, _, h⟩ := bind_eq_ok_iff.mp h
      exact (Except.ok.inj h).symm
  have hlast : (frame first middle last).getLast?.map Leg.kind = some .egress := by
    rw [getLast?_frame]
    rfl
  obtain ⟨hends, hstarts⟩ := stops_of_meets hlegs.meets hlast
  rw [hi]
  refine ⟨rfl, rfl, rfl, getLast?_frame, ?_, hends, hstarts⟩
  have hcount := congrArg List.length hstarts
  simp only [List.length_map, List.length_tail] at hcount
  have htwo := hlegs.two
  show ((frame first middle last).filterMap Leg.toStop?).length + 1 = _
  omega

/-- Legs are accepted exactly if they are well formed. -/
theorem exists_ofLegs_iff : (∃ i, ofLegs legs cost = .ok i) ↔ WellFormed legs := by
  rw [← errorOf?_eq_none_iff, errorOf?_ofLegs, rules_kept_iff]

/-- Any legs are accepted exactly if they are well formed, and refused for the first of
the rules that they break. It is never a missing stop that they are refused for, and an
itinerary has one stop less than legs, where each leg but the last ends and the next one
starts. -/
theorem ofLegs_accepts_wellFormed (legs : List Leg) (cost : Int) :
    ((∃ i, ofLegs legs cost = .ok i) ↔ WellFormed legs) ∧
    (∀ e, ofLegs legs cost = .error e ↔ firstBroken (rules legs) = some e) ∧
    (∀ e, ofLegs legs cost = .error e → OfRule e) ∧
    ∀ i, ofLegs legs cost = .ok i → i.Holds legs cost := by
  have hrefused : ∀ e, ofLegs legs cost = .error e ↔ firstBroken (rules legs) = some e := by
    intro e
    rw [← errorOf?_eq_some_iff, errorOf?_ofLegs]
  refine ⟨exists_ofLegs_iff, hrefused, ?_, ?_⟩
  · intro e he
    exact ofRule_of_firstBroken ((hrefused e).mp he)
  · intro i hi
    exact holds_of_ofLegs hi (exists_ofLegs_iff.mp ⟨i, hi⟩)

/-- That there is no ride is noticed before a walk that is out of place, and that before
the stops and times, which do not fit either. -/
example : ofLegs [.access { fromTime := 0, toTime := 60, toStop := 1, cost := 60 },
    .transfer { fromStop := 2, toStop := 3, fromTime := 50, toTime := 90, cost := 40 },
    .egress { fromStop := 3, fromTime := 90, toTime := 99, cost := 9 }] 109 =
      .error (.invalid .noTransit) := by
  decide

end Itinerary

end Journey
