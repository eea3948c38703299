import Journey.Proofs.Timetable.History
import Journey.Proofs.Timetable.Legible

/-!
# The timeline of a trip

The times of a trip are in order when its timeline is: arrival and departure at the
first stop, arrival and departure at the second, and so on to the end. The check looks
at one stop after the other, each time with the departure from the stop before.

**Statement** (`firstViolation_decides`): of every trip that has been made and can be
read, this finds out whether the timeline is in order, and so whether any stop is left
no later than any later one is reached. If it is not, the first stop is named at which
times go backwards, and of the two ways in which they can, the dwell comes first. A
canceled trip is always in order.
-/

namespace Journey

/-- What is read at a stop: when the trip gets there and when it leaves. -/
structure Halt where
  arrival : Int
  departure : Int
  deriving DecidableEq, Repr

/-- All times of a trip, in the order of its stops. -/
def timeline (halts : List Halt) : List Int := halts.flatMap fun h => [h.arrival, h.departure]

/-- The departure from the stop before. -/
def departureBefore (halts : List Halt) : Nat → Option Int
  | 0 => none
  | stop + 1 => halts[stop]?.map (·.departure)

/-- The times go backwards at this stop, in this way. -/
def ViolationKind.OccursAt (halts : List Halt) (stop : Nat) : ViolationKind → Prop
  | .negativeDwell => ∃ h, halts[stop]? = some h ∧ h.departure < h.arrival
  | .negativeRunning => ∃ h left, halts[stop]? = some h ∧
      departureBefore halts stop = some left ∧ h.arrival < left

namespace ViolationKind

variable {halts : List Halt} {stop : Nat} {h : Halt}

theorem OccursAt.lt_length {kind : ViolationKind} (hoccurs : kind.OccursAt halts stop) :
    stop < halts.length := by
  cases kind with
  | negativeDwell =>
      obtain ⟨_, hstop, _⟩ := hoccurs
      exact (List.getElem?_eq_some_iff.mp hstop).1
  | negativeRunning =>
      obtain ⟨_, _, hstop, _⟩ := hoccurs
      exact (List.getElem?_eq_some_iff.mp hstop).1

theorem occursAt_dwell_iff (hstop : halts[stop]? = some h) :
    negativeDwell.OccursAt halts stop ↔ h.departure < h.arrival := by
  simp [OccursAt, hstop]

theorem occursAt_running_iff (hstop : halts[stop]? = some h) :
    negativeRunning.OccursAt halts stop ↔
      (departureBefore halts stop).any fun left => h.arrival < left := by
  simp [OccursAt, hstop, Option.any_eq_true]

end ViolationKind

namespace TripTimes

def halt (t : TripTimes) (stop : Nat) : Checked Halt := do
  let arrival ← t.arrival stop
  let departure ← t.departure stop
  return { arrival, departure }

/-- Read a trip stop by stop. -/
def halts (t : TripTimes) : Checked (List Halt) := (List.range t.stopCount).mapM t.halt

variable {t : TripTimes} {halts : List Halt} {bound : Option Int} {stop : Nat} {stops : List Nat}

theorem halt_eq_ok_iff {h : Halt} :
    t.halt stop = .ok h ↔ t.arrival stop = .ok h.arrival ∧ t.departure stop = .ok h.departure := by
  unfold halt
  rw [bind_eq_ok_iff]
  constructor
  · rintro ⟨a, ha, hrest⟩
    obtain ⟨d, hd, hrest⟩ := bind_eq_ok_iff.mp hrest
    cases hrest
    exact ⟨ha, hd⟩
  · rintro ⟨ha, hd⟩
    exact ⟨_, ha, bind_eq_ok_iff.mpr ⟨_, hd, rfl⟩⟩

theorem halts_eq_ok_iff :
    t.halts = .ok halts ↔
      List.Forall₂ (fun stop h => t.halt stop = .ok h) (List.range t.stopCount) halts := by
  unfold TripTimes.halts
  rw [mapM_eq_ok_iff, ← List.forall₂_eq_eq_eq, List.forall₂_map_left_iff,
    List.forall₂_map_right_iff]

/-- The stops that are read are those that the trip has. -/
theorem getElem?_of_halts (hread : t.halts = .ok halts) :
    halts.length = t.stopCount ∧
      ∀ stop < t.stopCount, ∃ h, halts[stop]? = some h ∧ t.halt stop = .ok h := by
  have hmap := mapM_eq_ok_iff.mp hread
  refine ⟨by simpa using (congrArg List.length hmap).symm, fun stop hlt => ?_⟩
  have hstop := congrArg (·[stop]?) hmap
  simp only [List.getElem?_map, List.getElem?_range hlt, Option.map_some] at hstop
  obtain ⟨h, hh, heq⟩ := Option.map_eq_some_iff.mp hstop.symm
  exact ⟨h, hh, heq.symm⟩

/-! ## One stop -/

theorem violationFrom_cons_eq :
    t.violationFrom bound (stop :: stops) = t.halt stop >>= fun h =>
      if h.departure < h.arrival then .ok (some { stop, kind := .negativeDwell })
      else if bound.any fun p => h.arrival < p then .ok (some { stop, kind := .negativeRunning })
      else t.violationFrom (some h.departure) stops := by
  rw [violationFrom, halt]
  cases t.arrival stop with
  | error f => rfl
  | ok a =>
      cases t.departure stop with
      | error f => rfl
      | ok d => rfl

theorem violationFrom_cons_of_halt {h : Halt} (hread : t.halt stop = .ok h) :
    t.violationFrom bound (stop :: stops) =
      if h.departure < h.arrival then .ok (some { stop, kind := .negativeDwell })
      else if bound.any fun p => h.arrival < p then .ok (some { stop, kind := .negativeRunning })
      else t.violationFrom (some h.departure) stops := by
  rw [violationFrom_cons_eq, hread]
  rfl

/-! ## Order -/

theorem timeline_cons (h : Halt) (rest : List Halt) :
    timeline (h :: rest) = h.arrival :: h.departure :: timeline rest := rfl

/-- Nothing is found exactly where the timeline, with the departure before it, is in order. -/
theorem violationFrom_eq_none_iff
    (hread : List.Forall₂ (fun stop h => t.halt stop = .ok h) stops halts) :
    t.violationFrom bound stops = .ok none ↔ (bound.toList ++ timeline halts).IsChain (· ≤ ·) := by
  induction hread generalizing bound with
  | nil =>
      refine ⟨fun _ => ?_, fun _ => rfl⟩
      cases bound with
      | none => exact .nil
      | some p => exact .singleton p
  | @cons stop h stops halts hhalt _ ih =>
      obtain ⟨ha, hd⟩ := halt_eq_ok_iff.mp hhalt
      have hchain : (bound.toList ++ timeline (h :: halts)).IsChain (· ≤ ·) ↔
          (∀ p ∈ bound, p ≤ h.arrival) ∧ h.arrival ≤ h.departure ∧
            ((some h.departure).toList ++ timeline halts).IsChain (· ≤ ·) := by
        rw [timeline_cons]
        cases bound with
        | none => simp
        | some p => simp
      rw [hchain, ← ih]
      constructor
      · intro hnone
        obtain ⟨a, d, ha', hd', hdwell, hbound, hrest⟩ := violationFrom_cons hnone
        obtain rfl : h.arrival = a := Except.ok.inj (ha.symm.trans ha')
        obtain rfl : h.departure = d := Except.ok.inj (hd.symm.trans hd')
        exact ⟨hbound, hdwell, hrest⟩
      · rintro ⟨hbound, hdwell, hrest⟩
        rw [violationFrom_cons_of_le ha hd hdwell hbound]
        exact hrest

/-- A trip in order leaves no stop before it gets there. -/
theorem halt_of_ordered (hread : t.halts = .ok halts) (hordered : t.firstViolation = .ok none)
    {h : Halt} (hstop : halts[stop]? = some h) :
    t.arrival stop = .ok h.arrival ∧ t.departure stop = .ok h.departure ∧
      h.arrival ≤ h.departure := by
  obtain ⟨hlength, hhalts⟩ := getElem?_of_halts hread
  have hlt : stop < t.stopCount := by
    rw [← hlength]
    exact (List.getElem?_eq_some_iff.mp hstop).1
  obtain ⟨_, hstop', hhalt⟩ := hhalts stop hlt
  obtain rfl := Option.some.inj (hstop.symm.trans hstop')
  obtain ⟨harrival, hdeparture⟩ := halt_eq_ok_iff.mp hhalt
  obtain ⟨a, d, ha, hd, hdwell, _⟩ :=
    (ordered_of_violationFrom hordered).1 stop (List.mem_range.mpr hlt)
  cases harrival.symm.trans ha
  cases hdeparture.symm.trans hd
  exact ⟨harrival, hdeparture, hdwell⟩

/-! ## The first violation -/

/-- The answer is right about the stops from one on. -/
inductive FirstFrom (halts : List Halt) (first : Nat) : Option TimeViolation → Prop
  | none : (∀ stop kind, first ≤ stop → ¬ ViolationKind.OccursAt halts stop kind) →
      FirstFrom halts first none
  | some {v : TimeViolation} : first ≤ v.stop → v.kind.OccursAt halts v.stop →
      (∀ stop kind, first ≤ stop → stop < v.stop → ¬ ViolationKind.OccursAt halts stop kind) →
      (ViolationKind.negativeDwell.OccursAt halts v.stop → v.kind = .negativeDwell) →
      FirstFrom halts first (some v)

theorem FirstFrom.unique {first : Nat} {answer answer' : Option TimeViolation}
    (h : FirstFrom halts first answer) (h' : FirstFrom halts first answer') : answer = answer' := by
  cases h with
  | none hnone =>
      cases h' with
      | none _ => rfl
      | some hle hoccurs _ _ => exact absurd hoccurs (hnone _ _ hle)
  | @some v hle hoccurs hbefore hdwell =>
      cases h' with
      | none hnone => exact absurd hoccurs (hnone _ _ hle)
      | @some v' hle' hoccurs' hbefore' hdwell' =>
          have hstop : v.stop = v'.stop := by
            rcases Nat.lt_trichotomy v.stop v'.stop with hlt | heq | hlt
            · exact absurd hoccurs (hbefore' _ _ hle hlt)
            · exact heq
            · exact absurd hoccurs' (hbefore _ _ hle' hlt)
          have hkind : v.kind = v'.kind := by
            cases hk : v.kind with
            | negativeDwell =>
                rw [hk, hstop] at hoccurs
                exact (hdwell' hoccurs).symm
            | negativeRunning =>
                cases hk' : v'.kind with
                | negativeDwell =>
                    rw [hk', ← hstop] at hoccurs'
                    exact hk.symm.trans (hdwell hoccurs')
                | negativeRunning => rfl
          cases v
          cases v'
          cases hstop
          cases hkind
          rfl

theorem FirstFrom.of_succ {first : Nat} {answer : Option TimeViolation}
    (hquiet : ∀ kind, ¬ ViolationKind.OccursAt halts first kind)
    (h : FirstFrom halts (first + 1) answer) : FirstFrom halts first answer := by
  have hlater : ∀ {stop kind}, ViolationKind.OccursAt halts stop kind → first ≤ stop →
      first + 1 ≤ stop := by
    intro stop kind hoccurs hle
    rcases Nat.eq_or_lt_of_le hle with rfl | hlt
    · exact absurd hoccurs (hquiet kind)
    · exact hlt
  cases h with
  | none hnone =>
      exact .none fun stop kind hle hoccurs => hnone stop kind (hlater hoccurs hle) hoccurs
  | some hle hoccurs hbefore hdwell =>
      refine .some (Nat.le_of_succ_le hle) hoccurs ?_ hdwell
      exact fun stop kind hle hlt hoccurs =>
        hbefore stop kind (hlater hoccurs hle) hlt hoccurs

/-- The first stop that is looked at can be the answer. -/
theorem firstFrom_of_occursAt {kind : ViolationKind} (hoccurs : kind.OccursAt halts stop)
    (hdwell : ViolationKind.negativeDwell.OccursAt halts stop → kind = .negativeDwell) :
    FirstFrom halts stop (some { stop, kind }) :=
  .some (Nat.le_refl stop) hoccurs (fun _ _ hle hlt => absurd hle (Nat.not_le.mpr hlt)) hdwell

/-- From any stop on, the answer is right. The departure from the stop before is the bound. -/
theorem firstFrom_of_halts (hread : t.halts = .ok halts) {first count : Nat}
    (hcount : first + count = t.stopCount) :
    ∃ answer, t.violationFrom (departureBefore halts first) (List.range' first count) = .ok answer ∧
      FirstFrom halts first answer := by
  obtain ⟨hlength, hhalts⟩ := getElem?_of_halts hread
  induction count generalizing first with
  | zero =>
      refine ⟨none, rfl, .none fun stop kind hle hoccurs => ?_⟩
      have hlt := hoccurs.lt_length
      omega
  | succ count ih =>
      obtain ⟨h, hstop, hhalt⟩ := hhalts first (by omega)
      rw [List.range'_succ, violationFrom_cons_of_halt hhalt]
      by_cases hdwell : h.departure < h.arrival
      · rw [if_pos hdwell]
        have hoccurs := (ViolationKind.occursAt_dwell_iff hstop).mpr hdwell
        exact ⟨_, rfl, firstFrom_of_occursAt hoccurs fun _ => rfl⟩
      have hnodwell := mt (ViolationKind.occursAt_dwell_iff hstop).mp hdwell
      rw [if_neg hdwell]
      by_cases hrunning : (departureBefore halts first).any fun left => h.arrival < left
      · rw [if_pos hrunning]
        have hoccurs := (ViolationKind.occursAt_running_iff hstop).mpr hrunning
        exact ⟨_, rfl, firstFrom_of_occursAt hoccurs fun hoccurs' => absurd hoccurs' hnodwell⟩
      have hnorunning := mt (ViolationKind.occursAt_running_iff hstop).mp hrunning
      rw [if_neg hrunning]
      have hquiet : ∀ kind, ¬ ViolationKind.OccursAt halts first kind := by
        intro kind
        cases kind with
        | negativeDwell => exact hnodwell
        | negativeRunning => exact hnorunning
      have hcount' : first + 1 + count = t.stopCount := by omega
      obtain ⟨answer, hanswer, hrest⟩ := ih hcount'
      rw [departureBefore, hstop] at hanswer
      exact ⟨answer, hanswer, hrest.of_succ hquiet⟩

/-! ## Reading -/

/-- Only a time by schedule can be out of range when it is read. -/
theorem Reflects.value_ends {built : List StopTime} {accepted : List Change}
    (h : t.Reflects built accepted) (hlt : stop < t.stopCount) (f : StopField) :
    Ends (fun _ => True) (Fault.OverflowsUnless (t.overlay ≠ none)) (t.value f stop) := by
  cases hoverlay : t.overlay with
  | some o =>
      have hcolumn : stop < (o.column f).length := by
        rw [h.length_column hoverlay]
        exact hlt
      have hget := Checked.get_eq_ok_iff.mpr (List.getElem?_eq_getElem hcolumn)
      unfold value
      rw [hoverlay]
      exact Ends.of_ok hget trivial
  | none =>
      rw [h.schedule.stopCount_eq] at hlt
      rw [h.value_of_overlay_none hoverlay (List.getElem?_eq_getElem hlt) f]
      cases f with
      | arrival => exact ((Checked.add_exactly _ _).unless fun hne => absurd rfl hne).forget
      | departure => exact ((Checked.add_exactly _ _).unless fun hne => absurd rfl hne).forget
      | _ => trivial

theorem Made.halts_ends (hmade : t.Made) :
    Ends (fun halts => t.halts = .ok halts) (Fault.OverflowsUnless (t.overlay ≠ none)) t.halts := by
  obtain ⟨built, accepted, hcopied⟩ := hmade.copied
  refine Ends.of_forall ?_ fun _ hread => hread
  have hhalt : ∀ stop ∈ List.range t.stopCount,
      Ends (fun _ => True) (Fault.OverflowsUnless (t.overlay ≠ none)) (t.halt stop) := by
    intro stop hstop
    have hvalue := hcopied.reflects.value_ends (List.mem_range.mp hstop)
    exact (hvalue .arrival).bind fun _ _ => (hvalue .departure).bind fun _ _ => trivial
  exact (Ends.mapM hhalt).forget

/-! ## Statement -/

theorem firstViolation_decides (hmade : t.Made) :
    (t.isCanceled = true → t.firstViolation = .ok none) ∧
    Ends (fun halts => halts.length = t.stopCount ∧
        (∃ answer, t.firstViolation = .ok answer) ∧
        (t.firstViolation = .ok none ↔ (timeline halts).IsChain (· ≤ ·)) ∧
        (t.firstViolation = .ok none → ∀ (i j : Nat) (before after : Halt), i < j →
          halts[i]? = some before → halts[j]? = some after →
          before.departure ≤ after.arrival ∧ before.arrival ≤ after.departure) ∧
        ∀ v, t.firstViolation = .ok (some v) ↔
          v.kind.OccursAt halts v.stop ∧
          (∀ stop < v.stop, ∀ kind, ¬ ViolationKind.OccursAt halts stop kind) ∧
          (ViolationKind.negativeDwell.OccursAt halts v.stop → v.kind = .negativeDwell))
      (Fault.OverflowsUnless (t.overlay ≠ none)) t.halts := by
  constructor
  · intro hcanceled
    exact (hmade.closed (beq_iff_eq.mp hcanceled)).firstViolation_eq
  refine hmade.halts_ends.mono ?_ fun _ he => he
  intro halts hread
  obtain ⟨hlength, hhalts⟩ := getElem?_of_halts hread
  obtain ⟨answer, hanswer, hfirst⟩ := firstFrom_of_halts hread (Nat.zero_add t.stopCount)
  rw [← List.range_eq_range'] at hanswer
  have hanswer : t.firstViolation = .ok answer := hanswer
  refine ⟨hlength, ⟨answer, hanswer⟩, violationFrom_eq_none_iff (halts_eq_ok_iff.mp hread), ?_, ?_⟩
  · intro hordered i j before after hlt hbefore hafter
    obtain ⟨hi, _⟩ := List.getElem?_eq_some_iff.mp hbefore
    obtain ⟨hj, _⟩ := List.getElem?_eq_some_iff.mp hafter
    rw [hlength] at hi hj
    obtain ⟨harrival, hdeparture, hdwell⟩ := halt_of_ordered hread hordered hbefore
    obtain ⟨harrival', hdeparture', hdwell'⟩ := halt_of_ordered hread hordered hafter
    have hride := departure_le_arrival hordered hlt hj hdeparture harrival'
    exact ⟨hride, by omega⟩
  · intro v
    rw [hanswer, Except.ok.injEq]
    constructor
    · rintro rfl
      cases hfirst with
      | some _ hoccurs hbefore hdwell =>
          exact ⟨hoccurs, fun stop hlt kind => hbefore stop kind (Nat.zero_le stop) hlt, hdwell⟩
    · rintro ⟨hoccurs, hbefore, hdwell⟩
      exact hfirst.unique
        (.some (Nat.zero_le _) hoccurs (fun stop kind _ hlt => hbefore stop hlt kind) hdwell)

/-- The crossing leaves late and is forecast to get to its call after it has left there,
but before it has left the first stop. -/
def confusion : List Change := [.departureTime 0 36800, .arrivalTime 1 36780]

/-- At the call times go backwards in both ways. The dwell is what is reported. -/
theorem confusion_reports_dwell :
    ∃ start interner attempt canceled, build { id := "F" } crossing {} = .ok (start, interner) ∧
      Change.runAll confusion start = .ok attempt ∧
      ViolationKind.negativeRunning.OccursAt
        [⟨36000, 36800⟩, ⟨36780, 36660⟩, ⟨37200, 37200⟩] 1 ∧
      attempt.trip.firstViolation = .ok (some { stop := 1, kind := .negativeDwell }) ∧
      Change.cancel.run attempt.trip = .ok canceled ∧
      canceled.trip.firstViolation = .ok none := by
  have hruns : ∃ start interner attempt canceled,
      build { id := "F" } crossing {} = .ok (start, interner) ∧
      Change.runAll confusion start = .ok attempt ∧ attempt.refusal = none ∧
      attempt.trip.halts = .ok [⟨36000, 36800⟩, ⟨36780, 36660⟩, ⟨37200, 37200⟩] ∧
      Change.cancel.run attempt.trip = .ok canceled ∧ canceled.trip.isCanceled = true :=
    ⟨_, _, _, _, rfl, rfl, rfl, rfl, rfl, rfl⟩
  obtain ⟨start, interner, attempt, canceled, hbuild, hrun, haccepted, hread, hcancel, hcanceled⟩ :=
    hruns
  have hstart : start.Made := ⟨_, _, _, start, interner, hbuild, .refl start⟩
  have hmade := hstart.becomes (Change.changing_runAll _ _ _ hrun haccepted)
  have hends := (firstViolation_decides hmade).2
  rw [hread] at hends
  obtain ⟨_, _, _, _, hreports⟩ := hends
  have hrunning : ViolationKind.negativeRunning.OccursAt
      [⟨36000, 36800⟩, ⟨36780, 36660⟩, ⟨37200, 37200⟩] 1 := ⟨_, _, rfl, rfl, by decide⟩
  refine ⟨start, interner, attempt, canceled, hbuild, hrun, hrunning,
    (hreports _).mpr ⟨⟨_, rfl, by decide⟩, ?_, fun _ => rfl⟩, hcancel,
    (firstViolation_decides (hmade.becomes (becomes_of_run hcancel))).1 hcanceled⟩
  -- nothing comes before the first stop
  intro stop hstop kind hoccurs
  obtain rfl : stop = 0 := Nat.lt_one_iff.mp hstop
  cases kind with
  | negativeDwell =>
      obtain ⟨_, ⟨⟩, hlt⟩ := hoccurs
      exact absurd hlt (by decide)
  | negativeRunning =>
      obtain ⟨_, _, _, hleft, _⟩ := hoccurs
      cases hleft

end TripTimes

end Journey
