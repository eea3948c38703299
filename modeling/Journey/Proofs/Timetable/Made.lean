import Journey.Proofs.Timetable.LastWrite
import Journey.Proofs.Timetable.Requests
import Mathlib.Logic.Relation

/-!
# Trips that have been made

No trip comes from nowhere: it is built from stop times, and after that only
changes happen to it (`TripTimes.Made`). So it reflects its stop times and the
changes it accepted, and the moment it gets an overlay, the sum of each time and
the shift has been taken (`TripTimes.Copied`). It cannot move after that, so the
sums never need to be taken again.

Requests are genuine where they hand over such trips, and functions that do
nothing to a trip but change it (`Request.Genuine`). They keep it that all trips
of a timetable have been made (`Request.keeps_made`).
-/

namespace Journey

namespace TripTimes

/-- The second is what a change that was tried on the first has left of it. -/
def Next (t t' : TripTimes) : Prop :=
  ∃ (c : Change) (attempt : Attempt), c.run t = .ok attempt ∧ attempt.trip = t'

/-- The second is what some changes have left of the first. -/
def Becomes : TripTimes → TripTimes → Prop := Relation.ReflTransGen Next

/-- The times were built from stop times. Since then, at most changes have happened to them. -/
def Made (t : TripTimes) : Prop :=
  ∃ trip stops interner start interner',
    build trip stops interner = .ok (start, interner') ∧ start.Becomes t

variable {t t' : TripTimes}

theorem Becomes.refl (t : TripTimes) : t.Becomes t := Relation.ReflTransGen.refl

theorem Becomes.trans {t'' : TripTimes} (h : t.Becomes t') (h' : t'.Becomes t'') :
    t.Becomes t'' :=
  Relation.ReflTransGen.trans h h'

theorem becomes_of_run {c : Change} {attempt : Attempt} (h : c.run t = .ok attempt) :
    t.Becomes attempt.trip :=
  Relation.ReflTransGen.single ⟨c, attempt, h, rfl⟩

theorem Made.becomes (h : t.Made) (h' : t.Becomes t') : t'.Made := by
  obtain ⟨trip, stops, interner, start, interner', hbuild, hstart⟩ := h
  exact ⟨trip, stops, interner, start, interner', hbuild, hstart.trans h'⟩

end TripTimes

/-! ## What a trip that has been made is like -/

namespace TripTimes

variable {t : TripTimes} {stops : List StopTime} {accepted : List Change} {moved : Int}

/-- A schedule that has been copied is in range. -/
theorem Schedules.timesInRange_of_copy (h : t.Schedules stops moved) {o : Overlay}
    (hcopy : Overlay.ofSchedule t.baseArrivals.value t.baseDepartures.value t.timeShift
      t.pickups.value t.dropoffs.value = .ok o) : TimesInRange stops moved := by
  -- a sum that is in the column was in range when it was taken
  have hsum : ∀ {time : StopTime → Int} {column : List Int}, column.map Except.ok =
      (stops.map fun st => Checked.add (time st) moved) →
      ∀ st ∈ stops, InRange (time st + moved) := by
    intro time column hcolumn st hst
    have hmem : Checked.add (time st) moved ∈ column.map Except.ok := by
      rw [hcolumn]
      exact List.mem_map_of_mem hst
    obtain ⟨sum, _, hok⟩ := List.mem_map.mp hmem
    obtain ⟨hrange, rfl⟩ := Checked.add_eq_ok_iff.mp hok.symm
    exact hrange
  intro st hst
  exact ⟨hsum (h.column_ofSchedule hcopy .arrival) st hst,
    hsum (h.column_ofSchedule hcopy .departure) st hst⟩

/-- The trip reflects its stop times and what it accepted. If there is an overlay, it
was copied from times in range. -/
structure Copied (t : TripTimes) (stops : List StopTime) (accepted : List Change) : Prop where
  reflects : t.Reflects stops accepted
  inRange : t.overlay ≠ none → TimesInRange stops (movedBy stops accepted)

theorem Copied.timesInRange_of_materialize (h : t.Copied stops accepted) {t' : TripTimes}
    {o : Overlay} (hmaterialize : t.materialize = .ok (t', o)) :
    TimesInRange stops (movedBy stops accepted) := by
  rcases materialize_cases hmaterialize with ⟨hoverlay, _⟩ | ⟨_, _, hcopy⟩
  · exact h.inRange (by rw [hoverlay]; exact Option.some_ne_none o)
  · exact h.reflects.schedule.timesInRange_of_copy hcopy

theorem Copied.step {c : Change} {attempt : Attempt} (h : t.Copied stops accepted)
    (hdoes : c.Does t attempt) (haccepted : attempt.refusal = none) :
    attempt.trip.Copied stops (c :: accepted) := by
  refine ⟨h.reflects.step hdoes haccepted, ?_⟩
  cases hdoes with
  | refuse _ => cases haccepted
  | set hnone hsets hmaterialize _ =>
      intro _
      rw [hsets.movedBy_eq]
      exact h.timesInRange_of_materialize hmaterialize
  | move hnone _ =>
      -- only a trip without an overlay moves
      obtain ⟨hoverlay, _⟩ := shiftRefusal?_eq_none_iff.mp hnone
      intro hsome
      exact absurd hoverlay hsome
  | close _ hmaterialize =>
      intro _
      exact h.timesInRange_of_materialize hmaterialize
  | stay _ => exact h.inRange
  | code _ => exact h.inRange

theorem Copied.next {t' : TripTimes} (h : t.Copied stops accepted) (hnext : t.Next t') :
    ∃ accepted', t'.Copied stops accepted' := by
  obtain ⟨c, attempt, hrun, rfl⟩ := hnext
  have hdoes := Change.does_of_run hrun
  cases hrefusal : attempt.refusal with
  | none => exact ⟨c :: accepted, h.step hdoes hrefusal⟩
  | some reason =>
      rw [hdoes.trip_eq_of_refusal hrefusal]
      exact ⟨accepted, h⟩

theorem Made.copied (h : t.Made) : ∃ stops accepted, t.Copied stops accepted := by
  obtain ⟨trip, stops, interner, start, interner', hbuild, hbecomes⟩ := h
  refine ⟨stops, ?_⟩
  induction hbecomes with
  | refl =>
      have hreflects := reflects_of_build hbuild
      obtain ⟨_, _, hoverlay, _⟩ := schedules_of_build hbuild
      exact ⟨[], hreflects, fun hsome => absurd hoverlay hsome⟩
  | tail _ hnext ih =>
      obtain ⟨accepted, hcopied⟩ := ih
      exact hcopied.next hnext

end TripTimes

/-! ## Changing trips by changes alone -/

/-- What the function makes of a trip, if it is not refused, is what some changes make of it. -/
def Attempt.Changing (change : TripTimes → Checked Attempt) : Prop :=
  ∀ t attempt, change t = .ok attempt → attempt.refusal = none → t.Becomes attempt.trip

namespace Change

theorem changing_run (c : Change) : Attempt.Changing c.run :=
  fun _ _ hrun _ => TripTimes.becomes_of_run hrun

theorem changing_runAll (changes : List Change) : Attempt.Changing (runAll changes) := by
  intro t attempt hrun haccepted
  induction changes generalizing t with
  | nil =>
      cases hrun
      exact .refl _
  | cons c changes ih =>
      obtain ⟨first, hfirst, hrun⟩ := bind_eq_ok_iff.mp hrun
      have hbecomes := TripTimes.becomes_of_run hfirst
      cases hrefusal : first.refusal with
      | none =>
          rw [hrefusal] at hrun
          exact hbecomes.trans (ih first.trip hrun)
      | some reason =>
          rw [hrefusal] at hrun
          cases hrun
          cases hrefusal.symm.trans haccepted

end Change

/-! ## Requests -/

/-- All trips have been made. -/
def Entries.Made (entries : Entries) : Prop := ∀ p ∈ entries, p.2.times.value.Made

namespace Request

/-- A trip that is added has been made, and the function of an update does nothing to a
trip but change it. -/
def Genuine : Request → Prop
  | add _ times => times.Made
  | update _ change => Attempt.Changing change
  | cancel _ => True

theorem Does.made {b : Builder} {r : Request} {result : UpdateAttempt} (h : Does b r result)
    (hr : r.Genuine) (hmade : b.entries.Made) : result.builder.entries.Made := by
  have hput : ∀ {id : TripId} {entry : Entry}, entry.times.value.Made →
      (Entries.put id entry b.entries).Made := by
    intro id entry hentry p hp
    rcases Entries.mem_put hp with ⟨_, heq⟩ | hold
    · rw [heq]
      exact hentry
    · exact hmade p hold
  induction h with
  | duplicate | addBackwards | mismatch | unknown | failed | backwards => exact hmade
  | add => exact hput hr
  | update hheld hchange hrefusal _ =>
      obtain ⟨tag, hmem⟩ := Entries.mem_of_held hheld
      have htimes := hmade _ hmem
      exact hput (htimes.becomes (hr _ _ hchange hrefusal))
  | cancel _ ih => exact ih (Change.changing_run .cancel)

theorem keeps_made {r : Request} (hr : r.Genuine) : r.Keeps Entries.Made :=
  fun _ _ hmade hdoes => hdoes.made hr hmade

end Request

end Journey
