import Journey.Proofs.Timetable.Lifecycle
import Journey.Proofs.Timetable.Made

/-!
# The history of a trip

**Statement** (`precedes_of_runAll`): where the writers change trips by nothing
but changes, a trip that is in a version of the timetable is in every later one,
on the same pattern, and has not gone back:

* from as scheduled to updated to canceled, it only goes forward
  (`Realtime.stage`);
* a canceled trip stays canceled, with every time unavailable at every stop;
* from the first realtime data on, its schedule does not move any more.

What one change can do is read off the cases of `Change.Does`
(`Reflects.precedes`). A session may make any number of them, and drop what came
of them: what one version holds becomes what the next one holds by changes
(`Held.Continues`), and all of them go the same way.
-/

namespace Journey

/-- How far the life of a trip has come. -/
def Realtime.stage : Realtime → Nat
  | scheduled => 0
  | updated => 1
  | canceled => 2

theorem Realtime.stage_le_two (r : Realtime) : r.stage ≤ 2 := by
  cases r <;> decide

theorem Realtime.stage_pos {r : Realtime} (h : r ≠ .scheduled) : 0 < r.stage := by
  cases r with
  | scheduled => exact absurd rfl h
  | updated => decide
  | canceled => decide

namespace TripTimes

/-- Nothing has gone back since then. -/
structure Precedes (t t' : TripTimes) : Prop where
  stage : t.realtime.stage ≤ t'.realtime.stage
  schedule : t.realtime ≠ .scheduled → ∀ stop,
    t'.scheduledArrival stop = t.scheduledArrival stop ∧
      t'.scheduledDeparture stop = t.scheduledDeparture stop

variable {t t' t'' : TripTimes} {stops : List StopTime} {accepted : List Change}

theorem Precedes.refl (t : TripTimes) : t.Precedes t :=
  ⟨Nat.le_refl _, fun _ _ => ⟨rfl, rfl⟩⟩

theorem Precedes.scheduled_of_scheduled (h : t.Precedes t') (hscheduled : t'.realtime = .scheduled) :
    t.realtime = .scheduled := by
  by_contra hpast
  have hpos := Realtime.stage_pos hpast
  have hle := h.stage
  rw [hscheduled] at hle
  exact absurd hle (Nat.not_le.mpr hpos)

theorem Precedes.trans (h : t.Precedes t') (h' : t'.Precedes t'') : t.Precedes t'' where
  stage := Nat.le_trans h.stage h'.stage
  schedule := by
    intro hpast stop
    obtain ⟨harrival, hdeparture⟩ := h.schedule hpast stop
    have hpast' : t'.realtime ≠ .scheduled := mt h.scheduled_of_scheduled hpast
    obtain ⟨harrival', hdeparture'⟩ := h'.schedule hpast' stop
    exact ⟨harrival'.trans harrival, hdeparture'.trans hdeparture⟩

theorem Precedes.canceled (h : t.Precedes t') (hcanceled : t.realtime = .canceled) :
    t'.realtime = .canceled := by
  have hle := h.stage
  rw [hcanceled] at hle
  cases hrealtime : t'.realtime with
  | scheduled =>
      rw [hrealtime] at hle
      exact absurd hle (by decide)
  | updated =>
      rw [hrealtime] at hle
      exact absurd hle (by decide)
  | canceled => rfl

/-! ## Changes -/

/-- An overlay is laid over the schedule, which stays as it is. -/
theorem schedule_of_materialize {o : Overlay} (h : t.materialize = .ok (t', o)) (stop : Nat) :
    t'.scheduledArrival stop = t.scheduledArrival stop ∧
      t'.scheduledDeparture stop = t.scheduledDeparture stop := by
  rcases materialize_cases h with ⟨_, rfl⟩ | ⟨_, rfl, _⟩
  · exact ⟨rfl, rfl⟩
  · exact ⟨rfl, rfl⟩

theorem stage_le_one (h : t.isCanceled = false) : t.realtime.stage ≤ 1 := by
  unfold isCanceled at h
  cases hrealtime : t.realtime with
  | scheduled => decide
  | updated => decide
  | canceled =>
      rw [hrealtime] at h
      cases h

/-- No change takes a trip back. -/
theorem Reflects.precedes (h : t.Reflects stops accepted) {c : Change} {attempt : Attempt}
    (hdoes : c.Does t attempt) : t.Precedes attempt.trip := by
  cases hdoes with
  | refuse _ => exact .refl t
  | @set _ f stop value t' o hnone hsets hmaterialize _ =>
      rw [Change.refusal?_of_stop? hsets.stop?, writeRefusal?_eq_none_iff] at hnone
      obtain ⟨_, _, hupdated⟩ := h.materialize hmaterialize
      have hrealtime : t'.realtime = .updated := hupdated hnone.1
      have hschedule := schedule_of_materialize hmaterialize
      refine ⟨?_, fun _ => hschedule⟩
      show t.realtime.stage ≤ t'.realtime.stage
      rw [hrealtime]
      exact stage_le_one hnone.1
  | move hnone _ =>
      -- a trip that moves is as scheduled
      obtain ⟨hoverlay, _⟩ := shiftRefusal?_eq_none_iff.mp hnone
      have hscheduled : t.realtime = .scheduled := h.scheduled_iff.mpr hoverlay
      exact ⟨Nat.le_refl _, fun hpast => absurd hscheduled hpast⟩
  | close _ hmaterialize =>
      have hschedule := schedule_of_materialize hmaterialize
      exact ⟨t.realtime.stage_le_two, fun _ => hschedule⟩
  | stay _ => exact .refl t
  | code _ => exact ⟨Nat.le_refl _, fun _ _ => ⟨rfl, rfl⟩⟩

theorem Made.precedes (hmade : t.Made) (h : t.Becomes t') : t.Precedes t' := by
  induction h with
  | refl => exact .refl t
  | tail hearlier hnext ih =>
      obtain ⟨c, attempt, hrun, rfl⟩ := hnext
      obtain ⟨stops, accepted, hcopied⟩ := (hmade.becomes hearlier).copied
      exact ih.trans (hcopied.reflects.precedes (Change.does_of_run hrun))

theorem Made.closed (hmade : t.Made) (hcanceled : t.realtime = .canceled) : t.Closed := by
  obtain ⟨stops, accepted, hcopied⟩ := hmade.copied
  exact hcopied.reflects.closed_of_canceled (beq_iff_eq.mpr hcanceled)

end TripTimes

/-! ## Requests -/

/-- What was held is still held, on the same pattern, and at most changes have happened to it. -/
def Held.Continues (held held' : Held) : Prop :=
  ∀ id pattern times, held id = some (pattern, times) →
    ∃ times', held' id = some (pattern, times') ∧ times.Becomes times'

theorem Held.Continues.refl (held : Held) : held.Continues held :=
  fun _ _ times h => ⟨times, h, .refl times⟩

theorem Held.Continues.trans {held held' held'' : Held} (h : held.Continues held')
    (h' : held'.Continues held'') : held.Continues held'' := by
  intro id pattern times hheld
  obtain ⟨times', hheld', hbecomes⟩ := h id pattern times hheld
  obtain ⟨times'', hheld'', hbecomes'⟩ := h' id pattern times' hheld'
  exact ⟨times'', hheld'', hbecomes.trans hbecomes'⟩

/-- Other times are put in the place of those that have become them. -/
theorem Held.continues_set {held : Held} {id : TripId} {pattern : Shared Pattern}
    {times : TripTimes}
    (h : ∀ before, held id = some before → before.1 = pattern ∧ before.2.Becomes times) :
    held.Continues (held.set id pattern times) := by
  intro key pattern' times' hheld
  unfold Held.set
  by_cases hkey : key = id
  · subst hkey
    obtain ⟨hpattern, hbecomes⟩ := h _ hheld
    obtain rfl : pattern' = pattern := hpattern
    exact ⟨times, if_pos rfl, hbecomes⟩
  · rw [if_neg hkey]
    exact ⟨times', hheld, .refl times'⟩

namespace Request

/-- No request takes a trip out of the timetable, or to another pattern. -/
theorem Does.continues {b : Builder} {r : Request} {result : UpdateAttempt} (h : Does b r result)
    (hr : r.Genuine) : b.entries.held.Continues result.builder.entries.held := by
  induction h with
  | duplicate | addBackwards | mismatch | unknown | failed | backwards => exact .refl _
  | add hnew _ _ =>
      show b.entries.held.Continues (Entries.held (Entries.put _ _ b.entries))
      rw [Entries.held_put]
      apply Held.continues_set
      intro before hbefore
      cases hnew.symm.trans hbefore
  | update hheld hchange hrefusal _ =>
      show b.entries.held.Continues (Entries.held (Entries.put _ _ b.entries))
      rw [Entries.held_put]
      apply Held.continues_set
      intro before hbefore
      cases hheld.symm.trans hbefore
      exact ⟨rfl, hr _ _ hchange hrefusal⟩
  | cancel _ ih => exact ih (Change.changing_run .cancel)

theorem keeps_continues {r : Request} (hr : r.Genuine) (held : Held) :
    r.Keeps fun entries => held.Continues entries.held :=
  fun _ _ hcontinues hdoes => hcontinues.trans (hdoes.continues hr)

end Request

/-! ## Main statement -/

namespace Snapshot

variable {s s' : Snapshot} {earlier later : List Session} {published published' : List (List Call)}

theorem precedes_of_runAll (h : runAll earlier {} = .ok (s, published))
    (h' : runAll later s = .ok (s', published'))
    (hgenuine : ∀ session ∈ earlier ++ later, session.publishes →
      ∀ r ∈ session.requests, r.Genuine) {id : TripId} {e : Entry} (he : s.find? id = some e) :
    ∃ e', s'.find? id = some e' ∧ e'.pattern = e.pattern ∧
      e.times.value.Precedes e'.times.value ∧
      (e.times.value.realtime = .canceled → e'.times.value.realtime = .canceled) ∧
      (e'.times.value.realtime = .canceled → ∀ stop < e'.times.value.stopCount,
        e'.times.value.arrival stop = .ok (-1) ∧ e'.times.value.departure stop = .ok (-1)) := by
  have hmade : s.entries.Made :=
    keeps_of_runAll (P := Entries.Made) (fun _ hp => absurd hp List.not_mem_nil)
      (fun session hsession hpublishes r hr => Request.keeps_made
        (hgenuine session (List.mem_append_left _ hsession) hpublishes r hr)) h
  have hcontinues : s.entries.held.Continues s'.entries.held :=
    keeps_of_runAll (P := fun entries => s.entries.held.Continues entries.held) (.refl _)
      (fun session hsession hpublishes r hr => Request.keeps_continues
        (hgenuine session (List.mem_append_right _ hsession) hpublishes r hr) _) h'
  obtain ⟨times, hheld, hbecomes⟩ := hcontinues _ _ _ (Entries.held_of_lookup he)
  obtain ⟨e', hlookup, heq⟩ := Option.map_eq_some_iff.mp hheld
  obtain ⟨hpattern, rfl⟩ := Prod.mk.inj heq
  have htimes : e.times.value.Made := hmade _ (Entries.mem_of_lookup he)
  have hprecedes := htimes.precedes hbecomes
  refine ⟨e', hlookup, hpattern, hprecedes, hprecedes.canceled, ?_⟩
  intro hcanceled stop hstop
  have hclosed := (htimes.becomes hbecomes).closed hcanceled
  exact ⟨hclosed.value stop hstop .arrival _ rfl, hclosed.value stop hstop .departure _ rfl⟩

/-- The route of the crossing. -/
def ferry : Shared Pattern :=
  { tag := 0, value := { mode := .ferry, route := "F", stops := [1, 2, 3] } }

/-- The crossing is added, moved by a minute, and delayed on the way in the next version. -/
def rougherSea (crossing : TripTimes) : List Session :=
  [{ requests := [.add ferry crossing, .update "F" (Change.shift 0 36060 true).run]
     publishes := true },
   { requests := [.update "F" (Change.runAll [.arrivalDelay 1 90, .departureDelay 1 90])]
     publishes := true }]

/-- It does not move any more, and is canceled. What is forecast after that comes too late. -/
def storm : List Session :=
  [{ requests := [.update "F" (Change.shift 0 36000 true).run], publishes := true },
   { requests := [.cancel "F"], publishes := true },
   { requests := [.update "F" (Change.arrivalTime 1 36780).run], publishes := true }]

theorem storm_does_not_go_back :
    ∃ crossing s published s' published' e e',
      runAll (rougherSea crossing) {} = .ok (s, published) ∧ s.find? "F" = some e ∧
      e.times.value.realtime = .updated ∧ e.times.value.scheduledArrival 1 = .ok 36660 ∧
      runAll storm s = .ok (s', published') ∧ s'.version = 5 ∧ s'.find? "F" = some e' ∧
      e'.pattern = e.pattern ∧ e'.times.value.realtime = .canceled ∧
      e'.times.value.scheduledArrival 1 = .ok 36660 ∧ e'.times.value.arrival 1 = .ok (-1) := by
  have hruns : ∃ crossing interner s published s' published' e e',
      TripTimes.build { id := "F" } TripTimes.crossing {} = .ok (crossing, interner) ∧
      runAll (rougherSea crossing) {} = .ok (s, published) ∧ s.find? "F" = some e ∧
      e.times.value.realtime = .updated ∧ e.times.value.scheduledArrival 1 = .ok 36660 ∧
      runAll storm s = .ok (s', published') ∧ s'.version = 5 ∧ s'.find? "F" = some e' ∧
      e'.times.value.realtime = .canceled ∧ 1 < e'.times.value.stopCount :=
    ⟨_, _, _, _, _, _, _, _, rfl, rfl, rfl, rfl, rfl, rfl, rfl, rfl, rfl, by decide⟩
  obtain ⟨crossing, interner, s, published, s', published', e, e', hbuild, hrun, he, hupdated,
    harrival, hrun', hversion, he', hcanceled, hcount⟩ := hruns
  have hmade : crossing.Made := ⟨_, _, _, crossing, interner, hbuild, .refl crossing⟩
  have hgenuine : ∀ session ∈ rougherSea crossing ++ storm, session.publishes →
      ∀ r ∈ session.requests, r.Genuine := by
    simp only [rougherSea, storm, List.cons_append, List.nil_append, List.mem_cons,
      List.not_mem_nil, or_false]
    rintro _ (rfl | rfl | rfl | rfl | rfl) _ r hr
    · rcases List.mem_pair.mp hr with rfl | rfl
      · exact hmade
      · exact Change.changing_run _
    · rw [List.mem_singleton.mp hr]
      exact Change.changing_runAll _
    · rw [List.mem_singleton.mp hr]
      exact Change.changing_run _
    · rw [List.mem_singleton.mp hr]
      trivial
    · rw [List.mem_singleton.mp hr]
      exact Change.changing_run _
  obtain ⟨e'', he'', hpattern, hprecedes, _, hclosed⟩ :=
    precedes_of_runAll hrun hrun' hgenuine he
  obtain rfl : e' = e'' := Option.some.inj (he'.symm.trans he'')
  have hpast : e.times.value.realtime ≠ .scheduled := by
    rw [hupdated]
    decide
  have hschedule := (hprecedes.schedule hpast 1).1
  exact ⟨crossing, s, published, s', published', e, e', hrun, he, hupdated, harrival, hrun',
    hversion, he', hpattern, hcanceled, hschedule.trans harrival, (hclosed hcanceled 1 hcount).1⟩

end Snapshot

end Journey
