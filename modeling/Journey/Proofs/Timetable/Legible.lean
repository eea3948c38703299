import Journey.Proofs.Timetable.Lifecycle
import Journey.Proofs.Timetable.Made
import Journey.Proofs.Timetable.Regular

/-!
# Trips that can be read and canceled

A trip can be moved so far that some of its times are out of range: reading one of
them overflows, and so does laying an overlay over the schedule. No trip in a
timetable is like that (`TripTimes.Legible`):

* a trip **without** an overlay was looked through for times that go backwards when
  it was taken over, and to look at a time is to read it;
* a trip **with** an overlay was copied from times in range (`TripTimes.Copied`) and
  has not moved since.

**Statement** (`legible_of_runAll`): where trips have been made and are changed by
nothing but changes, every trip of every version and of every builder is legible,
and a builder cancels exactly the trips that it holds. A canceled trip is in order
(`Closed.firstViolation_eq`), so the cancellation is not turned down for that.
-/

namespace Journey

namespace TripTimes

/-- Every time at every stop can be read, by schedule and in fact, and an overlay can be
laid over the schedule. -/
structure Legible (t : TripTimes) : Prop where
  scheduledArrival : ∀ stop < t.stopCount, ∃ time, t.scheduledArrival stop = .ok time
  scheduledDeparture : ∀ stop < t.stopCount, ∃ time, t.scheduledDeparture stop = .ok time
  arrival : ∀ stop < t.stopCount, ∃ time, t.arrival stop = .ok time
  departure : ∀ stop < t.stopCount, ∃ time, t.departure stop = .ok time
  materialize : ∃ result, t.materialize = .ok result

variable {t : TripTimes} {stops : List StopTime} {accepted : List Change}

/-! ## Reading -/

/-- A trip in order can be read at each of its stops. -/
theorem readable_of_ordered (h : t.firstViolation = .ok none) {stop : Nat}
    (hlt : stop < t.stopCount) :
    (∃ time, t.arrival stop = .ok time) ∧ ∃ time, t.departure stop = .ok time := by
  obtain ⟨hcalls, _⟩ := ordered_of_violationFrom h
  obtain ⟨a, d, ha, hd, _⟩ := hcalls stop (List.mem_range.mpr hlt)
  exact ⟨⟨a, ha⟩, d, hd⟩

/-- The times by schedule of a trip in order are in range. -/
theorem Copied.timesInRange (h : t.Copied stops accepted) (hordered : t.firstViolation = .ok none) :
    TimesInRange stops (movedBy stops accepted) := by
  by_cases hoverlay : t.overlay = none
  · -- what has been looked at is the schedule
    intro st hst
    obtain ⟨stop, hlt, hget⟩ := List.mem_iff_getElem.mp hst
    have hstop : stops[stop]? = some st := by
      rw [List.getElem?_eq_getElem hlt, hget]
    rw [← h.reflects.schedule.stopCount_eq] at hlt
    obtain ⟨⟨a, ha⟩, d, hd⟩ := readable_of_ordered hordered hlt
    have harrival : t.arrival stop = Checked.add st.arrival (movedBy stops accepted) :=
      h.reflects.value_of_overlay_none hoverlay hstop .arrival
    have hdeparture : t.departure stop = Checked.add st.departure (movedBy stops accepted) :=
      h.reflects.value_of_overlay_none hoverlay hstop .departure
    obtain ⟨hrange, rfl⟩ := Checked.add_eq_ok_iff.mp (harrival.symm.trans ha)
    obtain ⟨hrange', rfl⟩ := Checked.add_eq_ok_iff.mp (hdeparture.symm.trans hd)
    exact ⟨hrange, hrange'⟩
  · exact h.inRange hoverlay

theorem Copied.legible (h : t.Copied stops accepted) (hordered : t.firstViolation = .ok none) :
    t.Legible := by
  have hrange := h.timesInRange hordered
  have hschedule := h.reflects.schedule
  have hstop : ∀ stop < t.stopCount, ∃ st, stops[stop]? = some st ∧ st ∈ stops := by
    intro stop hlt
    rw [hschedule.stopCount_eq] at hlt
    exact ⟨stops[stop], List.getElem?_eq_getElem hlt, List.getElem_mem hlt⟩
  refine ⟨?_, ?_, ?_, ?_, ?_⟩
  · intro stop hlt
    obtain ⟨st, hst, hmem⟩ := hstop stop hlt
    rw [hschedule.scheduledArrival_eq hst]
    exact ⟨_, Checked.add_eq_ok_iff.mpr ⟨(hrange st hmem).1, rfl⟩⟩
  · intro stop hlt
    obtain ⟨st, hst, hmem⟩ := hstop stop hlt
    rw [hschedule.scheduledDeparture_eq hst]
    exact ⟨_, Checked.add_eq_ok_iff.mpr ⟨(hrange st hmem).2, rfl⟩⟩
  · exact fun stop hlt => (readable_of_ordered hordered hlt).1
  · exact fun stop hlt => (readable_of_ordered hordered hlt).2
  · obtain ⟨result, hresult, _⟩ :=
      hschedule.materialize_ends.exists_ok fun _ _ hoverflows => hoverflows.2 hrange
    exact ⟨result, hresult⟩

theorem Made.legible (h : t.Made) (hordered : t.firstViolation = .ok none) : t.Legible := by
  obtain ⟨stops, accepted, hcopied⟩ := h.copied
  exact hcopied.legible hordered

/-- Realtime data of a trip that has been made is about its stops and no others. -/
theorem Made.steady (h : t.Made) (hordered : t.firstViolation = .ok none) : t.Steady := by
  obtain ⟨stops, accepted, hcopied⟩ := h.copied
  exact ⟨hordered, fun overlay hoverlay => hcopied.reflects.length_column hoverlay .arrival⟩

/-! ## Canceling -/

/-- Times that are all the same are in order. -/
theorem Closed.violationFrom_eq (h : t.Closed) {bound : Option Int} {stops : List Nat}
    (hbound : ∀ p ∈ bound, p = Clock.unavailable) (hstops : ∀ stop ∈ stops, stop < t.stopCount) :
    t.violationFrom bound stops = .ok none := by
  induction stops generalizing bound with
  | nil => rfl
  | cons stop rest ih =>
      have hlt := hstops stop List.mem_cons_self
      have harrival : t.arrival stop = .ok Clock.unavailable := h.value stop hlt .arrival _ rfl
      have hdeparture : t.departure stop = .ok Clock.unavailable :=
        h.value stop hlt .departure _ rfl
      rw [violationFrom_cons_of_le harrival hdeparture (Int.le_refl _)
        fun p hp => Int.le_of_eq (hbound p hp)]
      apply ih
      · intro p hp
        exact (Option.some.inj hp).symm
      · intro later hlater
        exact hstops later (List.mem_cons_of_mem _ hlater)

theorem Closed.firstViolation_eq (h : t.Closed) : t.firstViolation = .ok none :=
  h.violationFrom_eq (fun _ hp => nomatch hp) fun _ hstop => List.mem_range.mp hstop

/-- A trip in order can be canceled, and is in order after that. -/
theorem Made.cancel_eq_ok (h : t.Made) (hordered : t.firstViolation = .ok none) :
    ∃ attempt, Change.cancel.run t = .ok attempt ∧ attempt.refusal = none ∧
      attempt.trip.firstViolation = .ok none := by
  obtain ⟨stops, accepted, hcopied⟩ := h.copied
  have hrange := hcopied.timesInRange hordered
  have hends := hcopied.reflects.run_ends .cancel
  obtain ⟨attempt, hrun, _⟩ :=
    hends.exists_ok fun _ _ hoverflows => hoverflows.2 ⟨hrange, trivial⟩
  obtain ⟨haccepted, hcancels⟩ := hcopied.reflects.cancels hrun
  exact ⟨attempt, hrun, haccepted, hcancels.closed.firstViolation_eq⟩

end TripTimes

/-! ## Builders -/

/-- Trips that have been made can be canceled, and no others. -/
theorem Builder.cancel_eq_ok {b : Builder} (hmade : b.entries.Made) (hsound : b.entries.Sound)
    (id : TripId) :
    ∃ result, b.cancel id = .ok result ∧
      (result.refusal = none ↔ (b.entries.lookup id).isSome) := by
  have hcancel : ∀ {pattern times}, b.entries.held id = some (pattern, times) →
      ∃ attempt, Change.cancel.run times = .ok attempt ∧ attempt.refusal = none ∧
        attempt.trip.firstViolation = .ok none := by
    intro pattern times hheld
    obtain ⟨tag, hmem⟩ := Entries.mem_of_held hheld
    have htimes : times.Made := hmade _ hmem
    exact htimes.cancel_eq_ok (hsound.ordered _ hmem)
  have hgoes : ∀ f, (Request.cancel id).run b = .error f → ¬ (Request.cancel id).Stops b f := by
    intro f _ hstops
    cases hstops with
    | cancel hstops =>
        cases hstops with
        | change hheld hfault =>
            obtain ⟨attempt, hrun, _⟩ := hcancel hheld
            cases hrun.symm.trans hfault
        | update hheld hchange hfault =>
            obtain ⟨attempt, hrun, _, hordered⟩ := hcancel hheld
            cases hrun.symm.trans hchange
            cases hordered.symm.trans hfault
  obtain ⟨result, hresult, hdoes⟩ := ((Request.cancel id).run_ends b).exists_ok hgoes
  refine ⟨result, hresult, ?_⟩
  have hisSome : (b.entries.lookup id).isSome = (b.entries.held id).isSome :=
    Option.isSome_map.symm
  rw [hisSome]
  cases hdoes with
  | cancel hdoes =>
      cases hdoes with
      | unknown hnone =>
          rw [hnone]
          exact ⟨nofun, nofun⟩
      | failed hheld hchange hrefusal =>
          obtain ⟨attempt, hrun, haccepted, _⟩ := hcancel hheld
          cases hrun.symm.trans hchange
          cases haccepted.symm.trans hrefusal
      | backwards hheld hchange _ hviolation =>
          obtain ⟨attempt, hrun, _, hordered⟩ := hcancel hheld
          cases hrun.symm.trans hchange
          cases hordered.symm.trans hviolation
      | update hheld _ _ _ =>
          rw [hheld]
          exact ⟨fun _ => rfl, fun _ => rfl⟩

/-- All trips have been made, and are in order. -/
structure Entries.Kept (entries : Entries) : Prop where
  made : entries.Made
  sound : entries.Sound

theorem Request.keeps_kept {r : Request} (hr : r.Genuine) : r.Keeps Entries.Kept :=
  fun _ _ hkept hdoes => ⟨hdoes.made hr hkept.made, hdoes.sound hkept.sound⟩

theorem Entries.Kept.legible {entries : Entries} (h : entries.Kept) :
    ∀ p ∈ entries, p.2.times.value.Legible :=
  fun p hp => (h.made p hp).legible (h.sound.ordered p hp)

/-! ## Main statement -/

namespace Snapshot

variable {s : Snapshot} {sessions : List Session} {published : List (List Call)}

theorem legible_of_runAll (h : runAll sessions {} = .ok (s, published))
    (hgenuine : ∀ session ∈ sessions, session.publishes → ∀ r ∈ session.requests, r.Genuine) :
    (∀ p ∈ s.entries, p.2.times.value.Legible) ∧
    ∀ requests b calls, Builder.runAll requests s.edit = .ok (b, calls) →
      (∀ r ∈ requests, r.Genuine) →
      (∀ p ∈ b.entries, p.2.times.value.Legible) ∧
      ∀ id, ∃ result, b.cancel id = .ok result ∧
        (result.refusal = none ↔ (b.entries.lookup id).isSome) := by
  have hempty : Entries.Kept [] :=
    ⟨fun _ hp => absurd hp List.not_mem_nil, .nil, fun _ hp => absurd hp List.not_mem_nil⟩
  have hs : s.entries.Kept :=
    keeps_of_runAll (P := Entries.Kept) hempty (fun session hsession hpublishes r hr =>
      Request.keeps_kept (hgenuine session hsession hpublishes r hr)) h
  refine ⟨hs.legible, ?_⟩
  intro requests b calls hrun hrequests
  have hb : b.entries.Kept :=
    Builder.keeps_of_runAll (b := s.edit) hs
      (fun r hr => Request.keeps_kept (hrequests r hr)) hrun
  exact ⟨hb.legible, Builder.cancel_eq_ok hb.made hb.sound⟩

/-- A ferry with a call on the way is moved to the end of time: it gets to its last stop at
the last second that there is. -/
def lastVoyage (crossing : TripTimes) : List Session :=
  [{ requests := [.add { tag := 0, value := { mode := .ferry, route := "F", stops := [1, 2, 3] } }
       crossing]
     publishes := true },
   { requests := [.update "F" (Change.shift 2 maxInt false).run], publishes := true }]

theorem lastVoyage_cancels :
    ∃ crossing s published e b calls result,
      runAll (lastVoyage crossing) {} = .ok (s, published) ∧ ("F", e) ∈ s.entries ∧
      e.times.value.Legible ∧ e.times.value.arrival 2 = .ok maxInt ∧
      Builder.runAll [.update "F" (Change.recorded 1 true).run] s.edit = .ok (b, calls) ∧
      b.cancel "F" = .ok result ∧ result.refusal = none ∧
      ∃ unknown, b.cancel "G" = .ok unknown ∧ unknown.refusal ≠ none := by
  have hruns : ∃ crossing interner s published e b calls,
      TripTimes.build { id := "F" } TripTimes.crossing {} = .ok (crossing, interner) ∧
      runAll (lastVoyage crossing) {} = .ok (s, published) ∧ ("F", e) ∈ s.entries ∧
      e.times.value.arrival 2 = .ok maxInt ∧
      Builder.runAll [.update "F" (Change.recorded 1 true).run] s.edit = .ok (b, calls) ∧
      (b.entries.lookup "F").isSome ∧ ¬ (b.entries.lookup "G").isSome :=
    ⟨_, _, _, _, _, _, _, rfl, rfl, List.mem_cons_self, rfl, rfl, rfl, by decide⟩
  obtain ⟨crossing, interner, s, published, e, b, calls, hbuild, hrun, he, harrival, hcalls, hheld,
    hnot⟩ := hruns
  have hmade : crossing.Made := ⟨_, _, _, crossing, interner, hbuild, .refl crossing⟩
  have hgenuine : ∀ session ∈ lastVoyage crossing, session.publishes →
      ∀ r ∈ session.requests, r.Genuine := by
    simp only [lastVoyage, List.mem_cons, List.not_mem_nil, or_false]
    rintro _ (rfl | rfl) _ r hr
    · rw [List.mem_singleton.mp hr]
      exact hmade
    · rw [List.mem_singleton.mp hr]
      exact Change.changing_run _
  obtain ⟨hlegible, hbuilder⟩ := legible_of_runAll hrun hgenuine
  have hrequests : ∀ r ∈ [Request.update "F" (Change.recorded 1 true).run], r.Genuine := by
    intro r hr
    rw [List.mem_singleton.mp hr]
    exact Change.changing_run _
  obtain ⟨_, hcancels⟩ := hbuilder _ b calls hcalls hrequests
  obtain ⟨result, hresult, haccepted⟩ := hcancels "F"
  obtain ⟨unknown, hunknown, hrefused⟩ := hcancels "G"
  exact ⟨crossing, s, published, e, b, calls, result, hrun, he, hlegible _ he, harrival, hcalls,
    hresult, haccepted.mpr hheld, unknown, hunknown, fun hnone => hnot (hrefused.mp hnone)⟩

end Snapshot

end Journey
