import Journey.Proofs.Timetable.Changes
import Journey.Proofs.Timetable.Regular
import Journey.Proofs.Timetable.Requests

/-!
# Trips under their own names

An entry is filed (`Entry.Filed`) when it stands under the identifier of its
trip and the trip is regular on its pattern. A trip that is added is filed. An
update takes over whatever its function makes of a trip, so long as the times
are in order, and does not pair the pattern with the times again: the entry
stays filed exactly when the function gives times of the same trip with as many
stops (`TripTimes.Revises`, `Request.Does.filedAt_iff`).

**Statement** (`filed_of_runAll`): where the functions of all published updates
revise trips, every entry of every version is filed, and so is every entry of a
builder opened on it. Each further request leaves the entries filed exactly if
it revises the trip that is held. The changes of a trip do, one or many
(`Change.revising_runAll`), and so does a cancellation.

A function can also put the times of another trip in the place of the ones it is
given: `replacement_misfiles`.
-/

namespace Journey

/-! ## Revisions -/

/-- These are times of the same trip, with as many stops. -/
structure TripTimes.Revises (t' t : TripTimes) : Prop where
  id : t'.trip.id = t.trip.id
  stopCount : t'.stopCount = t.stopCount

theorem TripTimes.Revises.refl (t : TripTimes) : t.Revises t := ⟨rfl, rfl⟩

theorem TripTimes.Revises.trans {t t' t'' : TripTimes} (h' : t''.Revises t') (h : t'.Revises t) :
    t''.Revises t :=
  ⟨h'.id.trans h.id, h'.stopCount.trans h.stopCount⟩

/-- What the function makes of a trip, if it can be taken over, revises the trip. -/
def Attempt.Revising (change : TripTimes → Checked Attempt) : Prop :=
  ∀ t attempt, change t = .ok attempt → attempt.refusal = none →
    attempt.trip.firstViolation = .ok none → attempt.trip.Revises t

namespace Change

theorem Does.revises {t : TripTimes} {c : Change} {attempt : Attempt} (h : Does t c attempt) :
    attempt.trip.Revises t := by
  -- an overlay is laid on top: the baseline and the trip stay
  have hcopy : ∀ {t' o}, t.materialize = .ok (t', o) → t'.Revises t := by
    intro t' o hmaterialize
    rcases TripTimes.materialize_cases hmaterialize with ⟨_, rfl⟩ | ⟨_, rfl, _⟩
    · exact .refl t'
    · exact ⟨rfl, rfl⟩
  cases h with
  | refuse _ => exact .refl t
  | set _ _ hmaterialize _ => exact ⟨(hcopy hmaterialize).id, (hcopy hmaterialize).stopCount⟩
  | move _ _ => exact ⟨rfl, rfl⟩
  | close _ hmaterialize => exact ⟨(hcopy hmaterialize).id, (hcopy hmaterialize).stopCount⟩
  | stay _ => exact .refl t
  | code _ => exact ⟨rfl, rfl⟩

theorem revises_runAll {changes : List Change} {t : TripTimes} {attempt : Attempt}
    (h : runAll changes t = .ok attempt) : attempt.trip.Revises t := by
  induction changes generalizing t with
  | nil =>
      cases h
      exact .refl t
  | cons c changes ih =>
      obtain ⟨first, hfirst, h⟩ := bind_eq_ok_iff.mp h
      have hrevises := (does_of_run hfirst).revises
      cases hrefusal : first.refusal with
      | none =>
          rw [hrefusal] at h
          exact (ih h).trans hrevises
      | some reason =>
          rw [hrefusal] at h
          cases h
          exact hrevises

theorem revising_run (c : Change) : Attempt.Revising c.run :=
  fun _ _ hrun _ _ => (does_of_run hrun).revises

theorem revising_runAll (changes : List Change) : Attempt.Revising (runAll changes) :=
  fun _ _ hrun _ _ => revises_runAll hrun

end Change

/-! ## Filed entries -/

/-- The entry stands under the identifier of its trip, which is regular on its pattern. -/
structure Entry.Filed (e : Entry) (id : TripId) : Prop where
  named : e.times.value.trip.id = id
  regular : e.trip.Regular

/-- Whatever is held under the identifier is filed. -/
def Entries.FiledAt (entries : Entries) (id : TripId) : Prop :=
  ∀ e, (id, e) ∈ entries → e.Filed id

/-- Other times on the pattern of a filed entry are filed exactly if they revise it. -/
theorem Entry.Filed.revise_iff {pattern : Shared Pattern} {times times' : Shared TripTimes}
    {id : TripId} (h : Entry.Filed { pattern, times } id)
    (hordered : times'.value.firstViolation = .ok none) :
    Entry.Filed { pattern, times := times' } id ↔ times'.value.Revises times.value := by
  have hpaired : pattern.value.stops.length = times.value.stopCount := h.regular.paired
  have hnamed : times.value.trip.id = id := h.named
  constructor
  · rintro ⟨hnamed', hregular'⟩
    have hpaired' : pattern.value.stops.length = times'.value.stopCount := hregular'.paired
    exact ⟨hnamed'.trans hnamed.symm, hpaired'.symm.trans hpaired⟩
  · rintro ⟨hid, hcount⟩
    exact ⟨hid.trans hnamed, ⟨hpaired.trans hcount.symm, hordered⟩⟩

namespace Entries

variable {entries : Entries} {id : TripId}

theorem filedAt_put_iff (h : entries.FiledAt id) {entry : Entry} :
    (Entries.put id entry entries).FiledAt id ↔ entry.Filed id := by
  constructor
  · intro hput
    exact hput entry (mem_put_self id entry entries)
  · intro hentry e hmem
    rcases mem_put hmem with ⟨_, rfl⟩ | hold
    · exact hentry
    · exact h e hold

theorem FiledAt.put_of_ne {key : TripId} (h : entries.FiledAt key) (hne : key ≠ id)
    (entry : Entry) : (Entries.put id entry entries).FiledAt key := by
  intro e hmem
  rcases mem_put hmem with ⟨heq, _⟩ | hold
  · exact absurd heq hne
  · exact h e hold

theorem FiledAt.of_held (h : entries.FiledAt id) {pattern : Shared Pattern} {times : TripTimes}
    (hheld : entries.held id = some (pattern, times)) :
    ∃ tag, Entry.Filed { pattern, times := { tag, value := times } } id := by
  obtain ⟨tag, hmem⟩ := mem_of_held hheld
  exact ⟨tag, h _ hmem⟩

end Entries

/-! ## One request -/

namespace Request

/-- The function of an update revises trips. -/
def Revising : Request → Prop
  | add .. | cancel _ => True
  | update _ change => Attempt.Revising change

/-- The trip that the request is about, if it is held before and after, is revised. -/
def RevisesHeld (r : Request) (before after : Held) : Prop :=
  ∀ held held', before r.trip = some held → after r.trip = some held' → held'.2.Revises held.2

variable {b : Builder} {r : Request} {result : UpdateAttempt}

/-- A request leaves its trip filed exactly if it revises it. -/
theorem Does.filedAt_iff (h : Does b r result) (hfiled : b.entries.FiledAt r.trip) :
    result.builder.entries.FiledAt r.trip ↔
      r.RevisesHeld b.entries.held result.builder.entries.held := by
  by_cases hrefused : result.refusal = none
  swap
  · -- nothing has changed
    rw [h.entries_of_refusal hrefused]
    refine iff_of_true hfiled ?_
    intro held held' hheld hheld'
    cases hheld.symm.trans hheld'
    exact .refl held.2
  induction h with
  | duplicate | addBackwards | mismatch | unknown | failed | backwards => cases hrefused
  | @add pattern times trip hnew hordered hpair =>
      have hentry : Entry.Filed
          { pattern, times := { tag := b.nextTag, value := times } } times.trip.id := by
        unfold TimedTrip.pair at hpair
        split at hpair
        · exact ⟨rfl, ⟨‹_›, hordered⟩⟩
        · cases hpair
      refine iff_of_true ((Entries.filedAt_put_iff hfiled).mpr hentry) ?_
      intro held held' hheld _
      cases hnew.symm.trans hheld
  | @update id change pattern times attempt hheld _ _ hordered =>
      obtain ⟨tag, hentry⟩ := hfiled.of_held hheld
      have hheld' : (b.accept id
          { pattern, times := { tag := b.nextTag, value := attempt.trip } }).builder.entries.held id =
            some (pattern, attempt.trip) := by
        show (Entries.put id _ b.entries).held id = _
        rw [Entries.held_put, Held.set, if_pos rfl]
      have hiff : (Entries.put id
          { pattern, times := { tag := b.nextTag, value := attempt.trip } } b.entries).FiledAt id ↔
            attempt.trip.Revises times :=
        (Entries.filedAt_put_iff hfiled).trans (hentry.revise_iff hordered)
      refine hiff.trans ⟨?_, fun hrevises => hrevises _ _ hheld hheld'⟩
      intro hrevises before after hbefore hafter
      cases hheld.symm.trans hbefore
      cases hheld'.symm.trans hafter
      exact hrevises
  | cancel _ ih => exact ih hfiled hrefused

/-- A function that revises trips revises the one that is held. -/
theorem Does.revisesHeld (h : Does b r result) (hrevising : r.Revising)
    (haccepted : result.refusal = none) :
    r.RevisesHeld b.entries.held result.builder.entries.held := by
  intro before after hbefore hafter
  induction h with
  | duplicate | addBackwards | mismatch | unknown | failed | backwards => cases haccepted
  | add hnew _ _ => cases hnew.symm.trans hbefore
  | @update id change pattern times attempt hheld hchange hrefusal hordered =>
      cases hheld.symm.trans hbefore
      change (Entries.put id _ b.entries).held id = _ at hafter
      rw [Entries.held_put, Held.set, if_pos rfl] at hafter
      cases hafter
      exact hrevising times attempt hchange hrefusal hordered
  | cancel _ ih => exact ih (Change.revising_run .cancel) haccepted hbefore hafter

/-- Only an update of the trip, by a function that does not revise it, can leave it unfiled. -/
theorem Does.filedAt (h : Does b r result) {id : TripId} (hfiled : b.entries.FiledAt id)
    (hrevising : r.trip = id → r.Revising) : result.builder.entries.FiledAt id := by
  by_cases haccepted : result.refusal = none
  · by_cases hid : r.trip = id
    · subst hid
      exact (h.filedAt_iff hfiled).mpr (h.revisesHeld (hrevising rfl) haccepted)
    · obtain ⟨entry, rfl, _⟩ := h.accept_of_accepted haccepted
      exact hfiled.put_of_ne (Ne.symm hid) entry
  · rw [h.entries_of_refusal haccepted]
    exact hfiled

/-- So it is kept by all other requests. -/
theorem keeps_filedAt {id : TripId} (hrevising : r.trip = id → r.Revising) :
    r.Keeps (Entries.FiledAt · id) :=
  fun _ _ hfiled hdoes => hdoes.filedAt hfiled hrevising

end Request

namespace Snapshot

variable {s : Snapshot} {sessions : List Session} {published : List (List Call)} {id : TripId}

/-! ## Main statement -/

theorem filed_of_runAll (h : runAll sessions {} = .ok (s, published))
    (hrevising : ∀ session ∈ sessions, session.publishes →
      ∀ r ∈ session.requests, r.trip = id → r.Revising) :
    (∀ e, (id, e) ∈ s.entries → e.Filed id ∧ e.trip.Readable) ∧
    ∀ requests b calls, Builder.runAll requests s.edit = .ok (b, calls) →
      (∀ r ∈ requests, r.trip = id → r.Revising) →
      (∀ e, (id, e) ∈ b.entries → e.Filed id ∧ e.trip.Readable) ∧
      ∀ r : Request, r.trip = id →
        Ends (fun result => (∀ e, (id, e) ∈ result.builder.entries → e.Filed id) ↔
            r.RevisesHeld b.entries.held result.builder.entries.held)
          (r.Stops b) (r.run b) := by
  have hfiled : s.entries.FiledAt id :=
    keeps_of_runAll (P := (Entries.FiledAt · id)) (fun _ hmem => absurd hmem List.not_mem_nil)
      (fun session hsession hpublishes r hr =>
        Request.keeps_filedAt (hrevising session hsession hpublishes r hr)) h
  refine ⟨fun e he => ⟨hfiled e he, (hfiled e he).regular.readable⟩, ?_⟩
  intro requests b calls hrun hrequests
  have hb : b.entries.FiledAt id :=
    Builder.keeps_of_runAll (b := s.edit) (P := (Entries.FiledAt · id)) hfiled
      (fun r hr => Request.keeps_filedAt (hrequests r hr)) hrun
  refine ⟨fun e he => ⟨hb e he, (hb e he).regular.readable⟩, ?_⟩
  rintro r rfl
  exact (r.run_ends b).mono (fun _ hdoes => hdoes.filedAt_iff hb) fun _ hstops => hstops

/-- Two buses are added. Then one of them is delayed as a whole, and the times of the
other are replaced by those of a night bus that calls at one stop. -/
def replacement : List Session :=
  let slow := TimedTrip.bus "S" [(1, 3600, 3600), (2, 4200, 4200)]
  let fast := TimedTrip.bus "F" [(1, 3900, 3900), (2, 4200, 4200)]
  let night := TimedTrip.bus "N" [(1, 86400, 86400)]
  [{ requests := [.add { tag := 0, value := slow.pattern } slow.times,
       .add { tag := 1, value := fast.pattern } fast.times]
     publishes := true },
   { requests := [.update "S" (Change.runAll [.departureDelay 0 60, .arrivalDelay 1 60,
         .departureDelay 1 60]),
       .update "F" fun _ => .ok { trip := night.times }]
     publishes := true }]

/-- The delayed bus is filed all the same. -/
theorem replacement_files_delayed :
    ∃ s published e, runAll replacement {} = .ok (s, published) ∧ ("S", e) ∈ s.entries ∧
      e.times.value.trip.id = "S" ∧ e.trip.Readable ∧ e.trip.arrival 1 = .ok 4260 := by
  have hruns : ∃ s published e, runAll replacement {} = .ok (s, published) ∧
      ("S", e) ∈ s.entries ∧ e.trip.arrival 1 = .ok 4260 :=
    ⟨_, _, _, rfl, List.mem_cons_self, rfl⟩
  obtain ⟨s, published, e, hrun, hmem, harrival⟩ := hruns
  have hrevising : ∀ session ∈ replacement, session.publishes →
      ∀ r ∈ session.requests, r.trip = "S" → r.Revising := by
    simp only [replacement, List.mem_cons, List.not_mem_nil, or_false]
    rintro _ (rfl | rfl) _ r hr hid
    · rcases List.mem_pair.mp hr with rfl | rfl <;> trivial
    · rcases List.mem_pair.mp hr with rfl | rfl
      · exact Change.revising_runAll _
      · exact absurd hid (by decide)
  obtain ⟨hfiled, hreadable⟩ := (filed_of_runAll hrun hrevising).1 e hmem
  exact ⟨s, published, e, hrun, hmem, hfiled.named, hreadable, harrival⟩

/-- The other one is not: under its identifier there are now the times of the night
bus, and at the second stop of its pattern there is no time to read. -/
theorem replacement_misfiles :
    ∃ s published e, runAll replacement {} = .ok (s, published) ∧ ("F", e) ∈ s.entries ∧
      e.times.value.trip.id = "N" ∧ e.times.value.stopCount = 1 ∧
      e.pattern.value.stops.length = 2 ∧ e.trip.departure 1 = .error (.outOfBounds 1 1) :=
  ⟨_, _, _, rfl, List.mem_cons_of_mem _ List.mem_cons_self, rfl, rfl, rfl, rfl⟩

end Snapshot

end Journey
