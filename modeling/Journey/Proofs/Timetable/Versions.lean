import Journey.Proofs.Timetable.Regular
import Journey.Proofs.Timetable.Requests

/-!
# Published versions

**Statement** (`holds_of_runAll`): take an empty timetable through any sessions
of writers. Then

* the current version holds what the accepted requests of all published
  sessions make of nothing, one after the other, and its number is how many
  sessions those are;
* sessions that were dropped might as well not have been;
* no trip in it goes backwards, and none is there twice;
* a builder opened on it counts what it accepts and what it turns down, and each
  further request either changes the entry of its trip or changes nothing.

A builder tracks the calls that were made to it (`Builder.Tracks`), a version
the calls that were published (`Snapshot.Records`). A request preserves the
first, publishing turns the first into the second.
-/

namespace Journey

/-- What the accepted ones of some calls make of what was known before. -/
def Held.after (held : Held) (calls : List Call) : Held :=
  ((calls.filter Call.accepted).map Call.request).foldl Request.applyTo held

theorem Held.after_append (held : Held) (front back : List Call) :
    held.after (front ++ back) = (held.after front).after back := by
  simp [Held.after]

/-- The builder was opened on this version, and these calls were made to it. -/
structure Builder.Tracks (b : Builder) (base : Snapshot) (calls : List Call) : Prop where
  base_eq : b.base = base
  held : b.entries.held = base.entries.held.after calls
  sound : b.entries.Sound
  applied : b.applied = calls.countP Call.accepted
  rejected : b.rejected = calls.countP Call.turnedDown

/-- The calls made to published builders, builder by builder, have led to this version. -/
structure Snapshot.Records (s : Snapshot) (published : List (List Call)) : Prop where
  version : s.version = published.length
  held : s.entries.held = Held.after (fun _ => none) published.flatten
  sound : s.entries.Sound

namespace Builder

variable {b b' : Builder} {base : Snapshot} {calls : List Call}

theorem held_of_does {r : Request} {result : UpdateAttempt} (hdoes : r.Does b result) :
    result.builder.entries.held =
      b.entries.held.after [{ request := r, refusal := result.refusal }] := by
  by_cases haccepted : result.refusal = none
  · rw [hdoes.held_of_accepted haccepted, haccepted]
    rfl
  · obtain ⟨reason, hreason⟩ := Option.ne_none_iff_exists'.mp haccepted
    rw [hdoes.entries_of_refusal haccepted, hreason]
    rfl

theorem Tracks.step {r : Request} {result : UpdateAttempt} (h : b.Tracks base calls)
    (hdoes : r.Does b result) :
    result.builder.Tracks base (calls ++ [{ request := r, refusal := result.refusal }]) where
  base_eq := hdoes.base_eq.trans h.base_eq
  held := by rw [held_of_does hdoes, h.held, Held.after_append]
  sound := hdoes.sound h.sound
  applied := by rw [hdoes.applied_eq, h.applied, List.countP_append, List.countP_singleton]
  rejected := by rw [hdoes.rejected_eq, h.rejected, List.countP_append, List.countP_singleton]

theorem Tracks.runAll {requests : List Request} {made : List Call} (h : b.Tracks base calls)
    (hrun : Builder.runAll requests b = .ok (b', made)) :
    b'.Tracks base (calls ++ made) ∧ made.map Call.request = requests := by
  induction requests generalizing b calls made with
  | nil =>
      cases hrun
      rw [List.append_nil]
      exact ⟨h, rfl⟩
  | cons r requests ih =>
      obtain ⟨result, hresult, hrun⟩ := bind_eq_ok_iff.mp hrun
      obtain ⟨⟨last, rest⟩, hrest, hrun⟩ := bind_eq_ok_iff.mp hrun
      cases hrun
      obtain ⟨htracks, hrequests⟩ := ih (h.step (Request.does_of_run hresult)) hrest
      rw [List.append_assoc] at htracks
      exact ⟨htracks, congrArg (r :: ·) hrequests⟩

end Builder

namespace Snapshot

variable {s s' : Snapshot} {published : List (List Call)}

theorem records_empty : Records {} [] where
  version := rfl
  held := rfl
  sound := ⟨.nil, fun _ hp => absurd hp List.not_mem_nil⟩

theorem Records.edit (h : s.Records published) : s.edit.Tracks s [] where
  base_eq := rfl
  held := rfl
  sound := h.sound
  applied := rfl
  rejected := rfl

theorem Records.publish {b : Builder} {calls : List Call} (h : s.Records published)
    (hb : b.Tracks s calls) : b.publish.Records (published ++ [calls]) where
  version := by
    show b.base.version + 1 = _
    rw [hb.base_eq, h.version, List.length_append]
    rfl
  held := by
    show b.entries.held = _
    rw [hb.held, h.held, List.flatten_append, Held.after_append]
    simp
  sound := hb.sound

theorem Records.runAll {sessions : List Session} {more : List (List Call)}
    (h : s.Records published) (hrun : Snapshot.runAll sessions s = .ok (s', more)) :
    s'.Records (published ++ more) ∧
      more.map (·.map Call.request) =
        (sessions.filter (·.publishes)).map (·.requests) ∧
      Snapshot.runAll (sessions.filter (·.publishes)) s = .ok (s', more) := by
  induction sessions generalizing s published more with
  | nil =>
      cases hrun
      rw [List.append_nil]
      exact ⟨h, rfl, rfl⟩
  | cons session sessions ih =>
      obtain ⟨⟨b, calls⟩, hcalls, hrest⟩ := bind_eq_ok_iff.mp hrun
      obtain ⟨htracks, hrequests⟩ := h.edit.runAll hcalls
      by_cases hpublishes : session.publishes
      · simp only [hpublishes, if_true] at hrest
        obtain ⟨⟨last, rest⟩, hlater, hlast⟩ := bind_eq_ok_iff.mp hrest
        cases hlast
        obtain ⟨hrecords, hmore, halone⟩ := ih (h.publish htracks) hlater
        rw [List.append_assoc] at hrecords
        rw [List.filter_cons_of_pos hpublishes]
        refine ⟨hrecords, ?_, ?_⟩
        · rw [List.map_cons, List.map_cons, hrequests, hmore]
        · rw [Snapshot.runAll, hcalls]
          show (if session.publishes then _ else _) = _
          rw [if_pos hpublishes, halone]
          rfl
      · simp only [if_neg hpublishes] at hrest
        rw [List.filter_cons_of_neg hpublishes]
        exact ih h hrest

/-! ## Main statement -/

theorem holds_of_runAll {sessions : List Session} (h : runAll sessions {} = .ok (s, published)) :
    s.version = published.length ∧
    published.map (·.map Call.request) = (sessions.filter (·.publishes)).map (·.requests) ∧
    s.entries.held = Held.after (fun _ => none) published.flatten ∧
    runAll (sessions.filter (·.publishes)) {} = .ok (s, published) ∧
    s.entries.Sound ∧
    ∀ requests b calls, Builder.runAll requests s.edit = .ok (b, calls) →
      calls.map Call.request = requests ∧
      b.applied = calls.countP Call.accepted ∧
      b.rejected = calls.countP Call.turnedDown ∧
      ∀ r, Ends (fun result => r.Does b result ∧
          (result.refusal ≠ none → result.builder.entries = b.entries) ∧
          (result.refusal = none →
            result.builder.entries.held = r.applyTo b.entries.held ∧
            (result.builder.entries.lookup r.trip).isSome ∧
            ∀ key, key ≠ r.trip →
              result.builder.entries.lookup key = b.entries.lookup key))
        (r.Stops b) (Request.run r b) := by
  obtain ⟨hrecords, hrequests, halone⟩ := records_empty.runAll h
  rw [List.nil_append] at hrecords
  refine ⟨hrecords.version, hrequests, hrecords.held, halone, hrecords.sound, ?_⟩
  intro requests b calls hrun
  obtain ⟨htracks, hcalls⟩ := hrecords.edit.runAll hrun
  refine ⟨hcalls, htracks.applied, htracks.rejected, fun r => ?_⟩
  refine (r.run_ends b).mono (fun result hdoes => ⟨hdoes, hdoes.entries_of_refusal, ?_⟩)
    fun _ hstops => hstops
  intro haccepted
  exact ⟨hdoes.held_of_accepted haccepted, hdoes.isSome_lookup haccepted,
    fun key => hdoes.lookup_of_ne haccepted⟩

/-- A bus between two stops, ten minutes apart. -/
def shuttle : TimedTrip := TimedTrip.bus "S" [(1, 3600, 3600), (2, 4200, 4200)]

/-- A writer leaves early and drops a cancellation. The one after delays the
first stop past the second, which is turned down, then the whole trip, and looks
for a trip that is not there. -/
def lateShift : List Session :=
  [{ requests := [.add { tag := 0, value := shuttle.pattern } shuttle.times], publishes := true },
   { requests := [.cancel "S"], publishes := false },
   { requests := [.update "S" (Change.runAll [.arrivalDelay 0 900, .departureDelay 0 900]),
       .update "S" (Change.runAll [.departureDelay 0 60, .arrivalDelay 1 60, .departureDelay 1 60]),
       .cancel "T"]
     publishes := true }]

theorem lateShift_holds :
    ∃ s published b calls, runAll lateShift {} = .ok (s, published) ∧ s.version = 2 ∧
      ((s.find? "S").map fun e => e.times.value.departure 1) = some (.ok 4260) ∧
      (∀ p ∈ s.entries, p.2.times.value.firstViolation = .ok none) ∧
      Builder.runAll [.cancel "S", .cancel "T", .update "S" (Change.recorded 0 true).run] s.edit =
        .ok (b, calls) ∧ b.applied = 1 ∧ b.rejected = 1 := by
  have hruns : ∃ s published b calls, runAll lateShift {} = .ok (s, published) ∧
      published.length = 2 ∧
      ((s.find? "S").map fun e => e.times.value.departure 1) = some (.ok 4260) ∧
      Builder.runAll [.cancel "S", .cancel "T", .update "S" (Change.recorded 0 true).run] s.edit =
        .ok (b, calls) ∧ calls.countP Call.accepted = 1 ∧ calls.countP Call.turnedDown = 1 :=
    ⟨_, _, _, _, rfl, rfl, rfl, rfl, rfl, rfl⟩
  obtain ⟨s, published, b, calls, hrun, htwo, hdeparture, hcalls, haccepted, hdown⟩ := hruns
  obtain ⟨hversion, _, _, _, hsound, hbuilder⟩ := holds_of_runAll hrun
  obtain ⟨_, happlied, hrejected, _⟩ := hbuilder _ b calls hcalls
  exact ⟨s, published, b, calls, hrun, hversion.trans htwo, hdeparture, hsound.ordered, hcalls,
    happlied.trans haccepted, hrejected.trans hdown⟩

end Snapshot

end Journey
