import Journey.Proofs.Outcome
import Journey.Timetable.Session

/-!
# One request to a builder

Said once, and in full, what a request can come to (`Request.Does`) and what can
stop it (`Request.Stops`): `Request.run_ends`. The function of an update may do
to its copy whatever it likes.

Out of this comes that requests are atomic. A refused one leaves every trip as
it was (`Does.entries_of_refusal`). An accepted one puts the new times of its
trip where they are looked up, and touches no other trip (`Does.held_of_accepted`,
`Does.lookup_of_ne`).
-/

namespace Journey

/-! ## Entries -/

/-- What is known of each trip: its pattern and times. -/
abbrev Held := TripId → Option (Shared Pattern × TripTimes)

def Held.set (held : Held) (id : TripId) (pattern : Shared Pattern) (times : TripTimes) : Held :=
  fun key => if key = id then some (pattern, times) else held key

/-- The times of a trip replaced by what a function makes of them. -/
def Held.revise (held : Held) (id : TripId) (change : TripTimes → Checked Attempt) : Held :=
  match held id with
  | none => held
  | some (pattern, times) =>
    match change times with
    | .error _ => held
    | .ok attempt => held.set id pattern attempt.trip

namespace Entries

def held (entries : Entries) : Held :=
  fun id => (entries.lookup id).map fun e => (e.pattern, e.times.value)

theorem held_of_lookup {entries : Entries} {id : TripId} {entry : Entry}
    (h : entries.lookup id = some entry) :
    entries.held id = some (entry.pattern, entry.times.value) := by
  rw [held, h]
  rfl

theorem held_of_lookup_none {entries : Entries} {id : TripId} (h : entries.lookup id = none) :
    entries.held id = none := by
  rw [held, h]
  rfl

theorem mem_of_lookup {entries : Entries} {id : TripId} {entry : Entry}
    (h : entries.lookup id = some entry) : (id, entry) ∈ entries := by
  obtain ⟨front, back, hentries, _⟩ := List.lookup_eq_some_iff.mp h
  rw [hentries]
  exact List.mem_append_right _ List.mem_cons_self

theorem mem_of_held {entries : Entries} {id : TripId} {pattern : Shared Pattern}
    {times : TripTimes} (h : entries.held id = some (pattern, times)) :
    ∃ tag, (id, { pattern, times := { tag, value := times } }) ∈ entries := by
  obtain ⟨e, hlookup, heq⟩ := Option.map_eq_some_iff.mp h
  cases heq
  exact ⟨e.times.tag, mem_of_lookup hlookup⟩

theorem held_put (id : TripId) (entry : Entry) (entries : Entries) :
    (Entries.put id entry entries).held =
      entries.held.set id entry.pattern entry.times.value := by
  funext key
  unfold held Held.set
  rw [lookup_put]
  by_cases h : key = id
  · simp [h]
  · simp [h]

theorem mem_put {id key : TripId} {entry e : Entry} {entries : Entries}
    (h : (key, e) ∈ Entries.put id entry entries) :
    (key = id ∧ e = entry) ∨ (key, e) ∈ entries := by
  induction entries with
  | nil =>
      left
      simpa only [put, List.mem_singleton, Prod.mk.injEq] using h
  | cons head rest ih =>
      obtain ⟨k, old⟩ := head
      unfold put at h
      by_cases hk : k = id
      · rw [if_pos hk] at h
        rcases List.mem_cons.mp h with heq | hrest
        · exact .inl (Prod.mk.inj heq)
        · exact .inr (List.mem_cons_of_mem _ hrest)
      · rw [if_neg hk] at h
        rcases List.mem_cons.mp h with heq | hrest
        · rw [heq]
          exact .inr List.mem_cons_self
        · rcases ih hrest with heq | hold
          · exact .inl heq
          · exact .inr (List.mem_cons_of_mem _ hold)

theorem mem_put_self (id : TripId) (entry : Entry) (entries : Entries) :
    (id, entry) ∈ Entries.put id entry entries := by
  induction entries with
  | nil => exact List.mem_singleton.mpr rfl
  | cons head rest ih =>
      obtain ⟨k, old⟩ := head
      unfold put
      by_cases hk : k = id
      · rw [if_pos hk]
        exact List.mem_cons_self
      · rw [if_neg hk]
        exact List.mem_cons_of_mem _ ih

/-- An identifier that is there keeps its place, a new one comes last. -/
theorem keys_put (id : TripId) (entry : Entry) (entries : Entries) :
    (Entries.put id entry entries).map (·.1) =
      if id ∈ entries.map (·.1) then entries.map (·.1) else entries.map (·.1) ++ [id] := by
  induction entries with
  | nil => rfl
  | cons head rest ih =>
      obtain ⟨k, old⟩ := head
      by_cases hk : k = id
      · subst hk
        simp [put]
      · have hne : id ≠ k := fun h => hk h.symm
        simp only [put, if_neg hk, List.map_cons, ih, List.mem_cons, hne, false_or]
        by_cases hmem : id ∈ rest.map (·.1)
        · rw [if_pos hmem, if_pos hmem]
        · rw [if_neg hmem, if_neg hmem]
          rfl

theorem nodup_put {entries : Entries} (h : (entries.map (·.1)).Nodup) (id : TripId)
    (entry : Entry) : ((Entries.put id entry entries).map (·.1)).Nodup := by
  rw [keys_put]
  by_cases hmem : id ∈ entries.map (·.1)
  · rw [if_pos hmem]
    exact h
  · rw [if_neg hmem]
    refine List.nodup_append.mpr ⟨h, by simp, ?_⟩
    intro key hkey other hother heq
    rw [List.mem_singleton.mp hother] at heq
    exact hmem (heq ▸ hkey)

/-- No trip is there twice, and none goes backwards. -/
structure Sound (entries : Entries) : Prop where
  keys : (entries.map (·.1)).Nodup
  ordered : ∀ p ∈ entries, p.2.times.value.firstViolation = .ok none

theorem Sound.put {entries : Entries} (h : entries.Sound) (id : TripId) {entry : Entry}
    (hordered : entry.times.value.firstViolation = .ok none) :
    (Entries.put id entry entries).Sound where
  keys := nodup_put h.keys id entry
  ordered := by
    intro p hp
    rcases mem_put hp with ⟨_, heq⟩ | hold
    · rw [heq]
      exact hordered
    · exact h.ordered p hold

end Entries

/-! ## What a request comes to -/

namespace Request

/-- What a request can come to. -/
inductive Does (b : Builder) : Request → UpdateAttempt → Prop
  | duplicate {pattern : Shared Pattern} {times : TripTimes} :
      b.entries.held times.trip.id ≠ none →
      Does b (.add pattern times) (b.dismiss (.duplicateTrip times.trip.id))
  | addBackwards {pattern : Shared Pattern} {times : TripTimes} {violation : TimeViolation} :
      b.entries.held times.trip.id = none → times.firstViolation = .ok (some violation) →
      Does b (.add pattern times) (b.reject (.rejected times.trip.id violation))
  | mismatch {pattern : Shared Pattern} {times : TripTimes} {cause : TripRefusal} :
      b.entries.held times.trip.id = none → times.firstViolation = .ok none →
      TimedTrip.pair pattern.value times = .error cause →
      Does b (.add pattern times) (b.dismiss (.failed times.trip.id cause))
  | add {pattern : Shared Pattern} {times : TripTimes} {trip : TimedTrip} :
      b.entries.held times.trip.id = none → times.firstViolation = .ok none →
      TimedTrip.pair pattern.value times = .ok trip →
      Does b (.add pattern times)
        (b.accept times.trip.id { pattern, times := { tag := b.nextTag, value := times } })
  | unknown {id : TripId} {change : TripTimes → Checked Attempt} :
      b.entries.held id = none → Does b (.update id change) (b.dismiss (.unknownTrip id))
  | failed {id : TripId} {change : TripTimes → Checked Attempt} {pattern : Shared Pattern}
      {times : TripTimes} {attempt : Attempt} {cause : TripRefusal} :
      b.entries.held id = some (pattern, times) → change times = .ok attempt →
      attempt.refusal = some cause → Does b (.update id change) (b.reject (.failed id cause))
  | backwards {id : TripId} {change : TripTimes → Checked Attempt} {pattern : Shared Pattern}
      {times : TripTimes} {attempt : Attempt} {violation : TimeViolation} :
      b.entries.held id = some (pattern, times) → change times = .ok attempt →
      attempt.refusal = none → attempt.trip.firstViolation = .ok (some violation) →
      Does b (.update id change) (b.reject (.rejected id violation))
  | update {id : TripId} {change : TripTimes → Checked Attempt} {pattern : Shared Pattern}
      {times : TripTimes} {attempt : Attempt} :
      b.entries.held id = some (pattern, times) → change times = .ok attempt →
      attempt.refusal = none → attempt.trip.firstViolation = .ok none →
      Does b (.update id change)
        (b.accept id { pattern, times := { tag := b.nextTag, value := attempt.trip } })
  | cancel {id : TripId} {result : UpdateAttempt} :
      Does b (.update id Change.cancel.run) result → Does b (.cancel id) result

/-- What can stop a request: its function, or a time that cannot be read. -/
inductive Stops (b : Builder) : Request → Fault → Prop
  | add {pattern : Shared Pattern} {times : TripTimes} {f : Fault} :
      times.firstViolation = .error f → Stops b (.add pattern times) f
  | change {id : TripId} {change : TripTimes → Checked Attempt} {pattern : Shared Pattern}
      {times : TripTimes} {f : Fault} : b.entries.held id = some (pattern, times) →
      change times = .error f → Stops b (.update id change) f
  | update {id : TripId} {change : TripTimes → Checked Attempt} {pattern : Shared Pattern}
      {times : TripTimes} {attempt : Attempt} {f : Fault} :
      b.entries.held id = some (pattern, times) → change times = .ok attempt →
      attempt.trip.firstViolation = .error f → Stops b (.update id change) f
  | cancel {id : TripId} {f : Fault} :
      Stops b (.update id Change.cancel.run) f → Stops b (.cancel id) f

variable {b : Builder} {r : Request} {result : UpdateAttempt}

theorem add_ends (b : Builder) (pattern : Shared Pattern) (times : TripTimes) :
    Ends (Does b (.add pattern times)) (Stops b (.add pattern times)) (b.add pattern times) := by
  unfold Builder.add
  cases hlookup : b.entries.lookup times.trip.id with
  | some entry =>
      simp only [hlookup, Option.isSome_some, if_true]
      exact Does.duplicate (by rw [Entries.held_of_lookup hlookup]; nofun)
  | none =>
      have hnew := Entries.held_of_lookup_none hlookup
      simp only [hlookup, Option.isSome_none, Bool.false_eq_true, if_false]
      refine Ends.bind_cases (fun f hf => Stops.add hf) fun violation hviolation => ?_
      cases violation with
      | some violation => exact Does.addBackwards hnew hviolation
      | none =>
          cases hpair : TimedTrip.pair pattern.value times with
          | error cause => exact Does.mismatch hnew hviolation hpair
          | ok trip => exact Does.add hnew hviolation hpair

theorem update_ends (b : Builder) (id : TripId) (change : TripTimes → Checked Attempt) :
    Ends (Does b (.update id change)) (Stops b (.update id change)) (b.update id change) := by
  unfold Builder.update
  cases hlookup : b.entries.lookup id with
  | none => exact Does.unknown (Entries.held_of_lookup_none hlookup)
  | some entry =>
      have hheld := Entries.held_of_lookup hlookup
      refine Ends.bind_cases (fun f hf => Stops.change hheld hf) fun attempt hchange => ?_
      cases hrefusal : attempt.refusal with
      | some cause => exact Does.failed hheld hchange hrefusal
      | none =>
          refine Ends.bind_cases (fun f hf => Stops.update hheld hchange hf) ?_
          intro violation hviolation
          cases violation with
          | some violation => exact Does.backwards hheld hchange hrefusal hviolation
          | none => exact Does.update hheld hchange hrefusal hviolation

/-- A request comes to one of these things, or is stopped in one of these ways. -/
theorem run_ends (r : Request) (b : Builder) : Ends (Does b r) (Stops b r) (r.run b) := by
  cases r with
  | add pattern times => exact add_ends b pattern times
  | update id change => exact update_ends b id change
  | cancel id =>
      refine (update_ends b id Change.cancel.run).mono ?_ ?_
      · intro result hdoes
        exact .cancel hdoes
      · intro f hstops
        exact .cancel hstops

theorem does_of_run (h : r.run b = .ok result) : Does b r result := by
  have hends := run_ends r b
  rw [h] at hends
  exact hends

/-! ## Atomicity -/

/-- What an accepted request makes of what is known of each trip. -/
def applyTo (held : Held) : Request → Held
  | add pattern times => held.set times.trip.id pattern times
  | update id change => held.revise id change
  | cancel id => held.revise id Change.cancel.run

/-- A refused request leaves every trip as it was. -/
theorem Does.entries_of_refusal (h : Does b r result) (hrefused : result.refusal ≠ none) :
    result.builder.entries = b.entries := by
  induction h with
  | duplicate | addBackwards | mismatch | unknown | failed | backwards => rfl
  | add => exact absurd rfl hrefused
  | update => exact absurd rfl hrefused
  | cancel _ ih => exact ih hrefused

/-- An accepted request makes one entry, for its trip, with times in order. -/
theorem Does.accept_of_accepted (h : Does b r result) (haccepted : result.refusal = none) :
    ∃ entry, result = b.accept r.trip entry ∧ entry.times.value.firstViolation = .ok none ∧
      b.entries.held.set r.trip entry.pattern entry.times.value = r.applyTo b.entries.held := by
  induction h with
  | duplicate | addBackwards | mismatch | unknown | failed | backwards => cases haccepted
  | add _ hordered _ => exact ⟨_, rfl, hordered, rfl⟩
  | update hheld hchange _ hordered =>
      refine ⟨_, rfl, hordered, ?_⟩
      simp only [applyTo, Held.revise, hheld, hchange, trip]
  | cancel _ ih => exact ih haccepted

theorem Does.held_of_accepted (h : Does b r result) (haccepted : result.refusal = none) :
    result.builder.entries.held = r.applyTo b.entries.held := by
  obtain ⟨entry, rfl, _, hheld⟩ := h.accept_of_accepted haccepted
  rw [← hheld]
  exact Entries.held_put r.trip entry b.entries

/-- An accepted request touches no trip but its own. -/
theorem Does.lookup_of_ne (h : Does b r result) (haccepted : result.refusal = none) {key : TripId}
    (hne : key ≠ r.trip) : result.builder.entries.lookup key = b.entries.lookup key := by
  obtain ⟨entry, rfl, _, _⟩ := h.accept_of_accepted haccepted
  show (b.entries.put r.trip entry).lookup key = _
  rw [Entries.lookup_put, if_neg hne]

theorem Does.isSome_lookup (h : Does b r result) (haccepted : result.refusal = none) :
    (result.builder.entries.lookup r.trip).isSome := by
  obtain ⟨entry, rfl, _, _⟩ := h.accept_of_accepted haccepted
  show ((b.entries.put r.trip entry).lookup r.trip).isSome
  rw [Entries.lookup_put, if_pos rfl]
  rfl

/-- Whatever a request comes to, only trips in order are taken over. -/
theorem Does.sound (h : Does b r result) (hsound : b.entries.Sound) :
    result.builder.entries.Sound := by
  by_cases haccepted : result.refusal = none
  · obtain ⟨entry, rfl, hordered, _⟩ := h.accept_of_accepted haccepted
    exact hsound.put r.trip hordered
  · rw [h.entries_of_refusal haccepted]
    exact hsound

end Request

/-! ## Counting -/

/-- The call is turned down for what came of it: times that go backwards, or a
change that is refused. -/
def Call.turnedDown (c : Call) : Bool :=
  match c.refusal, c.request with
  | some (.rejected ..), _ => true
  | some (.failed ..), .update .. | some (.failed ..), .cancel _ => true
  | _, _ => false

/-- To cancel a trip is to update it. -/
theorem Call.turnedDown_cancel (id : TripId) (change : TripTimes → Checked Attempt)
    (refusal : Option UpdateRefusal) :
    ({ request := .cancel id, refusal } : Call).turnedDown =
      ({ request := .update id change, refusal } : Call).turnedDown := by
  rcases refusal with _ | reason
  · rfl
  · cases reason <;> rfl

namespace Request

variable {b : Builder} {r : Request} {result : UpdateAttempt}

theorem Does.base_eq (h : Does b r result) : result.builder.base = b.base := by
  induction h with
  | cancel _ ih => exact ih
  | _ => rfl

theorem Does.applied_eq (h : Does b r result) : result.builder.applied =
    b.applied + if ({ request := r, refusal := result.refusal } : Call).accepted then 1 else 0 := by
  induction h with
  | cancel _ ih => exact ih
  | _ => rfl

theorem Does.rejected_eq (h : Does b r result) : result.builder.rejected =
    b.rejected +
      if ({ request := r, refusal := result.refusal } : Call).turnedDown then 1 else 0 := by
  induction h with
  | cancel hupdate ih =>
      rw [ih, Call.turnedDown_cancel]
  | _ => rfl

end Request

/-! ## Runs -/

/-- Whatever comes of the request, it keeps what is said of the entries. -/
def Request.Keeps (r : Request) (P : Entries → Prop) : Prop :=
  ∀ b result, P b.entries → r.Does b result → P result.builder.entries

section

variable {P : Entries → Prop}

/-- What each request keeps, a builder keeps. -/
theorem Builder.keeps_of_runAll {requests : List Request} {b b' : Builder} {calls : List Call}
    (h : P b.entries) (hkeeps : ∀ r ∈ requests, r.Keeps P)
    (hrun : Builder.runAll requests b = .ok (b', calls)) : P b'.entries := by
  induction requests generalizing b calls with
  | nil =>
      cases hrun
      exact h
  | cons r requests ih =>
      obtain ⟨result, hresult, hrun⟩ := bind_eq_ok_iff.mp hrun
      obtain ⟨⟨last, rest⟩, hrest, hrun⟩ := bind_eq_ok_iff.mp hrun
      cases hrun
      have hstep := hkeeps r List.mem_cons_self b result h (Request.does_of_run hresult)
      exact ih hstep (fun r' hr' => hkeeps r' (List.mem_cons_of_mem _ hr')) hrest

/-- So does the timetable, whatever is requested in sessions that are dropped. -/
theorem Snapshot.keeps_of_runAll {sessions : List Session} {s s' : Snapshot}
    {published : List (List Call)} (h : P s.entries)
    (hkeeps : ∀ session ∈ sessions, session.publishes → ∀ r ∈ session.requests, r.Keeps P)
    (hrun : Snapshot.runAll sessions s = .ok (s', published)) : P s'.entries := by
  induction sessions generalizing s published with
  | nil =>
      cases hrun
      exact h
  | cons session sessions ih =>
      have hlater := fun other hother => hkeeps other (List.mem_cons_of_mem session hother)
      obtain ⟨⟨b, calls⟩, hcalls, hrun⟩ := bind_eq_ok_iff.mp hrun
      by_cases hpublishes : session.publishes
      · simp only [hpublishes, if_true] at hrun
        obtain ⟨⟨last, rest⟩, hrest, hrun⟩ := bind_eq_ok_iff.mp hrun
        cases hrun
        have hb : P b.entries := Builder.keeps_of_runAll (b := s.edit) h
          (hkeeps session List.mem_cons_self hpublishes) hcalls
        exact ih (s := b.publish) hb hlater hrest
      · simp only [if_neg hpublishes] at hrun
        exact ih h hlater hrun

end

end Journey
