import Journey.Proofs.Timetable.LastWrite

/-!
# The realtime life of a trip

**Statement** (`lifecycle_of_tryAll`): build a trip and try any changes on it.
As long as times are in range,

* the trip is as scheduled exactly as long as it has no overlay, which is as
  long as no value of a stop was set and the trip was not canceled;
* an overlay has an entry for each stop in each of its columns;
* a refused change leaves the trip as it is;
* a cancellation closes every stop and keeps the schedule and what was recorded
  (`Cancels`). It is for good: a canceled trip refuses every write and every
  shift (`Closed`), and whatever is tried, nothing but its service code changes.
-/

namespace Journey

namespace TripTimes

/-- Nothing of a closed trip can be changed any more, and none of its stops serves anyone. -/
structure Closed (t : TripTimes) : Prop where
  write : ∀ c : Change, c.isWrite = true →
    c.run t = .ok { trip := t, refusal := some (.canceled t.trip.id) }
  shift : ∀ stop time departure, (Change.shift stop time departure).run t =
    .ok { trip := t, refusal := some (.hasRealtimeData t.trip.id) }
  cancel : Change.cancel.run t = .ok { trip := t }
  value : ∀ stop < t.stopCount, ∀ (f : StopField) (value : f.Value), f.closed? = some value →
    t.value f stop = .ok value

/-- The second trip is the first one, canceled. What a cancellation does not
close is as it was. -/
structure Cancels (t t' : TripTimes) : Prop where
  canceled : t'.realtime = .canceled
  closed : t'.Closed
  stopCount : t'.stopCount = t.stopCount
  scheduled : ∀ stop < t.stopCount, t'.scheduledArrival stop = t.scheduledArrival stop ∧
    t'.scheduledDeparture stop = t.scheduledDeparture stop
  kept : ∀ stop < t.stopCount, ∀ f : StopField, f.closed? = none → t'.value f stop = t.value f stop

variable {t : TripTimes} {stops : List StopTime} {accepted : List Change}

theorem Reflects.length_column (h : t.Reflects stops accepted) {o : Overlay}
    (ho : t.overlay = some o) (f : StopField) : (o.column f).length = t.stopCount := by
  rw [(h.columns o ho).length_column, h.schedule.stopCount_eq]

/-! ## Cancellation -/

theorem Reflects.closed_of_canceled (h : t.Reflects stops accepted)
    (hcanceled : t.isCanceled = true) : t.Closed where
  write := by
    intro c hwrite
    obtain ⟨stop, hstop⟩ := Option.isSome_iff_exists.mp hwrite
    apply Change.run_of_refusal
    rw [Change.refusal?_of_stop? hstop, writeRefusal?, if_pos hcanceled]
  shift := by
    intro stop time departure
    apply Change.run_of_refusal
    obtain ⟨o, ho⟩ := Option.ne_none_iff_exists'.mp (h.overlay_of_canceled hcanceled)
    show t.shiftRefusal? stop = _
    simp [shiftRefusal?, isScheduled, ho]
  cancel := by
    show (t.cancel >>= _) = _
    rw [cancel, if_pos hcanceled]
    rfl
  value := by
    intro stop hlt f value hclosed
    rw [h.schedule.stopCount_eq] at hlt
    rw [h.value_eq (List.getElem?_eq_getElem hlt)]
    exact h.closed (h.isCanceled_iff.mp hcanceled) _ _ _ f value hclosed

theorem Reflects.cancels (h : t.Reflects stops accepted) {attempt : Attempt}
    (hrun : Change.cancel.run t = .ok attempt) :
    attempt.refusal = none ∧ t.Cancels attempt.trip := by
  have hdoes := Change.does_of_run hrun
  have haccepted : attempt.refusal = none := hdoes.refusal_eq
  have h' := h.step hdoes haccepted
  have hcanceled : attempt.trip.isCanceled = true := h'.isCanceled_iff.mpr List.mem_cons_self
  have hcount : attempt.trip.stopCount = t.stopCount := by
    rw [h'.schedule.stopCount_eq, h.schedule.stopCount_eq]
  refine ⟨haccepted, ⟨beq_iff_eq.mp hcanceled, h'.closed_of_canceled hcanceled, hcount, ?_, ?_⟩⟩
  · intro stop hlt
    rw [h.schedule.stopCount_eq] at hlt
    have hst := List.getElem?_eq_getElem hlt
    rw [h'.schedule.scheduledArrival_eq hst, h.schedule.scheduledArrival_eq hst,
      h'.schedule.scheduledDeparture_eq hst, h.schedule.scheduledDeparture_eq hst]
    exact ⟨rfl, rfl⟩
  · intro stop hlt f hkept
    rw [h.schedule.stopCount_eq] at hlt
    have hst := List.getElem?_eq_getElem hlt
    rw [h'.value_eq hst, h.value_eq hst,
      StopTime.after_cons_of_none ((Change.sets?_cancel _ _ _ f).trans hkept)]
    rfl

/-- A canceled trip can still get a service code, and that is all. -/
theorem Reflects.tryAll_of_canceled (h : t.Reflects stops accepted)
    (hcanceled : t.isCanceled = true) (changes : List Change) :
    ∃ code accepted', Change.tryAll accepted changes t =
      .ok ({ t with serviceCode := code }, accepted') := by
  induction changes generalizing t accepted with
  | nil => exact ⟨t.serviceCode, accepted, rfl⟩
  | cons c changes ih =>
      have hclosed := h.closed_of_canceled hcanceled
      by_cases hwrite : c.isWrite = true
      · obtain ⟨code, accepted', hrest⟩ := ih h hcanceled
        refine ⟨code, accepted', ?_⟩
        rw [Change.tryAll, hclosed.write c hwrite]
        exact hrest
      · cases c with
        | shift stop time departure =>
            obtain ⟨code, accepted', hrest⟩ := ih h hcanceled
            refine ⟨code, accepted', ?_⟩
            rw [Change.tryAll, hclosed.shift]
            exact hrest
        | cancel =>
            have hstays := h.step (.stay hcanceled) rfl
            obtain ⟨code, accepted', hrest⟩ := ih hstays hcanceled
            refine ⟨code, accepted', ?_⟩
            rw [Change.tryAll, hclosed.cancel]
            exact hrest
        | serviceCode code =>
            have hcoded := h.step (.code code) rfl
            obtain ⟨code', accepted', hrest⟩ := ih hcoded hcanceled
            exact ⟨code', accepted', hrest⟩
        | _ => exact absurd rfl hwrite

/-! ## Main statement -/

theorem lifecycle_of_tryAll {trip : Trip} {stops : List StopTime} {interner : Interner}
    (hstops : stops ≠ []) :
    Ends (fun built => ∀ changes t accepted, Change.tryAll [] changes built.1 = .ok (t, accepted) →
        (t.realtime = .scheduled ↔ t.overlay = none) ∧
        (t.overlay = none ↔ ∀ c ∈ accepted, c.isWrite = false ∧ c ≠ .cancel) ∧
        (∀ o, t.overlay = some o → ∀ f, (o.column f).length = t.stopCount) ∧
        (∀ c, Ends (fun attempt => attempt.refusal ≠ none → attempt.trip = t)
          (Fault.OverflowsUnless (c.InReach stops (movedBy stops accepted))) (Change.run c t)) ∧
        Ends (fun attempt => attempt.refusal = none ∧ t.Cancels attempt.trip)
          (Fault.OverflowsUnless (TimesInRange stops (movedBy stops accepted)))
          (Change.cancel.run t) ∧
        (t.isCanceled = true ↔ .cancel ∈ accepted) ∧
        (t.isCanceled = true → t.Closed ∧ ∀ later, ∃ code accepted',
          Change.tryAll accepted later t = .ok ({ t with serviceCode := code }, accepted')))
      (Failure.OverflowsUnless (SpansInRange stops)) (build trip stops interner) := by
  refine (build_ends hstops).mono ?_ fun _ he => he
  rintro ⟨start, interner'⟩ hstart changes t accepted htry
  have h := hstart.tryAll htry
  refine ⟨h.scheduled_iff, ?_, fun o ho => h.length_column ho, ?_, ?_, h.isCanceled_iff, ?_⟩
  · rw [h.overlay]
    simp [Change.touches]
  · intro c
    refine (h.run_ends c).forget.of_forall ?_
    intro attempt hrun hrefused
    obtain ⟨reason, hreason⟩ := Option.ne_none_iff_exists'.mp hrefused
    exact (Change.does_of_run hrun).trip_eq_of_refusal hreason
  · have hends := (h.run_ends .cancel).forget.unless_mono fun hrange => ⟨hrange, trivial⟩
    exact hends.of_forall fun attempt hrun => h.cancels hrun
  · intro hcanceled
    exact ⟨h.closed_of_canceled hcanceled, h.tryAll_of_canceled hcanceled⟩

/-- The crossing is canceled after its call on the way was recorded. What is
forecast after that is refused. -/
theorem crossing_stays_canceled :
    ∃ start interner t canceled, build { id := "F" } crossing {} = .ok (start, interner) ∧
      Change.tryAll [] [.recorded 1 true] start = .ok (t, [.recorded 1 true]) ∧
      Change.cancel.run t = .ok { trip := canceled } ∧ canceled.isRecorded 1 = .ok true ∧
      canceled.arrival 1 = .ok Clock.unavailable ∧ canceled.scheduledArrival 1 = .ok 36600 ∧
      (Change.arrivalTime 1 36780).run canceled =
        .ok { trip := canceled, refusal := some (.canceled canceled.trip.id) } := by
  have hruns : ∃ start interner t canceled,
      build { id := "F" } crossing {} = .ok (start, interner) ∧
        Change.tryAll [] [.recorded 1 true] start = .ok (t, [.recorded 1 true]) ∧
        Change.cancel.run t = .ok { trip := canceled } ∧ t.isRecorded 1 = .ok true ∧
        t.scheduledArrival 1 = .ok 36600 ∧ t.stopCount = 3 :=
    ⟨_, _, _, _, rfl, rfl, rfl, rfl, rfl, rfl⟩
  obtain ⟨start, interner, t, canceled, hbuild, htry, hcancel, hrecorded, harrival, hcount⟩ := hruns
  have hlaw := @lifecycle_of_tryAll { id := "F" } crossing {} (by decide)
  rw [hbuild] at hlaw
  obtain ⟨_, _, _, _, hcancels, _, _⟩ := hlaw _ t _ htry
  rw [hcancel] at hcancels
  obtain ⟨_, h⟩ := hcancels
  have hlt : 1 < t.stopCount := by omega
  have hlt' : 1 < canceled.stopCount := h.stopCount ▸ hlt
  refine ⟨start, interner, t, canceled, hbuild, htry, hcancel, ?_, ?_, ?_, ?_⟩
  · exact (h.kept 1 hlt .recorded rfl).trans hrecorded
  · exact h.closed.value 1 hlt' .arrival _ rfl
  · exact (h.scheduled 1 hlt).1.trans harrival
  · exact h.closed.write _ rfl

end TripTimes

end Journey
