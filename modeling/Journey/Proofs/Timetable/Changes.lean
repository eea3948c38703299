import Journey.Proofs.Outcome
import Journey.Timetable.Change

/-!
# One change of a trip

Said once, and in full, what a change can come to (`Change.Does`, with
`Change.does_of_run`):

* it is **refused**, for the reason that `Change.refusal?` gives, and the trip
  stays as it is;
* it **sets** one value of one stop, on the overlay that there is or on a copy
  of the schedule;
* it **moves** the schedule, **closes** every stop, finds the trip closed, or
  gives it a service code.

Whether a change is refused is known before it runs (`Change.run_of_refusal`).
-/

namespace Journey

namespace Change

/-- The stop at which the change sets a value. -/
def stop? : Change → Option Nat
  | arrivalTime stop _ | departureTime stop _ | arrivalDelay stop _ | departureDelay stop _
  | cancelledStop stop _ | recorded stop _ | inaccurate stop _ | pickup stop _ | dropoff stop _ =>
    some stop
  | shift .. | cancel | serviceCode _ => none

/-- The change sets a value of a stop. -/
def isWrite (c : Change) : Bool := c.stop?.isSome

/-- Why the change is refused, if it is. -/
def refusal? (t : TripTimes) (c : Change) : Option TripRefusal :=
  match c.stop? with
  | some stop => t.writeRefusal? stop
  | none =>
    match c with
    | shift stop _ _ => t.shiftRefusal? stop
    | _ => none

/-- The change sets this field of this stop to this value. A delay counts from
the time that is scheduled. -/
inductive Sets (t : TripTimes) : Change → (f : StopField) → Nat → f.Value → Prop
  | arrivalTime (stop : Nat) (time : Int) : Sets t (.arrivalTime stop time) .arrival stop time
  | departureTime (stop : Nat) (time : Int) :
      Sets t (.departureTime stop time) .departure stop time
  | arrivalDelay {stop : Nat} {delay scheduled : Int} : t.scheduledArrival stop = .ok scheduled →
      Sets t (.arrivalDelay stop delay) .arrival stop (scheduled + delay)
  | departureDelay {stop : Nat} {delay scheduled : Int} :
      t.scheduledDeparture stop = .ok scheduled →
      Sets t (.departureDelay stop delay) .departure stop (scheduled + delay)
  | cancelledStop (stop : Nat) (value : Bool) :
      Sets t (.cancelledStop stop value) .cancelled stop value
  | recorded (stop : Nat) (value : Bool) : Sets t (.recorded stop value) .recorded stop value
  | inaccurate (stop : Nat) (value : Bool) :
      Sets t (.inaccurate stop value) .inaccurate stop value
  | pickup (stop : Nat) (value : PickDrop) : Sets t (.pickup stop value) .pickup stop value
  | dropoff (stop : Nat) (value : PickDrop) : Sets t (.dropoff stop value) .dropoff stop value

/-- What a change can come to. -/
inductive Does (t : TripTimes) : Change → Attempt → Prop
  | refuse {c : Change} {reason : TripRefusal} : c.refusal? t = some reason →
      Does t c { trip := t, refusal := some reason }
  | set {c : Change} {f : StopField} {stop : Nat} {value : f.Value} {t' : TripTimes}
      {o : Overlay} : c.refusal? t = none → Sets t c f stop value →
      t.materialize = .ok (t', o) → stop < (o.column f).length →
      Does t c
        { trip := { t' with overlay := some (o.withColumn f ((o.column f).set stop value)) } }
  | move {stop : Nat} {time current : Int} {departure : Bool} :
      (shift stop time departure).refusal? t = none →
      (if departure then t.departure stop else t.arrival stop) = .ok current →
      Does t (.shift stop time departure)
        { trip := { t with timeShift := t.timeShift + (time - current) } }
  | close {t' : TripTimes} {o : Overlay} : t.isCanceled = false →
      t.materialize = .ok (t', o) →
      Does t .cancel { trip := { t' with overlay := some o.close, realtime := .canceled } }
  | stay : t.isCanceled = true → Does t .cancel { trip := t }
  | code (code : Nat) : Does t (.serviceCode code) { trip := { t with serviceCode := some code } }

end Change

/-! ## Inversion -/

namespace TripTimes

variable {t t' : TripTimes}

/-- Either the overlay was there, or it is a copy of the schedule. -/
theorem materialize_cases {o : Overlay} (h : t.materialize = .ok (t', o)) :
    t.overlay = some o ∧ t' = t ∨
    t.overlay = none ∧ t' = { t with overlay := some o, realtime := .updated } ∧
      Overlay.ofSchedule t.baseArrivals.value t.baseDepartures.value t.timeShift
        t.pickups.value t.dropoffs.value = .ok o := by
  unfold materialize at h
  cases hoverlay : t.overlay with
  | some overlay =>
      rw [hoverlay] at h
      cases h
      exact .inl ⟨rfl, rfl⟩
  | none =>
      rw [hoverlay] at h
      obtain ⟨overlay, hcopy, h⟩ := bind_eq_ok_iff.mp h
      cases h
      exact .inr ⟨rfl, rfl, hcopy⟩

theorem writeRefusal?_eq_none_iff {stop : Nat} :
    t.writeRefusal? stop = none ↔ t.isCanceled = false ∧ stop < t.stopCount := by
  unfold writeRefusal?
  by_cases hcanceled : t.isCanceled
  · simp [hcanceled]
  · by_cases hrange : t.stopCount ≤ stop
    · simp [hcanceled, hrange]
    · simp [hcanceled, hrange]
      omega

end TripTimes

namespace Change

open TripTimes

variable {t : TripTimes} {c : Change} {attempt : Attempt}

theorem refusal?_of_stop? {stop : Nat} (h : c.stop? = some stop) :
    c.refusal? t = t.writeRefusal? stop := by
  unfold refusal?
  rw [h]

theorem Sets.stop? {f : StopField} {stop : Nat} {value : f.Value} (h : Sets t c f stop value) :
    c.stop? = some stop := by
  cases h <;> rfl

theorem does_of_writeStop {f : StopField} {stop : Nat} {value : f.Value}
    (hsets : Sets t c f stop value) (h : t.writeStop f stop value = .ok attempt) :
    Does t c attempt := by
  have hrefusal := refusal?_of_stop? (t := t) hsets.stop?
  unfold writeStop at h
  cases hguard : t.writeRefusal? stop with
  | some reason =>
      rw [hguard] at h hrefusal
      cases h
      exact .refuse hrefusal
  | none =>
      rw [hguard] at h hrefusal
      obtain ⟨⟨t', o⟩, hmaterialize, h⟩ := bind_eq_ok_iff.mp h
      obtain ⟨o', hcolumn, h⟩ := bind_eq_ok_iff.mp h
      obtain ⟨xs, hset, hcolumn⟩ := bind_eq_ok_iff.mp hcolumn
      obtain ⟨hlt, rfl⟩ := Checked.set_eq_ok_iff.mp hset
      cases hcolumn
      cases h
      exact .set hrefusal hsets hmaterialize hlt

theorem does_of_writeDelay {stop : Nat} {scheduled : Checked Int} {delay : Int}
    {write : Int → Checked Attempt} (hstop : c.stop? = some stop)
    (hwrite : ∀ time, scheduled = .ok time → write (time + delay) = .ok attempt →
      Does t c attempt)
    (h : t.writeDelay stop scheduled delay write = .ok attempt) : Does t c attempt := by
  have hrefusal := refusal?_of_stop? (t := t) hstop
  unfold writeDelay at h
  cases hguard : t.writeRefusal? stop with
  | some reason =>
      rw [hguard] at h hrefusal
      cases h
      exact .refuse hrefusal
  | none =>
      rw [hguard] at h
      obtain ⟨time, htime, h⟩ := bind_eq_ok_iff.mp h
      obtain ⟨delayed, hdelayed, h⟩ := bind_eq_ok_iff.mp h
      obtain ⟨_, rfl⟩ := Checked.add_eq_ok_iff.mp hdelayed
      exact hwrite time htime h

theorem does_of_shift {stop : Nat} {time : Int} {departure : Bool}
    (h : (shift stop time departure).run t = .ok attempt) :
    Does t (.shift stop time departure) attempt := by
  have hrefusal : (shift stop time departure).refusal? t = t.shiftRefusal? stop := rfl
  unfold run shiftTo at h
  cases hshift : t.shiftRefusal? stop with
  | some reason =>
      rw [hshift] at hrefusal
      simp only [hshift] at h
      cases h
      exact .refuse hrefusal
  | none =>
      rw [hshift] at hrefusal
      simp only [hshift] at h
      cases hmoved : t.moveTo stop time departure with
      | error f =>
          rw [hmoved] at h
          cases h
      | ok moved =>
          rw [hmoved] at h
          cases h
          obtain ⟨current, hcurrent, hmoved⟩ := bind_eq_ok_iff.mp hmoved
          obtain ⟨distance, hdistance, hmoved⟩ := bind_eq_ok_iff.mp hmoved
          obtain ⟨timeShift, hsum, hmoved⟩ := bind_eq_ok_iff.mp hmoved
          obtain ⟨_, rfl⟩ := Checked.sub_eq_ok_iff.mp hdistance
          obtain ⟨_, rfl⟩ := Checked.add_eq_ok_iff.mp hsum
          cases hmoved
          exact .move hrefusal hcurrent

theorem does_of_run (h : c.run t = .ok attempt) : Does t c attempt := by
  cases c with
  | arrivalTime stop time => exact does_of_writeStop (.arrivalTime stop time) h
  | departureTime stop time => exact does_of_writeStop (.departureTime stop time) h
  | arrivalDelay stop delay =>
      exact does_of_writeDelay rfl (fun _ htime => does_of_writeStop (.arrivalDelay htime)) h
  | departureDelay stop delay =>
      exact does_of_writeDelay rfl (fun _ htime => does_of_writeStop (.departureDelay htime)) h
  | cancelledStop stop value => exact does_of_writeStop (.cancelledStop stop value) h
  | recorded stop value => exact does_of_writeStop (.recorded stop value) h
  | inaccurate stop value => exact does_of_writeStop (.inaccurate stop value) h
  | pickup stop value => exact does_of_writeStop (.pickup stop value) h
  | dropoff stop value => exact does_of_writeStop (.dropoff stop value) h
  | shift stop time departure => exact does_of_shift h
  | cancel =>
      obtain ⟨closed, hclosed, h⟩ := bind_eq_ok_iff.mp h
      cases h
      unfold TripTimes.cancel at hclosed
      by_cases hcanceled : t.isCanceled
      · rw [if_pos hcanceled] at hclosed
        cases hclosed
        exact .stay hcanceled
      · rw [if_neg hcanceled] at hclosed
        obtain ⟨⟨t', o⟩, hmaterialize, hclosed⟩ := bind_eq_ok_iff.mp hclosed
        cases hclosed
        exact .close (Bool.eq_false_iff.mpr hcanceled) hmaterialize
  | serviceCode code =>
      cases h
      exact .code code

/-! ## Refusals -/

theorem writeStop_of_refusal {f : StopField} {stop : Nat} {value : f.Value} {reason : TripRefusal}
    (h : t.writeRefusal? stop = some reason) :
    t.writeStop f stop value = .ok { trip := t, refusal := some reason } := by
  unfold writeStop
  rw [h]

theorem writeDelay_of_refusal {stop : Nat} {scheduled : Checked Int} {delay : Int}
    {write : Int → Checked Attempt} {reason : TripRefusal}
    (h : t.writeRefusal? stop = some reason) :
    t.writeDelay stop scheduled delay write = .ok { trip := t, refusal := some reason } := by
  unfold writeDelay
  rw [h]

/-- A change with a reason against it is refused for that reason, and the trip
stays as it is. -/
theorem run_of_refusal {reason : TripRefusal} (h : c.refusal? t = some reason) :
    c.run t = .ok { trip := t, refusal := some reason } := by
  cases c with
  | arrivalTime stop time => exact writeStop_of_refusal h
  | departureTime stop time => exact writeStop_of_refusal h
  | arrivalDelay stop delay => exact writeDelay_of_refusal h
  | departureDelay stop delay => exact writeDelay_of_refusal h
  | cancelledStop stop value => exact writeStop_of_refusal h
  | recorded stop value => exact writeStop_of_refusal h
  | inaccurate stop value => exact writeStop_of_refusal h
  | pickup stop value => exact writeStop_of_refusal h
  | dropoff stop value => exact writeStop_of_refusal h
  | shift stop time departure =>
      have hshift : t.shiftRefusal? stop = some reason := h
      unfold run shiftTo
      simp only [hshift]
      rfl
  | cancel => cases h
  | serviceCode code => cases h

/-- The refusal of an attempt is the one that was known before. -/
theorem Does.refusal_eq (h : Does t c attempt) : attempt.refusal = c.refusal? t := by
  cases h with
  | refuse hreason => exact hreason.symm
  | set hnone _ _ _ => exact hnone.symm
  | move hnone _ => exact hnone.symm
  | close _ _ => rfl
  | stay _ => rfl
  | code _ => rfl

theorem Does.trip_eq_of_refusal {reason : TripRefusal} (h : Does t c attempt)
    (hrefusal : attempt.refusal = some reason) : attempt.trip = t := by
  cases h with
  | refuse _ => rfl
  | set _ _ _ _ => cases hrefusal
  | move _ _ => cases hrefusal
  | close _ _ => cases hrefusal
  | stay _ => cases hrefusal
  | code _ => cases hrefusal

end Change

end Journey
