import Journey.Itinerary.Basic
import Journey.Proofs.Calendar.Days

/-!
# Service times on the calendar

A moment is a day and a time of that day. Two moments are so many seconds apart
(`DateTime.Apart`) when the steps from one day to the other and the times of day make up
that number; a service time on a date is the moment so far from its midnight. The count
of seconds that a moment is converted through agrees with that (`DateTime.apart_iff`), since day
numbers agree with the steps of the calendar.

**Statement** (`DateTime.ofService?_exact`): a service time that is available lies on
exactly one moment, and that one is given wherever its year is kept. Later times give
later moments, and the start and the end of an itinerary are apart by their times.
-/

namespace Journey

namespace DateTime

variable {a b m m' : DateTime} {d : Date}

/-- Seconds since the midnight at which the day of a moment begins. -/
def timeOfDay (m : DateTime) : Nat := m.hour * 3600 + m.minute * 60 + m.second

/-- The date is in the calendar and the time lies between 00:00:00 and 23:59:59. -/
structure Proper (m : DateTime) : Prop where
  date : m.date.Valid
  hour : m.hour < 24
  minute : m.minute < 60
  second : m.second < 60

/-- The second moment comes so many seconds after the first. -/
def Apart (a b : DateTime) (seconds : Int) : Prop :=
  ∃ days, a.date.Away days b.date ∧ days * 86400 + b.timeOfDay - a.timeOfDay = seconds

/-- The moment is the earlier one, by its date, then by the time of day. -/
def Before (a b : DateTime) : Prop :=
  a.date.Before b.date ∨ a.date = b.date ∧ a.timeOfDay < b.timeOfDay

def midnight (d : Date) : DateTime := { date := d, hour := 0, minute := 0, second := 0 }

/-- The moment that a service time of a date stands for. -/
def LiesAt (m : DateTime) (d : Date) (time : Int) : Prop := m.Proper ∧ (midnight d).Apart m time

/-! ## Counted from one start -/

theorem instant_eq (m : DateTime) : m.instant = m.date.dayNumber * 86400 + m.timeOfDay := rfl

theorem Proper.timeOfDay_lt (h : m.Proper) : m.timeOfDay < 86400 := by
  have hhour := h.hour
  have hminute := h.minute
  have hsecond := h.second
  unfold timeOfDay
  omega

theorem apart_iff (ha : a.date.Valid) (hb : b.date.Valid) (seconds : Int) :
    a.Apart b seconds ↔ b.instant = a.instant + seconds := by
  rw [instant_eq, instant_eq]
  constructor
  · rintro ⟨days, haway, rfl⟩
    rw [Date.away_iff ha hb] at haway
    omega
  · intro h
    refine ⟨b.date.dayNumber - a.date.dayNumber, (Date.away_iff ha hb _).mpr (by omega), ?_⟩
    omega

theorem instant_midnight (d : Date) : (midnight d).instant = d.dayNumber * 86400 := by
  rw [instant_eq]
  simp [midnight, timeOfDay]

/-- The time of day has one hour, minute and second. -/
theorem eq_of_timeOfDay (hm : m.Proper) (hm' : m'.Proper) (hdate : m.date = m'.date)
    (htime : m.timeOfDay = m'.timeOfDay) : m = m' := by
  obtain ⟨_, hhour, hminute, hsecond⟩ := hm
  obtain ⟨_, hhour', hminute', hsecond'⟩ := hm'
  obtain ⟨date, hour, minute, second⟩ := m
  obtain ⟨date', hour', minute', second'⟩ := m'
  simp only [timeOfDay, DateTime.mk.injEq] at *
  refine ⟨hdate, ?_, ?_, ?_⟩
  all_goals omega

/-- The day number and the time of day are the quotient and the remainder of the count. -/
theorem instant_injective (hm : m.Proper) (hm' : m'.Proper) (h : m.instant = m'.instant) :
    m = m' := by
  have hlt := hm.timeOfDay_lt
  have hlt' := hm'.timeOfDay_lt
  rw [instant_eq, instant_eq] at h
  have hday : m.date.dayNumber = m'.date.dayNumber := by omega
  have hdate := Date.dayNumber_injective hm.date hm'.date hday
  exact eq_of_timeOfDay hm hm' hdate (by omega)

theorem before_of_instant_lt (hm : m.Proper) (hm' : m'.Proper) (h : m.instant < m'.instant) :
    m.Before m' := by
  have hlt := hm.timeOfDay_lt
  have hlt' := hm'.timeOfDay_lt
  rw [instant_eq, instant_eq] at h
  by_cases hday : m.date.dayNumber < m'.date.dayNumber
  · exact .inl (Date.before_of_dayNumber_lt hm'.date hday)
  · have hsame : m.date.dayNumber = m'.date.dayNumber := by omega
    exact .inr ⟨Date.dayNumber_injective hm.date hm'.date hsame, by omega⟩

/-! ## Conversion -/

theorem proper_ofSeconds (day seconds : Int) : (ofSeconds day seconds).Proper where
  date := Date.valid_ofDayNumber _
  hour := by
    simp only [ofSeconds, secondsPerDay]
    omega
  minute := Nat.mod_lt _ (by decide)
  second := Nat.mod_lt _ (by decide)

theorem instant_ofSeconds (day seconds : Int) :
    (ofSeconds day seconds).instant = day * 86400 + seconds := by
  rw [instant_eq]
  simp only [ofSeconds, timeOfDay, secondsPerDay, Date.dayNumber_ofDayNumber]
  omega

/-- A service time stands for exactly one moment. -/
theorem liesAt_iff (hd : d.Valid) (time : Int) :
    m.LiesAt d time ↔ m = ofSeconds d.dayNumber time := by
  have hproper := proper_ofSeconds d.dayNumber time
  constructor
  · rintro ⟨hm, hapart⟩
    rw [apart_iff hd hm.date, instant_midnight] at hapart
    exact instant_injective hm hproper (by rw [hapart, instant_ofSeconds])
  · rintro rfl
    refine ⟨hproper, ?_⟩
    rw [apart_iff hd hproper.date, instant_midnight, instant_ofSeconds]

theorem ofService?_eq {time : Int} (h : time ≠ Clock.unavailable) :
    ofService? d time =
      if (ofSeconds d.dayNumber time).date.Kept then some (ofSeconds d.dayNumber time)
      else none := by
  have havailable : Clock.isAvailable time = true := bne_iff_ne.mpr h
  rw [ofService?, if_pos havailable]

theorem ofService?_unavailable (d : Date) : ofService? d Clock.unavailable = none := rfl

/-- A moment that is given is the one that the time stands for. -/
theorem eq_ofSeconds_of_ofService? {time : Int} (h : ofService? d time = some m) :
    m = ofSeconds d.dayNumber time := by
  by_cases htime : time = Clock.unavailable
  · rw [htime, ofService?_unavailable] at h
    cases h
  · rw [ofService?_eq htime] at h
    split at h
    · exact (Option.some.inj h).symm
    · cases h

/-- Moments of a service day are apart by their times. -/
theorem apart_of_ofService? {time time' : Int} (h : ofService? d time = some m)
    (h' : ofService? d time' = some m') : m.Apart m' (time' - time) := by
  obtain rfl := eq_ofSeconds_of_ofService? h
  obtain rfl := eq_ofSeconds_of_ofService? h'
  rw [apart_iff (proper_ofSeconds _ _).date (proper_ofSeconds _ _).date, instant_ofSeconds,
    instant_ofSeconds]
  omega

theorem before_of_ofService? {time time' : Int} (hlt : time < time')
    (h : ofService? d time = some m) (h' : ofService? d time' = some m') : m.Before m' := by
  obtain rfl := eq_ofSeconds_of_ofService? h
  obtain rfl := eq_ofSeconds_of_ofService? h'
  apply before_of_instant_lt (proper_ofSeconds _ _) (proper_ofSeconds _ _)
  rw [instant_ofSeconds, instant_ofSeconds]
  omega

/-! ## Statement -/

theorem ofService?_exact (d : Date) (hd : d.Valid) :
    (∀ time, time ≠ Clock.unavailable → ∃ m,
      (∀ m', m'.LiesAt d time ↔ m' = m) ∧
        ofService? d time = if m.date.Kept then some m else none) ∧
    ofService? d Clock.unavailable = none ∧
    (∀ time time' m m', time < time' → ofService? d time = some m →
      ofService? d time' = some m' → m.Before m') ∧
    ∀ (i : Itinerary) (start finish : DateTime), i.startMoment? d = some start →
      i.endMoment? d = some finish → start.Apart finish (i.endTime - i.startTime) := by
  refine ⟨?_, ofService?_unavailable d, ?_, ?_⟩
  · intro time htime
    exact ⟨ofSeconds d.dayNumber time, fun m' => liesAt_iff hd time, ofService?_eq htime⟩
  · intro time time' m m' hlt h h'
    exact before_of_ofService? hlt h h'
  · intro i start finish hstart hfinish
    exact apart_of_ofService? hstart hfinish

/-- A second before the last midnight of the years that are kept there is a moment, and at
that midnight there is none. -/
theorem lastDay_exact :
    (⟨⟨262142, 12, 31⟩, 23, 59, 59⟩ : DateTime).LiesAt ⟨262142, 12, 31⟩ 86399 ∧
      ofService? ⟨262142, 12, 31⟩ 86399 = some ⟨⟨262142, 12, 31⟩, 23, 59, 59⟩ ∧
      ofService? ⟨262142, 12, 31⟩ 86400 = none := by
  have hvalid : (⟨262142, 12, 31⟩ : Date).Valid := ⟨by decide, by decide, 31, rfl, by decide⟩
  have hmoment : ofService? ⟨262142, 12, 31⟩ 86399 = some ⟨⟨262142, 12, 31⟩, 23, 59, 59⟩ := by
    decide
  obtain ⟨m, hlies, hgiven⟩ := (ofService?_exact _ hvalid).1 86399 (by decide)
  rw [hmoment] at hgiven
  split at hgiven
  · exact ⟨(hlies _).mpr (Option.some.inj hgiven), hmoment, by decide⟩
  · cases hgiven

end DateTime

end Journey
