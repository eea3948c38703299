import Journey.Calendar
import Mathlib.Algebra.BigOperators.Group.List.Basic
import Mathlib.Algebra.Ring.Nat
import Mathlib.Logic.Function.Iterate
import Mathlib.Order.Monotone.Basic

/-!
# Counting days

The calendar itself is a rule for the day after a day: months have their lengths,
February one more day in a leap year (`Date.next`). Day numbers are a formula with
quotients by 4, 100 and 400. They agree: the number of the day after is the next number
(`Date.next_spec`), no two days share a number (`Date.dayNumber_injective`) and
every integer is the number of a day (`Date.valid_ofDayNumber`,
`Date.dayNumber_ofDayNumber`). So days that are so many steps apart are those whose
numbers differ by as much (`Date.away_iff`).
-/

namespace Journey.Date

/-! ## Years -/

def yearLength (leap : Bool) : Nat := if leap then 366 else 365

/-- A year starts as many days after the one before it as that one is long. -/
theorem yearStart_succ (year : Int) :
    yearStart (year + 1) = yearStart year + yearLength (isLeap year) := by
  unfold yearStart yearLength isLeap
  by_cases h : year % 4 = 0 ∧ (year % 100 ≠ 0 ∨ year % 400 = 0)
  · rw [decide_eq_true h]
    simp only [if_true]
    omega
  · rw [decide_eq_false h]
    simp only [Bool.false_eq_true, if_false]
    omega

/-- Four hundred years have 146097 days, and no year strays far from their mean. -/
theorem yearStart_bounds (year : Int) :
    146097 * year - 396 ≤ 400 * yearStart year ∧ 400 * yearStart year ≤ 146097 * year + 699 := by
  unfold yearStart
  omega

theorem yearStart_mono {year year' : Int} (h : year ≤ year') :
    yearStart year ≤ yearStart year' := by
  rcases Int.lt_or_eq_of_le h with hlt | rfl
  · have hyear := yearStart_bounds year
    have hyear' := yearStart_bounds year'
    omega
  · exact Int.le_refl _

/-- A day lies in the year that is found for it. -/
theorem yearOf_spec (n : Int) : yearStart (yearOf n) ≤ n ∧ n < yearStart (yearOf n + 1) := by
  have hbelow := yearStart_bounds (n * 400 / 146097 - 1)
  have habove := yearStart_bounds (n * 400 / 146097 + 1 + 1)
  simp only [yearOf]
  split
  · rw [Int.sub_add_cancel]
    omega
  · split
    · omega
    · omega

/-! ## Months -/

theorem sum_monthLengths (leap : Bool) : (monthLengths leap).sum = yearLength leap := by
  cases leap <;> rfl

/-- Days of the months in front of a place in a list of their lengths. -/
def monthStart (lengths : List Nat) (place : Nat) : Nat := (lengths.take place).sum

theorem monthStart_succ {lengths : List Nat} {place length : Nat}
    (h : lengths[place]? = some length) :
    monthStart lengths (place + 1) = monthStart lengths place + length := by
  unfold monthStart
  rw [List.take_add_one, h, List.sum_append]
  simp

theorem monthStart_mono (lengths : List Nat) : Monotone (monthStart lengths) := by
  apply monotone_nat_of_le_succ
  intro place
  cases h : lengths[place]? with
  | none =>
      have hlength := List.getElem?_eq_none_iff.mp h
      unfold monthStart
      rw [List.take_of_length_le hlength, List.take_of_length_le (by omega)]
  | some length =>
      rw [monthStart_succ h]
      omega

theorem monthStart_le_sum (lengths : List Nat) (place : Nat) :
    monthStart lengths place ≤ lengths.sum := by
  have hmono := monthStart_mono lengths (le_max_left place lengths.length)
  have hall : monthStart lengths (max place lengths.length) = lengths.sum := by
    unfold monthStart
    rw [List.take_of_length_le (le_max_right _ _)]
  omega

/-- A day of the year lies in the month that is found for it. -/
theorem monthAndDay_spec {lengths : List Nat} {days : Nat} (h : days < lengths.sum) :
    1 ≤ (monthAndDay lengths days).1 ∧ 1 ≤ (monthAndDay lengths days).2 ∧
      (∃ length, lengths[(monthAndDay lengths days).1 - 1]? = some length ∧
        (monthAndDay lengths days).2 ≤ length) ∧
      monthStart lengths ((monthAndDay lengths days).1 - 1) +
        ((monthAndDay lengths days).2 - 1) = days := by
  induction lengths generalizing days with
  | nil => simp at h
  | cons length rest ih =>
      unfold monthAndDay
      split
      · rename_i hlt
        refine ⟨Nat.le_refl 1, by simp, ⟨length, rfl, hlt⟩, ?_⟩
        simp [monthStart]
      · rename_i hge
        rw [List.sum_cons] at h
        have hrest := @ih (days - length) (by omega)
        cases hfound : monthAndDay rest (days - length) with
        | mk month day =>
        rw [hfound] at hrest
        obtain ⟨hmonth, hday, ⟨bound, hbound, hle⟩, hdays⟩ := hrest
        obtain ⟨place, rfl⟩ : ∃ place, month = place + 1 := ⟨_, (Nat.sub_add_cancel hmonth).symm⟩
        refine ⟨by simp, hday, ⟨bound, hbound, hle⟩, ?_⟩
        simp only [monthStart, Nat.add_sub_cancel, List.take_succ_cons, List.sum_cons] at hdays ⊢
        omega

/-! ## Day numbers -/

variable {d e : Date}

theorem dayNumber_eq (d : Date) :
    d.dayNumber = yearStart d.year + monthStart (monthLengths (isLeap d.year)) (d.month - 1) +
      (d.day - 1 : Nat) := rfl

/-- A day comes before the end of its month. -/
theorem Valid.dayNumber_lt_month (h : d.Valid) :
    d.dayNumber < yearStart d.year + monthStart (monthLengths (isLeap d.year)) d.month := by
  obtain ⟨hmonth, hday, length, hlength, hle⟩ := h
  have hsucc := monthStart_succ hlength
  rw [Nat.sub_add_cancel hmonth] at hsucc
  rw [dayNumber_eq]
  omega

/-- A day comes before the end of its year. -/
theorem Valid.dayNumber_lt_year (h : d.Valid) : d.dayNumber < yearStart (d.year + 1) := by
  have hmonth := h.dayNumber_lt_month
  have hsum := monthStart_le_sum (monthLengths (isLeap d.year)) d.month
  rw [sum_monthLengths] at hsum
  rw [yearStart_succ]
  omega

/-- The date is an earlier one, by year, then month, then day. -/
def Before (d e : Date) : Prop :=
  d.year < e.year ∨ d.year = e.year ∧
    (d.month < e.month ∨ d.month = e.month ∧ d.day < e.day)

theorem before_or_eq_or_before (d e : Date) : d.Before e ∨ d = e ∨ e.Before d := by
  obtain ⟨year, month, day⟩ := d
  obtain ⟨year', month', day'⟩ := e
  simp only [Before, Date.mk.injEq]
  omega

theorem dayNumber_lt_of_before (hd : d.Valid) (h : d.Before e) : d.dayNumber < e.dayNumber := by
  rcases h with hyear | ⟨hyear, hmonth | ⟨hmonth, hday⟩⟩
  · have hend := hd.dayNumber_lt_year
    have hyears := yearStart_mono (show d.year + 1 ≤ e.year by omega)
    rw [dayNumber_eq e]
    omega
  · have hend := hd.dayNumber_lt_month
    have hmonths : monthStart (monthLengths (isLeap e.year)) d.month ≤
        monthStart (monthLengths (isLeap e.year)) (e.month - 1) :=
      monthStart_mono _ (by omega)
    rw [hyear] at hend
    rw [dayNumber_eq e]
    omega
  · have hfirst := hd.2.1
    rw [dayNumber_eq d, dayNumber_eq e, hyear, hmonth]
    omega

theorem before_of_dayNumber_lt (he : e.Valid) (h : d.dayNumber < e.dayNumber) : d.Before e := by
  rcases before_or_eq_or_before d e with hbefore | rfl | hafter
  · exact hbefore
  · omega
  · have hlt := dayNumber_lt_of_before he hafter
    omega

theorem dayNumber_injective (hd : d.Valid) (he : e.Valid) (h : d.dayNumber = e.dayNumber) :
    d = e := by
  rcases before_or_eq_or_before d e with hbefore | heq | hafter
  · have hlt := dayNumber_lt_of_before hd hbefore
    omega
  · exact heq
  · have hlt := dayNumber_lt_of_before he hafter
    omega

/-- A day of the year that is found for a day number. -/
theorem dayOfYear_lt (n : Int) :
    (n - yearStart (yearOf n)).toNat < (monthLengths (isLeap (yearOf n))).sum := by
  obtain ⟨hstart, hend⟩ := yearOf_spec n
  rw [yearStart_succ] at hend
  rw [sum_monthLengths]
  omega

theorem valid_ofDayNumber (n : Int) : (ofDayNumber n).Valid := by
  obtain ⟨hmonth, hday, hlength, _⟩ := monthAndDay_spec (dayOfYear_lt n)
  exact ⟨hmonth, hday, hlength⟩

theorem dayNumber_ofDayNumber (n : Int) : (ofDayNumber n).dayNumber = n := by
  obtain ⟨_, _, _, hdays⟩ := monthAndDay_spec (dayOfYear_lt n)
  have hstart := (yearOf_spec n).1
  rw [dayNumber_eq]
  simp only [ofDayNumber]
  omega

/-! ## Steps -/

/-- The day after. -/
def next (d : Date) : Date :=
  if d.day < (monthLengths (isLeap d.year))[d.month - 1]?.getD 0 then { d with day := d.day + 1 }
  else if d.month < 12 then { d with month := d.month + 1, day := 1 }
  else { year := d.year + 1, month := 1, day := 1 }

/-- No month is empty. -/
theorem exists_monthLength (leap : Bool) {place : Nat} (h : place < 12) :
    ∃ length, (monthLengths leap)[place]? = some length ∧ 1 ≤ length := by
  have hall : ∀ length ∈ monthLengths leap, 1 ≤ length := by
    cases leap <;> decide
  have hplace : place < (monthLengths leap).length := h
  exact ⟨_, List.getElem?_eq_getElem hplace, hall _ (List.getElem_mem hplace)⟩

/-- The day after is a day of the calendar, with the next number. -/
theorem next_spec (h : d.Valid) : d.next.Valid ∧ d.next.dayNumber = d.dayNumber + 1 := by
  obtain ⟨hmonth, hday, length, hlength, hle⟩ := h
  have hplace : d.month - 1 < 12 := (List.getElem?_eq_some_iff.mp hlength).1
  have hsucc := monthStart_succ hlength
  rw [Nat.sub_add_cancel hmonth] at hsucc
  unfold next
  rw [hlength, Option.getD_some]
  split
  · refine ⟨⟨hmonth, by simp, length, hlength, by assumption⟩, ?_⟩
    simp only [dayNumber_eq]
    omega
  · split
    · -- the first of the next month
      rename_i hlast hinside
      obtain ⟨length', hlength', hpos⟩ := exists_monthLength (isLeap d.year) hinside
      refine ⟨⟨by simp, Nat.le_refl 1, length', hlength', hpos⟩, ?_⟩
      simp only [dayNumber_eq, Nat.add_sub_cancel]
      omega
    · -- the first of the next year
      rename_i hlast hend
      have htwelve : d.month = 12 := by omega
      obtain ⟨length', hlength', hpos⟩ :=
        exists_monthLength (isLeap (d.year + 1)) (show 0 < 12 by decide)
      refine ⟨⟨Nat.le_refl 1, Nat.le_refl 1, length', hlength', hpos⟩, ?_⟩
      have hall :
          monthStart (monthLengths (isLeap d.year)) d.month = yearLength (isLeap d.year) := by
        rw [htwelve, ← sum_monthLengths]
        rfl
      have hnone : monthStart (monthLengths (isLeap (d.year + 1))) (1 - 1) = 0 := rfl
      simp only [dayNumber_eq]
      rw [hnone, yearStart_succ]
      omega

/-- So many days after a day. -/
theorem iterate_next_spec (h : d.Valid) (days : Nat) :
    (next^[days] d).Valid ∧ (next^[days] d).dayNumber = d.dayNumber + days := by
  induction days with
  | zero => exact ⟨h, by simp⟩
  | succ days ih =>
      obtain ⟨hvalid, hnumber⟩ := ih
      obtain ⟨hnext, hnumber'⟩ := next_spec hvalid
      rw [Function.iterate_succ_apply']
      refine ⟨hnext, ?_⟩
      rw [hnumber', hnumber]
      omega

/-- The second day comes so many days after the first, or before it where the number is
negative. -/
def Away (d : Date) (days : Int) (e : Date) : Prop :=
  match days with
  | .ofNat n => next^[n] d = e
  | .negSucc n => next^[n + 1] e = d

theorem iterate_next_eq_iff (hd : d.Valid) (he : e.Valid) (n : Nat) :
    next^[n] d = e ↔ e.dayNumber = d.dayNumber + n := by
  obtain ⟨hvalid, hnumber⟩ := iterate_next_spec hd n
  constructor
  · rintro rfl
    exact hnumber
  · intro h
    exact dayNumber_injective hvalid he (hnumber.trans h.symm)

theorem away_iff (hd : d.Valid) (he : e.Valid) (days : Int) :
    d.Away days e ↔ e.dayNumber = d.dayNumber + days := by
  cases days with
  | ofNat n => exact iterate_next_eq_iff hd he n
  | negSucc n =>
      show next^[n + 1] e = d ↔ _
      rw [iterate_next_eq_iff he hd]
      omega

/-- Two thousand was a leap year and nineteen hundred was none. -/
example : next ⟨2000, 2, 28⟩ = ⟨2000, 2, 29⟩ ∧ next ⟨1900, 2, 28⟩ = ⟨1900, 3, 1⟩ := by decide

end Journey.Date
