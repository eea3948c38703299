import Journey.Clock.Reader
import Journey.Proofs.Clock.Written
import Mathlib.Tactic.IntervalCases

/-!
# Reading accepts what is written

A text is read by its bytes, and two different texts differ in theirs
(`bytes_injective`), so it is enough to say which bytes are read. Two bytes are read as
a number below 100 exactly if they are what it is written with
(`twoDigits?_eq_some_iff`), so what is read is made of the very components that are
written (`shows_of_read`, `read_of_shows`).

**Statement** (`read_accepts_written`): a text is read as a time exactly if it is one of
the two written forms of it, and the time has hours of two digits and no sign. Any other
text is refused, and nothing overflows.
-/

namespace Journey.Clock

/-! ## Bytes -/

def bytes (text : String) : List UInt8 := text.toList.flatMap String.utf8EncodeChar

theorem bytes_append (s t : String) : bytes (s ++ t) = bytes s ++ bytes t := by
  simp [bytes]

theorem bytes_colon : bytes ":" = [colon] := by decide

/-- No two texts have the same bytes. -/
theorem bytes_injective : Function.Injective bytes := by
  intro s t h
  have hencoded : s.toList.utf8Encode = t.toList.utf8Encode := congrArg List.toByteArray h
  rw [← String.toByteArray_ofList, ← String.toByteArray_ofList, String.ofList_toList,
    String.ofList_toList] at hencoded
  exact String.toByteArray_inj.mp hencoded

def digitByte (d : Nat) : UInt8 := UInt8.ofNat (48 + d)

theorem encode_digitChar {d : Nat} (h : d < 10) :
    String.utf8EncodeChar d.digitChar = [digitByte d] := by
  interval_cases d <;> decide

theorem digit?_eq_some_iff {b : UInt8} {d : Nat} :
    digit? b = some d ↔ d < 10 ∧ b = digitByte d := by
  unfold digit? digitByte
  rw [← UInt8.toNat_inj, UInt8.toNat_ofNat']
  split
  · simp only [Option.some.injEq]
    omega
  · simp only [reduceCtorEq, false_iff]
    omega

/-- A number below 100 is written with two digits. -/
theorem bytes_twoPlaces {n : Nat} (h : n < 100) :
    bytes (twoPlaces n) = [digitByte (n / 10), digitByte (n % 10)] := by
  unfold bytes
  rw [toList_twoPlaces_natCast]
  split
  · rename_i hlt
    rw [Nat.toDigits_of_lt_base hlt, List.flatMap_cons, List.flatMap_singleton,
      encode_digitChar hlt, Nat.div_eq_of_lt hlt, Nat.mod_eq_of_lt hlt]
    rfl
  · rename_i hge
    rw [Nat.toDigits_of_base_le (by decide) (by omega), Nat.toDigits_of_lt_base (by omega),
      List.flatMap_append, List.flatMap_singleton, List.flatMap_singleton,
      encode_digitChar (by omega), encode_digitChar (by omega)]
    rfl

/-- Two bytes are read as the number that is written with them. -/
theorem twoDigits?_eq_some_iff {tens units : UInt8} {n : Nat} :
    twoDigits? tens units = some n ↔ n < 100 ∧ bytes (twoPlaces n) = [tens, units] := by
  have hdigits : twoDigits? tens units = some n ↔
      ∃ t u, digit? tens = some t ∧ digit? units = some u ∧ t * 10 + u = n := by
    unfold twoDigits?
    cases digit? tens <;> cases digit? units <;> simp
  rw [hdigits]
  constructor
  · rintro ⟨t, u, ht, hu, rfl⟩
    obtain ⟨htlt, rfl⟩ := digit?_eq_some_iff.mp ht
    obtain ⟨hult, rfl⟩ := digit?_eq_some_iff.mp hu
    refine ⟨by omega, ?_⟩
    rw [bytes_twoPlaces (by omega), show (t * 10 + u) / 10 = t by omega,
      show (t * 10 + u) % 10 = u by omega]
  · rintro ⟨hn, hbytes⟩
    rw [bytes_twoPlaces hn] at hbytes
    cases hbytes
    refine ⟨n / 10, n % 10, ?_, ?_, by omega⟩
    · exact digit?_eq_some_iff.mpr ⟨by omega, rfl⟩
    · exact digit?_eq_some_iff.mpr ⟨by omega, rfl⟩

/-! ## Places -/

/-- Hours and minutes as they are written. -/
def hourMinute (hour minute : Nat) : String := twoPlaces hour ++ ":" ++ twoPlaces minute

def hourMinuteSecond (hour minute second : Nat) : String :=
  hourMinute hour minute ++ ":" ++ twoPlaces second

/-- The text shows a time of day by its places, the seconds where they are wanted or needed. -/
def Shows (text : String) (hour minute second : Nat) : Prop :=
  text = hourMinuteSecond hour minute second ∨ second = 0 ∧ text = hourMinute hour minute

theorem bytes_hourMinute (hour minute : Nat) :
    bytes (hourMinute hour minute) =
      bytes (twoPlaces hour) ++ [colon] ++ bytes (twoPlaces minute) := by
  rw [hourMinute, bytes_append, bytes_append, bytes_colon]

theorem bytes_hourMinuteSecond (hour minute second : Nat) :
    bytes (hourMinuteSecond hour minute second) =
      bytes (twoPlaces hour) ++ [colon] ++ bytes (twoPlaces minute) ++ [colon] ++
        bytes (twoPlaces second) := by
  rw [hourMinuteSecond, bytes_append, bytes_append, bytes_colon, bytes_hourMinute]

/-- The seconds, as two digits or left out. -/
def ShowsSecond (digits : Option (UInt8 × UInt8)) (second : Nat) : Prop :=
  match digits with
  | none => second = 0
  | some digits => twoDigits? digits.1 digits.2 = some second

/-- Past the check of a place against its limit. -/
theorem ok_of_atMost_iff {n : Nat} {e : ReadError} {x : Except ReadError Int} {t : Int} :
    (if n > 59 then do throw e; x else x) = .ok t ↔ n < 60 ∧ x = .ok t := by
  by_cases h : n > 59
  · rw [if_pos h]
    constructor
    · intro h
      cases h
    · rintro ⟨hlt, _⟩
      omega
  · rw [if_neg h]
    exact ⟨fun hx => ⟨by omega, hx⟩, fun hx => hx.2⟩

theorem readPlaces_eq_ok_iff {hour minute : UInt8 × UInt8} {second : Option (UInt8 × UInt8)}
    {t : Int} :
    readPlaces hour minute second = .ok t ↔
      ∃ h m s, twoDigits? hour.1 hour.2 = some h ∧ twoDigits? minute.1 minute.2 = some m ∧
        m < 60 ∧ ShowsSecond second s ∧ s < 60 ∧ t = h * 3600 + m * 60 + s := by
  unfold readPlaces ShowsSecond
  cases twoDigits? hour.1 hour.2 with
  | none => simp
  | some h =>
    cases twoDigits? minute.1 minute.2 with
    | none => simp
    | some m =>
      dsimp only
      rw [ok_of_atMost_iff]
      cases second with
      | none =>
          constructor
          · rintro ⟨hm, ⟨⟩⟩
            exact ⟨h, m, 0, rfl, rfl, hm, rfl, by decide, by simp⟩
          · rintro ⟨_, _, _, ⟨⟩, ⟨⟩, hm, rfl, _, rfl⟩
            exact ⟨hm, by simp [pure, Except.pure]⟩
      | some digits =>
          cases hdigits : twoDigits? digits.1 digits.2 with
          | none => simp [hdigits]
          | some s =>
              simp only [hdigits]
              rw [ok_of_atMost_iff]
              constructor
              · rintro ⟨hm, hs, ⟨⟩⟩
                exact ⟨h, m, s, rfl, rfl, hm, rfl, hs, rfl⟩
              · rintro ⟨_, _, _, ⟨⟩, ⟨⟩, hm, ⟨⟩, hs, rfl⟩
                exact ⟨hm, hs, rfl⟩

/-- Five bytes or eight, with colons where they belong. -/
theorem readBytes_eq_ok_iff {bs : List UInt8} {t : Int} :
    readBytes bs = .ok t ↔
      (∃ h₁ h₂ m₁ m₂, bs = [h₁, h₂, colon, m₁, m₂] ∧
        readPlaces (h₁, h₂) (m₁, m₂) none = .ok t) ∨
      ∃ h₁ h₂ m₁ m₂ s₁ s₂, bs = [h₁, h₂, colon, m₁, m₂, colon, s₁, s₂] ∧
        readPlaces (h₁, h₂) (m₁, m₂) (some (s₁, s₂)) = .ok t := by
  constructor
  · intro h
    unfold readBytes at h
    split at h
    · split at h
      · rename_i hcolon
        subst hcolon
        exact .inl ⟨_, _, _, _, rfl, h⟩
      · cases h
    · split at h
      · rename_i hcolons
        obtain ⟨rfl, rfl⟩ := hcolons
        exact .inr ⟨_, _, _, _, _, _, rfl, h⟩
      · cases h
    · cases h
  · rintro (⟨h₁, h₂, m₁, m₂, rfl, h⟩ | ⟨h₁, h₂, m₁, m₂, s₁, s₂, rfl, h⟩)
    · rw [readBytes, if_pos rfl, h]
    · rw [readBytes, if_pos ⟨rfl, rfl⟩, h]

/-- What is read shows places that are in their ranges. -/
theorem shows_of_read {text : String} {t : Int} (hread : read text = .ok t) :
    ∃ h m s : Nat, h < 100 ∧ m < 60 ∧ s < 60 ∧ Shows text h m s ∧
      t = h * 3600 + m * 60 + s := by
  rcases readBytes_eq_ok_iff.mp hread with
    ⟨h₁, h₂, m₁, m₂, hbytes, h⟩ | ⟨h₁, h₂, m₁, m₂, s₁, s₂, hbytes, h⟩
  · obtain ⟨hour, minute, second, hhour, hminute, hlt, rfl, _, rfl⟩ := readPlaces_eq_ok_iff.mp h
    obtain ⟨hhour, hhours⟩ := twoDigits?_eq_some_iff.mp hhour
    obtain ⟨_, hminutes⟩ := twoDigits?_eq_some_iff.mp hminute
    refine ⟨hour, minute, 0, hhour, hlt, by decide, .inr ⟨rfl, bytes_injective ?_⟩, rfl⟩
    rw [bytes_hourMinute, hhours, hminutes]
    exact hbytes
  · obtain ⟨hour, minute, second, hhour, hminute, hlt, hsecond, hlt', rfl⟩ :=
      readPlaces_eq_ok_iff.mp h
    obtain ⟨hhour, hhours⟩ := twoDigits?_eq_some_iff.mp hhour
    obtain ⟨_, hminutes⟩ := twoDigits?_eq_some_iff.mp hminute
    obtain ⟨_, hseconds⟩ := twoDigits?_eq_some_iff.mp hsecond
    refine ⟨hour, minute, second, hhour, hlt, hlt', .inl (bytes_injective ?_), rfl⟩
    rw [bytes_hourMinuteSecond, hhours, hminutes, hseconds]
    exact hbytes

/-- Places that are in their ranges are read where they are shown. -/
theorem read_of_shows {text : String} {hour minute second : Nat} (hhour : hour < 100)
    (hminute : minute < 60) (hsecond : second < 60) (hshows : Shows text hour minute second) :
    read text = .ok (hour * 3600 + minute * 60 + second) := by
  have hhours := bytes_twoPlaces hhour
  have hminutes := bytes_twoPlaces (show minute < 100 by omega)
  have hseconds := bytes_twoPlaces (show second < 100 by omega)
  have hplaces : ∀ digits, ShowsSecond digits second →
      readPlaces (digitByte (hour / 10), digitByte (hour % 10))
        (digitByte (minute / 10), digitByte (minute % 10)) digits =
          .ok (hour * 3600 + minute * 60 + second) := by
    intro digits h
    exact readPlaces_eq_ok_iff.mpr
      ⟨hour, minute, second, twoDigits?_eq_some_iff.mpr ⟨hhour, hhours⟩,
        twoDigits?_eq_some_iff.mpr ⟨by omega, hminutes⟩, hminute, h, hsecond, rfl⟩
  show readBytes (bytes text) = _
  rw [readBytes_eq_ok_iff]
  rcases hshows with rfl | ⟨rfl, rfl⟩
  · refine .inr ⟨_, _, _, _, _, _, ?_, hplaces (some (_, _))
      (twoDigits?_eq_some_iff.mpr ⟨by omega, hseconds⟩)⟩
    rw [bytes_hourMinuteSecond, hhours, hminutes, hseconds]
    rfl
  · refine .inl ⟨_, _, _, _, ?_, hplaces none rfl⟩
    rw [bytes_hourMinute, hhours, hminutes]
    rfl

/-! ## Written forms -/

/-- A time of places in their ranges has these parts. -/
theorem Parts.ofSeconds_places (hour : Nat) {minute second : Nat} (hminute : minute < 60)
    (hsecond : second < 60) :
    Parts.ofSeconds (hour * 3600 + minute * 60 + second) =
      { negative := false, hours := hour, minutes := minute, seconds := second } := by
  rw [Parts.ofSeconds_of_ne (by unfold minInt; omega), Parts.mk.injEq]
  refine ⟨?_, ?_, ?_, ?_⟩
  · exact decide_eq_false (by omega)
  all_goals omega

theorem long_places (hour : Nat) {minute second : Nat} (hminute : minute < 60)
    (hsecond : second < 60) :
    long (hour * 3600 + minute * 60 + second) = hourMinuteSecond hour minute second := by
  unfold long hourMinuteSecond hourMinute
  rw [Parts.ofSeconds_places hour hminute hsecond]
  rfl

theorem compact_places (hour : Nat) {minute second : Nat} (hminute : minute < 60)
    (hsecond : second < 60) :
    compact (hour * 3600 + minute * 60 + second) =
      if second = 0 then hourMinute hour minute else hourMinuteSecond hour minute second := by
  by_cases h : second = 0
  · rw [if_pos h, compact, Parts.ofSeconds_places hour hminute hsecond]
    simp only [h]
    rfl
  · have hseconds : (Parts.ofSeconds (hour * 3600 + minute * 60 + second)).seconds ≠ 0 := by
      rw [Parts.ofSeconds_places hour hminute hsecond]
      simp only
      omega
    rw [if_neg h, compact, if_neg hseconds]
    exact long_places hour hminute hsecond

/-- A text shows the places of a time exactly if it is one of its written forms. -/
theorem shows_iff {text : String} {hour minute second : Nat} (hminute : minute < 60)
    (hsecond : second < 60) :
    Shows text hour minute second ↔
      text = long (hour * 3600 + minute * 60 + second) ∨
        text = compact (hour * 3600 + minute * 60 + second) := by
  rw [Shows, long_places hour hminute hsecond, compact_places hour hminute hsecond]
  by_cases h : second = 0
  · simp [h]
  · simp [h]

theorem read_eq_ok_iff {text : String} {t : Int} :
    read text = .ok t ↔ (0 ≤ t ∧ t ≤ 359999) ∧ (text = long t ∨ text = compact t) := by
  constructor
  · intro hread
    obtain ⟨hour, minute, second, hhour, hminute, hsecond, hshows, rfl⟩ := shows_of_read hread
    exact ⟨by omega, (shows_iff hminute hsecond).mp hshows⟩
  · rintro ⟨⟨hnonneg, hle⟩, hforms⟩
    obtain ⟨n, rfl⟩ := Int.eq_ofNat_of_zero_le hnonneg
    have hminute : n / 60 % 60 < 60 := Nat.mod_lt _ (by decide)
    have hsecond : n % 60 < 60 := Nat.mod_lt _ (by decide)
    have hplaces : (n : Int) =
        (n / 3600 : Nat) * 3600 + (n / 60 % 60 : Nat) * 60 + (n % 60 : Nat) := by
      omega
    rw [hplaces] at hforms ⊢
    exact read_of_shows (by omega) hminute hsecond ((shows_iff hminute hsecond).mpr hforms)

/-! ## Statement -/

/-- No time of two digits in each place is out of range. -/
theorem hms_places {hour minute second : Nat} (hhour : hour < 100) (hminute : minute < 60)
    (hsecond : second < 60) :
    hms hour minute second = .ok (hour * 3600 + minute * 60 + second) := by
  have hrange : ∀ n : Int, 0 ≤ n → n < 360000 → InRange n := by
    intro n hnonneg hlt
    unfold InRange minInt maxInt
    omega
  refine bind_eq_ok_iff.mpr ⟨hour * 3600, ?_, ?_⟩
  · exact Checked.mul_eq_ok_iff.mpr ⟨hrange _ (by omega) (by omega), rfl⟩
  refine bind_eq_ok_iff.mpr ⟨minute * 60, ?_, ?_⟩
  · exact Checked.mul_eq_ok_iff.mpr ⟨hrange _ (by omega) (by omega), rfl⟩
  refine bind_eq_ok_iff.mpr ⟨hour * 3600 + minute * 60, ?_, ?_⟩
  · exact Checked.add_eq_ok_iff.mpr ⟨hrange _ (by omega) (by omega), rfl⟩
  · exact Checked.add_eq_ok_iff.mpr ⟨hrange _ (by omega) (by omega), rfl⟩

/-- No text of one time is read as another. -/
theorem eq_of_read {text : String} {t t' : Int} (h : read text = .ok t')
    (htext : text = long t ∨ text = compact t) : t = t' := by
  obtain ⟨_, hforms⟩ := read_eq_ok_iff.mp h
  rcases htext with rfl | rfl
  · rcases hforms with hlong | hcompact
    · exact long_injective hlong
    · exact (eq_of_compact_eq_long hcompact.symm).symm
  · rcases hforms with hlong | hcompact
    · exact eq_of_compact_eq_long hlong
    · exact compact_injective hcompact

/-- A written form is read back, or it is refused since its time has no place for it. -/
theorem read_written {text : String} {t : Int} (htext : text = long t ∨ text = compact t) :
    (0 ≤ t ∧ t ≤ 359999) ∧ read text = .ok t ∨
      ¬ (0 ≤ t ∧ t ≤ 359999) ∧ ∃ e, read text = .error e := by
  by_cases hrange : 0 ≤ t ∧ t ≤ 359999
  · exact .inl ⟨hrange, read_eq_ok_iff.mpr ⟨hrange, htext⟩⟩
  · refine .inr ⟨hrange, ?_⟩
    cases hread : read text with
    | error e => exact ⟨e, rfl⟩
    | ok t' =>
        obtain rfl := eq_of_read hread htext
        exact absurd (read_eq_ok_iff.mp hread).1 hrange

theorem read_accepts_written (text : String) (t : Int) :
    (read text = .ok t ↔ (0 ≤ t ∧ t ≤ 359999) ∧ (text = long t ∨ text = compact t)) ∧
    ((∃ e, read text = .error e) ∨
      ∃ (hour minute second : Nat) (time : Int), Shows text hour minute second ∧
        hms hour minute second = .ok time ∧ read text = .ok time) ∧
    ((0 ≤ t ∧ t ≤ 359999) ∧ read (long t) = .ok t ∧ read (compact t) = .ok t ∨
      ¬ (0 ≤ t ∧ t ≤ 359999) ∧ (∃ e, read (long t) = .error e) ∧
        ∃ e, read (compact t) = .error e) := by
  refine ⟨read_eq_ok_iff, ?_, ?_⟩
  · cases hread : read text with
    | error e => exact .inl ⟨e, rfl⟩
    | ok time =>
        obtain ⟨hour, minute, second, hhour, hminute, hsecond, hshows, rfl⟩ := shows_of_read hread
        exact .inr ⟨hour, minute, second, _, hshows, hms_places hhour hminute hsecond, rfl⟩
  · rcases @read_written (long t) t (.inl rfl) with ⟨hrange, hlong⟩ | ⟨hout, hlong⟩
    · exact .inl ⟨hrange, hlong, read_eq_ok_iff.mpr ⟨hrange, .inr rfl⟩⟩
    · rcases @read_written (compact t) t (.inr rfl) with ⟨hrange, _⟩ | ⟨_, hcompact⟩
      · exact absurd hrange hout
      · exact .inr ⟨hout, hlong, hcompact⟩

end Journey.Clock
