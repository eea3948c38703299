import Journey.Clock.Text
import Mathlib.Data.List.TakeWhile
import Mathlib.Logic.Function.Basic

/-!
# Written times and durations are unambiguous

A written time is a sign and then numbers, each followed by a mark: a colon or a
unit. No number contains a mark, so the text can be cut behind each number in one way
only, whatever the width of the numbers (`Writes.marked_injective`). The sign can be
told from that of the first number, since a time with no sign in front has none in its
numbers (`Spelled.unique`).

* The **parts** of a time determine it (`Parts.ofSeconds_injective`). That includes the
  least one, whose magnitude stays negative.
* Each **form** shows all the parts, those that are left out being zero
  (`spelled_long`, `spelled_compact`, `spelled_duration`).

**Statement** (`written_forms_injective`): two times are written alike only if they are
equal, in each of the three forms.
-/

namespace Journey.Clock

/-! ## Parts -/

namespace Parts

theorem ofSeconds_minInt :
    ofSeconds minInt = { negative := true, hours := -596523, minutes := -14, seconds := -8 } := by
  decide

/-- But for the least time, parts are quotients and remainders of a natural number. -/
theorem ofSeconds_of_ne {time : Int} (h : time ≠ minInt) :
    ofSeconds time =
      { negative := decide (time < 0)
        hours := time.natAbs / 3600
        minutes := time.natAbs / 60 % 60
        seconds := time.natAbs % 60 } := by
  have hnonneg : (0 : Int) ≤ time.natAbs := Int.natCast_nonneg _
  simp only [ofSeconds, magnitude, if_neg h]
  rw [Int.tdiv_eq_ediv_of_nonneg hnonneg, Int.tdiv_eq_ediv_of_nonneg hnonneg,
    Int.tmod_eq_emod_of_nonneg hnonneg, Int.tmod_eq_emod_of_nonneg (by omega)]

/-- The parts of a time make up its magnitude. -/
theorem total_ofSeconds (time : Int) :
    (ofSeconds time).hours * 3600 + (ofSeconds time).minutes * 60 + (ofSeconds time).seconds =
      magnitude time := by
  by_cases h : time = minInt
  · rw [h]
    decide
  · rw [ofSeconds_of_ne h, magnitude, if_neg h]
    simp only
    omega

theorem ofSeconds_injective : Function.Injective ofSeconds := by
  intro a b h
  have hsign : a < 0 ↔ b < 0 := by
    simpa [ofSeconds] using congrArg Parts.negative h
  have hmagnitude : magnitude a = magnitude b := by
    rw [← total_ofSeconds a, ← total_ofSeconds b, h]
  simp only [magnitude, minInt] at hmagnitude
  omega

/-- No part is negative without a sign in front. -/
theorem ofSeconds_nonneg {time : Int} (h : (ofSeconds time).negative = false) :
    0 ≤ (ofSeconds time).hours ∧ 0 ≤ (ofSeconds time).minutes ∧ 0 ≤ (ofSeconds time).seconds := by
  have hne : time ≠ minInt := by
    rintro rfl
    rw [ofSeconds_minInt] at h
    cases h
  rw [ofSeconds_of_ne hne]
  simp only
  omega

end Parts

/-! ## Numbers -/

/-- A character that numbers are written with. -/
def isNumeral (c : Char) : Bool := c.isDigit || c == '-'

/-- A way to write numbers: digits that give the value of a natural number, and a sign in
front of the plain digits of a negative one. -/
structure Writes (write : Int → String) : Prop where
  isDigit : ∀ n : Nat, ∀ c ∈ (write n).toList, c.isDigit = true
  value : ∀ n : Nat, Nat.ofDigitChars 10 (write n).toList 0 = n
  negative : ∀ n : Nat, (write (Int.negSucc n)).toList = '-' :: Nat.toDigits 10 (n + 1)

theorem isDigit_of_mem_toDigits {n : Nat} {c : Char} (h : c ∈ Nat.toDigits 10 n) :
    c.isDigit = true :=
  Nat.isDigit_of_mem_toDigits (by decide) (by decide) h

theorem toList_toString_natCast (n : Nat) :
    (toString (n : Int)).toList = Nat.toDigits 10 n := Nat.toList_repr

theorem toList_toString_negSucc (n : Nat) :
    (toString (Int.negSucc n)).toList = '-' :: Nat.toDigits 10 (n + 1) := by
  show ("-" ++ (n + 1).repr).toList = _
  rw [String.toList_append, Nat.toList_repr]
  rfl

theorem writes_toString : Writes (toString : Int → String) where
  isDigit n c h := by
    rw [toList_toString_natCast] at h
    exact isDigit_of_mem_toDigits h
  value n := by rw [toList_toString_natCast, Nat.ofDigitChars_ten_toDigits]
  negative := toList_toString_negSucc

theorem toList_twoPlaces_natCast (n : Nat) :
    (twoPlaces n).toList = if n < 10 then '0' :: Nat.toDigits 10 n else Nat.toDigits 10 n := by
  by_cases h : n < 10
  · rw [twoPlaces, if_pos (by omega), if_pos h]
    show ("0" ++ toString (n : Int)).toList = _
    rw [String.toList_append, toList_toString_natCast]
    rfl
  · rw [twoPlaces, if_neg (by omega), if_neg h, toList_toString_natCast]

theorem writes_twoPlaces : Writes twoPlaces where
  isDigit n c h := by
    rw [toList_twoPlaces_natCast] at h
    split at h
    · rcases List.mem_cons.mp h with rfl | h
      · rfl
      · exact isDigit_of_mem_toDigits h
    · exact isDigit_of_mem_toDigits h
  value n := by
    rw [toList_twoPlaces_natCast]
    split
    · -- a zero in front adds nothing
      rw [Nat.ofDigitChars_cons]
      exact Nat.ofDigitChars_ten_toDigits
    · exact Nat.ofDigitChars_ten_toDigits
  negative n := by
    rw [twoPlaces, if_neg (by omega), toList_toString_negSucc]

namespace Writes

variable {write : Int → String} (hwrite : Writes write)

include hwrite

theorem isNumeral (n : Int) : ∀ c ∈ (write n).toList, isNumeral c = true := by
  intro c h
  cases n with
  | ofNat n => simp [Clock.isNumeral, hwrite.isDigit n c h]
  | negSucc n =>
      rw [hwrite.negative] at h
      rcases List.mem_cons.mp h with rfl | h
      · rfl
      · simp [Clock.isNumeral, isDigit_of_mem_toDigits h]

theorem unsigned {n : Int} (h : 0 ≤ n) : '-' ∉ (write n).toList := by
  intro hmem
  obtain ⟨m, rfl⟩ := Int.eq_ofNat_of_zero_le h
  exact absurd (hwrite.isDigit m _ hmem) (by decide)

theorem injective : Function.Injective write := by
  intro m n h
  have hlist : (write m).toList = (write n).toList := by rw [h]
  cases m with
  | ofNat m =>
      have hunsigned := hwrite.unsigned (Int.natCast_nonneg m)
      cases n with
      | ofNat n =>
          have hm := hwrite.value m
          have hn := hwrite.value n
          simp only [Int.ofNat_eq_natCast] at hlist ⊢
          rw [← hm, ← hn, hlist]
      | negSucc n =>
          rw [hwrite.negative] at hlist
          exact absurd (List.mem_cons_self) (hlist ▸ hunsigned)
  | negSucc m =>
      cases n with
      | ofNat n =>
          have hunsigned := hwrite.unsigned (Int.natCast_nonneg n)
          rw [hwrite.negative] at hlist
          exact absurd (List.mem_cons_self) (hlist ▸ hunsigned)
      | negSucc n =>
          rw [hwrite.negative, hwrite.negative] at hlist
          have hdigits := (List.cons.inj hlist).2
          have hvalue := congrArg (Nat.ofDigitChars 10 · 0) hdigits
          simp only [Nat.ofDigitChars_ten_toDigits] at hvalue
          omega

end Writes

/-! ## Marks -/

/-- Numbers, each followed by its mark. -/
def marked (write : Int → String) : List (Int × Char) → List Char
  | [] => []
  | (n, mark) :: rest => (write n).toList ++ mark :: marked write rest

/-- Where characters of a class end and a mark stands, a text is cut in one way only. -/
theorem cut_unique {inside : Char → Bool} {front front' rest rest' : List Char}
    {mark mark' : Char} (hfront : ∀ c ∈ front, inside c = true)
    (hfront' : ∀ c ∈ front', inside c = true) (hmark : inside mark = false)
    (hmark' : inside mark' = false) (h : front ++ mark :: rest = front' ++ mark' :: rest') :
    front = front' ∧ mark = mark' ∧ rest = rest' := by
  have hcut := congrArg (List.takeWhile inside) h
  rw [List.takeWhile_append_of_pos hfront, List.takeWhile_append_of_pos hfront',
    List.takeWhile_cons_of_neg (by simp [hmark]), List.takeWhile_cons_of_neg (by simp [hmark']),
    List.append_nil, List.append_nil] at hcut
  subst hcut
  obtain ⟨hmarks, hrest⟩ := List.cons.inj (List.append_cancel_left h)
  exact ⟨rfl, hmarks, hrest⟩

/-- No mark can be part of a number. -/
def Marks (numbers : List (Int × Char)) : Prop := ∀ p ∈ numbers, isNumeral p.2 = false

theorem Writes.marked_injective {write : Int → String} (hwrite : Writes write)
    {numbers numbers' : List (Int × Char)} (hmarks : Marks numbers) (hmarks' : Marks numbers')
    (h : marked write numbers = marked write numbers') : numbers = numbers' := by
  induction numbers generalizing numbers' with
  | nil =>
      cases numbers' with
      | nil => rfl
      | cons p rest => simp [marked] at h
  | cons p rest ih =>
      cases numbers' with
      | nil => simp [marked] at h
      | cons p' rest' =>
          obtain ⟨n, mark⟩ := p
          obtain ⟨n', mark'⟩ := p'
          obtain ⟨hmark, hrest⟩ := List.forall_mem_cons.mp hmarks
          obtain ⟨hmark', hrest'⟩ := List.forall_mem_cons.mp hmarks'
          obtain ⟨hnumber, rfl, htail⟩ :=
            cut_unique (hwrite.isNumeral n) (hwrite.isNumeral n') hmark hmark' h
          obtain rfl := hwrite.injective (String.toList_injective hnumber)
          rw [ih hrest hrest' htail]

/-! ## A sign in front -/

/-- The text is the sign of a time and then numbers with marks, of which the first is not
negative where there is no sign. -/
structure Spelled (write : Int → String) (p : Parts) (numbers : List (Int × Char))
    (text : List Char) : Prop where
  text_eq : text = p.sign.toList ++ marked write numbers
  marks : Marks numbers
  leads : ∃ n mark rest, numbers = (n, mark) :: rest ∧ (p.negative = false → 0 ≤ n)

namespace Spelled

variable {write : Int → String} {p q : Parts} {numbers numbers' : List (Int × Char)}
  {text : List Char}

theorem toList_sign (p : Parts) : p.sign.toList = if p.negative then ['-'] else [] := by
  cases h : p.negative <;> simp [Parts.sign, h]

/-- The sign in front of a text is that of its time. -/
theorem head?_eq_minus_iff (hwrite : Writes write) (h : Spelled write p numbers text) :
    text.head? = some '-' ↔ p.negative = true := by
  obtain ⟨rfl, hmarks, n, mark, rest, rfl, hleads⟩ := h
  rw [toList_sign]
  cases hnegative : p.negative with
  | true => simp
  | false =>
      have hunsigned := hwrite.unsigned (hleads hnegative)
      have hmark := (List.forall_mem_cons.mp hmarks).1
      simp only [marked, Bool.false_eq_true, if_false, List.nil_append, iff_false]
      cases hdigits : (write n).toList with
      | nil =>
          rintro ⟨⟩
          cases hmark
      | cons c digits =>
          rintro ⟨⟩
          rw [hdigits] at hunsigned
          exact hunsigned List.mem_cons_self

/-- A text spells one time, and the numbers that stand in it are known. -/
theorem unique (hwrite : Writes write) (h : Spelled write p numbers text)
    (h' : Spelled write q numbers' text) : p.negative = q.negative ∧ numbers = numbers' := by
  have hsign : p.negative = q.negative := by
    rw [Bool.eq_iff_iff, ← h.head?_eq_minus_iff hwrite, h'.head?_eq_minus_iff hwrite]
  have htext := h.text_eq.symm.trans h'.text_eq
  rw [toList_sign, toList_sign, hsign] at htext
  exact ⟨hsign, hwrite.marked_injective h.marks h'.marks (List.append_cancel_left htext)⟩

end Spelled

/-! ## The three forms -/

namespace Parts

/-- The numbers of a time that is written in full. -/
def inFull (p : Parts) : List (Int × Char) := [(p.hours, ':'), (p.minutes, ':'), (p.seconds, ':')]

/-- The numbers of a time that is written without seconds where there are none. -/
def inShort (p : Parts) : List (Int × Char) :=
  if p.seconds = 0 then [(p.hours, ':'), (p.minutes, ':')] else p.inFull

/-- The numbers of a duration. -/
def inUnits (p : Parts) : List (Int × Char) :=
  if p.hours ≠ 0 then
    if p.seconds ≠ 0 then [(p.hours, 'h'), (p.minutes, 'm'), (p.seconds, 's')]
    else if p.minutes ≠ 0 then [(p.hours, 'h'), (p.minutes, 'm')]
    else [(p.hours, 'h')]
  else if p.minutes ≠ 0 then
    if p.seconds ≠ 0 then [(p.minutes, 'm'), (p.seconds, 's')] else [(p.minutes, 'm')]
  else [(p.seconds, 's')]

theorem eq_of_inFull {p q : Parts} (hsign : p.negative = q.negative)
    (h : p.inFull = q.inFull) : p = q := by
  cases p
  cases q
  simp_all [inFull]

/-- The numbers of a full and of a short form agree only where neither leaves the seconds out. -/
theorem eq_of_inShort_of_inFull {p q : Parts} (hsign : p.negative = q.negative)
    (h : p.inShort = q.inFull) : p = q := by
  unfold inShort at h
  split at h
  · simp [inFull] at h
  · exact eq_of_inFull hsign h

theorem eq_of_inShort {p q : Parts} (hsign : p.negative = q.negative)
    (h : p.inShort = q.inShort) : p = q := by
  by_cases hp : p.seconds = 0
  · by_cases hq : q.seconds = 0
    · cases p
      cases q
      simp_all [inShort]
    · simp [inShort, inFull, hp, hq] at h
  · rw [inShort, if_neg hp] at h
    exact (eq_of_inShort_of_inFull hsign.symm h.symm).symm

/-- The units that stand in a duration tell which of its numbers were left out. -/
theorem eq_of_inUnits {p q : Parts} (hsign : p.negative = q.negative)
    (h : p.inUnits = q.inUnits) : p = q := by
  cases p
  cases q
  unfold inUnits at h
  split_ifs at h <;> simp_all

end Parts

theorem spelled_long (time : Int) :
    Spelled twoPlaces (Parts.ofSeconds time) (Parts.ofSeconds time).inFull
      ((long time).toList ++ [':']) where
  text_eq := by simp [long, marked, Parts.inFull]
  marks := by simp [Marks, Parts.inFull, isNumeral]
  leads := ⟨_, _, _, rfl, fun h => (Parts.ofSeconds_nonneg h).1⟩

theorem spelled_compact (time : Int) :
    Spelled twoPlaces (Parts.ofSeconds time) (Parts.ofSeconds time).inShort
      ((compact time).toList ++ [':']) := by
  by_cases h : (Parts.ofSeconds time).seconds = 0
  · rw [Parts.inShort, if_pos h, compact, if_pos h]
    refine ⟨by simp [marked], by simp [Marks, isNumeral], ?_⟩
    exact ⟨_, _, _, rfl, fun h => (Parts.ofSeconds_nonneg h).1⟩
  · rw [Parts.inShort, if_neg h, compact, if_neg h]
    exact spelled_long time

theorem spelled_duration (seconds : Int) :
    Spelled toString (Parts.ofSeconds seconds) (Parts.ofSeconds seconds).inUnits
      (duration seconds).toList := by
  have hleads := @Parts.ofSeconds_nonneg seconds
  rw [duration]
  generalize Parts.ofSeconds seconds = p at hleads ⊢
  refine ⟨?_, ?_, ?_⟩
  · unfold Parts.units Parts.inUnits
    split_ifs <;> simp [marked, toString]
  · unfold Parts.inUnits
    split_ifs <;> simp [Marks, isNumeral]
  · unfold Parts.inUnits
    split_ifs <;> exact ⟨_, _, _, rfl, fun h => by simp [hleads h]⟩

/-! ## Statement -/

/-- Two times that are spelled alike are equal if their numbers tell their parts. -/
theorem eq_of_spelled {write : Int → String} (hwrite : Writes write) {a b : Int}
    {numbers numbers' : List (Int × Char)} {text : List Char}
    (ha : Spelled write (Parts.ofSeconds a) numbers text)
    (hb : Spelled write (Parts.ofSeconds b) numbers' text)
    (hparts : (Parts.ofSeconds a).negative = (Parts.ofSeconds b).negative → numbers = numbers' →
      Parts.ofSeconds a = Parts.ofSeconds b) : a = b := by
  obtain ⟨hsign, hnumbers⟩ := ha.unique hwrite hb
  exact Parts.ofSeconds_injective (hparts hsign hnumbers)

theorem long_injective : Function.Injective long := by
  intro a b h
  have hb := spelled_long b
  rw [← h] at hb
  exact eq_of_spelled writes_twoPlaces (spelled_long a) hb Parts.eq_of_inFull

theorem compact_injective : Function.Injective compact := by
  intro a b h
  have hb := spelled_compact b
  rw [← h] at hb
  exact eq_of_spelled writes_twoPlaces (spelled_compact a) hb Parts.eq_of_inShort

theorem duration_injective : Function.Injective duration := by
  intro a b h
  have hb := spelled_duration b
  rw [← h] at hb
  exact eq_of_spelled writes_toString (spelled_duration a) hb Parts.eq_of_inUnits

/-- A time in the short form is never taken for another one in full. -/
theorem eq_of_compact_eq_long {a b : Int} (h : compact a = long b) : a = b := by
  have hb := spelled_long b
  rw [← h] at hb
  exact eq_of_spelled writes_twoPlaces (spelled_compact a) hb Parts.eq_of_inShort_of_inFull

theorem written_forms_injective :
    Function.Injective duration ∧ Function.Injective long ∧ Function.Injective compact :=
  ⟨duration_injective, long_injective, compact_injective⟩

/-- The least time has a sign in front of each of its parts, and one more. -/
example : long minInt = "--596523:-14:-8" ∧ duration minInt = "--596523h-14m-8s" := by decide

end Journey.Clock
