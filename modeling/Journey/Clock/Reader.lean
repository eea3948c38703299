import Journey.Clock.Basic

/-!
# Reading a time

`Clock.read` takes `HH:MM` and `HH:MM:SS` with exactly two digits in each
place. Hours are not capped at 23, minutes and seconds end at 59. Lengths and
places are counted in the bytes of the text, so a character outside ASCII
takes the places of its bytes and is never a digit or a colon.
-/

namespace Journey.Clock

/-- Why a text is no time. -/
inductive ReadError where
  | shape
  | separators
  | hourDigits
  | minuteDigits
  | minuteRange
  | secondDigits
  | secondRange
  deriving DecidableEq, Repr

def ReadError.reason : ReadError → String
  | .shape => "expected HH:MM or HH:MM:SS format"
  | .separators => "expected colon separators"
  | .hourDigits => "invalid hour digits"
  | .minuteDigits => "invalid minute digits"
  | .minuteRange => "minute must be 0-59"
  | .secondDigits => "invalid second digits"
  | .secondRange => "second must be 0-59"

def ReadError.message (e : ReadError) : String := "invalid time: " ++ e.reason

def colon : UInt8 := 58

def digit? (b : UInt8) : Option Nat :=
  if 48 ≤ b.toNat ∧ b.toNat ≤ 57 then some (b.toNat - 48) else none

def twoDigits? (tens units : UInt8) : Option Nat :=
  match digit? tens, digit? units with
  | some t, some u => some (t * 10 + u)
  | _, _ => none

/-- Hour, minute and second out of their digits: the first place that is wrong
decides. -/
def readPlaces (hour minute : UInt8 × UInt8) (second : Option (UInt8 × UInt8)) :
    Except ReadError Int := do
  let some h := twoDigits? hour.1 hour.2 | throw .hourDigits
  let some m := twoDigits? minute.1 minute.2 | throw .minuteDigits
  if m > 59 then throw .minuteRange
  match second with
  | none => return h * 3600 + m * 60
  | some second =>
    let some s := twoDigits? second.1 second.2 | throw .secondDigits
    if s > 59 then throw .secondRange
    return h * 3600 + m * 60 + s

def readBytes : List UInt8 → Except ReadError Int
  | [h₁, h₂, c₁, m₁, m₂] =>
    if c₁ = colon then readPlaces (h₁, h₂) (m₁, m₂) none else throw .separators
  | [h₁, h₂, c₁, m₁, m₂, c₂, s₁, s₂] =>
    if c₁ = colon ∧ c₂ = colon then readPlaces (h₁, h₂) (m₁, m₂) (some (s₁, s₂))
    else throw .separators
  | _ => throw .shape

def read (text : String) : Except ReadError Int :=
  readBytes (text.toList.flatMap String.utf8EncodeChar)

end Journey.Clock
