/-!
# Numbers of a JSON document

A number is kept as it is written, digit by digit. It is read in two ways:

* `Numeral.toInt?` takes an integer literal only: no point, no exponent, and
  no minus sign in front of zero.
* `Numeral.toFloat?` takes every number whose size a binary64 value can have.
  The significand is as many of the digits as stay below 2^64, rounded to
  binary64, and one correctly rounded power of ten brings it to scale. Digits
  left out before the point count in the exponent. A value too small is zero.
-/

namespace Journey.Json

/-- A number as it is written. Digits stand in reading order; a fraction
without digits is no fraction. -/
structure Numeral where
  negative : Bool
  whole : List Nat
  fraction : List Nat
  exponent : Option Int
  deriving DecidableEq, Repr

namespace Numeral

def digitsValue (digits : List Nat) : Nat := digits.foldl (fun n d => n * 10 + d) 0

def isInteger (n : Numeral) : Bool := n.fraction.isEmpty && n.exponent.isNone

/-- The value of an integer literal. Zero with a minus sign is not one. -/
def toInt? (n : Numeral) : Option Int :=
  let size := digitsValue n.whole
  if n.isInteger then
    if n.negative then (if size = 0 then none else some (-size)) else some size
  else none

def significandLimit : Nat := 18446744073709551616

/-- Put digits behind a significand while it stays below the limit; count those
that are left over. -/
def gather : List Nat → Nat → Nat × Nat
  | [], significand => (significand, 0)
  | d :: ds, significand =>
    if significand * 10 + d < significandLimit then gather ds (significand * 10 + d)
    else (significand, ds.length + 1)

def parts (n : Numeral) : Nat × Int :=
  let (leading, skipped) := gather n.whole 0
  -- digits behind the point are gathered even after some in front of it were left out
  let (significand, unused) := gather n.fraction leading
  (significand, n.exponent.getD 0 + skipped - (n.fraction.length - unused : Nat))

def greatestPower : Nat := 308

/-- A power of ten, correctly rounded. -/
def powerOfTen (k : Nat) : Float := Float.ofScientific 1 false k

/-- Divide by a power of ten, in steps of the greatest one. Nothing changes
once zero is reached. -/
def shrink (x : Float) (k : Nat) : Float :=
  steps (k / greatestPower) x k
where
  /-- At most `fuel` whole steps, then the power that is left. -/
  steps : Nat → Float → Nat → Float
    | fuel + 1, x, k =>
      if k ≤ greatestPower then x / powerOfTen k
      else if x == 0 then x
      else steps fuel (x / powerOfTen greatestPower) (k - greatestPower)
    | 0, x, k => x / powerOfTen k

/-- Bring a significand to scale, unless the result is too large. -/
def scale? (x : Float) (exponent : Int) : Option Float :=
  if exponent < 0 then some (shrink x exponent.natAbs)
  else if exponent.toNat ≤ greatestPower then
    let y := x * powerOfTen exponent.toNat
    if y.isInf then none else some y
  else if x == 0 then some x
  else none

/-- The binary64 value of a number, unless it is too large. -/
def toFloat? (n : Numeral) : Option Float :=
  let (significand, exponent) := n.parts
  (scale? (Float.ofNat significand) exponent).map fun size => if n.negative then -size else size

end Numeral

end Journey.Json
