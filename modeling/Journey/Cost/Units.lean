import Journey.Checked

/-!
# Cost units

Costs are whole numbers of hundredths of a second of travel. Outside, a cost
is a whole number of seconds. `Cost.ofSeconds` rounds a binary64 number of
seconds to the nearest hundredth, a half going away from zero, and stays
within the 32-bit range; `Cost.toWhole` goes back to the nearest whole number
of seconds, a half going up.
-/

namespace Journey

/-- `significand · 2 ^ exponent`, rounded to the nearest whole number. A half
goes up. -/
def scaledSize (significand : Nat) : Int → Nat
  | .ofNat k => significand * Nat.pow 2 k
  | .negSucc k => (significand + Nat.pow 2 k) / Nat.pow 2 (k + 1)

/-- The 32-bit integer nearest to a binary64 value: a half goes away from zero,
a value out of range to the nearer end, and what is not a number to zero. -/
def nearestInt (x : Float) : Int :=
  let bits : Nat := x.toBits.toNat
  let negative : Bool := Nat.pow 2 63 ≤ bits
  let exponent : Nat := bits / Nat.pow 2 52 % Nat.pow 2 11
  let fraction := bits % Nat.pow 2 52
  if exponent = 2047 then
    if fraction ≠ 0 then 0 else if negative then minInt else maxInt
  else
    let size :=
      if exponent = 0 then scaledSize fraction (-1074)
      else scaledSize (Nat.pow 2 52 + fraction) ((exponent : Int) - 1075)
    clampInt (if negative then -size else size)

namespace Cost

/-- Hundredths of a second in a second. -/
def scale : Int := 100

def ofSeconds (seconds : Float) : Int := nearestInt (seconds * 100)

def ofWhole (seconds : Int) : Checked Int := Checked.mul seconds scale

def ofWholes (seconds : List Int) : Checked (List Int) := seconds.mapM ofWhole

/-- The whole number of seconds nearest to a cost. -/
def toWhole (cost : Int) : Checked Int := do
  let raised ← Checked.add cost (scale / 2)
  return raised / scale

end Cost

end Journey
