/-!
# UTF-8

`Utf8.decode?` gives the characters of a byte sequence, or nothing when it is
not UTF-8: a continuation byte out of place, a sequence cut short, an overlong
form, half of a surrogate pair or a value above U+10FFFF.
-/

namespace Journey.Utf8

/-- A byte between two bounds. -/
def between (low high : Nat) (b : UInt8) : Bool := low ≤ b.toNat ∧ b.toNat ≤ high

/-- The six bits that a continuation byte carries. -/
def payload (b : UInt8) : Nat := b.toNat % 64

def twoBytes? (a b : UInt8) : Option Char :=
  if between 0xC2 0xDF a && between 0x80 0xBF b then
    some (Char.ofNat (a.toNat % 32 * 64 + payload b))
  else none

/-- The least and the greatest second byte of a sequence of three bytes. -/
def secondOfThree (a : UInt8) : Nat × Nat :=
  (if a.toNat = 0xE0 then 0xA0 else 0x80, if a.toNat = 0xED then 0x9F else 0xBF)

def threeBytes? (a b c : UInt8) : Option Char :=
  let (low, high) := secondOfThree a
  if between 0xE0 0xEF a && between low high b && between 0x80 0xBF c then
    some (Char.ofNat ((a.toNat % 16 * 64 + payload b) * 64 + payload c))
  else none

/-- The least and the greatest second byte of a sequence of four bytes. -/
def secondOfFour (a : UInt8) : Nat × Nat :=
  (if a.toNat = 0xF0 then 0x90 else 0x80, if a.toNat = 0xF4 then 0x8F else 0xBF)

def fourBytes? (a b c d : UInt8) : Option Char :=
  let (low, high) := secondOfFour a
  if between 0xF0 0xF4 a && between low high b && between 0x80 0xBF c && between 0x80 0xBF d then
    some (Char.ofNat (((a.toNat % 8 * 64 + payload b) * 64 + payload c) * 64 + payload d))
  else none

/-- Decode, the characters found so far standing latest first. -/
def decodeOnto (found : List Char) : List UInt8 → Option (List Char)
  | [] => some found.reverse
  | a :: rest =>
    if a.toNat < 0x80 then decodeOnto (Char.ofNat a.toNat :: found) rest
    else
      match rest with
      | [] => none
      | b :: rest =>
        match twoBytes? a b with
        | some char => decodeOnto (char :: found) rest
        | none =>
          match rest with
          | [] => none
          | c :: rest =>
            match threeBytes? a b c with
            | some char => decodeOnto (char :: found) rest
            | none =>
              match rest with
              | [] => none
              | d :: rest =>
                match fourBytes? a b c d with
                | some char => decodeOnto (char :: found) rest
                | none => none

def decode? (bytes : List UInt8) : Option (List Char) := decodeOnto [] bytes

end Journey.Utf8
