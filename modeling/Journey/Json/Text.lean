/-!
# Strings of a JSON document

A string is kept as it is written: a list of pieces, each a character or the
16-bit unit of a `\uXXXX` escape. Units above U+FFFF come in pairs, and a
document may hold half a pair; such a string is well-formed, but it has no
characters. `Text.decode` gives the characters where there are any.
-/

namespace Journey.Json

/-- A piece of a string: a character, also one that was escaped by name, or the
unit of a numeric escape. -/
inductive Piece where
  | char (c : Char)
  | unit (u : Nat)
  deriving DecidableEq, Repr

abbrev Text := List Piece

/-- The unit is the first half of a pair. -/
def isLeading (u : Nat) : Bool := 0xD800 ≤ u ∧ u ≤ 0xDBFF

/-- The unit is the second half of a pair. -/
def isTrailing (u : Nat) : Bool := 0xDC00 ≤ u ∧ u ≤ 0xDFFF

def pairChar (leading trailing : Nat) : Char :=
  Char.ofNat (0x10000 + (leading - 0xD800) * 0x400 + (trailing - 0xDC00))

/-- The characters of a string. There are none when half a pair stands alone. -/
def Text.decode : Text → Option (List Char)
  | [] => some []
  | .char c :: rest => (Text.decode rest).map (c :: ·)
  | .unit u :: .unit v :: rest =>
    if isLeading u then
      if isTrailing v then (Text.decode rest).map (pairChar u v :: ·) else none
    else if isTrailing u then none
    else (Text.decode (.unit v :: rest)).map (Char.ofNat u :: ·)
  | .unit u :: rest =>
    if isLeading u ∨ isTrailing u then none
    else (Text.decode rest).map (Char.ofNat u :: ·)

/-- A string written without escapes has its own characters. -/
theorem Text.decode_map_char (cs : List Char) : Text.decode (cs.map .char) = some cs := by
  induction cs with
  | nil => rfl
  | cons c cs ih => simp only [List.map_cons, Text.decode, ih, Option.map_some]

end Journey.Json
