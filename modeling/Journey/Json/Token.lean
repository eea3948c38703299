import Journey.Json.Numeral
import Journey.Json.Text

/-!
# Tokens of a JSON document

`tokens? cs` cuts a document into its tokens and drops the blanks between
them. The scanner takes one character at a time: `Scan` is what it is in the
middle of, `Scan.step` what a character does. A number ends at the first
character that cannot continue it, which is then looked at afresh.

No token needs to be set apart from the next one here. Two values in a row
are refused where tokens become a value.
-/

namespace Journey.Json

/-- What a document is made of. -/
inductive Token where
  | leftBracket
  | rightBracket
  | leftBrace
  | rightBrace
  | colon
  | comma
  | null
  | bool (b : Bool)
  | numeral (n : Numeral)
  | text (t : Text)
  deriving DecidableEq, Repr

def isBlank (c : Char) : Bool := c = ' ' || c = '\t' || c = '\n' || c = '\r'

def digitOf? (c : Char) : Option Nat := if c.isDigit then some (c.toNat - 48) else none

def hexOf? (c : Char) : Option Nat :=
  if c.isDigit then some (c.toNat - 48)
  else if 'a' ≤ c ∧ c ≤ 'f' then some (c.toNat - 87)
  else if 'A' ≤ c ∧ c ≤ 'F' then some (c.toNat - 55)
  else none

def namedEscape? : Char → Option Char
  | '"' => some '"'
  | '\\' => some '\\'
  | '/' => some '/'
  | 'b' => some '\x08'
  | 'f' => some '\x0c'
  | 'n' => some '\n'
  | 'r' => some '\r'
  | 't' => some '\t'
  | _ => none

/-- How far a number has been read. After a sign, a point or an exponent mark
there must be a digit; a leading zero stands alone. -/
inductive Place where
  | sign
  | zero
  | whole
  | point
  | fraction
  | mark
  | markSign
  | exponent
  deriving DecidableEq, Repr

/-- A number in the middle of being read, its digits latest first. -/
structure Draft where
  negative : Bool
  whole : List Nat
  fraction : List Nat
  exponentNegative : Bool
  exponent : Nat
  deriving DecidableEq, Repr

namespace Draft

def start (negative : Bool) : Draft :=
  { negative, whole := [], fraction := [], exponentNegative := false, exponent := 0 }

/-- The number, if it may end at this place. -/
def finish? (d : Draft) : Place → Option Numeral
  | .zero | .whole | .fraction =>
    some { negative := d.negative, whole := d.whole.reverse, fraction := d.fraction.reverse,
           exponent := none }
  | .exponent =>
    some { negative := d.negative, whole := d.whole.reverse, fraction := d.fraction.reverse,
           exponent := some (if d.exponentNegative then -d.exponent else d.exponent) }
  | .sign | .point | .mark | .markSign => none

def isMark (c : Char) : Bool := c = 'e' || c = 'E'

/-- The number with one more character, if the character continues it. -/
def extend? (d : Draft) (place : Place) (c : Char) : Option (Place × Draft) :=
  match place, digitOf? c with
  | .sign, some n => some (if n = 0 then .zero else .whole, { d with whole := [n] })
  | .whole, some n => some (.whole, { d with whole := n :: d.whole })
  | .point, some n | .fraction, some n =>
    some (.fraction, { d with fraction := n :: d.fraction })
  | .mark, some n | .markSign, some n | .exponent, some n =>
    some (.exponent, { d with exponent := d.exponent * 10 + n })
  | .zero, none | .whole, none =>
    if c = '.' then some (.point, d) else if isMark c then some (.mark, d) else none
  | .fraction, none => if isMark c then some (.mark, d) else none
  | .mark, none =>
    if c = '+' then some (.markSign, d)
    else if c = '-' then some (.markSign, { d with exponentNegative := true })
    else none
  | _, _ => none

end Draft

/-- What the scanner is in the middle of. Pieces of a string stand latest first. -/
inductive Scan where
  | between
  | word (rest : List Char) (token : Token)
  | text (pieces : List Piece)
  | escape (pieces : List Piece)
  | hex (pieces : List Piece) (missing : Nat) (value : Nat)
  | numeral (place : Place) (draft : Draft)
  deriving Repr

namespace Scan

/-- A character between two tokens: what begins with it, and the token that it is. -/
def begin? (c : Char) : Option (Scan × Option Token) :=
  match c with
  | '[' => some (.between, some .leftBracket)
  | ']' => some (.between, some .rightBracket)
  | '{' => some (.between, some .leftBrace)
  | '}' => some (.between, some .rightBrace)
  | ':' => some (.between, some .colon)
  | ',' => some (.between, some .comma)
  | 'n' => some (.word ['u', 'l', 'l'] .null, none)
  | 't' => some (.word ['r', 'u', 'e'] (.bool true), none)
  | 'f' => some (.word ['a', 'l', 's', 'e'] (.bool false), none)
  | '"' => some (.text [], none)
  | '-' => some (.numeral .sign (Draft.start true), none)
  | _ =>
    if isBlank c then some (.between, none)
    else
      ((Draft.start false).extend? .sign c).map fun (place, draft) =>
        (.numeral place draft, none)

/-- One character: the state after it and the tokens that end with it. -/
def step (s : Scan) (c : Char) : Option (Scan × List Token) :=
  match s with
  | .between => (begin? c).map fun (s, token) => (s, token.toList)
  | .word [] _ => none
  | .word [last] token => if c = last then some (.between, [token]) else none
  | .word (next :: rest) token => if c = next then some (.word rest token, []) else none
  | .text pieces =>
    if c = '"' then some (.between, [.text pieces.reverse])
    else if c = '\\' then some (.escape pieces, [])
    else if c.toNat < 32 then none
    else some (.text (.char c :: pieces), [])
  | .escape pieces =>
    if c = 'u' then some (.hex pieces 4 0, [])
    else (namedEscape? c).map fun e => (.text (.char e :: pieces), [])
  | .hex pieces missing value =>
    (hexOf? c).map fun h =>
      if missing ≤ 1 then (.text (.unit (value * 16 + h) :: pieces), [])
      else (.hex pieces (missing - 1) (value * 16 + h), [])
  | .numeral place draft =>
    match draft.extend? place c with
    | some (place, draft) => some (.numeral place draft, [])
    | none =>
      match draft.finish? place, begin? c with
      | some n, some (s, token) => some (s, .numeral n :: token.toList)
      | _, _ => none

/-- The end of the document: the tokens that end with it. -/
def finish? : Scan → Option (List Token)
  | .between => some []
  | .numeral place draft => (draft.finish? place).map fun n => [.numeral n]
  | _ => none

/-- Scan to the end of the document. Tokens found stand latest first. -/
def run : Scan → List Token → List Char → Option (List Token)
  | s, found, [] => s.finish?.map fun last => (last.reverse ++ found).reverse
  | s, found, c :: cs =>
    match s.step c with
    | some (s, tokens) => run s (tokens.reverse ++ found) cs
    | none => none

end Scan

def tokens? (document : List Char) : Option (List Token) := Scan.run .between [] document

end Journey.Json
