import Journey.Json.Token

/-!
# Values of a JSON document

`Json.read?` reads a document that holds one value and nothing else but
blanks. Tokens are taken one at a time: `Stage` is what may come next, and a
stack of `Frame`s holds the open arrays and objects, innermost first. Values
may nest to any depth.
-/

namespace Journey

/-- A JSON value. Strings and numbers are kept as they are written, members in
their order, with every repetition. -/
inductive Json where
  | null
  | bool (b : Bool)
  | numeral (n : Json.Numeral)
  | text (t : Json.Text)
  | array (elements : List Json)
  | object (members : List (Json.Text × Json))

namespace Json

/-- An open container, its parts latest first. A member waits for its value. -/
inductive Frame where
  | array (elements : List Json)
  | object (members : List (Text × Json))
  | member (members : List (Text × Json)) (name : Text)

/-- What may come next. -/
inductive Stage where
  | value
  /-- A value, or the end of an array that has just begun. -/
  | valueOrEnd
  | name
  /-- The name of a member, or the end of an object that has just begun. -/
  | nameOrEnd
  /-- The colon behind this name. -/
  | colon (name : Text)
  /-- A value is complete: a comma, the end of its container or of the document. -/
  | complete (value : Json)

def ofToken? : Token → Option Json
  | .null => some .null
  | .bool b => some (.bool b)
  | .numeral n => some (.numeral n)
  | .text t => some (.text t)
  | _ => none

/-- A token where a value begins. -/
def beginValue (stack : List Frame) : Token → Option (List Frame × Stage)
  | .leftBracket => some (.array [] :: stack, .valueOrEnd)
  | .leftBrace => some (.object [] :: stack, .nameOrEnd)
  | t => (ofToken? t).map fun v => (stack, .complete v)

def beginMember (stack : List Frame) : Token → Option (List Frame × Stage)
  | .text t => some (stack, .colon t)
  | _ => none

def afterValue (v : Json) : List Frame → Token → Option (List Frame × Stage)
  | .array vs :: stack, .comma => some (.array (v :: vs) :: stack, .value)
  | .array vs :: stack, .rightBracket => some (stack, .complete (.array (v :: vs).reverse))
  | .member ms name :: stack, .comma => some (.object ((name, v) :: ms) :: stack, .name)
  | .member ms name :: stack, .rightBrace =>
    some (stack, .complete (.object ((name, v) :: ms).reverse))
  | _, _ => none

/-- One token: the stack and the stage after it. -/
def step : List Frame → Stage → Token → Option (List Frame × Stage)
  | stack, .value, t => beginValue stack t
  | .array [] :: stack, .valueOrEnd, .rightBracket => some (stack, .complete (.array []))
  | stack, .valueOrEnd, t => beginValue stack t
  | stack, .name, t => beginMember stack t
  | .object [] :: stack, .nameOrEnd, .rightBrace => some (stack, .complete (.object []))
  | stack, .nameOrEnd, t => beginMember stack t
  | .object ms :: stack, .colon name, .colon => some (.member ms name :: stack, .value)
  | _, .colon _, _ => none
  | stack, .complete v, t => afterValue v stack t

/-- Take all tokens. One complete value must be left, with no container open. -/
def run : List Frame → Stage → List Token → Option Json
  | [], .complete v, [] => some v
  | _, _, [] => none
  | stack, stage, t :: ts =>
    match step stack stage t with
    | some (stack, stage) => run stack stage ts
    | none => none

def ofTokens? (tokens : List Token) : Option Json := run [] .value tokens

def read? (document : List Char) : Option Json := (tokens? document).bind ofTokens?

end Json

end Journey
