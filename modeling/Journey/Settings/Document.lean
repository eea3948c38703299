import Journey.Json.Value
import Journey.Settings.Basic
import Journey.Text.Utf8

/-!
# Settings documents

Settings are read from a JSON document with two sections, `cost` and `slack`.
The document and each section is an object whose members may come in any
order, or an array of the values in declaration order, which may end early. A
field that is missing has its default. An unknown member is skipped; a known
one must not come twice, and every name must have characters.

The document is read first and its values are validated then, so a malformed
document is reported before any value out of range.
-/

namespace Journey

/-- The members of an object by name. There are none when a name has no characters. -/
def Json.named? (members : List (Json.Text × Json)) : Option (List (String × Json)) :=
  members.mapM fun (name, value) => name.decode.map fun cs => (String.ofList cs, value)

/-- The values of the fields with these names, in the order of the names. -/
def Json.fields? (names : List String) : Json → Option (List (Option Json))
  | .array values =>
    -- fields that the array does not reach are missing
    if values.length ≤ names.length then
      some (values.map some ++ List.replicate (names.length - values.length) none)
    else none
  | .object members => do
    let named ← Json.named? members
    if names.all fun name => (named.filter (·.1 == name)).length ≤ 1 then
      some (names.map fun name => named.lookup name)
    else none
  | _ => none

namespace Settings

/-- The value of a field that holds a 32-bit integer. -/
def intField (default : Int) : Option Json → Option Int
  | none => some default
  | some (.numeral n) => n.toInt?.filter fun x => decide (InRange x)
  | some _ => none

def numberField (default : Float) : Option Json → Option Float
  | none => some default
  | some (.numeral n) => n.toFloat?
  | some _ => none

/-- The names of fields in declaration order. -/
def costNames : List String :=
  [Field.boardCost, .transferCost, .transferReluctance, .waitReluctance].map Field.name

@[inherit_doc costNames]
def slackNames : List String := [Field.boardSlack, .alightSlack, .transferSlack].map Field.name

def costSection : Option Json → Option CostSettings
  | none => some {}
  | some section_ => do
    let [boardCost, transferCost, transferReluctance, waitReluctance] ← section_.fields? costNames
      | none
    let default : CostSettings := {}
    return {
      boardCost := ← intField default.boardCost boardCost
      transferCost := ← intField default.transferCost transferCost
      transferReluctance := ← numberField default.transferReluctance transferReluctance
      waitReluctance := ← numberField default.waitReluctance waitReluctance }

def slackSection : Option Json → Option SlackSettings
  | none => some {}
  | some section_ => do
    let [board, alight, transfer] ← section_.fields? slackNames | none
    let default : SlackSettings := {}
    return {
      board := ← intField default.board board
      alight := ← intField default.alight alight
      transfer := ← intField default.transfer transfer }

def ofJson? (document : Json) : Option Settings := do
  let [cost, slack] ← document.fields? ["cost", "slack"] | none
  return { cost := ← costSection cost, slack := ← slackSection slack }

def ofDocument (document : List Char) : Except Error Settings :=
  match (Json.read? document).bind ofJson? with
  | none => .error .malformed
  | some settings => settings.validate.map fun _ => settings

/-- What came of reading a file: its bytes, or the cause of a failure. -/
inductive FileRead where
  | content (bytes : List UInt8)
  | failed (cause : String)
  deriving DecidableEq, Repr

def FileRead.missing : FileRead := .failed "No such file or directory (os error 2)"

def ofFile (file : String) : FileRead → Except Error Settings
  | .failed cause => .error (.unreadable file cause)
  | .content bytes =>
    match Utf8.decode? bytes with
    | none => .error (.unreadable file "stream did not contain valid UTF-8")
    | some document => ofDocument document

end Settings

end Journey
