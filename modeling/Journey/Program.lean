import Journey.Sample
import Journey.Settings.Document

/-!
# What the program reports

The program takes the name of a settings file, or none, and reports on the
sample journey: each leg, the itinerary on one line, and its cost. It ends
with exit code 0, or with 1 and one message. A computation that faults ends
with neither.
-/

namespace Journey.Program

/-- What the program leaves behind. -/
structure Report where
  exitCode : Nat
  stdout : String := ""
  stderr : String := ""
  deriving DecidableEq, Repr

def faultCode : Nat := 101

def failure (message : String) : Report := { exitCode := 1, stderr := s!"Error: {message}\n" }

def describe (i : Itinerary) : Checked String := do
  let legs ← i.legs.mapM Leg.text
  let line ← i.text
  let shown := legs.map fun leg => s!"  {leg}\n"
  return String.join shown ++ s!"{line}\ngeneralized cost: {i.cost}\n"

def reportJourney (settings : Settings) : Checked Report :=
  match Sample.journey settings with
  | .ok itinerary => do
    let stdout ← describe itinerary
    return { exitCode := 0, stdout }
  | .error (.refused refusal) => .ok (failure refusal.message)
  | .error (.fault f) => .error f

/-- Run the program on a settings file that was read, or on none. -/
def run : Option (String × Settings.FileRead) → Checked Report
  | none => reportJourney {}
  | some (file, read) =>
    match Settings.ofFile file read with
    | .ok settings => reportJourney settings
    | .error e => .ok (failure e.message)

end Journey.Program
