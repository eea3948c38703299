import Journey.Checked

/-!
# Settings of the router

What boarding, waiting and walking cost, and the buffers around vehicle
movements. Every value has a default, and `Settings.validate` says whether
all of them are in their ranges: it names the first field that is not, in the
order of declaration.
-/

namespace Journey

/-- What a journey is charged for. -/
structure CostSettings where
  /-- Seconds charged for every boarding. -/
  boardCost : Int := 600
  /-- Seconds charged on top for a boarding that follows another ride. -/
  transferCost : Int := 0
  /-- Weight of a second of walking. -/
  transferReluctance : Float := 2
  /-- Weight of a second of waiting. -/
  waitReluctance : Float := 1

/-- Least buffers, in seconds. -/
structure SlackSettings where
  /-- Between being at the stop and boarding. -/
  board : Int := 0
  /-- Between the vehicle's arrival and moving on. -/
  alight : Int := 0
  /-- Between leaving one vehicle and boarding the next. -/
  transfer : Int := 120
  deriving DecidableEq, Repr

structure Settings where
  cost : CostSettings := {}
  slack : SlackSettings := {}

namespace Settings

inductive Field where
  | boardCost
  | transferCost
  | transferReluctance
  | waitReluctance
  | boardSlack
  | alightSlack
  | transferSlack
  deriving DecidableEq, Repr

namespace Field

def name : Field → String
  | boardCost => "board_cost_secs"
  | transferCost => "transfer_cost_secs"
  | transferReluctance => "transfer_reluctance"
  | waitReluctance => "wait_reluctance"
  | boardSlack => "board_slack_secs"
  | alightSlack => "alight_slack_secs"
  | transferSlack => "transfer_slack_secs"

def sectionName : Field → String
  | boardCost | transferCost | transferReluctance | waitReluctance => "cost"
  | boardSlack | alightSlack | transferSlack => "slack"

/-- What the values of a field must be. -/
def requirement : Field → String
  | transferReluctance | waitReluctance => "must be a finite, non-negative number"
  | _ => "must not be negative"

end Field

/-- Why there are no settings. -/
inductive Error where
  | unreadable (file cause : String)
  | malformed
  | invalid (field : Field)
  deriving DecidableEq, Repr

def Error.message : Error → String
  | .unreadable file cause => s!"failed to read config file {file}: {cause}"
  | .malformed => "failed to parse config: not a settings document"
  | .invalid field =>
    s!"invalid config value for {field.sectionName}.{field.name}: {field.requirement}"

/-- A weight must be finite and not below zero. -/
def isWeight (x : Float) : Bool := x.isFinite && !(x < 0)

/-- Each field, and whether its value is in range. -/
def checks (s : Settings) : List (Field × Bool) :=
  [(.boardCost, 0 ≤ s.cost.boardCost),
   (.transferCost, 0 ≤ s.cost.transferCost),
   (.transferReluctance, isWeight s.cost.transferReluctance),
   (.waitReluctance, isWeight s.cost.waitReluctance),
   (.boardSlack, 0 ≤ s.slack.board),
   (.alightSlack, 0 ≤ s.slack.alight),
   (.transferSlack, 0 ≤ s.slack.transfer)]

/-- Check every value: the first field out of range is reported. -/
def validate (s : Settings) : Except Error Unit :=
  match s.checks.find? fun check => !check.2 with
  | none => .ok ()
  | some (field, _) => .error (.invalid field)

end Settings

end Journey
