import Journey.Calendar
import Journey.Checked
import Journey.Clock.Basic
import Journey.Clock.Reader
import Journey.Clock.Text
import Journey.Cost.Model
import Journey.Cost.Units
import Journey.Digest.Sha256
import Journey.Itinerary.Assembly
import Journey.Itinerary.Basic
import Journey.Itinerary.Leg
import Journey.Json.Numeral
import Journey.Json.Text
import Journey.Json.Token
import Journey.Json.Value
import Journey.Main
import Journey.Pattern
import Journey.Program
import Journey.Proofs.Itinerary.Course
import Journey.Proofs.Itinerary.Legs
import Journey.Proofs.Itinerary.Positions
import Journey.Proofs.Outcome
import Journey.Proofs.Search.Recording
import Journey.Proofs.Timetable.Regular
import Journey.Sample
import Journey.Search.Arena
import Journey.Search.ChainRules
import Journey.Search.Direction
import Journey.Search.Extender
import Journey.Search.Plan
import Journey.Settings.Basic
import Journey.Settings.Document
import Journey.Shared
import Journey.Slack
import Journey.Text.Utf8
import Journey.Timetable.Change
import Journey.Timetable.Fingerprint
import Journey.Timetable.Interner
import Journey.Timetable.Order
import Journey.Timetable.Overlay
import Journey.Timetable.Refusal
import Journey.Timetable.StopTime
import Journey.Timetable.Store
import Journey.Timetable.TimedTrip
import Journey.Timetable.TripTimes
import Journey.Proofs.Search.Extension
import Journey.Proofs.Search.Trail
import Journey.Proofs.Itinerary.Nodes
import Journey.Proofs.Itinerary.Carried
import Journey.Proofs.Search.ChainRules
import Journey.Proofs.Search.ChangeTime
import Journey.Proofs.Search.Conservation
import Journey.Proofs.Timetable.Schedule
import Journey.Proofs.Timetable.Changes
import Journey.Proofs.Timetable.Ledger
import Journey.Proofs.Timetable.LastWrite
import Journey.Proofs.Timetable.Lifecycle
import Journey.Proofs.Timetable.Requests
import Journey.Proofs.Timetable.Versions
import Journey.Proofs.Timetable.Filing
import Journey.Proofs.Search.Canceled
import Journey.Proofs.Cost.Binary64
import Journey.Proofs.Cost.Bounds
import Journey.Proofs.Cost.Charges
import Journey.Proofs.Search.LeastCost
import Journey.Proofs.Search.Limits
import Journey.Proofs.Itinerary.Report
import Journey.Proofs.Program
import Journey.Proofs.Search.Ancestry
import Journey.Search.Exploration
import Journey.Proofs.Search.Exploration
import Journey.Proofs.Timetable.Made
import Journey.Proofs.Timetable.History
import Journey.Proofs.Timetable.Legible
import Journey.Proofs.Itinerary.RideSearch
import Journey.Proofs.Itinerary.Rules
import Journey.Proofs.Itinerary.Soundness
import Journey.Proofs.Itinerary.LegCosts
import Journey.Proofs.Search.Verdict
import Journey.Proofs.Timetable.Sharing
import Journey.Proofs.Timetable.Baseline
import Journey.Proofs.Timetable.RoundTrip
import Journey.Proofs.Timetable.Timeline
import Journey.Proofs.Timetable.Shift
import Journey.Proofs.Clock.Written
import Journey.Proofs.Clock.Reading
import Journey.Proofs.Search.Sooner
import Journey.Proofs.Timetable.Instances
import Journey.Proofs.Cost.Rounding
import Journey.Proofs.Itinerary.Text
import Journey.Proofs.Calendar.Days
import Journey.Proofs.Calendar.Moments
import Journey.Proofs.Json.Spelling
import Journey.Proofs.Json.Values
import Journey.Proofs.Settings.Fields
import Journey.Proofs.Settings.Renderings
