import Journey.Pattern
import Journey.Settings.Basic

/-!
# Slack

Slack is the least buffer a traveller needs around vehicle movements: before
boarding, after the vehicle has arrived, and between two vehicles. It may
depend on the pattern, since a ferry takes longer to board than a bus.
-/

namespace Journey

/-- Buffers, in seconds. -/
structure Slack where
  /-- Between being at the stop and boarding a trip of the pattern. -/
  board : Pattern → Int
  /-- Between the arrival of a trip of the pattern and being free to move on. -/
  alight : Pattern → Int
  /-- Between leaving one vehicle and boarding the next. -/
  transfer : Int

namespace Slack

/-- The same buffers for every pattern. -/
def ofSettings (s : SlackSettings) : Slack where
  board _ := s.board
  alight _ := s.alight
  transfer := s.transfer

/-- No buffer is negative. -/
def Nonnegative (s : Slack) : Prop :=
  (∀ p, 0 ≤ s.board p) ∧ (∀ p, 0 ≤ s.alight p) ∧ 0 ≤ s.transfer

/-- When a traveller who is at the stop from `available` can board at the earliest. -/
def earliestBoarding (s : Slack) (available : Int) (p : Pattern) : Checked Int :=
  Checked.add available (s.board p)

/-- When a traveller is free after a trip of the pattern arrives. -/
def freeAfter (s : Slack) (arrival : Int) (p : Pattern) : Checked Int :=
  Checked.add arrival (s.alight p)

/-- The window for a walk between alighting from one trip and boarding another.
It ends before it starts when the connection is missed. -/
def window (s : Slack) (alightTime : Int) (left : Pattern) (boardTime : Int) (boarded : Pattern) :
    Checked (Int × Int) := do
  let start ← s.freeAfter alightTime left
  let stop ← Checked.sub boardTime (s.board boarded)
  return (start, stop)

end Slack

end Journey
