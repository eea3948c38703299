import Journey.Search.Extender
import Journey.Search.Posting

/-!
# Explorations

A `Call` is one call of the extender, which starts a chain or adds to any of the
chains that are there. `Extender.explore` makes calls in order and lists the
answers: the handle of what was recorded, or why a ride was refused.
-/

namespace Journey.Extender

/-- What can be asked of an extender. -/
inductive Call where
  | access (departure : Int) (walk : Walk)
  | transfer (previous : Nat) (walk : Walk)
  | ride (previous : Nat) (trip : Shared TimedTrip) (boardPosition alightPosition : Nat)
  | egress (previous : Nat) (duration : Int)
  deriving DecidableEq, Repr

def Call.run (x : Extender) (arena : Arena) :
    Call → Checked (Arena × Except RideRefusal Handle)
  | access departure walk => do
    let (arena, id) ← x.access arena departure walk
    return (arena, .ok (.arrival id))
  | transfer previous walk => do
    let (arena, id) ← x.transfer arena previous walk
    return (arena, .ok (.arrival id))
  | ride previous trip boardPosition alightPosition => do
    let (arena, ridden) ← x.ride arena previous trip boardPosition alightPosition
    return (arena, ridden.map .arrival)
  | egress previous duration => do
    let (arena, id) ← x.egress arena previous duration
    return (arena, .ok (.egress id))

/-- Make calls in order, and list the answers. -/
def explore (x : Extender) :
    List Call → Arena → Checked (Arena × List (Except RideRefusal Handle))
  | [], arena => .ok (arena, [])
  | c :: calls, arena => do
    let (arena, answer) ← c.run x arena
    let (arena, answers) ← explore x calls arena
    return (arena, answer :: answers)

end Journey.Extender
