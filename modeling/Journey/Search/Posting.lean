import Journey.Search.Arena

/-!
# Postings

A `Posting` is one operation on an arena, with all that is passed to it. What it
records is known by a `Handle` from then on. `Arena.postAll` makes postings in
order, whichever chains they belong to, and lists each of them with the handle
that was given out for it.
-/

namespace Journey

/-- The name of something that has been recorded. -/
inductive Handle where
  | arrival (id : Nat)
  | egress (id : Nat)
  deriving DecidableEq, Repr

/-- Something to record. All but an access extends an arrival that is there. -/
inductive Posting where
  | access (stop : Nat) (fromTime toTime cost : Int)
  | ride (round alightStop : Nat) (alightTime boardTime legCost : Int) (trip : Shared TimedTrip)
      (previous : Nat)
  | transfer (round toStop : Nat) (fromTime toTime legCost : Int) (previous : Nat)
  | egress (fromTime toTime legCost : Int) (previous : Nat)
  deriving DecidableEq, Repr

namespace Posting

/-- What is passed for the cost of the walk or ride. -/
def cost : Posting → Int
  | access _ _ _ cost => cost
  | ride _ _ _ _ legCost _ _ | transfer _ _ _ _ legCost _ | egress _ _ legCost _ => legCost

/-- The arrival to extend. -/
def previous? : Posting → Option Nat
  | access .. => none
  | ride _ _ _ _ _ _ previous | transfer _ _ _ _ _ previous | egress _ _ _ previous =>
    some previous

def run (p : Posting) (arena : Arena) : Checked (Arena × Handle) :=
  match p with
  | access stop fromTime toTime cost =>
    let (arena, id) := arena.access stop fromTime toTime cost
    .ok (arena, .arrival id)
  | ride round alightStop alightTime boardTime legCost trip previous => do
    let (arena, id) ← arena.ride round alightStop alightTime boardTime legCost trip previous
    return (arena, .arrival id)
  | transfer round toStop fromTime toTime legCost previous => do
    let (arena, id) ← arena.transfer round toStop fromTime toTime legCost previous
    return (arena, .arrival id)
  | egress fromTime toTime legCost previous => do
    let (arena, id) ← arena.egress fromTime toTime legCost previous
    return (arena, .egress id)

end Posting

namespace Arena

/-- Make postings in order. -/
def postAll : List Posting → Arena → Checked (Arena × List (Handle × Posting))
  | [], arena => .ok (arena, [])
  | p :: ps, arena => do
    let (arena, handle) ← p.run arena
    let (arena, posted) ← postAll ps arena
    return (arena, (handle, p) :: posted)

/-- What a handle names. -/
def node (arena : Arena) : Handle → Checked Node
  | .arrival id => do return .arrival (← arena.get id)
  | .egress id => do return .egress (← arena.getEgress id)

/-- The walk from what a handle names back to the access. -/
def walk (arena : Arena) : Handle → Checked (List Node)
  | .arrival id => do
    let _ ← arena.get id
    return arena.ancestors id
  | .egress id => arena.chain id

end Arena

end Journey
