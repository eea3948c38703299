import Journey.Search.Arena

/-!
# Rules of a chain

Along a chain, from the access on, the accumulated cost never decreases, the
round never decreases, and it increases only where a trip is boarded that is
not the one just ridden. `checkChain` reports the first place at which a rule
is broken.
-/

namespace Journey

/-- What is wrong with a chain. Positions count from the access, which is 0. -/
inductive ChainFlaw where
  | noStop
  | costDecreased (position : Nat) (previous cost : Int)
  | roundDecreased (position : Nat) (previous round : Nat)
  | unexpectedRoundIncrease (position : Nat)
  | missingAccess
  deriving DecidableEq, Repr

def ChainFlaw.message : ChainFlaw → String
  | .noStop => "egress arrival has no stop"
  | .costDecreased position previous cost =>
    s!"cost decreases at position {position}: {previous} -> {cost}"
  | .roundDecreased position previous round =>
    s!"round decreases at position {position}: {previous} -> {round}"
  | .unexpectedRoundIncrease position =>
    s!"round increases at position {position} without boarding a new trip"
  | .missingAccess => "chain does not start with an access arrival"

/-- The stop of a node. An egress has none. -/
def Node.stop (n : Node) : Except ChainFlaw Nat :=
  match n.stop? with
  | some stop => .ok stop
  | none => .error .noStop

/-- The node is reached on a trip other than the one the node before it was
reached on. -/
def boardsNewTrip (previous node : Node) : Bool :=
  match node.trip? with
  | none => false
  | some trip =>
    match previous.trip? with
    | some last => !last.same trip
    | none => true

/-- The flaw of two neighbours, if there is one. -/
def pairFlaw? (position : Nat) (previous node : Node) : Option ChainFlaw :=
  if node.cost < previous.cost then
    some (.costDecreased position previous.cost node.cost)
  else if node.round < previous.round then
    some (.roundDecreased position previous.round node.round)
  else if previous.round < node.round && !boardsNewTrip previous node then
    some (.unexpectedRoundIncrease position)
  else none

/-- Check neighbours from a position on. -/
def checkPairs : Nat → List Node → Except ChainFlaw Unit
  | position, previous :: node :: rest =>
    match pairFlaw? position previous node with
    | some flaw => .error flaw
    | none => checkPairs (position + 1) (node :: rest)
  | _, _ => .ok ()

/-- Check a chain that stands access first. -/
def checkChain (nodes : List Node) : Except ChainFlaw Unit :=
  match nodes with
  | first :: _ => if first.kind = .access then checkPairs 1 nodes else .error .missingAccess
  | [] => .error .missingAccess

def Arena.validate (arena : Arena) (egress : Nat) : Outcome ChainFlaw Unit := do
  let nodes ← arena.chain egress
  Outcome.ofExcept (checkChain nodes.reverse)

end Journey
