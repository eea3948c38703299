/-!
# Values with an identity

Two trips can have equal times and still be two trips, and two requests for
the same array can be answered with one array or with two. A `Shared` value
carries the number of the instance it is, so that "the same instance" is a
statement about values.
-/

namespace Journey

/-- A value together with the number of its instance. -/
structure Shared (α : Type) where
  tag : Nat
  value : α
  deriving DecidableEq, Repr

/-- The instance, with its value seen as something else. -/
def Shared.map {α β : Type} (f : α → β) (s : Shared α) : Shared β :=
  { tag := s.tag, value := f s.value }

/-- The two are one instance. -/
def Shared.same {α : Type} (a b : Shared α) : Bool := a.tag = b.tag

theorem Shared.same_iff {α : Type} {a b : Shared α} : a.same b = true ↔ a.tag = b.tag := by
  simp [Shared.same]

end Journey
