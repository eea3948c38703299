/-!
# Range-checked arithmetic

Times, durations and costs are 32-bit signed quantities. They are held as
unbounded integers, and every operation that could leave the 32-bit range is
checked: it either gives the exact result or stops with a `Fault`. Nothing
wraps.

* `Checked α` is a computation that can only fault.
* `Outcome ε α` is a computation that can fault, or be refused by a rule of
  the domain with a reason in `ε`. The two are kept apart, since a refusal
  is an answer and a fault is not.

Main statements: `Checked.add_eq_ok_iff`, `Checked.sub_eq_ok_iff`,
`Checked.mul_eq_ok_iff` and `Checked.get_eq_ok_iff` say exactly when an
operation goes through, and with which result; `bind_eq_ok_iff` says so of two
operations in a row.
-/

namespace Journey

/-- Why a computation cannot go on: a result outside its range, or a position
past the end of a list. -/
inductive Fault where
  | addOverflow
  | subtractOverflow
  | multiplyOverflow
  | outOfBounds (length index : Nat)
  deriving DecidableEq, Repr

def Fault.message : Fault → String
  | .addOverflow => "attempt to add with overflow"
  | .subtractOverflow => "attempt to subtract with overflow"
  | .multiplyOverflow => "attempt to multiply with overflow"
  | .outOfBounds length index =>
    s!"index out of bounds: the len is {length} but the index is {index}"

/-- A computation that gives a value or stops with a fault. -/
abbrev Checked (α : Type) := Except Fault α

/-- Why an operation has no result: a fault, or a refusal by rule. -/
inductive Failure (ε : Type) where
  | fault (cause : Fault)
  | refused (reason : ε)
  deriving DecidableEq, Repr

/-- A computation that can fault, or be refused for a reason in `ε`. -/
abbrev Outcome (ε α : Type) := Except (Failure ε) α

namespace Outcome

variable {ε α : Type}

def refuse (reason : ε) : Outcome ε α := .error (.refused reason)

/-- A checked computation never refuses. -/
def ofChecked : Checked α → Outcome ε α
  | .ok a => .ok a
  | .error f => .error (.fault f)

/-- A computation that can only refuse. -/
def ofExcept : Except ε α → Outcome ε α
  | .ok a => .ok a
  | .error e => .error (.refused e)

instance : MonadLift Checked (Outcome ε) where
  monadLift := ofChecked

theorem ofChecked_eq_ok_iff {x : Checked α} {a : α} :
    (ofChecked x : Outcome ε α) = .ok a ↔ x = .ok a := by
  cases x <;> simp [ofChecked]

theorem ofExcept_eq_ok_iff {x : Except ε α} {a : α} : ofExcept x = .ok a ↔ x = .ok a := by
  cases x <;> simp [ofExcept]

end Outcome

/-- Two computations in a row go through exactly when each of them does. -/
theorem bind_eq_ok_iff {ε α β : Type} {x : Except ε α} {f : α → Except ε β} {b : β} :
    (x >>= f) = .ok b ↔ ∃ a, x = .ok a ∧ f a = .ok b := by
  cases x with
  | error e => exact ⟨nofun, fun ⟨_, h, _⟩ => nomatch h⟩
  | ok a => exact ⟨fun h => ⟨a, rfl, h⟩, fun ⟨_, ha, h⟩ => by cases ha; exact h⟩

/-! ## The 32-bit range -/

def minInt : Int := -2147483648

def maxInt : Int := 2147483647

def InRange (x : Int) : Prop := minInt ≤ x ∧ x ≤ maxInt

instance (x : Int) : Decidable (InRange x) := inferInstanceAs (Decidable (_ ∧ _))

/-- The 32-bit integer nearest to `x`. -/
def clampInt (x : Int) : Int := if x < minInt then minInt else if maxInt < x then maxInt else x

theorem clampInt_inRange (x : Int) : InRange (clampInt x) := by
  unfold clampInt InRange minInt maxInt
  split
  · omega
  · split <;> omega

/-- Counts, positions and stop numbers stay below this. -/
def indexLimit : Nat := 18446744073709551616

/-- Rounds, stop sequence numbers and service codes stay below this. -/
def roundLimit : Nat := 4294967296

namespace Checked

variable {α : Type}

def add (a b : Int) : Checked Int :=
  if InRange (a + b) then .ok (a + b) else .error .addOverflow

def sub (a b : Int) : Checked Int :=
  if InRange (a - b) then .ok (a - b) else .error .subtractOverflow

def mul (a b : Int) : Checked Int :=
  if InRange (a * b) then .ok (a * b) else .error .multiplyOverflow

/-- The next number below `limit`. -/
def next (limit n : Nat) : Checked Nat :=
  if n + 1 < limit then .ok (n + 1) else .error .addOverflow

def get (xs : List α) (i : Nat) : Checked α :=
  match xs[i]? with
  | some x => .ok x
  | none => .error (.outOfBounds xs.length i)

/-- The list with another value at a position that it has. -/
def set (xs : List α) (i : Nat) (x : α) : Checked (List α) :=
  if i < xs.length then .ok (xs.set i x) else .error (.outOfBounds xs.length i)

theorem add_eq_ok_iff {a b c : Int} : add a b = .ok c ↔ InRange c ∧ c = a + b := by
  unfold add
  split
  · constructor
    · rintro ⟨⟩; exact ⟨by assumption, rfl⟩
    · rintro ⟨_, rfl⟩; rfl
  · constructor
    · rintro ⟨⟩
    · rintro ⟨h, rfl⟩; contradiction

theorem sub_eq_ok_iff {a b c : Int} : sub a b = .ok c ↔ InRange c ∧ c = a - b := by
  unfold sub
  split
  · constructor
    · rintro ⟨⟩; exact ⟨by assumption, rfl⟩
    · rintro ⟨_, rfl⟩; rfl
  · constructor
    · rintro ⟨⟩
    · rintro ⟨h, rfl⟩; contradiction

theorem mul_eq_ok_iff {a b c : Int} : mul a b = .ok c ↔ InRange c ∧ c = a * b := by
  unfold mul
  split
  · constructor
    · rintro ⟨⟩; exact ⟨by assumption, rfl⟩
    · rintro ⟨_, rfl⟩; rfl
  · constructor
    · rintro ⟨⟩
    · rintro ⟨h, rfl⟩; contradiction

theorem next_eq_ok_iff {limit n m : Nat} : next limit n = .ok m ↔ m < limit ∧ m = n + 1 := by
  unfold next
  split
  · constructor
    · rintro ⟨⟩; exact ⟨by assumption, rfl⟩
    · rintro ⟨_, rfl⟩; rfl
  · constructor
    · rintro ⟨⟩
    · rintro ⟨h, rfl⟩; contradiction

theorem get_eq_ok_iff {xs : List α} {i : Nat} {x : α} : get xs i = .ok x ↔ xs[i]? = some x := by
  unfold get
  cases xs[i]? with
  | none => exact ⟨nofun, nofun⟩
  | some y => exact ⟨by rintro ⟨⟩; rfl, by rintro ⟨⟩; rfl⟩

theorem set_eq_ok_iff {xs ys : List α} {i : Nat} {x : α} :
    set xs i x = .ok ys ↔ i < xs.length ∧ ys = xs.set i x := by
  unfold set
  split
  · constructor
    · rintro ⟨⟩; exact ⟨by assumption, rfl⟩
    · rintro ⟨_, rfl⟩; rfl
  · constructor
    · rintro ⟨⟩
    · rintro ⟨h, rfl⟩; contradiction

end Checked

end Journey
