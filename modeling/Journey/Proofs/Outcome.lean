import Journey.Checked
import Mathlib.Data.List.Forall2

/-!
# How computations end

`Ends good bad x` says of a computation what its value is like if it has one,
and what its error is like if it has none. The statement composes along the
steps of a computation (`Ends.bind`) and along a list (`Ends.mapM`), so that
what a whole computation comes to follows from what each of its steps does.

Of a computation that can only overflow, `Checked.Exactly` says which value it
gives, and under which condition. Said so of each operation
(`Checked.add_exactly`), it is said of what they make up by `Checked.Exactly.bind`.
-/

namespace Journey

variable {ε α β : Type}

/-- The computation ends in a value with `good` or in an error with `bad`. -/
def Ends (good : α → Prop) (bad : ε → Prop) : Except ε α → Prop
  | .ok a => good a
  | .error e => bad e

/-- An arithmetic result was out of its range. -/
def Fault.IsOverflow : Fault → Prop
  | .outOfBounds .. => False
  | _ => True

/-- The computation stopped since an arithmetic result was out of its range. -/
def Failure.IsOverflow : Failure ε → Prop
  | .fault f => f.IsOverflow
  | .refused _ => False

/-- An arithmetic result was out of its range, which cannot be where `reach` holds. -/
def Fault.OverflowsUnless (reach : Prop) (f : Fault) : Prop := f.IsOverflow ∧ ¬ reach

/-- The computation stopped for that. -/
def Failure.OverflowsUnless (reach : Prop) (e : Failure ε) : Prop := e.IsOverflow ∧ ¬ reach

namespace Ends

variable {good : α → Prop} {bad : ε → Prop}

theorem mono {good' : α → Prop} {bad' : ε → Prop} {x : Except ε α} (h : Ends good bad x)
    (hgood : ∀ a, good a → good' a) (hbad : ∀ e, bad e → bad' e) : Ends good' bad' x := by
  cases x with
  | error e => exact hbad e h
  | ok a => exact hgood a h

/-- Only the bound on the errors. -/
theorem forget {x : Except ε α} (h : Ends good bad x) : Ends (fun _ => True) bad x :=
  h.mono (fun _ _ => trivial) fun _ he => he

theorem unless_mono {reach reach' : Prop} {x : Checked α}
    (h : Ends good (Fault.OverflowsUnless reach) x) (hreach : reach' → reach) :
    Ends good (Fault.OverflowsUnless reach') x := by
  refine h.mono (fun _ ha => ha) ?_
  rintro f ⟨hoverflow, hout⟩
  exact ⟨hoverflow, fun hr => hout (hreach hr)⟩

/-- What a step comes to, then what the rest does with its value. -/
theorem bind {good' : β → Prop} {x : Except ε α} {f : α → Except ε β} (h : Ends good bad x)
    (hf : ∀ a, good a → Ends good' bad (f a)) : Ends good' bad (x >>= f) := by
  cases x with
  | error e => exact h
  | ok a => exact hf a h

/-- What a step comes to, told by what it gives. -/
theorem bind_cases {good' : β → Prop} {x : Except ε α} {f : α → Except ε β}
    (herror : ∀ e, x = .error e → bad e) (hok : ∀ a, x = .ok a → Ends good' bad (f a)) :
    Ends good' bad (x >>= f) := by
  cases x with
  | error e => exact herror e rfl
  | ok a => exact hok a rfl

/-- A step that is known to give a value, then the rest with that value. -/
theorem bind_of_ok {good' : β → Prop} {x : Except ε α} {f : α → Except ε β} {a : α}
    (hx : x = .ok a) (hf : Ends good' bad (f a)) : Ends good' bad (x >>= f) := by
  rw [hx]
  exact hf

/-- A list is worked through item by item. -/
theorem mapM {R : α → β → Prop} {f : α → Except ε β} {xs : List α}
    (h : ∀ x ∈ xs, Ends (R x) bad (f x)) : Ends (List.Forall₂ R xs) bad (xs.mapM f) := by
  induction xs with
  | nil => exact .nil
  | cons x xs ih =>
      rw [List.mapM_cons]
      refine bind (h x List.mem_cons_self) fun y hy => ?_
      refine bind (ih fun x' hx' => h x' (List.mem_cons_of_mem _ hx')) fun ys hys => ?_
      exact .cons hy hys

/-- A checked computation can only fault. -/
theorem ofChecked {bad : Failure ε → Prop} {x : Checked α}
    (h : Ends good (fun f => bad (.fault f)) x) : Ends good bad (Outcome.ofChecked x) := by
  cases x with
  | error f => exact h
  | ok a => exact h

/-- A checked step of a larger computation. Its faults must be among the errors. -/
theorem ofLift {bad : Failure ε → Prop} {x : Checked α} (hbad : ∀ f, bad (.fault f)) :
    Ends (fun a => x = .ok a) bad (liftM x : Outcome ε α) := by
  cases x with
  | error f => exact hbad f
  | ok a => rfl

theorem of_ok {x : Except ε α} {a : α} (h : x = .ok a) (ha : good a) : Ends good bad x := by
  rw [h]
  exact ha

/-- What is known of every value, and a bound on the errors. -/
theorem of_forall {x : Except ε α} (h : Ends (fun _ => True) bad x)
    (hgood : ∀ a, x = .ok a → good a) : Ends good bad x := by
  cases x with
  | error e => exact h
  | ok a => exact hgood a rfl

/-- Where no error is possible there is a value. -/
theorem exists_ok {x : Except ε α} (h : Ends good bad x) (hbad : ∀ e, x = .error e → ¬ bad e) :
    ∃ a, x = .ok a ∧ good a := by
  cases x with
  | error e => exact absurd h (hbad e rfl)
  | ok a => exact ⟨a, rfl, h⟩

end Ends

/-! ## Exactly where it fits -/

namespace Checked

variable {p q : Prop} {a c : α} {b : β} {x : Checked α} {f : α → Checked β}

/-- The computation gives this value exactly where it fits, and overflows elsewhere. -/
def Exactly (fits : Prop) (value : α) (x : Checked α) : Prop :=
  Ends (fun a => a = value ∧ fits) (Fault.OverflowsUnless fits) x

theorem Exactly.bind (hx : Exactly p a x) (hf : Exactly q b (f a)) :
    Exactly (p ∧ q) b (x >>= f) := by
  refine Ends.bind (hx.mono (fun _ h => h) ?_) ?_
  · exact fun f ⟨hoverflow, hnot⟩ => ⟨hoverflow, fun hboth => hnot hboth.1⟩
  · rintro _ ⟨rfl, hp⟩
    refine hf.mono ?_ ?_
    · exact fun _ ⟨hvalue, hq⟩ => ⟨hvalue, hp, hq⟩
    · exact fun _ ⟨hoverflow, hnot⟩ => ⟨hoverflow, fun hboth => hnot hboth.2⟩

theorem Exactly.congr (hx : Exactly p a x) (h : p ↔ q) : Exactly q a x := by
  rw [← propext h]
  exact hx

theorem ok_exactly (a : α) : Exactly True a (.ok a) := ⟨rfl, trivial⟩

/-- What always fits is what the computation gives. -/
theorem exactly_of_ok (h : x = .ok a) : Exactly True a x := by
  rw [h]
  exact ok_exactly a

theorem Exactly.map (hx : Exactly p a x) (g : α → β) :
    Exactly p (g a) (x >>= fun a => .ok (g a)) :=
  (hx.bind (ok_exactly (g a))).congr (and_iff_left trivial)

theorem Exactly.ends {good : α → Prop} {bad : Fault → Prop} (hx : Exactly p a x)
    (hgood : p → good a) (hbad : ¬ p → ∀ f, f.IsOverflow → bad f) : Ends good bad x := by
  refine hx.mono ?_ fun f ⟨hoverflow, hnot⟩ => hbad hnot f hoverflow
  rintro _ ⟨rfl, hp⟩
  exact hgood hp

/-- The computation cannot overflow where its value is known to fit. -/
theorem Exactly.unless {reach : Prop} (hx : Exactly p a x) (h : reach → p) :
    Ends (· = a) (Fault.OverflowsUnless reach) x :=
  hx.ends (fun _ => rfl) fun hnot _ hoverflow => ⟨hoverflow, fun hreach => hnot (h hreach)⟩

theorem Exactly.overflows (hx : Exactly p a x) : Ends (· = a) Fault.IsOverflow x :=
  hx.ends (fun _ => rfl) fun _ _ hoverflow => hoverflow

/-- The computation gives what it gives, or overflows. -/
theorem Exactly.gives (hx : Exactly p a x) : Ends (fun c => x = .ok c) Fault.IsOverflow x :=
  hx.overflows.forget.of_forall fun _ h => h

theorem Exactly.eq_ok_iff (hx : Exactly p a x) : x = .ok c ↔ p ∧ c = a := by
  cases x with
  | error f => exact ⟨nofun, fun ⟨hp, _⟩ => absurd hp hx.2⟩
  | ok b =>
      obtain ⟨rfl, hp⟩ := hx
      exact ⟨fun h => ⟨hp, (Except.ok.inj h).symm⟩, fun h => congrArg Except.ok h.2.symm⟩

/-! ## Arithmetic -/

theorem add_exactly (m n : Int) : Exactly (InRange (m + n)) (m + n) (add m n) := by
  unfold add
  by_cases h : InRange (m + n)
  · rw [if_pos h]
    exact ⟨rfl, h⟩
  · rw [if_neg h]
    exact ⟨trivial, h⟩

theorem sub_exactly (m n : Int) : Exactly (InRange (m - n)) (m - n) (sub m n) := by
  unfold sub
  by_cases h : InRange (m - n)
  · rw [if_pos h]
    exact ⟨rfl, h⟩
  · rw [if_neg h]
    exact ⟨trivial, h⟩

theorem next_exactly (limit n : Nat) : Exactly (n + 1 < limit) (n + 1) (next limit n) := by
  unfold next
  by_cases h : n + 1 < limit
  · rw [if_pos h]
    exact ⟨rfl, h⟩
  · rw [if_neg h]
    exact ⟨trivial, h⟩

end Checked

/-! ## Without faults -/

namespace Outcome

/-- The computation gives a value or refuses. -/
def Settles (x : Outcome ε α) : Prop :=
  Ends (fun _ => True) (fun e => ∃ reason, e = .refused reason) x

theorem Settles.bind {x : Outcome ε α} {f : α → Outcome ε β} (h : x.Settles)
    (hf : ∀ a, (f a).Settles) : (x >>= f).Settles :=
  Ends.bind h fun a _ => hf a

theorem settles_ofExcept (x : Except ε α) : Settles (ofExcept x) := by
  cases x with
  | error e => exact ⟨e, rfl⟩
  | ok a => trivial

theorem settles_mapM {f : α → Outcome ε β} {xs : List α} (h : ∀ x ∈ xs, (f x).Settles) :
    (xs.mapM f).Settles :=
  Ends.mono (Ends.mapM h) (fun _ _ => trivial) fun _ he => he

theorem settles_iff {x : Outcome ε α} :
    x.Settles ↔ (∃ a, x = .ok a) ∨ ∃ reason, x = .error (.refused reason) := by
  cases x with
  | error e => simp [Settles, Ends]
  | ok a => simp [Settles, Ends]

end Outcome

/-! ## Along two lists -/

/-- Two lists are worked through alike when each pair of their items is. -/
theorem mapM_congr_forall₂ {γ : Type} {f : α → Except ε γ} {g : β → Except ε γ} {xs : List α}
    {ys : List β} (h : List.Forall₂ (fun x y => f x = g y) xs ys) : xs.mapM f = ys.mapM g := by
  induction h with
  | nil => rfl
  | cons hxy _ ih => rw [List.mapM_cons, List.mapM_cons, hxy, ih]

/-- What is related to something has the property, all along the second list. -/
theorem forall_mem_right {R : α → β → Prop} {Q : β → Prop} {xs : List α} {ys : List β}
    (h : List.Forall₂ R xs ys) (hQ : ∀ x y, R x y → Q y) : ∀ y ∈ ys, Q y := by
  induction h with
  | nil => exact fun y hy => absurd hy List.not_mem_nil
  | cons hxy _ ih => exact List.forall_mem_cons.mpr ⟨hQ _ _ hxy, ih⟩

/-- A list is worked through exactly when each of its items is. -/
theorem mapM_eq_ok_iff {f : α → Except ε β} {xs : List α} {ys : List β} :
    xs.mapM f = .ok ys ↔ xs.map f = ys.map .ok := by
  induction xs generalizing ys with
  | nil =>
      rw [List.mapM_nil]
      constructor
      · intro h
        cases h
        rfl
      · intro h
        rw [List.map_eq_nil_iff.mp h.symm]
        rfl
  | cons x xs ih =>
      rw [List.mapM_cons, bind_eq_ok_iff]
      constructor
      · rintro ⟨y, hy, h⟩
        obtain ⟨rest, hrest, h⟩ := bind_eq_ok_iff.mp h
        cases h
        rw [List.map_cons, List.map_cons, hy, ih.mp hrest]
      · intro h
        cases ys with
        | nil => cases h
        | cons y ys =>
            obtain ⟨hy, hrest⟩ := List.cons.inj h
            refine ⟨y, hy, ?_⟩
            rw [ih.mpr hrest]
            rfl

end Journey
