import Journey.Json.Value
import Journey.Proofs.Json.Spelling
import Mathlib.Data.List.Chain

/-!
# How values are written

A value has one sequence of tokens (`Json.tokens`), which may be spelled in many ways.
The reader takes a whole value where one may stand, whatever containers are open around it, and is
then where one is complete (`Json.run_tokens`); its elements and members are taken in
turn, those that were taken before standing in the innermost frame.

**Statement** (`Json.read?_of_written`): a value is read back from each of its written forms.
-/

namespace Journey.Json

/-! ## The tokens of a value -/

mutual

/-- The tokens of a value: elements and members with commas between them. -/
def tokens : Json → List Token
  | .null => [.null]
  | .bool b => [.bool b]
  | .numeral n => [.numeral n]
  | .text t => [.text t]
  | .array [] => [.leftBracket, .rightBracket]
  | .array (v :: vs) => .leftBracket :: (v.tokens ++ furtherElements vs)
  | .object [] => [.leftBrace, .rightBrace]
  | .object ((name, v) :: ms) =>
    .leftBrace :: .text name :: .colon :: (v.tokens ++ furtherMembers ms)

/-- Elements behind another one, up to the end of their array. -/
def furtherElements : List Json → List Token
  | [] => [.rightBracket]
  | v :: vs => .comma :: (v.tokens ++ furtherElements vs)

/-- Members behind another one, up to the end of their object. -/
def furtherMembers : List (Text × Json) → List Token
  | [] => [.rightBrace]
  | (name, v) :: ms => .comma :: .text name :: .colon :: (v.tokens ++ furtherMembers ms)

end

/-- The document holds this value, and blanks. -/
def Written (v : Json) (document : List Char) : Prop := Spelled v.tokens document

/-! ## Taking a value -/

variable {stack stack' : List Frame} {stage stage' : Stage} {t : Token} {ts rest : List Token}

theorem run_step (h : step stack stage t = some (stack', stage')) :
    run stack stage (t :: ts) = run stack' stage' ts := by
  simp only [run, h]

/-- No value begins with a bracket that ends an array. -/
theorem head?_tokens_ne (v : Json) : (v.tokens ++ rest).head? ≠ some .rightBracket := by
  cases v with
  | null | bool | numeral | text => simp [tokens]
  | array vs => cases vs <;> simp [tokens]
  | object ms =>
      cases ms with
      | nil => simp [tokens]
      | cons m ms => simp [tokens]

/-- At the start of an array a value is taken as anywhere else. -/
theorem run_valueOrEnd (v : Json) :
    run stack .valueOrEnd (v.tokens ++ rest) = run stack .value (v.tokens ++ rest) := by
  have hhead := @head?_tokens_ne rest v
  cases htokens : v.tokens ++ rest with
  | nil => cases stack <;> rfl
  | cons t ts =>
      rw [htokens] at hhead
      have ht : t ≠ .rightBracket := fun h => hhead (congrArg some h)
      have hstep : step stack .valueOrEnd t = step stack .value t := by
        rw [step, step]
        exact fun _ _ hbracket => ht hbracket
      simp only [run, hstep]

mutual

/-- A value is taken to its end. -/
theorem run_tokens (v : Json) (stack : List Frame) (rest : List Token) :
    run stack .value (v.tokens ++ rest) = run stack (.complete v) rest := by
  cases v with
  | null | bool | numeral | text => exact run_step rfl
  | array vs =>
      cases vs with
      | nil => exact (run_step rfl).trans (run_step rfl)
      | cons v vs =>
          simp only [tokens, List.cons_append, List.append_assoc]
          have hopen : step stack .value .leftBracket = some (.array [] :: stack, .valueOrEnd) :=
            rfl
          -- the first element, then those that are left, with nothing taken before them
          rw [run_step hopen, run_valueOrEnd, run_tokens v, run_furtherElements vs]
          simp
  | object ms =>
      cases ms with
      | nil => exact (run_step rfl).trans (run_step rfl)
      | cons m ms =>
          obtain ⟨name, v⟩ := m
          simp only [tokens, List.cons_append, List.append_assoc]
          have hopen : step stack .value .leftBrace = some (.object [] :: stack, .nameOrEnd) := rfl
          have hname : step (.object [] :: stack) .nameOrEnd (.text name) =
              some (.object [] :: stack, .colon name) := rfl
          have hcolon : step (.object [] :: stack) (.colon name) .colon =
              some (.member [] name :: stack, .value) := rfl
          rw [run_step hopen, run_step hname, run_step hcolon, run_tokens v, run_furtherMembers ms]
          simp

/-- Behind an element, those that are left are taken. -/
theorem run_furtherElements (vs : List Json) (before : List Json) (v : Json) (stack : List Frame)
    (rest : List Token) :
    run (.array before :: stack) (.complete v) (furtherElements vs ++ rest) =
      run stack (.complete (.array (before.reverse ++ v :: vs))) rest := by
  cases vs with
  | nil =>
      have hclose : step (.array before :: stack) (.complete v) .rightBracket =
          some (stack, .complete (.array (v :: before).reverse)) := rfl
      simp only [furtherElements, List.singleton_append, run_step hclose, List.reverse_cons]
  | cons w vs =>
      have hcomma : step (.array before :: stack) (.complete v) .comma =
          some (.array (v :: before) :: stack, .value) := rfl
      simp only [furtherElements, List.cons_append, List.append_assoc]
      rw [run_step hcomma, run_tokens w, run_furtherElements vs]
      simp

/-- Behind a member, those that are left are taken. -/
theorem run_furtherMembers (ms : List (Text × Json)) (before : List (Text × Json)) (name : Text)
    (v : Json) (stack : List Frame) (rest : List Token) :
    run (.member before name :: stack) (.complete v) (furtherMembers ms ++ rest) =
      run stack (.complete (.object (before.reverse ++ (name, v) :: ms))) rest := by
  cases ms with
  | nil =>
      have hclose : step (.member before name :: stack) (.complete v) .rightBrace =
          some (stack, .complete (.object ((name, v) :: before).reverse)) := rfl
      simp only [furtherMembers, List.singleton_append, run_step hclose, List.reverse_cons]
  | cons m ms =>
      obtain ⟨name', w⟩ := m
      have hcomma : step (.member before name :: stack) (.complete v) .comma =
          some (.object ((name, v) :: before) :: stack, .name) := rfl
      have hname : step (.object ((name, v) :: before) :: stack) .name (.text name') =
          some (.object ((name, v) :: before) :: stack, .colon name') := rfl
      have hcolon : step (.object ((name, v) :: before) :: stack) (.colon name') .colon =
          some (.member ((name, v) :: before) name' :: stack, .value) := rfl
      simp only [furtherMembers, List.cons_append, List.append_assoc]
      rw [run_step hcomma, run_step hname, run_step hcolon, run_tokens w, run_furtherMembers ms]
      simp

end

/-! ## Numbers stay apart -/

/-- A token that is no number may stand anywhere. -/
theorem numbersApart_append {ts us : List Token} (ht : t.isNumeral = false)
    (hts : NumbersApart ts) (hus : NumbersApart (t :: us)) : NumbersApart (ts ++ t :: us) := by
  refine List.isChain_append.mpr ⟨hts, hus, ?_⟩
  rintro x _ y hy ⟨_, hnumeral⟩
  cases hy
  rw [ht] at hnumeral
  cases hnumeral

theorem numbersApart_cons {us : List Token} (ht : t.isNumeral = false) (hus : NumbersApart us) :
    NumbersApart (t :: us) := by
  refine List.IsChain.cons hus ?_
  rintro u _ ⟨hnumeral, _⟩
  rw [ht] at hnumeral
  cases hnumeral

mutual

theorem numbersApart_tokens (v : Json) : NumbersApart v.tokens := by
  cases v with
  | null | bool | numeral | text => exact .singleton _
  | array vs =>
      cases vs with
      | nil => exact numbersApart_cons rfl (.singleton _)
      | cons v vs =>
          exact numbersApart_cons rfl
            (numbersApart_furtherElements v.tokens vs (numbersApart_tokens v))
  | object ms =>
      cases ms with
      | nil => exact numbersApart_cons rfl (.singleton _)
      | cons m ms =>
          obtain ⟨name, v⟩ := m
          exact numbersApart_cons rfl (numbersApart_cons rfl (numbersApart_cons rfl
            (numbersApart_furtherMembers v.tokens ms (numbersApart_tokens v))))

theorem numbersApart_furtherElements (ts : List Token) (vs : List Json) (hts : NumbersApart ts) :
    NumbersApart (ts ++ furtherElements vs) := by
  cases vs with
  | nil => exact numbersApart_append rfl hts (.singleton _)
  | cons v vs =>
      exact numbersApart_append rfl hts (numbersApart_cons rfl
        (numbersApart_furtherElements v.tokens vs (numbersApart_tokens v)))

theorem numbersApart_furtherMembers (ts : List Token) (ms : List (Text × Json))
    (hts : NumbersApart ts) : NumbersApart (ts ++ furtherMembers ms) := by
  cases ms with
  | nil => exact numbersApart_append rfl hts (.singleton _)
  | cons m ms =>
      obtain ⟨name, v⟩ := m
      exact numbersApart_append rfl hts (numbersApart_cons rfl (numbersApart_cons rfl
        (numbersApart_cons rfl (numbersApart_furtherMembers v.tokens ms (numbersApart_tokens v)))))

end

/-! ## Statement -/

theorem read?_of_written {v : Json} {document : List Char} (h : v.Written document) :
    read? document = some v := by
  have hread := run_tokens v [] []
  rw [List.append_nil] at hread
  rw [read?, tokens?_of_spelled h (numbersApart_tokens v)]
  exact hread

end Journey.Json
