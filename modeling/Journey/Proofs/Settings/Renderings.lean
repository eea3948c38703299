import Journey.Proofs.Clock.Written
import Journey.Proofs.Json.Values
import Journey.Proofs.Settings.Fields
import Mathlib.Data.Nat.Digits.Defs

/-!
# A settings document means its fields

What is given of the settings (`Given`) can be written in many ways (`Renders`):

* **Objects** have their members in any order, with unknown ones among them, and every name and
  value is spelled in any way that its tokens allow, blanks included.
* **Arrays** stand for a section, or for the document, that is given up to some field.
* A section may be **left out** where nothing of it is given.

An integer has one literal (`Json.spells_ofInt_iff`), and a weight any number whose binary64
value is finite. A member of the document or of a section must have a name: half a pair of numbered
escapes is none.

All of them are read as the same settings, so what comes of a document is what comes of checking
its values in the order of declaration.

**Statement** (`Settings.ofDocument_means_fields`): a document is read as the values that are
given and the defaults of those that are not, unless one of them is out of range, of
which the first is reported.
-/

namespace Journey

/-! ## Integers -/

namespace Json

/-- The decimal digits of a number, in reading order. -/
def decimal (n : Nat) : List Nat := if n = 0 then [0] else (Nat.digits 10 n).reverse

/-- The literal of an integer. -/
def Numeral.ofInt (x : Int) : Numeral where
  negative := x < 0
  whole := decimal x.natAbs
  fraction := []
  exponent := none

theorem digitsValue_reverse (digits : List Nat) :
    Numeral.digitsValue digits.reverse = Nat.ofDigits 10 digits := by
  induction digits with
  | nil => rfl
  | cons d rest ih =>
      unfold Numeral.digitsValue at ih ⊢
      rw [List.reverse_cons, List.foldl_append, ih, Nat.ofDigits_cons]
      simp only [List.foldl_cons, List.foldl_nil]
      omega

theorem digitsValue_decimal (n : Nat) : Numeral.digitsValue (decimal n) = n := by
  unfold decimal
  split
  · rename_i h
    rw [h]
    rfl
  · rw [digitsValue_reverse, Nat.ofDigits_digits]

theorem decimal_of_lt {n : Nat} (h : n < 10) : decimal n = [n] := by
  unfold decimal
  split
  · rename_i hzero
    rw [hzero]
  · rename_i hpos
    rw [Nat.digits_of_lt 10 n hpos h]
    rfl

theorem decimal_of_le {n : Nat} (h : 10 ≤ n) : decimal n = decimal (n / 10) ++ [n % 10] := by
  have hpos : n ≠ 0 := by omega
  have hrest : n / 10 ≠ 0 := by omega
  unfold decimal
  rw [if_neg hpos, if_neg hrest, Nat.digits_eq_cons_digits_div (by decide) hpos,
    List.reverse_cons]

/-- The digits are those that the number is printed with, and they may stand in front of a
point. -/
theorem decimal_spec (n : Nat) :
    digitChars (decimal n) = Nat.toDigits 10 n ∧ AreDigits (decimal n) ∧
      LeadsNumber (decimal n) := by
  induction n using Nat.strongRecOn with
  | ind n ih =>
      by_cases h : n < 10
      · rw [decimal_of_lt h, Nat.toDigits_of_lt_base h]
        refine ⟨rfl, List.forall_mem_singleton.mpr h, ?_⟩
        by_cases hzero : n = 0
        · exact .inl (by rw [hzero])
        · exact .inr ⟨n, [], rfl, hzero⟩
      · have hle : 10 ≤ n := by omega
        obtain ⟨hprinted, hdigits, hlead⟩ := ih (n / 10) (by omega)
        have hlast : AreDigits [n % 10] := List.forall_mem_singleton.mpr (by omega)
        rw [decimal_of_le hle, Nat.toDigits_of_base_le (by decide) hle, ← hprinted]
        refine ⟨List.map_append, List.forall_mem_append.mpr ⟨hdigits, hlast⟩, ?_⟩
        rcases hlead with hzero | ⟨d, rest, heq, hd⟩
        · -- only zero begins with zero
          have hvalue := digitsValue_decimal (n / 10)
          rw [hzero] at hvalue
          have hnone : Numeral.digitsValue [0] = 0 := rfl
          omega
        · exact .inr ⟨d, rest ++ [n % 10], by rw [heq]; rfl, hd⟩

theorem toInt?_ofInt (x : Int) : (Numeral.ofInt x).toInt? = some x := by
  unfold Numeral.toInt? Numeral.ofInt Numeral.isInteger
  simp only [digitsValue_decimal, List.isEmpty_nil, Option.isNone_none, Bool.and_self, if_true,
    decide_eq_true_eq]
  split
  · rw [if_neg (by omega)]
    congr 1
    omega
  · congr 1
    omega

theorem toList_toString_int (x : Int) :
    (toString x).toList = (if x < 0 then ['-'] else []) ++ digitChars (decimal x.natAbs) := by
  rw [(decimal_spec _).1]
  cases x with
  | ofNat n =>
      rw [if_neg (by simp)]
      exact Clock.toList_toString_natCast n
  | negSucc n =>
      rw [if_pos (Int.negSucc_lt_zero n)]
      exact Clock.toList_toString_negSucc n

/-- The literal of an integer is written in one way only. -/
theorem spells_ofInt_iff {x : Int} {text : List Char} :
    (Numeral.ofInt x).Spells text ↔ text = (toString x).toList := by
  have hsign :
      (if (Numeral.ofInt x).negative then ['-'] else []) = if x < 0 then ['-'] else [] := by
    simp [Numeral.ofInt]
  obtain ⟨_, hdigits, hlead⟩ := decimal_spec x.natAbs
  rw [toList_toString_int, ← hsign]
  constructor
  · rintro ⟨_, _, exponent, hexponent, rfl⟩
    cases hexponent
    simp only [fractionChars, Numeral.ofInt, List.isEmpty_nil, if_true, List.append_nil]
  · rintro rfl
    refine ⟨⟨hdigits, hlead⟩, List.forall_mem_nil _, [], .absent, ?_⟩
    simp only [fractionChars, Numeral.ofInt, List.isEmpty_nil, if_true, List.append_nil]

end Json

namespace Settings

/-! ## Given values -/

/-- An integer that a field can have. -/
structure Integer where
  value : Int
  inRange : InRange value

/-- A number of a document that a weight can have: one with a finite binary64 value, which is
the value that it is read with. -/
structure Number where
  numeral : Json.Numeral
  value : Float
  value_eq : numeral.toFloat? = some value

/-- What is given of the settings. -/
structure Given where
  boardCost : Option Integer := none
  transferCost : Option Integer := none
  transferReluctance : Option Number := none
  waitReluctance : Option Number := none
  boardSlack : Option Integer := none
  alightSlack : Option Integer := none
  transferSlack : Option Integer := none

def Integer.json (x : Integer) : Json := .numeral (.ofInt x.value)

def Number.json (x : Number) : Json := .numeral x.numeral

namespace Given

/-- The settings with the values that are given, and their defaults where there is none. -/
def settings (g : Given) : Settings where
  cost :=
    { boardCost := (g.boardCost.map Integer.value).getD 600
      transferCost := (g.transferCost.map Integer.value).getD 0
      transferReluctance := (g.transferReluctance.map Number.value).getD 2
      waitReluctance := (g.waitReluctance.map Number.value).getD 1 }
  slack :=
    { board := (g.boardSlack.map Integer.value).getD 0
      alight := (g.alightSlack.map Integer.value).getD 0
      transfer := (g.transferSlack.map Integer.value).getD 120 }

/-- What is given of the costs, in the order of declaration. -/
def costs (g : Given) : List (Option Json) :=
  [g.boardCost.map Integer.json, g.transferCost.map Integer.json,
   g.transferReluctance.map Number.json, g.waitReluctance.map Number.json]

/-- What is given of the buffers, in the order of declaration. -/
def buffers (g : Given) : List (Option Json) :=
  [g.boardSlack.map Integer.json, g.alightSlack.map Integer.json,
   g.transferSlack.map Integer.json]

end Given

/-- A section holds what is given of its fields. It may be left out where nothing is. -/
inductive SectionHolds (names : List String) (values : List (Option Json)) : Option Json → Prop
  | leftOut : (∀ value ∈ values, value = none) → SectionHolds names values none
  | written {j : Json} : j.Holds names values → SectionHolds names values (some j)

/-- The document holds the values that are given, each under its name and in its section or
by its place. -/
def Renders (g : Given) (document : List Char) : Prop :=
  ∃ cost slack j,
    SectionHolds ["board_cost_secs", "transfer_cost_secs", "transfer_reluctance",
      "wait_reluctance"] g.costs cost ∧
    SectionHolds ["board_slack_secs", "alight_slack_secs", "transfer_slack_secs"] g.buffers slack ∧
    Json.Holds ["cost", "slack"] [cost, slack] j ∧ j.Written document

/-! ## Reading the values -/

variable {g : Given} {part : Option Json} {document : List Char}

theorem intField_json (default : Int) (x : Option Integer) :
    intField default (x.map Integer.json) = some ((x.map Integer.value).getD default) := by
  cases x with
  | none => rfl
  | some x =>
      have hrange : decide (InRange x.value) = true := decide_eq_true x.inRange
      show (Json.Numeral.ofInt x.value).toInt?.filter _ = _
      rw [Json.toInt?_ofInt, Option.filter_some, if_pos hrange]
      rfl

theorem numberField_json (default : Float) (x : Option Number) :
    numberField default (x.map Number.json) = some ((x.map Number.value).getD default) := by
  cases x with
  | none => rfl
  | some x => exact x.value_eq

theorem costSection_of_holds (h : SectionHolds costNames g.costs part) :
    costSection part = some g.settings.cost := by
  cases h with
  | leftOut hnone =>
      -- nothing is given, so every value is its default
      simp only [Given.costs, List.forall_mem_cons, Option.map_eq_none_iff] at hnone
      obtain ⟨hboard, htransfer, hwalk, hwait, _⟩ := hnone
      simp only [Given.settings, hboard, htransfer, hwalk, hwait]
      rfl
  | @written j hj =>
      have hfields := Json.fields?_of_holds (by decide) rfl hj
      show (j.fields? costNames >>= _) = _
      rw [hfields]
      simp only [Given.costs, Option.bind_eq_bind, Option.bind_some, intField_json,
        numberField_json]
      rfl

theorem slackSection_of_holds (h : SectionHolds slackNames g.buffers part) :
    slackSection part = some g.settings.slack := by
  cases h with
  | leftOut hnone =>
      simp only [Given.buffers, List.forall_mem_cons, Option.map_eq_none_iff] at hnone
      obtain ⟨hboard, halight, htransfer, _⟩ := hnone
      simp only [Given.settings, hboard, halight, htransfer]
      rfl
  | @written j hj =>
      have hfields := Json.fields?_of_holds (by decide) rfl hj
      show (j.fields? slackNames >>= _) = _
      rw [hfields]
      simp only [Given.buffers, Option.bind_eq_bind, Option.bind_some, intField_json]
      rfl

theorem ofDocument_of_renders (h : Renders g document) :
    ofDocument document = g.settings.validate.map fun _ => g.settings := by
  obtain ⟨cost, slack, j, hcost, hslack, hj, hdocument⟩ := h
  have hsections := Json.fields?_of_holds (by decide) rfl hj
  have hread : (Json.read? document).bind ofJson? = some g.settings := by
    rw [Json.read?_of_written hdocument, Option.bind_some, ofJson?, hsections]
    simp only [Option.bind_eq_bind, Option.bind_some]
    rw [costSection_of_holds hcost, slackSection_of_holds hslack]
    rfl
  unfold ofDocument
  rw [hread]

/-! ## The first value out of range -/

/-- The fields in the order of declaration. -/
def Field.declared : List Field :=
  [.boardCost, .transferCost, .transferReluctance, .waitReluctance, .boardSlack, .alightSlack,
   .transferSlack]

/-- The value of this field is in its range. -/
def Admits (s : Settings) : Field → Prop
  | .boardCost => 0 ≤ s.cost.boardCost
  | .transferCost => 0 ≤ s.cost.transferCost
  | .transferReluctance =>
    s.cost.transferReluctance.isFinite = true ∧ ¬ s.cost.transferReluctance < 0
  | .waitReluctance => s.cost.waitReluctance.isFinite = true ∧ ¬ s.cost.waitReluctance < 0
  | .boardSlack => 0 ≤ s.slack.board
  | .alightSlack => 0 ≤ s.slack.alight
  | .transferSlack => 0 ≤ s.slack.transfer

/-- The value of this field is the first one out of its range. -/
def Offends (s : Settings) (f : Field) : Prop :=
  ∃ before after, Field.declared = before ++ f :: after ∧ (∀ g ∈ before, s.Admits g) ∧ ¬ s.Admits f

instance (s : Settings) : DecidablePred s.Admits
  | .boardCost => inferInstanceAs (Decidable (0 ≤ s.cost.boardCost))
  | .transferCost => inferInstanceAs (Decidable (0 ≤ s.cost.transferCost))
  | .transferReluctance => inferInstanceAs (Decidable (_ ∧ ¬ s.cost.transferReluctance < 0))
  | .waitReluctance => inferInstanceAs (Decidable (_ ∧ ¬ s.cost.waitReluctance < 0))
  | .boardSlack => inferInstanceAs (Decidable (0 ≤ s.slack.board))
  | .alightSlack => inferInstanceAs (Decidable (0 ≤ s.slack.alight))
  | .transferSlack => inferInstanceAs (Decidable (0 ≤ s.slack.transfer))

theorem checks_eq (s : Settings) :
    s.checks = Field.declared.map fun f => (f, decide (s.Admits f)) := by
  have hweight : ∀ x, isWeight x = decide (x.isFinite = true ∧ ¬ x < 0) := by
    intro x
    rw [isWeight, Bool.decide_and, Bool.decide_eq_true, decide_not]
  simp only [checks, hweight]
  rfl

theorem mem_declared (f : Field) : f ∈ Field.declared := by
  cases f <;> decide

/-- The first field of which a value is not in range is looked for. -/
theorem find?_checks (s : Settings) :
    s.checks.find? (fun check => !check.2) =
      (Field.declared.find? fun f => !decide (s.Admits f)).map
        fun f => (f, decide (s.Admits f)) := by
  rw [checks_eq, List.find?_map]
  rfl

theorem validate_eq_ok_iff {s : Settings} : s.validate = .ok () ↔ ∀ f, s.Admits f := by
  have hnone :
      s.validate = .ok () ↔ Field.declared.find? (fun f => !decide (s.Admits f)) = none := by
    unfold validate
    rw [find?_checks]
    cases Field.declared.find? fun f => !decide (s.Admits f) <;> simp
  rw [hnone, List.find?_eq_none]
  simp [mem_declared]

theorem validate_eq_error_iff {s : Settings} {e : Error} :
    s.validate = .error e ↔ ∃ f, e = .invalid f ∧ s.Offends f := by
  -- the fields in front of the first one that fails the check pass it
  have hfind : ∀ f,
      Field.declared.find? (fun f => !decide (s.Admits f)) = some f ↔ s.Offends f := by
    intro f
    simp only [List.find?_eq_some_iff_append, Offends, Bool.not_eq_true', decide_eq_false_iff_not,
      Bool.not_not, decide_eq_true_eq]
    tauto
  unfold validate
  rw [find?_checks]
  cases hfirst : Field.declared.find? fun f => !decide (s.Admits f) with
  | none => simp [← hfind, hfirst]
  | some f => simp [← hfind, hfirst, eq_comm]

/-! ## Statement -/

/-- A document is read as the fields that it holds, however it is written: the values that are
given, with the defaults where there is none, are the settings if all of them are in range,
and else the first one out of its range is reported. -/
theorem ofDocument_means_fields (h : Renders g document) :
    ofDocument document = g.settings.validate.map (fun _ => g.settings) ∧
      (g.settings.validate = .ok () ↔ ∀ f, g.settings.Admits f) ∧
      ∀ e, g.settings.validate = .error e ↔ ∃ f, e = .invalid f ∧ g.settings.Offends f :=
  ⟨ofDocument_of_renders h, validate_eq_ok_iff, fun _ => validate_eq_error_iff⟩

section reckless

open Json

/-- Two values out of range. -/
def reckless : Given where
  waitReluctance := some ⟨⟨true, [5], [], some (-1)⟩, -0.5, by rfl⟩
  boardSlack := some ⟨-3, by decide⟩

/-- The later section in front and as an array, a name with an escape, and a member that no
section has. -/
def recklessDocument : List Char :=
  ("\x7b\"slack\":[-3],\n\"\\u0063ost\":" ++
    "\x7b\"note\":null, \"wait_reluctance\":-5E-1\x7d\x7d").toList

/-- A name without escapes. -/
def plainName (name : String) : Text := name.toList.map .char

theorem decode_plainName (name : String) : (plainName name).decode = some name.toList :=
  Text.decode_map_char _

theorem spells_plainName {name : String} (h : name.toList.all isPlain = true) :
    Token.Spells (.text (plainName name)) ('"' :: (name.toList ++ ['"'])) :=
  .text (spellsPieces_map_char h)

/-- The name of the costs with its first letter escaped. -/
def escapedName : Text := .unit 0x63 :: plainName "ost"

theorem spells_escapedName :
    Token.Spells (.text escapedName) ('"' :: ("\\u0063ost".toList ++ ['"'])) := by
  have hunit : Piece.Spells (.unit 0x63) "\\u0063".toList :=
    .numbered (i := 0) (j := 0) (k := 6) (l := 3) (.inl rfl) (.inl rfl) (.inl rfl) (.inl rfl)
  have hplain : SpellsPieces (plainName "ost") "ost".toList := spellsPieces_map_char rfl
  obtain ⟨parts, hparts, hflatten⟩ := hplain
  refine .text ⟨_ :: parts, .cons hunit hparts, ?_⟩
  rw [List.flatten_cons, ← hflatten]
  rfl

/-- The costs of the document. -/
def recklessCost : Json := .object [(plainName "note", .null),
  (plainName "wait_reluctance", .numeral ⟨true, [5], [], some (-1)⟩)]

/-- The buffers of the document. -/
def recklessSlack : Json := .array [.numeral (.ofInt (-3))]

theorem recklessCost_holds : recklessCost.Holds costNames reckless.costs := by
  have hnamed : Named [(plainName "note", .null),
      (plainName "wait_reluctance", .numeral ⟨true, [5], [], some (-1)⟩)]
      [("note", .null), ("wait_reluctance", .numeral ⟨true, [5], [], some (-1)⟩)] :=
    .cons ⟨decode_plainName _, rfl⟩ (.cons ⟨decode_plainName _, rfl⟩ .nil)
  have hperm : [("note", .null), ("wait_reluctance", .numeral ⟨true, [5], [], some (-1)⟩)].Perm
      (present costNames reckless.costs ++ [("note", .null)]) := .swap ..
  exact .object hnamed hperm (by decide)

theorem recklessSlack_holds : recklessSlack.Holds slackNames reckless.buffers := by
  have hvalues :
      reckless.buffers = [.numeral (.ofInt (-3))].map some ++ List.replicate 2 none := rfl
  exact .array hvalues

theorem spelled_reckless : Spelled
    (Json.object [(plainName "slack", recklessSlack), (escapedName, recklessCost)]).tokens
    recklessDocument := by
  have hbuffer : Token.Spells (.numeral (.ofInt (-3))) "-3".toList :=
    .numeral (spells_ofInt_iff.mpr rfl)
  have hexponent : SpellsExponent (some (-1)) "E-1".toList :=
    .minus (.inr rfl) (List.cons_ne_nil 1 []) (by decide)
  have hweight : Token.Spells (.numeral ⟨true, [5], [], some (-1)⟩) "-5E-1".toList :=
    .numeral ⟨⟨by decide, .inr ⟨5, [], rfl, by decide⟩⟩, by decide, _, hexponent, rfl⟩
  have hslackName : Token.Spells (.text (plainName "slack")) "\"slack\"".toList :=
    spells_plainName rfl
  have hnote : Token.Spells (.text (plainName "note")) "\"note\"".toList :=
    spells_plainName rfl
  have hwait : Token.Spells (.text (plainName "wait_reluctance")) "\"wait_reluctance\"".toList :=
    spells_plainName rfl
  have hblank : Blanks [' '] := by simp [Blanks]
  have hline : Blanks ['\n'] := by simp [Blanks]
  have hcost := Spelled.tight .leftBrace <| .tight hnote <| .tight .colon <| .tight .null <|
    .tight .comma <| .cons hblank hwait <| .tight .colon <| .tight hweight <|
    .tight .rightBrace <| .tight .rightBrace <| .nil (List.forall_mem_nil _)
  exact .tight .leftBrace <| .tight hslackName <| .tight .colon <| .tight .leftBracket <|
    .tight hbuffer <| .tight .rightBracket <| .tight .comma <| .cons hline spells_escapedName <|
    .tight .colon hcost

theorem recklessDocument_renders : Renders reckless recklessDocument := by
  have hnamed : Named [(plainName "slack", recklessSlack), (escapedName, recklessCost)]
      [("slack", recklessSlack), ("cost", recklessCost)] :=
    .cons ⟨decode_plainName _, rfl⟩ (.cons ⟨by decide, rfl⟩ .nil)
  have hperm : [("slack", recklessSlack), ("cost", recklessCost)].Perm
      (present ["cost", "slack"] [some recklessCost, some recklessSlack] ++ []) := .swap ..
  exact ⟨_, _, _, .written recklessCost_holds, .written recklessSlack_holds,
    .object hnamed hperm (by decide), spelled_reckless⟩

end reckless

/-- The weight is reported: it is declared in front of the buffer that the document begins with. -/
theorem recklessDocument_means_fields :
    Renders reckless recklessDocument ∧
      ofDocument recklessDocument = .error (.invalid .waitReluctance) := by
  have hmeans := ofDocument_means_fields recklessDocument_renders
  have hoffends : reckless.settings.Offends .waitReluctance :=
    ⟨[.boardCost, .transferCost, .transferReluctance], _, rfl, by decide +kernel, by decide +kernel⟩
  have hvalidate := (hmeans.2.2 _).mpr ⟨_, rfl, hoffends⟩
  refine ⟨recklessDocument_renders, ?_⟩
  rw [hmeans.1, hvalidate]
  rfl

end Settings

end Journey
