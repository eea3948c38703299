import Journey.Json.Token
import Mathlib.Data.List.Forall2
import Mathlib.Tactic.IntervalCases

/-!
# How tokens are written

The ways to write each token, as the grammar of JSON texts has them: a number with a sign, a
fraction and an exponent, a string whose characters stand as they are or are escaped
by name or by number. Tokens may have blanks in front, and the last one
behind (`Spelled`).

A number has no mark of its own at its end, so it is the only token that must be told from
what follows: nothing that a number goes on with may come next (`Breaks`). The
other tokens do (`breaks_of_spells`), so numbers need only be kept apart from one
another.

**Statement** (`tokens?_of_spelled`): tokens that are written in any of these ways are read
back, as long as no number follows a number.
-/

namespace Journey.Json

/-! ## Digits -/

/-- Digits as they are written. -/
def digitChars (digits : List Nat) : List Char := digits.map Nat.digitChar

def AreDigits (digits : List Nat) : Prop := ∀ d ∈ digits, d < 10

instance : DecidablePred AreDigits := fun digits => List.decidableBAll (· < 10) digits

theorem digitOf?_digitChar {d : Nat} (h : d < 10) : digitOf? d.digitChar = some d := by
  interval_cases d <;> decide

/-- A character that stands for a value in base sixteen. -/
def IsHex (c : Char) (value : Nat) : Prop :=
  "0123456789abcdef".toList[value]? = some c ∨ "0123456789ABCDEF".toList[value]? = some c

theorem hexOf?_of_isHex {c : Char} {value : Nat} (h : IsHex c value) :
    hexOf? c = some value := by
  have hlt : value < 16 := by
    rcases h with h | h <;> exact (List.getElem?_eq_some_iff.mp h).1
  interval_cases value <;> rcases h with h | h <;> cases h <;> decide

/-! ## Numbers -/

/-- The digits in front of the point: a zero alone, or digits that begin with none. -/
def LeadsNumber (digits : List Nat) : Prop :=
  digits = [0] ∨ ∃ d rest, digits = d :: rest ∧ d ≠ 0

/-- The fraction as it is written, if it has digits. -/
def fractionChars (digits : List Nat) : List Char :=
  if digits.isEmpty then [] else '.' :: digitChars digits

/-- The ways to write an exponent. -/
inductive SpellsExponent : Option Int → List Char → Prop
  | absent : SpellsExponent none []
  | plain {mark : Char} {digits : List Nat} : mark = 'e' ∨ mark = 'E' → digits ≠ [] →
      AreDigits digits →
      SpellsExponent (some (Numeral.digitsValue digits)) (mark :: digitChars digits)
  | plus {mark : Char} {digits : List Nat} : mark = 'e' ∨ mark = 'E' → digits ≠ [] →
      AreDigits digits →
      SpellsExponent (some (Numeral.digitsValue digits)) (mark :: '+' :: digitChars digits)
  | minus {mark : Char} {digits : List Nat} : mark = 'e' ∨ mark = 'E' → digits ≠ [] →
      AreDigits digits →
      SpellsExponent (some (-(Numeral.digitsValue digits))) (mark :: '-' :: digitChars digits)

/-- The ways to write a number. -/
structure Numeral.Spells (n : Numeral) (text : List Char) : Prop where
  whole : AreDigits n.whole ∧ LeadsNumber n.whole
  fraction : AreDigits n.fraction
  text_eq : ∃ exponent, SpellsExponent n.exponent exponent ∧
    text = (if n.negative then ['-'] else []) ++ digitChars n.whole ++ fractionChars n.fraction ++
      exponent

/-! ## Strings -/

/-- Characters that are escaped by name. -/
def escapes : List (Char × Char) :=
  [('"', '"'), ('\\', '\\'), ('/', '/'), ('b', '\x08'), ('f', '\x0c'), ('n', '\n'), ('r', '\r'),
   ('t', '\t')]

/-- The ways to write a piece of a string. -/
inductive Piece.Spells : Piece → List Char → Prop
  | plain {c : Char} : c ≠ '"' → c ≠ '\\' → 32 ≤ c.toNat → Piece.Spells (.char c) [c]
  | named {name c : Char} : (name, c) ∈ escapes → Piece.Spells (.char c) ['\\', name]
  | numbered {a b c d : Char} {i j k l : Nat} : IsHex a i → IsHex b j → IsHex c k → IsHex d l →
      Piece.Spells (.unit (((i * 16 + j) * 16 + k) * 16 + l)) ['\\', 'u', a, b, c, d]

/-- A string is written piece by piece. -/
def SpellsPieces (pieces : Text) (text : List Char) : Prop :=
  ∃ parts, List.Forall₂ Piece.Spells pieces parts ∧ text = parts.flatten

/-! ## Tokens -/

/-- The ways to write a token. -/
inductive Token.Spells : Token → List Char → Prop
  | leftBracket : Spells .leftBracket ['[']
  | rightBracket : Spells .rightBracket [']']
  | leftBrace : Spells .leftBrace ['{']
  | rightBrace : Spells .rightBrace ['}']
  | colon : Spells .colon [':']
  | comma : Spells .comma [',']
  | null : Spells .null ['n', 'u', 'l', 'l']
  | true : Spells (.bool true) ['t', 'r', 'u', 'e']
  | false : Spells (.bool false) ['f', 'a', 'l', 's', 'e']
  | numeral {n : Numeral} {text : List Char} : n.Spells text → Spells (.numeral n) text
  | text {pieces : Text} {text : List Char} : SpellsPieces pieces text →
      Spells (.text pieces) ('"' :: (text ++ ['"']))

def Blanks (text : List Char) : Prop := ∀ c ∈ text, c = ' ' ∨ c = '\t' ∨ c = '\n' ∨ c = '\r'

/-- Tokens as they are written, with blanks around each of them. -/
inductive Spelled : List Token → List Char → Prop
  | nil {blanks : List Char} : Blanks blanks → Spelled [] blanks
  | cons {blanks text rest : List Char} {t : Token} {ts : List Token} : Blanks blanks →
      t.Spells text → Spelled ts rest → Spelled (t :: ts) (blanks ++ (text ++ rest))

def Token.isNumeral : Token → Bool
  | .numeral _ => true
  | _ => false

/-- No number follows a number. -/
def NumbersApart (ts : List Token) : Prop :=
  ts.IsChain fun t u => ¬ (t.isNumeral = true ∧ u.isNumeral = true)

theorem Spelled.tight {t : Token} {ts : List Token} {text rest : List Char} (h : t.Spells text)
    (hrest : Spelled ts rest) : Spelled (t :: ts) (text ++ rest) :=
  Spelled.cons (List.forall_mem_nil _) h hrest

/-- The character needs no escape. -/
def isPlain (c : Char) : Bool := c ≠ '"' && c ≠ '\\' && 32 ≤ c.toNat

/-- A string of characters that need no escape is written as it is. -/
theorem spellsPieces_map_char {cs : List Char} (h : cs.all isPlain = true) :
    SpellsPieces (cs.map .char) cs := by
  induction cs with
  | nil => exact ⟨[], .nil, rfl⟩
  | cons c cs ih =>
      simp only [List.all_cons, isPlain, Bool.and_eq_true, decide_eq_true_eq] at h
      obtain ⟨⟨⟨hquote, hescape⟩, hprintable⟩, hcs⟩ := h
      obtain ⟨parts, hparts, hflatten⟩ := ih hcs
      exact ⟨[c] :: parts, .cons (.plain hquote hescape hprintable) hparts, by simp [← hflatten]⟩

/-! ## Digits of a number -/

/-- Where a digit leads to. -/
def Place.onDigit : Place → Place
  | .point | .fraction => .fraction
  | .mark | .markSign | .exponent => .exponent
  | .sign | .zero | .whole => .whole

theorem Place.onDigit_onDigit (place : Place) : place.onDigit.onDigit = place.onDigit := by
  cases place <;> rfl

namespace Draft

/-- The number with one more digit in the part that the place belongs to. -/
def withDigit (d : Draft) (place : Place) (n : Nat) : Draft :=
  match place with
  | .fraction => { d with fraction := n :: d.fraction }
  | .exponent => { d with exponent := d.exponent * 10 + n }
  | _ => { d with whole := n :: d.whole }

def withDigits (d : Draft) (place : Place) (digits : List Nat) : Draft :=
  digits.foldl (fun d n => d.withDigit place n) d

theorem withDigits_whole (d : Draft) (digits : List Nat) :
    d.withDigits .whole digits = { d with whole := digits.reverse ++ d.whole } := by
  induction digits generalizing d with
  | nil => rfl
  | cons n rest ih =>
      show (d.withDigit .whole n).withDigits .whole rest = _
      rw [ih]
      simp [withDigit]

theorem withDigits_fraction (d : Draft) (digits : List Nat) :
    d.withDigits .fraction digits = { d with fraction := digits.reverse ++ d.fraction } := by
  induction digits generalizing d with
  | nil => rfl
  | cons n rest ih =>
      show (d.withDigit .fraction n).withDigits .fraction rest = _
      rw [ih]
      simp [withDigit]

theorem withDigits_exponent (d : Draft) (digits : List Nat) :
    d.withDigits .exponent digits =
      { d with exponent := digits.foldl (fun value n => value * 10 + n) d.exponent } := by
  induction digits generalizing d with
  | nil => rfl
  | cons n rest ih =>
      show (d.withDigit .exponent n).withDigits .exponent rest = _
      rw [ih]
      rfl

theorem extend?_digit {d : Draft} {place : Place} (hplace : place ≠ .sign ∧ place ≠ .zero)
    {n : Nat} (h : n < 10) :
    d.extend? place n.digitChar = some (place.onDigit, d.withDigit place.onDigit n) := by
  cases place with
  | sign => exact absurd rfl hplace.1
  | zero => exact absurd rfl hplace.2
  | whole | point | fraction | mark | markSign | exponent =>
      simp only [extend?, digitOf?_digitChar h]
      rfl

end Draft

namespace Scan

variable {s s' : Scan} {found tokens : List Token} {c : Char} {cs rest : List Char}

/-! ## One character -/

theorem run_step (h : s.step c = some (s', tokens)) :
    run s found (c :: cs) = run s' (tokens.reverse ++ found) cs := by
  rw [run, h]

/-- A character that does not end a token. -/
theorem run_quiet (h : s.step c = some (s', [])) : run s found (c :: cs) = run s' found cs :=
  run_step h

/-- Blanks between tokens are passed over. -/
theorem run_blanks {blanks : List Char} (h : Blanks blanks) :
    run .between found (blanks ++ rest) = run .between found rest := by
  induction blanks with
  | nil => rfl
  | cons c cs ih =>
      obtain ⟨hc, hcs⟩ := List.forall_mem_cons.mp h
      have hstep : step .between c = some (.between, []) := by
        rcases hc with rfl | rfl | rfl | rfl <;> rfl
      rw [List.cons_append, run_quiet hstep, ih hcs]

/-! ## Numbers -/

/-- A character that a number can go on with. -/
def continues (c : Char) : Bool := c.isDigit || c == '.' || Draft.isMark c

/-- No number goes on here. -/
def Breaks (rest : List Char) : Prop := ∀ c, rest.head? = some c → continues c = false

theorem extend?_eq_none {d : Draft} {place : Place} {n : Numeral} (h : d.finish? place = some n)
    (hc : continues c = false) : d.extend? place c = none := by
  simp only [continues, Bool.or_eq_false_iff, beq_eq_false_iff_ne] at hc
  obtain ⟨⟨hdigit, hpoint⟩, hmark⟩ := hc
  have hnone : digitOf? c = none := by
    rw [digitOf?, if_neg (by simp [hdigit])]
  cases place with
  | sign | point | mark | markSign => cases h
  | zero | whole | fraction | exponent => simp [Draft.extend?, hnone, hpoint, hmark]

/-- A number ends where none goes on. -/
theorem run_finish {d : Draft} {place : Place} {n : Numeral} (h : d.finish? place = some n)
    (hrest : Breaks rest) :
    run (.numeral place d) found rest = run .between (.numeral n :: found) rest := by
  cases rest with
  | nil => simp [run, finish?, h]
  | cons c cs =>
      have hnone := extend?_eq_none h (hrest c rfl)
      simp only [run, step, hnone, h]
      cases begin? c with
      | none => rfl
      | some next => simp

theorem run_extend {d d' : Draft} {place place' : Place}
    (h : d.extend? place c = some (place', d')) :
    run (.numeral place d) found (c :: cs) = run (.numeral place' d') found cs := by
  apply run_quiet
  simp only [step, h]

/-- Digits all belong to one part of the number. -/
theorem run_digits {d : Draft} {place : Place} (hplace : place ≠ .sign ∧ place ≠ .zero)
    {n : Nat} {digits : List Nat} (h : AreDigits (n :: digits)) :
    run (.numeral place d) found (digitChars (n :: digits) ++ rest) =
      run (.numeral place.onDigit (d.withDigits place.onDigit (n :: digits))) found rest := by
  induction digits generalizing n place d with
  | nil =>
      have hn := h n List.mem_cons_self
      exact run_extend (Draft.extend?_digit hplace hn)
  | cons m digits ih =>
      obtain ⟨hn, hrest⟩ := List.forall_mem_cons.mp h
      have hplace' : place.onDigit ≠ .sign ∧ place.onDigit ≠ .zero := by cases place <;> decide
      have hnext := ih hplace' hrest (d := d.withDigit place.onDigit n)
      rw [Place.onDigit_onDigit] at hnext
      exact (run_extend (Draft.extend?_digit hplace hn)).trans hnext

/-- The sign and the first digit. -/
theorem run_lead (negative : Bool) {n : Nat} (h : n < 10) :
    run .between found ((if negative then ['-'] else []) ++ n.digitChar :: rest) =
      run (.numeral (if n = 0 then .zero else .whole) { Draft.start negative with whole := [n] })
        found rest := by
  cases negative with
  | true =>
      have hsign : step .between '-' = some (.numeral .sign (Draft.start true), []) := rfl
      have hdigit : (Draft.start true).extend? .sign n.digitChar =
          some (if n = 0 then .zero else .whole, { Draft.start true with whole := [n] }) := by
        simp only [Draft.extend?, digitOf?_digitChar h]
      exact (run_quiet hsign).trans (run_extend hdigit)
  | false =>
      have hstep : step .between n.digitChar = some (.numeral (if n = 0 then .zero else .whole)
          { Draft.start false with whole := [n] }, []) := by
        interval_cases n <;> rfl
      exact run_quiet hstep

/-- The sign and the digits in front of the point. -/
theorem run_whole (negative : Bool) {digits : List Nat} (h : AreDigits digits)
    (hlead : LeadsNumber digits) :
    ∃ place, (place = .zero ∨ place = .whole) ∧ ∀ found rest,
      run .between found ((if negative then ['-'] else []) ++ (digitChars digits ++ rest)) =
        run (.numeral place { Draft.start negative with whole := digits.reverse }) found rest := by
  rcases hlead with rfl | ⟨n, more, rfl, hn⟩
  · exact ⟨.zero, .inl rfl, fun found rest => run_lead negative (by decide)⟩
  · obtain ⟨hlt, hmore⟩ := List.forall_mem_cons.mp h
    refine ⟨.whole, .inr rfl, fun found rest => ?_⟩
    refine (run_lead negative hlt).trans ?_
    rw [if_neg hn]
    cases more with
    | nil => rfl
    | cons m more =>
        refine (run_digits (by decide) hmore).trans ?_
        rw [Place.onDigit, Draft.withDigits_whole]
        simp

/-- The point and the digits behind it, if there are any. -/
theorem run_fraction {d : Draft} {place : Place} (hplace : place = .zero ∨ place = .whole)
    (hnone : d.fraction = []) {digits : List Nat} (h : AreDigits digits) :
    ∃ place', (place' = .zero ∨ place' = .whole ∨ place' = .fraction) ∧ ∀ found rest,
      run (.numeral place d) found (fractionChars digits ++ rest) =
        run (.numeral place' { d with fraction := digits.reverse }) found rest := by
  cases digits with
  | nil =>
      have hsame : { d with fraction := [] } = d := by rw [← hnone]
      refine ⟨place, hplace.imp_right .inl, fun found rest => ?_⟩
      rw [List.reverse_nil, hsame]
      rfl
  | cons n digits =>
      have hpoint : d.extend? place '.' = some (.point, d) := by
        rcases hplace with rfl | rfl <;> rfl
      refine ⟨.fraction, .inr (.inr rfl), fun found rest => ?_⟩
      refine (run_extend hpoint).trans ((run_digits (by decide) h).trans ?_)
      rw [Place.onDigit, Draft.withDigits_fraction, hnone, List.append_nil]

/-- The digits of an exponent. -/
theorem run_exponentDigits {d : Draft} {place : Place}
    (hplace : place = .mark ∨ place = .markSign) (hzero : d.exponent = 0) {digits : List Nat}
    (hsome : digits ≠ []) (h : AreDigits digits) :
    run (.numeral place d) found (digitChars digits ++ rest) =
      run (.numeral .exponent { d with exponent := Numeral.digitsValue digits }) found rest := by
  cases digits with
  | nil => exact absurd rfl hsome
  | cons n digits =>
      have hkind : place ≠ .sign ∧ place ≠ .zero ∧ place.onDigit = .exponent := by
        rcases hplace with rfl | rfl <;> decide
      rw [run_digits ⟨hkind.1, hkind.2.1⟩ h, hkind.2.2, Draft.withDigits_exponent, hzero]
      rfl

/-- The exponent, if there is one. The number may end behind it. -/
theorem run_exponent {d : Draft} {place : Place}
    (hplace : place = .zero ∨ place = .whole ∨ place = .fraction)
    (hplain : d.exponent = 0 ∧ d.exponentNegative = false) {exponent : Option Int}
    {text : List Char} (h : SpellsExponent exponent text) :
    ∃ place' d', d'.finish? place' = some (⟨d.negative, d.whole.reverse, d.fraction.reverse,
        exponent⟩ : Numeral) ∧
      ∀ found rest, run (.numeral place d) found (text ++ rest) =
        run (.numeral place' d') found rest := by
  have hmark : ∀ {mark : Char}, mark = 'e' ∨ mark = 'E' →
      d.extend? place mark = some (.mark, d) := by
    intro mark hmark
    rcases hplace with rfl | rfl | rfl <;> rcases hmark with rfl | rfl <;> rfl
  cases h with
  | absent =>
      refine ⟨place, d, ?_, fun found rest => rfl⟩
      rcases hplace with rfl | rfl | rfl <;> rfl
  | plain he hsome hdigits =>
      refine ⟨.exponent, _, ?_, fun found rest => (run_extend (hmark he)).trans
        (run_exponentDigits (.inl rfl) hplain.1 hsome hdigits)⟩
      simp [Draft.finish?, hplain.2]
  | plus he hsome hdigits =>
      have hsign : d.extend? .mark '+' = some (.markSign, d) := rfl
      refine ⟨.exponent, _, ?_, fun found rest => (run_extend (hmark he)).trans
        ((run_extend hsign).trans (run_exponentDigits (.inr rfl) hplain.1 hsome hdigits))⟩
      simp [Draft.finish?, hplain.2]
  | minus he hsome hdigits =>
      have hsign : d.extend? .mark '-' = some (.markSign, { d with exponentNegative := true }) :=
        rfl
      have hsame : ({ d with exponentNegative := true } : Draft).exponent = 0 := hplain.1
      refine ⟨.exponent, _, ?_, fun found rest => (run_extend (hmark he)).trans
        ((run_extend hsign).trans (run_exponentDigits (.inr rfl) hsame hsome hdigits))⟩
      simp [Draft.finish?]

/-- A number is read to its end, where none goes on. -/
theorem run_numeral {n : Numeral} {text : List Char} (h : n.Spells text) (hrest : Breaks rest) :
    run .between found (text ++ rest) = run .between (.numeral n :: found) rest := by
  obtain ⟨⟨hwhole, hlead⟩, hfraction, exponent, hexponent, rfl⟩ := h
  obtain ⟨place, hplace, hfront⟩ := run_whole n.negative hwhole hlead
  obtain ⟨place', hplace', hmiddle⟩ := run_fraction
    (d := { Draft.start n.negative with whole := n.whole.reverse }) hplace rfl hfraction
  obtain ⟨place'', d, hfinish, hback⟩ := run_exponent
    (d := { Draft.start n.negative with whole := n.whole.reverse, fraction := n.fraction.reverse })
    hplace' ⟨rfl, rfl⟩ hexponent
  simp only [List.append_assoc]
  rw [hfront, hmiddle, hback, run_finish hfinish hrest]
  simp [Draft.start]

/-! ## Strings -/

variable {read : List Piece}

theorem namedEscape?_of_mem {name c : Char} (h : (name, c) ∈ escapes) :
    name ≠ 'u' ∧ namedEscape? name = some c := by
  simp only [escapes, List.mem_cons, Prod.mk.injEq, List.not_mem_nil, or_false] at h
  rcases h with ⟨rfl, rfl⟩ | ⟨rfl, rfl⟩ | ⟨rfl, rfl⟩ | ⟨rfl, rfl⟩ | ⟨rfl, rfl⟩ | ⟨rfl, rfl⟩ |
    ⟨rfl, rfl⟩ | ⟨rfl, rfl⟩ <;> decide

/-- A digit of a numbered escape. -/
theorem run_hex {missing value i : Nat} (h : IsHex c i) (hmissing : 1 < missing) :
    run (.hex read missing value) found (c :: cs) =
      run (.hex read (missing - 1) (value * 16 + i)) found cs := by
  apply run_quiet
  simp only [step, hexOf?_of_isHex h, Option.map_some]
  rw [if_neg (by omega)]

theorem run_piece {piece : Piece} {text : List Char} (h : piece.Spells text) :
    run (.text read) found (text ++ rest) = run (.text (piece :: read)) found rest := by
  have hescape : step (.text read) '\\' = some (.escape read, []) := rfl
  cases h with
  | @plain c hquote hescape hprintable =>
      apply run_quiet
      simp only [step, if_neg hquote, if_neg hescape]
      rw [if_neg (by omega)]
  | named hmem =>
      obtain ⟨hname, hnamed⟩ := namedEscape?_of_mem hmem
      refine (run_quiet hescape).trans (run_quiet ?_)
      simp only [step, if_neg hname, hnamed, Option.map_some]
  | numbered ha hb hc hd =>
      have hnumber : step (.escape read) 'u' = some (.hex read 4 0, []) := rfl
      refine (run_quiet hescape).trans ((run_quiet hnumber).trans ?_)
      refine (run_hex ha (by decide)).trans ((run_hex hb (by decide)).trans
        ((run_hex hc (by decide)).trans (run_quiet ?_)))
      simp [step, hexOf?_of_isHex hd]

theorem run_pieces {pieces : Text} {text : List Char} (h : SpellsPieces pieces text) :
    run (.text read) found (text ++ rest) = run (.text (pieces.reverse ++ read)) found rest := by
  obtain ⟨parts, hparts, rfl⟩ := h
  induction hparts generalizing read with
  | nil => rfl
  | @cons piece part pieces parts hpiece _ ih =>
      rw [List.flatten_cons, List.append_assoc, run_piece hpiece, ih]
      simp

/-! ## Tokens -/

/-- No token but a number begins with a character that a number can go on with. -/
theorem breaks_of_spells {t : Token} {text : List Char} (h : t.Spells text)
    (ht : t.isNumeral = false) : Breaks (text ++ rest) := by
  intro c hc
  cases h with
  | numeral h => cases ht
  | leftBracket | rightBracket | leftBrace | rightBrace | colon | comma | null | true | false
  | text h =>
      cases hc
      decide

/-- A token is read to its end. Behind a number there must be nothing that one goes on with. -/
theorem run_token {t : Token} {text : List Char} (h : t.Spells text)
    (hrest : t.isNumeral = true → Breaks rest) :
    run .between found (text ++ rest) = run .between (t :: found) rest := by
  cases h with
  | leftBracket | rightBracket | leftBrace | rightBrace | colon | comma | null | true | false =>
      rfl
  | numeral h => exact run_numeral h (hrest rfl)
  | @text pieces body h =>
      have hopen : step .between '"' = some (.text [], []) := rfl
      have hclose : step (.text (pieces.reverse ++ [])) '"' = some (.between, [.text pieces]) := by
        simp [step]
      rw [List.cons_append, List.append_assoc, run_quiet hopen, run_pieces h]
      exact run_step hclose

/-- What comes after a number is no number, so it breaks off. -/
theorem breaks_of_spelled {t : Token} {ts : List Token} (h : Spelled ts rest)
    (hapart : NumbersApart (t :: ts)) (ht : t.isNumeral = true) : Breaks rest := by
  have hblank : ∀ {c : Char}, c = ' ' ∨ c = '\t' ∨ c = '\n' ∨ c = '\r' → continues c = false := by
    rintro c (rfl | rfl | rfl | rfl) <;> decide
  cases h with
  | nil hblanks =>
      intro c hc
      exact hblank (hblanks c (List.mem_of_mem_head? hc))
  | @cons blanks text rest u us hblanks hspells _ =>
      cases blanks with
      | nil =>
          have hu : u.isNumeral = false := by
            cases hu : u.isNumeral with
            | false => rfl
            | true => exact absurd ⟨ht, hu⟩ (List.isChain_cons_cons.mp hapart).1
          show Breaks (text ++ rest)
          exact breaks_of_spells hspells hu
      | cons b blanks =>
          intro c hc
          cases hc
          exact hblank (hblanks b List.mem_cons_self)

theorem run_spelled {ts : List Token} {text : List Char} (h : Spelled ts text)
    (hapart : NumbersApart ts) : run .between found text = some (found.reverse ++ ts) := by
  induction h generalizing found with
  | @nil blanks hblanks =>
      have hrun := @run_blanks found [] blanks hblanks
      rw [List.append_nil] at hrun
      rw [hrun]
      simp [run, finish?]
  | @cons blanks text rest t ts hblanks hspells hrest ih =>
      have htail : NumbersApart ts := List.IsChain.of_cons hapart
      -- each token is read from between two tokens, with those found so far in front
      rw [run_blanks hblanks, run_token hspells (breaks_of_spelled hrest hapart), ih htail]
      simp

end Scan

theorem tokens?_of_spelled {ts : List Token} {text : List Char} (h : Spelled ts text)
    (hapart : NumbersApart ts) : tokens? text = some ts :=
  Scan.run_spelled h hapart

end Journey.Json
