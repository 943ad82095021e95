import FloatLang.Token

/-!
# Lexemes

How a text divides into tokens, regardless of where it stands. Blanks and comments come first;
then an operator takes as many characters as still spell an operator, and a word everything up
to the next blank, line break or character that starts an operator.

## Main definitions

* `Gap`, `Gap.ofText` — the blanks and comments in front of a token
* `Gap.lineBreaks` — the line breaks counted inside of them
* `operatorExtent` — the longest operator
* `classifyWord` — the kind of a word
* `Lexeme`, `Lexeme.ofText` — the first token of a text, with what surrounds it

## Main results

* `Lexeme.consumed_append_rest` — a lexeme divides the text and loses none of it
-/

namespace FloatLang

/-- Blanks separate tokens; line breaks are tokens themselves. -/
def isBlank (c : Char) : Bool := c == ' ' || c == '\t'

/-- What a text starts with, up to its first token. -/
structure Gap where
  /-- The blanks and closed comments passed. -/
  skipped : List Char
  /-- The text after them. -/
  rest : List Char
  /-- Whether the rest is a block comment that never closes. -/
  unclosed : Bool
  deriving DecidableEq, Repr

namespace Gap

/-- The gap of the same text with more skipped characters in front. -/
def after (front : List Char) (gap : Gap) : Gap := { gap with skipped := front ++ gap.skipped }

mutual

/-- Divides a text after its leading blanks and comments. -/
def ofText : List Char → Gap
  | [] => ⟨[], [], false⟩
  | '/' :: '/' :: text =>
    ⟨'/' :: '/' :: text.takeWhile (· != '\n'), text.dropWhile (· != '\n'), false⟩
  | '/' :: '*' :: text =>
    match ofComment? text with
    | some gap => gap.after ['/', '*']
    | none => ⟨[], '/' :: '*' :: text, true⟩
  | c :: text => if isBlank c then (ofText text).after [c] else ⟨[], c :: text, false⟩

/-- Divides a text that starts inside a block comment, if the comment closes. -/
def ofComment? : List Char → Option Gap
  | [] => none
  | '*' :: '/' :: text => some ((ofText text).after ['*', '/'])
  | c :: text => (ofComment? text).map (Gap.after [c])

end

mutual

/-- The line breaks counted on the way to the first token of a text. Only block comments take any
with them: a line comment leaves its own to be scanned. -/
def lineBreaks : List Char → Nat
  | [] => 0
  | '/' :: '/' :: _ => 0
  | '/' :: '*' :: text => lineBreaksOfComment text
  | c :: text => if isBlank c then lineBreaks text else 0

/-- The same for a text that starts inside a block comment, whether it closes or not. -/
def lineBreaksOfComment : List Char → Nat
  | [] => 0
  | '*' :: '/' :: text => lineBreaks text
  | '\n' :: text => lineBreaksOfComment text + 1
  | _ :: text => lineBreaksOfComment text

end

@[simp] theorem after_skipped (front : List Char) (gap : Gap) :
    (gap.after front).skipped = front ++ gap.skipped := rfl

@[simp] theorem after_rest (front : List Char) (gap : Gap) : (gap.after front).rest = gap.rest :=
  rfl

mutual

/-- A gap and what follows it make up the text. -/
theorem skipped_append_rest (text : List Char) :
    (ofText text).skipped ++ (ofText text).rest = text := by
  unfold ofText
  split
  · rfl
  · simp
  next text =>
    split
    next gap h => simpa using skipped_append_rest_of_ofComment? text h
    next => rfl
  next c text _ _ =>
    split
    · simpa using skipped_append_rest text
    · rfl
termination_by text.length
decreasing_by all_goals grind

/-- The same for a text that starts inside a block comment. -/
theorem skipped_append_rest_of_ofComment? (text : List Char) {gap : Gap}
    (h : ofComment? text = some gap) : gap.skipped ++ gap.rest = text := by
  unfold ofComment? at h
  split at h
  · contradiction
  next text =>
    obtain rfl := Option.some.inj h
    simpa using skipped_append_rest text
  next c text _ =>
    obtain ⟨inner, hinner, rfl⟩ := Option.map_eq_some_iff.1 h
    simpa using skipped_append_rest_of_ofComment? text hinner
termination_by text.length
decreasing_by all_goals grind

end

end Gap

/-- The characters from the front of `rest` that extend the operator `symbol`, each step giving
an operator again, and what follows them. -/
def operatorExtent (symbol : List Char) : List Char → List Char × List Char
  | [] => (symbol, [])
  | c :: rest =>
    if (Operator.ofSymbol? (symbol ++ [c])).isSome then operatorExtent (symbol ++ [c]) rest
    else (symbol, c :: rest)

/-- An operator and what follows it make up the text. -/
theorem operatorExtent_append (symbol rest : List Char) :
    (operatorExtent symbol rest).1 ++ (operatorExtent symbol rest).2 = symbol ++ rest := by
  induction rest generalizing symbol with
  | nil => simp [operatorExtent]
  | cons c rest ih =>
    unfold operatorExtent
    split
    · simpa using ih (symbol ++ [c])
    · rfl

/-- The characters of which words are made. -/
def isWordCharacter (c : Char) : Bool :=
  !(isBlank c || c == '\n' || Operator.startsSymbol c)

theorem toNat_of_isAlpha {c : Char} (h : c.isAlpha = true) : 65 ≤ c.toNat ∧ c.toNat ≤ 122 := by
  have hletter : (c.isUpper || c.isLower) = true := h
  rcases Bool.or_eq_true_iff.1 hletter with hupper | hlower
  · have hrange : 65 ≤ c.toNat ∧ c.toNat ≤ 90 := of_decide_eq_true hupper
    omega
  · obtain ⟨hleft, hright⟩ := Bool.and_eq_true_iff.1 hlower
    have hlow : 97 ≤ c.toNat := of_decide_eq_true hleft
    have hhigh : c.toNat ≤ 122 := of_decide_eq_true hright
    omega

theorem toNat_of_isDigit {c : Char} (h : c.isDigit = true) : 48 ≤ c.toNat ∧ c.toNat ≤ 57 :=
  Char.isDigit_iff_toNat.1 h

/-- Letters and digits do not share a code. -/
theorem isDigit_of_isAlpha {c : Char} (h : c.isAlpha = true) : c.isDigit = false := by
  have halpha := toNat_of_isAlpha h
  cases hc : c.isDigit with
  | false => rfl
  | true =>
    have hdigit := toNat_of_isDigit hc
    omega

/-- The characters an identifier continues with. -/
def continuesIdentifier (c : Char) : Bool := c.isAlphanum || c == '_'

/-- Recognises an identifier: a letter, then letters, digits and underscores. -/
def isIdentifier : List Char → Bool
  | [] => false
  | c :: rest => c.isAlpha && rest.all continuesIdentifier

/-- The first character that an identifier can not have in its place. -/
def firstUnknown? : List Char → Option Char
  | [] => none
  | c :: rest => if c.isAlpha then rest.find? (!continuesIdentifier ·) else some c

/-- The kind of a word: a numeral if it starts with a digit, else a reserved word or an
identifier. -/
def classifyWord (word : List Char) : TokenKind :=
  if (word.head?.map Char.isDigit).getD false then
    if Numeral.isSpelling word then
      match Numeral.parse? word with
      | some value => .numeral value
      | none => .invalid (.invalidNumeral (String.ofList word))
    else .invalid (.invalidNumeral (String.ofList word))
  else if isIdentifier word then
    match Keyword.ofLetters? word with
    | some keyword => .keyword keyword
    | none => .identifier (String.ofList word)
  else .invalid (.unknownCharacter ((firstUnknown? word).getD '\x00') (String.ofList word))

/-- The kind of what an operator character starts; alone it may be no operator. -/
def classifyOperator (first : Char) (symbol : List Char) : TokenKind :=
  match Operator.ofSymbol? symbol with
  | some op => .operator op
  | none => .invalid (.unknownCharacter first (String.ofList symbol))

/-- The first token of a text, between what was skipped to reach it and what is left. -/
structure Lexeme where
  /-- The blanks and comments before the token. -/
  skipped : List Char
  kind : TokenKind
  /-- The characters of the token. -/
  text : List Char
  /-- The rest of a block comment that never closes. -/
  dropped : List Char
  /-- The text after the token. -/
  rest : List Char
  deriving DecidableEq, Repr

namespace Lexeme

/-- The first token of a text. -/
def ofText (source : List Char) : Lexeme :=
  let gap := Gap.ofText source
  let lexeme (kind : TokenKind) (text dropped rest : List Char) : Lexeme :=
    ⟨gap.skipped, kind, text, dropped, rest⟩
  if gap.unclosed then
    lexeme (.invalid .unterminatedComment) (gap.rest.take 2) (gap.rest.drop 2) []
  else
    match gap.rest with
    | [] => lexeme .endOfFile [] [] []
    | c :: rest =>
      if c = '\n' then lexeme .endOfLine [c] [] rest
      else if Operator.startsSymbol c then
        let (symbol, rest) := operatorExtent [c] rest
        lexeme (classifyOperator c symbol) symbol [] rest
      else
        let word := c :: rest.takeWhile isWordCharacter
        lexeme (classifyWord word) word [] (rest.dropWhile isWordCharacter)

/-- All characters up to the rest. -/
def consumed (l : Lexeme) : List Char := l.skipped ++ l.text ++ l.dropped

/-- A lexeme and what follows it make up the text. -/
theorem consumed_append_rest (source : List Char) :
    (ofText source).consumed ++ (ofText source).rest = source := by
  have hgap := Gap.skipped_append_rest source
  unfold ofText
  dsimp only
  split
  · simpa [consumed] using hgap
  · split
    next h => simpa [consumed, h] using hgap
    next c rest h =>
      rw [h] at hgap
      split
      · simpa [consumed] using hgap
      · split
        · have hop := operatorExtent_append [c] rest
          simp only [consumed, List.append_nil, List.append_assoc]
          rw [hop]
          simpa using hgap
        · simpa [consumed] using hgap

end Lexeme

end FloatLang
