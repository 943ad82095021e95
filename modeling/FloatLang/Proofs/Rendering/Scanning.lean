import FloatLang.Proofs.Lists
import FloatLang.Proofs.Rendering.Syntax
import FloatLang.Proofs.Scanner.Ahead
import FloatLang.Proofs.Scanner.Encoding
import Mathlib.Data.List.TakeWhile

/-!
# Scanning words

The lexemes of words with blanks between them are the words. A blank never belongs to a word,
and no word starts a comment when a blank comes after it.

## Main definitions

* `Rendering.Stops` — a text that ends a word: it is empty or starts with a blank

## Main results

* `Rendering.classifyWord_number` — a decimal is classified as its number
* `Rendering.ofText_word` — the first lexeme of a word and of what stops it
* `Rendering.kind_tokenAt` — the tokens of a source that is spelled in words
* `Rendering.charactersOf_toUTF8` — the characters of a text in plain characters
-/

namespace FloatLang.Rendering

/-- The text is empty or starts with a blank. -/
inductive Stops : List Char → Prop
  | nil : Stops []
  | blank (text : List Char) : Stops (' ' :: text)

/-! ### Words and gaps -/

/-- The characters of names are characters of words. -/
theorem isWordCharacter_of_continues {c : Char} (h : continuesIdentifier c = true) :
    isWordCharacter c = true := by
  have hne {x : Char} (hx : continuesIdentifier x = false) : c ≠ x := by
    rintro rfl
    rw [hx] at h
    contradiction
  -- no operator starts with a letter, a digit or an underscore
  have hsymbol : Operator.startsSymbol c = false := by
    rw [Operator.startsSymbol, List.any_eq_false]
    intro op _ hop
    have hhead : op.symbol.head? = some c := eq_of_beq hop
    cases op <;> first | contradiction | exact hne (by decide) (Option.some.inj hhead).symm
  have hspace : c ≠ ' ' := hne (by decide)
  have htab : c ≠ '\t' := hne (by decide)
  have hline : c ≠ '\n' := hne (by decide)
  simp [isWordCharacter, isBlank, hspace, htab, hline, hsymbol]

theorem continues_of_isDigit {c : Char} (h : c.isDigit = true) : continuesIdentifier c = true := by
  simp [continuesIdentifier, Char.isAlphanum, h]

theorem isDigit_digit (d : Fin 10) : (digit d).isDigit = true := by
  revert d
  decide

theorem gap_blank (text : List Char) :
    Gap.ofText (' ' :: text) = (Gap.ofText text).after [' '] := by
  simp [Gap.ofText, isBlank]

/-- There is no gap in front of a word. -/
theorem gap_word {c : Char} (hc : isWordCharacter c = true) (text : List Char) :
    Gap.ofText (c :: text) = ⟨[], c :: text, false⟩ := by
  -- a comment would start with a slash, which is no character of a word
  have hslash : c ≠ '/' := by
    rintro rfl
    contradiction
  have hblank : isBlank c = false := by
    cases h : isBlank c with
    | false => rfl
    | true => simp [isWordCharacter, h] at hc
  unfold Gap.ofText
  split
  · contradiction
  next heq => exact absurd (List.cons.inj heq).1 hslash
  next heq => exact absurd (List.cons.inj heq).1 hslash
  next heq =>
    obtain ⟨rfl, rfl⟩ := List.cons.inj heq
    simp [hblank]

/-- There is no gap in front of an operator that a blank or the end comes after. -/
theorem gap_operator {op : Operator} (hop : op ≠ .illegal) {text : List Char} (htext : Stops text) :
    Gap.ofText (op.symbol ++ text) = ⟨[], op.symbol ++ text, false⟩ := by
  cases htext <;> cases op <;> first | contradiction | simp [Operator.symbol, Gap.ofText, isBlank]

theorem takeWhile_word {word text : List Char} (hword : ∀ c ∈ word, isWordCharacter c = true)
    (htext : Stops text) :
    (word ++ text).takeWhile isWordCharacter = word ∧
      (word ++ text).dropWhile isWordCharacter = text := by
  refine span_append hword ?_
  cases htext with
  | nil => simp
  | blank text =>
    intro c hc
    obtain rfl : ' ' = c := Option.some.inj hc
    decide

/-- The first lexeme of a word. -/
theorem ofText_letters {word text : List Char} {kind : TokenKind} (hne : word ≠ [])
    (hword : ∀ c ∈ word, isWordCharacter c = true) (hkind : classifyWord word = kind)
    (htext : Stops text) : Lexeme.ofText (word ++ text) = ⟨[], kind, word, [], text⟩ := by
  subst hkind
  cases word with
  | nil => contradiction
  | cons c word =>
    have hc := hword c List.mem_cons_self
    obtain ⟨htake, hdrop⟩ :=
      takeWhile_word (fun c hc => hword c (List.mem_cons_of_mem _ hc)) htext
    have hline : c ≠ '\n' := by
      rintro rfl
      contradiction
    have hsymbol : Operator.startsSymbol c = false := by
      cases h : Operator.startsSymbol c with
      | false => rfl
      | true => simp [isWordCharacter, h] at hc
    unfold Lexeme.ofText
    rw [List.cons_append, gap_word hc]
    simp [hline, hsymbol, htake, hdrop]

/-- The first lexeme of an operator. -/
theorem ofText_operator {op : Operator} (hop : op ≠ .illegal) {text : List Char}
    (htext : Stops text) :
    Lexeme.ofText (op.symbol ++ text) = ⟨[], .operator op, op.symbol, [], text⟩ := by
  unfold Lexeme.ofText
  rw [gap_operator hop htext]
  cases htext <;> cases op <;> first | contradiction | rfl

/-! ### Kinds of words -/

theorem classifyWord_keyword (word : Keyword) : classifyWord word.letters = .keyword word := by
  cases word <;> decide

theorem classifyWord_name (x : Name) : classifyWord x.letters = .identifier x.text := by
  obtain ⟨letters, hname, hfree⟩ := x
  cases letters with
  | nil => contradiction
  | cons c letters =>
    have hdigit : c.isDigit = false := by
      rw [isIdentifier, Bool.and_eq_true] at hname
      exact isDigit_of_isAlpha hname.1
    unfold classifyWord
    simp [hdigit, hname, hfree, Name.text]

/-- The number that the digits of a decimal write. -/
theorem ofDigitChars_digits (digits : List (Fin 10)) (n : Nat) :
    Nat.ofDigitChars 10 (digits.map digit) n = digits.foldl (fun n d => 10 * n + d.val) n := by
  induction digits generalizing n with
  | nil => simp
  | cons d digits ih =>
    rw [List.map_cons, digit, Nat.ofDigitChars_cons_digitChar_of_lt_ten d.isLt, ih]
    rfl

theorem all_isDigit (digits : List (Fin 10)) : ∀ c ∈ digits.map digit, c.isDigit = true := by
  intro c hc
  obtain ⟨d, -, rfl⟩ := List.mem_map.1 hc
  exact isDigit_digit d

theorem isDigits_map {digits : List (Fin 10)} (h : digits ≠ []) :
    Numeral.isDigits (digits.map digit) = true := by
  have hall := all_isDigit digits
  simp only [Numeral.isDigits, Bool.and_eq_true, Bool.not_eq_true', List.isEmpty_eq_false_iff,
    ne_eq, List.map_eq_nil_iff, List.all_eq_true]
  exact ⟨h, hall⟩

section Number

variable (d : Decimal)

/-- The point of a decimal and the digits after it. -/
def fractionLetters : List Char :=
  if d.fraction.isEmpty then [] else '.' :: d.fraction.map digit

theorem letters_eq : d.letters = d.whole.map digit ++ fractionLetters d := rfl

/-- Digits end at the point. -/
theorem takeWhile_digits (test : Char → Bool) (hdigit : ∀ c, c.isDigit = true → test c = true)
    (hpoint : test '.' = false) :
    d.letters.takeWhile test = d.whole.map digit ∧ d.letters.dropWhile test = fractionLetters d := by
  -- the point is the only character that is no digit
  have hall : ∀ c ∈ d.whole.map digit, test c = true :=
    fun c hc => hdigit c (all_isDigit d.whole c hc)
  rw [letters_eq]
  refine span_append hall ?_
  unfold fractionLetters
  split <;> simp [hpoint]

theorem isSpelling_letters : Numeral.isSpelling d.letters = true := by
  obtain ⟨htake, hdrop⟩ := takeWhile_digits d Char.isDigit (fun _ h => h) (by decide)
  have hall := all_isDigit d.fraction
  have htake' : (d.fraction.map digit).takeWhile Char.isDigit = d.fraction.map digit :=
    List.takeWhile_eq_self_iff.2 hall
  have hdrop' : (d.fraction.map digit).dropWhile Char.isDigit = [] :=
    List.dropWhile_eq_nil_iff.2 hall
  have hwhole := d.nonempty
  unfold Numeral.isSpelling
  dsimp only
  rw [htake, hdrop, fractionLetters]
  by_cases hfraction : d.fraction = []
  · simp [hfraction, hwhole, Numeral.isSuffix]
  · simp_all [Numeral.isSuffix]

theorem dropSuffix_letters : Numeral.dropSuffix d.letters = d.letters := by
  -- an `f` would be the last character, but there are only digits and the point
  have hsuffix : ¬ (d.letters.getLast? == some 'f') = true := by
    intro h
    have hmem := List.mem_of_getLast? (eq_of_beq h)
    rw [letters_eq, fractionLetters, List.mem_append] at hmem
    rcases hmem with hmem | hmem
    · exact absurd (all_isDigit _ _ hmem) (by decide)
    · split at hmem
      · contradiction
      · rcases List.mem_cons.1 hmem with hpoint | hmem
        · contradiction
        · exact absurd (all_isDigit _ _ hmem) (by decide)
  rw [Numeral.dropSuffix, if_neg hsuffix]

theorem parse?_letters : Numeral.parse? d.letters = some { value := d.value } := by
  have hne (c : Char) (hc : c.isDigit = true) : (c != '.') = true := by
    rw [bne_iff_ne]
    rintro rfl
    contradiction
  obtain ⟨htake, hdrop⟩ := takeWhile_digits d (· != '.') hne (by decide)
  have hwhole := isDigits_map d.nonempty
  unfold Numeral.parse?
  dsimp only
  rw [dropSuffix_letters, htake, hdrop, fractionLetters]
  by_cases hfraction : d.fraction = []
  · simp only [hfraction, List.isEmpty_nil, if_true, hwhole, Numeral.ofDigits, Decimal.value,
      ofDigitChars_digits, naturalOf, List.append_nil, List.length_nil]
  · have hdigits := isDigits_map hfraction
    simp only [List.isEmpty_iff, hfraction, if_false, hwhole, hdigits, Bool.and_self, if_true,
      Numeral.ofDigits, Decimal.value, ← List.map_append, ofDigitChars_digits, naturalOf,
      List.length_map]

theorem classifyWord_number : classifyWord d.letters = .numeral { value := d.value } := by
  have hhead : (d.letters.head?.map Char.isDigit).getD false = true := by
    rw [letters_eq]
    cases hwhole : d.whole with
    | nil => exact absurd hwhole d.nonempty
    | cons x digits => simp [isDigit_digit]
  rw [classifyWord, if_pos hhead, if_pos (isSpelling_letters d), parse?_letters]

end Number

/-! ### Words -/

namespace Word

theorem letters_ne_nil (w : Word) : w.letters ≠ [] := by
  cases w with
  | keyword word => cases word <;> simp [letters, Keyword.letters]
  | name x =>
    intro h
    have hname := x.isIdentifier
    rw [show x.letters = [] from h] at hname
    contradiction
  | number d => simp [letters, letters_eq, d.nonempty]
  | operator op legal => cases op <;> first | contradiction | simp [letters, Operator.symbol]

end Word

theorem continues_of_mem_name {x : Name} {c : Char} (hc : c ∈ x.letters) :
    continuesIdentifier c = true := by
  obtain ⟨letters, hname, _⟩ := x
  cases letters with
  | nil => contradiction
  | cons first letters =>
    rw [isIdentifier, Bool.and_eq_true, List.all_eq_true] at hname
    rcases List.mem_cons.1 hc with rfl | hc
    · simp [continuesIdentifier, Char.isAlphanum, hname.1]
    · exact hname.2 c hc

/-- The characters of a decimal are digits and the point. -/
theorem digit_or_point {d : Decimal} {c : Char} (hc : c ∈ d.letters) : c.isDigit = true ∨ c = '.' := by
  rw [letters_eq, fractionLetters, List.mem_append] at hc
  rcases hc with hc | hc
  · exact .inl (all_isDigit _ c hc)
  · split at hc
    · contradiction
    · rcases List.mem_cons.1 hc with hpoint | hc
      · exact .inr hpoint
      · exact .inl (all_isDigit _ c hc)

/-- The first lexeme of a word and of what stops it. -/
theorem ofText_word (w : Word) {text : List Char} (htext : Stops text) :
    Lexeme.ofText (w.letters ++ text) = ⟨[], w.kind, w.letters, [], text⟩ := by
  cases w with
  | keyword word =>
    have hword : ∀ c ∈ word.letters, isWordCharacter c = true :=
      List.all_eq_true.1 (by cases word <;> decide)
    have hne := Word.letters_ne_nil (.keyword word)
    exact ofText_letters hne hword (classifyWord_keyword word) htext
  | name x =>
    have hword : ∀ c ∈ x.letters, isWordCharacter c = true :=
      fun c hc => isWordCharacter_of_continues (continues_of_mem_name hc)
    have hne := Word.letters_ne_nil (.name x)
    exact ofText_letters hne hword (classifyWord_name x) htext
  | number d =>
    have hword : ∀ c ∈ d.letters, isWordCharacter c = true := by
      intro c hc
      rcases digit_or_point hc with hdigit | rfl
      · exact isWordCharacter_of_continues (continues_of_isDigit hdigit)
      · decide
    have hne := Word.letters_ne_nil (.number d)
    exact ofText_letters hne hword (classifyWord_number d) htext
  | operator op legal => exact ofText_operator legal htext

/-- A blank in front of a text is skipped. -/
theorem ofText_blank (text : List Char) :
    Lexeme.ofText (' ' :: text) =
      { Lexeme.ofText text with skipped := ' ' :: (Lexeme.ofText text).skipped } := by
  unfold Lexeme.ofText
  rw [gap_blank]
  -- the gap grows by the blank, and what comes after it is read as before
  obtain ⟨skipped, rest, unclosed⟩ := Gap.ofText text
  cases unclosed with
  | true => rfl
  | false =>
    cases rest with
    | nil => rfl
    | cons c rest =>
      by_cases hline : c = '\n'
      · simp [Gap.after, hline]
      · cases hsymbol : Operator.startsSymbol c <;> simp [Gap.after, hline, hsymbol]

/-- The words after a word, each with a blank in front. -/
def followers (ws : List Word) : List Char := ws.flatMap fun w => ' ' :: w.letters

theorem spell_cons (w : Word) (ws : List Word) : spell (w :: ws) = w.letters ++ followers ws := rfl

theorem followers_cons (w : Word) (ws : List Word) :
    followers (w :: ws) = ' ' :: (w.letters ++ followers ws) := rfl

theorem stops_followers (ws : List Word) : Stops (followers ws) := by
  cases ws with
  | nil => exact .nil
  | cons w ws => exact .blank _

/-! ### Sources -/

/-- The kinds of the tokens that words are, and of the ends of the file after them. -/
def kindAt (ws : List Word) (n : Nat) : TokenKind := (ws[n]?.map Word.kind).getD .endOfFile

theorem scan_spell {s : Source} {w : Word} {ws : List Word} (hs : s.rest = spell (w :: ws)) :
    s.scan.token.kind = w.kind ∧ s.scan.source.rest = followers ws := by
  rw [spell_cons] at hs
  have hlexeme := ofText_word w (stops_followers ws)
  rw [← hs] at hlexeme
  exact ⟨congrArg Lexeme.kind hlexeme, congrArg Lexeme.rest hlexeme⟩

theorem scan_followers {s : Source} {w : Word} {ws : List Word}
    (hs : s.rest = followers (w :: ws)) :
    s.scan.token.kind = w.kind ∧ s.scan.source.rest = followers ws := by
  rw [followers_cons] at hs
  have hlexeme := ofText_blank (w.letters ++ followers ws)
  rw [ofText_word w (stops_followers ws), ← hs] at hlexeme
  exact ⟨congrArg Lexeme.kind hlexeme, congrArg Lexeme.rest hlexeme⟩

theorem scan_nil {s : Source} (hs : s.rest = []) :
    s.scan.token.kind = .endOfFile ∧ s.scan.source.rest = [] := by
  rw [Source.scan, hs]
  exact ⟨rfl, rfl⟩

theorem kind_tokenAt_followers {s : Source} {ws : List Word} (hs : s.rest = followers ws) (n : Nat) :
    (s.tokenAt n).kind = kindAt ws n := by
  -- each token takes the blank in front of it along
  induction n generalizing s ws with
  | zero =>
    cases ws with
    | nil => exact (scan_nil hs).1
    | cons w ws => exact (scan_followers hs).1
  | succ n ih =>
    cases ws with
    | nil =>
      have hrest : s.scan.source.rest = followers [] := (scan_nil hs).2
      exact ih hrest
    | cons w ws => exact ih (scan_followers hs).2

/-- The tokens of a source that is spelled in words are the words. -/
theorem kind_tokenAt {s : Source} {ws : List Word} (hs : s.rest = spell ws) (n : Nat) :
    (s.tokenAt n).kind = kindAt ws n := by
  cases ws with
  | nil => exact kind_tokenAt_followers hs n
  | cons w ws =>
    obtain ⟨hkind, hrest⟩ := scan_spell hs
    cases n with
    | zero => exact hkind
    | succ n => exact kind_tokenAt_followers hrest n

/-! ### Texts in plain characters -/

/-- The characters that are encoded as one byte. -/
def isPlain (c : Char) : Bool := c.toNat ≤ 127

theorem isPlain_of_continues {c : Char} (h : continuesIdentifier c = true) : isPlain c = true := by
  simp only [continuesIdentifier, Char.isAlphanum, Bool.or_eq_true, beq_iff_eq] at h
  rcases h with (halpha | hdigit) | rfl
  · have hle := toNat_of_isAlpha halpha
    exact decide_eq_true (by omega)
  · have hle := toNat_of_isDigit hdigit
    exact decide_eq_true (by omega)
  · decide

theorem isPlain_of_mem_letters {w : Word} {c : Char} (hc : c ∈ w.letters) : isPlain c = true := by
  cases w with
  | keyword word =>
    have hall : ∀ c ∈ word.letters, isPlain c = true :=
      List.all_eq_true.1 (by cases word <;> decide)
    exact hall c hc
  | name x => exact isPlain_of_continues (continues_of_mem_name hc)
  | number d =>
    rcases digit_or_point hc with hdigit | rfl
    · exact isPlain_of_continues (continues_of_isDigit hdigit)
    · decide
  | operator op _ =>
    have hall : ∀ c ∈ op.symbol, isPlain c = true := List.all_eq_true.1 (by cases op <;> decide)
    exact hall c hc

theorem isPlain_of_mem_spell {ws : List Word} {c : Char} (hc : c ∈ spell ws) : isPlain c = true := by
  cases ws with
  | nil => contradiction
  | cons w ws =>
    rw [spell_cons, List.mem_append] at hc
    rcases hc with hc | hc
    · exact isPlain_of_mem_letters hc
    · obtain ⟨w', -, hc⟩ := List.mem_flatMap.1 hc
      rcases List.mem_cons.1 hc with rfl | hc
      · decide
      · exact isPlain_of_mem_letters hc

theorem encode_of_isPlain {c : Char} (h : isPlain c = true) : Source.encode c = [c] := by
  have hle : c.val.toNat ≤ 127 := of_decide_eq_true h
  -- up to 127 the encoding is the number of the character
  have hencode : String.utf8EncodeChar c = [UInt8.ofNat c.val.toNat] := by
    rw [String.utf8EncodeChar, if_pos hle]
  have hchar : Char.ofUInt8 (UInt8.ofNat c.val.toNat) = c := by
    apply Char.ext
    apply UInt32.toNat_inj.1
    change (UInt8.ofNat c.val.toNat).toUInt32.toNat = c.val.toNat
    rw [UInt8.toNat_toUInt32, UInt8.toNat_ofNat']
    omega
  rw [Source.encode, hencode, List.map_singleton, hchar]

/-- Read byte by byte, a text in plain characters is itself. -/
theorem charactersOf_toUTF8 {text : List Char} (h : ∀ c ∈ text, isPlain c = true) :
    Source.charactersOf (String.ofList text).toUTF8 = text := by
  rw [Source.charactersOf_toUTF8, String.toList_ofList]
  induction text with
  | nil => rfl
  | cons c text ih =>
    rw [List.flatMap_cons, encode_of_isPlain (h c List.mem_cons_self),
      ih fun c hc => h c (List.mem_cons_of_mem _ hc)]
    rfl

end FloatLang.Rendering
