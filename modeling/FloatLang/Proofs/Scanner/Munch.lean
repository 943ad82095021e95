import FloatLang.Proofs.Scanner.Patterns
import FloatLang.Proofs.Scanner.Peeking
import FloatLang.Proofs.Scanner.Tiling

/-!
# Tokens take as much as they can

An operator is the longest one that the source goes on with: it is found by adding one character after
the other as long as an operator results, and this is enough because all but the first character of
an operator make it another one. A word ends where a blank, a line break or an operator may begin, and
what it is depends on the pattern that it matches.

## Main definitions

* `Operator.IsLongest` — the longest operator at the front of a text
* `Delimits` — the characters that end words
* `Classified` — what a word is
* `Munched` — what the token at the front of a text is

## Main results

* `Operator.length_le_operatorExtent` — no operator is longer than the one that is found
* `classified_classifyWord` — how words are classified
* `Scanner.tokens_munched` — every token of every file, however it was asked for
-/

namespace FloatLang

/-! ### Operators -/

/-- The operator is the longest one at the front of the text. -/
structure Operator.IsLongest (op : Operator) (text : List Char) : Prop where
  ne_illegal : op ≠ .illegal
  isPrefix : op.symbol <+: text
  longest : ∀ op' : Operator, op'.symbol <+: text → op'.symbol.length ≤ op.symbol.length

namespace Operator

variable {op : Operator} {symbol text : List Char} {c : Char}

theorem length_symbol_le (op : Operator) : op.symbol.length ≤ 2 := by cases op <;> decide

theorem symbol_ne_nil (h : op ≠ .illegal) : op.symbol ≠ [] := by
  cases op <;> first | contradiction | simp [symbol]

/-- What an operator begins with is an operator, if it is more than one character. -/
theorem isSome_ofSymbol?_of_isPrefix (h : symbol <+: op.symbol) (hlength : 2 ≤ symbol.length) :
    (ofSymbol? symbol).isSome = true := by
  have hle := op.length_symbol_le.trans hlength
  have heq : symbol = op.symbol := h.eq_of_length (Nat.le_antisymm h.length_le hle)
  have hne : op ≠ .illegal := by
    rintro rfl
    simp [heq, Operator.symbol] at hlength
  rw [heq, ofSymbol?_symbol op hne]
  rfl

/-- What is found begins with what was there. -/
theorem isPrefix_operatorExtent (symbol text : List Char) : symbol <+: (operatorExtent symbol text).1 := by
  induction text generalizing symbol with
  | nil => exact List.prefix_refl _
  | cons c text ih =>
    unfold operatorExtent
    split
    · exact (List.prefix_append _ _).trans (ih _)
    · exact List.prefix_refl _

/-- No operator at the front of a text is longer than what is found. -/
theorem length_le_operatorExtent (hne : symbol ≠ []) (hsymbol : symbol <+: op.symbol)
    (htext : op.symbol <+: symbol ++ text) :
    op.symbol.length ≤ (operatorExtent symbol text).1.length := by
  induction text generalizing symbol with
  | nil =>
    rw [List.append_nil] at htext
    exact htext.length_le
  | cons c text ih =>
    rcases Nat.lt_or_ge symbol.length op.symbol.length with hlt | hge
    · -- the next character is one of the operator, so it is taken
      have hmore : symbol ++ [c] <+: symbol ++ c :: text := ⟨text, by simp⟩
      have hextended : symbol ++ [c] <+: op.symbol :=
        List.prefix_of_prefix_length_le hmore htext (by simpa using Nat.succ_le_of_lt hlt)
      have hlength : 2 ≤ (symbol ++ [c]).length := by
        have hpos := List.length_pos_iff.2 hne
        simpa using Nat.succ_le_of_lt hpos
      rw [operatorExtent, if_pos (isSome_ofSymbol?_of_isPrefix hextended hlength)]
      exact ih (by simp) hextended (by simpa using htext)
    · exact hge.trans (isPrefix_operatorExtent symbol (c :: text)).length_le

/-- What is found is what was there, or an operator. -/
theorem operatorExtent_cases (symbol text : List Char) :
    (operatorExtent symbol text).1 = symbol ∨
      (ofSymbol? (operatorExtent symbol text).1).isSome = true := by
  induction text generalizing symbol with
  | nil => exact .inl rfl
  | cons c text ih =>
    unfold operatorExtent
    split
    next hop =>
      refine .inr ((ih (symbol ++ [c])).elim (fun heq => ?_) id)
      rwa [heq]
    · exact .inl rfl

/-- An operator begins with the first character of the text. -/
theorem singleton_isPrefix (hne : op ≠ .illegal) (h : op.symbol <+: c :: text) :
    [c] <+: op.symbol :=
  List.prefix_of_prefix_length_le ⟨text, rfl⟩ h (List.length_pos_iff.2 (symbol_ne_nil hne))

/-- The operator that is found is the longest one. -/
theorem isLongest_of_operatorExtent
    (h : ofSymbol? (operatorExtent [c] text).1 = some op) : op.IsLongest (c :: text) := by
  have hsymbol := symbol_of_ofSymbol? h
  refine ⟨?_, ?_, fun op' hop' => ?_⟩
  · rintro rfl
    exact operatorExtent_ne_nil (List.cons_ne_nil c []) text hsymbol.symm
  · rw [hsymbol]
    exact ⟨_, operatorExtent_append [c] text⟩
  · by_cases hne : op' = .illegal
    · simp [hne, symbol]
    · rw [hsymbol]
      exact length_le_operatorExtent (List.cons_ne_nil c []) (singleton_isPrefix hne hop') hop'

/-- If none is found, there is only one character, and no operator at the front of the text. -/
theorem none_of_operatorExtent (h : ofSymbol? (operatorExtent [c] text).1 = none) :
    (operatorExtent [c] text).1 = [c] ∧
      ∀ op : Operator, op.symbol <+: c :: text → op = .illegal := by
  have hone : (operatorExtent [c] text).1 = [c] :=
    (operatorExtent_cases [c] text).resolve_right (by simp [h])
  refine ⟨hone, fun op hop => by_contra fun hne => ?_⟩
  have hfirst := singleton_isPrefix hne hop
  have hle := length_le_operatorExtent (List.cons_ne_nil c []) hfirst hop
  rw [hone] at h hle
  rw [hfirst.eq_of_length (Nat.le_antisymm hfirst.length_le hle), ofSymbol?_symbol op hne] at h
  contradiction

end Operator

/-! ### Words -/

/-- The character ends a word: a blank, a line break, or the first character of an operator. -/
def Delimits (c : Char) : Prop :=
  c = ' ' ∨ c = '\t' ∨ c = '\n' ∨ ∃ op : Operator, op.symbol.head? = some c

theorem delimits_iff {c : Char} : Delimits c ↔ isWordCharacter c = false := by
  have hall (op : Operator) : op ∈ Operator.all := by cases op <;> decide
  simp [Delimits, isWordCharacter, isBlank, Operator.startsSymbol, hall, or_iff_not_imp_left]

/-- What a word is. A reserved word is one of three, an identifier and a numeric literal match their
patterns, and everything else is invalid: as a numeric literal if it starts with a digit, and
otherwise because of the first character that breaks the pattern of identifiers. -/
structure Classified (word : List Char) (kind : TokenKind) : Prop where
  keyword : ∀ k : Keyword, kind = .keyword k ↔ word = k.letters
  identifier : ∀ x : String, kind = .identifier x ↔
    word ∈ Pattern.identifier ∧ (∀ k : Keyword, word ≠ k.letters) ∧ x = String.ofList word
  numeral : (∃ value, kind = .numeral value) ↔ word ∈ Pattern.numeral
  invalid : (∃ error, kind = .invalid error) ↔
    word ∉ Pattern.identifier ∧ word ∉ Pattern.numeral
  invalidNumeral : ∀ error : LexError, kind = .invalid error → Pattern.StartsWithDigit word →
    error = .invalidNumeral (String.ofList word)
  unknownCharacter : ∀ error : LexError, kind = .invalid error → ¬ Pattern.StartsWithDigit word →
    ∃ c, Pattern.Breaks word c ∧ error = .unknownCharacter c (String.ofList word)

theorem Keyword.letters_mem_identifier (k : Keyword) : k.letters ∈ Pattern.identifier := by
  rw [Pattern.mem_identifier]
  cases k <;> decide

namespace Classified

variable {word : List Char}

theorem of_keyword (k : Keyword) : Classified k.letters (.keyword k) where
  keyword k' := by
    have hinj : k.letters = k'.letters → k = k' := fun h =>
      Option.some.inj ((Keyword.ofLetters?_letters k).symm.trans
        (h ▸ Keyword.ofLetters?_letters k'))
    simpa using ⟨congrArg Keyword.letters, hinj⟩
  identifier x := by simp
  numeral := by simp [Pattern.notMem_numeral k.letters_mem_identifier]
  invalid := by simp [k.letters_mem_identifier]
  invalidNumeral := by simp
  unknownCharacter := by simp

theorem of_identifier (h : word ∈ Pattern.identifier) (hk : ∀ k : Keyword, word ≠ k.letters) :
    Classified word (.identifier (String.ofList word)) where
  keyword k := by simp [hk]
  identifier x := by simp [h, hk, eq_comm]
  numeral := by simp [Pattern.notMem_numeral h]
  invalid := by simp [h]
  invalidNumeral := by simp
  unknownCharacter := by simp

theorem of_numeral (h : word ∈ Pattern.numeral) (value : Numeral) :
    Classified word (.numeral value) where
  keyword k := by
    have hne : word ≠ k.letters := fun heq =>
      Pattern.notMem_numeral k.letters_mem_identifier (heq ▸ h)
    simp [hne]
  identifier x := by simp [Pattern.notMem_identifier h]
  numeral := by simp [h]
  invalid := by simp [h]
  invalidNumeral := by simp
  unknownCharacter := by simp

theorem of_invalid {error : LexError} (hi : word ∉ Pattern.identifier) (hn : word ∉ Pattern.numeral)
    (hdigit : Pattern.StartsWithDigit word → error = .invalidNumeral (String.ofList word))
    (hother : ¬ Pattern.StartsWithDigit word →
      ∃ c, Pattern.Breaks word c ∧ error = .unknownCharacter c (String.ofList word)) :
    Classified word (.invalid error) where
  keyword k := by
    have hne : word ≠ k.letters := fun heq => hi (heq ▸ k.letters_mem_identifier)
    simp [hne]
  identifier x := by simp [hi]
  numeral := by simp [hn]
  invalid := by simp [hi, hn]
  invalidNumeral := by
    rintro _ ⟨⟩
    exact hdigit
  unknownCharacter := by
    rintro _ ⟨⟩
    exact hother

/-- No word is an operator. -/
theorem ne_operator {kind : TokenKind} (h : Classified word kind) (op : Operator) :
    kind ≠ .operator op := by
  rintro rfl
  have hn : word ∉ Pattern.numeral := fun hmem => by simpa using h.numeral.2 hmem
  have hi : word ∈ Pattern.identifier := by_contra fun hmem => by
    simpa using h.invalid.2 ⟨hmem, hn⟩
  by_cases hk : ∃ k : Keyword, word = k.letters
  · obtain ⟨k, hk⟩ := hk
    simpa using (h.keyword k).2 hk
  · simpa using (h.identifier _).2 ⟨hi, fun k heq => hk ⟨k, heq⟩, rfl⟩

end Classified

/-- Every word is classified so. -/
theorem classified_classifyWord {word : List Char} (hne : word ≠ []) :
    Classified word (classifyWord word) := by
  unfold classifyWord
  split
  next hdigit =>
    have hstarts := Pattern.startsWithDigit_iff.2 hdigit
    split
    next hspelling =>
      have hmem := Pattern.mem_numeral.2 hspelling
      obtain ⟨value, hvalue⟩ := Option.isSome_iff_exists.1 (Pattern.isSome_parse? hmem)
      rw [hvalue]
      exact .of_numeral hmem value
    next hspelling =>
      refine .of_invalid (fun hmem => ?_) (fun hmem => hspelling (Pattern.mem_numeral.1 hmem))
        (fun _ => rfl) (fun hother => absurd hstarts hother)
      exact Pattern.not_startsWithDigit_of_mem_identifier hmem hstarts
  next hdigit =>
    have hstarts := mt Pattern.startsWithDigit_iff.1 hdigit
    split
    next hidentifier =>
      have hmem := Pattern.mem_identifier.2 hidentifier
      split
      next k hk =>
        rw [← Keyword.letters_of_ofLetters? hk]
        exact .of_keyword k
      next hk =>
        refine .of_identifier hmem fun k heq => ?_
        rw [heq, Keyword.ofLetters?_letters] at hk
        contradiction
    next hidentifier =>
      have hmem := mt Pattern.mem_identifier.1 hidentifier
      obtain ⟨c, hc⟩ := Pattern.exists_breaks hne hmem
      rw [Pattern.firstUnknown?_eq_some.2 hc]
      exact .of_invalid hmem (mt Pattern.startsWithDigit_of_mem_numeral hstarts)
        (fun hdigit => absurd hdigit hstarts) (fun _ => ⟨c, hc, rfl⟩)

/-! ### Tokens -/

/-- What the token at the front of a text is, and with which characters it is written. The end of the
file and line breaks are tokens, and so is the start of a comment that never ends. Otherwise it is the
longest operator, or a character that is no operator although one starts with it, or a word up to the
next character that ends words. -/
inductive Munched (text : List Char) : TokenKind → List Char → Prop
  | endOfFile (htext : text = []) : Munched text .endOfFile []
  | endOfLine {rest : List Char} (htext : text = '\n' :: rest) : Munched text .endOfLine ['\n']
  | comment {body : List Char} (htext : text = '/' :: '*' :: body) (hbody : Unended body) :
      Munched text (.invalid .unterminatedComment) ['/', '*']
  | operator {op : Operator} (hop : op.IsLongest text) : Munched text (.operator op) op.symbol
  | stray {c : Char} {rest : List Char} (htext : text = c :: rest)
      (hstarts : ∃ op : Operator, op.symbol.head? = some c)
      (hnone : ∀ op : Operator, op.symbol <+: text → op = .illegal) :
      Munched text (.invalid (.unknownCharacter c (String.ofList [c]))) [c]
  | word {word rest : List Char} {kind : TokenKind} (htext : text = word ++ rest) (hne : word ≠ [])
      (hword : ∀ c ∈ word, ¬ Delimits c) (hrest : ∀ c ∈ rest.head?, Delimits c)
      (hkind : Classified word kind) : Munched text kind word

/-- An operator is the longest one, and written with its symbol. -/
theorem Munched.isLongest {text symbol : List Char} {op : Operator}
    (h : Munched text (.operator op) symbol) : op.IsLongest text ∧ symbol = op.symbol := by
  cases h with
  | operator hop => exact ⟨hop, rfl⟩
  | word _ _ _ _ hkind => exact absurd rfl (hkind.ne_operator op)

theorem Munched.of_operatorExtent {c : Char} {text : List Char}
    (hstarts : Operator.startsSymbol c = true) :
    Munched (c :: text) (classifyOperator c (operatorExtent [c] text).1)
      (operatorExtent [c] text).1 := by
  unfold classifyOperator
  split
  next op hop =>
    rw [← Operator.symbol_of_ofSymbol? hop]
    exact .operator (Operator.isLongest_of_operatorExtent hop)
  next hnone =>
    obtain ⟨hone, hillegal⟩ := Operator.none_of_operatorExtent hnone
    obtain ⟨op, -, hop⟩ := List.any_eq_true.1 hstarts
    rw [hone]
    exact .stray rfl ⟨op, eq_of_beq hop⟩ hillegal

/-- A word goes on up to the first character that ends words. -/
theorem Munched.of_word {c : Char} {text : List Char} (hc : isWordCharacter c = true) :
    Munched (c :: text) (classifyWord (c :: text.takeWhile isWordCharacter))
      (c :: text.takeWhile isWordCharacter) := by
  have hword : ∀ d ∈ c :: text.takeWhile isWordCharacter, ¬ Delimits d := by
    intro d hd
    rw [delimits_iff, Bool.not_eq_false]
    rcases List.mem_cons.1 hd with rfl | hd
    · exact hc
    · exact List.mem_takeWhile_imp hd
  have hrest : ∀ d ∈ (text.dropWhile isWordCharacter).head?, Delimits d := by
    intro d hd
    have hhead := List.head?_dropWhile_not isWordCharacter text
    rw [Option.mem_def.1 hd] at hhead
    exact delimits_iff.2 hhead
  refine .word ?_ (List.cons_ne_nil _ _) hword hrest (classified_classifyWord (List.cons_ne_nil _ _))
  rw [List.cons_append, List.takeWhile_append_dropWhile]

/-- A lexeme is what is at the front of its text. -/
theorem Lexeme.munched_ofText (text : List Char) :
    Munched ((ofText text).text ++ (ofText text).dropped ++ (ofText text).rest)
      (ofText text).kind (ofText text).text := by
  have hgap := Gap.hasShape_ofText text
  unfold ofText
  generalize Gap.ofText text = gap at hgap
  obtain ⟨skipped, rest, unclosed⟩ := gap
  cases unclosed with
  | true =>
    obtain ⟨body, hrest, hbody⟩ := hgap.unclosed rfl
    obtain rfl : rest = '/' :: '*' :: body := hrest
    exact .comment (by simp) hbody
  | false =>
    cases rest with
    | nil => exact .endOfFile rfl
    | cons c rest =>
      simp only [Bool.false_eq_true, if_false]
      split
      next hline =>
        subst hline
        exact .endOfLine rfl
      next hline =>
        split
        next hfirst =>
          simp only [List.append_nil, operatorExtent_append]
          exact .of_operatorExtent hfirst
        next hfirst =>
          have hblank : isBlank c = false := hgap.isBlank_head c rfl
          have hc : isWordCharacter c = true := by simp [isWordCharacter, hblank, hline, hfirst]
          simp only [List.append_nil, List.cons_append, List.takeWhile_append_dropWhile]
          exact .of_word hc

/-! ### Scanners -/

/-- At the place of a token stands that token. -/
theorem Source.munched_tokenAt {s : Source} (h : s.position.offset = 0) (k : Nat) :
    Munched (s.rest.drop (s.tokenAt k).location.offset) (s.tokenAt k).kind
      (s.tokenAt k).spelling.toList := by
  have hspelling : (s.tokenAt k).spelling.toList = (Lexeme.ofText (skip k s).rest).text :=
    String.toList_ofList
  rw [drop_offset_tokenAt h, hspelling]
  exact Lexeme.munched_ofText _

namespace Scanner

/-- Every token of every file is what is at the front of the characters from its place on, whatever
was asked of the scanner before, and however far it has to look ahead. -/
theorem tokens_munched (file : Path) (bytes : ByteArray) (rs : List Request) (n : Nat) :
    let t := (performAll rs { source := .ofBytes file bytes }).ahead n
    Munched ((Source.charactersOf bytes).drop t.location.offset) t.kind t.spelling.toList := by
  intro t
  have ht : t = (Source.ofBytes file bytes).tokenAt
      (n + (takesAll rs { source := .ofBytes file bytes }).length) := by
    rw [show t = _ from (handsOut_performAll rs _).ahead n, ahead_eq]
    rfl
  rw [ht]
  exact Source.munched_tokenAt (s := .ofBytes file bytes) rfl _

end Scanner

end FloatLang
