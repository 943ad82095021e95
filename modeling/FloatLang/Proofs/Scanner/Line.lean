import FloatLang.Proofs.Scanner.Continuation
import FloatLang.Proofs.Tree.Relocation

/-!
# Single lines

A line without brackets, comments over several lines and reserved words has only tokens that stand for
themselves: none opens or closes anything, and none starts a declaration or a block. If the last of
them lacks no operand, nothing reaches over the end of the line either. How a text divides into tokens
does not depend on where it stands.

## Main definitions

* `Source.IsSimpleLine` — the text of such a line
* `Source.StartsWithLine` — a source whose first tokens are those of such a line
* `Source.down`, `Source.shift` — a source with its text further down, or further on, in the file

## Main results

* `Lexeme.kind_cases` — the kinds of tokens and their characters
* `Source.kind_tokenAt_congr`, `Source.tokenAt_down` — tokens at other places
* `Source.IsSimpleLine.goOn` — a line with more text after it
-/

namespace FloatLang

/-! ### Lexemes -/

/-- A gap is closed where no block comment starts. -/
theorem Gap.unclosed_eq_false {text : List Char} (h : ¬ ['/', '*'] <:+: text) :
    (ofText text).unclosed = false := by
  induction text with
  | nil => simp [ofText]
  | cons c text ih =>
    have hrest : (ofText text).unclosed = false := ih fun hin => h (List.infix_cons hin)
    unfold ofText
    split
    · contradiction
    · rfl
    next text heq => exact absurd ⟨[], text, heq.symm⟩ h
    next heq =>
      obtain ⟨rfl, rfl⟩ := List.cons.inj heq
      split
      · exact hrest
      · rfl

namespace Lexeme

/-- What kinds of token there are, and what characters they are made of. -/
theorem kind_cases (text : List Char) :
    ((Gap.ofText text).unclosed = true ∧ (ofText text).kind = .invalid .unterminatedComment) ∨
      (ofText text).kind = .endOfFile ∨
      ((ofText text).kind = .endOfLine ∧ (ofText text).text = ['\n']) ∨
      (∃ c, (ofText text).kind = classifyOperator c (ofText text).text) ∨
      (ofText text).kind = classifyWord (ofText text).text := by
  unfold ofText
  dsimp only
  split
  next hopen => exact .inl ⟨hopen, rfl⟩
  · split
    · exact .inr (.inl rfl)
    next c rest _ =>
      split
      next hline => exact .inr (.inr (.inl ⟨rfl, by rw [hline]⟩))
      · split
        · exact .inr (.inr (.inr (.inl ⟨c, rfl⟩)))
        · exact .inr (.inr (.inr (.inr rfl)))

variable {text : List Char}

/-- A word is a numeral, a name, a reserved word or no token, and a comment is none of these. -/
theorem classifyWord_cases (word : List Char) :
    (∃ value, classifyWord word = .numeral value) ∨ (∃ w, classifyWord word = .keyword w) ∨
      (∃ x, classifyWord word = .identifier x) ∨
      ∃ error, error ≠ .unterminatedComment ∧ classifyWord word = .invalid error := by
  unfold classifyWord
  split
  · split
    · split
      next value _ => exact .inl ⟨value, rfl⟩
      · exact .inr (.inr (.inr ⟨_, by simp, rfl⟩))
    · exact .inr (.inr (.inr ⟨_, by simp, rfl⟩))
  · split
    · split
      next w _ => exact .inr (.inl ⟨w, rfl⟩)
      · exact .inr (.inr (.inl ⟨_, rfl⟩))
    · exact .inr (.inr (.inr ⟨_, by simp, rfl⟩))

/-- What starts with a character of an operator is that operator, or no token. -/
theorem classifyOperator_cases (first : Char) (symbol : List Char) :
    (∃ op, op.symbol = symbol ∧ classifyOperator first symbol = .operator op) ∨
      ∃ error, error ≠ .unterminatedComment ∧ classifyOperator first symbol = .invalid error := by
  unfold classifyOperator
  split
  next op hop => exact .inl ⟨op, Operator.symbol_of_ofSymbol? hop, rfl⟩
  · exact .inr ⟨_, by simp, rfl⟩

/-- An operator is written with its symbol. -/
theorem text_of_operator {op : Operator} (h : (ofText text).kind = .operator op) :
    (ofText text).text = op.symbol := by
  rcases kind_cases text with ⟨-, hkind⟩ | hkind | ⟨hkind, -⟩ | ⟨c, hkind⟩ | hkind
  · simp [hkind] at h
  · simp [hkind] at h
  · simp [hkind] at h
  · rw [hkind] at h
    rcases classifyOperator_cases c (ofText text).text with ⟨op', hsymbol, hop⟩ | ⟨error, -, herror⟩
    · rw [hop] at h
      obtain rfl := TokenKind.operator.inj h
      exact hsymbol.symm
    · simp [herror] at h
  · rw [hkind] at h
    rcases classifyWord_cases (ofText text).text with ⟨_, hw⟩ | ⟨_, hw⟩ | ⟨_, hw⟩ | ⟨_, -, hw⟩ <;>
      simp [hw] at h

/-- Only a line break ends a line. -/
theorem text_of_endOfLine (h : (ofText text).kind = .endOfLine) : (ofText text).text = ['\n'] := by
  rcases kind_cases text with ⟨-, hkind⟩ | hkind | ⟨-, htext⟩ | ⟨c, hkind⟩ | hkind
  · simp [hkind] at h
  · simp [hkind] at h
  · exact htext
  · rw [hkind] at h
    rcases classifyOperator_cases c (ofText text).text with ⟨_, -, hop⟩ | ⟨_, -, hop⟩ <;>
      simp [hop] at h
  · rw [hkind] at h
    rcases classifyWord_cases (ofText text).text with ⟨_, hw⟩ | ⟨_, hw⟩ | ⟨_, hw⟩ | ⟨_, -, hw⟩ <;>
      simp [hw] at h

/-- Only a gap that does not end is an unterminated comment. -/
theorem kind_ne_unterminatedComment (h : (Gap.ofText text).unclosed = false) :
    (ofText text).kind ≠ .invalid .unterminatedComment := by
  rcases kind_cases text with ⟨hopen, -⟩ | hkind | ⟨hkind, -⟩ | ⟨c, hkind⟩ | hkind
  · simp [h] at hopen
  · simp [hkind]
  · simp [hkind]
  · rw [hkind]
    rcases classifyOperator_cases c (ofText text).text with ⟨_, -, hop⟩ | ⟨_, hne, hop⟩
    · simp [hop]
    · simpa [hop] using hne
  · rw [hkind]
    rcases classifyWord_cases (ofText text).text with ⟨_, hw⟩ | ⟨_, hw⟩ | ⟨_, hw⟩ | ⟨_, hne, hw⟩
    · simp [hw]
    · simp [hw]
    · simp [hw]
    · simpa [hw] using hne

/-- The characters of a token stand in the text. -/
theorem mem_of_mem_text {c : Char} (h : c ∈ (ofText text).text) : c ∈ text := by
  rw [← consumed_append_rest text, consumed]
  simp [h]

end Lexeme

/-! ### Places -/

/-- The position `d` characters and `n` lines further down, in the same column. -/
def Position.down (p : Position) (d n : Nat) : Position := ⟨p.offset + d, p.line + n, p.column⟩

theorem Position.after_down (p : Position) (d n : Nat) (text : List Char) :
    (p.down d n).after text = (p.after text).down d n := by
  induction text generalizing p with
  | nil => rfl
  | cons c text ih =>
    have hnext : (p.down d n).next c = (p.next c).down d n := by
      unfold next down
      split <;> simp only [Nat.add_right_comm]
    rw [after_cons, after_cons, hnext, ih]

/-- The position `d` characters further on in the same line. -/
def Position.shift (p : Position) (d : Nat) : Position := { p with offset := p.offset + d }

/-- At the start of the next line only the offset tells how long the line was. -/
theorem Position.after_line (p : Position) {line : List Char} (h : '\n' ∉ line) :
    p.after (line ++ ['\n']) = (p.after ['\n']).shift line.length := by
  induction line generalizing p with
  | nil => rfl
  | cons c line ih =>
    rw [List.mem_cons, not_or] at h
    rw [List.cons_append, after_cons, ih (p.next c) h.2]
    simp only [after_cons, after_nil, next, shift, if_neg (Ne.symm h.1), if_true, List.length_cons]
    congr 1
    omega

namespace Source

variable {s s' : Source} {k n : Nat}

theorem rest_skip_congr (h : s'.rest = s.rest) (n : Nat) : (skip n s').rest = (skip n s).rest := by
  induction n generalizing s s' with
  | zero => exact h
  | succ n ih =>
    apply ih
    unfold scan
    rw [h]
    rfl

/-- The same text has tokens of the same kinds wherever it stands. -/
theorem kind_tokenAt_congr (h : s'.rest = s.rest) (k : Nat) :
    (s'.tokenAt k).kind = (s.tokenAt k).kind := by
  unfold tokenAt scan
  rw [rest_skip_congr h]

/-- The source with its text `d` characters and `m` lines further down. -/
def down (s : Source) (d m : Nat) : Source := { s with position := s.position.down d m }

theorem skip_down (s : Source) (d m n : Nat) : skip n (s.down d m) = (skip n s).down d m := by
  induction n generalizing s with
  | zero => rfl
  | succ n ih =>
    have hscan : (s.down d m).scan.source = s.scan.source.down d m := by
      simp only [scan, down, advance, Position.after_down]
    rw [skip, skip, hscan, ih]

/-- The tokens stand as much further down as the text. -/
theorem tokenAt_down (s : Source) (d m k : Nat) :
    (s.down d m).tokenAt k = (s.tokenAt k).move (.down d m) := by
  rw [tokenAt, skip_down]
  simp only [tokenAt, scan, down, Position.after_down]
  rfl

/-- The source with its text `d` characters further on. -/
def shift (s : Source) (d : Nat) : Source := { s with position := s.position.shift d }

/-- The tokens stand as much further on as the text. -/
theorem tokenAt_shift (s : Source) (d k : Nat) :
    (s.shift d).tokenAt k = { s.tokenAt k with location := (s.tokenAt k).location.shift d } :=
  s.tokenAt_down d 0 k

/-- A token stands after some of the characters. -/
theorem exists_place (s : Source) (k : Nat) :
    ∃ passed, passed <+: s.rest ∧ (s.tokenAt k).location = ⟨s.position.after passed, s.file⟩ := by
  obtain ⟨passed, hpassed, hposition⟩ := s.exists_passed k
  have htaken := (skip k s).consumed_append_rest_scan
  refine ⟨passed ++ (Lexeme.ofText (skip k s).rest).skipped, ?_, ?_⟩
  · refine ⟨(Lexeme.ofText (skip k s).rest).text ++ (Lexeme.ofText (skip k s).rest).dropped ++
      (skip k s).scan.source.rest, ?_⟩
    rw [Lexeme.consumed] at htaken
    rw [hpassed, List.append_assoc, ← List.append_assoc _ _ (skip k s).scan.source.rest,
      ← List.append_assoc _ _ (Lexeme.ofText (skip k s).rest).dropped, htaken]
  · rw [Position.after_append, ← hposition, ← file_skip s k]
    rfl

/-- No token stands behind the end of its source. -/
theorem offset_tokenAt_le_length (s : Source) (k : Nat) :
    (s.tokenAt k).location.offset ≤ s.position.offset + s.rest.length := by
  obtain ⟨passed, hpassed, hplace⟩ := s.exists_place k
  rw [hplace, Position.offset_after]
  exact Nat.add_le_add_left hpassed.length_le _

theorem rest_skip_suffix (s : Source) (n : Nat) : (skip n s).rest <:+ s.rest := by
  obtain ⟨passed, hpassed, -⟩ := s.exists_passed n
  exact ⟨passed, hpassed.symm⟩

/-- Every source has an end. -/
theorem exists_endOfFile (s : Source) :
    ∃ n, (∀ k < n, (s.tokenAt k).isEndOfFile = false) ∧ (s.tokenAt n).isEndOfFile = true := by
  induction hlength : s.rest.length using Nat.strong_induction_on generalizing s with
  | _ length ih =>
    cases hend : s.scan.token.isEndOfFile with
    | true => exact ⟨0, by simp, hend⟩
    | false =>
      obtain ⟨n, hbefore, hn⟩ := ih _ (hlength ▸ s.length_rest_scan_lt hend) s.scan.source rfl
      refine ⟨n + 1, fun k hk => ?_, hn⟩
      cases k with
      | zero => exact hend
      | succ k => exact hbefore k (Nat.lt_of_succ_lt_succ hk)

/-! ### Lines -/

/-- The text is a single line without brackets, where no block comment starts. No token of it is a
reserved word, and the last one is no operator that lacks an operand. -/
structure IsSimpleLine (s : Source) : Prop where
  ne_lineBreak : '\n' ∉ s.rest
  ne_bracket : ∀ c ∈ ['(', ')', '[', ']', '\x7b', '\x7d'], c ∉ s.rest
  ne_comment : ¬ ['/', '*'] <:+: s.rest
  ne_keyword : ∀ k word, (s.tokenAt k).kind ≠ .keyword word
  complete : ∀ k op, (s.tokenAt k).kind = .operator op → (s.tokenAt (k + 1)).isEndOfFile = true →
    op.expectsOperand = false

/-- The first `m` tokens of the source are those of a simple line, and then the line ends. -/
structure StartsWithLine (s : Source) (m : Nat) : Prop where
  before : ∀ k < m, (s.tokenAt k).endsLine = false
  end_of_line : (s.tokenAt m).isEndOfLine = true
  bracket? : ∀ k < m, ∀ op, (s.tokenAt k).kind = .operator op → op.bracket? = none
  ne_keyword : ∀ k < m, ∀ word, (s.tokenAt k).kind ≠ .keyword word
  complete : ∀ k op, k + 1 = m → (s.tokenAt k).kind = .operator op → op.expectsOperand = false

/-- The tokens up to its end tell whether a line is simple. -/
theorem isSimpleLine_of_end (hend : (s.tokenAt n).isEndOfFile = true) (hbreak : '\n' ∉ s.rest)
    (hbracket : (['(', ')', '[', ']', '\x7b', '\x7d'].all fun c => !s.rest.contains c) = true)
    (hcomment : ¬ ['/', '*'] <:+: s.rest) (hkeyword : ∀ k < n, (s.tokenAt k).keyword? = none)
    (hcomplete : ∀ k < n, (s.tokenAt (k + 1)).isEndOfFile = true →
      ∀ op ∈ (s.tokenAt k).operator?, op.expectsOperand = false) : s.IsSimpleLine where
  ne_lineBreak := hbreak
  ne_bracket c hc := by simpa using List.all_eq_true.1 hbracket c hc
  ne_comment := hcomment
  ne_keyword k word hword := by
    rcases Nat.lt_or_ge k n with hlt | hge
    · have hnone := hkeyword k hlt
      simp [Token.keyword?, hword] at hnone
    · have hlast := isEndOfFile_of_le hend hge
      simp [Token.isEndOfFile, hword] at hlast
  complete k op hop hlast := by
    rcases Nat.lt_or_ge k n with hlt | hge
    · exact hcomplete k hlt hlast op (by simp [Token.operator?, hop])
    · have hlast := isEndOfFile_of_le hend hge
      simp [Token.isEndOfFile, hop] at hlast

/-- A line is a line wherever it stands. -/
theorem IsSimpleLine.congr (h : s.IsSimpleLine) (hrest : s'.rest = s.rest) : s'.IsSimpleLine := by
  have hend (k : Nat) : (s'.tokenAt k).isEndOfFile = (s.tokenAt k).isEndOfFile := by
    rw [Token.isEndOfFile, kind_tokenAt_congr hrest]
    rfl
  refine ⟨?_, ?_, ?_, fun k word => ?_, fun k op => ?_⟩
  · rw [hrest]
    exact h.ne_lineBreak
  · rw [hrest]
    exact h.ne_bracket
  · rw [hrest]
    exact h.ne_comment
  · rw [kind_tokenAt_congr hrest]
    exact h.ne_keyword k word
  · rw [kind_tokenAt_congr hrest, hend]
    exact h.complete k op

/-- A bracket is written with a bracket character. -/
theorem IsSimpleLine.bracket?_eq_none {op : Operator} (h : s.IsSimpleLine)
    (hkind : (s.tokenAt k).kind = .operator op) : op.bracket? = none := by
  have hsymbol : ∀ c ∈ op.symbol, c ∈ s.rest := by
    have htext := Lexeme.text_of_operator hkind
    intro c hc
    rw [← htext] at hc
    exact (s.rest_skip_suffix k).subset (Lexeme.mem_of_mem_text hc)
  have hbracket := h.ne_bracket
  simp only [List.forall_mem_cons] at hbracket
  obtain ⟨h₁, h₂, h₃, h₄, h₅, h₆, -⟩ := hbracket
  cases op with
  | leftParen => exact absurd (hsymbol '(' (by simp [Operator.symbol])) h₁
  | rightParen => exact absurd (hsymbol ')' (by simp [Operator.symbol])) h₂
  | leftBracket => exact absurd (hsymbol '[' (by simp [Operator.symbol])) h₃
  | rightBracket => exact absurd (hsymbol ']' (by simp [Operator.symbol])) h₄
  | leftBrace => exact absurd (hsymbol '\x7b' (by simp [Operator.symbol])) h₅
  | rightBrace => exact absurd (hsymbol '\x7d' (by simp [Operator.symbol])) h₆
  | _ => rfl

theorem IsSimpleLine.isEndOfLine_eq_false (h : s.IsSimpleLine) (k : Nat) :
    (s.tokenAt k).isEndOfLine = false := by
  cases hline : (s.tokenAt k).isEndOfLine with
  | false => rfl
  | true =>
    have hkind : (s.tokenAt k).kind = .endOfLine := by simpa [Token.isEndOfLine] using hline
    have htext := Lexeme.text_of_endOfLine hkind
    have hmem : '\n' ∈ (skip k s).rest := Lexeme.mem_of_mem_text (by rw [htext]; simp)
    exact absurd ((s.rest_skip_suffix k).subset hmem) h.ne_lineBreak

theorem IsSimpleLine.ne_unterminatedComment (h : s.IsSimpleLine) (k : Nat) :
    (s.tokenAt k).kind ≠ .invalid .unterminatedComment :=
  Lexeme.kind_ne_unterminatedComment (Gap.unclosed_eq_false fun hin =>
    h.ne_comment (hin.trans (s.rest_skip_suffix k).isInfix))

/-- A line has the same tokens when more text comes after it, and ends before that text. All of its
tokens stand on the line, or at its end. -/
theorem IsSimpleLine.goOn (h : s.IsSimpleLine) (more : List Char) :
    ∃ m, (s.goOn more).StartsWithLine m ∧
      skip (m + 1) (s.goOn more) = ⟨s.file, s.position.after (s.rest ++ ['\n']), more⟩ ∧
      ∀ k ≤ m, ∃ passed, passed <+: s.rest ∧
        ((s.goOn more).tokenAt k).location = ⟨s.position.after passed, s.file⟩ := by
  obtain ⟨m, hbefore, hend⟩ := s.exists_endOfFile
  have hclosed : ∀ k < m, (s.tokenAt k).kind ≠ .invalid .unterminatedComment :=
    fun k _ => h.ne_unterminatedComment k
  have hc := continues_goOn hclosed hbefore hend more
  refine ⟨m, ⟨fun k hk => ?_, hc.end_of_line, fun k hk op hkind => ?_, fun k hk word => ?_,
    fun k op hk hkind => ?_⟩, skip_succ_goOn hclosed hbefore hend more, fun k hk => ?_⟩
  · rw [hc.before k hk, Token.endsLine, h.isEndOfLine_eq_false, hbefore k hk]
    rfl
  · rw [hc.before k hk] at hkind
    exact h.bracket?_eq_none hkind
  · rw [hc.before k hk]
    exact h.ne_keyword k word
  · rw [hc.before k (by omega)] at hkind
    exact h.complete k op hkind (by rw [hk, hend])
  · have hplace : ((s.goOn more).tokenAt k).location = (s.tokenAt k).location := by
      rcases Nat.lt_or_eq_of_le hk with hlt | rfl
      · rw [hc.before k hlt]
      · exact hc.place
    rw [hplace]
    exact s.exists_place k

end Source

end FloatLang
