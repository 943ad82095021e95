import FloatLang.Proofs.Lists
import FloatLang.Proofs.Scanner.Tiling

/-!
# Lines are scanned one by one

A line break is a token wherever it stands outside of a comment, and what comes after it is scanned
as if the file started there. So the tokens of two texts with a line break in between are those of
the first, the line break, and those of the second further down in the file. No line break is lost:
when all tokens have been handed out, as many have been counted as there are in the file, also those
inside of comments.

## Main definitions

* `Token.lineBreakAfter` — the line break at the end of a text

## Main results

* `Position.after_lineBreak` — where the text after a line break starts
* `Scanner.lineCount_tokens` — the line breaks that are counted
* `Scanner.tokens_goOn` — the tokens of two texts with a line break in between
-/

namespace FloatLang

/-! ### Places after a line break -/

namespace Position

theorem line_after (p : Position) (text : List Char) :
    (p.after text).line = p.line + text.count '\n' := by
  induction text generalizing p with
  | nil => rfl
  | cons c text ih =>
    rw [after_cons, ih, List.count_cons, next]
    by_cases hc : c = '\n'
    · simp only [hc, if_true, beq_self_eq_true]
      omega
    · simp [hc]

/-- Behind a line break, the text starts as at the start of a file, but for the lines and characters
in front of it. -/
theorem after_lineBreak (text : List Char) :
    ({} : Position).after (text ++ ['\n']) =
      ({} : Position).down (text.length + 1) (text.count '\n' + 1) := by
  have hoffset := ({} : Position).offset_after text
  have hline := ({} : Position).line_after text
  rw [after_append, after_cons, after_nil, next, if_pos rfl, hoffset, hline]
  rfl

end Position

/-- The line break at the end of the text of a file. -/
def Token.lineBreakAfter (file : Path) (text : List Char) : Token where
  kind := .endOfLine
  location :=
    { offset := text.length
      line := text.count '\n'
      column := (({} : Position).after text).column
      file }
  spelling := "\n"

namespace Source

variable {s : Source} {k n : Nat} {more : List Char}

/-- The file ends behind all of its characters. -/
theorem location_of_isEndOfFile (hend : (s.tokenAt k).isEndOfFile = true) :
    (s.tokenAt k).location = ⟨s.position.after s.rest, s.file⟩ := by
  have hkind : (Lexeme.ofText (skip k s).rest).kind = .endOfFile := by
    simpa [Token.isEndOfFile, tokenAt, scan] using hend
  obtain ⟨passed, hpassed, hposition⟩ := s.exists_passed k
  -- nothing is left but a gap
  have hparts := Lexeme.consumed_append_rest (skip k s).rest
  rw [Lexeme.consumed, Lexeme.text_of_endOfFile hkind, Lexeme.dropped_eq_nil (by simp [hkind]),
    Lexeme.rest_eq_nil_of_endOfFile hkind] at hparts
  simp only [List.append_nil] at hparts
  rw [hpassed, Position.after_append, ← hposition, ← hparts, ← file_skip s k, tokenAt, scan]

/-- Where a file ends that starts at its first character, there is the line break if it goes on. -/
theorem tokenAt_goOn_of_isEndOfFile (hposition : s.position = {})
    (hc : s.Continues (s.goOn more) n) :
    (s.goOn more).tokenAt n = .lineBreakAfter s.file s.rest := by
  have hkind : (Lexeme.ofText (skip n (s.goOn more)).rest).kind = .endOfLine := by
    simpa [Token.isEndOfLine, tokenAt, scan] using hc.end_of_line
  have hlocation := hc.place.trans (location_of_isEndOfFile hc.end_of_file)
  have hoffset := ({} : Position).offset_after s.rest
  have hline := ({} : Position).line_after s.rest
  rw [Nat.zero_add] at hoffset hline
  rw [hposition] at hlocation
  have hspelling : ((s.goOn more).tokenAt n).spelling = "\n" := by
    rw [tokenAt, scan, Lexeme.text_of_endOfLine hkind]
  rw [Token.lineBreakAfter, ← hspelling, ← hoffset, ← hline, ← hlocation, ← hkind]
  rfl

/-- What comes after the line break has the tokens that it has as a file of its own, further down. -/
theorem tokenAt_goOn_of_lt (hposition : s.position = {})
    (hclosed : ∀ k < n, (s.tokenAt k).kind ≠ .invalid .unterminatedComment)
    (hbefore : ∀ k < n, (s.tokenAt k).isEndOfFile = false)
    (hend : (s.tokenAt n).isEndOfFile = true) (more : List Char) (k : Nat) :
    (s.goOn more).tokenAt (n + 1 + k) =
      ((⟨s.file, {}, more⟩ : Source).tokenAt k).move
        (.down (s.rest.length + 1) (s.rest.count '\n' + 1)) := by
  have hafter : skip (n + 1) (s.goOn more) =
      (⟨s.file, {}, more⟩ : Source).down (s.rest.length + 1) (s.rest.count '\n' + 1) := by
    rw [skip_succ_goOn hclosed hbefore hend, hposition, Position.after_lineBreak]
    rfl
  rw [← tokenAt_skip, hafter, tokenAt_down]

/-- The tokens of a file that goes on after a line break. -/
theorem tokens_goOn_eq (hposition : s.position = {})
    (hclosed : ∀ t : Token, t ∈ (Scanner.tokens { source := s }).1 →
      t.kind ≠ .invalid .unterminatedComment) (more : List Char) :
    (Scanner.tokens { source := s.goOn more }).1 =
      (Scanner.tokens { source := s }).1.dropLast ++ .lineBreakAfter s.file s.rest ::
        (Scanner.tokens { source := ⟨s.file, {}, more⟩ }).1.map
          (Token.move (.down (s.rest.length + 1) (s.rest.count '\n' + 1))) := by
  obtain ⟨n, hbefore, hend⟩ := s.exists_endOfFile
  obtain ⟨m, hbefore', hend'⟩ := (⟨s.file, {}, more⟩ : Source).exists_endOfFile
  have hopen : ∀ k < n, (s.tokenAt k).kind ≠ .invalid .unterminatedComment := by
    intro k hk
    refine hclosed _ ?_
    rw [tokens_eq_map hbefore hend]
    exact List.mem_map_of_mem (List.mem_range.2 (Nat.lt_succ_of_lt hk))
  -- all tokens are known by their numbers, and so is the end of the file
  have hgoOn := continues_goOn hopen hbefore hend more
  have hbreak := tokenAt_goOn_of_isEndOfFile hposition hgoOn
  have hbehind := tokenAt_goOn_of_lt hposition hopen hbefore hend more
  have hends : ((s.goOn more).tokenAt (n + 1 + m)).isEndOfFile = true := by
    rw [hbehind, Token.isEndOfFile_move]
    exact hend'
  have hgoesOn : ∀ k < n + 1 + m, ((s.goOn more).tokenAt k).isEndOfFile = false := by
    intro k hk
    rcases Nat.lt_trichotomy k n with hlt | rfl | hgt
    · rw [hgoOn.before k hlt]
      exact hbefore k hlt
    · rw [hbreak]
      rfl
    · obtain ⟨i, rfl⟩ := Nat.exists_eq_add_of_le (Nat.succ_le_of_lt hgt)
      rw [hbehind, Token.isEndOfFile_move]
      exact hbefore' i (by omega)
  have hfirst : (List.range n).map (s.goOn more).tokenAt = (List.range n).map s.tokenAt :=
    List.map_congr_left fun k hk => hgoOn.before k (List.mem_range.1 hk)
  rw [tokens_eq_map hgoesOn hends, tokens_eq_map hbefore hend, tokens_eq_map hbefore' hend',
    Nat.add_assoc (n + 1) m 1, map_range_split, hfirst, hbreak, List.range_succ (n := n),
    List.map_append, List.map_singleton, List.dropLast_concat, List.map_map]
  exact congrArg (_ ++ _ :: ·) (List.map_congr_left fun k _ => hbehind k)

end Source

/-! ### Counting lines -/

namespace Gap

/-- The comment behind a gap, if it never closes. -/
def openComment (gap : Gap) : List Char := if gap.unclosed then gap.rest else []

theorem openComment_after (front : List Char) (gap : Gap) :
    (gap.after front).openComment = gap.openComment := rfl

/-- Inside of a comment every line break is counted, up to where it closes. -/
theorem lineBreaksOfComment_cons {c : Char} {text : List Char}
    (hclose : ∀ t, c = '*' → text = '/' :: t → False) :
    lineBreaksOfComment (c :: text) = [c].count '\n' + lineBreaksOfComment text := by
  by_cases hc : c = '\n'
  · subst hc
    rw [lineBreaksOfComment, List.count_singleton_self, Nat.add_comm]
  · rw [lineBreaksOfComment, List.count_eq_zero.2 (by simpa using Ne.symm hc), Nat.zero_add]
    · exact hclose
    · exact hc

/-- A comment that never closes has all of its line breaks counted. -/
theorem lineBreaksOfComment_eq_count (text : List Char) (hnone : ofComment? text = none) :
    lineBreaksOfComment text = text.count '\n' := by
  induction text with
  | nil => rfl
  | cons c text ih =>
    unfold ofComment? at hnone
    split at hnone
    · contradiction
    · contradiction
    next hclose heq =>
      obtain ⟨rfl, rfl⟩ := List.cons.inj heq
      rw [lineBreaksOfComment_cons hclose, ih (Option.map_eq_none_iff.1 hnone), ← List.count_append]
      rfl

mutual

/-- The line breaks counted are those of the gap, and those of a comment behind it that never
closes. -/
theorem lineBreaks_eq (text : List Char) :
    lineBreaks text =
      (ofText text).skipped.count '\n' + (ofText text).openComment.count '\n' := by
  unfold ofText
  split
  · rfl
  next text =>
    have hbody : '\n' ∉ text.takeWhile (· != '\n') := fun hmem => by
      have hne := List.mem_takeWhile_imp hmem
      contradiction
    simp [lineBreaks, openComment, List.count_eq_zero.2 hbody]
  next text =>
    rw [lineBreaks]
    split
    next gap hgap =>
      rw [lineBreaksOfComment_eq text hgap, openComment_after]
      simp
    next hnone =>
      rw [lineBreaksOfComment_eq_count text hnone]
      simp [openComment]
  next c text hline hblock =>
    rw [lineBreaks]
    · split
      next hblank =>
        have hc : c ≠ '\n' := by
          rintro rfl
          contradiction
        rw [lineBreaks_eq text, openComment_after]
        simp [hc]
      next => rfl
    · exact fun t heq => hline t heq
    · exact fun t heq => hblock t heq
termination_by text.length
decreasing_by all_goals grind

/-- The same for a text that starts inside a comment that closes. -/
theorem lineBreaksOfComment_eq (text : List Char) {gap : Gap} (hgap : ofComment? text = some gap) :
    lineBreaksOfComment text = gap.skipped.count '\n' + gap.openComment.count '\n' := by
  unfold ofComment? at hgap
  split at hgap
  · contradiction
  next text =>
    obtain rfl := Option.some.inj hgap
    rw [lineBreaksOfComment, lineBreaks_eq text, openComment_after]
    simp
  next c text hclose =>
    obtain ⟨inner, hinner, rfl⟩ := Option.map_eq_some_iff.1 hgap
    rw [lineBreaksOfComment_cons hclose, lineBreaksOfComment_eq text hinner, openComment_after,
      after_skipped, List.count_append, Nat.add_assoc]
termination_by text.length
decreasing_by all_goals grind

end

end Gap

theorem lineBreak_not_mem_operatorExtent {symbol : List Char} (hsymbol : '\n' ∉ symbol)
    (rest : List Char) : '\n' ∉ (operatorExtent symbol rest).1 := by
  induction rest generalizing symbol with
  | nil => exact hsymbol
  | cons c rest ih =>
    unfold operatorExtent
    split
    next hlonger =>
      refine ih fun hmem => ?_
      rcases List.mem_append.1 hmem with hold | hnew
      · exact hsymbol hold
      · obtain rfl := List.mem_singleton.1 hnew
        rw [ofSymbol?_concat (.inr rfl)] at hlonger
        contradiction
    · exact hsymbol

namespace Lexeme

/-- A line break is a token of its own, and no other token has one. -/
theorem count_text (text : List Char) :
    (ofText text).text.count '\n' = if (ofText text).kind = .endOfLine then 1 else 0 := by
  split
  next hkind => rw [text_of_endOfLine hkind, List.count_singleton_self]
  next hkind =>
    have hshape := hasShape_ofText text
    generalize ofText text = lexeme at hkind hshape
    rw [List.count_eq_zero]
    cases hshape with
    | comment hdropped => simp
    | endOfFile skipped => exact List.not_mem_nil
    | endOfLine skipped rest => exact absurd rfl hkind
    | @operator skipped text symbol rest first hfirst hsymbol =>
      have hne : first ≠ '\n' := by
        rintro rfl
        exact absurd hfirst (by decide)
      have hnot : '\n' ∉ [first] := by simpa using Ne.symm hne
      have hmore := lineBreak_not_mem_operatorExtent hnot text
      rwa [hsymbol] at hmore
    | word hne hword =>
      intro hmem
      have hchar := hword '\n' hmem
      contradiction

/-- The line breaks that are counted are those of the characters taken. -/
theorem count_consumed (text : List Char) :
    (ofText text).consumed.count '\n' =
      Gap.lineBreaks text + if (ofText text).kind = .endOfLine then 1 else 0 := by
  rw [Gap.lineBreaks_eq]
  cases hopen : (Gap.ofText text).unclosed with
  | true => simp [ofText, hopen, consumed, Gap.openComment, ← List.count_append]
  | false =>
    have hkind : (ofText text).kind ≠ .invalid .unterminatedComment :=
      kind_ne_unterminatedComment hopen
    rw [consumed, List.count_append, List.count_append, count_text, skipped_ofText,
      dropped_eq_nil hkind]
    simp [Gap.openComment, hopen]

end Lexeme

namespace Scanner

variable {s : Scanner}

/-- Reading ahead counts the line breaks that it passes. -/
theorem lineCount_readAhead (s : Scanner) :
    s.readAhead.lineCount + s.readAhead.source.rest.count '\n' =
      s.lineCount + s.source.rest.count '\n' := by
  have htaken := s.source.consumed_append_rest_scan
  have hcount : s.source.rest.count '\n' =
      s.source.scan.lineBreaks + s.source.scan.source.rest.count '\n' := by
    conv => lhs; rw [← htaken]
    rw [List.count_append, Lexeme.count_consumed]
    rfl
  rw [hcount, ← Nat.add_assoc]
  rfl

theorem lineCount_fill (s : Scanner) (n : Nat) :
    (s.fill n).lineCount + (s.fill n).source.rest.count '\n' =
      s.lineCount + s.source.rest.count '\n' := by
  unfold fill
  generalize n - s.lookahead.length = k
  induction k generalizing s with
  | zero => rfl
  | succ k ih =>
    rw [readAheadTimes, ih]
    exact s.lineCount_readAhead

@[simp] theorem lineCount_acknowledge (s : Scanner) (t : Token) :
    (s.acknowledge t).lineCount = s.lineCount := by
  unfold acknowledge
  split <;> rfl

theorem lineCount_advance (s : Scanner) :
    s.advance.lineCount + s.advance.source.rest.count '\n' =
      s.lineCount + s.source.rest.count '\n' := by
  rw [advance, lineCount_acknowledge, source_acknowledge]
  exact s.lineCount_fill 1

theorem lineCount_tokensWithin (n : Nat) (s : Scanner) :
    (tokensWithin n s).2.lineCount + (tokensWithin n s).2.source.rest.count '\n' =
      s.lineCount + s.source.rest.count '\n' := by
  induction n generalizing s with
  | zero => rfl
  | succ n ih =>
    rw [tokensWithin]
    split
    · exact s.lineCount_advance
    · exact (ih s.advance).trans s.lineCount_advance

/-- No character is left when the end of the file has been handed out. -/
theorem rest_tokensWithin (h : s.EndsOnce) {m n : Nat} (hmn : m < n)
    (hend : (s.ahead m).isEndOfFile = true) : (tokensWithin n s).2.source.rest = [] := by
  induction n generalizing s m with
  | zero => contradiction
  | succ n ih =>
    rw [tokensWithin]
    split
    next hnext =>
      rw [advance, source_acknowledge]
      exact h.rest_eq_nil hnext
    next hnext =>
      cases m with
      | zero => contradiction
      | succ m =>
        refine ih h.advance (Nat.lt_of_succ_lt_succ hmn) ?_
        rwa [ahead_advance]

/-- Every line break of a file is counted when all tokens have been handed out. -/
theorem lineCount_tokens (source : Source) :
    (tokens { source }).2.lineCount = source.rest.count '\n' := by
  obtain ⟨m, hbefore, hend⟩ := source.exists_endOfFile
  have hlength := Source.le_length_of_before hbefore
  have hrest : (tokens { source }).2.source.rest = [] := by
    refine rest_tokensWithin (EndsOnce.ofSource source) (m := m) ?_ ?_
    · simp only [remaining, List.countP_nil]
      omega
    · rwa [ahead_eq]
  have hcount := lineCount_tokensWithin (({ source } : Scanner).remaining + 1) { source }
  rw [← tokens, hrest, List.count_nil, Nat.zero_add] at hcount
  exact hcount

/-- The tokens of two texts with a line break in between, of which the first does not end inside of a
block comment, are the tokens of the first without the end of the file, the line break, and the
tokens of the second, moved by the characters and lines in front of them. The lines add up. -/
theorem tokens_goOn (file : Path) (a b : ByteArray)
    (hclosed : ∀ t : Token, t ∈ (tokens { source := .ofBytes file a }).1 →
      t.kind ≠ .invalid .unterminatedComment) :
    let first := tokens { source := .ofBytes file a }
    let second := tokens { source := .ofBytes file b }
    let whole := tokens { source := .ofBytes file (a ++ "\n".toUTF8 ++ b) }
    whole.1 = first.1.dropLast ++ .lineBreakAfter file (Source.charactersOf a) ::
        second.1.map (Token.move (.down (a.size + 1) ((Source.charactersOf a).count '\n' + 1))) ∧
      whole.2.lineCount = first.2.lineCount + second.2.lineCount + 1 := by
  intro first second whole
  have hlength : (Source.ofBytes file a).rest.length = a.size := Source.length_charactersOf a
  have hwhole : whole = tokens { source := (Source.ofBytes file a).goOn (Source.charactersOf b) } := by
    rw [← Source.ofBytes_goOn]
  rw [hwhole]
  constructor
  · have htokens := Source.tokens_goOn_eq rfl hclosed (Source.charactersOf b)
    rw [hlength] at htokens
    exact htokens
  · have hfirst : first.2.lineCount = _ := lineCount_tokens _
    have hsecond : second.2.lineCount = _ := lineCount_tokens _
    rw [lineCount_tokens, hfirst, hsecond]
    simp only [Source.goOn, List.count_append, List.count_cons_self]
    exact (Nat.add_assoc _ _ 1).symm

/-- A text that ends in a line comment, and one with a comment over two lines and a word. -/
theorem tokens_goOn_of_comment :
    let a := "x // y".toUTF8
    let b := "/*\n*/ 1".toUTF8
    (∀ t : Token, t ∈ (tokens { source := .ofBytes ⟨"main.rin"⟩ a }).1 →
        t.kind ≠ .invalid .unterminatedComment) ∧
      (tokens { source := .ofBytes ⟨"main.rin"⟩ (a ++ "\n".toUTF8 ++ b) }).1.map
          (fun t => (t.kind, t.location.toPosition)) =
        [(.identifier "x", ⟨0, 0, 0⟩), (.endOfLine, ⟨6, 0, 6⟩), (.numeral ⟨1, 256⟩, ⟨13, 2, 3⟩),
          (.endOfFile, ⟨14, 2, 4⟩)] ∧
      (tokens { source := .ofBytes ⟨"main.rin"⟩ (a ++ "\n".toUTF8 ++ b) }).2.lineCount = 2 := by
  intro a b
  have hclosed : ∀ t : Token, t ∈ (tokens { source := .ofBytes ⟨"main.rin"⟩ a }).1 →
      t.kind ≠ .invalid .unterminatedComment := by
    decide +kernel
  obtain ⟨htokens, hlines⟩ := tokens_goOn ⟨"main.rin"⟩ a b hclosed
  refine ⟨hclosed, ?_, ?_⟩
  · rw [htokens]
    decide +kernel
  · rw [hlines]
    decide +kernel

end Scanner

end FloatLang
