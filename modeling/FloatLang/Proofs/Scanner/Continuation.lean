import FloatLang.Proofs.Scanner.Places

/-!
# Texts that go on after a line break

What stands on a later line is no part of any token before it: words, operators and line comments end
at the line break, and so does the gap in front of the end of the file. Only a block comment that is
still open reaches over it. So a text has the same tokens when more lines follow, and where the file
ended there is a line break.

## Main definitions

* `Source.goOn` — a source with a line break and more text after it
* `Source.Continues` — a source whose tokens are those of another up to its end

## Main results

* `Gap.ofText_goOn`, `Lexeme.ofText_goOn`, `Lexeme.ofText_goOn_of_endOfFile` — the first token
* `Source.continues_goOn` — all tokens
* `Source.skip_goOn` — what comes after the line break
-/

namespace FloatLang

/-- Characters of a kind that the line break is not of end with the line at the latest. -/
theorem takeWhile_goOn {f : Char → Bool} (hf : f '\n' = false) (text more : List Char) :
    (text ++ '\n' :: more).takeWhile f = text.takeWhile f ∧
      (text ++ '\n' :: more).dropWhile f = text.dropWhile f ++ '\n' :: more := by
  induction text with
  | nil => simp [hf]
  | cons c text ih =>
    cases hc : f c with
    | true => simpa [hc] using ih
    | false => simp [hc]

/-! ### Gaps -/

namespace Gap

/-- The gap of a text that goes on after a line break. -/
def goOn (gap : Gap) (more : List Char) : Gap := { gap with rest := gap.rest ++ '\n' :: more }

/-- A character that no comment starts with. -/
theorem ofText_cons {c : Char} {text : List Char} (hline : ∀ t, c :: text ≠ '/' :: '/' :: t)
    (hblock : ∀ t, c :: text ≠ '/' :: '*' :: t) :
    ofText (c :: text) = if isBlank c then (ofText text).after [c] else ⟨[], c :: text, false⟩ := by
  conv => lhs; unfold ofText
  split
  · contradiction
  next t heq => exact absurd heq (hline t)
  next t heq => exact absurd heq (hblock t)
  next heq =>
    obtain ⟨rfl, rfl⟩ := List.cons.inj heq
    rfl

/-- A character that does not close a comment. -/
theorem ofComment?_cons {c : Char} {text : List Char} (hclose : ∀ t, c :: text ≠ '*' :: '/' :: t) :
    ofComment? (c :: text) = (ofComment? text).map (after [c]) := by
  conv => lhs; unfold ofComment?
  split
  · contradiction
  next t heq => exact absurd heq (hclose t)
  next heq =>
    obtain ⟨rfl, rfl⟩ := List.cons.inj heq
    rfl

/-- The line break is not the second character of anything that starts or ends a comment. -/
theorem ne_goOn {c d e : Char} {text more : List Char} (hd : d ≠ '\n')
    (h : ∀ t, c :: text ≠ e :: d :: t) : ∀ t, c :: (text ++ '\n' :: more) ≠ e :: d :: t := by
  intro t heq
  cases text with
  | nil => exact hd (List.cons.inj (List.cons.inj heq).2).1.symm
  | cons x text =>
    obtain ⟨rfl, htail⟩ := List.cons.inj heq
    obtain ⟨rfl, -⟩ := List.cons.inj htail
    exact h text rfl

mutual

/-- A gap ends where it ended before. -/
theorem ofText_goOn (text more : List Char) :
    (ofText text).unclosed = false → ofText (text ++ '\n' :: more) = (ofText text).goOn more := by
  intro hclosed
  unfold ofText at hclosed
  split at hclosed
  · simp [ofText, isBlank, goOn]
  next text =>
    obtain ⟨htake, hdrop⟩ := takeWhile_goOn (f := (· != '\n')) rfl text more
    simp only [List.cons_append, ofText, goOn, htake, hdrop]
  next text =>
    cases hgap : ofComment? text with
    | none => simp [hgap] at hclosed
    | some gap =>
      rw [hgap] at hclosed
      simp only [List.cons_append, ofText, ofComment?_goOn text more hgap hclosed, hgap]
      rfl
  next c text hline hblock =>
    have hline' : ∀ t, c :: text ≠ '/' :: '/' :: t := fun t heq =>
      hline t (List.cons.inj heq).1 (List.cons.inj heq).2
    have hblock' : ∀ t, c :: text ≠ '/' :: '*' :: t := fun t heq =>
      hblock t (List.cons.inj heq).1 (List.cons.inj heq).2
    rw [List.cons_append, ofText_cons (ne_goOn (by decide) hline') (ne_goOn (by decide) hblock'),
      ofText_cons hline' hblock']
    split at hclosed
    next hblank =>
      rw [if_pos hblank, if_pos hblank, ofText_goOn text more hclosed]
      rfl
    next hblank =>
      rw [if_neg hblank, if_neg hblank]
      rfl
termination_by text.length
decreasing_by all_goals grind

/-- A comment that closes ends where it ended before. -/
theorem ofComment?_goOn (text more : List Char) {gap : Gap} (hgap : ofComment? text = some gap) :
    gap.unclosed = false → ofComment? (text ++ '\n' :: more) = some (gap.goOn more) := by
  intro hclosed
  unfold ofComment? at hgap
  split at hgap
  · contradiction
  next text =>
    obtain rfl := Option.some.inj hgap
    simp only [List.cons_append, ofComment?, ofText_goOn text more hclosed]
    rfl
  next c text hclose =>
    obtain ⟨inner, hinner, rfl⟩ := Option.map_eq_some_iff.1 hgap
    have hclose' : ∀ t, c :: text ≠ '*' :: '/' :: t := fun t heq =>
      hclose t (List.cons.inj heq).1 (List.cons.inj heq).2
    rw [List.cons_append, ofComment?_cons (ne_goOn (by decide) hclose'),
      ofComment?_goOn text more hinner hclosed]
    rfl
termination_by text.length
decreasing_by all_goals grind

end

end Gap

/-! ### Lexemes -/

/-- No operator has a blank or a line break in its symbol. -/
theorem ofSymbol?_concat {c : Char} (hc : isBlank c = true ∨ c = '\n') (symbol : List Char) :
    Operator.ofSymbol? (symbol ++ [c]) = none := by
  have hsymbol (op : Operator) : ∀ d ∈ op.symbol, isBlank d = false ∧ d ≠ '\n' := by
    cases op <;> simp [Operator.symbol, isBlank]
  cases h : Operator.ofSymbol? (symbol ++ [c]) with
  | none => rfl
  | some op =>
    have hmem : c ∈ op.symbol := by
      rw [Operator.symbol_of_ofSymbol? h]
      simp
    obtain ⟨hblank, hline⟩ := hsymbol op c hmem
    rw [hblank] at hc
    exact absurd hc (by simp [hline])

theorem operatorExtent_goOn (symbol text more : List Char) :
    operatorExtent symbol (text ++ '\n' :: more) =
      ((operatorExtent symbol text).1, (operatorExtent symbol text).2 ++ '\n' :: more) := by
  induction text generalizing symbol with
  | nil => simp [operatorExtent, ofSymbol?_concat (c := '\n') (.inr rfl)]
  | cons c text ih =>
    rw [List.cons_append, operatorExtent, operatorExtent]
    split
    · exact ih _
    · rfl

namespace Lexeme

variable {text : List Char}

/-- The lexeme of a text that goes on after a line break. -/
def goOn (l : Lexeme) (more : List Char) : Lexeme := { l with rest := l.rest ++ '\n' :: more }

theorem unclosed_eq_false (h : (ofText text).kind ≠ .invalid .unterminatedComment) :
    (Gap.ofText text).unclosed = false := by
  cases hopen : (Gap.ofText text).unclosed with
  | false => rfl
  | true => simp [ofText, hopen] at h

/-- Only where nothing is left after the gap, the file ends. -/
theorem rest_ne_nil (hclosed : (Gap.ofText text).unclosed = false)
    (hend : (ofText text).kind ≠ .endOfFile) : (Gap.ofText text).rest ≠ [] := by
  intro hrest
  simp [ofText, hclosed, hrest] at hend

/-- A token ends where it ended before. -/
theorem ofText_goOn (hclosed : (ofText text).kind ≠ .invalid .unterminatedComment)
    (hend : (ofText text).kind ≠ .endOfFile) (more : List Char) :
    ofText (text ++ '\n' :: more) = (ofText text).goOn more := by
  have hopen := unclosed_eq_false hclosed
  have hgap := Gap.ofText_goOn text more hopen
  have hrest := rest_ne_nil hopen hend
  unfold ofText goOn
  rw [hgap]
  generalize Gap.ofText text = gap at hopen hrest
  obtain ⟨skipped, rest, unclosed⟩ := gap
  subst hopen
  cases rest with
  | nil => contradiction
  | cons c rest =>
    obtain ⟨htake, hdrop⟩ := takeWhile_goOn (f := isWordCharacter) (by decide) rest more
    simp only [Gap.goOn, List.cons_append, operatorExtent_goOn, htake, hdrop]
    -- a line break, an operator or a word
    split
    · contradiction
    · split
      · rfl
      · split <;> rfl

/-- Where the file ended there is a line break. -/
theorem ofText_goOn_of_endOfFile (hend : (ofText text).kind = .endOfFile) (more : List Char) :
    ofText (text ++ '\n' :: more) = ⟨(ofText text).skipped, .endOfLine, ['\n'], [], more⟩ := by
  have hopen : (Gap.ofText text).unclosed = false := unclosed_eq_false (by simp [hend])
  have hgap := Gap.ofText_goOn text more hopen
  have hrest : (Gap.ofText text).rest = [] := by
    cases hrest : (Gap.ofText text).rest with
    | nil => rfl
    | cons c rest =>
      simp only [ofText, hopen, hrest] at hend
      split at hend
      · contradiction
      · split at hend
        · simp at hend
        · split at hend
          · exact absurd hend (classifyOperator_ne_endOfFile _ _)
          · exact absurd hend (classifyWord_ne_endOfFile _)
  unfold ofText
  rw [hgap]
  simp [Gap.goOn, hopen, hrest]

end Lexeme

/-! ### Sources -/

namespace Source

/-- The source that goes on after a line break. -/
def goOn (s : Source) (more : List Char) : Source := { s with rest := s.rest ++ '\n' :: more }

/-- The source `s'` has the first `n` tokens of `s`, none of which ends the file; then the file ends
in `s`, and a line in `s'`. -/
structure Continues (s s' : Source) (n : Nat) : Prop where
  before : ∀ k < n, s'.tokenAt k = s.tokenAt k
  before_end : ∀ k < n, (s.tokenAt k).isEndOfFile = false
  end_of_file : (s.tokenAt n).isEndOfFile = true
  end_of_line : (s'.tokenAt n).isEndOfLine = true
  place : (s'.tokenAt n).location = (s.tokenAt n).location

variable {s : Source} {n : Nat}

theorem scan_goOn (hclosed : s.scan.token.kind ≠ .invalid .unterminatedComment)
    (hend : s.scan.token.isEndOfFile = false) (more : List Char) :
    (s.goOn more).scan.token = s.scan.token ∧
      (s.goOn more).scan.source = s.scan.source.goOn more := by
  have hkind : (Lexeme.ofText s.rest).kind ≠ .endOfFile := by
    simpa [Token.isEndOfFile, scan] using hend
  have hlexeme : Lexeme.ofText (s.goOn more).rest = _ := Lexeme.ofText_goOn hclosed hkind more
  unfold scan
  rw [hlexeme]
  exact ⟨rfl, rfl⟩

theorem skip_goOn (hclosed : ∀ k < n, (s.tokenAt k).kind ≠ .invalid .unterminatedComment)
    (hend : ∀ k < n, (s.tokenAt k).isEndOfFile = false) (more : List Char) :
    skip n (s.goOn more) = (skip n s).goOn more := by
  induction n with
  | zero => rfl
  | succ n ih =>
    have hn := Nat.lt_succ_self n
    rw [skip_succ, skip_succ, ih (fun k hk => hclosed k (Nat.lt_succ_of_lt hk))
      (fun k hk => hend k (Nat.lt_succ_of_lt hk))]
    exact (scan_goOn (hclosed n hn) (hend n hn) more).2

/-- A source has the same tokens when it goes on after a line break, unless its end is in a comment. -/
theorem continues_goOn (hclosed : ∀ k < n, (s.tokenAt k).kind ≠ .invalid .unterminatedComment)
    (hbefore : ∀ k < n, (s.tokenAt k).isEndOfFile = false)
    (hend : (s.tokenAt n).isEndOfFile = true) (more : List Char) :
    s.Continues (s.goOn more) n := by
  have hkind : (Lexeme.ofText (skip n s).rest).kind = .endOfFile := by
    simpa [Token.isEndOfFile, tokenAt, scan] using hend
  have hlexeme : Lexeme.ofText ((skip n s).goOn more).rest = _ :=
    Lexeme.ofText_goOn_of_endOfFile hkind more
  refine ⟨fun k hk => ?_, hbefore, hend, ?_, ?_⟩
  · have hskip := skip_goOn (fun i hi => hclosed i (Nat.lt_trans hi hk))
      (fun i hi => hbefore i (Nat.lt_trans hi hk)) more
    rw [tokenAt, hskip]
    exact (scan_goOn (hclosed k hk) (hbefore k hk) more).1
  · rw [tokenAt, skip_goOn hclosed hbefore, scan, hlexeme]
    rfl
  · rw [tokenAt, skip_goOn hclosed hbefore, scan, hlexeme]
    rfl

@[simp] theorem file_skip (s : Source) (n : Nat) : (skip n s).file = s.file := by
  induction n generalizing s with
  | zero => rfl
  | succ n ih => exact ih s.scan.source

/-- What comes after the line break at which a source goes on. -/
theorem skip_succ_goOn (hclosed : ∀ k < n, (s.tokenAt k).kind ≠ .invalid .unterminatedComment)
    (hbefore : ∀ k < n, (s.tokenAt k).isEndOfFile = false)
    (hend : (s.tokenAt n).isEndOfFile = true) (more : List Char) :
    skip (n + 1) (s.goOn more) = ⟨s.file, s.position.after (s.rest ++ ['\n']), more⟩ := by
  have hkind : (Lexeme.ofText (skip n s).rest).kind = .endOfFile := by
    simpa [Token.isEndOfFile, tokenAt, scan] using hend
  have hlexeme : Lexeme.ofText ((skip n s).goOn more).rest = _ :=
    Lexeme.ofText_goOn_of_endOfFile hkind more
  -- the lexeme of the line break has all that was left in its gap
  have hskipped : (Lexeme.ofText (skip n s).rest).skipped = (skip n s).rest := by
    have hparts := Lexeme.consumed_append_rest ((skip n s).goOn more).rest
    rw [hlexeme, Lexeme.consumed] at hparts
    simpa [goOn] using hparts
  obtain ⟨passed, hpassed, hposition⟩ := s.exists_passed n
  rw [skip_succ, skip_goOn hclosed hbefore]
  unfold scan
  rw [hlexeme, hskipped, hpassed, List.append_assoc, Position.after_append, ← hposition]
  simp [advance, goOn, Lexeme.consumed]

theorem charactersOf_append (a b : ByteArray) :
    charactersOf (a ++ b) = charactersOf a ++ charactersOf b := by
  simp [charactersOf]

/-- A file that goes on after a line break. -/
theorem ofBytes_goOn (file : Path) (a b : ByteArray) :
    ofBytes file (a ++ "\n".toUTF8 ++ b) = (ofBytes file a).goOn (charactersOf b) := by
  have hline : charactersOf "\n".toUTF8 = ['\n'] := by decide
  simp only [ofBytes, goOn, charactersOf_append, hline, List.append_assoc, List.singleton_append]

theorem tokenAt_skip (s : Source) (m k : Nat) : (skip m s).tokenAt k = s.tokenAt (m + k) := by
  induction m generalizing s with
  | zero => simp [skip]
  | succ m ih => rw [skip, ih, Nat.succ_add, tokenAt_succ]

/-- No token stands before the place from which its source starts. -/
theorem offset_le_tokenAt (s : Source) (k : Nat) :
    s.position.offset ≤ (s.tokenAt k).location.offset := by
  have hfirst : s.position.offset ≤ (s.tokenAt 0).location.offset := by
    rw [s.offset_tokenAt 0]
    exact Nat.le_add_right _ _
  exact Nat.le_trans hfirst (s.offset_tokenAt_le (Nat.zero_le k))

end Source

end FloatLang
