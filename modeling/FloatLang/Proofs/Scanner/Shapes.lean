import FloatLang.Proofs.Scanner.Line
import Mathlib.Data.List.TakeWhile

/-!
# The shapes of gaps and lexemes

What the characters between two tokens can be, and what a lexeme is made of. The definitions here do
not follow the way a text is scanned: a gap is a sequence of blanks and comments, and a comment ends
at the first `*/`, or at the end of its line.

## Main definitions

* `IsGap` — a sequence of blanks and comments
* `Gap.HasShape` — a gap, and what can come after it
* `Lexeme.HasShape` — the five things that a lexeme can be

## Main results

* `Gap.hasShape_ofText` — what is skipped is a gap, and what never closes has no end
* `Lexeme.hasShape_ofText` — every lexeme has one of the shapes
-/

namespace FloatLang

/-- The text has no `*/`. -/
def Unended (text : List Char) : Prop := ¬ ['*', '/'] <:+: text

theorem unended_nil : Unended [] := by simp [Unended]

theorem Unended.cons {c : Char} {text : List Char} (h : Unended text)
    (hclose : ∀ t, c = '*' → text = '/' :: t → False) : Unended (c :: text) := by
  intro hin
  rcases List.infix_cons_iff.1 hin with ⟨t, ht⟩ | hin
  · obtain ⟨rfl, rfl⟩ := List.cons.inj ht
    exact hclose t rfl rfl
  · exact h hin

/-- The characters are blanks and comments, each of them complete, and `after` comes after them. A
line comment reaches to the end of its line, and does not take the line break. -/
inductive IsGap : (gap after : List Char) → Prop
  | nil (after : List Char) : IsGap [] after
  | blank {c : Char} {gap after : List Char} (hc : c = ' ' ∨ c = '\t') (more : IsGap gap after) :
      IsGap (c :: gap) after
  | lineComment {body after : List Char} (hbody : '\n' ∉ body)
      (hafter : after = [] ∨ after.head? = some '\n') : IsGap ('/' :: '/' :: body) after
  | blockComment {body gap after : List Char} (hbody : Unended body) (more : IsGap gap after) :
      IsGap ('/' :: '*' :: (body ++ '*' :: '/' :: gap)) after

namespace Gap

/-- What is skipped is a gap, no blank comes after it, and what never closes is a comment without an
end. -/
structure HasShape (gap : Gap) : Prop where
  isGap : IsGap gap.skipped gap.rest
  isBlank_head : ∀ c ∈ gap.rest.head?, isBlank c = false
  unclosed : gap.unclosed = true → ∃ body, gap.rest = '/' :: '*' :: body ∧ Unended body

variable {text : List Char} {gap : Gap}

theorem HasShape.lineComment (text : List Char) :
    HasShape ⟨'/' :: '/' :: text.takeWhile (· != '\n'), text.dropWhile (· != '\n'), false⟩ := by
  have hbody : '\n' ∉ text.takeWhile (· != '\n') := fun hmem => by
    have hne := List.mem_takeWhile_imp hmem
    contradiction
  have hhead := List.head?_dropWhile_not (· != '\n') text
  cases hrest : text.dropWhile (· != '\n') with
  | nil => exact ⟨.lineComment hbody (.inl rfl), by simp, by simp⟩
  | cons c rest =>
    obtain rfl : c = '\n' := by simpa [hrest] using hhead
    exact ⟨.lineComment hbody (.inr rfl), by simp [isBlank], by simp⟩

theorem HasShape.blockComment {body inner : List Char} (h : HasShape { gap with skipped := inner })
    (hbody : Unended body) :
    HasShape { gap with skipped := '/' :: '*' :: (body ++ '*' :: '/' :: inner) } :=
  ⟨.blockComment hbody h.isGap, h.isBlank_head, h.unclosed⟩

/-- A comment that is not passed over has no end. -/
theorem unended_of_ofComment? (h : ofComment? text = none) : Unended text := by
  induction text with
  | nil => exact unended_nil
  | cons c text ih =>
    unfold ofComment? at h
    split at h
    · contradiction
    · contradiction
    next hclose heq =>
      obtain ⟨rfl, rfl⟩ := List.cons.inj heq
      exact (ih (Option.map_eq_none_iff.1 h)).cons hclose

mutual

/-- What is skipped in front of a token is a gap. -/
theorem hasShape_ofText (text : List Char) : (ofText text).HasShape := by
  unfold ofText
  split
  · exact ⟨.nil _, by simp, by simp⟩
  next text => exact .lineComment text
  next text =>
    split
    next gap hgap =>
      obtain ⟨body, inner, hskipped, hbody, hinner⟩ := exists_body text hgap
      rw [after, hskipped]
      exact hinner.blockComment hbody
    next hnone => exact ⟨.nil _, by simp [isBlank], fun _ => ⟨text, rfl, unended_of_ofComment? hnone⟩⟩
  next c text _ _ =>
    split
    next hblank =>
      have hmore := hasShape_ofText text
      exact ⟨.blank (by simpa [isBlank] using hblank) hmore.isGap, hmore.isBlank_head, hmore.unclosed⟩
    next hblank => exact ⟨.nil _, by simpa using hblank, by simp⟩
termination_by text.length
decreasing_by all_goals grind

/-- What is skipped from inside a comment is the rest of its body, its end, and then a gap. -/
theorem exists_body (text : List Char) {gap : Gap} (hgap : ofComment? text = some gap) :
    ∃ body inner, gap.skipped = body ++ '*' :: '/' :: inner ∧ Unended body ∧
      HasShape { gap with skipped := inner } := by
  unfold ofComment? at hgap
  split at hgap
  · contradiction
  next text =>
    obtain rfl := Option.some.inj hgap
    exact ⟨[], (ofText text).skipped, rfl, unended_nil, hasShape_ofText text⟩
  next c text hclose =>
    obtain ⟨passed, hpassed, rfl⟩ := Option.map_eq_some_iff.1 hgap
    obtain ⟨body, inner, hskipped, hbody, hinner⟩ := exists_body text hpassed
    have htext := skipped_append_rest_of_ofComment? text hpassed
    refine ⟨c :: body, inner, by simp [hskipped], hbody.cons fun t hc ht => ?_, hinner⟩
    -- the body is the front of the text, so no end of the comment starts with its first character
    refine hclose (t ++ '*' :: '/' :: inner ++ passed.rest) hc ?_
    rw [← htext, hskipped, ht]
    simp
termination_by text.length
decreasing_by all_goals grind

end

end Gap

/-! ### Lexemes -/

theorem classifyWord_ne_comment (word : List Char) :
    classifyWord word ≠ .invalid .unterminatedComment := by
  unfold classifyWord
  repeat' split
  all_goals simp

theorem classifyOperator_ne_comment (first : Char) (symbol : List Char) :
    classifyOperator first symbol ≠ .invalid .unterminatedComment := by
  unfold classifyOperator
  split <;> simp

namespace Lexeme

/-- What a lexeme can be: a comment that never ends, the end of the file, a line break, what starts
like an operator, or a word. -/
inductive HasShape : Lexeme → Prop
  | comment {skipped dropped : List Char} (hdropped : Unended dropped) :
      HasShape ⟨skipped, .invalid .unterminatedComment, ['/', '*'], dropped, []⟩
  | endOfFile (skipped : List Char) : HasShape ⟨skipped, .endOfFile, [], [], []⟩
  | endOfLine (skipped rest : List Char) : HasShape ⟨skipped, .endOfLine, ['\n'], [], rest⟩
  | operator {skipped text symbol rest : List Char} {first : Char}
      (hfirst : Operator.startsSymbol first = true)
      (hsymbol : operatorExtent [first] text = (symbol, rest)) :
      HasShape ⟨skipped, classifyOperator first symbol, symbol, [], rest⟩
  | word {skipped word rest : List Char} (hne : word ≠ [])
      (hword : ∀ c ∈ word, isWordCharacter c = true) :
      HasShape ⟨skipped, classifyWord word, word, [], rest⟩

/-- Every lexeme has one of the shapes. -/
theorem hasShape_ofText (text : List Char) : (ofText text).HasShape := by
  have hgap := Gap.hasShape_ofText text
  unfold ofText
  generalize Gap.ofText text = gap at hgap
  obtain ⟨skipped, rest, unclosed⟩ := gap
  cases unclosed with
  | true =>
    obtain ⟨body, hrest, hbody⟩ := hgap.unclosed rfl
    obtain rfl : rest = '/' :: '*' :: body := hrest
    exact .comment hbody
  | false =>
    cases rest with
    | nil => exact .endOfFile skipped
    | cons c rest =>
      simp only [Bool.false_eq_true, if_false]
      split
      next hline =>
        subst hline
        exact .endOfLine skipped rest
      next hline =>
        split
        next hfirst => exact .operator hfirst rfl
        next hfirst =>
          refine .word (List.cons_ne_nil _ _) fun d hd => ?_
          rcases List.mem_cons.1 hd with rfl | hd
          · have hblank : isBlank d = false := hgap.isBlank_head d rfl
            simp [isWordCharacter, hblank, hline, hfirst]
          · exact List.mem_takeWhile_imp hd

variable {text : List Char}

/-- Only a comment without an end loses characters. -/
theorem dropped_eq_nil (h : (ofText text).kind ≠ .invalid .unterminatedComment) :
    (ofText text).dropped = [] := by
  have hshape := hasShape_ofText text
  generalize ofText text = l at h hshape
  cases hshape with
  | comment hdropped => contradiction
  | _ => rfl

/-- A comment without an end takes the rest of the source. -/
theorem dropped_of_comment (h : (ofText text).kind = .invalid .unterminatedComment) :
    Unended (ofText text).dropped ∧ (ofText text).rest = [] := by
  have hshape := hasShape_ofText text
  generalize ofText text = l at h hshape
  cases hshape with
  | comment hdropped => exact ⟨hdropped, rfl⟩
  | endOfFile skipped => contradiction
  | endOfLine skipped rest => contradiction
  | operator hfirst hsymbol => exact absurd h (classifyOperator_ne_comment _ _)
  | word hne hword => exact absurd h (classifyWord_ne_comment _)

/-- The end of the file has no characters. -/
theorem text_of_endOfFile (h : (ofText text).kind = .endOfFile) : (ofText text).text = [] := by
  have hshape := hasShape_ofText text
  generalize ofText text = l at h hshape
  cases hshape with
  | endOfFile skipped => rfl
  | operator hfirst hsymbol => exact absurd h (classifyOperator_ne_endOfFile _ _)
  | word hne hword => exact absurd h (classifyWord_ne_endOfFile _)
  | _ => contradiction

theorem skipped_ofText (text : List Char) : (ofText text).skipped = (Gap.ofText text).skipped := by
  unfold ofText
  dsimp only
  split
  · rfl
  · split
    · rfl
    · split
      · rfl
      · split <;> rfl

/-- What is skipped in front of a lexeme is a gap. -/
theorem isGap_skipped (text : List Char) :
    IsGap (ofText text).skipped
      ((ofText text).text ++ (ofText text).dropped ++ (ofText text).rest) := by
  -- gap and lexeme divide the same text
  have htext := (consumed_append_rest text).trans (Gap.skipped_append_rest text).symm
  rw [consumed, List.append_assoc, List.append_assoc, skipped_ofText] at htext
  rw [skipped_ofText, List.append_assoc, List.append_cancel_left htext]
  exact (Gap.hasShape_ofText text).isGap

end Lexeme

end FloatLang
