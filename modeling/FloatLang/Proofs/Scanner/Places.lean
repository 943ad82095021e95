import FloatLang.Proofs.Scanner.Names

/-!
# Places of tokens

Every token before the end of the file has characters of its own. So tokens stand at different
places, in the order in which they come, and a token is known by its place.

## Main results

* `Source.offset_lt` — what comes after a token stands further on
* `Source.eq_of_location_eq` — no two tokens stand at one place
-/

namespace FloatLang

/-! ### The characters of a token -/

namespace Gap

mutual

/-- A block comment that never closes is not passed over. -/
theorem rest_ne_nil_of_unclosed (text : List Char) :
    (ofText text).unclosed = true → (ofText text).rest ≠ [] := by
  unfold ofText
  split
  · simp
  · simp
  next text =>
    split
    next gap hgap =>
      have hinner := rest_ne_nil_of_unclosed_comment text hgap
      exact hinner
    next => simp
  next c text _ _ =>
    split
    · exact rest_ne_nil_of_unclosed text
    · simp
termination_by text.length
decreasing_by all_goals grind

/-- The same for what comes after a comment that closes. -/
theorem rest_ne_nil_of_unclosed_comment (text : List Char) {gap : Gap}
    (hgap : ofComment? text = some gap) : gap.unclosed = true → gap.rest ≠ [] := by
  unfold ofComment? at hgap
  split at hgap
  · contradiction
  next text =>
    obtain rfl := Option.some.inj hgap
    exact rest_ne_nil_of_unclosed text
  next c text _ =>
    obtain ⟨inner, hinner, rfl⟩ := Option.map_eq_some_iff.1 hgap
    have hrest := rest_ne_nil_of_unclosed_comment text hinner
    exact hrest
termination_by text.length
decreasing_by all_goals grind

end

end Gap

theorem operatorExtent_ne_nil {symbol : List Char} (hsymbol : symbol ≠ []) (rest : List Char) :
    (operatorExtent symbol rest).1 ≠ [] := by
  induction rest generalizing symbol with
  | nil => exact hsymbol
  | cons c rest ih =>
    unfold operatorExtent
    split
    · exact ih (by simp)
    · exact hsymbol

namespace Lexeme

/-- Only the end of the file has no characters. -/
theorem text_ne_nil {text : List Char} (h : (ofText text).kind ≠ .endOfFile) :
    (ofText text).text ≠ [] := by
  unfold ofText at h ⊢
  dsimp only at h ⊢
  split
  next hopen =>
    have hrest := Gap.rest_ne_nil_of_unclosed text hopen
    simpa using hrest
  next hclosed =>
    rw [if_neg hclosed] at h
    split
    next hrest => simp [hrest] at h
    next c rest _ =>
      split
      · exact List.cons_ne_nil _ _
      · split
        · exact operatorExtent_ne_nil (List.cons_ne_nil _ _) rest
        · exact List.cons_ne_nil _ _

end Lexeme

/-! ### The order of tokens -/

namespace Source

variable {s : Source} {k k' : Nat}

/-- What comes after a token stands further on. -/
theorem offset_lt (hk : (s.tokenAt k).isEndOfFile = false) (hlt : k < k') :
    (s.tokenAt k).location.offset < (s.tokenAt k').location.offset := by
  have hsucc := s.offset_tokenAt_le_succ k
  have hle : (s.tokenAt (k + 1)).location.offset ≤ (s.tokenAt k').location.offset :=
    s.offset_tokenAt_le hlt
  have hkind : (Lexeme.ofText (skip k s).rest).kind ≠ .endOfFile := by
    simpa [Token.isEndOfFile, tokenAt, scan] using hk
  have hlength := List.length_pos_iff.2 (Lexeme.text_ne_nil hkind)
  omega

/-- No two tokens stand at one place. -/
theorem eq_of_location_eq (hk : (s.tokenAt k).isEndOfFile = false)
    (hk' : (s.tokenAt k').isEndOfFile = false)
    (h : (s.tokenAt k).location = (s.tokenAt k').location) : k = k' := by
  rcases Nat.lt_trichotomy k k' with hlt | heq | hlt
  · exact absurd (congrArg (fun l => l.offset) h) (Nat.ne_of_lt (offset_lt hk hlt))
  · exact heq
  · exact absurd (congrArg (fun l => l.offset) h).symm (Nat.ne_of_lt (offset_lt hk' hlt))

end Source

end FloatLang
