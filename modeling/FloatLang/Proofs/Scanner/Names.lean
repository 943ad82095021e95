import FloatLang.Proofs.Scanner.Ahead

/-!
# Names in a source

A name is a token, and so it stands at a place of the source with its own characters there. Tokens
come in the order of their places, so that a name comes before every token after it.

## Main definitions

* `Source.NamesAt` — a token of a source is a name at a place

## Main results

* `Source.NamesAt.offset_lt` — what comes after a name stands further on
* `Source.NamesAt.spelled` — the characters of a name stand at its place
-/

namespace FloatLang

theorem Position.offset_after (p : Position) (text : List Char) :
    (p.after text).offset = p.offset + text.length := by
  induction text generalizing p with
  | nil => rfl
  | cons c text ih =>
    have hnext : (p.next c).offset = p.offset + 1 := by
      unfold next
      split <;> rfl
    rw [after_cons, ih, hnext, List.length_cons]
    omega

theorem Source.length_charactersOf (bytes : ByteArray) :
    (charactersOf bytes).length = bytes.size := by
  rw [charactersOf, List.length_map, Array.length_toList]
  rfl

/-! ### The characters of a name -/

theorem classifyOperator_ne_identifier (first : Char) (symbol : List Char) (x : String) :
    classifyOperator first symbol ≠ .identifier x := by
  unfold classifyOperator
  split <;> simp

/-- A word that is a name is the name's characters. -/
theorem word_of_identifier {word : List Char} {x : String} (h : classifyWord word = .identifier x) :
    word = x.toList := by
  unfold classifyWord at h
  split at h
  · split at h
    · split at h <;> simp at h
    · simp at h
  · split at h
    · split at h
      · simp at h
      · obtain rfl := TokenKind.identifier.inj h
        exact String.toList_ofList.symm
    · simp at h

namespace Lexeme

/-- A name has at least one character, and its characters are the text of its lexeme. -/
theorem text_of_identifier {text : List Char} {x : String}
    (h : (ofText text).kind = .identifier x) :
    (ofText text).text = x.toList ∧ (ofText text).text ≠ [] := by
  unfold ofText at h ⊢
  dsimp only at h ⊢
  split
  next hopen => simp [hopen] at h
  next hclosed =>
    rw [if_neg hclosed] at h
    split
    next hrest => simp [hrest] at h
    next c rest hrest =>
      rw [hrest] at h
      dsimp only at h
      split at h
      · simp at h
      next hline =>
        rw [if_neg hline]
        split at h
        · exact absurd h (classifyOperator_ne_identifier _ _ _)
        next hword =>
          rw [if_neg hword]
          exact ⟨word_of_identifier h, List.cons_ne_nil _ _⟩

end Lexeme

/-! ### The places of tokens -/

namespace Source

variable (s : Source)

theorem skip_succ (n : Nat) : skip (n + 1) s = (skip n s).scan.source := by
  induction n generalizing s with
  | zero => rfl
  | succ n ih => exact ih s.scan.source

/-- The characters that the first tokens take, and the position after them. -/
theorem exists_passed (n : Nat) :
    ∃ passed, s.rest = passed ++ (skip n s).rest ∧
      (skip n s).position = s.position.after passed := by
  induction n with
  | zero => exact ⟨[], rfl, rfl⟩
  | succ n ih =>
    obtain ⟨passed, hpassed, hposition⟩ := ih
    have htaken := (skip n s).consumed_append_rest_scan
    refine ⟨passed ++ (Lexeme.ofText (skip n s).rest).consumed, ?_, ?_⟩
    · rw [skip_succ, List.append_assoc, htaken, hpassed]
    · rw [skip_succ, position_scan, hposition, Position.after_append]

theorem offset_tokenAt (n : Nat) :
    (s.tokenAt n).location.offset =
      (skip n s).position.offset + (Lexeme.ofText (skip n s).rest).skipped.length :=
  Position.offset_after _ _

theorem offset_skip_succ (n : Nat) :
    (skip (n + 1) s).position.offset =
      (s.tokenAt n).location.offset + (Lexeme.ofText (skip n s).rest).text.length +
        (Lexeme.ofText (skip n s).rest).dropped.length := by
  rw [skip_succ, position_scan, Position.offset_after, offset_tokenAt, Lexeme.consumed,
    List.length_append, List.length_append]
  omega

theorem offset_tokenAt_le_succ (n : Nat) :
    (s.tokenAt n).location.offset + (Lexeme.ofText (skip n s).rest).text.length ≤
      (s.tokenAt (n + 1)).location.offset := by
  rw [s.offset_tokenAt (n + 1), offset_skip_succ]
  omega

theorem offset_tokenAt_le {m n : Nat} (h : m ≤ n) :
    (s.tokenAt m).location.offset ≤ (s.tokenAt n).location.offset := by
  induction h with
  | refl => exact Nat.le_refl _
  | @step n _ ih =>
    have hsucc := s.offset_tokenAt_le_succ n
    exact Nat.le_trans ih (Nat.le_trans (Nat.le_add_right _ _) hsucc)

/-- The token of number `k` is the name `x`, and stands at `l`. -/
structure NamesAt (k : Nat) (x : String) (l : Location) : Prop where
  kind : (s.tokenAt k).kind = .identifier x
  location : (s.tokenAt k).location = l

variable {s} {k k' : Nat} {x x' : String} {l l' : Location}

/-- What comes after a name stands further on. -/
theorem NamesAt.offset_lt (h : s.NamesAt k x l) (hlt : k < k') :
    l.offset < (s.tokenAt k').location.offset := by
  have hsucc := s.offset_tokenAt_le_succ k
  have hle := s.offset_tokenAt_le hlt
  obtain ⟨-, hnonempty⟩ := Lexeme.text_of_identifier h.kind
  have hlength := List.length_pos_iff.2 hnonempty
  rw [← h.location]
  exact Nat.lt_of_lt_of_le (Nat.lt_add_of_pos_right hlength) (Nat.le_trans hsucc hle)

/-- No two names stand at one place. -/
theorem NamesAt.eq_of_location_eq (h : s.NamesAt k x l) (h' : s.NamesAt k' x' l) : k = k' := by
  rcases Nat.lt_trichotomy k k' with hlt | heq | hlt
  · have := h.offset_lt hlt
    rw [h'.location] at this
    omega
  · exact heq
  · have := h'.offset_lt hlt
    rw [h.location] at this
    omega

/-- The characters of a name stand at its place. -/
theorem NamesAt.spelled (h : s.NamesAt k x l) :
    x.toList <+: s.rest.drop (l.offset - s.position.offset) := by
  obtain ⟨passed, hpassed, hposition⟩ := s.exists_passed k
  have htaken := (skip k s).consumed_append_rest_scan
  obtain ⟨htext, -⟩ := Lexeme.text_of_identifier h.kind
  rw [Lexeme.consumed, htext] at htaken
  -- in front of the name are the characters of the tokens before it and then a gap
  have hplace : l.offset - s.position.offset =
      (passed ++ (Lexeme.ofText (skip k s).rest).skipped).length := by
    rw [← h.location, offset_tokenAt, hposition, Position.offset_after, List.length_append]
    omega
  generalize (Lexeme.ofText (skip k s).rest).skipped = gap at htaken hplace
  rw [hplace, hpassed, ← htaken, List.append_assoc, List.append_assoc, ← List.append_assoc passed,
    List.drop_left]
  exact List.prefix_append _ _

end Source

end FloatLang
