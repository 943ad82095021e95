import FloatLang.Proofs.Scanner.Lines
import FloatLang.Proofs.Scanner.Respelling

/-!
# Blanks and comments are invisible

Where a token ends is settled by its own characters and the one behind it, and there it ends as well
if a blank comes in between. So with a blank in front of any token, or a blank and a block comment,
a source has the same tokens, only that a line comment must not lose its line break. Block comments
are not looked into: whatever they have inside, no token starts there.

## Main definitions

* `Resumes` — a text behind which a token ends as it does behind another
* `IsTrivia` — a blank, or a blank and a block comment
* `IsBlockComment`, `CommentAt` — the block comments of a source

## Main results

* `Gap.ofText_append` — blanks and comments in front of a text belong to its gap
* `Lexeme.ofText_resumes` — a lexeme is found again in front of another text
* `Source.reading_insert` — one step of the scan after another with something inserted
* `Scanner.trivia_invisible` — what is inserted and what is commented out makes no token
-/

namespace FloatLang

/-! ### Gaps in front of a text -/

/-- Blanks and comments in a row. A line comment at the end of the first ones goes on, up to the
line break that comes behind the others. -/
theorem IsGap.append {gap next more after : List Char} (h : IsGap gap next) (hmore : IsGap more after)
    (hline : next = [] ∨ next.head? = some '\n' →
      '\n' ∉ more ∧ (after = [] ∨ after.head? = some '\n')) :
    IsGap (gap ++ more) after := by
  induction h with
  | nil next => exact hmore
  | blank hc _ ih => exact .blank hc (ih hline)
  | lineComment hbody hafter =>
    obtain ⟨hmore', hafter'⟩ := hline hafter
    exact .lineComment (fun hmem => (List.mem_append.1 hmem).elim hbody hmore') hafter'
  | blockComment hbody _ ih =>
    rw [List.cons_append, List.cons_append, List.append_assoc, List.cons_append, List.cons_append]
    exact .blockComment hbody (ih hline)

/-- What is a gap depends on the next character only. -/
theorem IsGap.congr {gap next after : List Char} (h : IsGap gap next)
    (hhead : after.head? = next.head?) : IsGap gap after := by
  have hsame := h.append (.nil after) fun hline => by
    refine ⟨List.not_mem_nil, ?_⟩
    rwa [← List.head?_eq_none_iff, hhead, List.head?_eq_none_iff]
  rwa [List.append_nil] at hsame

namespace Gap

theorem after_after (front front' : List Char) (gap : Gap) :
    (gap.after front').after front = gap.after (front ++ front') := by
  simp [after, List.append_assoc]

/-- A comment ends at the first `*/`. -/
theorem ofComment?_append {body : List Char} (hbody : Unended body) (text : List Char) :
    ofComment? (body ++ '*' :: '/' :: text) = some ((ofText text).after (body ++ ['*', '/'])) := by
  induction body with
  | nil => simp [ofComment?]
  | cons c body ih =>
    have hbody' : Unended body := fun hin => hbody (List.infix_cons hin)
    have hclose : ∀ t, c :: (body ++ '*' :: '/' :: text) ≠ '*' :: '/' :: t := by
      intro t heq
      obtain ⟨rfl, htail⟩ := List.cons.inj heq
      -- a star at the end of the body is not followed by a slash, but by the star of the `*/`
      cases body with
      | nil => simp at htail
      | cons d body =>
        obtain ⟨rfl, -⟩ := List.cons.inj htail
        exact hbody ⟨[], body, rfl⟩
    rw [List.cons_append, ofComment?_cons hclose, ih hbody', Option.map_some, after_after]
    rfl

/-- A comment without an end is not passed over. -/
theorem ofComment?_of_unended {body : List Char} (hbody : Unended body) :
    ofComment? body = none := by
  cases h : ofComment? body with
  | none => rfl
  | some gap =>
    obtain ⟨inner, skipped, hskipped, -⟩ := exists_body body h
    have htext := skipped_append_rest_of_ofComment? body h
    refine absurd ⟨inner, skipped ++ gap.rest, ?_⟩ hbody
    rw [← htext, hskipped]
    simp

/-- Blanks and comments in front of a text are skipped, and then what is skipped of the text. -/
theorem ofText_append {gap text : List Char} (h : IsGap gap text) :
    ofText (gap ++ text) = (ofText text).after gap := by
  induction h with
  | nil text => simp [after]
  | @blank c gap text hc _ ih =>
    have hblank : isBlank c = true := by simpa [isBlank] using hc
    have hslash : c ≠ '/' := by
      rintro rfl
      contradiction
    rw [List.cons_append, ofText_cons, if_pos hblank, ih, after_after]
    · rfl
    · exact fun t heq => hslash (List.cons.inj heq).1
    · exact fun t heq => hslash (List.cons.inj heq).1
  | @lineComment body text hbody hafter =>
    have hpass : ∀ c ∈ body, (c != '\n') = true := by
      intro c hc
      rw [bne_iff_ne]
      rintro rfl
      exact hbody hc
    rw [List.cons_append, List.cons_append, ofText, List.takeWhile_append_of_pos hpass,
      List.dropWhile_append_of_pos hpass]
    -- the comment ends where the text starts, with the line or with the file
    cases text with
    | nil => simp [after, ofText]
    | cons c text =>
      obtain rfl : c = '\n' := by simpa using hafter
      simp [after, ofText, isBlank]
  | @blockComment body gap text hbody _ ih =>
    have hcomment := ofComment?_append hbody (gap ++ text)
    rw [ih, after_after] at hcomment
    rw [List.cons_append, List.cons_append, List.append_assoc, List.cons_append, List.cons_append,
      ofText, hcomment]
    simp only [after_after]
    simp

end Gap

/-! ### Texts behind a token -/

/-- A token in front of `text'` ends where it ends in front of `text`: they start with the same
character, or `text'` with a blank. -/
def Resumes (text text' : List Char) : Prop :=
  text'.head? = text.head? ∨ ∃ c ∈ text'.head?, isBlank c = true

namespace Resumes

variable {text text' : List Char}

theorem blank {c : Char} (hc : isBlank c = true) (text text' : List Char) :
    Resumes text (c :: text') := .inr ⟨c, rfl, hc⟩

theorem append (h : Resumes text text') (front : List Char) :
    Resumes (front ++ text) (front ++ text') := by
  cases front with
  | nil => exact h
  | cons c front => exact .inl rfl

/-- If no character of a kind comes next, and blanks are not of that kind, none comes next. -/
theorem not_head (h : Resumes text text') {f : Char → Bool}
    (hblank : ∀ c, isBlank c = true → f c = false) (hhead : ∀ c ∈ text.head?, f c = false) :
    ∀ c ∈ text'.head?, f c = false := by
  intro c hc
  rcases h with hsame | ⟨d, hd, hdblank⟩
  · exact hhead c (hsame ▸ hc)
  · obtain rfl : d = c := Option.some.inj (hd.symm.trans hc)
    exact hblank d hdblank

/-- No comment starts with the character in front. -/
theorem ofText_cons {c : Char} (h : Resumes text text')
    (hgap : Gap.ofText (c :: text) = ⟨[], c :: text, false⟩) :
    Gap.ofText (c :: text') = ⟨[], c :: text', false⟩ := by
  have hblank : isBlank c = false := (Gap.hasShape_ofText (c :: text)).isBlank_head c (by rw [hgap]; rfl)
  -- behind a slash comes no second one and no star
  have hhead : c = '/' → ∀ d ∈ text.head?, (d == '/' || d == '*') = false := by
    rintro rfl d hd
    obtain ⟨rest, rfl⟩ := List.head?_eq_some_iff.1 hd
    by_contra hne
    rw [Bool.not_eq_false, Bool.or_eq_true, beq_iff_eq, beq_iff_eq] at hne
    rcases hne with rfl | rfl
    · simp [Gap.ofText] at hgap
    · rw [Gap.ofText] at hgap
      split at hgap
      · have hskipped := congrArg Gap.skipped hgap
        simp at hskipped
      · have hopen := congrArg Gap.unclosed hgap
        simp at hopen
  have hhead' : c = '/' → ∀ d ∈ text'.head?, (d == '/' || d == '*') = false := by
    intro hc
    refine h.not_head (fun d hd => ?_) (hhead hc)
    rcases (by simpa [isBlank] using hd : d = ' ' ∨ d = '\t') with rfl | rfl <;> rfl
  rw [Gap.ofText_cons, hblank]
  · rfl
  · rintro t heq
    obtain ⟨rfl, rfl⟩ := List.cons.inj heq
    simpa using hhead' rfl '/' rfl
  · rintro t heq
    obtain ⟨rfl, rfl⟩ := List.cons.inj heq
    simpa using hhead' rfl '*' rfl

end Resumes

theorem operatorExtent_of_head {symbol text : List Char}
    (h : ∀ c ∈ text.head?, (Operator.ofSymbol? (symbol ++ [c])).isSome = false) :
    operatorExtent symbol text = (symbol, text) := by
  cases text with
  | nil => rfl
  | cons c text => rw [operatorExtent, if_neg (by simp [h c rfl])]

/-- An operator takes the same characters. -/
theorem operatorExtent_resumes (symbol text : List Char) :
    ∃ more, text = more ++ (operatorExtent symbol text).2 ∧
      (operatorExtent symbol text).1 = symbol ++ more ∧
      ∀ text', Resumes (operatorExtent symbol text).2 text' →
        operatorExtent symbol (more ++ text') = ((operatorExtent symbol text).1, text') := by
  have hblank (symbol : List Char) (c : Char) (hc : isBlank c = true) :
      (Operator.ofSymbol? (symbol ++ [c])).isSome = false := by
    rw [ofSymbol?_concat (.inl hc)]
    rfl
  induction text generalizing symbol with
  | nil =>
    refine ⟨[], rfl, (List.append_nil symbol).symm, fun text' h => ?_⟩
    exact operatorExtent_of_head (h.not_head (hblank symbol) (by simp [operatorExtent]))
  | cons c text ih =>
    rw [operatorExtent]
    split
    next hlonger =>
      obtain ⟨more, htext, hsymbol, hagain⟩ := ih (symbol ++ [c])
      refine ⟨c :: more, congrArg (c :: ·) htext, by simp [hsymbol], fun text' h => ?_⟩
      rw [List.cons_append, operatorExtent, if_pos hlonger, hagain text' h]
    next hlongest =>
      refine ⟨[], rfl, (List.append_nil symbol).symm, fun text' h => ?_⟩
      exact operatorExtent_of_head (h.not_head (hblank symbol) (by simpa using hlongest))

/-- A word takes the same characters. -/
theorem takeWhile_resumes {text text' : List Char}
    (h : Resumes (text.dropWhile isWordCharacter) text') :
    (text.takeWhile isWordCharacter ++ text').takeWhile isWordCharacter =
        text.takeWhile isWordCharacter ∧
      (text.takeWhile isWordCharacter ++ text').dropWhile isWordCharacter = text' := by
  have hword : ∀ c ∈ text.takeWhile isWordCharacter, isWordCharacter c = true :=
    fun c hc => List.mem_takeWhile_imp hc
  have hhead : ∀ c ∈ text'.head?, isWordCharacter c = false := by
    refine h.not_head (fun c hc => by simp [isWordCharacter, hc]) fun c hc => ?_
    have hnot := List.head?_dropWhile_not isWordCharacter text
    rw [hc] at hnot
    simpa using hnot
  exact span_append hword hhead

namespace Lexeme

variable {c : Char} {gap text rest : List Char}

/-- Blanks and comments in front of a text belong to the gap of its first lexeme. -/
theorem ofText_append (h : IsGap gap text) :
    ofText (gap ++ text) = { ofText text with skipped := gap ++ (ofText text).skipped } := by
  unfold ofText
  rw [Gap.ofText_append h]
  generalize Gap.ofText text = inner
  obtain ⟨skipped, rest, unclosed⟩ := inner
  cases unclosed with
  | true => rfl
  | false =>
    cases rest with
    | nil => rfl
    | cons c rest =>
      simp only [Gap.after, Bool.false_eq_true, if_false]
      split
      · rfl
      · split <;> rfl

/-- What the first lexeme is, if there is no gap in front of it. -/
theorem ofText_cons (hgap : Gap.ofText (c :: text) = ⟨[], c :: text, false⟩) :
    ofText (c :: text) =
      if c = '\n' then ⟨[], .endOfLine, [c], [], text⟩
      else if Operator.startsSymbol c then
        ⟨[], classifyOperator c (operatorExtent [c] text).1, (operatorExtent [c] text).1, [],
          (operatorExtent [c] text).2⟩
      else
        ⟨[], classifyWord (c :: text.takeWhile isWordCharacter),
          c :: text.takeWhile isWordCharacter, [], text.dropWhile isWordCharacter⟩ := by
  rw [ofText, hgap]
  rfl

/-- The lexeme at the start of a text is found again. -/
theorem ofText_text_append (hgap : Gap.ofText (c :: text) = ⟨[], c :: text, false⟩)
    (h : Resumes (ofText (c :: text)).rest rest) :
    ofText ((ofText (c :: text)).text ++ rest) = { ofText (c :: text) with rest } := by
  rw [ofText_cons hgap] at h ⊢
  by_cases hline : c = '\n'
  · rw [if_pos hline] at h ⊢
    rw [List.singleton_append, ofText_cons (h.ofText_cons hgap), if_pos hline]
  · rw [if_neg hline] at h ⊢
    by_cases hsymbol : Operator.startsSymbol c = true
    · rw [if_pos hsymbol] at h ⊢
      obtain ⟨more, htext, hextent, hagain⟩ := operatorExtent_resumes [c] text
      have hresumes := h.append more
      rw [← htext] at hresumes
      simp only
      rw [hextent, List.append_assoc, List.singleton_append,
        ofText_cons (hresumes.ofText_cons hgap), if_neg hline, if_pos hsymbol, hagain rest h,
        hextent]
    · rw [if_neg hsymbol] at h ⊢
      obtain ⟨htake, hdrop⟩ := takeWhile_resumes h
      have hresumes := h.append (text.takeWhile isWordCharacter)
      rw [List.takeWhile_append_dropWhile] at hresumes
      simp only
      rw [List.cons_append, ofText_cons (hresumes.ofText_cons hgap), if_neg hline, if_neg hsymbol,
        htake, hdrop]

/-- Without its gap, a text has the same first lexeme. -/
theorem ofText_text_append_rest (hclosed : (ofText text).kind ≠ .invalid .unterminatedComment) :
    ofText ((ofText text).text ++ (ofText text).rest) = { ofText text with skipped := [] } := by
  have htext := consumed_append_rest text
  have hgap := isGap_skipped text
  rw [consumed, dropped_eq_nil hclosed, List.append_nil, List.append_assoc] at htext
  rw [dropped_eq_nil hclosed, List.append_nil] at hgap
  have hinner := ofText_append hgap
  rw [htext] at hinner
  obtain ⟨hskipped, hkind, htoken, hdropped, hrest⟩ := Lexeme.mk.inj hinner
  rw [Lexeme.mk.injEq]
  exact ⟨List.append_right_eq_self.1 hskipped.symm, hkind.symm, htoken.symm, hdropped.symm,
    hrest.symm⟩

/-- A lexeme is found again, with what is skipped in front of it, unless it lasts to the end of the
file. -/
theorem ofText_resumes (hclosed : (ofText text).kind ≠ .invalid .unterminatedComment)
    (hend : (ofText text).kind ≠ .endOfFile) (h : Resumes (ofText text).rest rest) :
    ofText ((ofText text).consumed ++ rest) = { ofText text with rest } := by
  have hgap := isGap_skipped text
  have htoken := ofText_text_append_rest hclosed
  have hne := text_ne_nil hend
  rw [dropped_eq_nil hclosed, List.append_nil] at hgap
  obtain ⟨c, more, hcons⟩ := List.exists_cons_of_ne_nil hne
  -- there is no gap in front of its characters
  have hnone : Gap.ofText (c :: (more ++ (ofText text).rest)) =
      ⟨[], c :: (more ++ (ofText text).rest), false⟩ := by
    rw [← List.cons_append, ← hcons]
    have hskipped : (Gap.ofText ((ofText text).text ++ (ofText text).rest)).skipped = [] := by
      rw [← skipped_ofText, htoken]
    have hparts := Gap.skipped_append_rest ((ofText text).text ++ (ofText text).rest)
    rw [hskipped, List.nil_append] at hparts
    have hopen : (Gap.ofText ((ofText text).text ++ (ofText text).rest)).unclosed = false :=
      unclosed_eq_false (by rwa [htoken])
    rw [Gap.mk.injEq]
    exact ⟨hskipped, hparts, hopen⟩
  have hresumes : Resumes (ofText (c :: (more ++ (ofText text).rest))).rest rest := by
    rwa [← List.cons_append, ← hcons, htoken]
  have hagain := ofText_text_append hnone hresumes
  rw [← List.cons_append, ← hcons, htoken] at hagain
  -- and the gap is as it was, since the same character follows it
  have hgap' : IsGap (ofText text).skipped ((ofText text).text ++ rest) := by
    refine hgap.congr ?_
    rw [List.head?_append_of_ne_nil _ hne, List.head?_append_of_ne_nil _ hne]
  rw [consumed, dropped_eq_nil hclosed, List.append_nil, List.append_assoc, ofText_append hgap',
    hagain, List.append_nil]

end Lexeme

/-! ### Insertions -/

/-- A blank, or a blank and a block comment, which has no `*/` but at its end. -/
inductive IsTrivia : List Char → Prop
  | blank {c : Char} (hc : c = ' ' ∨ c = '\t') : IsTrivia [c]
  | comment {c : Char} {body : List Char} (hc : c = ' ' ∨ c = '\t') (hbody : Unended body) :
      IsTrivia (c :: '/' :: '*' :: (body ++ ['*', '/']))

namespace IsTrivia

variable {trivia : List Char}

theorem isGap (h : IsTrivia trivia) (after : List Char) : IsGap trivia after := by
  cases h with
  | blank hc => exact .blank hc (.nil after)
  | comment hc hbody => exact .blank hc (.blockComment hbody (.nil after))

theorem resumes (h : IsTrivia trivia) (text after : List Char) : Resumes text (trivia ++ after) := by
  cases h with
  | blank hc => exact .blank (by simpa [isBlank] using hc) _ _
  | comment hc hbody => exact .blank (by simpa [isBlank] using hc) _ _

end IsTrivia

namespace Source

variable {s s' : Source} {k n : Nat} {front gap gap' text trivia rest : List Char}

/-- The same text has the same tokens wherever it stands. -/
theorem reading_tokenAt_congr (h : s'.rest = s.rest) (k : Nat) :
    (s'.tokenAt k).reading = (s.tokenAt k).reading := by
  unfold tokenAt scan Token.reading
  rw [rest_skip_congr h]

/-- The first token is the same where other text comes behind it. -/
theorem scan_resumes (hclosed : s.scan.token.kind ≠ .invalid .unterminatedComment)
    (hend : s.scan.token.isEndOfFile = false)
    (hs' : s'.rest = (Lexeme.ofText s.rest).consumed ++ rest)
    (h : Resumes s.scan.source.rest rest) :
    s'.scan.token.reading = s.scan.token.reading ∧ s'.scan.source.rest = rest := by
  have hkind : (Lexeme.ofText s.rest).kind ≠ .endOfFile := by
    simpa [Token.isEndOfFile, scan] using hend
  have hlexeme := Lexeme.ofText_resumes hclosed hkind h
  rw [← hs'] at hlexeme
  unfold scan
  rw [hlexeme]
  exact ⟨rfl, rfl⟩

/-- The first token is the same behind any gap. -/
theorem scan_gap (hs : s.rest = gap ++ text) (hgap : IsGap gap text) (hs' : s'.rest = gap' ++ text)
    (hgap' : IsGap gap' text) :
    s'.scan.token.reading = s.scan.token.reading ∧ s'.scan.source.rest = s.scan.source.rest := by
  unfold scan
  rw [hs, hs', Lexeme.ofText_append hgap, Lexeme.ofText_append hgap']
  exact ⟨rfl, rfl⟩

/-- Where a token stands, a blank or a comment may be put in front of it without loss. -/
theorem reading_insert_of_scan (hs : s.rest = front ++ text) (hs' : s'.rest = front ++ (trivia ++ text))
    (hplace : (s.tokenAt 0).location.offset = s.position.offset + front.length)
    (hend : (s.tokenAt 0).isEndOfFile = false) (htrivia : IsTrivia trivia)
    (hline : (s.tokenAt 0).isEndOfLine = true → '\n' ∉ trivia) :
    s'.scan.token.reading = s.scan.token.reading ∧ s'.scan.source.rest = s.scan.source.rest := by
  have hkind : (Lexeme.ofText s.rest).kind ≠ .endOfFile := by
    simpa [Token.isEndOfFile, tokenAt, skip, scan] using hend
  have hgap := Lexeme.isGap_skipped s.rest
  have hparts := Lexeme.consumed_append_rest s.rest
  have hlength : (Lexeme.ofText s.rest).skipped.length = front.length :=
    Nat.add_left_cancel ((s.offset_tokenAt 0).symm.trans hplace)
  have hne := Lexeme.text_ne_nil hkind
  rw [Lexeme.consumed, List.append_assoc, List.append_assoc] at hparts
  conv at hparts => rhs; rw [hs]
  obtain ⟨hfront, htext⟩ := List.append_inj hparts hlength
  rw [List.append_assoc, hfront, htext] at hgap
  refine scan_gap hs hgap (hs'.trans (List.append_assoc _ _ _).symm) ?_
  refine hgap.append (htrivia.isGap text) fun hhead => ⟨hline ?_, hhead⟩
  -- a line comment in the gap would end at the token, which is a line break then
  rcases hhead with hnil | hbreak
  · rw [hnil, List.append_eq_nil_iff] at htext
    exact absurd htext.1 hne
  · obtain ⟨more, hmore⟩ := List.head?_eq_some_iff.1 hbreak
    have hlexeme := Lexeme.ofText_append hgap
    rw [← hs, hmore] at hlexeme
    rw [tokenAt, skip, scan, hlexeme]
    simp [Token.isEndOfLine, Lexeme.ofText, Gap.ofText, isBlank]

/-- A comment without an end is the last token but the end of the file. -/
theorem isEndOfFile_of_unterminatedComment
    (hkind : (s.tokenAt k).kind = .invalid .unterminatedComment) (hlt : k < n) :
    (s.tokenAt n).isEndOfFile = true := by
  have hlast : (s.tokenAt (k + 1)).isEndOfFile = true :=
    isEndOfFile_of_rest_skip (by rw [skip_succ]; exact (Lexeme.dropped_of_comment hkind).2)
  exact isEndOfFile_of_le hlast hlt

/-- In front of a token that is not the first one, the first one stands with all that belongs to it. -/
theorem exists_behind_scan (hs : s.rest = front ++ text)
    (hplace : (s.tokenAt (k + 1)).location.offset = s.position.offset + front.length) :
    ∃ front', front = (Lexeme.ofText s.rest).consumed ++ front' ∧
      s.scan.source.rest = front' ++ text ∧
      (s.scan.source.tokenAt k).location.offset =
        s.scan.source.position.offset + front'.length := by
  have hplace' : (s.scan.source.tokenAt k).location.offset = _ := hplace
  have hparts := s.consumed_append_rest_scan
  have hposition : s.scan.source.position.offset =
      s.position.offset + (Lexeme.ofText s.rest).consumed.length := by
    rw [position_scan, Position.offset_after]
  have hle : (Lexeme.ofText s.rest).consumed.length ≤ front.length := by
    have hoffset := s.scan.source.offset_le_tokenAt k
    omega
  obtain ⟨front', rfl⟩ : (Lexeme.ofText s.rest).consumed <+: front :=
    List.prefix_of_prefix_length_le ⟨_, hparts⟩ ⟨_, hs.symm⟩ hle
  refine ⟨front', rfl, ?_, ?_⟩
  · have hboth := hparts.trans hs
    rw [List.append_assoc] at hboth
    exact List.append_cancel_left hboth
  · rw [hplace', hposition, List.length_append, Nat.add_assoc]

/-- With a blank or a comment in front of a token, a source has the same tokens. -/
theorem reading_insert (hs : s.rest = front ++ text) (hs' : s'.rest = front ++ (trivia ++ text))
    (hplace : (s.tokenAt k).location.offset = s.position.offset + front.length)
    (hend : (s.tokenAt k).isEndOfFile = false) (htrivia : IsTrivia trivia)
    (hline : (s.tokenAt k).isEndOfLine = true → '\n' ∉ trivia) (n : Nat) :
    (s'.tokenAt n).reading = (s.tokenAt n).reading := by
  induction k generalizing s s' front n with
  | zero =>
    obtain ⟨hfirst, hrest⟩ := reading_insert_of_scan hs hs' hplace hend htrivia hline
    cases n with
    | zero => exact hfirst
    | succ n => exact reading_tokenAt_congr hrest n
  | succ k ih =>
    have hnot : ¬ (s.tokenAt (k + 1)).isEndOfFile = true := by rw [hend]; decide
    have hfirst : s.scan.token.isEndOfFile = false := by
      rw [Bool.eq_false_iff]
      exact fun h => hnot (isEndOfFile_of_le (n := 0) h (Nat.zero_le _))
    have hclosed : s.scan.token.kind ≠ .invalid .unterminatedComment :=
      fun hkind => hnot (isEndOfFile_of_unterminatedComment (k := 0) hkind (Nat.succ_pos k))
    obtain ⟨front', rfl, hrest, hplace'⟩ := exists_behind_scan hs hplace
    -- the first token ends before the place, and so it is followed by a blank at worst
    have hresumes : Resumes s.scan.source.rest (front' ++ (trivia ++ text)) := by
      rw [hrest]
      exact (htrivia.resumes text text).append front'
    rw [List.append_assoc] at hs'
    obtain ⟨hreading, hrest'⟩ := scan_resumes hclosed hfirst hs' hresumes
    cases n with
    | zero => exact hreading
    | succ n => exact ih hrest hrest' hplace' hend hline n

/-- The bytes of a file with others inserted. -/
theorem rest_insert (file : Path) (bytes more : ByteArray) (i : Nat) :
    (ofBytes file (bytes.extract 0 i ++ more ++ bytes.extract i bytes.size)).rest =
      (ofBytes file bytes).rest.take i ++ (charactersOf more ++ (ofBytes file bytes).rest.drop i) := by
  have hfront : charactersOf (bytes.extract 0 i) = (charactersOf bytes).take i := by
    simp [charactersOf]
  have hback : charactersOf (bytes.extract i bytes.size) = (charactersOf bytes).drop i := by
    have hlength : bytes.size = bytes.data.toList.length := rfl
    simp only [charactersOf, ByteArray.data_extract, Array.toList_extract, hlength,
      List.extract_eq_take_drop, List.map_take, List.map_drop]
    rw [List.take_of_length_le]
    simp
  rw [ofBytes, ofBytes, charactersOf_append, charactersOf_append, hfront, hback, List.append_assoc]

end Source

/-! ### Block comments -/

/-- A block comment and what comes after it. It ends at the first `*/`, or with the file. -/
inductive IsBlockComment : (comment after : List Char) → Prop
  | closed {body : List Char} (hbody : Unended body) (after : List Char) :
      IsBlockComment ('/' :: '*' :: (body ++ ['*', '/'])) after
  | unclosed {body : List Char} (hbody : Unended body) : IsBlockComment ('/' :: '*' :: body) []

/-- A block comment stands at the offset `i` of the source with the tokens `ts`: from the start, or
from the end of a token, there are only blanks and comments up to it. -/
def CommentAt (source : List Char) (ts : List Token) (i : Nat) (comment : List Char) : Prop :=
  ∃ (start : Nat) (gap after : List Char),
    (start = 0 ∨ ∃ t ∈ ts, t.kind ≠ .invalid .unterminatedComment ∧ t.stop = start) ∧
      source.drop start = gap ++ (comment ++ after) ∧ IsGap gap (comment ++ after) ∧
      IsBlockComment comment after ∧ i = start + gap.length

namespace Source

variable {s : Source} {k n : Nat} {gap comment after : List Char}

/-- A line that ends behind the start of a comment ends behind the comment. -/
theorem le_of_isBlockComment (hrest : (skip n s).rest = gap ++ (comment ++ after))
    (hgap : IsGap gap (comment ++ after)) (hcomment : IsBlockComment comment after) (hk : n ≤ k)
    (hline : (s.tokenAt k).isEndOfLine = true) :
    (skip n s).position.offset + gap.length + comment.length ≤ (s.tokenAt k).location.offset := by
  cases hcomment with
  | closed hbody after =>
    -- the comment belongs to the gap
    have hskipped : IsGap (gap ++ '/' :: '*' :: (_ ++ ['*', '/'])) after :=
      hgap.append (.blockComment hbody (.nil after)) (by simp)
    have hlexeme := Lexeme.ofText_append hskipped
    rw [List.append_assoc, ← hrest] at hlexeme
    have hplace := s.offset_tokenAt n
    rw [hlexeme, List.length_append, List.length_append] at hplace
    have hle := s.offset_tokenAt_le hk
    omega
  | unclosed hbody =>
    -- the comment is a token, behind which the file ends
    have hkind : (s.tokenAt n).kind = .invalid .unterminatedComment := by
      rw [tokenAt, scan, hrest, List.append_nil, Lexeme.ofText_append (by simpa using hgap)]
      simp [Lexeme.ofText, Gap.ofText, Gap.ofComment?_of_unended hbody]
    rcases Nat.lt_or_eq_of_le hk with hlt | rfl
    · have hend := isEndOfFile_of_unterminatedComment hkind hlt
      simp only [Token.isEndOfFile, Token.isEndOfLine, beq_iff_eq] at hend hline
      rw [hend] at hline
      contradiction
    · simp [Token.isEndOfLine, hkind] at hline

/-- A token ends before whatever is scanned after it. -/
theorem offset_lt_stop (hk : (s.tokenAt k).isEndOfFile = false) :
    (s.tokenAt k).location.offset < (s.tokenAt k).stop := by
  have hkind : (Lexeme.ofText (skip k s).rest).kind ≠ .endOfFile := by
    simpa [Token.isEndOfFile, tokenAt, scan] using hk
  have hlength := List.length_pos_iff.2 (Lexeme.text_ne_nil hkind)
  rw [stop_tokenAt]
  omega

/-- No line ends inside of a block comment. -/
theorem endOfLine_apart (h : s.position.offset = 0) {m i : Nat}
    (hcomment : CommentAt s.rest ((List.range (m + 1)).map s.tokenAt) i comment)
    (hline : (s.tokenAt k).isEndOfLine = true) :
    (s.tokenAt k).location.offset < i ∨ i + comment.length ≤ (s.tokenAt k).location.offset := by
  obtain ⟨start, gap, after, hstart, hdrop, hgap, hshape, rfl⟩ := hcomment
  rcases hstart with rfl | ⟨t, ht, hkind, rfl⟩
  · have hle := le_of_isBlockComment (n := 0) hdrop hgap hshape (Nat.zero_le k) hline
    rw [skip, h] at hle
    exact .inr hle
  · obtain ⟨n, -, rfl⟩ := List.mem_map.1 ht
    have hposition : (skip (n + 1) s).position.offset = (s.tokenAt n).stop := by
      rw [offset_skip_succ, stop_tokenAt, Lexeme.dropped_eq_nil hkind]
      rfl
    rcases Nat.lt_or_ge n k with hlt | hge
    · have hrest : (skip (n + 1) s).rest = gap ++ (comment ++ after) := by
        rw [rest_skip_eq_drop h, hposition, hdrop]
      have hle := le_of_isBlockComment hrest hgap hshape hlt hline
      rw [hposition] at hle
      exact .inr hle
    · left
      have hend : (s.tokenAt k).isEndOfFile = false := by
        simp only [Token.isEndOfLine, beq_iff_eq] at hline
        simp [Token.isEndOfFile, hline]
      have hstop := offset_lt_stop hend
      have hle : (s.tokenAt k).stop ≤ (s.tokenAt n).stop := by
        rcases Nat.lt_or_eq_of_le hge with hlt | rfl
        · exact (stop_le_of_lt hlt).trans (by rw [Token.stop]; exact Nat.le_add_right _ _)
        · exact Nat.le_refl _
      omega

end Source

/-- With a blank in front of a token, or with a blank and a block comment, a file has the same tokens,
of the same kinds, with the same values, names and errors, and spelled alike. In front of a line break
the comment must not have one. No line ends inside of a block comment. -/
theorem Scanner.trivia_invisible (file : Path) (bytes : ByteArray) :
    let ts := (tokens { source := .ofBytes file bytes }).1
    (∀ t : Token, t ∈ ts → t.isEndOfFile = false → ∀ trivia : ByteArray,
        IsTrivia (Source.charactersOf trivia) →
        (t.isEndOfLine = true → '\n' ∉ Source.charactersOf trivia) →
        (tokens { source := .ofBytes file (bytes.extract 0 t.location.offset ++ trivia ++
          bytes.extract t.location.offset bytes.size) }).1.map Token.reading =
            ts.map Token.reading) ∧
      ∀ (i : Nat) (comment : List Char), CommentAt (Source.charactersOf bytes) ts i comment →
        ∀ t : Token, t ∈ ts → t.isEndOfLine = true →
          t.location.offset < i ∨ i + comment.length ≤ t.location.offset := by
  intro ts
  obtain ⟨m, hbefore, hend⟩ := (Source.ofBytes file bytes).exists_endOfFile
  have hts : ts = (List.range (m + 1)).map (Source.ofBytes file bytes).tokenAt :=
    Source.tokens_eq_map hbefore hend
  rw [hts]
  constructor
  · intro t ht hlast trivia htrivia hline
    obtain ⟨k, -, rfl⟩ := List.mem_map.1 ht
    rw [← hts]
    have hle := (Source.ofBytes file bytes).offset_tokenAt_le_length k
    rw [Source.ofBytes, Nat.zero_add] at hle
    refine Source.map_reading_congr (fun n _ => ?_) hbefore hend
    refine Source.reading_insert (List.take_append_drop _ _).symm
      (Source.rest_insert file bytes trivia _) ?_ hlast htrivia hline n
    exact ((Nat.zero_add _).trans (List.length_take_of_le hle)).symm
  · intro i comment hcomment t ht hline
    obtain ⟨k, -, rfl⟩ := List.mem_map.1 ht
    exact Source.endOfLine_apart rfl hcomment hline

/-- A comment in front of a line break, where it becomes part of the line comment that is there, and
a comment over two lines. -/
theorem Scanner.trivia_invisible_before_line_break :
    let bytes := "x // y\n/* 1\n */ z".toUTF8
    let lineBreak := Token.lineBreakAfter ⟨"main.rin"⟩ ['x', ' ', '/', '/', ' ', 'y']
    let comment := ['/', '*', ' ', '1', '\n', ' ', '*', '/']
    let ts := (tokens { source := .ofBytes ⟨"main.rin"⟩ bytes }).1
    (lineBreak ∈ ts ∧ IsTrivia (Source.charactersOf "\t/* * / /* */".toUTF8) ∧
        (tokens { source := .ofBytes ⟨"main.rin"⟩ "x // y\t/* * / /* */\n/* 1\n */ z".toUTF8 }).1.map
          Token.reading = ts.map Token.reading) ∧
      CommentAt (Source.charactersOf bytes) ts 7 comment ∧
        ∀ t : Token, t ∈ ts → t.isEndOfLine = true →
          t.location.offset < 7 ∨ 15 ≤ t.location.offset := by
  intro bytes lineBreak comment ts
  obtain ⟨hinsert, hcomments⟩ := trivia_invisible ⟨"main.rin"⟩ bytes
  have hmem : lineBreak ∈ ts := by decide +kernel
  have htrivia : IsTrivia (Source.charactersOf "\t/* * / /* */".toUTF8) := by
    have hcharacters : Source.charactersOf "\t/* * / /* */".toUTF8 =
        '\t' :: '/' :: '*' :: ([' ', '*', ' ', '/', ' ', '/', '*', ' '] ++ ['*', '/']) := by
      decide +kernel
    rw [hcharacters]
    exact .comment (.inr rfl) (by unfold Unended; decide)
  have hcomment : CommentAt (Source.charactersOf bytes) ts 7 comment := by
    have hdrop : (Source.charactersOf bytes).drop 7 = [] ++ (comment ++ [' ', 'z']) := by
      decide +kernel
    have hbody : Unended [' ', '1', '\n', ' '] := by
      unfold Unended
      decide
    exact ⟨7, [], [' ', 'z'], .inr ⟨lineBreak, hmem, by decide, by decide⟩, hdrop, .nil _,
      .closed hbody _, rfl⟩
  refine ⟨⟨hmem, htrivia, ?_⟩, hcomment, hcomments 7 comment hcomment⟩
  have hbytes : bytes.extract 0 lineBreak.location.offset ++ "\t/* * / /* */".toUTF8 ++
      bytes.extract lineBreak.location.offset bytes.size =
        "x // y\t/* * / /* */\n/* 1\n */ z".toUTF8 := by
    decide +kernel
  rw [← hbytes]
  exact hinsert lineBreak hmem (by decide) _ htrivia (fun _ => by decide +kernel)

end FloatLang
