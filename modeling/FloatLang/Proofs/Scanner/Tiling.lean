import FloatLang.Proofs.Scanner.HandsOut
import FloatLang.Proofs.Scanner.Shapes

/-!
# Tokens tile their source

A scanner loses nothing of its source. Every token stands at its place with its own characters, no
two tokens overlap, and the characters between two tokens are blanks and comments. The one exception
is a block comment that never ends: it is a token of two characters, and the rest of the source lies
between it and the end of the file.

## Main definitions

* `Token.stop` — the place after a token
* `Tiles` — how the tokens of a text lie in it

## Main results

* `Source.tokens_eq_map` — the tokens that are handed out, by number
* `Source.drop_offset_tokenAt` — what stands at the place of a token
* `Scanner.tokens_tile` — the tokens of every file tile it
-/

namespace FloatLang

/-- The offset of the place right after a token. -/
def Token.stop (t : Token) : Nat := t.location.offset + t.spelling.length

/-- The tokens `ts` are those of the text `source`. -/
structure Tiles (source : List Char) (ts : List Token) : Prop where
  /-- The end of the file is the last token, and it is at the end of the source. -/
  ends : ∃ (front : List Token) (last : Token), ts = front ++ [last] ∧
    (∀ t : Token, t ∈ front → t.isEndOfFile = false) ∧
    last.isEndOfFile = true ∧ last.location.offset = source.length
  /-- Every token is spelled as the source has it in its place. -/
  spelled : ∀ t : Token, t ∈ ts →
    source.extract t.location.offset t.stop = t.spelling.toList
  /-- Tokens stand one after the other and do not overlap. -/
  apart : ts.Pairwise fun t u : Token =>
    t.location.offset < u.location.offset ∧ t.stop ≤ u.location.offset
  /-- In front of the first token is a gap. -/
  before : ∀ t : Token, ts[0]? = some t →
    IsGap (source.extract 0 t.location.offset) (source.drop t.location.offset)
  /-- Between two tokens is a gap, unless the first is a comment that never ends: then the other is
  the end of the file, so that the rest of the source lies between them. -/
  between : ∀ (i : Nat) (t u : Token), ts[i]? = some t → ts[i + 1]? = some u →
    if t.kind = .invalid .unterminatedComment then
      u.isEndOfFile = true ∧ Unended (source.extract t.stop u.location.offset)
    else IsGap (source.extract t.stop u.location.offset) (source.drop u.location.offset)

/-! ### The tokens handed out -/

namespace Scanner

/-- The tokens handed out are those ahead, up to the first end of the file. -/
theorem tokensWithin_eq_map {s : Scanner} {m n : Nat} (hmn : m < n)
    (hbefore : ∀ k < m, (s.ahead k).isEndOfFile = false) (hend : (s.ahead m).isEndOfFile = true) :
    (tokensWithin n s).1 = (List.range (m + 1)).map s.ahead := by
  induction n generalizing s m with
  | zero => contradiction
  | succ n ih =>
    unfold tokensWithin
    cases m with
    | zero =>
      have hnext : s.next.isEndOfFile = true := hend
      rw [if_pos hnext]
      rfl
    | succ m =>
      have hnext : s.next.isEndOfFile = false := hbefore 0 m.succ_pos
      have hmore : (tokensWithin n s.advance).1 = (List.range (m + 1)).map s.advance.ahead := by
        apply ih (Nat.lt_of_succ_lt_succ hmn)
        · intro k hk
          rw [ahead_advance]
          exact hbefore (k + 1) (Nat.succ_lt_succ hk)
        · rwa [ahead_advance]
      rw [if_neg (by simp [hnext])]
      simp only [hmore, List.range_succ_eq_map (n := m + 1), List.map_cons, List.map_map]
      exact congrArg (s.next :: ·) (List.map_congr_left fun k _ => s.ahead_advance k)

end Scanner

/-! ### Places in a source -/

namespace Source

variable {s : Source} {k : Nat}

/-- An end of the file that is not preceded by another comes within the characters that are left. -/
theorem le_length_of_before {n : Nat} (h : ∀ k < n, (s.tokenAt k).isEndOfFile = false) :
    n ≤ s.rest.length := by
  induction n generalizing s with
  | zero => exact Nat.zero_le _
  | succ n ih =>
    have hmore : n ≤ s.scan.source.rest.length := ih fun k hk => h (k + 1) (Nat.succ_lt_succ hk)
    have hfirst := s.length_rest_scan_lt (h 0 n.succ_pos)
    omega

/-- The tokens that are handed out are those of the source, up to the first end of the file. -/
theorem tokens_eq_map {m : Nat} (hbefore : ∀ k < m, (s.tokenAt k).isEndOfFile = false)
    (hend : (s.tokenAt m).isEndOfFile = true) :
    (Scanner.tokens { source := s }).1 = (List.range (m + 1)).map s.tokenAt := by
  have hahead : Scanner.ahead { source := s } = s.tokenAt := by
    funext n
    rw [Scanner.ahead_eq]
    rfl
  rw [Scanner.tokens, Scanner.tokensWithin_eq_map (m := m), hahead]
  · have hle := le_length_of_before hbefore
    simp only [Scanner.remaining, List.countP_nil]
    omega
  · rwa [hahead]
  · rwa [hahead]

/-- What is left after a number of tokens stands at the position after them. -/
theorem rest_skip_eq_drop (h : s.position.offset = 0) (k : Nat) :
    (skip k s).rest = s.rest.drop (skip k s).position.offset := by
  obtain ⟨passed, hpassed, hposition⟩ := s.exists_passed k
  have hlength : (skip k s).position.offset = passed.length := by
    rw [hposition, Position.offset_after, h, Nat.zero_add]
  rw [hlength, hpassed, List.drop_left]

/-- At the place of a token stand its characters, and then what comes after them. -/
theorem drop_offset_tokenAt (h : s.position.offset = 0) (k : Nat) :
    s.rest.drop (s.tokenAt k).location.offset =
      (Lexeme.ofText (skip k s).rest).text ++ (Lexeme.ofText (skip k s).rest).dropped ++
        (Lexeme.ofText (skip k s).rest).rest := by
  have htaken := Lexeme.consumed_append_rest (skip k s).rest
  rw [Lexeme.consumed, List.append_assoc, List.append_assoc] at htaken
  rw [offset_tokenAt, ← List.drop_drop, ← rest_skip_eq_drop h, List.append_assoc]
  generalize Lexeme.ofText (skip k s).rest = l at htaken ⊢
  rw [← htaken, List.drop_left]

theorem stop_tokenAt (s : Source) (k : Nat) :
    (s.tokenAt k).stop =
      (s.tokenAt k).location.offset + (Lexeme.ofText (skip k s).rest).text.length := by
  rw [Token.stop, tokenAt, scan]
  simp

theorem stop_le_of_lt {k' : Nat} (hlt : k < k') :
    (s.tokenAt k).stop ≤ (s.tokenAt k').location.offset := by
  rw [stop_tokenAt]
  exact (s.offset_tokenAt_le_succ k).trans (s.offset_tokenAt_le hlt)

/-- A token is spelled as the source has it in its place. -/
theorem extract_tokenAt (h : s.position.offset = 0) (k : Nat) :
    s.rest.extract (s.tokenAt k).location.offset (s.tokenAt k).stop =
      (s.tokenAt k).spelling.toList := by
  rw [List.extract_eq_take_drop, drop_offset_tokenAt h, stop_tokenAt, Nat.add_sub_cancel_left,
    List.append_assoc, List.take_left]
  exact String.toList_ofList.symm

/-- What is skipped in front of a token is a gap. -/
theorem isGap_before (h : s.position.offset = 0) (k : Nat) :
    IsGap (s.rest.extract (skip k s).position.offset (s.tokenAt k).location.offset)
      (s.rest.drop (s.tokenAt k).location.offset) := by
  have hgap := Lexeme.isGap_skipped (skip k s).rest
  have htaken := Lexeme.consumed_append_rest (skip k s).rest
  rw [Lexeme.consumed, List.append_assoc, List.append_assoc] at htaken
  rw [List.extract_eq_take_drop, ← rest_skip_eq_drop h, drop_offset_tokenAt h, offset_tokenAt,
    Nat.add_sub_cancel_left]
  generalize Lexeme.ofText (skip k s).rest = l at hgap htaken ⊢
  rwa [← htaken, List.take_left]

/-- Where no character is left, there is the end of the file. -/
theorem isEndOfFile_of_rest_skip (h : (skip k s).rest = []) : (s.tokenAt k).isEndOfFile = true := by
  rw [tokenAt, scan, h]
  rfl

/-- The end of the file is at the end of the source. -/
theorem offset_of_isEndOfFile (h : s.position.offset = 0)
    (hend : (s.tokenAt k).isEndOfFile = true) :
    (s.tokenAt k).location.offset = s.rest.length := by
  have hkind : (Lexeme.ofText (skip k s).rest).kind = .endOfFile := by
    simpa [Token.isEndOfFile, tokenAt, scan] using hend
  have hleft := drop_offset_tokenAt h k
  rw [Lexeme.text_of_endOfFile hkind, Lexeme.dropped_eq_nil (by simp [hkind]),
    Lexeme.rest_eq_nil_of_endOfFile hkind] at hleft
  have hle := s.offset_tokenAt_le_length k
  have hge := List.drop_eq_nil_iff.1 hleft
  omega

/-- Between two tokens is a gap, or else the rest of a comment that never ends. -/
theorem between_tokens (h : s.position.offset = 0) (k : Nat) :
    if (s.tokenAt k).kind = .invalid .unterminatedComment then
      (s.tokenAt (k + 1)).isEndOfFile = true ∧
        Unended (s.rest.extract (s.tokenAt k).stop (s.tokenAt (k + 1)).location.offset)
    else
      IsGap (s.rest.extract (s.tokenAt k).stop (s.tokenAt (k + 1)).location.offset)
        (s.rest.drop (s.tokenAt (k + 1)).location.offset) := by
  split
  next hkind =>
    obtain ⟨hdropped, hrest⟩ := Lexeme.dropped_of_comment hkind
    refine ⟨isEndOfFile_of_rest_skip (by rwa [skip_succ]), ?_⟩
    -- from the end of the comment's token to the end of the source there is only what it drops
    have hleft := drop_offset_tokenAt h k
    rw [hrest, List.append_nil] at hleft
    rw [List.extract_eq_take_drop, stop_tokenAt, ← List.drop_drop, hleft, List.drop_left]
    exact fun hin => hdropped (hin.trans (List.take_prefix _ _).isInfix)
  next hkind =>
    have hgap := isGap_before h (k + 1)
    rw [offset_skip_succ, Lexeme.dropped_eq_nil hkind, List.length_nil, Nat.add_zero,
      ← stop_tokenAt] at hgap
    exact hgap

/-- The tokens up to the first end of the file tile the source. -/
theorem tiles {m : Nat} (h : s.position.offset = 0)
    (hbefore : ∀ k < m, (s.tokenAt k).isEndOfFile = false)
    (hend : (s.tokenAt m).isEndOfFile = true) :
    Tiles s.rest ((List.range (m + 1)).map s.tokenAt) := by
  have hget {i : Nat} {t : Token}
      (ht : ((List.range (m + 1)).map s.tokenAt)[i]? = some t) : s.tokenAt i = t := by
    rw [List.getElem?_map] at ht
    obtain ⟨j, hj, rfl⟩ := Option.map_eq_some_iff.1 ht
    obtain ⟨hlt, rfl⟩ := List.getElem?_eq_some_iff.1 hj
    rw [List.getElem_range]
  constructor
  case ends =>
    refine ⟨(List.range m).map s.tokenAt, s.tokenAt m, ?_, fun t ht => ?_, hend,
      offset_of_isEndOfFile h hend⟩
    · rw [List.range_succ, List.map_append, List.map_singleton]
    · obtain ⟨k, hk, rfl⟩ := List.mem_map.1 ht
      exact hbefore k (List.mem_range.1 hk)
  case spelled =>
    intro t ht
    obtain ⟨k, -, rfl⟩ := List.mem_map.1 ht
    exact extract_tokenAt h k
  case apart =>
    rw [List.pairwise_map]
    apply List.pairwise_lt_range.imp_of_mem
    intro i j _ hj hlt
    have hi : i < m := Nat.lt_of_lt_of_le hlt (Nat.le_of_lt_succ (List.mem_range.1 hj))
    exact ⟨offset_lt (hbefore i hi) hlt, stop_le_of_lt hlt⟩
  case before =>
    intro t ht
    obtain rfl := hget ht
    have hgap := isGap_before h 0
    rwa [skip, h] at hgap
  case between =>
    intro i t u ht hu
    obtain rfl := hget ht
    obtain rfl := hget hu
    exact between_tokens h i

end Source

/-- The tokens of every file, up to and including the end of the file, tile it. -/
theorem Scanner.tokens_tile (file : Path) (bytes : ByteArray) :
    Tiles (Source.charactersOf bytes) (Scanner.tokens { source := .ofBytes file bytes }).1 := by
  obtain ⟨m, hbefore, hend⟩ := (Source.ofBytes file bytes).exists_endOfFile
  rw [Source.tokens_eq_map hbefore hend]
  exact Source.tiles rfl hbefore hend

end FloatLang
