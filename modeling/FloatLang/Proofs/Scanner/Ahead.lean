import FloatLang.Scanner

/-!
# The tokens ahead of a scanner

What a scanner hands out is settled by its source and the tokens it has read ahead: looking
ahead moves tokens from one to the other and changes none of them, and handing out a token
drops the first.

## Main definitions

* `Source.skip`, `Source.tokenAt` — the tokens of a source by number

## Main results

* `Scanner.ahead_eq` — the tokens ahead are those read ahead and then those of the source
* `Scanner.ahead_advance` — handing out a token moves the others up
* `Scanner.remaining_advance_lt` — a token handed out before the end of the file counts
-/

namespace FloatLang

/-! ### Lexemes -/

theorem classifyWord_ne_endOfFile (word : List Char) : classifyWord word ≠ .endOfFile := by
  unfold classifyWord
  repeat' split
  all_goals simp

theorem classifyOperator_ne_endOfFile (first : Char) (symbol : List Char) :
    classifyOperator first symbol ≠ .endOfFile := by
  unfold classifyOperator
  split <;> simp

theorem length_operatorExtent_le (symbol rest : List Char) :
    (operatorExtent symbol rest).2.length ≤ rest.length := by
  induction rest generalizing symbol with
  | nil => simp [operatorExtent]
  | cons c rest ih =>
    unfold operatorExtent
    split
    · exact Nat.le_succ_of_le (ih _)
    · exact Nat.le_refl _

namespace Gap

theorem length_rest_le (text : List Char) : (ofText text).rest.length ≤ text.length := by
  have h := congrArg List.length (skipped_append_rest text)
  rw [List.length_append] at h
  omega

end Gap

namespace Lexeme

/-- The end of the file comes after the last character. -/
theorem rest_eq_nil_of_endOfFile {text : List Char} (h : (ofText text).kind = .endOfFile) :
    (ofText text).rest = [] := by
  unfold ofText at h ⊢
  dsimp only at h ⊢
  split
  · rfl
  next hclosed =>
    rw [if_neg hclosed] at h
    split
    · rfl
    next c rest hrest =>
      rw [hrest] at h
      dsimp only at h
      split at h
      · simp at h
      · split at h
        · exact absurd h (classifyOperator_ne_endOfFile _ _)
        · exact absurd h (classifyWord_ne_endOfFile _)

/-- Every other token has a character of its own. -/
theorem length_rest_lt {text : List Char} (h : (ofText text).kind ≠ .endOfFile) :
    (ofText text).rest.length < text.length := by
  have hgap := Gap.length_rest_le text
  -- the gap may be empty, but the first character after it is the token's own
  unfold ofText at h ⊢
  dsimp only at h ⊢
  split
  next hopen =>
    cases text with
    | nil => simp [Gap.ofText] at hopen
    | cons c text => simp
  next hclosed =>
    rw [if_neg hclosed] at h
    split
    next hrest => simp [hrest] at h
    next c rest hrest =>
      rw [hrest, List.length_cons] at hgap
      have hword := (List.dropWhile_suffix isWordCharacter (l := rest)).length_le
      have hsymbol := length_operatorExtent_le [c] rest
      split
      · exact hgap
      · split
        · exact Nat.lt_of_le_of_lt hsymbol hgap
        · exact Nat.lt_of_le_of_lt hword hgap

end Lexeme

/-! ### Sources -/

namespace Source

variable (s : Source)

/-- The source after a number of tokens. -/
def skip : Nat → Source → Source
  | 0, s => s
  | n + 1, s => skip n s.scan.source

/-- A token of a source, counted from zero. -/
def tokenAt (n : Nat) : Token := (skip n s).scan.token

theorem tokenAt_zero : s.tokenAt 0 = s.scan.token := rfl

theorem tokenAt_succ (n : Nat) : s.tokenAt (n + 1) = s.scan.source.tokenAt n := rfl

theorem rest_scan_of_isEndOfFile (h : s.scan.token.isEndOfFile = true) :
    s.scan.source.rest = [] :=
  Lexeme.rest_eq_nil_of_endOfFile (by simpa [scan, Token.isEndOfFile] using h)

theorem length_rest_scan_lt (h : s.scan.token.isEndOfFile = false) :
    s.scan.source.rest.length < s.rest.length :=
  Lexeme.length_rest_lt (by simpa [scan, Token.isEndOfFile] using h)

theorem length_rest_scan_le : s.scan.source.rest.length ≤ s.rest.length := by
  cases h : s.scan.token.isEndOfFile with
  | true => simp [s.rest_scan_of_isEndOfFile h]
  | false => exact Nat.le_of_lt (s.length_rest_scan_lt h)

/-- After the end of the file comes the end of the file. -/
theorem isEndOfFile_tokenAt_succ (n : Nat) (h : (s.tokenAt n).isEndOfFile = true) :
    (s.tokenAt (n + 1)).isEndOfFile = true := by
  induction n generalizing s with
  | zero =>
    -- with no character left, the end of the file is found again
    rw [tokenAt_succ, tokenAt_zero, scan, s.rest_scan_of_isEndOfFile h]
    rfl
  | succ n ih => exact ih s.scan.source h

variable {s} in
/-- After the end of the file there is nothing but the end of the file. -/
theorem isEndOfFile_of_le {n k : Nat} (hn : (s.tokenAt n).isEndOfFile = true) (hnk : n ≤ k) :
    (s.tokenAt k).isEndOfFile = true := by
  induction hnk with
  | refl => exact hn
  | step _ ih => exact s.isEndOfFile_tokenAt_succ _ ih

end Source

/-! ### Scanners -/

namespace Scanner

variable (s : Scanner)

theorem readAheadTimes_succ (n : Nat) : readAheadTimes (n + 1) s = readAheadTimes n s.readAhead :=
  rfl

theorem lookahead_readAheadTimes (n : Nat) :
    (readAheadTimes n s).lookahead = s.lookahead ++ (List.range n).map s.source.tokenAt := by
  induction n generalizing s with
  | zero => simp [readAheadTimes]
  | succ n ih =>
    -- the first token read ahead moves the source, so the induction is over every scanner
    rw [readAheadTimes_succ, ih, List.range_succ_eq_map]
    simp [readAhead, Source.tokenAt_zero, Source.tokenAt_succ, Function.comp_def]

/-- The tokens ahead are those read ahead already and then those of the source. -/
theorem ahead_eq (n : Nat) :
    s.ahead n = (s.lookahead[n]?).getD (s.source.tokenAt (n - s.lookahead.length)) := by
  rw [ahead, fill, lookahead_readAheadTimes, List.getElem?_append]
  split
  next h => rw [List.getElem?_eq_getElem h, Option.getD_some, Option.getD_some]
  next h =>
    rw [List.getElem?_eq_none (Nat.le_of_not_lt h), List.getElem?_map,
      List.getElem?_range (by omega)]
    rfl

/-- What a scanner notes and reports has no bearing on the tokens ahead. -/
theorem ahead_congr {s s' : Scanner} (hsource : s'.source = s.source)
    (hlookahead : s'.lookahead = s.lookahead) : s'.ahead = s.ahead := by
  funext n
  rw [ahead_eq, ahead_eq, hsource, hlookahead]

theorem ahead_fill_eq (n : Nat) : (s.fill n).ahead = s.ahead := funext (s.ahead_fill n)

@[simp] theorem source_acknowledge (t : Token) : (s.acknowledge t).source = s.source := by
  unfold acknowledge
  split <;> rfl

@[simp] theorem lookahead_acknowledge (t : Token) :
    (s.acknowledge t).lookahead = s.lookahead := by
  unfold acknowledge
  split <;> rfl

/-- Handing out a token moves the tokens after it up by one place. -/
@[simp] theorem ahead_advance (n : Nat) : s.advance.ahead n = s.ahead (n + 1) := by
  rw [ahead_eq, ahead_eq]
  simp only [advance, source_acknowledge, lookahead_acknowledge]
  -- the token handed out was read ahead before, or is the first of the source
  cases h : s.lookahead with
  | nil => simp [fill, h, readAheadTimes, readAhead, Source.tokenAt_succ]
  | cons t rest => simp [fill, h, readAheadTimes]

/-! ### The token handed out last -/

theorem last?_readAheadTimes (n : Nat) : (readAheadTimes n s).last? = s.last? := by
  induction n generalizing s with
  | zero => rfl
  | succ n ih => exact ih s.readAhead

@[simp] theorem last?_fill (n : Nat) : (s.fill n).last? = s.last? := s.last?_readAheadTimes _

@[simp] theorem last?_advance : s.advance.last? = some s.next := by
  unfold advance acknowledge
  dsimp only
  split <;> rfl

/-! ### What is left -/

theorem remaining_readAhead_le : s.readAhead.remaining ≤ s.remaining := by
  simp only [remaining, readAhead, List.countP_append, List.countP_singleton]
  -- what is read ahead counts for one token, but has taken a character of the source
  cases h : s.source.scan.token.isEndOfFile with
  | true => simp [s.source.rest_scan_of_isEndOfFile h]
  | false =>
    have := s.source.length_rest_scan_lt h
    simp only [Bool.not_false, ite_true]
    omega

theorem remaining_readAheadTimes_le (n : Nat) : (readAheadTimes n s).remaining ≤ s.remaining := by
  induction n generalizing s with
  | zero => exact Nat.le_refl _
  | succ n ih => exact Nat.le_trans (ih s.readAhead) s.remaining_readAhead_le

theorem remaining_fill_le (n : Nat) : (s.fill n).remaining ≤ s.remaining :=
  s.remaining_readAheadTimes_le _

/-- The tokens read ahead before the next one is handed out: the next one is the first. -/
theorem lookahead_fill_one : (s.fill 1).lookahead = s.next :: (s.fill 1).lookahead.tail := by
  have hlength : 0 < (s.fill 1).lookahead.length := by
    rw [length_lookahead_fill]
    omega
  have hnext : (s.fill 1).lookahead[0]? = some s.next := by
    rw [next, ahead, List.getElem?_eq_getElem hlength, Option.getD_some]
  cases h : (s.fill 1).lookahead with
  | nil => simp [h] at hlength
  | cons t rest =>
    rw [h] at hnext
    simpa using hnext

theorem remaining_advance_eq :
    s.advance.remaining + [s.next].countP (!·.isEndOfFile) = (s.fill 1).remaining := by
  conv => rhs; rw [remaining, lookahead_fill_one]
  simp only [remaining, advance, lookahead_acknowledge, source_acknowledge, List.countP_cons,
    List.countP_nil]
  omega

/-- Handing out anything but the end of the file brings it nearer. -/
theorem remaining_advance_lt (h : s.next.isEndOfFile = false) :
    s.advance.remaining < s.remaining := by
  have heq := s.remaining_advance_eq
  have hfill := s.remaining_fill_le 1
  simp only [List.countP_singleton, h, Bool.not_false, ite_true] at heq
  omega

end Scanner

end FloatLang
