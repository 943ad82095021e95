import FloatLang.Proofs.Scanner.Lines
import FloatLang.Proofs.Scanner.Peeking
import Mathlib.Data.List.Induction

/-!
# Positions are exact

A source keeps its position while characters are taken from it, one after the other, and a scanner
counts lines for itself, with every line break that is a token and those inside of block comments. Both
agree with the text at every moment: the line is the number of line breaks in what has been taken, and
the column the number of characters behind the last of them. So are the places of all tokens, that of
the end of the file and those behind comments over many lines among them.

## Main definitions

* `Position.ofOffset` — the place in front of a character, read off the text
* `Scanner.Step`, `Scanner.steps` — a session in which the scanner may start over with other files
* `Scanner.shown` — the tokens that come to light with a request
* `Token.StandsIn` — a token with the place of its first character
* `Scanner.Exact` — everything that a scanner tells about places is right

## Main results

* `Position.after_eq_ofOffset` — a position that is kept is the one that is read off
* `Scanner.HandsOut.lineCount` — line breaks are counted when they are taken
* `Scanner.IsReading.steps` — a session reads the file that it was started with last
* `Scanner.positions_exact` — so everything is right after every session
-/

namespace FloatLang

/-! ### Positions read off a text -/

namespace Position

/-- The place in front of the character with number `k`: the line breaks that come before it, and the
characters behind the last of these. -/
def ofOffset (text : List Char) (k : Nat) : Position where
  offset := k
  line := (text.take k).count '\n'
  column := ((text.take k).reverse.takeWhile (· != '\n')).length

theorem column_after (text : List Char) :
    (({} : Position).after text).column = (text.reverse.takeWhile (· != '\n')).length := by
  induction text using List.reverseRecOn with
  | nil => rfl
  | append_singleton text c ih =>
    rw [after_append, after_cons, after_nil, next, List.reverse_append, List.reverse_singleton,
      List.singleton_append, List.takeWhile_cons]
    by_cases hc : c = '\n'
    · simp [hc]
    · simp [hc, ih]

/-- A position that is kept while characters are taken is the one that is read off the text. -/
theorem after_eq_ofOffset {passed text : List Char} (h : passed <+: text) :
    ({} : Position).after passed = ofOffset text passed.length := by
  obtain ⟨rest, rfl⟩ := h
  have hoffset := ({} : Position).offset_after passed
  have hline := ({} : Position).line_after passed
  have hcolumn := column_after passed
  rw [Nat.zero_add] at hoffset hline
  rw [ofOffset, List.take_left, ← hline, ← hcolumn]
  conv => rhs; rw [← hoffset]

end Position

/-- A token of the text: its location is that of its first character, or the end of the text if it is
the end of the file. -/
structure Token.StandsIn (t : Token) (file : Path) (text : List Char) : Prop where
  location : t.location = ⟨.ofOffset text t.location.offset, file⟩
  /-- From there on stand its characters. -/
  spelled : text.extract t.location.offset t.stop = t.spelling.toList
  starts : t.isEndOfFile = false → t.location.offset < t.stop
  ends : t.isEndOfFile = true → t.location.offset = text.length

theorem Source.standsIn_tokenAt {s : Source} (h : s.position = {}) (k : Nat) :
    (s.tokenAt k).StandsIn s.file s.rest where
  location := by
    obtain ⟨passed, hpassed, hplace⟩ := s.exists_place k
    rw [hplace, h, Position.after_eq_ofOffset hpassed]
    rfl
  spelled := extract_tokenAt (congrArg Position.offset h) k
  starts hk := by
    have hkind : (Lexeme.ofText (skip k s).rest).kind ≠ .endOfFile := by
      simpa [Token.isEndOfFile, tokenAt, scan] using hk
    have hlength := List.length_pos_iff.2 (Lexeme.text_ne_nil hkind)
    rw [stop_tokenAt]
    omega
  ends hk := offset_of_isEndOfFile (congrArg Position.offset h) hk

namespace Scanner

/-! ### Sessions -/

/-- A step of a session: a request, or a new start with another file. -/
inductive Step
  | ask (r : Request)
  | restart (file : Path) (bytes : ByteArray)

/-- What a step leaves of a scanner. -/
def step (s : Scanner) : Step → Scanner
  | .ask r => (s.perform r).2
  | .restart file bytes => s.reset (.ofBytes file bytes)

/-- What a session leaves of a scanner. -/
def steps : List Step → Scanner → Scanner
  | [], s => s
  | a :: as, s => steps as (s.step a)

/-- The source that a session has started with last. -/
def origin : List Step → Source → Source
  | [], source => source
  | .ask _ :: as, source => origin as source
  | .restart file bytes :: as, _ => origin as (.ofBytes file bytes)

/-- The tokens that come to light with a request, ahead or behind. -/
def shown (s : Scanner) : Request → List Token
  | .peek n => [s.ahead n]
  | .last => s.last?.toList
  | r => s.takes r

/-- Everything that a scanner tells about places in the text that it reads is right. -/
structure Exact (whole : Source) (s : Scanner) : Prop where
  /-- What has been taken is the front of the text. The source stands behind it, and the lines in it
  are counted. -/
  taken : ∃ k ≤ whole.rest.length, s.source.rest = whole.rest.drop k ∧
    s.source.location = ⟨.ofOffset whole.rest k, whole.file⟩ ∧
    s.lineCount = (Position.ofOffset whole.rest k).line
  /-- Every token that is shown or handed out next has its place in the text. -/
  shown : ∀ r : Request, ∀ t ∈ s.shown r, t.StandsIn whole.file whole.rest
  /-- The tokens ahead come one after the other. -/
  apart : ∀ m n : Nat, m < n → (s.ahead m).stop ≤ (s.ahead n).location.offset

/-! ### What handing out keeps -/

namespace HandsOut

variable {s s' : Scanner} {ts : List Token}

theorem file_readAheadTimes (n : Nat) (s : Scanner) :
    (readAheadTimes n s).source.file = s.source.file := by
  induction n generalizing s with
  | zero => rfl
  | succ n ih => exact ih s.readAhead

/-- The source stays that of one file. -/
theorem file (h : HandsOut s ts s') : s'.source.file = s.source.file := by
  induction h with
  | refl s => rfl
  | @advance s _ _ _ ih =>
    rw [ih, Scanner.advance, source_acknowledge]
    exact file_readAheadTimes _ s
  | @fill s _ _ n _ ih => exact ih.trans (file_readAheadTimes _ s)
  | report r _ ih => exact ih
  | forget hf _ ih => rw [ih, source_forget? hf]
  | flush _ ih => exact ih

/-- Line breaks are counted when they are taken. -/
theorem lineCount (h : HandsOut s ts s') :
    s'.lineCount + s'.source.rest.count '\n' = s.lineCount + s.source.rest.count '\n' := by
  induction h with
  | refl s => rfl
  | @advance s _ _ _ ih => exact ih.trans s.lineCount_advance
  | @fill s _ _ n _ ih => exact ih.trans (s.lineCount_fill n)
  | report r _ ih => exact ih
  | forget hf _ ih => rw [ih, eq_of_forget? hf]
  | flush _ ih => exact ih

end HandsOut

/-! ### Reading one file -/

/-- The scanner was started with a source, and has handed out tokens since. -/
def IsReading (whole : Source) (s : Scanner) : Prop :=
  ∃ (reports : List Report) (ts : List Token), HandsOut { source := whole, reports } ts s

namespace IsReading

variable {whole : Source} {s : Scanner}

theorem start (whole : Source) (reports : List Report) :
    IsReading whole { source := whole, reports } := ⟨reports, [], .refl _⟩

/-- A request hands out tokens of the same source, and a new start leaves it. -/
theorem step (h : s.IsReading whole) (a : Step) : (s.step a).IsReading (origin [a] whole) := by
  cases a with
  | ask r =>
    obtain ⟨reports, ts, hts⟩ := h
    exact ⟨reports, _, hts.trans (s.handsOut_perform r)⟩
  | restart file bytes => exact .start _ s.reports

/-- A session reads the file that it was started with last. -/
theorem steps (h : s.IsReading whole) (as : List Step) :
    (Scanner.steps as s).IsReading (origin as whole) := by
  induction as generalizing s whole with
  | nil => exact h
  | cons a as ih =>
    have hnext := ih (h.step a)
    cases a <;> exact hnext

/-- The tokens ahead are tokens of the source. -/
theorem ahead (h : s.IsReading whole) : ∃ m, ∀ n, s.ahead n = whole.tokenAt (n + m) := by
  obtain ⟨reports, ts, hts⟩ := h
  refine ⟨ts.length, fun n => ?_⟩
  rw [hts.ahead, ahead_eq]
  rfl

/-- So are those that are handed out, and the one that was handed out last. -/
theorem shown (h : s.IsReading whole) (r : Request) :
    ∀ t ∈ s.shown r, ∃ n, t = whole.tokenAt n := by
  obtain ⟨m, hm⟩ := h.ahead
  have htakes : ∀ t ∈ s.takes r, ∃ n, t = whole.tokenAt n := by
    intro t ht
    rw [(s.handsOut_perform r).tokens_eq] at ht
    obtain ⟨n, -, rfl⟩ := List.mem_map.1 ht
    exact ⟨n + m, hm n⟩
  intro t ht
  cases r with
  | peek n =>
    obtain rfl := List.mem_singleton.1 ht
    exact ⟨n + m, hm n⟩
  | last =>
    obtain ⟨reports, ts, hts⟩ := h
    have hlast : ts.getLast? = some t := by
      have hend := hts.last?
      rw [Option.or_none] at hend
      rw [← hend]
      exact Option.mem_toList.1 ht
    have hmem := List.mem_of_getLast? hlast
    rw [hts.tokens_eq] at hmem
    obtain ⟨n, -, rfl⟩ := List.mem_map.1 hmem
    exact ⟨n, ahead_eq _ n⟩
  | next | skipLine | flush | forget => exact htakes t ht

/-- So a scanner that reads a file from its start is exact. -/
theorem exact (h : s.IsReading whole) (hposition : whole.position = {}) : s.Exact whole where
  taken := by
    obtain ⟨reports, ts, hts⟩ := h
    obtain ⟨passed, hpassed, hmoved⟩ := hts.source
    have hfile := hts.file
    have hlines := hts.lineCount
    simp only at hpassed hmoved hfile hlines
    have hprefix : passed <+: whole.rest := ⟨_, hpassed.symm⟩
    refine ⟨passed.length, hprefix.length_le, ?_, ?_, ?_⟩
    · rw [hpassed, List.drop_left]
    · rw [Source.location, hmoved, hfile, hposition, Position.after_eq_ofOffset hprefix]
    · have hline : (Position.ofOffset whole.rest passed.length).line = passed.count '\n' := by
        rw [Position.ofOffset, hpassed, List.take_left]
      rw [hpassed, List.count_append] at hlines
      omega
  shown r t ht := by
    obtain ⟨n, rfl⟩ := h.shown r t ht
    exact Source.standsIn_tokenAt hposition n
  apart m n hlt := by
    obtain ⟨k, hk⟩ := h.ahead
    rw [hk, hk]
    exact Source.stop_le_of_lt (Nat.add_lt_add_right hlt k)

end IsReading

theorem position_origin (as : List Step) {source : Source} (h : source.position = {}) :
    (origin as source).position = {} := by
  induction as generalizing source with
  | nil => exact h
  | cons a as ih =>
    cases a with
    | ask r => exact ih h
    | restart file bytes => exact ih rfl

/-- Whatever is asked of a scanner, and whatever files it starts over with: when characters have been
taken from the text of a file, its source stands at the place behind them, its lines are those that are
counted, and all tokens that it shows or hands out have the places of their first characters. -/
theorem positions_exact (file : Path) (bytes : ByteArray) (as : List Step) :
    (steps as { source := .ofBytes file bytes }).Exact (origin as (.ofBytes file bytes)) :=
  ((IsReading.start (.ofBytes file bytes) []).steps as).exact (position_origin as rfl)

/-- The line breaks of a comment that never ends are counted as soon as it is looked at. -/
example : (steps [.ask (.peek 1)] { source := .ofText ⟨"main.rin"⟩ "\n/*\n\n" }).lineCount = 3 := by
  decide +kernel

end Scanner

end FloatLang
