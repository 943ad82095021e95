import FloatLang.Source
import FloatLang.Problem

/-!
# Scanners

A scanner hands out the tokens of a source with any amount of lookahead, and keeps watch over
brackets. Everything it reports, it reports when a token is handed out: looking ahead reads the
source and is otherwise without effect.

## Main definitions

* `Scanner` — a source, the tokens read ahead, the brackets still open and what was reported
* `Scanner.fill`, `Scanner.ahead` — lookahead
* `Scanner.objection?` — what is wrong with a token that is handed out
* `Scanner.advance` — hands out the next token
* `Scanner.skipLine`, `Scanner.tokens` — hands out the rest of a line, or of the source
* `Scanner.flush`, `Scanner.forget?` — gives up on open brackets

## Main results

* `Scanner.ahead_fill` — reading ahead changes no token ahead
-/

namespace FloatLang

/-- An opening bracket that nothing has closed yet. -/
structure Opening where
  bracket : Bracket
  location : Location
  deriving DecidableEq, Repr

/-- A reader of tokens. -/
structure Scanner where
  source : Source
  /-- The tokens read ahead, the next one first. -/
  lookahead : List Token := []
  /-- The brackets handed out and not yet closed, the innermost first. -/
  pending : List Opening := []
  /-- The line breaks read so far. -/
  lineCount : Nat := 0
  /-- Everything reported so far. -/
  reports : List Report := []
  /-- The token handed out last. -/
  last? : Option Token := none
  deriving DecidableEq, Repr

namespace Scanner

/-- Reads one more token ahead. -/
def readAhead (s : Scanner) : Scanner :=
  let scanned := s.source.scan
  { s with
    source := scanned.source
    lookahead := s.lookahead ++ [scanned.token]
    lineCount := s.lineCount + scanned.lineBreaks }

/-- Reads a number of tokens ahead. -/
def readAheadTimes : Nat → Scanner → Scanner
  | 0, s => s
  | n + 1, s => readAheadTimes n s.readAhead

/-- Reads ahead until at least `n` tokens are waiting. -/
def fill (s : Scanner) (n : Nat) : Scanner := readAheadTimes (n - s.lookahead.length) s

/-- The token `n` places after the next one. -/
def ahead (s : Scanner) (n : Nat) : Token :=
  ((s.fill (n + 1)).lookahead[n]?).getD default

/-- The next token. -/
def next (s : Scanner) : Token := s.ahead 0

section Lookahead

variable (s : Scanner)

@[simp] theorem length_lookahead_readAheadTimes (n : Nat) :
    (readAheadTimes n s).lookahead.length = s.lookahead.length + n := by
  induction n generalizing s with
  | zero => rfl
  | succ n ih =>
    rw [readAheadTimes, ih]
    simp only [readAhead, List.length_append, List.length_singleton]
    omega

theorem readAheadTimes_add (m n : Nat) :
    readAheadTimes (m + n) s = readAheadTimes n (readAheadTimes m s) := by
  induction m generalizing s with
  | zero => simp [readAheadTimes]
  | succ m ih => rw [Nat.succ_add, readAheadTimes, readAheadTimes, ih]

/-- Reading ahead keeps the tokens that wait already. -/
theorem lookahead_isPrefix_readAheadTimes (n : Nat) :
    s.lookahead <+: (readAheadTimes n s).lookahead := by
  induction n generalizing s with
  | zero => exact List.prefix_refl _
  | succ n ih => exact (List.prefix_append _ _).trans (ih s.readAhead)

@[simp] theorem length_lookahead_fill (n : Nat) :
    (s.fill n).lookahead.length = max s.lookahead.length n := by
  simp only [fill, length_lookahead_readAheadTimes]
  omega

/-- Of two numbers of tokens to read ahead, the greater counts. -/
theorem fill_fill (m n : Nat) : (s.fill m).fill n = s.fill (max m n) := by
  simp only [fill, length_lookahead_readAheadTimes, ← readAheadTimes_add]
  congr 1
  omega

theorem getElem?_lookahead_fill {n k : Nat} (h : n < k) :
    (s.fill k).lookahead[n]? = (s.fill (n + 1)).lookahead[n]? := by
  have hfill : s.fill k = (s.fill (n + 1)).fill k := by rw [fill_fill, Nat.max_eq_right h]
  obtain ⟨more, hmore⟩ := lookahead_isPrefix_readAheadTimes (s.fill (n + 1))
    (k - (s.fill (n + 1)).lookahead.length)
  rw [hfill, fill, ← hmore, List.getElem?_append_left]
  rw [length_lookahead_fill]
  omega

/-- Reading ahead changes no token ahead. -/
@[simp] theorem ahead_fill (m n : Nat) : (s.fill m).ahead n = s.ahead n := by
  rw [ahead, ahead, fill_fill, getElem?_lookahead_fill s (Nat.lt_of_lt_of_le n.lt_succ_self
    (Nat.le_max_right m (n + 1)))]

@[simp] theorem next_fill (n : Nat) : (s.fill n).next = s.next := s.ahead_fill n 0

end Lookahead

/-- Whether anything but the end of the file is left. -/
def hasNext (s : Scanner) : Bool :=
  s.lookahead.any (!·.isEndOfFile) || s.source.hasNext

/-- An upper bound for the tokens left before the end of the file. -/
def remaining (s : Scanner) : Nat :=
  s.lookahead.countP (!·.isEndOfFile) + s.source.rest.length

/-- Records a report. -/
def report (s : Scanner) (r : Report) : Scanner := { s with reports := s.reports ++ [r] }

/-- Records an error. -/
def error (s : Scanner) (location : Location) (problem : Problem) : Scanner :=
  s.report { location, problem }

/-- What is wrong with handing out a token now: it is invalid, or it closes a bracket other than
the innermost open one. -/
def objection? (s : Scanner) (t : Token) : Option Problem :=
  match t.kind with
  | .invalid error => some (.lexical error)
  | .operator op =>
    match op.closes? with
    | some bracket =>
      if s.pending.head?.map Opening.bracket = some bracket then none else some (.unopened op)
    | none => none
  | _ => none

/-- The open brackets after a token is handed out. -/
def pendingAfter (s : Scanner) (t : Token) : List Opening :=
  match t.operator? with
  | none => s.pending
  | some op =>
    match op.opens? with
    | some bracket => ⟨bracket, t.location⟩ :: s.pending
    | none =>
      if op.isClosing && (s.objection? t).isNone then s.pending.tail else s.pending

/-- Takes note of a token that is handed out. -/
def acknowledge (s : Scanner) (t : Token) : Scanner :=
  let noted := { s with pending := s.pendingAfter t, last? := some t }
  match s.objection? t with
  | some problem => noted.error t.location problem
  | none => noted

/-- Hands out the next token, which is `s.next`. -/
def advance (s : Scanner) : Scanner :=
  let filled := s.fill 1
  { filled with lookahead := filled.lookahead.tail }.acknowledge s.next

/-- Hands out tokens, at most `n`, up to and including the first that ends a line. -/
def skipLineWithin : Nat → Scanner → Scanner
  | 0, s => s
  | n + 1, s => if s.next.endsLine then s.advance else skipLineWithin n s.advance

/-- Hands out the rest of the line and what ends it. -/
def skipLine (s : Scanner) : Scanner := skipLineWithin (s.remaining + 1) s

/-- The tokens handed out, at most `n`, up to and including the first end of file. -/
def tokensWithin : Nat → Scanner → List Token × Scanner
  | 0, s => ([], s)
  | n + 1, s =>
    if s.next.isEndOfFile then ([s.next], s.advance)
    else
      let (tokens, rest) := tokensWithin n s.advance
      (s.next :: tokens, rest)

/-- Hands out every token up to and including the end of the file. -/
def tokens (s : Scanner) : List Token × Scanner := tokensWithin (s.remaining + 1) s

/-- The report that a bracket is never closed. -/
def unclosedReport (o : Opening) : Report :=
  { location := o.location, problem := .unclosed o.bracket }

/-- Reports every open bracket, the innermost first, and forgets them. -/
def flush (s : Scanner) : Scanner :=
  { s with pending := [], reports := s.reports ++ s.pending.map unclosedReport }

/-- Stops waiting for the innermost of the brackets opened at a place. -/
def forget? (s : Scanner) (opened : Location) : Option (Bracket × Scanner) :=
  match s.pending.find? (·.location.same opened) with
  | none => none
  | some o =>
    some (o.bracket, { s with pending := s.pending.eraseP (·.location.same opened) })

/-- Starts over with another source. What was reported stays. -/
def reset (s : Scanner) (source : Source) : Scanner := { source, reports := s.reports }

/-- The number of errors reported. -/
def errorCount (s : Scanner) : Nat := s.reports.countP (·.severity.isError)

end Scanner

end FloatLang
