import FloatLang.Proofs.Parser.Termination
import FloatLang.Proofs.Scanner.BracketTokens

/-!
# Looking ahead is transparent

A scanner reads its source when it looks ahead, and keeps watch over brackets when it hands a token
out. So no request can tell a scanner that has looked ahead from one that has not: whatever else is
asked for comes out the same, with the same reports in the same order, and a token that was shown is
the token that is handed out when its turn comes.

## Main definitions

* `Scanner.Request`, `Scanner.Answer`, `Scanner.perform` — what a scanner can be asked to do
* `Scanner.transcript`, `Scanner.performAll` — a session of requests
* `Scanner.takesAll` — the tokens that a session hands out
* `Scanner.Indistinct` — two scanners that no request tells apart

## Main results

* `Scanner.Indistinct.perform` — every request answers both alike and leaves them so
* `Scanner.handsOut_performAll` — a session hands out the tokens ahead in their order
* `Scanner.peeking_transparent` — a session without its looks ahead is the same session
-/

namespace FloatLang.Scanner

/-- What a scanner can be asked to do. -/
inductive Request
  /-- Hand out the next token. -/
  | next
  /-- Show the token `n` places after the next one. -/
  | peek (n : Nat)
  /-- Hand out the rest of the line. -/
  | skipLine
  /-- Report every open bracket. -/
  | flush
  /-- Stop waiting for the bracket opened at a place. -/
  | forget (opened : Location)
  /-- Show the token handed out last. -/
  | last
  deriving DecidableEq, Repr

/-- What a scanner answers. -/
inductive Answer
  | token (t : Token)
  | done
  /-- Whether any bracket was open. -/
  | flushed (any : Bool)
  /-- The bracket that is no longer waited for, if there was one. -/
  | forgotten (bracket? : Option Bracket)
  | last (t? : Option Token)
  deriving DecidableEq, Repr

/-- A request, its answer and everything that was reported by then. -/
structure Entry where
  request : Request
  answer : Answer
  reports : List Report
  deriving DecidableEq, Repr

/-- Whether a request only looks ahead. -/
def Request.isPeek : Request → Bool
  | peek _ => true
  | _ => false

/-- Answers a request. -/
def perform (s : Scanner) : Request → Answer × Scanner
  | .next => (.token s.next, s.advance)
  | .peek n => (.token (s.ahead n), s.fill (n + 1))
  | .skipLine => (.done, s.skipLine)
  | .flush => (.flushed !s.pending.isEmpty, s.flush)
  | .forget opened =>
    match s.forget? opened with
    | some (bracket, s) => (.forgotten (some bracket), s)
    | none => (.forgotten none, s)
  | .last => (.last s.last?, s)

/-- What a session of requests leaves. -/
def performAll : List Request → Scanner → Scanner
  | [], s => s
  | r :: rs, s => performAll rs (s.perform r).2

/-- The record of a session. -/
def transcript : List Request → Scanner → List Entry
  | [], _ => []
  | r :: rs, s =>
    ⟨r, (s.perform r).1, (s.perform r).2.reports⟩ :: transcript rs (s.perform r).2

/-- The next tokens, at most `n`, up to and including the first that ends a line. -/
def lineWithin : Nat → Scanner → List Token
  | 0, _ => []
  | n + 1, s => if s.next.endsLine then [s.next] else s.next :: lineWithin n s.advance

/-- The tokens that a request hands out. -/
def takes (s : Scanner) : Request → List Token
  | .next => [s.next]
  | .skipLine => lineWithin (s.remaining + 1) s
  | _ => []

/-- The tokens that a session hands out. -/
def takesAll : List Request → Scanner → List Token
  | [], _ => []
  | r :: rs, s => s.takes r ++ takesAll rs (s.perform r).2

/-! ### The tokens handed out -/

variable {s s' s'' : Scanner}

theorem handsOut_lineWithin (n : Nat) (s : Scanner) :
    s.HandsOut (lineWithin n s) (skipLineWithin n s) := by
  induction n generalizing s with
  | zero => exact .refl s
  | succ n ih =>
    unfold lineWithin skipLineWithin
    split
    · exact .advance (.refl _)
    · exact .advance (ih s.advance)

theorem handsOut_perform (s : Scanner) (r : Request) : s.HandsOut (s.takes r) (s.perform r).2 := by
  cases r with
  | next => exact .advance (.refl _)
  | peek n => exact .fill (n + 1) (.refl _)
  | skipLine => exact handsOut_lineWithin _ s
  | flush => exact .flush (.refl _)
  | forget opened =>
    rw [perform]
    split
    next h => exact .forget h (.refl _)
    · exact .refl s
  | last => exact .refl s

/-- A session hands out tokens as they were ahead. -/
theorem handsOut_performAll (rs : List Request) (s : Scanner) :
    s.HandsOut (takesAll rs s) (performAll rs s) := by
  induction rs generalizing s with
  | nil => exact .refl s
  | cons r rs ih => exact (s.handsOut_perform r).trans (ih _)

/-- The tokens that a session hands out are those ahead. -/
theorem getElem?_takesAll {rs : List Request} {n : Nat} (h : n < (takesAll rs s).length) :
    (takesAll rs s)[n]? = some (s.ahead n) := by
  rw [(s.handsOut_performAll rs).tokens_eq, List.getElem?_map, List.getElem?_range h]
  rfl

/-! ### Scanners that no request tells apart -/

/-- The scanners have the same tokens ahead, however many of them they have read, wait for the same
brackets, and agree on what has happened so far. -/
structure Indistinct (s s' : Scanner) : Prop where
  ahead : s'.ahead = s.ahead
  pending : s'.pending = s.pending
  reports : s'.reports = s.reports
  last? : s'.last? = s.last?

namespace Indistinct

theorem refl (s : Scanner) : s.Indistinct s := ⟨rfl, rfl, rfl, rfl⟩

theorem symm (h : s.Indistinct s') : s'.Indistinct s :=
  ⟨h.ahead.symm, h.pending.symm, h.reports.symm, h.last?.symm⟩

theorem trans (h : s.Indistinct s') (h' : s'.Indistinct s'') : s.Indistinct s'' :=
  ⟨h'.ahead.trans h.ahead, h'.pending.trans h.pending, h'.reports.trans h.reports,
    h'.last?.trans h.last?⟩

theorem next (h : s.Indistinct s') : s'.next = s.next := congrFun h.ahead 0

/-- Looking ahead makes no difference. -/
theorem fill (s : Scanner) (n : Nat) : s.Indistinct (s.fill n) :=
  ⟨s.ahead_fill_eq n, s.pending_fill n, s.reports_fill n, s.last?_fill n⟩

theorem advance (h : s.Indistinct s') : s.advance.Indistinct s'.advance where
  ahead := by
    funext n
    rw [ahead_advance, ahead_advance, h.ahead]
  pending := by
    rw [pending_advance, pending_advance, h.next, pendingAfter_congr h.pending]
  reports := by
    rw [reports_advance, reports_advance, h.next, h.reports, objection?_congr h.pending]
  last? := by
    rw [last?_advance, last?_advance, h.next]

theorem skipLineWithin (h : s.Indistinct s') (n : Nat) :
    (Scanner.skipLineWithin n s).Indistinct (Scanner.skipLineWithin n s') := by
  induction n generalizing s s' with
  | zero => exact h
  | succ n ih =>
    unfold Scanner.skipLineWithin
    rw [h.next]
    split
    · exact h.advance
    · exact ih h.advance

/-- The scanners may have different bounds for what is left, but a line ends by itself. -/
theorem skipLine (h : s.Indistinct s') : s.skipLine.Indistinct s'.skipLine := by
  have hbound := h.skipLineWithin (s.remaining + s'.remaining + 1)
  rwa [skipLineWithin_eq (by omega), skipLineWithin_eq (by omega)] at hbound

theorem flush (h : s.Indistinct s') : s.flush.Indistinct s'.flush where
  ahead := by rw [ahead_flush, ahead_flush, h.ahead]
  pending := rfl
  reports := by rw [Scanner.flush, Scanner.flush, h.reports, h.pending]
  last? := h.last?

theorem withPending (h : s.Indistinct s') (os : List Opening) :
    Indistinct { s with pending := os } { s' with pending := os } where
  ahead := by
    have hs : ({ s with pending := os } : Scanner).ahead = s.ahead := ahead_congr rfl rfl
    have hs' : ({ s' with pending := os } : Scanner).ahead = s'.ahead := ahead_congr rfl rfl
    rw [hs, hs', h.ahead]
  pending := rfl
  reports := h.reports
  last? := h.last?

/-- Every request answers both alike, and leaves them so. -/
theorem perform (h : s.Indistinct s') (r : Request) :
    (s'.perform r).1 = (s.perform r).1 ∧ (s.perform r).2.Indistinct (s'.perform r).2 := by
  cases r with
  | next => exact ⟨congrArg Answer.token h.next, h.advance⟩
  | peek n =>
    refine ⟨congrArg Answer.token (congrFun h.ahead n), ?_⟩
    exact ((fill s (n + 1)).symm.trans h).trans (fill s' (n + 1))
  | skipLine => exact ⟨rfl, h.skipLine⟩
  | flush => exact ⟨by rw [Scanner.perform, Scanner.perform, h.pending], h.flush⟩
  | forget opened =>
    simp only [Scanner.perform, forget?, h.pending]
    cases s.pending.find? (·.location.same opened) with
    | none => exact ⟨rfl, h⟩
    | some o => exact ⟨rfl, h.withPending _⟩
  | last => exact ⟨by rw [Scanner.perform, Scanner.perform, h.last?], h⟩

/-- A session without its looks ahead has the same record but for these. -/
theorem transcript (h : s.Indistinct s') (rs : List Request) :
    (Scanner.transcript rs s).filter (!·.request.isPeek) =
        Scanner.transcript (rs.filter (!·.isPeek)) s' ∧
      (performAll rs s).Indistinct (performAll (rs.filter (!·.isPeek)) s') := by
  induction rs generalizing s s' with
  | nil => exact ⟨rfl, h⟩
  | cons r rs ih =>
    rw [Scanner.transcript, performAll]
    cases hpeek : r.isPeek with
    | true =>
      -- the look ahead is left out, and the other scanner stays where it is
      obtain ⟨n, rfl⟩ : ∃ n, r = .peek n := by
        cases r <;> first | exact ⟨_, rfl⟩ | contradiction
      have hrest : (s.perform (.peek n)).2.Indistinct s' := (fill s (n + 1)).symm.trans h
      simpa [hpeek] using ih hrest
    | false =>
      obtain ⟨hanswer, hrest⟩ := h.perform r
      obtain ⟨hrecord, hleft⟩ := ih hrest
      simp only [hpeek, Bool.not_false, List.filter_cons_of_pos, Scanner.transcript, performAll]
      exact ⟨by rw [hrecord, hanswer, hrest.reports], hleft⟩

end Indistinct

/-- A session of requests, with its looks ahead left out, gives every other request the same answer
and reports the same, at every moment. A token that is shown `n` places ahead is the one that is
handed out when `n` others have been since, whatever else is asked for in between. -/
theorem peeking_transparent (s : Scanner) (rs : List Request) :
    (transcript rs s).filter (!·.request.isPeek) = transcript (rs.filter (!·.isPeek)) s ∧
      (performAll rs s).reports = (performAll (rs.filter (!·.isPeek)) s).reports ∧
      ∀ n, n < (takesAll rs (s.perform (.peek n)).2).length →
        (takesAll rs (s.perform (.peek n)).2)[n]?.map Answer.token =
          some (s.perform (.peek n)).1 := by
  obtain ⟨hrecord, hleft⟩ := (Indistinct.refl s).transcript rs
  refine ⟨hrecord, hleft.reports.symm, fun n hn => ?_⟩
  rw [getElem?_takesAll hn, Option.map_some]
  exact congrArg (some <| Answer.token ·) (s.ahead_fill (n + 1) n)

/-- A look past the end of the file, and then a bracket, an unknown character and the end twice. -/
theorem peeking_transparent_past_end :
    let s : Scanner := { source := .ofText ⟨"main.rin"⟩ "( $" }
    let rs : List Request := [.next, .peek 5, .last, .skipLine, .flush, .next]
    3 < (takesAll rs (s.perform (.peek 3)).2).length ∧
      (transcript rs s).filter (!·.request.isPeek) = transcript (rs.filter (!·.isPeek)) s ∧
      (takesAll rs (s.perform (.peek 3)).2)[3]?.map Answer.token = some (s.perform (.peek 3)).1 :=
  have hlength : 3 < (takesAll [.next, .peek 5, .last, .skipLine, .flush, .next]
      (perform { source := .ofText ⟨"main.rin"⟩ "( $" } (.peek 3)).2).length := by decide +kernel
  ⟨hlength, (peeking_transparent _ _).1, (peeking_transparent _ _).2.2 3 hlength⟩

end FloatLang.Scanner
