import FloatLang.Proofs.Scanner.Brackets
import FloatLang.Proofs.Scanner.Places

/-!
# The brackets of a source

A bracket of a source is known by its place. A scanner that hands one out opens it, or closes the
innermost open one with it, or reports it; any other token leaves the open brackets as they were.

## Main definitions

* `Source.Opens`, `Source.Closes`, `Source.place` — the brackets of a source and their places
* `Problem.isBracket` — the problems that are about brackets

## Main results

* `Source.Opens.eq_of_place_eq`, `Source.Closes.eq_of_place_eq` — brackets are known by their places
* `Scanner.advance_of_opening`, `Scanner.advance_of_closing`, `Scanner.advance_of_unopened`,
  `Scanner.advance_of_other` — the open brackets after the next token
-/

namespace FloatLang

/-- Whether a problem is about a bracket that is never closed, or that closes nothing. -/
def Problem.isBracket : Problem → Bool
  | .unclosed _ | .unopened _ => true
  | _ => false

namespace Operator

variable {b b' : Bracket}

theorem opening_injective (h : opening b = opening b') : b = b' := by
  cases b <;> cases b' <;> first | rfl | contradiction

theorem closing_injective (h : closing b = closing b') : b = b' := by
  cases b <;> cases b' <;> first | rfl | contradiction

end Operator

namespace Source

variable (s : Source)

/-- The token of number `k` is an opening bracket. -/
def Opens (k : Nat) (b : Bracket) : Prop := (s.tokenAt k).kind = .operator (.opening b)

/-- The token of number `k` is a closing bracket. -/
def Closes (k : Nat) (b : Bracket) : Prop := (s.tokenAt k).kind = .operator (.closing b)

/-- Where the token of number `k` stands. -/
def place (k : Nat) : Location := (s.tokenAt k).location

variable {s} {k k' : Nat} {b b' : Bracket}

theorem Opens.unique (h : s.Opens k b) (h' : s.Opens k b') : b = b' :=
  Operator.opening_injective (TokenKind.operator.inj (h.symm.trans h'))

theorem Closes.unique (h : s.Closes k b) (h' : s.Closes k b') : b = b' :=
  Operator.closing_injective (TokenKind.operator.inj (h.symm.trans h'))

/-- No bracket both opens and closes. -/
theorem Opens.not_closes (h : s.Opens k b) : ¬ s.Closes k b' := by
  intro h'
  have heq := TokenKind.operator.inj (h.symm.trans h')
  cases b <;> cases b' <;> contradiction

theorem Opens.isEndOfFile (h : s.Opens k b) : (s.tokenAt k).isEndOfFile = false := by
  rw [Opens] at h
  simp [Token.isEndOfFile, h]

theorem Closes.isEndOfFile (h : s.Closes k b) : (s.tokenAt k).isEndOfFile = false := by
  rw [Closes] at h
  simp [Token.isEndOfFile, h]

/-- An opening bracket is known by its place. -/
theorem Opens.eq_of_place_eq (h : s.Opens k b) (h' : s.Opens k' b')
    (hplace : s.place k = s.place k') : k = k' :=
  eq_of_location_eq h.isEndOfFile h'.isEndOfFile hplace

/-- A closing bracket is known by its place. -/
theorem Closes.eq_of_place_eq (h : s.Closes k b) (h' : s.Closes k' b')
    (hplace : s.place k = s.place k') : k = k' :=
  eq_of_location_eq h.isEndOfFile h'.isEndOfFile hplace

end Source

namespace Scanner

variable {s : Scanner} {b : Bracket}

/-- The report that a closing bracket closes nothing. -/
def unopenedReport (b : Bracket) (l : Location) : Report :=
  { location := l, problem := .unopened (.closing b) }

/-! ### The brackets open after a token -/

theorem objection?_congr {s s' : Scanner} (h : s'.pending = s.pending) (t : Token) :
    s'.objection? t = s.objection? t := by
  unfold objection?
  rw [h]

theorem pendingAfter_congr {s s' : Scanner} (h : s'.pending = s.pending) (t : Token) :
    s'.pendingAfter t = s.pendingAfter t := by
  unfold pendingAfter
  rw [h, objection?_congr h]

/-- A bracket that is open after a token was open before, or is that token. -/
theorem mem_pendingAfter {s : Scanner} {t : Token} {o : Opening} (h : o ∈ s.pendingAfter t) :
    o ∈ s.pending ∨ t.kind = .operator (.opening o.bracket) ∧ o.location = t.location := by
  unfold pendingAfter Token.operator? at h
  split at h
  · exact .inl h
  next op hop =>
    split at h
    next bracket hopens =>
      rcases List.mem_cons.1 h with rfl | hold
      · refine .inr ⟨?_, rfl⟩
        split at hop
        next op' hkind =>
          rw [hkind, Option.some.inj hop]
          cases op <;> first | contradiction | (obtain rfl := Option.some.inj hopens; rfl)
        · contradiction
      · exact .inl hold
    · split at h
      · exact .inl (List.mem_of_mem_tail h)
      · exact .inl h

theorem pending_advance (s : Scanner) : s.advance.pending = s.pendingAfter s.next := by
  rw [← pendingAfter_congr (show { s.fill 1 with lookahead := (s.fill 1).lookahead.tail }.pending = _ from
    s.pending_fill 1) s.next]
  unfold advance acknowledge
  dsimp only
  split <;> rfl

theorem reports_advance (s : Scanner) :
    s.advance.reports = s.reports ++
      (s.objection? s.next).toList.map fun problem => { location := s.next.location, problem } := by
  rw [← objection?_congr (show { s.fill 1 with lookahead := (s.fill 1).lookahead.tail }.pending = _ from
    s.pending_fill 1) s.next, ← s.reports_fill 1]
  unfold advance acknowledge
  dsimp only
  split
  next problem hproblem =>
    rw [hproblem]
    rfl
  next hnone =>
    rw [hnone]
    exact (List.append_nil _).symm

/-- What is open when a token was taken was open before, or is that token. -/
theorem mem_pending_advance {s : Scanner} {o : Opening} (h : o ∈ s.advance.pending) :
    o ∈ s.pending ∨ o.location = s.next.location := by
  rw [pending_advance] at h
  exact (mem_pendingAfter h).imp_right And.right

/-- What is reported when a token was taken was reported before, or is about that token. -/
theorem mem_reports_advance {s : Scanner} {r : Report} (h : r ∈ s.advance.reports) :
    r ∈ s.reports ∨ r.location = s.next.location := by
  rw [reports_advance] at h
  refine (List.mem_append.1 h).imp_right fun hnew => ?_
  obtain ⟨problem, -, rfl⟩ := List.mem_map.1 hnew
  rfl

/-- An opening bracket is open from then on. -/
theorem advance_of_opening (h : s.next.kind = .operator (.opening b)) :
    s.advance.pending = ⟨b, s.next.location⟩ :: s.pending ∧ s.advance.reports = s.reports := by
  rw [pending_advance, reports_advance]
  cases b <;> simp [pendingAfter, objection?, Token.operator?, h, Operator.opening, Operator.opens?,
    Operator.closes?]

/-- A closing bracket of the kind of the innermost open one closes that. -/
theorem advance_of_closing (h : s.next.kind = .operator (.closing b))
    (hhead : s.pending.head?.map Opening.bracket = some b) :
    s.advance.pending = s.pending.tail ∧ s.advance.reports = s.reports := by
  rw [pending_advance, reports_advance]
  cases b <;> simp [pendingAfter, objection?, Token.operator?, h, hhead, Operator.closing,
    Operator.opens?, Operator.closes?, Operator.isClosing]

/-- Any other closing bracket is reported. -/
theorem advance_of_unopened (h : s.next.kind = .operator (.closing b))
    (hhead : s.pending.head?.map Opening.bracket ≠ some b) :
    s.advance.pending = s.pending ∧
      s.advance.reports = s.reports ++ [unopenedReport b s.next.location] := by
  rw [pending_advance, reports_advance]
  cases b <;> simp [pendingAfter, objection?, Token.operator?, h, hhead, Operator.closing,
    Operator.opens?, Operator.closes?, Operator.isClosing, unopenedReport]

/-- A token that is no bracket leaves the open brackets as they were. -/
theorem advance_of_other (hopening : ∀ b, s.next.kind ≠ .operator (.opening b))
    (hclosing : ∀ b, s.next.kind ≠ .operator (.closing b)) :
    s.advance.pending = s.pending ∧
      ∃ rs : List Report, s.advance.reports = s.reports ++ rs ∧
        ∀ r ∈ rs, r.problem.isBracket = false := by
  rw [pending_advance, reports_advance]
  cases hkind : s.next.kind with
  | invalid error =>
    refine ⟨by simp [pendingAfter, Token.operator?, hkind], _, rfl, ?_⟩
    simp [objection?, hkind, Problem.isBracket]
  | operator op =>
    have hopens : op.opens? = none := by
      have hparen := hopening .parenthesis
      have hsquare := hopening .square
      have hbrace := hopening .brace
      rw [hkind] at hparen hsquare hbrace
      cases op <;> first | rfl | contradiction
    have hcloses : op.closes? = none := by
      have hparen := hclosing .parenthesis
      have hsquare := hclosing .square
      have hbrace := hclosing .brace
      rw [hkind] at hparen hsquare hbrace
      cases op <;> first | rfl | contradiction
    refine ⟨by simp [pendingAfter, Token.operator?, hkind, hopens, Operator.isClosing, hcloses],
      _, rfl, ?_⟩
    simp [objection?, hkind, hcloses]
  | _ => exact ⟨by simp [pendingAfter, Token.operator?, hkind], _, rfl, by simp [objection?, hkind]⟩

end Scanner

end FloatLang
