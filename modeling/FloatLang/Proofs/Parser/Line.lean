import FloatLang.Proofs.Parser.Abreast
import FloatLang.Proofs.Scanner.Line

/-!
# What is read on one line

On a line without brackets and reserved words only assignments and steps are read, and if the last token
lacks no operand, none of them goes on in the next line. Whatever is wrong, the rest of the line is
skipped with its end, and not more: every reader that gives up has taken a token of the line by then,
and none that ends the line. So a body that comes to the line comes to the next one, with statements and
reports from the line and everything else as it was.

## Main definitions

* `Source.OnLine` — a place of a token of the line
* `Parser.Along` — a parser that has come to some token of the line
* `Parser.GoesOnAfter` — an expression that lacks an operand

## Main results

* `Parser.Along.synchronize` — a reader that gives up comes to the end of the line
* `Parser.Along.expression`, `Parser.Along.named` — readers stay on the line
* `Parser.Along.body` — a body comes to the next line
-/

namespace FloatLang

/-- The place of one of the tokens of a line of `m` tokens, or of its end. -/
def Source.OnLine (source : Source) (m : Nat) (l : Location) : Prop :=
  ∃ k ≤ m, l = (source.tokenAt k).location

namespace Source.StartsWithLine

variable {source : Source} {m k : Nat}

theorem isEndOfFile (h : source.StartsWithLine m) (hk : k ≤ m) :
    (source.tokenAt k).isEndOfFile = false := by
  rcases Nat.lt_or_eq_of_le hk with hlt | rfl
  · have hends := h.before k hlt
    rw [Token.endsLine, Bool.or_eq_false_iff] at hends
    exact hends.2
  · have hkind : (source.tokenAt k).kind = .endOfLine := by
      simpa [Token.isEndOfLine] using h.end_of_line
    simp [Token.isEndOfFile, hkind]

/-- The line ends at its last token. -/
theorem eq_of_endsLine (h : source.StartsWithLine m) (hk : k ≤ m)
    (hends : (source.tokenAt k).endsLine = true) : k = m := by
  rcases Nat.lt_or_eq_of_le hk with hlt | heq
  · rw [h.before k hlt] at hends
    contradiction
  · exact heq

/-- What is no line break comes before the end of the line. -/
theorem lt_of_kind (h : source.StartsWithLine m) (hk : k ≤ m)
    (hkind : (source.tokenAt k).kind ≠ .endOfLine) : k < m := by
  rcases Nat.lt_or_eq_of_le hk with hlt | rfl
  · exact hlt
  · exact absurd (by simpa [Token.isEndOfLine] using h.end_of_line) hkind

theorem lt_of_endsLine (h : source.StartsWithLine m) (hk : k ≤ m)
    (hends : ¬ (source.tokenAt k).endsLine = true) : k < m :=
  h.lt_of_kind hk fun hkind => hends (by simp [Token.endsLine, Token.isEndOfLine, hkind])

/-- No bracket is on the line. -/
theorem bracket?_eq_none {op : Operator} (h : source.StartsWithLine m) (hk : k ≤ m)
    (hop : (source.tokenAt k).kind = .operator op) : op.bracket? = none := by
  rcases Nat.lt_or_eq_of_le hk with hlt | rfl
  · exact h.bracket? k hlt op hop
  · have hends := h.end_of_line
    simp [Token.isEndOfLine, hop] at hends

theorem isOperator_eq_false {op : Operator} (h : source.StartsWithLine m) (hk : k ≤ m)
    (hop : op.bracket? ≠ none) : (source.tokenAt k).isOperator op = false := by
  cases hoperator : (source.tokenAt k).isOperator op with
  | false => rfl
  | true => exact absurd (h.bracket?_eq_none hk (Token.kind_of_isOperator hoperator)) hop

end Source.StartsWithLine

namespace Parser

/-- The parser has come to the `i`-th token of a line of `m` tokens, or to what comes after the line. Its
scopes are `c`, no bracket is open, and what it has reported since `rs` is about the line. -/
structure Along (source : Source) (m : Nat) (c : ScopeChain) (rs : List Report) (i : Nat) (p : Parser) :
    Prop where
  stands : p.Stands source i
  le : i ≤ m + 1
  last? : ∀ k, k + 1 = i → p.scanner.last? = some (source.tokenAt k)
  scopes : p.scopes = c
  pending : p.scanner.pending = []
  reports : ∃ more, p.scanner.reports = rs ++ more ∧ ∀ r ∈ more, source.OnLine m r.location

/-- A yard that goes on has taken an operator that lacks an operand, and that is the token before the
`i`-th one. -/
def GoesOnAfter (source : Source) (i : Nat) (y : Postfix.Yard) : Prop :=
  y.continues = true → ∃ k op, k + 1 = i ∧ (source.tokenAt k).kind = .operator op ∧
    op.expectsOperand = true

theorem goesOnAfter_of_shift? {source : Source} {y y' : Postfix.Yard} {op : Operator} {k : Nat}
    {l : Location} (hkind : (source.tokenAt k).kind = .operator op) (h : y.shift? op l = some y') :
    GoesOnAfter source (k + 1) y' := by
  obtain ⟨shifted, -, rfl⟩ := Option.map_eq_some_iff.1 h
  exact fun hcontinues => ⟨k, op, rfl, hkind, hcontinues⟩

namespace Along

variable {source : Source} {m i j : Nat} {c : ScopeChain} {rs : List Report} {p q : Parser}
  {s : Statement} {l : Location} {x : String}

/-! ### Tokens and errors -/

theorem onLine (h : Along source m c rs i p) {n : Nat} (hi : i + n ≤ m) :
    source.OnLine m (p.ahead n).location :=
  ⟨i + n, hi, congrArg Token.location (h.stands n)⟩

theorem onLine_next (h : Along source m c rs i p) (hi : i ≤ m) : source.OnLine m p.next.location :=
  h.onLine (n := 0) hi

theorem fill (h : Along source m c rs i p) (n : Nat) : Along source m c rs i (p.fill n) where
  stands := h.stands.fill n
  le := h.le
  last? k hk := (p.scanner.last?_fill n).trans (h.last? k hk)
  scopes := h.scopes
  pending := (p.scanner.pending_fill n).trans h.pending
  reports := by
    obtain ⟨more, hmore, hon⟩ := h.reports
    exact ⟨more, (p.scanner.reports_fill n).trans hmore, hon⟩

theorem error (h : Along source m c rs i p) (hl : source.OnLine m l) (problem : Problem) :
    Along source m c rs i (p.error l problem) where
  stands := h.stands.takes (p.takes_error l problem)
  le := h.le
  last? := h.last?
  scopes := h.scopes
  pending := h.pending
  reports := by
    obtain ⟨more, hmore, hon⟩ := h.reports
    refine ⟨more ++ [{ location := l, problem }], ?_, ?_⟩
    · rw [← List.append_assoc, ← hmore]
      rfl
    · intro r hr
      rcases List.mem_append.1 hr with hold | hnew
      · exact hon r hold
      · obtain rfl := List.mem_singleton.1 hnew
        exact hl

/-- Other statements do not matter to where the parser is. -/
theorem withScopes (h : Along source m c rs i p) (d : ScopeChain) :
    Along source m d rs i { p with scopes := d } :=
  ⟨h.stands.congr rfl, h.le, h.last?, rfl, h.pending, h.reports⟩

theorem resolve (h : Along source m c rs i p) (hl : source.OnLine m l) (x : String) :
    Along source m c rs i (p.resolve x l).2 := by
  unfold Parser.resolve
  split
  · exact h
  · exact h.error hl _

section Line

variable (hline : source.StartsWithLine m)

include hline

theorem advance (h : Along source m c rs i p) (hi : i ≤ m) :
    Along source m c rs (i + 1) p.advance where
  stands := h.stands.advance
  le := Nat.succ_le_succ hi
  last? k hk := by
    obtain rfl := Nat.succ.inj hk
    exact p.scanner.last?_advance.trans (congrArg some h.stands.next)
  scopes := h.scopes
  pending := by
    -- neither an opening nor a closing bracket is on the line
    have hnext : p.scanner.next = source.tokenAt i := h.stands.next
    obtain ⟨hpending, -⟩ := Scanner.advance_of_other (s := p.scanner)
      (fun b hb => by
        rw [hnext] at hb
        have hnone := hline.bracket?_eq_none hi hb
        cases b <;> contradiction)
      (fun b hb => by
        rw [hnext] at hb
        have hnone := hline.bracket?_eq_none hi hb
        cases b <;> contradiction)
    exact hpending.trans h.pending
  reports := by
    obtain ⟨more, hmore, hon⟩ := h.reports
    have hadvance := p.scanner.reports_advance
    rw [hmore, List.append_assoc] at hadvance
    refine ⟨_, hadvance, fun r hr => ?_⟩
    rcases List.mem_append.1 hr with hold | hnew
    · exact hon r hold
    · obtain ⟨problem, -, rfl⟩ := List.mem_map.1 hnew
      exact h.onLine_next hi

theorem reject (h : Along source m c rs i p) (hi : i ≤ m) (problem : Problem) :
    Along source m c rs (i + 1) (p.reject problem) := by
  unfold Parser.reject
  split
  · exact h.advance hline hi
  · exact (h.advance hline hi).error (h.onLine_next hi) problem

/-- The rest of the line is skipped, with its end. -/
theorem skipLineWithin {n : Nat} (h : Along source m c rs i p) (hi : i ≤ m) (hn : p.remaining < n) :
    Along source m c rs (m + 1) (p.modifyScanner (Scanner.skipLineWithin n)) := by
  induction n generalizing i p with
  | zero => contradiction
  | succ n ih =>
    have hnext : p.scanner.next = source.tokenAt i := h.stands.next
    have hadvance := h.advance hline hi
    unfold modifyScanner Scanner.skipLineWithin
    rw [hnext]
    split
    next hends =>
      obtain rfl := hline.eq_of_endsLine hi hends
      exact hadvance
    next hends =>
      have hlt : p.advance.remaining < p.remaining := by
        apply p.passes_advance.remaining_lt
        rw [h.stands.next]
        exact hline.isEndOfFile hi
      exact ih hadvance (hline.lt_of_endsLine hi hends) (by omega)

/-- A reader that has taken a token of the line and gives up comes to the next line. -/
theorem synchronize (h : Along source m c rs i p) (hi : 0 < i) :
    Along source m c rs (m + 1) p.synchronize := by
  obtain ⟨k, rfl⟩ := Nat.exists_eq_succ_of_ne_zero (Nat.ne_of_gt hi)
  have hk : k ≤ m := Nat.le_of_succ_le_succ h.le
  unfold Parser.synchronize
  rw [h.last? k rfl]
  dsimp only
  split
  next hends =>
    obtain rfl := hline.eq_of_endsLine hk hends
    exact h
  next hends => exact h.skipLineWithin hline (hline.lt_of_endsLine hk hends) (Nat.lt_succ_self _)

/-- An error is reported, and the rest of the line skipped. -/
theorem rejects (h : Along source m c rs i p) (hi : 0 < i) (hl : source.OnLine m l)
    (problem : Problem) : Along source m c rs (m + 1) (p.error l problem).synchronize :=
  (h.error hl problem).synchronize hline hi

/-! ### Expressions -/

open Postfix (Yard)

/-- An expression does not go on after the end of the line. -/
theorem endsExpression (h : Along source m c rs i p) {y : Yard} (hy : GoesOnAfter source i y)
    (hnext : p.next.kind = .endOfLine) : endsExpression .semicolon y.continues p.next = true := by
  cases hcontinues : y.continues with
  | false => simp [Parser.endsExpression, Token.endsLine, Token.isEndOfLine, hnext]
  | true =>
    obtain ⟨k, op, rfl, hop, hexpects⟩ := hy hcontinues
    have hle := h.le
    have hends : (source.tokenAt (k + 1)).endsLine = true := by
      rw [← h.stands.next]
      simp [Token.endsLine, Token.isEndOfLine, hnext]
    rcases Nat.lt_or_eq_of_le hle with hlt | heq
    · have hcomplete := hline.complete k op (hline.eq_of_endsLine (by omega) hends) hop
      rw [hexpects] at hcomplete
      contradiction
    · -- the end of the line is no operator
      obtain rfl := Nat.succ.inj heq
      have hline' := hline.end_of_line
      simp [Token.isEndOfLine, hop] at hline'

/-- The tokens of an expression are taken from the line, and not the end of the line. -/
theorem collect {n : Nat} {y : Yard} (h : Along source m c rs i p) (hi : i ≤ m)
    (hy : y.Within (source.OnLine m)) (hgoes : GoesOnAfter source i y) :
    ∃ j, i ≤ j ∧ Along source m c rs j (Parser.collect .semicolon n y p).2 ∧
      ∀ y' ∈ (Parser.collect .semicolon n y p).1, y'.Within (source.OnLine m) ∧ j ≤ m := by
  induction n generalizing i y p with
  | zero => exact ⟨i, Nat.le_refl i, h, by simp [Parser.collect]⟩
  | succ n ih =>
    have hfill := h.fill 1
    have hadvance := hfill.advance hline hi
    have hplace : source.OnLine m (p.fill 1).next.location := hfill.onLine_next hi
    have hnext : (p.fill 1).next = source.tokenAt i := hfill.stands.next
    -- what is taken is not the end of the line, so that the line goes on
    have hmore {kind : TokenKind} (hkind : (p.fill 1).next.kind = kind) (hne : kind ≠ .endOfLine) :
        i + 1 ≤ m :=
      hline.lt_of_kind hi (by rwa [← hnext, hkind])
    have hstop (q : Parser) (hq : Along source m c rs (i + 1) q) :
        ∃ j, i ≤ j ∧ Along source m c rs j q ∧
          ∀ y' ∈ (none : Option Yard), y'.Within (source.OnLine m) ∧ j ≤ m :=
      ⟨i + 1, Nat.le_succ i, hq, by simp⟩
    have hgo {y : Yard} {q : Parser} (hi' : i + 1 ≤ m) (hq : Along source m c rs (i + 1) q)
        (hy : y.Within (source.OnLine m)) (hgoes : GoesOnAfter source (i + 1) y) :
        ∃ j, i ≤ j ∧ Along source m c rs j (Parser.collect .semicolon n y q).2 ∧
          ∀ y' ∈ (Parser.collect .semicolon n y q).1, y'.Within (source.OnLine m) ∧ j ≤ m := by
      obtain ⟨j, hj, hrest⟩ := ih hq hi' hy hgoes
      exact ⟨j, Nat.le_of_succ_le hj, hrest⟩
    have hoperand (e : Expr) : GoesOnAfter source (i + 1) (y.operand e) := by
      intro hcontinues
      contradiction
    unfold Parser.collect
    dsimp only
    split
    · exact ⟨i, Nat.le_refl i, hfill, by rintro _ ⟨⟩; exact ⟨hy, hi⟩⟩
    next hends =>
      split
      next hkind => exact absurd (hfill.endsExpression hline hgoes hkind) hends
      · exact hstop _ (hfill.reject hline hi _)
      next value hkind => exact hgo (hmore hkind (by simp)) hadvance (hy.operand hplace) (hoperand _)
      next x hkind =>
        have hresolve := hadvance.resolve hplace x
        split
        next v q hq =>
          rw [hq] at hresolve
          exact hgo (hmore hkind (by simp)) hresolve (hy.operand hplace) (hoperand _)
        next q hq =>
          rw [hq] at hresolve
          exact hstop q hresolve
      · exact hstop _ (hfill.reject hline hi _)
      · exact hstop _ hadvance
      next op hkind =>
        split
        · exact hstop _ (hfill.reject hline hi _)
        · split
          next y' hshift =>
            have hkind' : (source.tokenAt i).kind = .operator op := by rw [← hnext, hkind]
            exact hgo (hmore hkind (by simp)) hadvance (hy.shift? hplace hshift)
              (goesOnAfter_of_shift? hkind' hshift)
          · exact hstop _ (hfill.reject hline hi _)

/-- An expression is read on the line. If it is read, the end of the line is still ahead. -/
theorem expression (h : Along source m c rs i p) (hi : i ≤ m) :
    ∃ j, i ≤ j ∧ Along source m c rs j (p.expression .semicolon).2 ∧
      ((p.expression .semicolon).1.isSome = true → j ≤ m) := by
  obtain ⟨j, hij, hq, hy⟩ := h.collect hline (n := p.remaining + 1) hi Yard.within_start (y := {})
    (fun hcontinues => by contradiction)
  unfold Parser.expression
  dsimp only
  split
  next y q hcollect =>
    rw [hcollect] at hq hy
    obtain ⟨hwithin, hj⟩ := hy y rfl
    -- no parenthesis is open, since no bracket is
    obtain ⟨-, -, hopened⟩ := accepts_of_collect [] h.pending hcollect
    rw [hq.pending, List.append_nil] at hopened
    unfold Parser.finishExpression
    rw [Postfix.openParentheses_eq, ← hopened, List.map_nil, List.isEmpty_nil, if_pos rfl]
    split
    · exact ⟨j, hij, hq, fun _ => hj⟩
    next complaint hassemble =>
      have hc := Postfix.within_assemble (h.onLine_next hi) hwithin.finish hassemble
      exact ⟨j, hij, hq.error hc.location _, fun hsome => by contradiction⟩
  next q hcollect =>
    rw [hcollect] at hq
    exact ⟨j, hij, hq, fun hsome => by contradiction⟩

/-! ### Statements -/

theorem terminator (h : Along source m c rs i p) (hi : i ≤ m) :
    ∃ j, i < j ∧ Along source m c rs j p.terminator.2 := by
  have hfill := h.fill 1
  have hadvance := hfill.advance hline hi
  have hbrace : (p.fill 1).next.isOperator .rightBrace = false := by
    rw [hfill.stands.next]
    exact hline.isOperator_eq_false hi (by simp [Operator.bracket?, Operator.closes?])
  unfold Parser.terminator
  dsimp only
  rw [hbrace, if_neg (by simp)]
  split
  · exact ⟨i + 1, Nat.lt_succ_self i, hadvance⟩
  · exact ⟨m + 1, Nat.lt_succ_of_le hi,
      hadvance.rejects hline (Nat.succ_pos i) (hfill.onLine_next hi) _⟩

/-- An assignment, whatever is wrong with it. -/
theorem assignment (h : Along source m c rs i p) (hi : i + 2 ≤ m) :
    ∃ j, i < j ∧ Along source m c rs j p.assignment.2 ∧ source.OnLine m p.assignment.1.location := by
  have hname := h.advance hline (by omega)
  have hequals := hname.advance hline (by omega)
  have hplace : source.OnLine m p.next.location := h.onLine_next (by omega)
  have hplace' : source.OnLine m p.advance.next.location := hname.onLine_next (by omega)
  have hresolve := hequals.resolve hplace (p.next.identifier?.getD "")
  unfold Parser.assignment
  dsimp only
  split
  · split
    next q hq =>
      rw [hq] at hresolve
      exact ⟨m + 1, by omega, hresolve.synchronize hline (Nat.succ_pos _), hplace⟩
    next v q hq =>
      rw [hq] at hresolve
      obtain ⟨j, hj, hvalue, hahead⟩ := hresolve.expression hline hi
      split
      next r hr =>
        rw [hr] at hvalue
        exact ⟨m + 1, by omega, hvalue.synchronize hline (by omega), hplace'⟩
      next value r hr =>
        rw [hr] at hvalue hahead
        obtain ⟨k, hk, hend⟩ := hvalue.terminator hline (hahead rfl)
        split
        next u hu =>
          rw [hu] at hend
          exact ⟨k, by omega, hend, hplace⟩
        next u hu =>
          rw [hu] at hend
          exact ⟨k, by omega, hend, hplace'⟩
  · exact ⟨m + 1, by omega, hequals.rejects hline (Nat.succ_pos _) hplace' _, hplace'⟩

theorem step (h : Along source m c rs i p) (hi : i + 2 ≤ m) (hq : p.step true = .ok (s, q)) :
    ∃ j, i < j ∧ Along source m c rs j q ∧ source.OnLine m s.location := by
  have hop := (h.advance hline (by omega)).advance hline (by omega)
  have hplace : source.OnLine m p.next.location := h.onLine_next (by omega)
  have hresolve := hop.resolve hplace (p.next.identifier?.getD "")
  unfold Parser.step at hq
  dsimp only at hq
  split at hq
  · simp [halt] at hq
  · split at hq
    next r hr =>
      rw [hr] at hresolve
      obtain ⟨rfl, rfl⟩ := Prod.mk.inj (Except.ok.inj hq)
      exact ⟨m + 1, by omega, hresolve.synchronize hline (Nat.succ_pos _), hplace⟩
    next v r hr =>
      rw [hr] at hresolve
      obtain ⟨j, hj, hend⟩ := hresolve.terminator hline hi
      rw [if_pos rfl] at hq
      split at hq
      next u hu =>
        rw [hu] at hend
        obtain ⟨rfl, rfl⟩ := Prod.mk.inj (Except.ok.inj hq)
        exact ⟨j, by omega, hend, hplace⟩
      next u hu =>
        rw [hu] at hend
        obtain ⟨rfl, rfl⟩ := Prod.mk.inj (Except.ok.inj hq)
        exact ⟨j, by omega, hend, hplace⟩

/-- What starts with a name. -/
theorem named (h : Along source m c rs i p) (hi : i < m) (hq : p.named = .ok (s, q)) :
    ∃ j, i < j ∧ Along source m c rs j q ∧ source.OnLine m s.location := by
  have hfill := h.fill 2
  have hafter : (p.fill 2).ahead 1 = source.tokenAt (i + 1) := hfill.stands 1
  unfold Parser.named at hq
  dsimp only at hq
  split at hq
  next op hop =>
    -- an operator is not the end of the line
    have hlt : i + 1 < m := by
      apply hline.lt_of_kind hi
      rw [← hafter, Token.kind_of_operator? hop]
      simp
    split at hq
    · exact hfill.step hline hlt hq
    · obtain ⟨j, hj, hassignment⟩ := hfill.assignment hline hlt
      rw [Except.ok.inj hq] at hassignment
      exact ⟨j, hj, hassignment⟩
  · obtain ⟨rfl, rfl⟩ := Prod.mk.inj (Except.ok.inj hq)
    exact ⟨m + 1, by omega, (hfill.advance hline (Nat.le_of_lt hi)).rejects hline (Nat.succ_pos i)
      (hfill.onLine hi) _, hfill.onLine_next (Nat.le_of_lt hi)⟩

/-- What starts no statement. -/
theorem rejectStatement (h : Along source m c rs i p) (hi : i ≤ m) :
    Along source m c rs (m + 1) p.rejectStatement.2 :=
  (h.reject hline hi _).synchronize hline (Nat.succ_pos i)

/-- A statement ends on the line, or with it. -/
theorem statementWithin {n : Nat} (h : Along source m c rs i p) (hi : i < m)
    (hq : Parser.statementWithin n p = .ok (s, q)) :
    ∃ j, i < j ∧ Along source m c rs j q ∧ source.OnLine m s.location := by
  cases n with
  | zero => simp [Parser.statementWithin, halt] at hq
  | succ n =>
    have hfill := h.fill 1
    have hkeyword (word : Keyword) : (p.fill 1).next.kind ≠ .keyword word := by
      rw [hfill.stands.next]
      exact hline.ne_keyword i hi word
    unfold Parser.statementWithin at hq
    dsimp only at hq
    split at hq
    next hkind => exact absurd hkind (hkeyword _)
    next hkind => exact absurd hkind (hkeyword _)
    next hkind => exact absurd hkind (hkeyword _)
    · exact hfill.named hline hi hq
    · obtain ⟨rfl, rfl⟩ := Prod.mk.inj (Except.ok.inj hq)
      exact ⟨m + 1, by omega, hfill.rejectStatement hline (Nat.le_of_lt hi),
        hfill.onLine_next (Nat.le_of_lt hi)⟩

/-- A body that has come to the line comes to what follows it, with statements of the line. What it reads
then is what it reads. -/
theorem body (h : Along source m c rs i p) :
    ∃ (q : Parser) (ss : List Statement), Along source m (c.grow [] ss c.nextId) rs (m + 1) q ∧
      (∀ s ∈ ss, source.OnLine m s.location) ∧
      ∀ k r, bodyWithin k true q = .ok r → ∃ k', bodyWithin k' true p = .ok r := by
  induction hleft : m + 1 - i using Nat.strong_induction_on generalizing i c p with
  | _ left ih =>
    rcases Nat.lt_or_eq_of_le h.le with hlt | rfl
    · have hi : i ≤ m := Nat.le_of_lt_succ hlt
      have hnext : p.next = source.tokenAt i := h.stands.next
      have hfill := h.fill 1
      rcases cases_next p.next with hend | hblank | hbrace | hstart
      · rw [hnext, hline.isEndOfFile hi] at hend
        contradiction
      · obtain ⟨q, ss, hq, hss, hresume⟩ := ih (m + 1 - (i + 1)) (by omega)
          (hfill.advance hline hi) rfl
        refine ⟨q, ss, hq, hss, fun k r hr => ?_⟩
        obtain ⟨k', hk'⟩ := hresume k r hr
        exact ⟨k' + 1, bodyWithin_succ.2 (.blank hblank hk')⟩
      · rw [hnext, hline.isOperator_eq_false hi (by simp [Operator.bracket?, Operator.closes?])]
          at hbrace
        contradiction
      · -- the end of the line starts no statement
        have hi' : i < m := by
          apply hline.lt_of_kind hi
          rw [← hnext]
          intro hkind
          simp [startsStatement, Token.isEndOfLine, hkind] at hstart
        obtain ⟨s, r, hs, -⟩ := (p.fill 1).statement_passes
        obtain ⟨j, hij, hr, hplace⟩ := hfill.statementWithin hline hi' hs
        -- a failure is left out
        obtain ⟨new, hnew, hpushed⟩ : ∃ new, (∀ s ∈ new, source.OnLine m s.location) ∧
            Along source m (c.grow [] new c.nextId) rs j (if s.isInvalid then r else r.push s) := by
          split
          · refine ⟨[], by simp, ?_⟩
            rw [ScopeChain.grow_nil]
            exact hr
          · refine ⟨[s], by simpa using hplace, ?_⟩
            rw [← ScopeChain.push_eq, ← hr.scopes]
            exact hr.withScopes _
        obtain ⟨q, ss, hq, hss, hresume⟩ := ih (m + 1 - j) (by omega) hpushed rfl
        refine ⟨q, new ++ ss, ?_, ?_, fun k u hu => ?_⟩
        · rw [ScopeChain.grow_grow] at hq
          exact hq
        · intro s' hs'
          rcases List.mem_append.1 hs' with hfirst | hrest
          · exact hnew s' hfirst
          · exact hss s' hrest
        · obtain ⟨k', hk'⟩ := hresume k u hu
          refine ⟨max (p.fill 1).bound k' + 1, bodyWithin_succ.2 (.statement s r hstart ?_ ?_)⟩
          · exact (extends_of_le (Nat.le_max_left _ _)).1 _ _ hs
          · exact (extends_of_le (Nat.le_max_right _ _)).2 true _ _ hk'
    · refine ⟨p, [], ?_, by simp, fun k r hr => ⟨k, hr⟩⟩
      rw [ScopeChain.grow_nil]
      exact h

end Line

end Along

end Parser

end FloatLang
