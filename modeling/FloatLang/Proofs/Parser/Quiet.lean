import FloatLang.Proofs.Parser.Success

/-!
# What is read leaves the brackets as they were

A statement that owns no scope has no brackets but those of its expressions, and an expression that is
read closes all it opens. So a simple statement that is read, and every clause of a loop, leaves the
open brackets as they were and reports nothing. Only the braces around bodies are left over.

## Main definitions

* `Parser.Quiet` — a parser comes to the same open brackets again and reports nothing

## Main results

* `Parser.quiet_expression` — an expression that is read
* `Parser.quiet_declaration`, `Parser.quiet_named` — simple statements
* `Parser.quiet_loopCondition`, `Parser.quiet_loopIncrement` — the clauses of a loop
-/

namespace FloatLang

theorem Token.isPlain_of_endsLine {t : Token} (h : t.endsLine = true) : t.isPlain = true := by
  cases hkind : t.kind <;>
    simp_all [endsLine, isEndOfLine, isEndOfFile, isPlain, error?, operator?]

theorem Token.isPlain_of_identifier {t : Token} {x : String} (h : t.kind = .identifier x) :
    t.isPlain = true := by simp [isPlain, error?, operator?, h]

theorem Token.isPlain_of_keyword {t : Token} {word : Keyword} (h : t.kind = .keyword word) :
    t.isPlain = true := by simp [isPlain, error?, operator?, h]

theorem Token.isPlain_of_isOperator {t : Token} {op : Operator} (h : t.isOperator op = true)
    (hop : op.bracket? = none) : t.isPlain = true :=
  Parser.isPlain_operator (kind_of_isOperator h) hop

namespace Parser

/-- The parser `q`, which comes from `p`, waits for the same brackets and has reported nothing. -/
structure Quiet (p q : Parser) : Prop where
  pending : q.scanner.pending = p.scanner.pending
  reports : q.scanner.reports = p.scanner.reports

variable {p q r : Parser} {s : Statement}

theorem Quiet.refl (p : Parser) : p.Quiet p := ⟨rfl, rfl⟩

theorem Quiet.trans (h : p.Quiet q) (h' : q.Quiet r) : p.Quiet r :=
  ⟨h'.pending.trans h.pending, h'.reports.trans h.reports⟩

theorem Quiet.congr (h : p.Quiet q) (hscanner : r.scanner = q.scanner) : p.Quiet r := by
  refine ⟨?_, ?_⟩
  · rw [hscanner, h.pending]
  · rw [hscanner, h.reports]

theorem quiet_fill (p : Parser) (n : Nat) : p.Quiet (p.fill n) :=
  ⟨p.scanner.pending_fill n, p.scanner.reports_fill n⟩

/-- A token that is neither invalid nor a bracket. -/
theorem quiet_advance (h : p.next.isPlain = true) : p.Quiet p.advance := by
  obtain ⟨haccepts, hpending⟩ := Scanner.accepts_advance (s := p.scanner) (follow?_of_isPlain h)
  exact ⟨hpending, haccepts.reports⟩

theorem quiet_fill_advance (h : p.next.isPlain = true) : p.Quiet (p.fill 1).advance :=
  (p.quiet_fill 1).trans (quiet_advance (by rwa [next_fill]))

/-! ### Expressions -/

theorem quiet_expression {terminal : Operator} {e : Expr}
    (h : p.expression terminal = (some e, q)) : p.Quiet q := by
  unfold expression at h
  dsimp only at h
  split at h
  next y r hcollect =>
    obtain ⟨us, haccepts, hpending⟩ := accepts_of_collect p.scanner.pending rfl hcollect
    unfold finishExpression at h
    split at h
    next hclosed =>
      -- no parenthesis of the expression is open, so only the brackets around it are
      have hopened : Postfix.opened y.waiting = [] := by
        rw [Postfix.openParentheses_eq] at hclosed
        simpa using hclosed
      rw [hopened, List.nil_append] at hpending
      split at h
      · obtain ⟨-, rfl⟩ := Prod.mk.inj h
        exact ⟨hpending, haccepts.reports⟩
      · simp at h
    · simp at h
  · simp at h

theorem quiet_condition {terminal : Operator} {c : Condition}
    (h : p.condition terminal = (some c, q)) : p.Quiet q :=
  quiet_expression (condition_eq_some h).1

/-! ### Simple statements -/

theorem quiet_terminator (h : p.terminator = (true, q)) : p.Quiet q := by
  obtain ⟨hend, rfl⟩ := terminator_eq_true.1 h
  split
  · exact p.quiet_fill 1
  next hbrace =>
    apply quiet_fill_advance
    rw [endsStatement, Token.isTerminator, Bool.or_eq_true, Bool.or_eq_true] at hend
    rcases hend with (hline | hsemicolon) | hend
    · exact Token.isPlain_of_endsLine hline
    · exact Token.isPlain_of_isOperator hsemicolon rfl
    · contradiction

theorem quiet_assignment {x : String} (hkind : p.next.kind = .identifier x)
    (h : p.assignment = (s, q)) (hvalid : s.isInvalid = false) : p.Quiet q := by
  obtain ⟨v, value, r, hassign, -, hvalue, hend, -⟩ := assignment_eq_read.1 ⟨h, hvalid⟩
  have hname : p.Quiet p.advance := quiet_advance (Token.isPlain_of_identifier hkind)
  have hequals : p.advance.Quiet p.advance.advance :=
    quiet_advance (Token.isPlain_of_isOperator hassign rfl)
  exact ((hname.trans hequals).trans (quiet_expression hvalue)).trans (quiet_terminator hend)

theorem isPlain_of_direction {t : Token} {d : Direction}
    (h : t.operator?.bind Direction.ofOperator? = some d) : t.isPlain = true := by
  obtain ⟨op, hop, hd⟩ := Option.bind_eq_some_iff.1 h
  have hbracket : op.bracket? = none := by cases op <;> first | rfl | contradiction
  exact isPlain_operator (Token.kind_of_operator? hop) hbracket

theorem quiet_step {terminated : Bool} {x : String} (hkind : p.next.kind = .identifier x)
    (h : p.step terminated = .ok (s, q)) (hvalid : s.isInvalid = false) : p.Quiet q := by
  obtain ⟨d, v, hd, -, -, hend⟩ := step_eq_read.1 ⟨h, hvalid⟩
  have hname : p.Quiet p.advance := quiet_advance (Token.isPlain_of_identifier hkind)
  have htwo := hname.trans (quiet_advance (isPlain_of_direction hd))
  cases terminated with
  | true => exact htwo.trans (quiet_terminator hend)
  | false =>
    obtain rfl := hend
    exact htwo

theorem quiet_named {x : String} (hkind : p.next.kind = .identifier x)
    (h : p.named = .ok (s, q)) (hvalid : s.isInvalid = false) : p.Quiet q := by
  have hfill : (p.fill 2).next.kind = .identifier x := by rwa [next_fill]
  obtain ⟨op, -, hread⟩ := named_eq_read.1 ⟨h, hvalid⟩
  split at hread
  · exact (p.quiet_fill 2).trans (quiet_step hfill hread.1 hread.2)
  · exact (p.quiet_fill 2).trans (quiet_assignment hfill hread.1 hread.2)

/-- Where a statement ends after the name that it declares. -/
theorem quiet_terminator_of_endsStatement (h : endsStatement p.next = true) :
    p.Quiet p.terminator.2 := by
  have hend := terminator_eq_true.2 ⟨h, rfl⟩
  rw [hend]
  exact quiet_terminator hend

theorem quiet_declaration (hkeyword : p.next.kind = .keyword .float)
    (h : p.declaration = (s, q)) (hread : s.isRead = true) : p.Quiet q := by
  obtain ⟨x, v, hname, hcases⟩ := declaration_eq_read.1 ⟨h, hread⟩
  have hfirst : p.Quiet (p.advance.fill 1) :=
    (quiet_advance (Token.isPlain_of_keyword hkeyword)).trans (quiet_fill _ 1)
  have hahead : ((p.advance.fill 1).fill 2).ahead 1 = p.ahead 2 := by
    rw [ahead_fill, ahead_fill, ahead_advance]
  have hkind : ((p.advance.fill 1).fill 2).next.kind = .identifier x := by
    rw [next_fill]
    exact Token.kind_of_identifier? hname
  have htwo := hfirst.trans (quiet_fill (p.advance.fill 1) 2)
  generalize (p.advance.fill 1).fill 2 = named at hcases hahead hkind htwo
  rcases hcases with ⟨hend, -, hdefine⟩ | ⟨-, value, r, hdefine, hvalue, hvalid, -⟩
  · obtain ⟨-, -, -, hscanner⟩ := define_eq_some hdefine
    have hnext : endsStatement named.advance.next = true := by
      rw [next_advance, hahead]
      exact hend
    have hname := htwo.trans (quiet_advance (Token.isPlain_of_identifier hkind))
    exact (hname.trans (quiet_terminator_of_endsStatement hnext)).congr hscanner
  · obtain ⟨-, -, -, hscanner⟩ := define_eq_some hdefine
    have hsame : r.next.kind = .identifier x := by
      rw [next, hscanner]
      exact hkind
    exact (htwo.congr hscanner).trans (quiet_assignment hsame hvalue hvalid)

/-! ### The clauses of a loop -/

theorem quiet_headerSemicolon {clause : HeaderClause} (h : p.headerSemicolon clause = (true, q)) :
    p.Quiet q := by
  obtain ⟨hsemicolon, rfl⟩ := headerSemicolon_eq_true.1 h
  exact quiet_advance (Token.isPlain_of_isOperator hsemicolon rfl)

theorem quiet_loopCondition {clause : Option Statement}
    (h : p.loopCondition = (some clause, q)) : p.Quiet q := by
  rcases loopCondition_eq_some.1 h with ⟨hsemicolon, -, rfl⟩ | ⟨-, c, r, hc, hsemicolon, rfl, -⟩
  · exact quiet_fill_advance (Token.isPlain_of_isOperator hsemicolon rfl)
  · exact ((p.quiet_fill 1).trans (quiet_condition hc)).trans
      (quiet_advance (Token.isPlain_of_isOperator hsemicolon rfl))

theorem quiet_loopIncrement {clause : Option Statement}
    (h : p.loopIncrement = .ok (some clause, q)) : p.Quiet q := by
  rcases loopIncrement_eq_some.1 h with ⟨-, -, rfl⟩ | ⟨hname, -, step, hstep, hvalid, -⟩
  · exact p.quiet_fill 1
  · obtain ⟨x, hx⟩ := Option.isSome_iff_exists.1 (Option.isNone_eq_false_iff.1 hname)
    have hkind : ((p.fill 1).fill 2).next.kind = .identifier x := by
      rw [next_fill, next_fill]
      exact Token.kind_of_identifier? hx
    exact ((p.quiet_fill 1).trans (quiet_fill _ 2)).trans (quiet_step hkind hstep hvalid)

end Parser

end FloatLang
