import FloatLang.Proofs.Parser.Frame
import FloatLang.Proofs.Parser.Success

/-!
# How the clauses of a loop are separated

The header of a loop has three clauses, each read in its own way: the first is a statement, the second
an expression and the third a step. Behind the second comes a `;`, and none behind the third. The first
clause is to end with a `;` too. If it is a block, or absent, it does. But a simple statement brings its
own end along, and that may be a line break: then the header goes on on the next line, with one `;` only.

## Main definitions

* `Parser.Clause` — tokens are taken, and no `;` is among them
* `Parser.ReadsClause` — a simple statement is taken, and what ends it
* `Parser.FirstClause` — how the first clause of a loop is read
* `LoopClauses` — the tokens of a header
* `Parser.Separates` — how a header is read

## Main results

* `Parser.readsClause_of_statement` — simple statements
* `Parser.firstClause_of_loopInit`, `Parser.clause_of_loopCondition`,
  `Parser.clause_of_loopIncrement` — the clauses
* `Parser.separates_loopHeader` — the header of a loop
* `Parser.loop_clauses_separated` — how many `;` are in the header of a loop
* `Parser.loop_with_one_semicolon` — there are not always two
-/

namespace FloatLang

/-- No operator that an expression takes is one at which expressions end. -/
theorem Postfix.Yard.precedence_of_takeAll? {resolve : String → Option Variable} {y y' : Yard}
    {us : List Token} (h : y.takeAll? resolve us = some y') :
    ∀ t ∈ us, ∀ op, t.operator? = some op → op.precedence ≠ Operator.outside := by
  intro t ht op hop
  obtain ⟨z, z', hstep⟩ := exists_take?_of_mem h t ht
  exact precedence_of_take? (Token.kind_of_operator? hop) hstep

namespace Parser

variable {p q r : Parser} {ts us : List Token} {s : Statement} {n : Nat}

/-! ### Tokens of a clause -/

/-- The parser `q` comes from `p` by taking the tokens `ts`, and none of them is a `;`. -/
structure Clause (p : Parser) (ts : List Token) (q : Parser) : Prop where
  handsOut : p.scanner.HandsOut ts q.scanner
  plain : ∀ t ∈ ts, t.isOperator .semicolon = false

namespace Clause

theorem trans (h : p.Clause ts q) (h' : q.Clause us r) : p.Clause (ts ++ us) r :=
  ⟨h.handsOut.trans h'.handsOut, fun t ht => (List.mem_append.1 ht).elim (h.plain t) (h'.plain t)⟩

theorem congr (h : p.Clause ts q) (hscanner : r.scanner = q.scanner) : p.Clause ts r :=
  ⟨hscanner ▸ h.handsOut, h.plain⟩

theorem nil (h : p.scanner.HandsOut [] q.scanner) : p.Clause [] q := ⟨h, by simp⟩

theorem of_fill {k : Nat} (h : (p.fill k).Clause ts q) : p.Clause ts q :=
  ⟨.fill k h.handsOut, h.plain⟩

theorem next (h : p.next.isOperator .semicolon = false) : p.Clause [p.next] p.advance :=
  ⟨.advance (.refl _), by simpa using h⟩

theorem identifier {x : String} (h : p.next.kind = .identifier x) : p.Clause [p.next] p.advance :=
  .next (by simp [Token.isOperator, Token.operator?, h])

theorem operator {op : Operator} (h : p.next.operator? = some op) (hop : op ≠ .semicolon) :
    p.Clause [p.next] p.advance :=
  .next (by simpa [Token.isOperator, h] using hop)

end Clause

/-- An expression starts with the next token, and its tokens are operands and operators. -/
theorem clause_of_expression {terminal : Operator} {e : Expr}
    (h : p.expression terminal = (some e, q)) :
    ∃ us, p.Clause (p.next :: us) q ∧
      ∀ op, p.next.operator? = some op → op.precedence ≠ Operator.outside := by
  obtain ⟨us, y, hus, htake, -, hassemble⟩ := expression_eq_some h
  have hoperators := Postfix.Yard.precedence_of_takeAll? htake
  cases us with
  | nil =>
    -- of no tokens no tree is made
    obtain rfl := Option.some.inj htake
    simp [Postfix.Yard.finish, Postfix.release, Postfix.assemble, Postfix.assembleWith] at hassemble
  | cons t us =>
    obtain rfl : t = p.next := by
      have htokens := hus.handsOut.tokens_eq
      rw [List.length_cons, List.range_succ_eq_map, List.map_cons] at htokens
      exact (List.cons.inj htokens).1
    refine ⟨us, ⟨hus.handsOut, fun t ht => ?_⟩, hoperators _ List.mem_cons_self⟩
    rw [← Bool.not_eq_true]
    intro hsemicolon
    exact hoperators t ht .semicolon (eq_of_beq hsemicolon) rfl

/-! ### Simple statements -/

/-- The parser `q` comes from `p` by taking tokens of which none is a `;`, one at least, and then what
ends a statement. -/
def ReadsClause (p q : Parser) : Prop :=
  ∃ ts u r, ts ≠ [] ∧ p.Clause ts u ∧ u.terminator = (true, r) ∧ q.scanner = r.scanner

theorem readsClause_assignment {x : String} (hkind : p.next.kind = .identifier x)
    (h : p.assignment = (s, q)) (hvalid : s.isInvalid = false) : p.ReadsClause q := by
  obtain ⟨v, value, r, hassign, -, hvalue, hend, -⟩ := assignment_eq_read.1 ⟨h, hvalid⟩
  obtain ⟨us, hus, -⟩ := clause_of_expression hvalue
  have htwo := (Clause.identifier hkind).trans (.operator (eq_of_beq hassign) (by decide))
  exact ⟨_, r, q, by simp, htwo.trans hus, hend, rfl⟩

/-- The name and the operator of a step. -/
theorem clause_of_step {x : String} (hkind : p.next.kind = .identifier x)
    (hstep : (p.advance.next.operator?.bind Direction.ofOperator?).isSome = true) :
    p.Clause [p.next, p.advance.next] p.advance.advance := by
  obtain ⟨d, hd⟩ := Option.isSome_iff_exists.1 hstep
  obtain ⟨op, hop, hdirection⟩ := Option.bind_eq_some_iff.1 hd
  refine (Clause.identifier hkind).trans (.operator hop ?_)
  rintro rfl
  contradiction

theorem readsClause_step {x : String} (hkind : p.next.kind = .identifier x)
    (h : p.step true = .ok (s, q)) (hvalid : s.isInvalid = false) : p.ReadsClause q := by
  obtain ⟨d, v, hd, -, -, hend⟩ := step_eq_read.1 ⟨h, hvalid⟩
  rw [if_pos rfl] at hend
  exact ⟨_, _, q, by simp, clause_of_step hkind (Option.isSome_of_mem hd), hend, rfl⟩

theorem ReadsClause.of_fill {k : Nat} (h : (p.fill k).ReadsClause q) : p.ReadsClause q := by
  obtain ⟨ts, u, r, hts, hclause, hend⟩ := h
  exact ⟨ts, u, r, hts, hclause.of_fill, hend⟩

theorem readsClause_named {x : String} (hkind : p.next.kind = .identifier x)
    (h : p.named = .ok (s, q)) (hvalid : s.isInvalid = false) : p.ReadsClause q := by
  have hfill : (p.fill 2).next.kind = .identifier x := by rwa [next_fill]
  obtain ⟨op, -, hread⟩ := named_eq_read.1 ⟨h, hvalid⟩
  apply ReadsClause.of_fill (k := 2)
  split at hread
  · exact readsClause_step hfill hread.1 hread.2
  · exact readsClause_assignment hfill hread.1 hread.2

theorem readsClause_declaration (hkeyword : p.next.kind = .keyword .float)
    (h : p.declaration = (s, q)) (hread : s.isRead = true) : p.ReadsClause q := by
  obtain ⟨x, v, hname, hcases⟩ := declaration_eq_read.1 ⟨h, hread⟩
  have hfirst : p.Clause [p.next] ((p.advance.fill 1).fill 2) := by
    have hword : p.Clause [p.next] p.advance :=
      .next (by simp [Token.isOperator, Token.operator?, hkeyword])
    exact hword.trans (.nil (.fill 1 (.fill 2 (.refl _))))
  have hahead : ((p.advance.fill 1).fill 2).ahead 1 = p.ahead 2 := by
    rw [ahead_fill, ahead_fill, ahead_advance]
  have hkind : ((p.advance.fill 1).fill 2).next.kind = .identifier x := by
    rw [next_fill]
    exact Token.kind_of_identifier? hname
  generalize (p.advance.fill 1).fill 2 = named at hcases hahead hkind hfirst
  rcases hcases with ⟨hend, -, hdefine⟩ | ⟨-, value, r, hdefine, hvalue, hvalid, -⟩
  · obtain ⟨-, -, -, hscanner⟩ := define_eq_some hdefine
    have hnext : endsStatement named.advance.next = true := by
      rw [next_advance, hahead]
      exact hend
    have hstop := terminator_eq_true.2 ⟨hnext, rfl⟩
    rw [hstop] at hscanner
    exact ⟨_, _, _, by simp, hfirst.trans (.identifier hkind), hstop, hscanner⟩
  · obtain ⟨-, -, -, hscanner⟩ := define_eq_some hdefine
    have hsame : r.next.kind = .identifier x := by
      rw [Parser.next, hscanner]
      exact hkind
    obtain ⟨ts, u, w, -, hclause, hend⟩ := readsClause_assignment hsame hvalue hvalid
    exact ⟨_, u, w, by simp, (hfirst.congr hscanner).trans hclause, hend⟩

theorem isBlock_of_branch {body : Parser → Except Halt Parser} (h : branchWith body p = .ok (s, q))
    (hvalid : s.isInvalid = false) : s.isBlock = true := by
  obtain ⟨_, _, _, _, -, -, -, -, rfl⟩ := branchWith_eq_read.1 ⟨h, hvalid⟩
  rfl

theorem isBlock_of_loop {body : Parser → Except Halt Parser}
    {statement : Parser → Except Halt (Statement × Parser)}
    (h : loopWith body statement p = .ok (s, q)) (hvalid : s.isInvalid = false) :
    s.isBlock = true := by
  obtain ⟨_, _, _, _, -, -, -, rfl⟩ := loopWith_eq_read.1 ⟨h, hvalid⟩
  rfl

/-- A simple statement that is read ends with a token of its own, or before a closing brace. -/
theorem readsClause_of_statement (h : statementWithin n p = .ok (s, q)) (hread : s.isRead = true)
    (hblock : s.isBlock = false) : p.ReadsClause q := by
  have hvalid := isInvalid_of_isRead hread
  cases n with
  | zero => simp [statementWithin, halt] at h
  | succ n =>
    rw [statementWithin] at h
    apply ReadsClause.of_fill (k := 1)
    split at h
    next hkind => exact readsClause_declaration hkind (Except.ok.inj h) hread
    next => exact absurd (isBlock_of_branch h hvalid) (by simp [hblock])
    next => exact absurd (isBlock_of_loop h hvalid) (by simp [hblock])
    next hkind => exact readsClause_named hkind h hvalid
    next =>
      obtain ⟨rfl, -⟩ := Prod.mk.inj (Except.ok.inj h)
      contradiction

/-! ### The first clause -/

variable {init clause : Option Statement} {t : Token}

/-- The parser `q` comes from `p` by reading the first clause of a loop, with its tokens `ts` and the
token `t` that ends it. -/
structure FirstClause (n : Nat) (p : Parser) (init : Option Statement) (ts : List Token) (t : Token)
    (q : Parser) : Prop where
  handsOut : p.scanner.HandsOut (ts ++ [t]) q.scanner
  absent : init = none ↔ ts = []
  /-- A simple statement brings its end along. -/
  reads : ∀ s, init = some s → ∃ r, statementWithin n (p.fill 1) = .ok (s, r) ∧
    p.scanner.HandsOut (if s.isBlock then ts else ts ++ [t]) r.scanner
  plain : init.any Statement.isBlock = false → ∀ u ∈ ts, u.isOperator .semicolon = false
  ends : t.isOperator .semicolon = true ∨
    (t.endsLine = true ∧ ∃ s, init = some s ∧ s.isBlock = false)

theorem firstClause_absent (h : p.next.isOperator .semicolon = true) :
    FirstClause n p none [] p.next (p.fill 1).advance where
  handsOut := by
    have hnext : (p.fill 1).scanner.next = p.next := p.next_fill 1
    exact .fill 1 (hnext ▸ .advance (.refl _))
  absent := by simp
  reads := by simp
  plain := by simp
  ends := .inl h

/-- A block statement is followed by a `;`. -/
theorem firstClause_block (h : statementWithin n (p.fill 1) = .ok (s, r))
    (hblock : s.isBlock = true) (hend : r.next.isOperator .semicolon = true)
    (hscanner : q.scanner = r.advance.scanner) : ∃ ts, FirstClause n p (some s) ts r.next q := by
  obtain ⟨s', r', hread, us, hus⟩ := (p.fill 1).statement_passes
  rw [extends_statement n _ _ h] at hread
  obtain ⟨rfl, rfl⟩ := Prod.mk.inj (Except.ok.inj hread)
  refine ⟨(p.fill 1).next :: us, ?_, by simp, ?_, by simp [hblock], .inl hend⟩
  · rw [hscanner]
    exact (Scanner.HandsOut.fill 1 hus.handsOut).trans (.advance (.refl _))
  · rintro _ ⟨⟩
    rw [if_pos hblock]
    exact ⟨r, h, .fill 1 hus.handsOut⟩

/-- A simple statement ends with a token of its own, or before a closing brace. -/
theorem firstClause_simple (h : statementWithin n (p.fill 1) = .ok (s, r)) (hread : s.isRead = true)
    (hblock : s.isBlock = false) (hscanner : q.scanner = r.scanner) :
    (∃ ts t, FirstClause n p (some s) ts t q) ∨ q.next.isOperator .rightBrace = true := by
  obtain ⟨ts, u, w, hts, hclause, hend, hw⟩ := readsClause_of_statement h hread hblock
  obtain ⟨hstop, rfl⟩ := terminator_eq_true.1 hend
  have hq := hscanner.trans hw
  split at hq
  next hbrace =>
    right
    have hnext : q.next = u.next := (congrArg Scanner.next hq).trans (u.next_fill 1)
    rw [hnext]
    exact hbrace
  next hbrace =>
    left
    have hnext : (u.fill 1).scanner.next = u.next := u.next_fill 1
    have htaken : p.scanner.HandsOut (ts ++ [u.next]) q.scanner := by
      rw [hq]
      exact hclause.of_fill.handsOut.trans (.fill 1 (hnext ▸ .advance (.refl _)))
    refine ⟨ts, u.next, htaken, by simpa using hts, ?_, fun _ => hclause.plain, ?_⟩
    · rintro _ ⟨⟩
      rw [if_neg (by simp [hblock])]
      exact ⟨r, h, hscanner ▸ htaken⟩
    · simp only [endsStatement, Token.isTerminator, hbrace, Bool.or_false, Bool.or_eq_true] at hstop
      exact hstop.symm.imp_right fun hline => ⟨hline, s, rfl, hblock⟩

/-- The first clause is read with its end, or a closing brace comes next. -/
theorem firstClause_of_loopInit (h : loopInit (statementWithin n) p = .ok (true, q)) :
    ∃ init vs, p.Grows vs init.toList q ∧
      ((∃ ts t, FirstClause n p init ts t q) ∨ q.next.isOperator .rightBrace = true) := by
  rcases loopInit_eq_true.1 h with ⟨hsemicolon, rfl⟩ | ⟨-, s, r, hs, hread, hrest⟩
  · exact ⟨none, [], .of_scopes rfl, .inl ⟨[], _, firstClause_absent hsemicolon⟩⟩
  · have hgrows : p.Grows s.declared [] r := ((grows_within n).1 hs).grows
    have hpush := hgrows.trans (grows_push r s)
    rw [List.append_nil] at hpush
    split at hrest
    next hblock =>
      obtain ⟨hsemicolon, rfl⟩ := headerSemicolon_eq_true.1 hrest
      obtain ⟨ts, hclause⟩ := firstClause_block (q := (r.push s).advance) hs hblock hsemicolon rfl
      exact ⟨some s, _, hpush, .inl ⟨ts, _, hclause⟩⟩
    next hblock =>
      subst hrest
      exact ⟨some s, _, hpush, firstClause_simple hs hread (Bool.eq_false_iff.2 hblock) rfl⟩

/-! ### The other clauses -/

/-- The second clause ends before a `;`. It starts neither at a closing brace nor at the end of the
file. -/
theorem clause_of_loopCondition (h : p.loopCondition = (some clause, q)) :
    ∃ ts r, p.Clause ts r ∧ r.next.isOperator .semicolon = true ∧ q.scanner = r.advance.scanner ∧
      (clause = none ↔ ts = []) ∧ p.next.isOperator .rightBrace = false ∧
      p.next.isEndOfFile = false := by
  rcases loopCondition_eq_some.1 h with ⟨hsemicolon, rfl, rfl⟩ | ⟨-, c, r, hc, hend, rfl, rfl⟩
  · have hkind := Token.kind_of_isOperator hsemicolon
    have hnext : (p.fill 1).next.isOperator .semicolon = true := by rwa [next_fill]
    refine ⟨[], p.fill 1, .nil (.fill 1 (.refl _)), hnext, rfl, by simp, ?_, ?_⟩
    · simp [Token.isOperator, Token.operator?, hkind]
    · simp [Token.isEndOfFile, hkind]
  · have hexpression := (condition_eq_some hc).1
    obtain ⟨us, hus, hoperator⟩ := clause_of_expression hexpression
    have hmore := isEndOfFile_of_expression hexpression
    rw [next_fill] at hoperator hmore
    refine ⟨_, r, hus.of_fill, hend, rfl, by simp, ?_, hmore⟩
    rw [← Bool.not_eq_true]
    intro hbrace
    exact hoperator .rightBrace (eq_of_beq hbrace) rfl

/-- A step is two tokens, neither of them a `;`. -/
theorem clause_of_loopIncrement (h : p.loopIncrement = .ok (some clause, q)) :
    ∃ ts, p.Clause ts q ∧ (clause = none ↔ ts = []) := by
  rcases loopIncrement_eq_some.1 h with ⟨-, rfl, rfl⟩ | ⟨hname, -, s, hs, hvalid, rfl⟩
  · exact ⟨[], .nil (.fill 1 (.refl _)), by simp⟩
  · obtain ⟨d, v, hd, -, -, hq⟩ := step_eq_read.1 ⟨hs, hvalid⟩
    obtain ⟨x, hx⟩ := Option.ne_none_iff_exists'.1
      (mt Option.isNone_iff_eq_none.2 (Bool.not_eq_true _ ▸ hname))
    have hkind : ((p.fill 1).fill 2).next.kind = .identifier x := by
      rw [next_fill, next_fill]
      exact Token.kind_of_identifier? hx
    rw [if_neg Bool.false_ne_true] at hq
    subst hq
    exact ⟨_, (clause_of_step hkind (Option.isSome_of_mem hd)).of_fill.of_fill, by simp⟩

end Parser

/-! ### Headers -/

/-- The tokens of the clauses of a loop, and those that end the first two. -/
structure LoopClauses where
  first : List Token
  firstEnd : Token
  second : List Token
  secondEnd : Token
  third : List Token

namespace LoopClauses

variable (c : LoopClauses)

/-- The tokens of the header. -/
def tokens : List Token := c.first ++ c.firstEnd :: (c.second ++ c.secondEnd :: c.third)

/-- The tokens of the header that are not inside its first clause, if that is a block statement. -/
def outside (block : Bool) : List Token :=
  (if block then [] else c.first) ++ c.firstEnd :: (c.second ++ c.secondEnd :: c.third)

end LoopClauses

namespace Parser

variable {p q r : Parser} {init condition increment : Option Statement} {n : Nat}
  {c : LoopClauses}

/-- The parser `r` comes from `p` by reading the header of a loop with its clauses, and the brace
behind it. -/
structure Separates (n : Nat) (p : Parser) (init condition increment : Option Statement)
    (c : LoopClauses) (r : Parser) : Prop where
  handsOut : ∃ brace, brace.isOperator .leftBrace = true ∧
    p.scanner.HandsOut (c.tokens ++ [brace]) r.scanner
  first : ∃ q, FirstClause n p init c.first c.firstEnd q
  /-- After the end of the file there is no header. -/
  goesOn : p.scanner.EndsOnce → c.firstEnd.isEndOfFile = false
  noCondition : condition = none ↔ c.second = []
  noIncrement : increment = none ↔ c.third = []
  secondEnd : c.secondEnd.isOperator .semicolon = true
  plain : ∀ t ∈ c.second ++ c.third, t.isOperator .semicolon = false

/-- A token behind which there is another one is not the end of the file. -/
theorem isEndOfFile_of_handsOut {ts : List Token} {t : Token}
    (h : p.scanner.HandsOut (ts ++ [t]) q.scanner) (honce : p.scanner.EndsOnce)
    (hmore : q.next.isEndOfFile = false) : t.isEndOfFile = false := by
  rw [← Bool.not_eq_true]
  intro hend
  have hahead : t = p.scanner.ahead ts.length := by
    have htokens := h.tokens_eq
    rw [List.length_append, List.length_singleton, List.range_succ, List.map_append] at htokens
    exact List.singleton_inj.1 (List.append_inj_right' htokens rfl)
  rw [hahead] at hend
  have hnext : q.next = p.scanner.ahead (ts.length + 1) := by
    have hmoved := h.ahead 0
    rwa [Nat.zero_add, List.length_append] at hmoved
  rw [hnext, honce.stays _ hend] at hmore
  contradiction

/-- Nothing is declared in the second and the third clause. -/
theorem keeps_of_clauses (hcondition : p.loopCondition = (some condition, q))
    (hincrement : q.loopIncrement = .ok (some increment, r)) : p.Keeps r := by
  rcases loopCondition_steps hcondition with ⟨hnone, -⟩ | ⟨_, -, hkeeps, -⟩
  · contradiction
  rcases loopIncrement_steps hincrement with ⟨hnone, -⟩ | ⟨_, -, hkeeps', -⟩
  · contradiction
  exact hkeeps.trans hkeeps'

/-- The header of a loop is read clause by clause. -/
theorem separates_loopHeader {header : LoopHeader}
    (h : loopHeaderWith (statementWithin n) p = .ok (some header, q)) :
    ∃ init vs c, p.Grows vs init.toList q ∧
      Separates n p init header.condition header.increment c q := by
  obtain ⟨u, v, w, hinit, hcondition, hincrement, hbrace, rfl⟩ := loopHeaderWith_eq_some.1 h
  obtain ⟨init, vs, hgrows, hfirst⟩ := firstClause_of_loopInit hinit
  obtain ⟨second, r, hsecond, hsemicolon, hv, hnone, hnot, hmore⟩ :=
    clause_of_loopCondition hcondition
  obtain ⟨third, hthird, hnone'⟩ := clause_of_loopIncrement hincrement
  rcases hfirst with ⟨ts, t, hfirst⟩ | hclosed
  · refine ⟨init, vs, ⟨ts, t, second, r.next, third⟩, ?_, ?_⟩
    · obtain ⟨k, hu⟩ := hgrows
      have hkeeps := (keeps_of_clauses hcondition hincrement).trans w.keeps_advance
      exact ⟨k, hkeeps.scopes.trans hu⟩
    · have hlast := hthird.handsOut.trans (.advance (.refl _))
      rw [hv] at hlast
      have hrest : u.scanner.HandsOut (second ++ r.next :: (third ++ [w.next])) w.advance.scanner :=
        hsecond.handsOut.trans (.advance hlast)
      exact {
        handsOut := ⟨w.next, hbrace, by
          have htaken := hfirst.handsOut.trans hrest
          simpa [LoopClauses.tokens] using htaken⟩
        first := ⟨u, hfirst⟩
        goesOn := fun honce => isEndOfFile_of_handsOut hfirst.handsOut honce hmore
        noCondition := hnone
        noIncrement := hnone'
        secondEnd := hsemicolon
        plain := fun t ht => (List.mem_append.1 ht).elim (hsecond.plain t) (hthird.plain t) }
  · rw [hclosed] at hnot
    contradiction

/-- Of the tokens of a header only those that end its first two clauses can be `;`. -/
theorem Separates.countP_outside (h : Separates n p init condition increment c r) :
    (c.outside (init.any Statement.isBlock)).countP (·.isOperator .semicolon) =
      if c.firstEnd.isOperator .semicolon then 2 else 1 := by
  obtain ⟨q, hfirst⟩ := h.first
  have hplain := List.forall_mem_append.1 h.plain
  have hzero {ts : List Token} (hts : ∀ t ∈ ts, t.isOperator .semicolon = false) :
      ts.countP (·.isOperator .semicolon) = 0 :=
    List.countP_eq_zero.2 fun t ht => Bool.eq_false_iff.1 (hts t ht)
  have hinit : (if init.any Statement.isBlock = true then [] else c.first).countP
      (·.isOperator .semicolon) = 0 := by
    split
    · rfl
    next hblock => exact hzero (hfirst.plain (Bool.eq_false_iff.2 hblock))
  rw [LoopClauses.outside, List.countP_append, hinit, List.countP_cons, List.countP_append,
    hzero hplain.1, List.countP_cons, hzero hplain.2, if_pos h.secondEnd]
  split <;> rfl

/-- A loop that owns a first clause is known by it. -/
theorem exists_loop_of_any (p : Parser) (test : Statement → Parser → Bool)
    (h : (p.loop.toOption.any fun answer => answer.1.owned?.any fun owned =>
      owned.1.any (test · answer.2)) = true) :
    ∃ init condition increment scope l q,
      p.loop = .ok (.loop (some init) condition increment scope l, q) ∧ test init q = true := by
  cases hp : p.loop with
  | error halt => simp [hp, Except.toOption] at h
  | ok answer =>
    obtain ⟨s, q⟩ := answer
    rw [hp] at h
    obtain ⟨⟨first, scope⟩, howned, hfirst⟩ := (Option.any_eq_true _ s.owned?).1 h
    obtain ⟨init, rfl, htest⟩ := (Option.any_eq_true _ _).1 hfirst
    cases s with
    | loop first condition increment body l =>
      obtain ⟨rfl, rfl⟩ := Prod.mk.inj (Option.some.inj howned)
      exact ⟨init, condition, increment, body, l, q, rfl, htest⟩
    | _ => simp [Statement.owned?] at howned

/-- The clauses of a loop that is read are told apart by a `;` behind the second one and the end of the
first, which is a `;` as well if the first clause is absent or a block statement, but may be a line
break if it is a simple statement. So outside of a block statement there are two `;` in the header or,
behind a line break, one. -/
theorem loop_clauses_separated {scope : Scope Statement} {l : Location}
    (h : loopWith (bodyWithin n false) (statementWithin n) p =
      .ok (.loop init condition increment scope l, q)) :
    ∃ c r v u, Separates n p.advance.enter init condition increment c r ∧ r.pop = (init, v) ∧
      bodyWithin n false v = .ok u ∧ u.leave = .ok (scope, q) ∧
      (c.outside (init.any Statement.isBlock)).countP (·.isOperator .semicolon) =
        if c.firstEnd.isOperator .semicolon then 2 else 1 := by
  obtain ⟨header, r, u, scope', hheader, hu, hleave, hs⟩ := loopWith_eq_read.1 ⟨h, rfl⟩
  obtain ⟨rfl, rfl, rfl, rfl, -⟩ := Statement.loop.inj hs
  obtain ⟨init, vs, c, ⟨k, hr⟩, hseparates⟩ := separates_loopHeader hheader
  obtain ⟨v, hpop, -, -⟩ := pop_of_grow hr
  rw [hpop] at hu ⊢
  exact ⟨c, r, v, u, hseparates, hpop, hu, hleave, hseparates.countP_outside⟩

/-- A loop whose first clause is a block statement. -/
theorem clauses_separated_behind_block :
    let p := ofSource (.ofText ⟨"main"⟩ "for if 1 < 2 \x7b\n float y = 1;\n\x7d;; \x7b\n\x7d")
    ∃ init condition increment scope l q,
      p.loop = .ok (.loop (some init) condition increment scope l, q) ∧ init.isBlock = true ∧
      ∃ c r v u, Separates p.bound p.advance.enter (some init) condition increment c r ∧
        r.pop = (some init, v) ∧ bodyWithin p.bound false v = .ok u ∧
        u.leave = .ok (scope, q) ∧
        (c.outside ((some init).any Statement.isBlock)).countP (·.isOperator .semicolon) =
          if c.firstEnd.isOperator .semicolon then 2 else 1 := by
  intro p
  obtain ⟨init, condition, increment, scope, l, q, hp, hblock⟩ :=
    exists_loop_of_any p (fun init _ => init.isBlock) (by decide +kernel)
  exact ⟨init, condition, increment, scope, l, q, hp, hblock, loop_clauses_separated hp⟩

/-- The first clause ends with its line, and there is a single `;` in the whole source. -/
theorem loop_with_one_semicolon :
    let p := ofSource (.ofText ⟨"main"⟩ "for float i = 0\n i < 3; i++ \x7b\n\x7d")
    ∃ init condition increment scope l q,
      p.loop = .ok (.loop (some init) condition increment scope l, q) ∧ init.isBlock = false ∧
      q.scanner.reports = [] ∧ (p.scanner.tokens).1.countP (·.isOperator .semicolon) = 1 := by
  intro p
  obtain ⟨init, condition, increment, scope, l, q, hp, hfacts⟩ :=
    exists_loop_of_any p (fun init q => !init.isBlock && q.scanner.reports.isEmpty)
      (by decide +kernel)
  obtain ⟨hblock, hreports⟩ := (Bool.and_eq_true _ _).mp hfacts
  exact ⟨init, condition, increment, scope, l, q, hp, by simpa using hblock,
    List.isEmpty_iff.1 hreports, by decide +kernel⟩

end Parser

end FloatLang
