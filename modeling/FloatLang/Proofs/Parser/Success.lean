import FloatLang.Proofs.Tree.Blocks

/-!
# What it takes to be read

Every reader has one way to succeed and many to fail. Here the one way is spelled out for each of
them: a statement is read exactly if its parts are read one after the other, from where the part
before has left the parser. So what two parsers have in common where a statement starts can be
followed through the statement.

## Main results

* `Parser.expression_eq_read` — expressions
* `Parser.terminator_eq_true`, `Parser.assignment_eq_read`, `Parser.step_eq_read`,
  `Parser.declaration_eq_read`, `Parser.named_eq_read` — simple statements
* `Parser.loopInit_eq_true`, `Parser.loopCondition_eq_some`, `Parser.loopIncrement_eq_some`,
  `Parser.loopHeaderWith_eq_some` — the clauses of a loop
* `Parser.branchWith_eq_read`, `Parser.loopWith_eq_read` — block statements
-/

namespace FloatLang

/-- Whether a statement was read, with the value it declares a variable with. -/
def Statement.isRead (s : Statement) : Bool := !Parser.initFailed s

namespace Parser

variable {p q r : Parser} {s : Statement}

theorem isInvalid_of_isRead (h : s.isRead = true) : s.isInvalid = false :=
  Statement.isInvalid_of_initFailed (by simpa [Statement.isRead] using h)

/-! ### Expressions -/

/-- An expression is read if its tokens are collected, all its parentheses are closed, and a tree is
made of them. -/
theorem expression_eq_read {terminal : Operator} {e : Expr} :
    p.expression terminal = (some e, q) ↔
      ∃ y, collect terminal (p.remaining + 1) {} p = (some y, q) ∧
        y.openParentheses.isEmpty = true ∧
        Postfix.assemble p.next.location y.finish = .ok e := by
  unfold expression
  dsimp only
  generalize collect terminal (p.remaining + 1) {} p = answer
  obtain ⟨y, r⟩ := answer
  cases y with
  | none => simp
  | some y =>
    dsimp only
    unfold finishExpression
    constructor
    · intro h
      split at h
      next hclosed =>
        split at h
        next hassemble =>
          obtain ⟨he, rfl⟩ := Prod.mk.inj h
          obtain rfl := Option.some.inj he
          exact ⟨y, rfl, hclosed, hassemble⟩
        · simp at h
      · simp at h
    · rintro ⟨y', hy, hclosed, hassemble⟩
      obtain ⟨hy', rfl⟩ := Prod.mk.inj hy
      obtain rfl := Option.some.inj hy'
      rw [if_pos hclosed, hassemble]

/-- At the end of the file there is no expression. -/
theorem isEndOfFile_of_expression {terminal : Operator} {e : Expr}
    (h : p.expression terminal = (some e, q)) : p.next.isEndOfFile = false := by
  cases hend : p.next.isEndOfFile with
  | false => rfl
  | true =>
    obtain ⟨y, hcollect, -, hassemble⟩ := expression_eq_read.1 h
    have hkind : p.next.kind = .endOfFile := by simpa [Token.isEndOfFile] using hend
    by_cases hends : endsExpression terminal (({} : Postfix.Yard).continues) p.next = true
    · -- nothing has been collected, and nothing is no expression
      rw [collect_end hends] at hcollect
      obtain ⟨hy, -⟩ := Prod.mk.inj hcollect
      obtain rfl := Option.some.inj hy
      simp [Postfix.Yard.finish, Postfix.release, Postfix.assemble, Postfix.assembleWith] at hassemble
    · have hnone := collect_stop (n := p.remaining) hends
        (show Postfix.Yard.take? p.scopes.resolve? {} p.next = none by
          simp [Postfix.Yard.take?, hkind])
      simp [hcollect] at hnone

/-! ### Simple statements -/

theorem terminator_eq_true :
    p.terminator = (true, q) ↔
      endsStatement p.next = true ∧
        q = if p.next.isOperator .rightBrace then p.fill 1 else (p.fill 1).advance := by
  unfold terminator endsStatement
  dsimp only
  rw [next_fill]
  by_cases hbrace : p.next.isOperator .rightBrace = true
  · simp [hbrace, eq_comm]
  · by_cases hend : p.next.isTerminator = true
    · simp [hbrace, hend, eq_comm]
    · simp [hbrace, hend]

theorem headerSemicolon_eq_true {clause : HeaderClause} :
    p.headerSemicolon clause = (true, q) ↔
      p.next.isOperator .semicolon = true ∧ q = p.advance := by
  unfold headerSemicolon
  dsimp only
  by_cases hsemicolon : p.next.isOperator .semicolon = true
  · simp [hsemicolon, eq_comm]
  · simp [hsemicolon]

theorem condition_eq_some_iff {terminal : Operator} {c : Condition} :
    p.condition terminal = (some c, q) ↔
      p.expression terminal = (some c.inner, q) ∧ c.location = c.inner.location := by
  refine ⟨condition_eq_some, fun ⟨hexpression, hlocation⟩ => ?_⟩
  unfold condition
  rw [hexpression]
  dsimp only
  rw [← hlocation]

/-- The variable that the name which is next refers to. -/
def target? (p : Parser) : Option Variable :=
  p.scopes.resolve? (p.next.identifier?.getD "")

/-- A name that refers to a variable is resolved, wherever the parser stands by then. -/
theorem resolve_of_some {x : String} {l : Location} {v : Variable}
    (h : p.scopes.resolve? x = some v) : p.resolve x l = (some v, p) := by
  unfold resolve
  rw [h]

theorem assignment_eq_read :
    p.assignment = (s, q) ∧ s.isInvalid = false ↔
      ∃ v value r, p.advance.next.isOperator .assign = true ∧ p.target? = some v ∧
        p.advance.advance.expression .semicolon = (some value, r) ∧ r.terminator = (true, q) ∧
        s = .assign ⟨v, p.next.location⟩ value p.next.location := by
  constructor
  · rintro ⟨h, hvalid⟩
    rcases assignment_steps h with
      ⟨l, rfl, -⟩ | ⟨v, value, r, hassign, hv, hvalue, hend, hs, -⟩
    · cases hvalid
    · exact ⟨v, value, r, hassign, hv, hvalue, hend, hs⟩
  · rintro ⟨v, value, r, hassign, hv, hvalue, hend, rfl⟩
    have hresolve : p.advance.advance.resolve (p.next.identifier?.getD "") p.next.location =
        (some v, p.advance.advance) := resolve_of_some hv
    refine ⟨?_, rfl⟩
    unfold assignment
    dsimp only
    rw [if_pos hassign, hresolve]
    dsimp only
    rw [hvalue]
    dsimp only
    rw [hend]

theorem step_eq_read {terminated : Bool} :
    p.step terminated = .ok (s, q) ∧ s.isInvalid = false ↔
      ∃ d v, p.advance.next.operator?.bind Direction.ofOperator? = some d ∧ p.target? = some v ∧
        s = .step d ⟨v, p.next.location⟩ p.next.location ∧
        if terminated then p.advance.advance.terminator = (true, q)
        else q = p.advance.advance := by
  constructor
  · rintro ⟨h, hvalid⟩
    rcases step_cases h with ⟨l, rfl, -⟩ | ⟨d, v, hd, hv, hs, hend, -⟩
    · cases hvalid
    · exact ⟨d, v, hd, hv, hs, hend⟩
  · rintro ⟨d, v, hd, hv, rfl, hend⟩
    have hresolve : p.advance.advance.resolve (p.next.identifier?.getD "") p.next.location =
        (some v, p.advance.advance) := resolve_of_some hv
    refine ⟨?_, rfl⟩
    unfold step
    dsimp only
    rw [hd]
    dsimp only
    rw [hresolve]
    dsimp only
    cases terminated with
    | true =>
      rw [if_pos rfl] at hend
      rw [if_pos rfl, hend]
    | false =>
      rw [if_neg (by simp)] at hend
      rw [if_neg (by simp), hend]

/-- A declaration is read if it ends after the name, or with a value that is read. -/
theorem declaration_eq_read :
    p.declaration = (s, q) ∧ s.isRead = true ↔
      ∃ x v, (p.advance.fill 1).next.identifier? = some x ∧
        ((endsStatement (p.ahead 2) = true ∧ s = .declare v ∧
            ((p.advance.fill 1).fill 2).advance.terminator.2.define x (p.ahead 1).location =
              (some v, q)) ∨
          (endsStatement (p.ahead 2) = false ∧ ∃ value r,
            ((p.advance.fill 1).fill 2).define x (p.ahead 1).location = (some v, r) ∧
            r.assignment = (value, q) ∧ value.isInvalid = false ∧
            s = .compound (.declare v) value p.next.location)) := by
  have hname : (p.advance.fill 1).next.location = (p.ahead 1).location := by
    rw [next_fill, next_advance]
  have hafter : (((p.advance.fill 1).fill 2).ahead 1) = p.ahead 2 := by
    rw [ahead_fill, ahead_fill, ahead_advance]
  unfold declaration
  dsimp only
  rw [hname, hafter]
  constructor
  · rintro ⟨h, hread⟩
    have hvalid := isInvalid_of_isRead hread
    split at h
    next =>
      obtain ⟨rfl, -⟩ := Prod.mk.inj h
      simp [Statement.isInvalid] at hvalid
    next x hx =>
      split at h
      next hend =>
        split at h
        next v u hdefine =>
          obtain ⟨rfl, rfl⟩ := Prod.mk.inj h
          exact ⟨x, v, hx, .inl ⟨hend, rfl, hdefine⟩⟩
        next =>
          obtain ⟨rfl, -⟩ := Prod.mk.inj h
          simp [Statement.isInvalid] at hvalid
      next hend =>
        split at h
        next v u hdefine =>
          obtain ⟨rfl, rfl⟩ := Prod.mk.inj h
          have hvalue : u.assignment.1.isInvalid = false := by
            simpa [Statement.isRead, initFailed, Statement.isInvalid] using hread
          exact ⟨x, v, hx, .inr ⟨Bool.eq_false_iff.2 hend, _, u, hdefine, rfl, hvalue, rfl⟩⟩
        next =>
          obtain ⟨rfl, -⟩ := Prod.mk.inj h
          simp [Statement.isInvalid] at hvalid
  · rintro ⟨x, v, hx, ⟨hend, rfl, hdefine⟩ | ⟨hend, value, r, hdefine, hvalue, hvalid, rfl⟩⟩
    · refine ⟨?_, rfl⟩
      rw [hx]
      dsimp only
      rw [if_pos hend, hdefine]
    · have hread : (Statement.compound (.declare v) value p.next.location).isRead = true := by
        rw [Statement.isRead, initFailed, hvalid]
        rfl
      refine ⟨?_, hread⟩
      rw [hx]
      dsimp only
      rw [if_neg (by simp [hend]), hdefine]
      dsimp only
      rw [hvalue]

theorem named_eq_read :
    p.named = .ok (s, q) ∧ s.isInvalid = false ↔
      ∃ op, (p.ahead 1).operator? = some op ∧
        if op.isStep then (p.fill 2).step true = .ok (s, q) ∧ s.isInvalid = false
        else (p.fill 2).assignment = (s, q) ∧ s.isInvalid = false := by
  unfold named
  dsimp only
  rw [ahead_fill]
  cases hop : (p.ahead 1).operator? with
  | none =>
    refine ⟨fun ⟨h, hvalid⟩ => ?_, fun ⟨op, hop, _⟩ => by contradiction⟩
    obtain ⟨rfl, -⟩ := Prod.mk.inj (Except.ok.inj h)
    simp [Statement.isInvalid] at hvalid
  | some op =>
    cases hstep : op.isStep with
    | true => simp [hstep]
    | false => simp [hstep]

/-! ### The clauses of a loop -/

variable {body : Parser → Except Halt Parser}
  {statement : Parser → Except Halt (Statement × Parser)}

theorem loopInit_eq_true :
    loopInit statement p = .ok (true, q) ↔
      (p.next.isOperator .semicolon = true ∧ q = (p.fill 1).advance) ∨
        (p.next.isOperator .semicolon = false ∧ ∃ init r,
          statement (p.fill 1) = .ok (init, r) ∧ init.isRead = true ∧
          if init.isBlock then (r.push init).headerSemicolon .init = (true, q)
          else q = r.push init) := by
  unfold loopInit
  dsimp only
  rw [next_fill]
  cases hsemicolon : p.next.isOperator .semicolon with
  | true =>
    rw [if_pos rfl]
    refine ⟨fun h => .inl ⟨rfl, (Prod.mk.inj (Except.ok.inj h)).2.symm⟩, ?_⟩
    rintro (⟨-, rfl⟩ | ⟨h, -⟩)
    · rfl
    · contradiction
  | false =>
    simp only [Bool.false_eq_true, if_false, false_and, false_or, true_and]
    constructor
    · intro h
      obtain ⟨⟨init, r⟩, hinit, hrest⟩ := bind_eq_ok.1 h
      dsimp only at hrest
      split at hrest
      · obtain ⟨hnone, -⟩ := Prod.mk.inj (Except.ok.inj hrest)
        simp at hnone
      next hfailed =>
        refine ⟨init, r, hinit, by simpa [Statement.isRead] using hfailed, ?_⟩
        split at hrest
        next hblock =>
          rw [if_pos hblock]
          exact Except.ok.inj hrest
        next hblock =>
          rw [if_neg hblock]
          exact (Prod.mk.inj (Except.ok.inj hrest)).2.symm
    · rintro ⟨init, r, hinit, hread, hrest⟩
      refine bind_eq_ok.2 ⟨_, hinit, ?_⟩
      have hfailed : initFailed init = false := by simpa [Statement.isRead] using hread
      dsimp only
      rw [hfailed, if_neg (by simp)]
      split at hrest
      next hblock => rw [if_pos hblock, hrest]; rfl
      next hblock => rw [if_neg hblock, hrest]; rfl

theorem loopCondition_eq_some {clause : Option Statement} :
    p.loopCondition = (some clause, q) ↔
      (p.next.isOperator .semicolon = true ∧ clause = none ∧ q = (p.fill 1).advance) ∨
        (p.next.isOperator .semicolon = false ∧ ∃ c r,
          (p.fill 1).condition .semicolon = (some c, r) ∧
          r.next.isOperator .semicolon = true ∧ q = r.advance ∧
          clause = some (.expr c.expr c.location)) := by
  unfold loopCondition
  dsimp only
  rw [next_fill]
  cases hsemicolon : p.next.isOperator .semicolon with
  | true =>
    rw [if_pos rfl]
    constructor
    · intro h
      obtain ⟨hclause, rfl⟩ := Prod.mk.inj h
      exact .inl ⟨rfl, (Option.some.inj hclause).symm, rfl⟩
    · rintro (⟨-, rfl, rfl⟩ | ⟨h, -⟩)
      · rfl
      · contradiction
  | false =>
    simp only [Bool.false_eq_true, if_false, false_and, false_or, true_and]
    cases hcondition : (p.fill 1).condition .semicolon with
    | mk condition r =>
      cases condition with
      | none => simp
      | some c =>
        dsimp only
        generalize hclause : r.headerSemicolon .condition = answer
        obtain ⟨answer, u⟩ := answer
        cases answer with
        | true =>
          obtain ⟨hnext, rfl⟩ := headerSemicolon_eq_true.1 hclause
          constructor
          · rintro h
            obtain ⟨hc, rfl⟩ := Prod.mk.inj h
            exact ⟨c, r, rfl, hnext, rfl, (Option.some.inj hc).symm⟩
          · rintro ⟨c', r', hc, -, rfl, rfl⟩
            obtain ⟨hc', rfl⟩ := Prod.mk.inj hc
            obtain rfl := Option.some.inj hc'
            rfl
        | false =>
          constructor
          · simp
          · rintro ⟨c', r', hc, hnext, rfl, rfl⟩
            obtain ⟨-, rfl⟩ := Prod.mk.inj hc
            rw [headerSemicolon_eq_true.2 ⟨hnext, rfl⟩] at hclause
            simp at hclause

theorem loopIncrement_eq_some {clause : Option Statement} :
    p.loopIncrement = .ok (some clause, q) ↔
      (p.next.identifier?.isNone = true ∧ clause = none ∧ q = p.fill 1) ∨
        (p.next.identifier?.isNone = false ∧
          ((p.ahead 1).operator?.bind Direction.ofOperator?).isSome = true ∧ ∃ step,
            ((p.fill 1).fill 2).step false = .ok (step, q) ∧ step.isInvalid = false ∧
            clause = some step) := by
  unfold loopIncrement
  dsimp only
  rw [next_fill, ahead_fill, ahead_fill]
  cases hname : p.next.identifier?.isNone with
  | true =>
    rw [if_pos rfl]
    constructor
    · intro h
      obtain ⟨hclause, rfl⟩ := Prod.mk.inj (Except.ok.inj h)
      exact .inl ⟨rfl, (Option.some.inj hclause).symm, rfl⟩
    · rintro (⟨-, rfl, rfl⟩ | ⟨h, -⟩)
      · rfl
      · contradiction
  | false =>
    simp only [Bool.false_eq_true, if_false, false_and, false_or, true_and]
    cases hstep : ((p.ahead 1).operator?.bind Direction.ofOperator?).isSome with
    | false => simp
    | true =>
      simp only [if_true, true_and]
      constructor
      · intro h
        obtain ⟨⟨step, r⟩, hr, hrest⟩ := bind_eq_ok.1 h
        dsimp only at hrest
        split at hrest
        · obtain ⟨hnone, -⟩ := Prod.mk.inj (Except.ok.inj hrest)
          simp at hnone
        next hvalid =>
          obtain ⟨hclause, rfl⟩ := Prod.mk.inj (Except.ok.inj hrest)
          exact ⟨step, hr, Bool.eq_false_iff.2 hvalid, (Option.some.inj hclause).symm⟩
      · rintro ⟨step, hr, hvalid, rfl⟩
        refine bind_eq_ok.2 ⟨_, hr, ?_⟩
        dsimp only
        rw [hvalid, if_neg (by simp)]
        rfl

theorem loopHeaderWith_eq_some {header : LoopHeader} :
    loopHeaderWith statement p = .ok (some header, q) ↔
      ∃ r u w, loopInit statement p = .ok (true, r) ∧
        r.loopCondition = (some header.condition, u) ∧
        u.loopIncrement = .ok (some header.increment, w) ∧
        w.next.isOperator .leftBrace = true ∧ q = w.advance := by
  unfold loopHeaderWith
  constructor
  · intro h
    obtain ⟨⟨complete, r⟩, hinit, hrest⟩ := bind_eq_ok.1 h
    cases complete with
    | false =>
      obtain ⟨hnone, -⟩ := Prod.mk.inj (Except.ok.inj hrest)
      simp at hnone
    | true =>
      dsimp only at hrest
      split at hrest
      · obtain ⟨hnone, -⟩ := Prod.mk.inj (Except.ok.inj hrest)
        simp at hnone
      next condition u hcondition =>
        obtain ⟨⟨increment, w⟩, hincrement, hend⟩ := bind_eq_ok.1 hrest
        cases increment with
        | none =>
          obtain ⟨hnone, -⟩ := Prod.mk.inj (Except.ok.inj hend)
          simp at hnone
        | some increment =>
          dsimp only at hend
          split at hend
          next hbrace =>
            obtain ⟨hheader, rfl⟩ := Prod.mk.inj (Except.ok.inj hend)
            obtain rfl := Option.some.inj hheader
            exact ⟨r, u, w, hinit, hcondition, hincrement, hbrace, rfl⟩
          next =>
            obtain ⟨hnone, -⟩ := Prod.mk.inj (Except.ok.inj hend)
            simp at hnone
  · rintro ⟨r, u, w, hinit, hcondition, hincrement, hbrace, rfl⟩
    refine bind_eq_ok.2 ⟨_, hinit, ?_⟩
    dsimp only
    rw [hcondition]
    refine bind_eq_ok.2 ⟨_, hincrement, ?_⟩
    dsimp only
    rw [if_pos hbrace]
    rfl

/-! ### Block statements -/

theorem branchWith_eq_read :
    branchWith body p = .ok (s, q) ∧ s.isInvalid = false ↔
      ∃ c r u scope, p.advance.condition .leftBrace = (some c, r) ∧
        r.next.isOperator .leftBrace = true ∧ body r.advance.enter = .ok u ∧
        u.leave = .ok (scope, q) ∧ s = .branch c scope p.next.location := by
  constructor
  · rintro ⟨h, hvalid⟩
    rcases branchWith_cases h with ⟨l, rfl, -⟩ | hread
    · cases hvalid
    · exact hread
  · rintro ⟨c, r, u, scope, hcondition, hbrace, hu, hleave, rfl⟩
    refine ⟨?_, rfl⟩
    unfold branchWith
    dsimp only
    rw [hcondition]
    dsimp only
    rw [if_pos hbrace]
    exact bind_eq_ok.2 ⟨_, bind_eq_ok.2 ⟨u, hu, hleave⟩, rfl⟩

theorem loopWith_eq_read :
    loopWith body statement p = .ok (s, q) ∧ s.isInvalid = false ↔
      ∃ header r u scope, loopHeaderWith statement p.advance.enter = .ok (some header, r) ∧
        body r.pop.2 = .ok u ∧ u.leave = .ok (scope, q) ∧
        s = .loop r.pop.1 header.condition header.increment scope p.next.location := by
  unfold loopWith
  dsimp only
  constructor
  · rintro ⟨h, hvalid⟩
    obtain ⟨⟨header, r⟩, hheader, hrest⟩ := bind_eq_ok.1 h
    cases header with
    | none =>
      obtain ⟨⟨scope, u⟩, -, hu⟩ := bind_eq_ok.1 hrest
      obtain ⟨rfl, -⟩ := Prod.mk.inj (Except.ok.inj hu)
      simp [Statement.isInvalid] at hvalid
    | some header =>
      obtain ⟨u, hu, hend⟩ := bind_eq_ok.1 hrest
      obtain ⟨⟨scope, w⟩, hleave, hw⟩ := bind_eq_ok.1 hend
      obtain ⟨rfl, rfl⟩ := Prod.mk.inj (Except.ok.inj hw)
      exact ⟨header, r, u, scope, hheader, hu, hleave, rfl⟩
  · rintro ⟨header, r, u, scope, hheader, hu, hleave, rfl⟩
    refine ⟨bind_eq_ok.2 ⟨_, hheader, ?_⟩, rfl⟩
    exact bind_eq_ok.2 ⟨u, hu, bind_eq_ok.2 ⟨_, hleave, rfl⟩⟩

end Parser

end FloatLang
