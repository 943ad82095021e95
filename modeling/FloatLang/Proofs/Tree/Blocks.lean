import FloatLang.Proofs.Tree.Reading

/-!
# Programs are made of tokens

Block statements read bodies and clauses into a scope of their own, which is left again whatever
happens. A loop whose header fails drops what its first clause has declared together with the
scope. So what a parser leaves of any source is made of the tokens of the source.

## Main definitions

* `Parser.MakesAll` — what statements in a row leave behind
* `Parser.Abandons` — what a header leaves behind that failed
* `Parser.Heads` — what a header leaves behind that was read

## Main results

* `Parser.branchWith_cases`, `Parser.loopInit_steps`, `Parser.loopHeader_steps` — what the readers of
  block statements do
* `Parser.makes_branch`, `Parser.makes_loop` — block statements, over any readers of their parts
* `Parser.makes_statementWithin`, `Parser.makesAll_bodyWithin` — all statements and bodies
* `Parser.program_made` — every program is read, and is made of the tokens of its source
-/

namespace FloatLang

namespace Statement

theorem mem_parts_self (s : Statement) : s ∈ s.parts := by
  cases s <;> simp [parts]

/-- A first clause that is a failure has failed. -/
theorem isInvalid_of_initFailed {s : Statement} (h : Parser.initFailed s = false) :
    s.isInvalid = false := by
  cases s <;> first | rfl | exact h

/-- A first clause that has failed has a failure in it. -/
theorem failures_pos_of_initFailed {s : Statement} (h : Parser.initFailed s = true) :
    0 < s.failures := by
  apply List.countP_pos_iff.2
  cases s with
  | invalid l => exact ⟨_, mem_parts_self _, rfl⟩
  | compound first second l =>
    rcases Bool.or_eq_true_iff.1 h with h | h
    · exact ⟨first, by simp [parts, mem_parts_self], h⟩
    · exact ⟨second, by simp [parts, mem_parts_self], h⟩
  | _ => simp [Parser.initFailed, isInvalid] at h

theorem failures_branch (condition : Condition) (body : Scope Statement) (l : Location) :
    (branch condition body l).failures = failuresAll body.statements := by
  simp [failures, failuresAll, parts, isInvalid]

/-- The failures in a loop are those of its first clause and its body. -/
theorem failures_loop {init condition increment : Option Statement} {body : Scope Statement}
    {l : Location} (hcondition : ∀ s ∈ condition, s.failures = 0)
    (hincrement : ∀ s ∈ increment, s.failures = 0) :
    (loop init condition increment body l).failures =
      failuresAll init.toList + failuresAll body.statements := by
  have hclause {clause : Option Statement} (h : ∀ s ∈ clause, s.failures = 0) :
      failuresAll clause.toList = 0 := by
    cases clause with
    | none => rfl
    | some s => rw [Option.toList_some, failuresAll_cons, h s rfl]; rfl
  have hcondition' := hclause hcondition
  have hincrement' := hclause hincrement
  simp only [failures, failuresAll, parts, partsOf_eq, partsIn_eq, List.countP_cons,
    List.countP_append] at hcondition' hincrement' ⊢
  simp [hcondition', hincrement', isInvalid]

end Statement

namespace ScopeChain

/-- The only statement of a scope that was entered is taken back, if there is one. -/
theorem pop_enter_grow (c : ScopeChain) (vs : List Variable) (init : Option Statement) (k : Nat) :
    (c.enter.grow vs init.toList k).pop = (init, c.enter.grow vs [] k) := by
  cases init with
  | none => rfl
  | some s => exact c.enter.pop_grow vs [] s k

end ScopeChain

namespace Parser

variable {source : Source} {i j : Nat} {p q r : Parser}

theorem Stands.enter (h : p.Stands source i) : p.enter.Stands source i := h.congr rfl

theorem Stands.push (h : p.Stands source i) (s : Statement) : (p.push s).Stands source i :=
  h.congr rfl

theorem inSight_scopes_enter (p : Parser) : p.enter.scopes.inSight = p.scopes.inSight :=
  p.scopes.inSight_enter

@[simp] theorem errorCount_enter (p : Parser) : p.enter.errorCount = p.errorCount := rfl

@[simp] theorem errorCount_push (p : Parser) (s : Statement) :
    (p.push s).errorCount = p.errorCount := rfl

/-! ### Statements in a row -/

/-- The parser `q` comes from `p`, which stands at the `i`-th token, by reading the statements `ss`
into the current scope. -/
structure MakesAll (source : Source) (i : Nat) (p : Parser) (ss : List Statement) (q : Parser) :
    Prop where
  scopes : ∃ k, q.scopes = p.scopes.grow (ss.flatMap Statement.declared) ss k
  errors : p.errorCount + Statement.failuresAll ss ≤ q.errorCount
  made : ∃ j, q.Stands source j ∧ MadeAll source p.scopes.inSight i j ss

theorem Keeps.makesAll (h : p.Keeps q) (hp : p.Stands source i) : MakesAll source i p [] q where
  scopes := ⟨_, h.grow⟩
  errors := h.reaches.errorCount_le
  made := by
    obtain ⟨j, hij, hq⟩ := hp.reaches h.reaches
    exact ⟨j, hq, .nil hij⟩

/-- Statements that come after something that adds nothing to the current scope. -/
theorem MakesAll.of_grow {ss : List Statement} {k : Nat} (hrest : MakesAll source j q ss r)
    (hscopes : q.scopes = p.scopes.grow [] [] k) (herrors : p.errorCount ≤ q.errorCount)
    (hij : i ≤ j) : MakesAll source i p ss r where
  scopes := by
    obtain ⟨k', hk'⟩ := hrest.scopes
    exact ⟨k', by rw [hk', hscopes, ScopeChain.grow_grow]; rfl⟩
  errors := Nat.le_trans (Nat.add_le_add_right herrors _) hrest.errors
  made := by
    obtain ⟨j', hr, hmade⟩ := hrest.made
    rw [hscopes, ScopeChain.inSight_grow, List.append_nil] at hmade
    exact ⟨j', hr, hmade.of_le hij⟩

/-- Statements that come after a failure. -/
theorem Makes.skip {s : Statement} (h : Makes source i p s q) (hinvalid : s.isInvalid = true) :
    ∃ j, q.Stands source j ∧ ∀ ss r, MakesAll source j q ss r → MakesAll source i p ss r := by
  obtain ⟨k, hscopes⟩ := h.scopes
  obtain ⟨j, hij, hq, -⟩ := h.made
  have hdeclared : s.declared = [] := by cases s <;> first | rfl | contradiction
  rw [hdeclared] at hscopes
  exact ⟨j, hq, fun ss r hrest =>
    hrest.of_grow hscopes (Nat.le_trans (Nat.le_add_right _ _) h.errors) hij⟩

/-- A statement that was read is added to the current scope, and then others after it. -/
theorem Makes.push {s : Statement} (h : Makes source i p s q) (hvalid : s.isInvalid = false) :
    ∃ j, (q.push s).Stands source j ∧
      ∀ ss r, MakesAll source j (q.push s) ss r → MakesAll source i p (s :: ss) r := by
  obtain ⟨k, hscopes⟩ := h.scopes
  obtain ⟨j, hij, hq, hmade⟩ := h.made
  have hpush : (q.push s).scopes = p.scopes.grow s.declared [s] k := by
    change q.scopes.push s = _
    rw [ScopeChain.push_eq, hscopes, ScopeChain.grow_grow, List.append_nil, List.nil_append]
    rfl
  refine ⟨j, hq.push s, fun ss r hrest => ?_⟩
  obtain ⟨k', hscopes'⟩ := hrest.scopes
  obtain ⟨j', hr, hmade'⟩ := hrest.made
  rw [hpush, ScopeChain.inSight_grow] at hmade'
  refine ⟨⟨k', ?_⟩, ?_, j', hr, .cons (Nat.le_refl i) (hmade hvalid) hmade'⟩
  · rw [hscopes', hpush, ScopeChain.grow_grow]
    rfl
  · have herrors := h.errors
    have herrors' := hrest.errors
    rw [errorCount_push] at herrors'
    rw [Statement.failuresAll_cons]
    omega

/-! ### Scopes -/

/-- A scope that was entered is left with its number, that of the scope around it, and what was read
into it. -/
theorem leave_of_grow {c : ScopeChain} {vs : List Variable} {ss : List Statement} {k : Nat}
    {scope : Scope Statement} (h : p.leave = .ok (scope, q))
    (hscopes : p.scopes = c.enter.grow vs ss k) :
    scope = ⟨c.nextId, some c.current.id, vs, ss⟩ ∧ q.scopes = c.grow [] [] k ∧
      q.scanner = p.scanner := by
  unfold leave at h
  rw [hscopes, ScopeChain.leave?_enter_grow] at h
  obtain ⟨rfl, rfl⟩ := Prod.mk.inj (Except.ok.inj h)
  exact ⟨rfl, rfl, rfl⟩

/-- A scope that was entered is left with what was read into it. -/
theorem leave_eq_ok {c : ScopeChain} {vs : List Variable} {ss : List Statement} {k : Nat}
    {scope : Scope Statement} (h : p.leave = .ok (scope, q))
    (hscopes : p.scopes = c.enter.grow vs ss k) :
    scope.declared = vs ∧ scope.statements = ss ∧ q.scopes = c.grow [] [] k ∧
      q.scanner = p.scanner := by
  obtain ⟨rfl, hq⟩ := leave_of_grow h hscopes
  exact ⟨rfl, rfl, hq⟩

/-- The only statement of a scope that was entered is taken back. -/
theorem pop_of_grow {c : ScopeChain} {vs : List Variable} {init : Option Statement} {k : Nat}
    (h : p.scopes = c.enter.grow vs init.toList k) :
    ∃ q, p.pop = (init, q) ∧ q.scopes = c.enter.grow vs [] k ∧ q.scanner = p.scanner := by
  refine ⟨{ p with scopes := c.enter.grow vs [] k }, ?_, rfl, rfl⟩
  unfold pop
  rw [h, ScopeChain.pop_enter_grow]

/-- Whatever the reader reads is made of tokens. -/
def StatementsMade (source : Source) (statement : Parser → Except Halt (Statement × Parser)) : Prop :=
  ∀ ⦃i p s q⦄, p.Stands source i → statement p = .ok (s, q) → Makes source i p s q

/-- Whatever the reader reads into the current scope is made of tokens. -/
def BodiesMade (source : Source) (body : Parser → Except Halt Parser) : Prop :=
  ∀ ⦃i p q⦄, p.Stands source i → body p = .ok q → ∃ ss, MakesAll source i p ss q

variable {body : Parser → Except Halt Parser}
  {statement : Parser → Except Halt (Statement × Parser)}

/-- An `if` is given up, or owns the scope that was read into after its condition. -/
theorem branchWith_cases {s : Statement} (h : branchWith body p = .ok (s, q)) :
    (∃ l, s = .invalid l ∧ p.GivesUp q) ∨
      ∃ c r u scope, p.advance.condition .leftBrace = (some c, r) ∧
        r.next.isOperator .leftBrace = true ∧ body r.advance.enter = .ok u ∧
        u.leave = .ok (scope, q) ∧ s = .branch c scope p.next.location := by
  unfold branchWith at h
  dsimp only at h
  split at h
  next r hcondition =>
    obtain ⟨rfl, rfl⟩ := Prod.mk.inj (Except.ok.inj h)
    exact .inl ⟨_, rfl, (p.keeps_advance.fails (fails_condition hcondition)).givesUp⟩
  next c r hcondition =>
    split at h
    next hbrace =>
      obtain ⟨⟨scope, v⟩, hblock, hv⟩ := bind_eq_ok.1 h
      obtain ⟨rfl, rfl⟩ := Prod.mk.inj (Except.ok.inj hv)
      obtain ⟨u, hu, hleave⟩ := bind_eq_ok.1 hblock
      exact .inr ⟨c, r, u, scope, hcondition, hbrace, hu, hleave, rfl⟩
    · obtain ⟨rfl, rfl⟩ := Prod.mk.inj (Except.ok.inj h)
      exact .inl ⟨_, rfl, ((p.keeps_advance.trans (keeps_condition hcondition)).trans
        r.keeps_advance).rejects _ _⟩

theorem makes_branch {s : Statement} (hbody : BodiesMade source body) (hp : p.Stands source i)
    (h : branchWith body p = .ok (s, q)) : Makes source i p s q := by
  rcases branchWith_cases h with ⟨l, rfl, hfails⟩ | ⟨c, r, v, scope, hcondition, -, hv, hleave, rfl⟩
  · exact hfails.makes hp l
  · obtain ⟨hexpression, -⟩ := condition_eq_some hcondition
    have hbrace := (p.keeps_advance.trans (keeps_condition hcondition)).trans r.keeps_advance
    obtain ⟨m, hr, hread⟩ := readIn_of_expression hp.advance hexpression
    obtain ⟨ss, hss⟩ := hbody hr.advance.enter hv
    obtain ⟨k, hscopes⟩ := hss.scopes
    obtain ⟨j, hv', hmade⟩ := hss.made
    obtain ⟨hdeclared, rfl, hscopes', hscanner⟩ := leave_eq_ok hleave hscopes
    have herrors := hss.errors
    rw [inSight_scopes_enter, hbrace.scopes] at hmade
    refine ⟨⟨k, by rw [hscopes', hbrace.scopes]; rfl⟩, ?_, j, ?_, hv'.congr hscanner, fun _ => ?_⟩
    · have hle := hbrace.reaches.errorCount_le
      rw [Statement.failures_branch, errorCount_congr hscanner]
      rw [errorCount_enter] at herrors
      omega
    · have hle := hread.le
      have hle' := hmade.le
      omega
    · exact .branch (hread.mono (Nat.le_succ i) (Nat.le_succ m)) hdeclared hmade

/-! ### The header of a loop -/

/-- The parser `q` comes from `p`, which stands at the `i`-th token, by reading a header that
failed: an error was reported, and no scope but the current one has changed. -/
structure Abandons (source : Source) (i : Nat) (p q : Parser) : Prop where
  errors : p.errorCount < q.errorCount
  scopes : ∃ vs ss k, q.scopes = p.scopes.grow vs ss k
  stands : ∃ j, i ≤ j ∧ q.Stands source j

/-- What was read into the current scope before a failure is abandoned with it. -/
theorem MakesAll.abandons {ss : List Statement} (h : MakesAll source i p ss q) (hr : q.Fails r) :
    Abandons source i p r where
  errors := Nat.lt_of_le_of_lt (Nat.le_trans (Nat.le_add_right _ _) h.errors) hr.errors
  scopes := by
    obtain ⟨k, hk⟩ := h.scopes
    exact ⟨_, _, k, by rw [hr.scopes, hk]⟩
  stands := by
    obtain ⟨j, hq, hmade⟩ := h.made
    obtain ⟨j', hle, hr'⟩ := hq.reaches hr.reaches
    exact ⟨j', Nat.le_trans hmade.le hle, hr'⟩

/-- A first clause that has failed is abandoned. -/
theorem Makes.abandons {s : Statement} (h : Makes source i p s q) (hs : initFailed s = true) :
    Abandons source i p q where
  errors := Nat.lt_of_lt_of_le (Nat.lt_add_of_pos_right (Statement.failures_pos_of_initFailed hs))
    h.errors
  scopes := by
    obtain ⟨k, hk⟩ := h.scopes
    exact ⟨_, _, k, hk⟩
  stands := by
    obtain ⟨j, hij, hq, -⟩ := h.made
    exact ⟨j, hij, hq⟩

/-- A first clause is absent, or a statement. One that has failed ends the header; any other is added
to the current scope, and then a `;` may be missing. -/
theorem loopInit_steps {complete : Bool} (h : loopInit statement p = .ok (complete, q)) :
    (complete = true ∧ p.Keeps q) ∨
      ∃ s u, statement (p.fill 1) = .ok (s, u) ∧
        if initFailed s then complete = false ∧ q = u
        else (u.push s).Keeps q ∧ (complete = false → (u.push s).GivesUp q) := by
  unfold loopInit at h
  dsimp only at h
  split at h
  · obtain ⟨rfl, rfl⟩ := Prod.mk.inj (Except.ok.inj h)
    exact .inl ⟨rfl, (p.keeps_fill 1).trans (keeps_advance _)⟩
  · obtain ⟨⟨s, u⟩, hs, hrest⟩ := bind_eq_ok.1 h
    refine .inr ⟨s, u, hs, ?_⟩
    dsimp only at hrest
    split at hrest
    next hfailed =>
      obtain ⟨rfl, rfl⟩ := Prod.mk.inj (Except.ok.inj hrest)
      rw [if_pos hfailed]
      exact ⟨rfl, rfl⟩
    next hfailed =>
      rw [if_neg hfailed]
      split at hrest
      · have hclause := Except.ok.inj hrest
        refine ⟨keeps_of_headerSemicolon hclause, ?_⟩
        rintro rfl
        exact givesUp_headerSemicolon hclause
      · obtain ⟨rfl, rfl⟩ := Prod.mk.inj (Except.ok.inj hrest)
        exact ⟨.refl _, by simp⟩

/-- A first clause is abandoned, or complete and in the current scope. -/
theorem loopInit_cases {complete : Bool} (hstatement : StatementsMade source statement)
    (hp : p.Stands source i) (h : loopInit statement p = .ok (complete, q)) :
    (complete = false ∧ Abandons source i p q) ∨
      complete = true ∧ ∃ init : Option Statement, (∀ s ∈ init, initFailed s = false) ∧
        MakesAll source i p init.toList q := by
  rcases loopInit_steps h with ⟨rfl, hkeeps⟩ | ⟨s, u, hs, hrest⟩
  · exact .inr ⟨rfl, none, by simp, hkeeps.makesAll hp⟩
  · have hmakes := (hstatement (hp.fill 1) hs).of_fill
    split at hrest
    next hfailed =>
      obtain ⟨rfl, rfl⟩ := hrest
      exact .inl ⟨rfl, hmakes.abandons hfailed⟩
    next hfailed =>
      obtain ⟨hkeeps, hfails⟩ := hrest
      have hread : initFailed s = false := Bool.eq_false_iff.2 hfailed
      obtain ⟨j, hu, hmore⟩ := hmakes.push (Statement.isInvalid_of_initFailed hread)
      cases complete with
      | false =>
        have hpushed := hmore [] _ ((Keeps.refl (u.push s)).makesAll hu)
        exact .inl ⟨rfl, hpushed.abandons (hfails rfl).toFails⟩
      | true =>
        refine .inr ⟨rfl, some s, ?_, hmore [] _ (hkeeps.makesAll hu)⟩
        rintro _ ⟨⟩
        exact hread

/-- A condition is given up, or absent, or read with its `;`. -/
theorem loopCondition_steps {condition : Option (Option Statement)}
    (h : p.loopCondition = (condition, q)) :
    (condition = none ∧ p.GivesUp q) ∨
      ∃ clause, condition = some clause ∧ p.Keeps q ∧ ∀ s ∈ clause, ∃ c u,
        s = .expr c.expr c.location ∧ (p.fill 1).condition .semicolon = (some c, u) ∧
          u.Keeps q := by
  have hfill := p.keeps_fill 1
  unfold loopCondition at h
  dsimp only at h
  split at h
  · obtain ⟨rfl, rfl⟩ := Prod.mk.inj h
    exact .inr ⟨none, rfl, hfill.trans (keeps_advance _), by simp⟩
  · split at h
    next u hcondition =>
      obtain ⟨rfl, rfl⟩ := Prod.mk.inj h
      exact .inl ⟨rfl, (hfill.fails (fails_condition hcondition)).givesUp⟩
    next c u hcondition =>
      have hkeeps := hfill.trans (keeps_condition hcondition)
      split at h
      next v hclause =>
        obtain ⟨rfl, rfl⟩ := Prod.mk.inj h
        have hsemicolon := keeps_of_headerSemicolon hclause
        refine .inr ⟨_, rfl, hkeeps.trans hsemicolon, ?_⟩
        rintro _ ⟨⟩
        exact ⟨c, u, rfl, hcondition, hsemicolon⟩
      next v hclause =>
        obtain ⟨rfl, rfl⟩ := Prod.mk.inj h
        exact .inl ⟨rfl, hkeeps.givesUp (givesUp_headerSemicolon hclause)⟩

/-- A condition is a failure that has been reported, or absent, or made of tokens. -/
theorem loopCondition_cases {condition : Option (Option Statement)} (hp : p.Stands source i)
    (h : p.loopCondition = (condition, q)) :
    (condition = none ∧ p.Fails q) ∨
      ∃ clause j, condition = some clause ∧ p.Keeps q ∧ i ≤ j ∧ q.Stands source j ∧
        ∀ s ∈ clause, ConditionIn source p.scopes.inSight i j s := by
  rcases loopCondition_steps h with ⟨rfl, hgives⟩ | ⟨clause, rfl, hkeeps, hclause⟩
  · exact .inl ⟨rfl, hgives.toFails⟩
  · cases clause with
    | none =>
      obtain ⟨j, hij, hq⟩ := hp.reaches hkeeps.reaches
      exact .inr ⟨none, j, rfl, hkeeps, hij, hq, by simp⟩
    | some s =>
      obtain ⟨c, u, rfl, hcondition, hsemicolon⟩ := hclause s rfl
      obtain ⟨hexpression, -⟩ := condition_eq_some hcondition
      obtain ⟨m, hu, hread⟩ := readIn_of_expression (hp.fill 1) hexpression
      obtain ⟨j, hmj, hq⟩ := hu.reaches hsemicolon.reaches
      refine .inr ⟨_, j, rfl, hkeeps, Nat.le_trans hread.le hmj, hq, ?_⟩
      rintro _ ⟨⟩
      exact ⟨hread.mono (Nat.le_refl i) hmj⟩

/-- A last clause is given up, or absent, or a step. -/
theorem loopIncrement_steps {increment : Option (Option Statement)}
    (h : p.loopIncrement = .ok (increment, q)) :
    (increment = none ∧ p.GivesUp q) ∨
      ∃ clause, increment = some clause ∧ p.Keeps q ∧ ∀ s ∈ clause, ∃ x d v,
        p.next.kind = .identifier x ∧ p.scopes.resolve? x = some v ∧
          s = .step d ⟨v, p.next.location⟩ p.next.location ∧ p.Passes q := by
  have htwo := (p.keeps_fill 1).trans (keeps_fill _ 2)
  have hnext : ((p.fill 1).fill 2).next = p.next := by rw [next_fill, next_fill]
  unfold loopIncrement at h
  dsimp only at h
  rw [next_fill] at h
  split at h
  · obtain ⟨rfl, rfl⟩ := Prod.mk.inj (Except.ok.inj h)
    exact .inr ⟨none, rfl, p.keeps_fill 1, by simp⟩
  next hname =>
    obtain ⟨x, hx⟩ := Option.ne_none_iff_exists'.1 (mt Option.isNone_iff_eq_none.2 hname)
    split at h
    · obtain ⟨⟨s, u⟩, hstep, hrest⟩ := bind_eq_ok.1 h
      rcases step_cases hstep with ⟨l, rfl, hfails, -⟩ | ⟨d, v, -, hv, rfl, -, hkeeps, hpasses⟩
      · obtain ⟨rfl, rfl⟩ := Prod.mk.inj (Except.ok.inj hrest)
        exact .inl ⟨rfl, (htwo.fails hfails).givesUp⟩
      · obtain ⟨rfl, rfl⟩ := Prod.mk.inj (Except.ok.inj hrest)
        rw [hnext, hx] at hv
        refine .inr ⟨_, rfl, htwo.trans hkeeps, ?_⟩
        rintro _ ⟨⟩
        rw [hnext]
        exact ⟨x, d, v, Token.kind_of_identifier? hx, hv, rfl, hpasses.of_fill.of_fill⟩
    · obtain ⟨rfl, rfl⟩ := Prod.mk.inj (Except.ok.inj h)
      exact .inl ⟨rfl, (htwo.trans (keeps_advance _)).rejects _ _⟩

/-- A last clause is a failure that has been reported, or absent, or a step made of tokens. -/
theorem loopIncrement_cases {increment : Option (Option Statement)} (hp : p.Stands source i)
    (h : p.loopIncrement = .ok (increment, q)) :
    (increment = none ∧ p.Fails q) ∨
      ∃ clause j, increment = some clause ∧ p.Keeps q ∧ i ≤ j ∧ q.Stands source j ∧
        ∀ s ∈ clause, StepIn source p.scopes.inSight i j s := by
  rcases loopIncrement_steps h with ⟨rfl, hgives⟩ | ⟨clause, rfl, hkeeps, hclause⟩
  · exact .inl ⟨rfl, hgives.toFails⟩
  · cases clause with
    | none =>
      obtain ⟨j, hij, hq⟩ := hp.reaches hkeeps.reaches
      exact .inr ⟨none, j, rfl, hkeeps, hij, hq, by simp⟩
    | some s =>
      obtain ⟨x, d, v, hkind, hv, rfl, hpasses⟩ := hclause s rfl
      obtain ⟨j, hij, hq⟩ := hp.passes hpasses
      refine .inr ⟨_, j, rfl, hkeeps, Nat.le_of_lt hij, hq, ?_⟩
      rintro _ ⟨⟩
      exact ⟨hp.usedIn hkind hv hij⟩

/-- The parser `q` comes from `p`, which stands at the `i`-th token, by reading the header of a
loop, with its first clause left in the current scope. -/
structure Heads (source : Source) (i : Nat) (p : Parser) (init : Option Statement)
    (header : LoopHeader) (q : Parser) : Prop where
  complete : ∀ s ∈ init, initFailed s = false
  scopes : ∃ k, q.scopes = p.scopes.grow (init.toList.flatMap Statement.declared) init.toList k
  errors : p.errorCount + Statement.failuresAll init.toList ≤ q.errorCount
  made : ∃ a b c, MadeAll source p.scopes.inSight i a init.toList ∧ a ≤ b ∧ b ≤ c ∧
    q.Stands source c ∧
    (∀ s ∈ header.condition,
      ConditionIn source (p.scopes.inSight ++ init.toList.flatMap Statement.declared) a b s) ∧
    ∀ s ∈ header.increment,
      StepIn source (p.scopes.inSight ++ init.toList.flatMap Statement.declared) b c s

/-- What comes after a complete first clause leaves the scopes as they are: it is given up, or the
other clauses are read. -/
theorem loopHeader_steps {header : Option LoopHeader}
    (h : loopHeaderWith statement p = .ok (header, q)) :
    ∃ complete u, loopInit statement p = .ok (complete, u) ∧
      if complete then
        (header = none ∧ u.GivesUp q) ∨
          ∃ clauses v w, header = some clauses ∧ u.loopCondition = (some clauses.condition, v) ∧
            v.loopIncrement = .ok (some clauses.increment, w) ∧ q = w.advance ∧ u.Keeps q
      else header = none ∧ q = u := by
  obtain ⟨⟨complete, u⟩, hinit, hrest⟩ := bind_eq_ok.1 h
  refine ⟨complete, u, hinit, ?_⟩
  cases complete with
  | false =>
    obtain ⟨rfl, rfl⟩ := Prod.mk.inj (Except.ok.inj hrest)
    exact ⟨rfl, rfl⟩
  | true =>
    dsimp only at hrest
    generalize hcondition : u.loopCondition = clause at hrest
    obtain ⟨condition, v⟩ := clause
    rcases loopCondition_steps hcondition with ⟨rfl, hgives⟩ | ⟨condition, rfl, hkeeps, -⟩
    · obtain ⟨rfl, rfl⟩ := Prod.mk.inj (Except.ok.inj hrest)
      exact .inl ⟨rfl, hgives⟩
    · obtain ⟨⟨increment, w⟩, hincrement, hrest⟩ := bind_eq_ok.1 hrest
      rcases loopIncrement_steps hincrement with ⟨rfl, hgives⟩ | ⟨increment, rfl, hkeeps', -⟩
      · obtain ⟨rfl, rfl⟩ := Prod.mk.inj (Except.ok.inj hrest)
        exact .inl ⟨rfl, hkeeps.givesUp hgives⟩
      · have hbrace := (hkeeps.trans hkeeps').trans w.keeps_advance
        dsimp only at hrest
        split at hrest
        · obtain ⟨rfl, rfl⟩ := Prod.mk.inj (Except.ok.inj hrest)
          exact .inr ⟨⟨condition, increment⟩, v, w, rfl, rfl, hincrement, rfl, hbrace⟩
        · obtain ⟨rfl, rfl⟩ := Prod.mk.inj (Except.ok.inj hrest)
          exact .inl ⟨rfl, hbrace.rejects _ _⟩

/-- The clauses that come after the first one are made of tokens. -/
theorem Stands.clauses {condition increment : Option Statement} {u v : Parser}
    (hp : p.Stands source i) (hcondition : p.loopCondition = (some condition, u))
    (hincrement : u.loopIncrement = .ok (some increment, v)) :
    ∃ b c, i ≤ b ∧ b ≤ c ∧ v.advance.Stands source c ∧
      (∀ s ∈ condition, ConditionIn source p.scopes.inSight i b s) ∧
      ∀ s ∈ increment, StepIn source p.scopes.inSight b c s := by
  rcases loopCondition_cases hp hcondition with ⟨hnone, -⟩ | ⟨clause, b, hsome, hkeeps, hib, hu, hread⟩
  · contradiction
  obtain rfl := Option.some.inj hsome
  rcases loopIncrement_cases hu hincrement with ⟨hnone, -⟩ | ⟨clause', c, hsome', -, hbc, hv, hused⟩
  · contradiction
  obtain rfl := Option.some.inj hsome'
  rw [hkeeps.scopes] at hused
  exact ⟨b, c + 1, hib, Nat.le_succ_of_le hbc, hv.advance, hread,
    fun s hs => (hused s hs).mono (Nat.le_refl b) (Nat.le_succ c)⟩

/-- A header is abandoned, or read. -/
theorem loopHeader_cases {header : Option LoopHeader} (hstatement : StatementsMade source statement)
    (hp : p.Stands source i) (h : loopHeaderWith statement p = .ok (header, q)) :
    (header = none ∧ Abandons source i p q) ∨
      ∃ clauses init, header = some clauses ∧ Heads source i p init clauses q := by
  obtain ⟨complete, u, hinit, hrest⟩ := loopHeader_steps h
  rcases loopInit_cases hstatement hp hinit with ⟨rfl, habandons⟩ | ⟨rfl, init, hcomplete, hmakes⟩
  · obtain ⟨rfl, rfl⟩ := hrest
    exact .inl ⟨rfl, habandons⟩
  · obtain ⟨a, hu, hmade⟩ := hmakes.made
    obtain ⟨k, hscopes⟩ := hmakes.scopes
    have hsight : u.scopes.inSight =
        p.scopes.inSight ++ init.toList.flatMap Statement.declared := by
      rw [hscopes, ScopeChain.inSight_grow]
    rcases hrest with ⟨rfl, hgives⟩ | ⟨clauses, v, w, rfl, hcondition, hincrement, rfl, hkeeps⟩
    · exact .inl ⟨rfl, hmakes.abandons hgives.toFails⟩
    · obtain ⟨b, c, hab, hbc, hq, hread, hused⟩ := hu.clauses hcondition hincrement
      rw [hsight] at hread hused
      exact .inr ⟨clauses, init, rfl, hcomplete, ⟨k, by rw [hkeeps.scopes, hscopes]⟩,
        Nat.le_trans hmakes.errors hkeeps.reaches.errorCount_le, a, b, c, hmade, hab, hbc, hq, hread,
        hused⟩

/-! ### Loops -/

/-- Nothing is left of a loop whose header is abandoned but the failure. -/
theorem Abandons.makes {u : Parser} {scope : Scope Statement} {l : Location}
    (h : Abandons source (i + 1) p.advance.enter u) (hleave : u.leave = .ok (scope, q)) :
    Makes source i p (.invalid l) q := by
  obtain ⟨vs, ss, k, hscopes⟩ := h.scopes
  obtain ⟨j, hij, hu⟩ := h.stands
  obtain ⟨-, -, hscopes', hscanner⟩ := leave_eq_ok hleave hscopes
  refine ⟨⟨k, hscopes'⟩, ?_, j, by omega, hu.congr hscanner, fun hvalid => ?_⟩
  · have hle := p.keeps_advance.reaches.errorCount_le
    have hlt := h.errors
    rw [errorCount_enter] at hlt
    rw [errorCount_congr hscanner]
    exact Nat.lt_of_le_of_lt hle hlt
  · simp [Statement.isInvalid] at hvalid

theorem makes_loop {s : Statement} (hbody : BodiesMade source body)
    (hstatement : StatementsMade source statement) (hp : p.Stands source i)
    (h : loopWith body statement p = .ok (s, q)) : Makes source i p s q := by
  obtain ⟨⟨header, u⟩, hheader, hrest⟩ := bind_eq_ok.1 h
  rcases loopHeader_cases hstatement hp.advance.enter hheader with
    ⟨rfl, habandons⟩ | ⟨header, init, rfl, hheads⟩
  · obtain ⟨⟨scope, r⟩, hleave, hr⟩ := bind_eq_ok.1 hrest
    obtain ⟨rfl, rfl⟩ := Prod.mk.inj (Except.ok.inj hr)
    exact habandons.makes hleave
  · obtain ⟨k, hscopes⟩ := hheads.scopes
    obtain ⟨a, b, c, hinit, hab, hbc, hu, hcondition, hincrement⟩ := hheads.made
    rw [inSight_scopes_enter] at hinit hcondition hincrement
    have hconditions : ∀ s ∈ header.condition, s.failures = 0 :=
      fun s hs => (hcondition s hs).failures
    have hincrements : ∀ s ∈ header.increment, s.failures = 0 :=
      fun s hs => (hincrement s hs).failures
    -- the first clause is taken out of the scope again, and the body read into it
    obtain ⟨w, hw, hwscopes, hwscanner⟩ := pop_of_grow hscopes
    dsimp only at hrest
    rw [hw] at hrest
    obtain ⟨v, hv, hrest⟩ := bind_eq_ok.1 hrest
    obtain ⟨⟨scope, r⟩, hleave, hr⟩ := bind_eq_ok.1 hrest
    obtain ⟨rfl, rfl⟩ := Prod.mk.inj (Except.ok.inj hr)
    obtain ⟨ss, hss⟩ := hbody (hu.congr hwscanner) hv
    obtain ⟨k', hscopes'⟩ := hss.scopes
    obtain ⟨j, hv', hmade⟩ := hss.made
    rw [hwscopes, ScopeChain.grow_grow] at hscopes'
    rw [hwscopes, ScopeChain.inSight_grow, ScopeChain.inSight_enter] at hmade
    obtain ⟨hdeclared, rfl, hscopes'', hscanner⟩ := leave_eq_ok hleave hscopes'
    refine ⟨⟨k', hscopes''⟩, ?_, j, ?_, hv'.congr hscanner, fun _ => ?_⟩
    · have hle := p.keeps_advance.reaches.errorCount_le
      have hfirst := hheads.errors
      have hmore := hss.errors
      rw [errorCount_enter] at hfirst
      rw [errorCount_congr hwscanner] at hmore
      rw [Statement.failures_loop hconditions hincrements, errorCount_congr hscanner]
      dsimp only
      omega
    · have hle := hinit.le
      have hle' := hmade.le
      omega
    · rw [← List.flatMap_append] at hdeclared
      exact .loop (hinit.of_le (Nat.le_succ i)) hheads.complete rfl hab hcondition hbc hincrement
        hdeclared hmade

/-! ### Statements, bodies and programs -/

theorem makes_statementWithin_succ {n : Nat} (hbody : BodiesMade source (bodyWithin n false))
    (hstatement : StatementsMade source (statementWithin n)) :
    StatementsMade source (statementWithin (n + 1)) := by
  intro i p s q hp h
  unfold statementWithin at h
  dsimp only at h
  apply Makes.of_fill (n := 1)
  split at h
  next hkind => exact makes_declaration (hp.fill 1) hkind (Except.ok.inj h)
  · exact makes_branch hbody (hp.fill 1) h
  · exact makes_loop hbody hstatement (hp.fill 1) h
  next hkind => exact makes_named (hp.fill 1) hkind h
  · obtain ⟨rfl, rfl⟩ := Prod.mk.inj (Except.ok.inj h)
    exact (givesUp_rejectStatement (p.fill 1)).makes (hp.fill 1) _

theorem makesAll_bodyWithin_succ {n : Nat} {top : Bool} (hbody : BodiesMade source (bodyWithin n top))
    (hstatement : StatementsMade source (statementWithin n)) :
    BodiesMade source (bodyWithin (n + 1) top) := by
  intro i p q hp h
  have hfill := p.keeps_fill 1
  have hadvance := hfill.trans (keeps_advance _)
  -- a token between statements is taken, and the body goes on
  have hmore (h : bodyWithin n top (p.fill 1).advance = .ok q) : ∃ ss, MakesAll source i p ss q := by
    obtain ⟨ss, hss⟩ := hbody (hp.fill 1).advance h
    exact ⟨ss, hss.of_grow hadvance.grow hadvance.reaches.errorCount_le (Nat.le_succ i)⟩
  cases bodyWithin_succ.1 h with
  | ends hends =>
    cases hends with
    | brace _ => exact ⟨[], hadvance.makesAll hp⟩
    | endOfFile _ => exact ⟨[], hfill.makesAll hp⟩
    | program _ => exact ⟨[], (hfill.trans ⟨⟨_, takes_flush _⟩, rfl⟩).makesAll hp⟩
  | blank _ hrest => exact hmore hrest
  | stray _ _ hrest => exact hmore hrest
  | statement s u _ hs hrest =>
    have hmakes := (hstatement (hp.fill 1) hs).of_fill
    split at hrest
    next hinvalid =>
      obtain ⟨j, hu, hmore⟩ := hmakes.skip hinvalid
      obtain ⟨ss, hss⟩ := hbody hu hrest
      exact ⟨ss, hmore ss q hss⟩
    next hvalid =>
      obtain ⟨j, hu, hmore⟩ := hmakes.push (Bool.eq_false_iff.2 hvalid)
      obtain ⟨ss, hss⟩ := hbody hu hrest
      exact ⟨s :: ss, hmore ss q hss⟩

/-- Whatever is read is made of tokens, whatever the bound on the nesting. -/
theorem makes_within (source : Source) (n : Nat) :
    StatementsMade source (statementWithin n) ∧ ∀ top, BodiesMade source (bodyWithin n top) := by
  -- one induction for both readers, since each calls the other with a smaller bound
  induction n with
  | zero =>
    refine ⟨fun i p s q _ h => ?_, fun top i p q _ h => ?_⟩
    · simp [statementWithin, halt] at h
    · simp [bodyWithin, halt] at h
  | succ n ih =>
    obtain ⟨hstatement, hbody⟩ := ih
    exact ⟨makes_statementWithin_succ (hbody false) hstatement,
      fun top => makesAll_bodyWithin_succ (hbody top) hstatement⟩

theorem stands_ofSource (source : Source) : (ofSource source).Stands source 0 := by
  intro n
  have hahead := (ofSource source).scanner.ahead_eq n
  rw [Nat.zero_add]
  exact hahead

/-- Every program is read, and what is left of it is made of the tokens of its source: the outermost
scope has the variables that its statements declare, and every failure in it was reported. -/
theorem program_made (source : Source) :
    ∃ p j, (ofSource source).program = .ok p ∧
      p.scopes.outermost.declared = p.scopes.outermost.statements.flatMap Statement.declared ∧
      MadeAll source [] 0 j p.scopes.outermost.statements ∧
      Statement.failuresAll p.scopes.outermost.statements ≤ p.errorCount := by
  obtain ⟨-, p, hp, -⟩ := (ofSource source).body_ok true
  obtain ⟨ss, hss⟩ := (makes_within source _).2 true (stands_ofSource source) hp
  obtain ⟨k, hscopes⟩ := hss.scopes
  obtain ⟨j, -, hmade⟩ := hss.made
  refine ⟨p, j, hp, ?_⟩
  rw [hscopes]
  exact ⟨rfl, hmade, Nat.le_trans (Nat.le_add_left _ _) hss.errors⟩

end Parser

end FloatLang
