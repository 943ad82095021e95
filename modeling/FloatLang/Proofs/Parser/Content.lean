import FloatLang.Proofs.Infix.Content
import FloatLang.Proofs.Parser.Abreast
import FloatLang.Proofs.Scanner.Tiling

/-!
# Programs hold their tokens

Every reader hands the words and operators that it takes on to the tree. Where nothing has been
reported no token was skipped, so the tree of such a program holds all of them: through the lookahead
of declarations, the yard of expressions, the first clause of a loop that is taken back, and the
separators between statements.

## Main definitions

* `Parser.Gathers` — what a parser comes past
* `Parser.Adds` — the statements that it adds to the current scope on the way

## Main results

* `Parser.gathers_expression`, `Parser.gathers_declaration`, `Parser.gathers_named` — expressions and
  simple statements
* `Parser.gathers_branch`, `Parser.gathers_loop` — block statements
* `Parser.gathers_within` — statements and bodies
* `Parser.Gathers.written` — the whole file
* `Parser.program_written` — programs
-/

namespace FloatLang

theorem Direction.operator_of_ofOperator? {op : Operator} {d : Direction}
    (h : ofOperator? op = some d) : d.operator = op := by
  cases op <;> cases d <;> first | rfl | simp [ofOperator?] at h

namespace Parser

/-- The parser `q` comes from `p` by taking tokens that hold the content `c`. -/
def Gathers (p : Parser) (c : Content) (q : Parser) : Prop :=
  ∃ ts, p.scanner.HandsOut ts q.scanner ∧ Written ts c

variable {source : Source} {i n : Nat} {p q r : Parser} {c d : Content} {s : Statement}

theorem gathers_of_eq (hscanner : q.scanner = p.scanner) : p.Gathers .empty q :=
  ⟨[], hscanner ▸ .refl _, written_nil⟩

theorem Gathers.trans (h : p.Gathers c q) (h' : q.Gathers d r) : p.Gathers (c ++ d) r := by
  obtain ⟨ts, hts, hc⟩ := h
  obtain ⟨us, hus, hd⟩ := h'
  exact ⟨ts ++ us, hts.trans hus, hc.append hd⟩

/-- Nothing is added by what comes after. -/
theorem Gathers.then (h : p.Gathers c q) (h' : q.Gathers .empty r) : p.Gathers c r := by
  have hall := h.trans h'
  rwa [Content.append_empty] at hall

/-- Nothing was there before. -/
theorem Gathers.after (h : p.Gathers .empty q) (h' : q.Gathers c r) : p.Gathers c r := by
  have hall := h.trans h'
  rwa [Content.empty_append] at hall

theorem Gathers.congr (h : p.Gathers c q) (hscanner : r.scanner = q.scanner) : p.Gathers c r :=
  h.then (gathers_of_eq hscanner)

theorem gathers_fill (p : Parser) (n : Nat) : p.Gathers .empty (p.fill n) :=
  ⟨[], .fill n (.refl _), written_nil⟩

theorem gathers_next (p : Parser) : p.Gathers (.ofTokens [p.next]) p.advance :=
  ⟨[p.next], .advance (.refl _), written_ofTokens _⟩

theorem gathers_word {kind : TokenKind} (h : p.next.word? = some kind) :
    p.Gathers (.word kind) p.advance := by
  have hnext := p.gathers_next
  rwa [Content.ofTokens_word h] at hnext

theorem gathers_keyword {word : Keyword} (h : p.next.kind = .keyword word) :
    p.Gathers (.word (.keyword word)) p.advance := gathers_word (by simp [Token.word?, h])

theorem gathers_identifier {x : String} (h : p.next.kind = .identifier x) :
    p.Gathers (.word (.identifier x)) p.advance := gathers_word (by simp [Token.word?, h])

/-- Brackets and semicolons add nothing. -/
theorem gathers_punctuation {op : Operator} (h : p.next.isOperator op = true)
    (hop : op.isPunctuation = true) : p.Gathers .empty p.advance := by
  have hnext := p.gathers_next
  rwa [Content.ofTokens_punctuation (Token.kind_of_isOperator h) hop] at hnext

/-- Line breaks and the end of the file add nothing. -/
theorem gathers_endsLine (h : p.next.endsLine = true) : p.Gathers .empty p.advance := by
  have hnext := p.gathers_next
  rwa [Content.ofTokens_endsLine h] at hnext

/-- An operator outside of expressions is the sign of a statement. -/
theorem gathers_sign {op : Operator} (h : p.next.kind = .operator op)
    (hop : op.isPunctuation = false) : p.Gathers (.sign op) p.advance :=
  ⟨[p.next], .advance (.refl _), written_sign h hop⟩

theorem Stands.gathers (h : p.Stands source i) (hq : p.Gathers c q) : ∃ j, q.Stands source j := by
  obtain ⟨ts, hts, -⟩ := hq
  refine ⟨i + ts.length, fun n => ?_⟩
  have hahead : q.ahead n = p.ahead (n + ts.length) := hts.ahead n
  rw [hahead, h, Nat.add_assoc, Nat.add_comm n]

theorem Gathers.errorCount_eq_zero (h : p.Gathers c q) (hq : q.errorCount = 0) :
    p.errorCount = 0 := by
  obtain ⟨ts, hts, -⟩ := h
  exact Nat.le_zero.1 (hq ▸ hts.errorCount_le)

/-! ### Expressions -/

theorem gathers_expression {terminal : Operator} {e : Expr}
    (h : p.expression terminal = (some e, q)) : p.Gathers e.content q := by
  obtain ⟨us, y, hus, htake, hclosed, he⟩ := expression_eq_some h
  rw [Postfix.content_of_takeAll? (fun _ _ => p.scopes.name_of_resolve?) htake hclosed he]
  exact ⟨us, hus.handsOut, written_ofTokens us⟩

theorem gathers_condition {terminal : Operator} {condition : Condition}
    (h : p.condition terminal = (some condition, q)) : p.Gathers condition.inner.content q :=
  gathers_expression (condition_eq_some h).1

/-! ### Simple statements -/

theorem gathers_terminator (h : p.terminator = (true, q)) : p.Gathers .empty q := by
  obtain ⟨hend, rfl⟩ := terminator_eq_true.1 h
  have hnext := p.next_fill 1
  split
  · exact p.gathers_fill 1
  next hbrace =>
    apply (p.gathers_fill 1).then
    rw [endsStatement, Token.isTerminator, Bool.or_eq_true, Bool.or_eq_true] at hend
    rcases hend with (hline | hsemicolon) | hend
    · exact gathers_endsLine (by rwa [hnext])
    · exact gathers_punctuation (by rwa [hnext]) rfl
    · contradiction

/-- A name that is next refers to a variable of that name. -/
theorem name_of_target? {x : String} {v : Variable} (hkind : p.next.kind = .identifier x)
    (h : p.target? = some v) : v.name = x := by
  have hname : p.next.identifier?.getD "" = x := by simp [Token.identifier?, hkind]
  rw [target?, hname] at h
  exact p.scopes.name_of_resolve? h

/-- An assignment holds the name in front, its sign and its value. -/
theorem gathers_assignment {x : String} (hkind : p.next.kind = .identifier x)
    (h : p.assignment = (s, q)) (hvalid : s.isInvalid = false) :
    ∃ target value l, s = .assign target value l ∧ target.target.name = x ∧ p.Gathers s.content q := by
  obtain ⟨v, value, r, hassign, htarget, hvalue, hend, rfl⟩ := assignment_eq_read.1 ⟨h, hvalid⟩
  have hv := name_of_target? hkind htarget
  have hsign : p.advance.Gathers (.sign .assign) p.advance.advance :=
    gathers_sign (Token.kind_of_isOperator hassign) rfl
  refine ⟨_, value, _, rfl, hv, ?_⟩
  rw [Statement.content, hv]
  exact ((gathers_identifier hkind).trans hsign).trans
    ((gathers_expression hvalue).then (gathers_terminator hend))

theorem gathers_step {terminated : Bool} {x : String} (hkind : p.next.kind = .identifier x)
    (h : p.step terminated = .ok (s, q)) (hvalid : s.isInvalid = false) : p.Gathers s.content q := by
  obtain ⟨d, v, hd, htarget, rfl, hend⟩ := step_eq_read.1 ⟨h, hvalid⟩
  obtain ⟨op, hop, hdirection⟩ := Option.bind_eq_some_iff.1 hd
  obtain rfl := Direction.operator_of_ofOperator? hdirection
  have hsign : p.advance.Gathers (.sign d.operator) p.advance.advance :=
    gathers_sign (Token.kind_of_operator? hop) (by cases d <;> rfl)
  rw [Statement.content, name_of_target? hkind htarget]
  have htwo := (gathers_identifier hkind).trans hsign
  cases terminated with
  | true => exact htwo.then (gathers_terminator hend)
  | false =>
    obtain rfl := hend
    exact htwo

theorem gathers_named {x : String} (hkind : p.next.kind = .identifier x)
    (h : p.named = .ok (s, q)) (hvalid : s.isInvalid = false) : p.Gathers s.content q := by
  have hfill : (p.fill 2).next.kind = .identifier x := by rwa [next_fill]
  obtain ⟨op, -, hread⟩ := named_eq_read.1 ⟨h, hvalid⟩
  apply (p.gathers_fill 2).after
  split at hread
  · exact gathers_step hfill hread.1 hread.2
  · obtain ⟨_, _, _, -, -, hgathers⟩ := gathers_assignment hfill hread.1 hread.2
    exact hgathers

/-- A declaration holds the keyword and the name, and with an initial value the sign and the value. -/
theorem gathers_declaration (hkeyword : p.next.kind = .keyword .float)
    (h : p.declaration = (s, q)) (hread : s.isRead = true) : p.Gathers s.content q := by
  obtain ⟨x, v, hname, hcases⟩ := declaration_eq_read.1 ⟨h, hread⟩
  have hfirst : p.Gathers (.word (.keyword .float)) ((p.advance.fill 1).fill 2) :=
    ((gathers_keyword hkeyword).then (gathers_fill _ 1)).then (gathers_fill _ 2)
  have hahead : ((p.advance.fill 1).fill 2).ahead 1 = p.ahead 2 := by
    rw [ahead_fill, ahead_fill, ahead_advance]
  have hkind : ((p.advance.fill 1).fill 2).next.kind = .identifier x := by
    rw [next_fill]
    exact Token.kind_of_identifier? hname
  generalize (p.advance.fill 1).fill 2 = named at hcases hahead hkind hfirst
  rcases hcases with ⟨hend, rfl, hdefine⟩ | ⟨-, value, r, hdefine, hvalue, hvalid, rfl⟩
  · have hnext : endsStatement named.advance.next = true := by
      rw [next_advance, hahead]
      exact hend
    obtain ⟨stop, hstop⟩ : ∃ stop, named.advance.terminator = (true, stop) :=
      ⟨_, terminator_eq_true.2 ⟨hnext, rfl⟩⟩
    rw [hstop] at hdefine
    obtain ⟨rfl, -, -, hscanner⟩ := define_eq_some hdefine
    have hname := (gathers_identifier hkind).then (gathers_terminator hstop)
    exact (hfirst.trans hname).congr hscanner
  · obtain ⟨rfl, -, -, hscanner⟩ := define_eq_some hdefine
    have hsame : r.next.kind = .identifier x := by
      rw [next, hscanner]
      exact hkind
    obtain ⟨target, e, l, rfl, htarget, hgathers⟩ := gathers_assignment hsame hvalue hvalid
    have hall := (hfirst.congr hscanner).trans hgathers
    rw [Statement.content, htarget] at hall
    rw [Statement.content, Statement.content]
    simpa only [Content.append_assoc] using hall

/-! ### The clauses of a loop -/

theorem gathers_loopCondition {clause : Option Statement}
    (h : p.loopCondition = (some clause, q)) : p.Gathers (Statement.clauseContent clause) q := by
  rcases loopCondition_eq_some.1 h with
    ⟨hsemicolon, rfl, rfl⟩ | ⟨-, c, r, hc, hsemicolon, rfl, rfl⟩
  · exact (p.gathers_fill 1).after (gathers_punctuation (by rwa [next_fill]) rfl)
  · exact ((p.gathers_fill 1).after (gathers_condition hc)).then (gathers_punctuation hsemicolon rfl)

theorem gathers_loopIncrement {clause : Option Statement}
    (h : p.loopIncrement = .ok (some clause, q)) : p.Gathers (Statement.clauseContent clause) q := by
  rcases loopIncrement_eq_some.1 h with ⟨-, rfl, rfl⟩ | ⟨hname, -, step, hstep, hvalid, rfl⟩
  · exact p.gathers_fill 1
  · obtain ⟨x, hx⟩ := Option.isSome_iff_exists.1 (Option.isNone_eq_false_iff.1 hname)
    have hkind : ((p.fill 1).fill 2).next.kind = .identifier x := by
      rw [next_fill, next_fill]
      exact Token.kind_of_identifier? hx
    exact ((p.gathers_fill 1).after (gathers_fill _ 2)).after (gathers_step hkind hstep hvalid)

/-! ### Scopes -/

/-- The parser `q` comes from `p` by reading the statements `ss` into the current scope. -/
structure Adds (p : Parser) (ss : List Statement) (q : Parser) : Prop where
  scopes : ∃ vs k, q.scopes = p.scopes.grow vs ss k
  gathers : p.Gathers (Statement.contentAll ss) q

theorem Gathers.adds (h : p.Gathers .empty q) (hscopes : q.scopes = p.scopes) : p.Adds [] q where
  scopes := ⟨[], p.scopes.nextId, by rw [hscopes, ScopeChain.grow_nil]⟩
  gathers := h

theorem Adds.trans {ss ss' : List Statement} (h : p.Adds ss q) (h' : q.Adds ss' r) :
    p.Adds (ss ++ ss') r where
  scopes := by
    obtain ⟨vs, k, hq⟩ := h.scopes
    obtain ⟨vs', k', hr⟩ := h'.scopes
    exact ⟨vs ++ vs', k', by rw [hr, hq, ScopeChain.grow_grow]⟩
  gathers := by
    rw [Statement.contentAll_append]
    exact h.gathers.trans h'.gathers

/-- A statement that was read is added to the current scope. -/
theorem Gathers.push (h : p.Gathers s.content q) (hmakes : Makes source i p s q) :
    p.Adds [s] (q.push s) where
  scopes := by
    obtain ⟨k, hq⟩ := hmakes.scopes
    refine ⟨s.declared, k, ?_⟩
    change q.scopes.push s = _
    rw [ScopeChain.push_eq, hq, ScopeChain.grow_grow, List.append_nil, List.nil_append]
    rfl
  gathers := by
    rw [Statement.contentAll, Statement.contentAll, Content.append_empty]
    exact h.congr rfl

/-- Every statement that is read without an error holds its tokens. -/
def StatementsGather (source : Source) (n : Nat) : Prop :=
  ∀ ⦃i p s q⦄, p.Stands source i → statementWithin n p = .ok (s, q) → q.errorCount = 0 →
    p.Gathers s.content q

/-- Every body that is read without an error holds its tokens. -/
def BodiesGather (source : Source) (n : Nat) : Prop :=
  ∀ ⦃top i p q⦄, p.Stands source i → bodyWithin n top p = .ok q → q.errorCount = 0 →
    ∃ ss, p.Adds ss q

theorem gathers_branch (hbody : BodiesGather source n) (hp : p.Stands source i)
    (hkeyword : p.next.kind = .keyword .if) (h : branchWith (bodyWithin n false) p = .ok (s, q))
    (hvalid : s.isInvalid = false) (herrors : q.errorCount = 0) : p.Gathers s.content q := by
  obtain ⟨c, r, u, scope, hcondition, hbrace, hu, hleave, rfl⟩ := branchWith_eq_read.1 ⟨h, hvalid⟩
  have hscanner := scanner_of_leave hleave
  have hheader : p.Gathers (.word (.keyword .if) ++ c.inner.content) r.advance.enter :=
    (((gathers_keyword hkeyword).trans (gathers_condition hcondition)).then
      (gathers_punctuation hbrace rfl)).congr rfl
  obtain ⟨j, hstands⟩ := hp.gathers hheader
  obtain ⟨ss, hss⟩ := hbody hstands hu ((errorCount_congr hscanner).symm.trans herrors)
  obtain ⟨vs, k, hscopes⟩ := hss.scopes
  obtain ⟨-, rfl, -, -⟩ := leave_eq_ok hleave hscopes
  rw [Statement.content, Statement.scopeContent_eq]
  exact (hheader.trans hss.gathers).congr hscanner

/-- The first clause is in the loop's scope, if there is one. -/
theorem adds_loopInit (hstatement : StatementsGather source n) (hp : p.Stands source i)
    (h : loopInit (statementWithin n) p = .ok (true, q)) (herrors : q.errorCount = 0) :
    ∃ init : Option Statement, p.Adds init.toList q := by
  rcases loopInit_eq_true.1 h with ⟨hsemicolon, rfl⟩ | ⟨-, init, r, hinit, hread, hend⟩
  · exact ⟨none, ((p.gathers_fill 1).after (gathers_punctuation (by rwa [next_fill]) rfl)).adds rfl⟩
  · have hmakes := (makes_within source n).1 (hp.fill 1) hinit
    -- a block is not ended by a semicolon of its own
    have hend : (r.push init).Adds [] q := by
      split at hend
      · obtain ⟨hsemicolon, rfl⟩ := headerSemicolon_eq_true.1 hend
        exact (gathers_punctuation hsemicolon rfl).adds rfl
      · obtain rfl := hend
        exact (gathers_of_eq rfl).adds rfl
    have hr : (r.push init).errorCount = 0 := hend.gathers.errorCount_eq_zero herrors
    have hfirst := ((p.gathers_fill 1).adds rfl).trans ((hstatement (hp.fill 1) hinit hr).push hmakes)
    exact ⟨some init, hfirst.trans hend⟩

/-- The header of a loop leaves the first clause in the loop's scope and nothing else. -/
theorem gathers_loopHeader {header : LoopHeader} (hstatement : StatementsGather source n)
    (hp : p.Stands source i) (h : loopHeaderWith (statementWithin n) p = .ok (some header, q))
    (herrors : q.errorCount = 0) :
    ∃ init : Option Statement, (∃ vs k, q.scopes = p.scopes.grow vs init.toList k) ∧
      p.Gathers (Statement.clauseContent init ++ Statement.clauseContent header.condition ++
        Statement.clauseContent header.increment) q := by
  obtain ⟨v, w, x, hinit, hcondition, hincrement, hbrace, rfl⟩ := loopHeaderWith_eq_some.1 h
  have hclauses : v.Gathers
      (Statement.clauseContent header.condition ++ Statement.clauseContent header.increment)
      x.advance :=
    ((gathers_loopCondition hcondition).trans (gathers_loopIncrement hincrement)).then
      (gathers_punctuation hbrace rfl)
  obtain ⟨init, hadds⟩ := adds_loopInit hstatement hp hinit (hclauses.errorCount_eq_zero herrors)
  obtain ⟨j, hv⟩ := hp.gathers hadds.gathers
  -- the other clauses leave the scope as it is
  have hkeeps : v.Keeps x := by
    rcases loopCondition_cases hv hcondition with ⟨hnone, -⟩ | ⟨_, _, _, hkeeps, -, hw, -⟩
    · cases hnone
    · rcases loopIncrement_cases hw hincrement with ⟨hnone, -⟩ | ⟨_, _, _, hkeeps', -⟩
      · cases hnone
      · exact hkeeps.trans hkeeps'
  refine ⟨init, ?_, ?_⟩
  · obtain ⟨vs, k, hscopes⟩ := hadds.scopes
    exact ⟨vs, k, (hkeeps.trans x.keeps_advance).scopes.trans hscopes⟩
  · have hall := hadds.gathers.trans hclauses
    rwa [Statement.contentAll_toList, ← Content.append_assoc] at hall

/-- A loop takes its first clause out of its scope before the body is read into it. -/
theorem gathers_loop (hbody : BodiesGather source n) (hstatement : StatementsGather source n)
    (hp : p.Stands source i) (hkeyword : p.next.kind = .keyword .for)
    (h : loopWith (bodyWithin n false) (statementWithin n) p = .ok (s, q))
    (hvalid : s.isInvalid = false) (herrors : q.errorCount = 0) : p.Gathers s.content q := by
  obtain ⟨header, r, u, scope, hheader, hu, hleave, rfl⟩ := loopWith_eq_read.1 ⟨h, hvalid⟩
  have hscanner := scanner_of_leave hleave
  have hend : u.errorCount = 0 := (errorCount_congr hscanner).symm.trans herrors
  have hr : r.errorCount = 0 :=
    ((leadsTo_pop r).trans (leadsTo_of_bodyWithin hu)).errorCount_eq_zero hend
  have hfirst : p.Gathers (.word (.keyword .for)) p.advance.enter :=
    (gathers_keyword hkeyword).congr rfl
  obtain ⟨j, hstands⟩ := hp.gathers hfirst
  obtain ⟨init, ⟨vs, k, hscopes⟩, hclauses⟩ := gathers_loopHeader hstatement hstands hheader hr
  obtain ⟨y, hpop, hyscopes, hyscanner⟩ := pop_of_grow hscopes
  rw [hpop] at hu ⊢
  have hwhole := hfirst.trans (hclauses.congr hyscanner)
  obtain ⟨j', hy⟩ := hp.gathers hwhole
  obtain ⟨ss, hss⟩ := hbody hy hu hend
  obtain ⟨vs', k', hscopes'⟩ := hss.scopes
  rw [hyscopes, ScopeChain.grow_grow] at hscopes'
  obtain ⟨-, rfl, -, -⟩ := leave_eq_ok hleave hscopes'
  have hall := (hwhole.trans hss.gathers).congr hscanner
  rw [Statement.content, Statement.scopeContent_eq]
  simpa only [Content.append_assoc] using hall

/-! ### Statements and bodies -/

theorem statementsGather_succ (hbody : BodiesGather source n) (hstatement : StatementsGather source n) :
    StatementsGather source (n + 1) := by
  intro i p s q hp h herrors
  have hread := isRead_of_errorCount hp h herrors
  have hvalid := isInvalid_of_isRead hread
  unfold statementWithin at h
  dsimp only at h
  apply (p.gathers_fill 1).after
  split at h
  next hkind => exact gathers_declaration hkind (Except.ok.inj h) hread
  next hkind => exact gathers_branch hbody (hp.fill 1) hkind h hvalid herrors
  next hkind => exact gathers_loop hbody hstatement (hp.fill 1) hkind h hvalid herrors
  next hkind => exact gathers_named hkind h hvalid
  next =>
    obtain ⟨rfl, -⟩ := Prod.mk.inj (Except.ok.inj h)
    cases hvalid

theorem bodiesGather_succ (hbody : BodiesGather source n) (hstatement : StatementsGather source n) :
    BodiesGather source (n + 1) := by
  intro top i p q hp h herrors
  have hfill := p.gathers_fill 1
  -- a separator is taken, and the body goes on
  have hmore (hnext : (p.fill 1).Gathers .empty (p.fill 1).advance)
      (hrest : bodyWithin n top (p.fill 1).advance = .ok q) : ∃ ss, p.Adds ss q := by
    have hfirst := hfill.then hnext
    obtain ⟨j, hstands⟩ := hp.gathers hfirst
    obtain ⟨ss, hss⟩ := hbody hstands hrest herrors
    exact ⟨ss, (hfirst.adds rfl).trans hss⟩
  cases bodyWithin_succ.1 h with
  | ends hends =>
    cases hends with
    | brace hbrace =>
      exact ⟨[], (hfill.then (gathers_punctuation (by rwa [next_fill]) rfl)).adds rfl⟩
    | endOfFile _ => exact ⟨[], hfill.adds rfl⟩
    | program _ => exact ⟨[], (hfill.then ⟨[], .flush (.refl _), written_nil⟩).adds rfl⟩
  | blank hblank hrest =>
    refine hmore ?_ hrest
    rcases Bool.or_eq_true_iff.1 hblank with hline | hsemicolon
    · exact gathers_endsLine (by rw [next_fill, Token.endsLine, hline, Bool.true_or])
    · exact gathers_punctuation (by rwa [next_fill]) rfl
  | stray _ hbrace hrest => exact hmore (gathers_punctuation (by rwa [next_fill]) rfl) hrest
  | statement s r _ hs hrest =>
    have hr : r.errorCount = 0 := by
      have hrest' := (leadsTo_of_bodyWithin hrest).errorCount_eq_zero herrors
      split at hrest' <;> exact hrest'
    have hvalid := isInvalid_of_isRead (isRead_of_errorCount (hp.fill 1) hs hr)
    rw [if_neg (by simp [hvalid])] at hrest
    have hpush := (hstatement (hp.fill 1) hs hr).push ((makes_within source n).1 (hp.fill 1) hs)
    obtain ⟨j, hstands⟩ := (hp.fill 1).gathers hpush.gathers
    obtain ⟨ss, hss⟩ := hbody hstands hrest herrors
    exact ⟨s :: ss, ((hfill.adds rfl).trans hpush).trans hss⟩

theorem gathers_within (source : Source) (n : Nat) :
    StatementsGather source n ∧ BodiesGather source n := by
  -- one induction for both readers, since each calls the other with a smaller bound
  induction n with
  | zero =>
    refine ⟨fun i p s q _ h => ?_, fun top i p q _ h => ?_⟩
    · simp [statementWithin, halt] at h
    · simp [bodyWithin, halt] at h
  | succ n ih => exact ⟨statementsGather_succ ih.2 ih.1, bodiesGather_succ ih.2 ih.1⟩

/-! ### Programs -/

/-- The end of the file leaves nothing, however often it is taken. -/
theorem ofTokens_of_le {m : Nat} (hm : (source.tokenAt m).isEndOfFile = true) (hmn : m ≤ n) :
    Content.ofTokens ((List.range n).map source.tokenAt) =
      .ofTokens ((List.range m).map source.tokenAt) := by
  induction hmn with
  | refl => rfl
  | @step n hmn ih =>
    have hline : (source.tokenAt n).endsLine = true := by
      rw [Token.endsLine, Source.isEndOfFile_of_le hm hmn, Bool.or_true]
    rw [List.range_succ, List.map_append, List.map_singleton, Content.ofTokens_append,
      Content.ofTokens_endsLine hline, Content.append_empty, ih]

/-- A parser that has come to the end of its file has taken the content of all tokens. -/
theorem Gathers.written (h : (ofSource source).Gathers c p) (hend : p.next.isEndOfFile = true) :
    Written (Scanner.tokens { source }).1 c := by
  obtain ⟨ts, hts, hwritten⟩ := h
  have hahead : (ofSource source).scanner.ahead = source.tokenAt := by
    funext k
    exact (stands_ofSource source k).trans (congrArg source.tokenAt k.zero_add)
  have hstop : (source.tokenAt ts.length).isEndOfFile = true := by
    rw [← hahead, ← Nat.zero_add ts.length, ← hts.ahead]
    exact hend
  have htaken : ts = (List.range ts.length).map source.tokenAt := hahead ▸ hts.tokens_eq
  obtain ⟨m, hbefore, hm⟩ := source.exists_endOfFile
  have hle : m ≤ ts.length := by
    by_contra hlt
    rw [hbefore _ (Nat.lt_of_not_le hlt)] at hstop
    contradiction
  apply hwritten.congr
  rw [htaken, Source.tokens_eq_map hbefore hm, ofTokens_of_le hm m.le_succ, ofTokens_of_le hm hle]

/-- Every program is read. If there was no error, its tree holds the words of the source in their
order, and every operator but for brackets and semicolons, and nothing else. -/
theorem program_written (file : Path) (bytes : ByteArray) :
    ∃ p, (ofSource (.ofBytes file bytes)).program = .ok p ∧
      (p.errorCount = 0 → Written (Scanner.tokens { source := .ofBytes file bytes }).1
        (Statement.contentAll p.scopes.outermost.statements)) := by
  obtain ⟨-, p, hp, -⟩ := (ofSource (.ofBytes file bytes)).body_ok true
  refine ⟨p, hp, fun herrors => ?_⟩
  obtain ⟨ss, hss⟩ := (gathers_within (.ofBytes file bytes) _).2 (stands_ofSource _) hp herrors
  have hall : p.scopes.outermost.statements = ss := by
    obtain ⟨vs, k, hscopes⟩ := hss.scopes
    rw [hscopes]
    exact List.nil_append ss
  rw [hall]
  exact hss.gathers.written (program_ends hp).1

/-- A declaration over two lines, and a loop whose first clause is taken out of its scope again. -/
theorem program_written_of_loop :
    let source := "float x = (1 +\n 2)\nfor float i = 0; i < x; i++ \x7b if !x \x7b x--; \x7d \x7d"
    let digit := fun c : Char => TokenKind.numeral (.ofDigits [c] 0)
    let words : List TokenKind :=
      [.keyword .float, .identifier "x", digit '1', digit '2',
        .keyword .for, .keyword .float, .identifier "i", digit '0',
        .identifier "i", .identifier "x", .identifier "i",
        .keyword .if, .identifier "x", .identifier "x"]
    ∃ p, (ofSource (.ofBytes ⟨"main.rin"⟩ source.toUTF8)).program = .ok p ∧ p.errorCount = 0 ∧
      (Statement.contentAll p.scopes.outermost.statements).words = words ∧
      Written (Scanner.tokens { source := .ofBytes ⟨"main.rin"⟩ source.toUTF8 }).1
        (Statement.contentAll p.scopes.outermost.statements) := by
  intro source digit words
  obtain ⟨p, hp, hwritten⟩ := program_written ⟨"main.rin"⟩ source.toUTF8
  have hread : ((ofSource (.ofBytes ⟨"main.rin"⟩ source.toUTF8)).program.toOption.map fun p =>
      (p.errorCount, (Statement.contentAll p.scopes.outermost.statements).words)) =
        some (0, words) := by
    decide +kernel
  rw [hp] at hread
  obtain ⟨hnone, hwords⟩ := Prod.mk.inj (Option.some.inj hread)
  exact ⟨p, hp, hnone, hwords, hwritten hnone⟩

end Parser

end FloatLang
