import FloatLang.Proofs.Tree.Blocks

/-!
# Reading a statement leaves the other scopes alone

However deeply nested it is read, and whether it is read or fails, a statement comes back with the
scopes that were open before it. Of these only the current one may have changed, and only by the
variable of a declaration, which comes after those that it had; its statements are added by whoever
reads statements in a row. A body is read into a scope of its own, so it changes none that was open.

Nothing is asked of the parser here, neither where its tokens come from nor which scopes are open.

## Main definitions

* `ScopeChain.Frames` — chains that differ in what the current scope declares at most
* `Parser.Grows` — what is read into the current scope

## Main results

* `ScopeChain.frames_grow` — a current scope that grows frames the others
* `Parser.grows_declaration`, `Parser.grows_branch`, `Parser.grows_loop` — what each reader adds
* `Parser.grows_within` — all statements and bodies
* `Parser.statements_frame_scopes` — every reader of statements, on every parser
-/

namespace FloatLang

/-! ### Frames -/

namespace ScopeChain

variable {c d : ScopeChain}

/-- The chain `d` has the scopes of `c`, and they differ in the variables `vs` only, which the
current one declares after all others. -/
structure Frames (c : ScopeChain) (vs : List Variable) (d : ScopeChain) : Prop where
  links : d.links = c.links
  around : d.scopes.tail = c.scopes.tail
  statements : d.current.statements = c.current.statements
  declared : d.current.declared = c.current.declared ++ vs

/-- A current scope that grows by variables frames the others. -/
theorem frames_grow (c : ScopeChain) (vs : List Variable) (k : Nat) :
    c.Frames vs (c.grow vs [] k) := by
  obtain ⟨inner, outermost, nextId⟩ := c
  cases inner with
  | nil => exact ⟨rfl, rfl, List.append_nil _, rfl⟩
  | cons s inner => exact ⟨rfl, rfl, List.append_nil _, rfl⟩

/-- A scope that was entered and left again has changed no other. -/
theorem scopes_grow_nil (c : ScopeChain) (k : Nat) : (c.grow [] [] k).scopes = c.scopes := by
  rw [← nextId_eq]
  rfl

end ScopeChain

/-- The statement declares a variable, perhaps with the statement that gives it its value. -/
inductive Statement.Declares (v : Variable) : Statement → Prop
  | declare : Declares v (.declare v)
  | define (value : Statement) (l : Location) : Declares v (.compound (.declare v) value l)

theorem Statement.Declares.declared {v : Variable} {s : Statement} (h : s.Declares v) :
    s.declared = [v] := by
  cases h <;> rfl

namespace Parser

variable {p q r : Parser} {s : Statement} {body : Parser → Except Halt Parser}
  {statement : Parser → Except Halt (Statement × Parser)}

/-! ### Growing -/

/-- The current scope of `q` is that of `p` with variables and statements added; no other scope has
changed. -/
def Grows (p : Parser) (vs : List Variable) (ss : List Statement) (q : Parser) : Prop :=
  ∃ k, q.scopes = p.scopes.grow vs ss k

theorem Grows.of_scopes (h : q.scopes = p.scopes) : p.Grows [] [] q :=
  ⟨_, by rw [h, ScopeChain.grow_nil]⟩

theorem Grows.trans {vs vs' : List Variable} {ss ss' : List Statement} (h : p.Grows vs ss q)
    (h' : q.Grows vs' ss' r) : p.Grows (vs ++ vs') (ss ++ ss') r := by
  obtain ⟨k, hq⟩ := h
  obtain ⟨k', hr⟩ := h'
  exact ⟨k', by rw [hr, hq, ScopeChain.grow_grow]⟩

theorem grows_push (p : Parser) (s : Statement) : p.Grows [] [s] (p.push s) :=
  ⟨_, p.scopes.push_eq s⟩

/-- A scope that was entered is left with what was added to it. -/
theorem Grows.leave {vs : List Variable} {ss : List Statement} {scope : Scope Statement}
    (h : p.enter.Grows vs ss q) (hleave : q.leave = .ok (scope, r)) :
    p.Grows [] [] r ∧ scope.parent? = some p.scopes.current.id := by
  obtain ⟨k, hq⟩ := h
  obtain ⟨rfl, hr, -⟩ := leave_of_grow hleave hq
  exact ⟨⟨k, hr⟩, rfl⟩

/-! ### Readers that change no scope -/

/-- The statement that was read declares nothing, and no scope has changed. -/
structure Spares (p : Parser) (s : Statement) (q : Parser) : Prop where
  scopes : q.scopes = p.scopes
  declared : s.declared = []

theorem Fails.spares (h : p.Fails q) (l : Location) : p.Spares (.invalid l) q := ⟨h.scopes, rfl⟩

theorem spares_assignment (h : p.assignment = (s, q)) : p.Spares s q := by
  rcases assignment_steps h with ⟨l, rfl, hgives⟩ | ⟨_, _, _, -, -, -, -, rfl, hkeeps⟩
  · exact hgives.spares l
  · exact ⟨hkeeps.scopes, rfl⟩

theorem spares_step {terminated : Bool} (h : p.step terminated = .ok (s, q)) : p.Spares s q := by
  rcases step_cases h with ⟨l, rfl, hfails, -⟩ | ⟨_, _, -, -, rfl, -, hkeeps, -⟩
  · exact hfails.spares l
  · exact ⟨hkeeps.scopes, rfl⟩

theorem spares_rejectName (p : Parser) (after : Token) :
    p.Spares (p.rejectName after).1 (p.rejectName after).2 :=
  (givesUp_rejectName p after).spares _

theorem spares_rejectStatement (p : Parser) : p.Spares p.rejectStatement.1 p.rejectStatement.2 :=
  (givesUp_rejectStatement p).spares _

theorem spares_named (h : p.named = .ok (s, q)) : p.Spares s q := by
  -- reading ahead first has changed no scope
  have hfill (h : (p.fill 2).Spares s q) : p.Spares s q := ⟨h.scopes, h.declared⟩
  apply hfill
  rcases named_cases h with ⟨l, rfl, hgives⟩ | hstep | hassignment
  · exact hgives.spares l
  · exact spares_step hstep
  · exact spares_assignment hassignment

/-! ### Statements -/

/-- The current scope has what the statement declares, and no other scope has changed. Only what
starts with the keyword declares a variable, and then a single one. -/
structure Enlarges (p : Parser) (s : Statement) (q : Parser) : Prop where
  grows : p.Grows s.declared [] q
  declares : s.declared = [] ∨ p.next.kind = .keyword .float ∧ ∃ v, s.Declares v

theorem Enlarges.of_grows (h : p.Grows [] [] q) (hs : s.declared = []) : p.Enlarges s q :=
  ⟨hs ▸ h, .inl hs⟩

theorem Spares.grows (h : p.Spares s q) : p.Grows [] [] q := .of_scopes h.scopes

theorem Spares.enlarges (h : p.Spares s q) : p.Enlarges s q := .of_grows h.grows h.declared

/-- Reading ahead first makes no difference to what is added. -/
theorem Enlarges.of_fill {n : Nat} (h : (p.fill n).Enlarges s q) : p.Enlarges s q where
  grows := h.grows
  declares := by
    have hdeclares := h.declares
    rwa [next_fill] at hdeclares

/-- A declaration declares its variable, or fails. -/
theorem grows_declaration (h : p.declaration = (s, q)) :
    p.Grows s.declared [] q ∧ (s.declared = [] ∨ ∃ v, s.Declares v) := by
  rcases declaration_cases h with ⟨l, rfl, hfails⟩ | ⟨x, v, -, hread⟩
  · exact ⟨(hfails.spares l).grows, .inl rfl⟩
  · rcases hread with ⟨rfl, u, -, hu, hdefine⟩ | ⟨u, r, value, rfl, -, hu, hdefine, hvalue⟩
    · obtain ⟨-, -, hscopes, -⟩ := define_eq_some hdefine
      rw [hu] at hscopes
      exact ⟨⟨_, hscopes⟩, .inr ⟨v, .declare⟩⟩
    · -- the value is assigned once the variable is there
      obtain ⟨-, -, hscopes, -⟩ := define_eq_some hdefine
      rw [hu, ← (spares_assignment hvalue).scopes] at hscopes
      exact ⟨⟨_, hscopes⟩, .inr ⟨v, .define value _⟩⟩

/-- Whatever the reader reads adds what it declares. -/
def StatementsEnlarge (statement : Parser → Except Halt (Statement × Parser)) : Prop :=
  ∀ ⦃p s q⦄, statement p = .ok (s, q) → p.Enlarges s q

/-- Whatever the reader reads is added to the current scope. -/
def BodiesGrow (body : Parser → Except Halt Parser) : Prop :=
  ∀ ⦃p q⦄, body p = .ok q → ∃ vs ss, p.Grows vs ss q

/-- A body is read into a scope of its own, which is left again. -/
theorem grows_block {scope : Scope Statement} (hbody : BodiesGrow body)
    (h : blockWith body p = .ok (scope, q)) :
    p.Grows [] [] q ∧ scope.parent? = some p.scopes.current.id := by
  obtain ⟨r, hr, hleave⟩ := bind_eq_ok.1 h
  obtain ⟨vs, ss, hgrows⟩ := hbody hr
  exact hgrows.leave hleave

/-- A block statement declares nothing outside of its scope. -/
theorem grows_branch (hbody : BodiesGrow body) (h : branchWith body p = .ok (s, q)) :
    p.Grows [] [] q ∧ s.declared = [] := by
  rcases branchWith_cases h with
    ⟨l, rfl, hfails⟩ | ⟨c, r, u, scope, hcondition, -, hu, hleave, rfl⟩
  · exact ⟨.of_scopes hfails.scopes, rfl⟩
  · have hbrace := (p.keeps_advance.trans (keeps_condition hcondition)).trans r.keeps_advance
    obtain ⟨vs, ss, hgrows⟩ := hbody hu
    have hfirst : p.Grows [] [] r.advance := .of_scopes hbrace.scopes
    exact ⟨hfirst.trans (hgrows.leave hleave).1, rfl⟩

/-- The first clause of a loop is added to the current scope, unless it is absent or has failed. -/
theorem grows_loopInit {complete : Bool} (hstatement : StatementsEnlarge statement)
    (h : loopInit statement p = .ok (complete, q)) :
    ∃ vs, ∃ init : Option Statement, p.Grows vs init.toList q := by
  rcases loopInit_steps h with ⟨-, hkeeps⟩ | ⟨s, u, hs, hrest⟩
  · exact ⟨[], none, .of_scopes hkeeps.scopes⟩
  · have henlarges := hstatement hs
    split at hrest
    · obtain ⟨-, rfl⟩ := hrest
      exact ⟨s.declared, none, henlarges.grows⟩
    · have hpush := (henlarges.grows.trans (grows_push u s)).trans (.of_scopes hrest.1.scopes)
      exact ⟨_, some s, hpush⟩

theorem grows_loopHeader {header : Option LoopHeader} (hstatement : StatementsEnlarge statement)
    (h : loopHeaderWith statement p = .ok (header, q)) :
    ∃ vs, ∃ init : Option Statement, p.Grows vs init.toList q := by
  obtain ⟨complete, u, hinit, hrest⟩ := loopHeader_steps h
  obtain ⟨vs, init, k, hu⟩ := grows_loopInit hstatement hinit
  refine ⟨vs, init, k, ?_⟩
  -- what comes after the first clause leaves the scopes as they are
  cases complete with
  | false =>
    obtain ⟨-, rfl⟩ := hrest
    exact hu
  | true =>
    rcases hrest with ⟨-, hgives⟩ | ⟨_, _, _, -, -, -, -, hkeeps⟩
    · exact hgives.scopes.trans hu
    · exact hkeeps.scopes.trans hu

theorem grows_loop (hbody : BodiesGrow body) (hstatement : StatementsEnlarge statement)
    (h : loopWith body statement p = .ok (s, q)) : p.Grows [] [] q ∧ s.declared = [] := by
  obtain ⟨⟨header, u⟩, hheader, hrest⟩ := bind_eq_ok.1 h
  obtain ⟨vs, init, k, hu⟩ := grows_loopHeader hstatement hheader
  cases header with
  | none =>
    obtain ⟨⟨scope, r⟩, hleave, hrest⟩ := bind_eq_ok.1 hrest
    obtain ⟨rfl, rfl⟩ := Prod.mk.inj (Except.ok.inj hrest)
    have hgrows : p.advance.enter.Grows vs init.toList u := ⟨k, hu⟩
    exact ⟨(hgrows.leave hleave).1, rfl⟩
  | some header =>
    -- the first clause is taken out again before the body is read
    obtain ⟨v, hpop, hv, -⟩ := pop_of_grow hu
    dsimp only at hrest
    rw [hpop] at hrest
    obtain ⟨w, hw, hrest⟩ := bind_eq_ok.1 hrest
    obtain ⟨⟨scope, r⟩, hleave, hrest⟩ := bind_eq_ok.1 hrest
    obtain ⟨rfl, rfl⟩ := Prod.mk.inj (Except.ok.inj hrest)
    obtain ⟨vs', ss, hgrows⟩ := hbody hw
    have hinit : p.advance.enter.Grows vs [] v := ⟨k, hv⟩
    exact ⟨((hinit.trans hgrows).leave hleave).1, rfl⟩

/-! ### All statements and bodies -/

theorem enlarges_statementWithin_succ {n : Nat} (hbody : BodiesGrow (bodyWithin n false))
    (hstatement : StatementsEnlarge (statementWithin n)) :
    StatementsEnlarge (statementWithin (n + 1)) := by
  intro p s q h
  rw [statementWithin] at h
  apply Enlarges.of_fill (n := 1)
  split at h
  next hkind =>
    obtain ⟨hgrows, hdeclares⟩ := grows_declaration (Except.ok.inj h)
    exact ⟨hgrows, hdeclares.imp_right fun hv => ⟨hkind, hv⟩⟩
  · obtain ⟨hgrows, hdeclared⟩ := grows_branch hbody h
    exact .of_grows hgrows hdeclared
  · obtain ⟨hgrows, hdeclared⟩ := grows_loop hbody hstatement h
    exact .of_grows hgrows hdeclared
  · exact (spares_named h).enlarges
  · obtain ⟨rfl, rfl⟩ := Prod.mk.inj (Except.ok.inj h)
    exact (spares_rejectStatement (p.fill 1)).enlarges

theorem grows_bodyWithin_succ {n : Nat} {top : Bool} (hbody : BodiesGrow (bodyWithin n top))
    (hstatement : StatementsEnlarge (statementWithin n)) : BodiesGrow (bodyWithin (n + 1) top) := by
  intro p q h
  -- what is taken between statements changes no scope
  have hmore (h : bodyWithin n top (p.fill 1).advance = .ok q) : ∃ vs ss, p.Grows vs ss q := by
    obtain ⟨vs, ss, hgrows⟩ := hbody h
    exact ⟨vs, ss, hgrows⟩
  cases bodyWithin_succ.1 h with
  | ends hends =>
    refine ⟨[], [], .of_scopes ?_⟩
    cases hends <;> rfl
  | blank _ hrest => exact hmore hrest
  | stray _ _ hrest => exact hmore hrest
  | statement s r _ hs hrest =>
    obtain ⟨vs, ss, hgrows⟩ := hbody hrest
    have henlarges : p.Grows s.declared [] r := (hstatement hs).of_fill.grows
    split at hgrows
    · exact ⟨_, _, henlarges.trans hgrows⟩
    · exact ⟨_, _, (henlarges.trans (grows_push r s)).trans hgrows⟩

/-- Statements add what they declare and bodies grow, whatever the bound on the nesting. -/
theorem grows_within (n : Nat) :
    StatementsEnlarge (statementWithin n) ∧ ∀ top, BodiesGrow (bodyWithin n top) := by
  -- one induction for both readers, since each calls the other with a smaller bound
  induction n with
  | zero =>
    refine ⟨fun p s q h => ?_, fun top p q h => ?_⟩
    · simp [statementWithin, halt] at h
    · simp [bodyWithin, halt] at h
  | succ n ih =>
    obtain ⟨hstatement, hbody⟩ := ih
    exact ⟨enlarges_statementWithin_succ (hbody false) hstatement,
      fun top => grows_bodyWithin_succ (hbody top) hstatement⟩

/-! ### The frame of every reader -/

/-- The readers of statements answer on the parser and leave the scopes that are open there as they
are, but for the variable of a declaration. -/
structure FramesScopes (p : Parser) : Prop where
  statement : ∃ s q, p.statement = .ok (s, q) ∧
    (p.scopes.Frames [] q.scopes ∨
      p.next.kind = .keyword .float ∧ ∃ v, s.Declares v ∧ p.scopes.Frames [v] q.scopes)
  declaration : p.scopes.Frames [] p.declaration.2.scopes ∨
    ∃ v, p.declaration.1.Declares v ∧ p.scopes.Frames [v] p.declaration.2.scopes
  assignment : p.scopes.Frames [] p.assignment.2.scopes
  /-- A step is read where `++` or `--` comes second. -/
  step (terminated : Bool) : p.advance.next.operator?.bind Direction.ofOperator? = none ∨
    ∃ s q, p.step terminated = .ok (s, q) ∧ p.scopes.Frames [] q.scopes
  named : ∃ s q, p.named = .ok (s, q) ∧ p.scopes.Frames [] q.scopes
  branch : ∃ s q, p.branch = .ok (s, q) ∧ p.scopes.Frames [] q.scopes
  loop : ∃ s q, p.loop = .ok (s, q) ∧ p.scopes.Frames [] q.scopes
  rejectName (after : Token) : p.scopes.Frames [] (p.rejectName after).2.scopes
  rejectStatement : p.scopes.Frames [] p.rejectStatement.2.scopes
  /-- A body is read into a scope inside the current one, which is left again. -/
  block : ∃ scope q, p.block = .ok (scope, q) ∧ q.scopes.scopes = p.scopes.scopes ∧
    scope.parent? = some p.scopes.current.id

theorem Grows.frames {vs : List Variable} (h : p.Grows vs [] q) : p.scopes.Frames vs q.scopes := by
  obtain ⟨k, hq⟩ := h
  rw [hq]
  exact p.scopes.frames_grow vs k

theorem Grows.frames_of_declared {vs : List Variable} (h : p.Grows s.declared [] q)
    (hs : s.declared = vs) : p.scopes.Frames vs q.scopes := by
  rw [hs] at h
  exact h.frames

/-- Every reader of statements, on every parser with any scopes and tokens, answers with the scopes
that were open. All but the current one are unchanged, and that one has its statements, and its
variables with at most one more behind them, that of a declaration. A body changes no scope that
was open. -/
theorem statements_frame_scopes (p : Parser) : p.FramesScopes := by
  obtain ⟨hstatement, hbody⟩ := grows_within p.bound
  have hle := p.passes_advance.reaches.remaining_le
  obtain ⟨hreads, hends⟩ := within_ok p.bound
  have hstatements := hreads p.remaining (Nat.le_succ _)
  have hbodies := (hends p.remaining false (Nat.le_refl _)).reads
  constructor
  case statement =>
    obtain ⟨s, q, hs, -⟩ := p.statement_passes
    have henlarges : p.Enlarges s q := hstatement hs
    refine ⟨s, q, hs, ?_⟩
    rcases henlarges.declares with hnone | ⟨hkind, v, hv⟩
    · exact .inl (henlarges.grows.frames_of_declared hnone)
    · exact .inr ⟨hkind, v, hv, henlarges.grows.frames_of_declared hv.declared⟩
  case declaration =>
    obtain ⟨hgrows, hdeclares⟩ := grows_declaration (Prod.eta p.declaration).symm
    rcases hdeclares with hnone | ⟨v, hv⟩
    · exact .inl (hgrows.frames_of_declared hnone)
    · exact .inr ⟨v, hv, hgrows.frames_of_declared hv.declared⟩
  case assignment => exact (spares_assignment (Prod.eta p.assignment).symm).grows.frames
  case step =>
    intro terminated
    rw [next_advance]
    cases hop : (p.ahead 1).operator?.bind Direction.ofOperator? with
    | none => exact .inl rfl
    | some direction =>
      obtain ⟨s, q, h, -⟩ := p.step_ok terminated (Option.isSome_iff_exists.2 ⟨_, hop⟩)
      exact .inr ⟨s, q, h, (spares_step h).grows.frames⟩
  case named =>
    obtain ⟨s, q, h, -⟩ := p.named_ok
    exact ⟨s, q, h, (spares_named h).grows.frames⟩
  case branch =>
    obtain ⟨s, q, h, -⟩ := branchWith_ok hbodies hle
    exact ⟨s, q, h, (grows_branch (hbody false) h).1.frames⟩
  case loop =>
    obtain ⟨s, q, h, -⟩ := loopWith_ok hbodies hstatements hle
    exact ⟨s, q, h, (grows_loop (hbody false) hstatement h).1.frames⟩
  case rejectName => exact fun after => (spares_rejectName p after).grows.frames
  case rejectStatement => exact (spares_rejectStatement p).grows.frames
  case block =>
    obtain ⟨scope, q, h, -⟩ := blockWith_ok hbodies (Nat.le_refl _)
    obtain ⟨⟨k, hscopes⟩, hparent⟩ := grows_block (hbody false) h
    refine ⟨scope, q, h, ?_, hparent⟩
    rw [hscopes, ScopeChain.scopes_grow_nil]

end Parser

end FloatLang
