import FloatLang.Proofs.Parser.Termination
import FloatLang.Proofs.Rendering.Statements

/-!
# Reading rendered programs

A program that is written out is read back: nothing is reported, and the outermost scope holds
its tree. A statement inside is read the same way wherever it stands, by induction on it, and
with any bound on the nesting that is great enough for it.

## Main definitions

* `Parser.Enters` — a parser has come through an opening brace to words
* `Parser.ReadsCommand`, `Parser.ReadsBody` — a reader reads a command, or a body of commands
* `Parser.ReadsRow` — with a bound on the nesting, commands in a row are read

## Main results

* `Parser.branch_words`, `Parser.loop_words` — rendered block statements are read
* `Parser.exists_readsCommand`, `Parser.exists_readsRow` — every rendered statement is read
* `Rendering.program_of_text` — every rendered program is read
-/

namespace FloatLang

open Rendering

namespace Parser

variable {p q r : Parser} {w : Word} {ws : List Word} {xs : List String} {c : Command}
  {cs : List Command} {body : Parser → Except Halt Parser}
  {statement : Parser → Except Halt (Statement × Parser)}

/-! ### Braces -/

/-- The parser `q` has come from `p` through an opening brace to these words. -/
structure Enters (p q : Parser) (ws : List Word) : Prop where
  spells : q.Spells ws
  reports : q.scanner.reports = p.scanner.reports
  pending : ∃ l, q.scanner.pending = ⟨.brace, l⟩ :: p.scanner.pending

theorem enters_advance {legal : Operator.leftBrace ≠ .illegal}
    (h : p.Spells (.operator .leftBrace legal :: ws)) : p.Enters p.advance ws := by
  -- the brace is the innermost bracket from now on
  have hfollow : follow? p.scanner.pending p.next =
      some (⟨.brace, p.next.location⟩ :: p.scanner.pending) := by
    rw [follow?, h.next]
    rfl
  obtain ⟨haccepts, hpending⟩ := Scanner.accepts_advance hfollow
  exact ⟨h.advance, haccepts.reports, _, hpending⟩

theorem Arrives.enters {ws' : List Word} (h : p.Arrives q ws) (h' : q.Enters r ws') :
    p.Enters r ws' := by
  obtain ⟨l, hl⟩ := h'.pending
  exact ⟨h'.spells, h'.reports.trans h.reports, l, by rw [hl, h.pending]⟩

theorem Enters.enter (h : p.Enters q ws) : p.Enters q.enter ws := ⟨h.spells, h.reports, h.pending⟩

theorem Enters.arrives {ws' : List Word} (h : p.Enters q ws) (h' : q.Arrives r ws') :
    p.Enters r ws' := by
  obtain ⟨l, hl⟩ := h.pending
  exact ⟨h'.spells, h'.reports.trans h.reports, l, by rw [h'.pending, hl]⟩

/-- A closing brace leads back to the brackets that were open before. -/
theorem Enters.close {legal : Operator.rightBrace ≠ .illegal}
    (h : p.Enters q (.operator .rightBrace legal :: ws)) : p.Arrives q.advance ws := by
  obtain ⟨l, hl⟩ := h.pending
  -- the innermost open bracket is the one that is closed
  have hfollow : follow? q.scanner.pending q.next = some p.scanner.pending := by
    rw [follow?, h.spells.next, hl]
    rfl
  obtain ⟨haccepts, hpending⟩ := Scanner.accepts_advance hfollow
  exact ⟨h.spells.advance, haccepts.reports.trans h.reports, hpending⟩

/-! ### Block statements -/

/-- The reader reads the command, wherever it stands. -/
def ReadsCommand (statement : Parser → Except Halt (Statement × Parser)) (c : Command) : Prop :=
  ∀ ⦃p : Parser⦄ ⦃ws : List Word⦄ ⦃xs : List String⦄, p.Spells (c.words ++ ws) →
    p.scopes.Knows xs → c.wellScoped xs = true → ∃ s q, statement p = .ok (s, q) ∧ p.Reads c ws s q

/-- The closing brace can be rendered. -/
theorem rightBrace_ne_illegal : Operator.rightBrace ≠ .illegal := by decide

/-- The reader reads the commands up to and including the closing brace after them. -/
def ReadsBody (body : Parser → Except Halt Parser) (cs : List Command) : Prop :=
  ∀ ⦃p q : Parser⦄ ⦃ws : List Word⦄ ⦃xs : List String⦄,
    p.Enters q (Command.allWords cs ++ .operator .rightBrace rightBrace_ne_illegal :: ws) →
    q.scopes.Knows xs →
    Command.allWellScoped xs cs = true → ∃ r, body q = .ok r ∧ p.Arrives r ws ∧
      q.scopes.Gains (cs.flatMap Command.declared) (Command.trees cs) r.scopes

/-- A scope that was entered is left with what it gained. -/
theorem leave_words {c : ScopeChain} {names : List Name} {trees : List Statement}
    (h : c.enter.Gains names trees q.scopes) (harrives : p.Arrives q ws) :
    ∃ s r, q.leave = .ok (s, r) ∧ p.Arrives r ws ∧
      Statement.forgetScope s = ⟨0, none, names.map Name.variable, trees⟩ ∧
      c.Gains [] [] r.scopes := by
  obtain ⟨s, c', hleave, hforget, hgains⟩ := h.leave
  refine ⟨s, { q with scopes := c' }, ?_, ⟨harrives.spells, harrives.reports, harrives.pending⟩,
    hforget, hgains⟩
  rw [leave, hleave]

/-- A rendered `if` is read by whatever reads the statements in it. -/
theorem branch_words {e : Term} (hbody : ReadsBody body cs) :
    ReadsCommand (branchWith body) (.branch e cs) := by
  intro p ws xs hp hknows hscoped
  simp only [Command.words, List.cons_append, List.append_assoc, List.nil_append] at hp
  rw [Command.wellScoped, Bool.and_eq_true] at hscoped
  have hone := arrives_advance hp rfl
  obtain ⟨condition, q, hq, htree, hscopes, harrives⟩ :=
    condition_words (.inr rfl) hone.spells hknows hscoped.1
  have hsame : q.scopes = p.scopes := by rw [hscopes, scopes_advance]
  have hbrace := isOperator_of_kind harrives.spells.next .leftBrace
  have henters := ((hone.trans harrives).enters (enters_advance harrives.spells)).enter
  -- the body is read in a scope of its own, where the same names are known
  have hknows' : q.advance.enter.scopes.Knows xs := by
    change q.scopes.enter.Knows xs
    rw [hsame]
    exact hknows.enter
  obtain ⟨r, hr, hclosed, hgains⟩ := hbody henters hknows' hscoped.2
  obtain ⟨s, u, hu, hleft, hforget, hleftScopes⟩ := leave_words (c := q.scopes) hgains hclosed
  refine ⟨.branch condition s p.next.location, u, ?_, ?_, hleft, ?_⟩
  · simp [branchWith, hq, hbrace, blockWith, hr, hu, bind, Except.bind, pure, Except.pure]
  · rw [Statement.forget, htree, hforget]
    rfl
  · rw [← hsame]
    exact hleftScopes

/-! ### Loops -/

/-- No command starts with an operator or ends a line. -/
theorem kind_next_of_command (hp : p.Spells (c.words ++ ws)) :
    (∃ word, p.next.kind = .keyword word) ∨ ∃ x, p.next.kind = .identifier x := by
  cases c with
  | declare x | define x e | branch e cs | loop init condition increment cs =>
    rw [Command.words] at hp
    exact .inl ⟨_, hp.next⟩
  | assign x e | step direction x =>
    rw [Command.words] at hp
    exact .inr ⟨_, hp.next⟩

theorem isOperator_next_of_command (hp : p.Spells (c.words ++ ws)) (op : Operator) :
    p.next.isOperator op = false := by
  rcases kind_next_of_command hp with ⟨word, hkind⟩ | ⟨x, hkind⟩ <;>
    simp [Token.isOperator, Token.operator?, hkind]

theorem endsLine_next_of_command (hp : p.Spells (c.words ++ ws)) :
    p.next.isEndOfFile = false ∧ p.next.isEndOfLine = false := by
  rcases kind_next_of_command hp with ⟨word, hkind⟩ | ⟨x, hkind⟩ <;>
    simp [Token.isEndOfFile, Token.isEndOfLine, hkind]

theorem isInvalid_forget (s : Statement) : s.forget.isInvalid = s.isInvalid := by
  cases s <;> rfl

theorem isBlock_forget (s : Statement) : s.forget.isBlock = s.isBlock := by
  cases s <;> rfl

theorem initFailed_forget (s : Statement) : initFailed s.forget = initFailed s := by
  cases s with
  | compound first second l =>
    rw [Statement.forget, initFailed, isInvalid_forget, isInvalid_forget, initFailed]
  | _ => rfl

/-- What a command stands for has not failed. It owns a scope if the command does. -/
theorem clause_of_forget {s : Statement} (h : s.forget = c.tree) :
    initFailed s = false ∧ s.isInvalid = false ∧ s.isBlock = c.isBlock := by
  rw [← initFailed_forget, ← isInvalid_forget, ← isBlock_forget, h]
  cases c <;> exact ⟨rfl, rfl, rfl⟩

theorem Reads.of_fill {n : Nat} {s : Statement} (hp : p.Spells (c.words ++ ws))
    (h : (p.fill n).Reads c ws s q) : p.Reads c ws s q :=
  ⟨h.tree, (arrives_fill hp n).trans h.arrives, h.scopes⟩

/-- A statement that was read is added to the current scope. -/
theorem Reads.push {s : Statement} (h : p.Reads c ws s q) :
    p.Arrives (q.push s) ws ∧ p.scopes.Gains c.declared [c.tree] (q.push s).scopes := by
  have hgains := h.scopes.push s
  rw [h.tree] at hgains
  exact ⟨⟨h.arrives.spells, h.arrives.reports, h.arrives.pending⟩, hgains⟩

/-- A rendered first clause of a loop is read, and left in the current scope. -/
theorem loopInit_words {init : Option Command}
    (hstatement : ∀ c, init = some c → ReadsCommand statement c)
    (hp : p.Spells (Command.initWords init ++ ws)) (hknows : p.scopes.Knows xs)
    (hscoped : Command.initWellScoped xs init = true) :
    ∃ q, loopInit statement p = .ok (true, q) ∧ p.Arrives q ws ∧
      p.scopes.Gains (Command.initDeclared init) (Command.initTree init).toList q.scopes := by
  have hfill := arrives_fill hp 1
  cases init with
  | none =>
    have hadvance := arrives_advance hfill.spells rfl
    refine ⟨(p.fill 1).advance, ?_, hfill.trans hadvance, .refl _⟩
    simp [loopInit, isOperator_of_kind hp.next, pure, Except.pure]
  | some c =>
    rw [Command.initWords, List.append_assoc] at hp
    obtain ⟨s, q, hq, hreads⟩ := hstatement c rfl (hp.fill 1) hknows hscoped
    obtain ⟨hfailed, -, hblock⟩ := clause_of_forget hreads.tree
    have hfirst := isOperator_next_of_command hp .semicolon
    -- the clause is left in the scope of the loop for the time being
    obtain ⟨hpushed, hgains⟩ := (hreads.of_fill hp).push
    cases h : c.isBlock with
    | false =>
      rw [h] at hblock hpushed
      refine ⟨q.push s, ?_, hpushed, hgains⟩
      simp [loopInit, hfirst, hq, hfailed, hblock, bind, Except.bind, pure, Except.pure]
    | true =>
      -- a block statement leaves the `;` after it
      rw [h] at hblock hpushed
      obtain ⟨hsemicolon, hadvance⟩ := headerSemicolon_words hpushed.spells .init
      refine ⟨(q.push s).advance, ?_, hpushed.trans hadvance, hgains⟩
      simp [loopInit, hfirst, hq, hfailed, hblock, hsemicolon, bind, Except.bind, pure, Except.pure]

/-- A rendered header of a loop is read, up to and including the opening brace. -/
theorem loopHeader_words {init : Option Command} {condition : Option Term}
    {increment : Option (Direction × Name)} {legal : Operator.leftBrace ≠ .illegal}
    (hstatement : ∀ c, init = some c → ReadsCommand statement c)
    (hp : p.Spells (Command.initWords init ++ (Term.clauseWords condition ++
      .operator .semicolon :: (Command.incrementWords increment ++ .operator .leftBrace legal :: ws))))
    (hknows : p.scopes.Knows xs) (hinit : Command.initWellScoped xs init = true)
    (hcondition : condition.all (·.wellScoped (extend xs (Command.initDeclared init))) = true)
    (hincrement : increment.all
      (fun i => (extend xs (Command.initDeclared init)).contains i.2.text) = true) :
    ∃ header q, loopHeaderWith statement p = .ok (some header, q) ∧ p.Enters q ws ∧
      Statement.forgetClause header.condition =
        condition.map (fun e => .expr (.condition e.tree .unknown) .unknown) ∧
      Statement.forgetClause header.increment =
        increment.map (fun i => .step i.1 i.2.reference .unknown) ∧
      p.scopes.Gains (Command.initDeclared init) (Command.initTree init).toList q.scopes := by
  obtain ⟨q, hq, hone, hgains⟩ := loopInit_words hstatement hp hknows hinit
  have hknows' := hgains.knows hknows
  obtain ⟨s, r, hr, hs, hrscopes, htwo⟩ := loopCondition_words hone.spells hknows' hcondition
  obtain ⟨s', u, hu, hs', huscopes, hthree⟩ :=
    loopIncrement_words htwo.spells (hrscopes ▸ hknows') hincrement
  have hbrace := isOperator_of_kind hthree.spells.next .leftBrace
  have hscopes : u.advance.scopes = q.scopes := huscopes.trans hrscopes
  refine ⟨⟨s, s'⟩, u.advance, ?_,
    ((hone.trans htwo).trans hthree).enters (enters_advance hthree.spells), hs, hs', ?_⟩
  · simp [loopHeaderWith, hq, hr, hu, hbrace, bind, Except.bind, pure, Except.pure]
  · rw [hscopes]
    exact hgains

/-- A rendered `for` is read by whatever reads its first clause and the statements in it. -/
theorem loop_words {init : Option Command} {condition : Option Term}
    {increment : Option (Direction × Name)} (hbody : ReadsBody body cs)
    (hstatement : ∀ c, init = some c → ReadsCommand statement c) :
    ReadsCommand (loopWith body statement) (.loop init condition increment cs) := by
  intro p ws xs hp hknows hscoped
  simp only [Command.words, List.cons_append, List.append_assoc, List.nil_append] at hp
  simp only [Command.wellScoped, Bool.and_eq_true] at hscoped
  obtain ⟨⟨⟨hinit, hcondition⟩, hincrement⟩, hscopedBody⟩ := hscoped
  have hone := arrives_advance hp rfl
  have hentered : p.advance.enter.scopes.Knows xs := hknows.enter
  obtain ⟨header, q, hq, henters, hheader, hheader', hgains⟩ := loopHeader_words
    (p := p.advance.enter) hstatement hone.spells hentered hinit hcondition hincrement
  -- the first clause is taken back before the body, what it declares stays
  obtain ⟨htree, hpopped⟩ := ScopeChain.Gains.pop (c := p.scopes) hgains
  have hbefore : p.Enters q.pop.2 _ := hone.enters ⟨henters.spells, henters.reports, henters.pending⟩
  obtain ⟨r, hr, hclosed, hbodyGains⟩ :=
    hbody hbefore (hpopped.knows (c := p.scopes.enter) hentered) hscopedBody
  -- the scope that is left has the variable of the clause and the statements of the body
  obtain ⟨s, u, hu, hleft, hforget, hleftScopes⟩ :=
    leave_words (c := p.scopes) (hpopped.trans hbodyGains) hclosed
  refine ⟨.loop q.scopes.pop.1 header.condition header.increment s p.next.location, u, ?_, ?_,
    hleft, hleftScopes⟩
  · simp only [loopWith, hq, hr, hu, bind, Except.bind, pure, Except.pure]
    rfl
  · rw [Statement.forget, htree, hheader, hheader', hforget]
    rfl

/-! ### Statements and bodies -/

theorem declaration_declare {x : Name} : ReadsCommand (fun p => .ok p.declaration) (.declare x) := by
  intro p ws xs hp hknows hscoped
  obtain ⟨s, q, hq, hreads⟩ := declare_words hp hknows hscoped
  exact ⟨s, q, congrArg Except.ok hq, hreads⟩

theorem declaration_define {x : Name} {e : Term} :
    ReadsCommand (fun p => .ok p.declaration) (.define x e) := by
  intro p ws xs hp hknows hscoped
  obtain ⟨s, q, hq, hreads⟩ := define_words hp hknows hscoped
  exact ⟨s, q, congrArg Except.ok hq, hreads⟩

theorem named_assign {x : Name} {e : Term} : ReadsCommand named (.assign x e) := by
  intro p ws xs hp hknows hscoped
  obtain ⟨s, q, hq, hreads⟩ := assign_words (hp.fill 2) hknows hscoped
  refine ⟨s, q, ?_, hreads.of_fill hp⟩
  rw [Command.words] at hp
  simp [named, operator?_of_kind hp.second, Operator.isStep, hq]

theorem named_step {direction : Direction} {x : Name} : ReadsCommand named (.step direction x) := by
  intro p ws xs hp hknows hscoped
  have hwords := hp
  rw [Command.words] at hp
  obtain ⟨s, q, hq, htree, hscopes, harrives⟩ :=
    step_words true (hp.fill 2) hknows hscoped fun _ => ⟨ws, rfl⟩
  have hreads : (p.fill 2).Reads (.step direction x) ws s q :=
    reads_of_scopes_eq htree rfl hscopes harrives
  refine ⟨s, q, ?_, hreads.of_fill hwords⟩
  have hkind : (p.ahead 1).kind = .operator direction.operator := hp.second
  simp [named, operator?_of_kind hkind, isStep_operator direction, hq]

/-- With the bound `n` on the nesting, the commands are read as the first statements of a body.
The body goes on after them, with a bound that is not used up. -/
def ReadsRow (n : Nat) (cs : List Command) : Prop :=
  ∀ (top : Bool) ⦃p : Parser⦄ ⦃ws : List Word⦄ ⦃xs : List String⦄,
    p.Spells (Command.allWords cs ++ ws) → p.scopes.Knows xs → Command.allWellScoped xs cs = true →
    ∃ q k, bodyWithin n top p = bodyWithin (k + 1) top q ∧ p.Arrives q ws ∧
      p.scopes.Gains (cs.flatMap Command.declared) (Command.trees cs) q.scopes

theorem readsRow_nil (n : Nat) : ReadsRow (n + 1) [] :=
  fun _ p _ _ hp _ _ => ⟨p, n, rfl, ⟨hp, rfl, rfl⟩, .refl _⟩

theorem readsRow_cons {n : Nat} (hc : ReadsCommand (statementWithin n) c) (hcs : ReadsRow n cs) :
    ReadsRow (n + 1) (c :: cs) := by
  intro top p ws xs hp hknows hscoped
  rw [Command.allWords, List.append_assoc] at hp
  rw [Command.allWellScoped, Bool.and_eq_true] at hscoped
  obtain ⟨s, q, hq, hreads⟩ := hc (hp.fill 1) hknows hscoped.1
  obtain ⟨hfile, hline⟩ := endsLine_next_of_command hp
  have hoperator := isOperator_next_of_command hp
  obtain ⟨-, hvalid, -⟩ := clause_of_forget hreads.tree
  obtain ⟨hpushed, hgains⟩ := (hreads.of_fill hp).push
  -- the other commands are read where the first one ends, with what it declares known
  obtain ⟨r, k, hr, hrest, hmore⟩ := hcs top hpushed.spells (hgains.knows hknows) hscoped.2
  refine ⟨r, k, ?_, hpushed.trans hrest, hgains.trans hmore⟩
  rw [bodyWithin, ← hr]
  simp [hfile, hline, hoperator, hq, hvalid, bind, Except.bind]

/-- A closing brace ends a body. -/
theorem readsBody_of_readsRow {n : Nat} (h : ReadsRow n cs) : ReadsBody (bodyWithin n false) cs := by
  intro p q ws xs hq hknows hscoped
  obtain ⟨r, k, hr, harrives, hgains⟩ := h false hq.spells hknows hscoped
  have hfill := harrives.trans (arrives_fill harrives.spells 1)
  have hbrace := isOperator_of_kind harrives.spells.next
  have hkind := harrives.spells.next
  refine ⟨(r.fill 1).advance, ?_, (hq.arrives hfill).close, hgains⟩
  rw [hr, bodyWithin]
  simp [hbrace, Token.isEndOfFile, Token.isEndOfLine, hkind, Word.kind]

/-- How a command is read, once its first word is known. -/
def readerOf (n : Nat) : Command → Parser → Except Halt (Statement × Parser)
  | .declare _ | .define .. => fun p => .ok p.declaration
  | .assign .. | .step .. => named
  | .branch .. => branchWith (bodyWithin n false)
  | .loop .. => loopWith (bodyWithin n false) (statementWithin n)

/-- The first word of a command chooses how it is read. -/
theorem statementWithin_of_command {n : Nat} (hp : p.Spells (c.words ++ ws)) :
    statementWithin (n + 1) p = readerOf n c (p.fill 1) := by
  cases c <;> rw [Command.words] at hp <;> simp [statementWithin, readerOf, hp.next, Word.kind]

theorem readsCommand_of_readerOf {n : Nat} (h : ReadsCommand (readerOf n c) c) :
    ReadsCommand (statementWithin (n + 1)) c := by
  intro p ws xs hp hknows hscoped
  -- reading ahead first changes nothing
  obtain ⟨s, q, hq, hreads⟩ := h (hp.fill 1) hknows hscoped
  exact ⟨s, q, (statementWithin_of_command hp).trans hq, hreads.of_fill hp⟩

/-- What holds of every successor from some number on holds of every number from some number on. -/
theorem exists_bound_of_succ {P : Nat → Prop} (h : ∃ n, ∀ m, n ≤ m → P (m + 1)) :
    ∃ n, ∀ m, n ≤ m → P m := by
  obtain ⟨n, hn⟩ := h
  refine ⟨n + 1, fun m hm => ?_⟩
  cases m with
  | zero => exact absurd hm (Nat.not_succ_le_zero n)
  | succ m => exact hn m (Nat.le_of_succ_le_succ hm)

mutual

/-- Every rendered command is read, with any bound on the nesting from some bound on. -/
theorem exists_readsCommand :
    (c : Command) → ∃ n, ∀ m, n ≤ m → ReadsCommand (statementWithin m) c
  | .declare _ => exists_bound_of_succ ⟨0, fun _ _ => readsCommand_of_readerOf declaration_declare⟩
  | .define _ _ => exists_bound_of_succ ⟨0, fun _ _ => readsCommand_of_readerOf declaration_define⟩
  | .assign _ _ => exists_bound_of_succ ⟨0, fun _ _ => readsCommand_of_readerOf named_assign⟩
  | .step _ _ => exists_bound_of_succ ⟨0, fun _ _ => readsCommand_of_readerOf named_step⟩
  | .branch e cs => by
    obtain ⟨n, hn⟩ := exists_readsRow cs
    refine exists_bound_of_succ ⟨n, fun m hm => readsCommand_of_readerOf ?_⟩
    rw [readerOf]
    exact branch_words (readsBody_of_readsRow (hn m hm))
  | .loop init condition increment cs => by
    obtain ⟨n, hn⟩ := exists_readsInit init
    obtain ⟨k, hk⟩ := exists_readsRow cs
    refine exists_bound_of_succ ⟨max n k, fun m hm => readsCommand_of_readerOf ?_⟩
    rw [readerOf]
    exact loop_words (readsBody_of_readsRow (hk m (by omega))) (hn m (by omega))

/-- Rendered commands in a row are read, with any bound on the nesting from some bound on. -/
theorem exists_readsRow : (cs : List Command) → ∃ n, ∀ m, n ≤ m → ReadsRow m cs
  | [] => exists_bound_of_succ ⟨0, fun m _ => readsRow_nil m⟩
  | c :: cs => by
    obtain ⟨n, hn⟩ := exists_readsCommand c
    obtain ⟨k, hk⟩ := exists_readsRow cs
    -- one bound for the first command and for the others
    refine exists_bound_of_succ ⟨max n k, fun m hm => ?_⟩
    exact readsRow_cons (hn m (by omega)) (hk m (by omega))

/-- The rendered first clause of a loop is read as a statement. -/
theorem exists_readsInit : (init : Option Command) →
    ∃ n, ∀ m, n ≤ m → ∀ c, init = some c → ReadsCommand (statementWithin m) c
  | none => ⟨0, fun _ _ _ hc => absurd hc (Option.some_ne_none _).symm⟩
  | some c => by
    obtain ⟨n, hn⟩ := exists_readsCommand c
    refine ⟨n, fun m hm c' hc' => ?_⟩
    obtain rfl := Option.some.inj hc'
    exact hn m hm

end

/-! ### Programs -/

/-- A parser that has the words of a program ahead reads it. -/
theorem program_words (cs : List Command) (hp : p.Spells (Command.allWords cs))
    (hknows : p.scopes.Knows xs) (hscoped : Command.allWellScoped xs cs = true)
    (hpending : p.scanner.pending = []) :
    ∃ q, p.program = .ok q ∧ q.scanner.reports = p.scanner.reports ∧
      p.scopes.Gains (cs.flatMap Command.declared) (Command.trees cs) q.scopes := by
  obtain ⟨n, hn⟩ := exists_readsRow cs
  have hwords : p.Spells (Command.allWords cs ++ []) := by rwa [List.append_nil]
  -- with this bound the commands are read, and it is no smaller than the parser's own
  obtain ⟨q, k, hq, harrives, hgains⟩ :=
    hn (max n p.bound) (Nat.le_max_left _ _) true hwords hknows hscoped
  have hfill := harrives.trans (arrives_fill harrives.spells 1)
  -- after the last word the file ends
  have hend : q.next.isEndOfFile = true := by
    have hkind : q.next.kind = .endOfFile := harrives.spells 0
    rw [Token.isEndOfFile, hkind]
    rfl
  refine ⟨(q.fill 1).modifyScanner Scanner.flush, ?_, ?_, hgains⟩
  · rw [program, ← bodyWithin_eq (Nat.le_max_right n p.bound), hq, bodyWithin]
    simp [hend]
  · have hnone : (q.fill 1).scanner.pending = [] := hfill.pending.trans hpending
    change (q.fill 1).scanner.reports ++ (q.fill 1).scanner.pending.map Scanner.unclosedReport = _
    rw [hnone, List.map_nil, List.append_nil, hfill.reports]

end Parser

namespace Rendering

theorem ahead_ofSource (source : Source) (n : Nat) :
    (Parser.ofSource source).ahead n = source.tokenAt n := Scanner.ahead_eq _ n

/-- At the start of a rendered program, its words are ahead. -/
theorem spells_text (file : Path) (cs : List Command) :
    (Parser.ofSource (.ofText file (text cs))).Spells (Command.allWords cs) := by
  have hrest : (Source.ofText file (text cs)).rest = spell (Command.allWords cs) :=
    charactersOf_toUTF8 fun c hc => isPlain_of_mem_spell hc
  intro n
  rw [ahead_ofSource, kind_tokenAt hrest n]

/-- Every program with its names in scope is read from its text, with all of its clauses absent or
present and nested as deep as they are. Nothing is reported, every scope is closed again, and the
outermost scope holds the tree of the program: just its variables and just its statements, in
order and each in the scope in which it is written. -/
theorem program_of_text (file : Path) (cs : List Command)
    (hscoped : Command.allWellScoped [] cs = true) :
    ∃ p, (Parser.ofSource (.ofText file (text cs))).program = .ok p ∧ p.scanner.reports = [] ∧
      p.scopes.depth = 0 ∧ Statement.forgetScope p.scopes.outermost = programTree cs := by
  have hknows : ScopeChain.Knows {} [] := by simp [ScopeChain.Knows, ScopeChain.isSome_resolve?_iff,
    ScopeChain.scopes, Scope.outermost]
  obtain ⟨p, hp, hreports, vs, ss, k, hvs, hss, hscopes⟩ :=
    Parser.program_words cs (spells_text file cs) hknows hscoped rfl
  refine ⟨p, hp, hreports, ?_, ?_⟩
  · rw [hscopes]
    rfl
  · rw [hscopes, programTree, ← hss]
    exact ScopeChain.forgetScope_of_names hvs 0 none ss

/-- `float a; for float i = 0; (i < 1.5); i++ { if a { a = (a + i); } } for if a { } ; ; { }` is read. -/
theorem program_of_nested_loops :
    let a : Name := ⟨['a'], by decide, by decide⟩
    let i : Name := ⟨['i'], by decide, by decide⟩
    let zero : Decimal := ⟨[0], [], by decide⟩
    let limit : Decimal := ⟨[1], [5], by decide⟩
    let cs : List Command :=
      [.declare a,
        .loop (some (.define i (.literal zero)))
          (some (.binary .less rfl (.name i) (.literal limit))) (some (.up, i))
          [.branch (.name a) [.assign a (.binary .add rfl (.name a) (.name i))]],
        .loop (some (.branch (.name a) [])) none none []]
    Command.allWellScoped [] cs = true ∧
      ∃ p, (Parser.ofSource (.ofText ⟨"main.rin"⟩ (text cs))).program = .ok p ∧ p.scanner.reports = [] ∧
        p.scopes.depth = 0 ∧ Statement.forgetScope p.scopes.outermost = programTree cs := by
  intro a i zero limit cs
  have hscoped : Command.allWellScoped [] cs = true := by decide
  exact ⟨hscoped, program_of_text ⟨"main.rin"⟩ cs hscoped⟩

end Rendering

end FloatLang
