import FloatLang.Proofs.Infix.Reading
import FloatLang.Proofs.Rendering.Scanning
import FloatLang.Proofs.Scope.Growth

/-!
# Reading rendered statements

A parser that has the words of an expression or of a simple statement ahead reads the tree they
are the rendering of. It reports nothing, takes just these words, and leaves the brackets open
that were open.

## Main definitions

* `ScopeChain.Gains` — what the current scope gains, by name and regardless of places
* `Parser.Spells` — the words ahead of a parser, up to the end of the file
* `Parser.Arrives` — a parser has come to words without a report
* `Parser.Reads` — a statement has been read that is what a command stands for

## Main results

* `Rendering.derives_words` — a rendered expression is an expression of the grammar
* `Parser.expression_words` — a rendered expression is read
* `Parser.assignment_words`, `Parser.step_words`, `Parser.declare_words`, `Parser.define_words` —
  rendered simple statements are read
* `Parser.loopCondition_words`, `Parser.loopIncrement_words` — rendered clauses of a loop are read
-/

namespace FloatLang

open Infix Rendering

/-! ### Expressions -/

namespace Rendering

theorem isStep_operator (direction : Direction) : direction.operator.isStep = true := by
  cases direction <;> rfl

theorem forget_reference {x : Name} {v : Variable} {l : Location} (hv : v.name = x.text) :
    Expr.forget (.reference ⟨v, l⟩) = .reference x.reference := by
  simp [Expr.forget, Reference.forget, Variable.forget, Name.reference, Name.variable, hv]

/-- What is written in parentheses is an operand. -/
theorem derives_parenthesized {resolve : String → Option Variable} {ts : List Token}
    {kinds : List TokenKind} {e : Expr}
    (hts : ts.map Token.kind = .operator .leftParen :: (kinds ++ [.operator .rightParen]))
    (h : ∀ us : List Token, us.map Token.kind = kinds →
      ∃ tree, Derives resolve 0 us tree ∧ tree.forget = e) :
    ∃ tree, Derives resolve 8 ts tree ∧ tree.forget = e := by
  obtain ⟨t, ts, rfl, ht, hts⟩ := List.map_eq_cons_iff.1 hts
  obtain ⟨us, ts, rfl, hus, hts⟩ := List.map_eq_append_iff.1 hts
  obtain ⟨u, rfl, hu⟩ := List.map_eq_singleton_iff.1 hts
  obtain ⟨tree, hderives, htree⟩ := h us hus
  exact ⟨tree, .group ht hderives hu, htree⟩

/-- Tokens of the kinds that the words of an expression are, are an expression with its tree. -/
theorem derives_words {resolve : String → Option Variable} {xs : List String}
    (hresolve : ∀ x ∈ xs, ∃ v, resolve x = some v ∧ v.name = x) (e : Term)
    (hscoped : e.wellScoped xs = true) {ts : List Token}
    (hts : ts.map Token.kind = e.words.map Word.kind) :
    ∃ tree, Derives resolve 8 ts tree ∧ tree.forget = e.tree := by
  -- what is in parentheses is of some looser rank, the parentheses make it an operand
  induction e generalizing ts with
  | literal d =>
    obtain ⟨t, rfl, ht⟩ := List.map_eq_singleton_iff.1 hts
    exact ⟨_, .numeral ht, rfl⟩
  | name x =>
    obtain ⟨t, rfl, ht⟩ := List.map_eq_singleton_iff.1 hts
    obtain ⟨v, hv, hname⟩ := hresolve x.text (List.contains_iff_mem.1 hscoped)
    exact ⟨_, .reference ht hv, forget_reference hname⟩
  | binary op h l r ihl ihr =>
    rw [Term.wellScoped, Bool.and_eq_true] at hscoped
    rw [Term.words, List.map_cons, ← List.cons_append, ← List.append_assoc, List.map_append] at hts
    refine derives_parenthesized hts fun us hus => ?_
    rw [List.map_append, List.map_cons] at hus
    obtain ⟨usl, us, rfl, hl, hus⟩ := List.map_eq_append_iff.1 hus
    obtain ⟨u, usr, rfl, hu, hr⟩ := List.map_eq_cons_iff.1 hus
    obtain ⟨treel, hderivesl, htreel⟩ := ihl hscoped.1 hl
    obtain ⟨treer, hderivesr, htreer⟩ := ihr hscoped.2 hr
    have hrank := Postfix.mem_operatorsAt_rank h
    have hle := le_five_of_mem_operatorsAt hrank
    have hbinary := Derives.binary hrank hu (hderivesl.of_le (by omega)) (hderivesr.of_le (by omega))
    refine ⟨_, hbinary.of_le (Nat.zero_le _), ?_⟩
    rw [Expr.forget, htreel, htreer]
    rfl
  | not e ih =>
    rw [Term.words, List.map_cons, ← List.cons_append, List.map_append] at hts
    refine derives_parenthesized hts fun us hus => ?_
    obtain ⟨u, us, rfl, hu, he⟩ := List.map_eq_cons_iff.1 hus
    obtain ⟨tree, hderives, htree⟩ := ih hscoped he
    have hnot := Derives.not hu (hderives.of_le (by omega))
    refine ⟨_, hnot.of_le (Nat.zero_le _), ?_⟩
    rw [Expr.forget, htree]
    rfl
  | step direction x =>
    have hkinds : ts.map Token.kind = .operator .leftParen ::
        ([.identifier x.text, .operator direction.operator] ++ [.operator .rightParen]) := hts
    refine derives_parenthesized hkinds fun us hus => ?_
    obtain ⟨t, us, rfl, ht, hus⟩ := List.map_eq_cons_iff.1 hus
    obtain ⟨u, rfl, hu⟩ := List.map_eq_singleton_iff.1 hus
    obtain ⟨v, hv, hname⟩ := hresolve x.text (List.contains_iff_mem.1 hscoped)
    have hstep := Derives.step (isStep_operator direction) hu (.reference ht hv)
    refine ⟨_, hstep.of_le (Nat.zero_le _), ?_⟩
    rw [Expr.forget, forget_reference hname]
    rfl

theorem kind_ne_endOfLine (w : Word) : w.kind ≠ .endOfLine := by
  cases w <;> simp [Word.kind]

/-- Among words there are no line breaks. -/
theorem not_isEndOfLine_of_kinds {ts : List Token} {ws : List Word}
    (h : ts.map Token.kind = ws.map Word.kind) : ∀ t ∈ ts, t.isEndOfLine = false := by
  intro t ht
  have hmem : t.kind ∈ ws.map Word.kind := h ▸ List.mem_map_of_mem ht
  obtain ⟨w, -, hw⟩ := List.mem_map.1 hmem
  rw [Token.isEndOfLine, beq_eq_false_iff_ne, ← hw]
  exact kind_ne_endOfLine w

theorem significant_eq_self {ts : List Token} (h : ∀ t ∈ ts, t.isEndOfLine = false) :
    significant ts = ts := by
  rw [significant, List.filter_eq_self]
  intro t ht
  rw [h t ht]
  rfl

theorem breaksIgnored_of_none {ts : List Token} (h : ∀ t ∈ ts, t.isEndOfLine = false)
    (terminal : Operator) (wanted : Bool) : breaksIgnored terminal wanted ts = true := by
  induction ts generalizing wanted with
  | nil => rfl
  | cons t ts ih =>
    rw [breaksIgnored, h t List.mem_cons_self]
    exact ih (fun t ht => h t (List.mem_cons_of_mem _ ht)) _

end Rendering

/-! ### What a scope gains -/

theorem Statement.forgetAll_append (ss ss' : List Statement) :
    forgetAll (ss ++ ss') = forgetAll ss ++ forgetAll ss' := by
  induction ss with
  | nil => rfl
  | cons s ss ih => rw [List.cons_append, forgetAll, forgetAll, ih, List.cons_append]

namespace ScopeChain

variable {c c' c'' : ScopeChain} {names names' : List Name} {trees trees' : List Statement}
  {xs : List String}

/-- The chain `c'` is `c` with more in the current scope: variables of these names, and statements
with these trees. -/
def Gains (c : ScopeChain) (names : List Name) (trees : List Statement) (c' : ScopeChain) : Prop :=
  ∃ vs ss k, vs.map Variable.name = names.map Name.text ∧ Statement.forgetAll ss = trees ∧
    c' = c.grow vs ss k

theorem Gains.refl (c : ScopeChain) : c.Gains [] [] c := ⟨[], [], c.nextId, rfl, rfl, c.grow_nil.symm⟩

theorem Gains.trans (h : c.Gains names trees c') (h' : c'.Gains names' trees' c'') :
    c.Gains (names ++ names') (trees ++ trees') c'' := by
  obtain ⟨vs, ss, k, hvs, hss, rfl⟩ := h
  obtain ⟨vs', ss', k', hvs', hss', rfl⟩ := h'
  refine ⟨vs ++ vs', ss ++ ss', k', ?_, ?_, c.grow_grow vs vs' ss ss' k k'⟩
  · rw [List.map_append, List.map_append, hvs, hvs']
  · rw [Statement.forgetAll_append, hss, hss']

theorem Gains.push (h : c.Gains names trees c') (s : Statement) :
    c.Gains names (trees ++ [s.forget]) (c'.push s) := by
  have hpush : c'.Gains [] [s.forget] (c'.push s) := ⟨[], [s], c'.nextId, rfl, rfl, c'.push_eq s⟩
  simpa using h.trans hpush

theorem Gains.knows (h : c.Gains names trees c') (hknows : c.Knows xs) :
    c'.Knows (extend xs names) := by
  obtain ⟨vs, ss, k, hvs, -, rfl⟩ := h
  rw [extend, ← hvs]
  exact hknows.grow vs ss k

theorem forgetScope_of_names {vs : List Variable} (hvs : vs.map Variable.name = names.map Name.text)
    (id : Nat) (parent : Option Nat) (ss : List Statement) :
    Statement.forgetScope ⟨id, parent, vs, ss⟩ =
      ⟨0, none, names.map Name.variable, Statement.forgetAll ss⟩ := by
  -- regardless of its place, a variable is its name
  have hforget : vs.map Variable.forget = names.map Name.variable := by
    have hunknown := congrArg (List.map fun x : String => (⟨x, .unknown⟩ : Variable)) hvs
    rw [List.map_map, List.map_map] at hunknown
    exact hunknown
  rw [Statement.forgetScope, hforget]

/-- A scope that was entered is handed back with what it gained. -/
theorem Gains.leave (h : c.enter.Gains names trees c') :
    ∃ s c'', c'.leave? = some (s, c'') ∧
      Statement.forgetScope s = ⟨0, none, names.map Name.variable, trees⟩ ∧ c.Gains [] [] c'' := by
  obtain ⟨vs, ss, k, hvs, rfl, rfl⟩ := h
  exact ⟨_, _, c.leave?_enter_grow vs ss k, forgetScope_of_names hvs _ _ ss, [], [], k, rfl, rfl, rfl⟩

/-- A statement that a scope gained first is taken back, and leaves what was declared. -/
theorem Gains.pop {tree : Option Statement} (h : c.enter.Gains names tree.toList c') :
    Statement.forgetClause c'.pop.1 = tree ∧ c.enter.Gains names [] c'.pop.2 := by
  obtain ⟨vs, ss, k, hvs, hss, rfl⟩ := h
  -- at most one statement was gained, and it is the last one
  cases tree with
  | none =>
    cases ss with
    | nil => exact ⟨rfl, vs, [], k, hvs, rfl, rfl⟩
    | cons s ss => simp [Statement.forgetAll] at hss
  | some tree =>
    match ss, hss with
    | [s], hss =>
      have hpop := c.enter.pop_grow vs [] s k
      rw [List.nil_append] at hpop
      rw [hpop]
      exact ⟨congrArg some (List.cons.inj hss).1, vs, [], k, hvs, rfl, rfl⟩

end ScopeChain

namespace Parser

variable {p q r : Parser} {w w' : Word} {ws ws' : List Word} {xs : List String}

/-! ### Words ahead -/

/-- The tokens ahead are these words and then the end of the file. -/
def Spells (p : Parser) (ws : List Word) : Prop := ∀ n, (p.ahead n).kind = kindAt ws n

theorem Spells.next (h : p.Spells (w :: ws)) : p.next.kind = w.kind := h 0

theorem Spells.second (h : p.Spells (w :: w' :: ws)) : (p.ahead 1).kind = w'.kind := h 1

theorem Spells.fill (h : p.Spells ws) (n : Nat) : (p.fill n).Spells ws := by
  intro k
  rw [ahead_fill]
  exact h k

theorem Spells.advance (h : p.Spells (w :: ws)) : p.advance.Spells ws := by
  intro n
  rw [ahead_advance]
  exact h (n + 1)

/-- After as many tokens as words are handed out, the other words are ahead. -/
theorem Spells.drop {ts : List Token} (h : p.Spells (ws ++ ws')) (hlength : ts.length = ws.length)
    (hts : p.scanner.HandsOut ts q.scanner) : q.Spells ws' := by
  intro n
  -- taking tokens moves those after them up by as many places
  have hahead : q.ahead n = p.ahead (n + ws.length) := by
    rw [← hlength]
    exact hts.ahead n
  rw [hahead, h (n + ws.length), kindAt, kindAt, List.getElem?_append_right (by omega)]
  simp

theorem Spells.kinds (h : p.Spells (ws ++ ws')) :
    ((List.range ws.length).map p.ahead).map Token.kind = ws.map Word.kind := by
  -- token by token: each of the first ones is a word of the first part
  apply List.ext_getElem
  · simp
  · intro n hn hn'
    have hlt : n < ws.length := by simpa using hn'
    have hkind := h n
    rw [kindAt, List.getElem?_append_left hlt, List.getElem?_eq_getElem hlt] at hkind
    simpa using hkind

/-- The parser `q` has come from `p` to these words without a report, and the same brackets are
open. -/
structure Arrives (p q : Parser) (ws : List Word) : Prop where
  spells : q.Spells ws
  reports : q.scanner.reports = p.scanner.reports
  pending : q.scanner.pending = p.scanner.pending

theorem Arrives.trans (h : p.Arrives q ws) (h' : q.Arrives r ws') : p.Arrives r ws' :=
  ⟨h'.spells, h'.reports.trans h.reports, h'.pending.trans h.pending⟩

theorem arrives_fill (h : p.Spells ws) (n : Nat) : p.Arrives (p.fill n) ws :=
  ⟨h.fill n, p.scanner.reports_fill n, p.scanner.pending_fill n⟩

/-- Whether a word is no bracket. -/
def isPlainWord : Word → Bool
  | .operator op _ => op.bracket?.isNone
  | _ => true

theorem isPlain_of_isPlainWord {t : Token} (ht : t.kind = w.kind) (hw : isPlainWord w = true) :
    t.isPlain = true := by
  cases w with
  | operator op legal => exact isPlain_operator ht (Option.isNone_iff_eq_none.1 hw)
  | _ => simp [Token.isPlain, Token.error?, Token.operator?, ht, Word.kind]

/-- A word that is no bracket is taken without further effect. -/
theorem arrives_advance (h : p.Spells (w :: ws)) (hw : isPlainWord w = true) :
    p.Arrives p.advance ws := by
  obtain ⟨haccepts, hpending⟩ :=
    Scanner.accepts_advance (follow?_of_isPlain (isPlain_of_isPlainWord h.next hw))
  exact ⟨h.advance, haccepts.reports, hpending⟩

/-! ### What a token is, by its kind -/

theorem isOperator_of_kind {t : Token} {op : Operator} (ht : t.kind = .operator op)
    (op' : Operator) : t.isOperator op' = (op == op') := by
  simp [Token.isOperator, Token.operator?, ht]

theorem operator?_of_kind {t : Token} {op : Operator} (ht : t.kind = .operator op) :
    t.operator? = some op := by
  simp [Token.operator?, ht]

theorem direction?_of_kind {t : Token} {direction : Direction}
    (ht : t.kind = (stepWord direction).kind) :
    t.operator?.bind Direction.ofOperator? = some direction := by
  rw [operator?_of_kind ht]
  cases direction <;> rfl

theorem identifier?_of_kind {t : Token} {x : String} (ht : t.kind = .identifier x) :
    t.identifier? = some x := by
  simp [Token.identifier?, ht]

theorem isTerminator_of_kind {t : Token} (ht : t.kind = .operator .semicolon) :
    t.isTerminator = true := by
  simp [Token.isTerminator, Token.isOperator, Token.operator?, ht]

/-! ### Expressions -/

/-- A rendered expression is read to its tree, whatever ends it. -/
theorem expression_words {terminal : Operator} {legal : terminal ≠ .illegal} {e : Term}
    (hterminal : terminal = .semicolon ∨ terminal = .leftBrace)
    (hp : p.Spells (e.words ++ .operator terminal legal :: ws)) (hknows : p.scopes.Knows xs)
    (hscoped : e.wellScoped xs = true) :
    ∃ tree q, p.expression terminal = (some tree, q) ∧ tree.forget = e.tree ∧
      q.scopes = p.scopes ∧ p.Arrives q (.operator terminal legal :: ws) := by
  -- the words form an expression of the grammar, and the grammar is read
  have hkinds := hp.kinds
  have hlines := not_isEndOfLine_of_kinds hkinds
  have hresolve : ∀ x ∈ xs, ∃ v, p.scopes.resolve? x = some v ∧ v.name = x :=
    fun x hx => hknows.resolve? hx
  obtain ⟨tree, hderives, htree⟩ := derives_words hresolve e hscoped hkinds
  have hlength : ((List.range e.words.length).map p.ahead).length = e.words.length := by simp
  have hus : p.Upcoming ((List.range e.words.length).map p.ahead) := by rw [Upcoming, hlength]
  have hlast : (p.ahead e.words.length).kind = .operator terminal := by
    have hkind := hp e.words.length
    rwa [kindAt, List.getElem?_append_right (Nat.le_refl _), Nat.sub_self] at hkind
  have hend : endsExpression terminal false (p.ahead e.words.length) = true := by
    rw [endsExpression, isOperator_of_kind hlast, beq_self_eq_true, Bool.true_or]
  obtain ⟨q, hq, hscopes, haccepts, hpending⟩ := expression_of_derives hterminal
    (by rw [significant_eq_self hlines]; exact hderives.of_le (Nat.zero_le _))
    (breaksIgnored_of_none hlines terminal false) hus (by rwa [hlength])
  exact ⟨tree, q, hq, htree, hscopes, hp.drop hlength haccepts.handsOut, haccepts.reports, hpending⟩

/-- A rendered condition is read to its tree. -/
theorem condition_words {terminal : Operator} {legal : terminal ≠ .illegal} {e : Term}
    (hterminal : terminal = .semicolon ∨ terminal = .leftBrace)
    (hp : p.Spells (e.words ++ .operator terminal legal :: ws)) (hknows : p.scopes.Knows xs)
    (hscoped : e.wellScoped xs = true) :
    ∃ condition q, p.condition terminal = (some condition, q) ∧
      condition.inner.forget = e.tree ∧ q.scopes = p.scopes ∧
      p.Arrives q (.operator terminal legal :: ws) := by
  obtain ⟨tree, q, hq, htree, hscopes, harrives⟩ := expression_words hterminal hp hknows hscoped
  exact ⟨⟨tree, tree.location⟩, q, by rw [condition, hq], htree, hscopes, harrives⟩

/-! ### Simple statements -/

theorem terminator_words (hp : p.Spells (.operator .semicolon :: ws)) :
    ∃ q, p.terminator = (true, q) ∧ q.scopes = p.scopes ∧ p.Arrives q ws := by
  -- the `;` is read ahead before it is taken
  have hfill := arrives_fill hp 1
  have hadvance := arrives_advance hfill.spells rfl
  refine ⟨(p.fill 1).advance, ?_, rfl, hfill.trans hadvance⟩
  unfold terminator
  simp [isOperator_of_kind hp.next, isTerminator_of_kind hp.next]

theorem resolve_words {x : Name} (hknows : p.scopes.Knows xs) (hx : xs.contains x.text = true)
    (l : Location) : ∃ v, p.resolve x.text l = (some v, p) ∧ v.name = x.text := by
  obtain ⟨v, hv, hname⟩ := hknows.resolve? (List.contains_iff_mem.1 hx)
  exact ⟨v, by rw [resolve, hv], hname⟩

theorem assignment_words {x : Name} {e : Term}
    (hp : p.Spells (.name x :: .operator .assign :: (e.words ++ .operator .semicolon :: ws)))
    (hknows : p.scopes.Knows xs) (hx : xs.contains x.text = true)
    (hscoped : e.wellScoped xs = true) :
    ∃ s q, p.assignment = (s, q) ∧ s.forget = .assign x.reference e.tree .unknown ∧
      q.scopes = p.scopes ∧ p.Arrives q ws := by
  -- the name and the sign are taken, then the name is looked up
  have hone := arrives_advance hp rfl
  have htwo := arrives_advance hone.spells rfl
  have hname := identifier?_of_kind hp.next
  have hequals := isOperator_of_kind hp.second .assign
  have hknows' : p.advance.advance.scopes.Knows xs := hknows
  obtain ⟨v, hv, hvname⟩ := resolve_words hknows' hx p.next.location
  obtain ⟨tree, q, hq, htree, hscopes, harrives⟩ :=
    expression_words (.inl rfl) htwo.spells hknows' hscoped
  obtain ⟨r, hr, hrscopes, hterminator⟩ := terminator_words harrives.spells
  refine ⟨.assign ⟨v, p.next.location⟩ tree p.next.location, r, ?_, ?_, ?_, ?_⟩
  · unfold assignment
    simp [hequals, hname, hv, hq, hr]
  · have hreference := forget_reference (l := p.next.location) hvname
    rw [Statement.forget, htree]
    rw [Expr.forget] at hreference
    rw [Expr.reference.inj hreference]
  · rw [hrscopes, hscopes]
    rfl
  · exact ((hone.trans htwo).trans harrives).trans hterminator

/-- The statement `s` is what the command `c` stands for, and the parser `q` has come from `p` to
the words after it. The current scope has gained what the command declares, and nothing else. -/
structure Reads (p : Parser) (c : Command) (ws : List Word) (s : Statement) (q : Parser) : Prop where
  tree : s.forget = c.tree
  arrives : p.Arrives q ws
  scopes : p.scopes.Gains c.declared [] q.scopes

theorem reads_of_scopes_eq {c : Command} {s : Statement} (htree : s.forget = c.tree)
    (hdeclared : c.declared = []) (hscopes : q.scopes = p.scopes) (harrives : p.Arrives q ws) :
    p.Reads c ws s q := by
  refine ⟨htree, harrives, ?_⟩
  rw [hdeclared, hscopes]
  exact .refl _

theorem assign_words {x : Name} {e : Term} (hp : p.Spells ((Command.assign x e).words ++ ws))
    (hknows : p.scopes.Knows xs) (hscoped : (Command.assign x e).wellScoped xs = true) :
    ∃ s q, p.assignment = (s, q) ∧ p.Reads (.assign x e) ws s q := by
  simp only [Command.words, List.cons_append, List.append_assoc, List.nil_append] at hp
  rw [Command.wellScoped, Bool.and_eq_true] at hscoped
  obtain ⟨s, q, hq, htree, hscopes, harrives⟩ := assignment_words hp hknows hscoped.1 hscoped.2
  exact ⟨s, q, hq, reads_of_scopes_eq htree rfl hscopes harrives⟩

/-- A name and a step after it are read, up to the end of the statement. -/
theorem step_words {direction : Direction} {x : Name} (terminated : Bool)
    (hp : p.Spells (.name x :: stepWord direction :: ws)) (hknows : p.scopes.Knows xs)
    (hx : xs.contains x.text = true)
    (hws : terminated = true → ∃ ws', ws = .operator .semicolon :: ws') :
    ∃ s q, p.step terminated = .ok (s, q) ∧ s.forget = .step direction x.reference .unknown ∧
      q.scopes = p.scopes ∧ p.Arrives q (if terminated then ws.tail else ws) := by
  have hone := arrives_advance hp rfl
  have hplain : isPlainWord (stepWord direction) = true := by cases direction <;> rfl
  have htwo := hone.trans (arrives_advance hone.spells hplain)
  have hname := identifier?_of_kind hp.next
  have hop := direction?_of_kind hp.second
  have hknows' : p.advance.advance.scopes.Knows xs := hknows
  obtain ⟨v, hv, hvname⟩ := resolve_words hknows' hx p.next.location
  have htree : (Statement.step direction ⟨v, p.next.location⟩ p.next.location).forget =
      .step direction x.reference .unknown := by
    have hreference := Expr.reference.inj (forget_reference (l := p.next.location) hvname)
    rw [Statement.forget, hreference]
  -- as a clause of a loop, a step has no `;` of its own
  cases terminated with
  | false =>
    refine ⟨_, p.advance.advance, ?_, htree, rfl, htwo⟩
    unfold step
    simp [hop, hname, hv]
  | true =>
    obtain ⟨ws', rfl⟩ := hws rfl
    obtain ⟨q, hq, hscopes, hterminator⟩ := terminator_words htwo.spells
    refine ⟨_, q, ?_, htree, hscopes, htwo.trans hterminator⟩
    unfold step
    simp [hop, hname, hv, hq]

/-- The parser with one more variable in its current scope. -/
def declare (p : Parser) (v : Variable) : Parser :=
  { p with scopes := p.scopes.grow [v] [] p.scopes.nextId }

theorem Arrives.declare (h : p.Arrives q ws) (v : Variable) : p.Arrives (q.declare v) ws :=
  ⟨h.spells, h.reports, h.pending⟩

theorem define_name {x : Name} (hknows : p.scopes.Knows xs) (hx : x.text ∉ xs) (l : Location) :
    p.define x.text l = (some ⟨x.text, l⟩, p.declare ⟨x.text, l⟩) := by
  rw [define, hknows.define hx]
  rfl

/-- A rendered declaration is read, and its name is known from then on. -/
theorem declare_words {x : Name} (hp : p.Spells ((Command.declare x).words ++ ws))
    (hknows : p.scopes.Knows xs) (hscoped : (Command.declare x).wellScoped xs = true) :
    ∃ s q, p.declaration = (s, q) ∧ p.Reads (.declare x) ws s q := by
  simp only [Command.words, List.cons_append, List.nil_append] at hp
  have hx : x.text ∉ xs := by simpa [Command.wellScoped] using hscoped
  have hone := arrives_advance hp rfl
  have hname := identifier?_of_kind hp.second
  have hend : endsStatement (p.ahead 2) = true := by
    have hkind : (p.ahead 2).kind = .operator .semicolon := hp 2
    rw [endsStatement, isTerminator_of_kind hkind, Bool.true_or]
  -- the name is read ahead before it is taken
  have hfill := arrives_fill hone.spells 1
  have hahead := (hone.trans hfill).trans (arrives_fill hfill.spells 2)
  have htwo := hahead.trans (arrives_advance hahead.spells rfl)
  obtain ⟨q, hq, hscopes, hterminator⟩ := terminator_words htwo.spells
  have hsame : q.scopes = p.scopes := by
    rw [hscopes, scopes_advance, scopes_fill, scopes_fill, scopes_advance]
  have hdefine := define_name (p := q) (hsame ▸ hknows) hx (p.ahead 1).location
  have harrives := (htwo.trans hterminator).declare ⟨x.text, (p.ahead 1).location⟩
  have hgains : p.scopes.Gains [x] [] (q.declare ⟨x.text, (p.ahead 1).location⟩).scopes :=
    ⟨[⟨x.text, (p.ahead 1).location⟩], [], q.scopes.nextId, rfl, rfl, by rw [declare, hsame]⟩
  refine ⟨.declare ⟨x.text, (p.ahead 1).location⟩, q.declare ⟨x.text, (p.ahead 1).location⟩, ?_,
    rfl, harrives, hgains⟩
  unfold declaration
  simp [hname, hend, hq, hdefine]

/-- A rendered declaration with an initial value is read. -/
theorem define_words {x : Name} {e : Term} (hp : p.Spells ((Command.define x e).words ++ ws))
    (hknows : p.scopes.Knows xs) (hscoped : (Command.define x e).wellScoped xs = true) :
    ∃ s q, p.declaration = (s, q) ∧ p.Reads (.define x e) ws s q := by
  simp only [Command.words, List.cons_append, List.append_assoc, List.nil_append] at hp
  rw [Command.wellScoped, Bool.and_eq_true] at hscoped
  obtain ⟨hnew, hvalue⟩ := hscoped
  have hx : x.text ∉ xs := by simpa using hnew
  have hone := arrives_advance hp rfl
  have hname := identifier?_of_kind hp.second
  -- a sign comes after the name, so the declaration goes on
  have hend : endsStatement (p.ahead 2) = false := by
    have hkind : (p.ahead 2).kind = .operator .assign := hp 2
    simp [endsStatement, Token.isTerminator, Token.endsLine, Token.isEndOfLine, Token.isEndOfFile,
      Token.isOperator, Token.operator?, hkind]
  have hfill := arrives_fill hone.spells 1
  have hahead := (hone.trans hfill).trans (arrives_fill hfill.spells 2)
  have hdefine := define_name (p := (p.advance.fill 1).fill 2) hknows hx (p.ahead 1).location
  -- the name is known in its own initial value
  have hdeclared := hahead.declare ⟨x.text, (p.ahead 1).location⟩
  have hknows' := hknows.grow [⟨x.text, (p.ahead 1).location⟩] [] p.scopes.nextId
  obtain ⟨s, q, hq, htree, hscopes, harrives⟩ :=
    assignment_words hdeclared.spells hknows' (by simp) hvalue
  refine ⟨.compound (.declare ⟨x.text, (p.ahead 1).location⟩) s p.next.location, q, ?_, ?_,
    hdeclared.trans harrives, [⟨x.text, (p.ahead 1).location⟩], [], p.scopes.nextId, rfl, rfl,
    hscopes⟩
  · unfold declaration
    simp [hname, hend, hdefine, hq]
  · rw [Statement.forget, htree]
    rfl

/-! ### The clauses of a loop -/

theorem headerSemicolon_words (hp : p.Spells (.operator .semicolon :: ws)) (clause : HeaderClause) :
    p.headerSemicolon clause = (true, p.advance) ∧ p.Arrives p.advance ws := by
  refine ⟨?_, arrives_advance hp rfl⟩
  simp [headerSemicolon, isOperator_of_kind hp.next]

/-- An expression does not start with a `;`. -/
theorem isOperator_next_of_term {e : Term} (hp : p.Spells (e.words ++ ws)) :
    p.next.isOperator .semicolon = false := by
  cases e with
  | literal d | name x => simp [Token.isOperator, Token.operator?, hp.next, Word.kind]
  | binary op h l r | not e | step direction x =>
    rw [isOperator_of_kind hp.next]
    rfl

/-- A rendered condition of a loop is read, and so is its absence. -/
theorem loopCondition_words {condition : Option Term}
    (hp : p.Spells (Term.clauseWords condition ++ .operator .semicolon :: ws))
    (hknows : p.scopes.Knows xs) (hscoped : condition.all (·.wellScoped xs) = true) :
    ∃ s q, p.loopCondition = (some s, q) ∧
      Statement.forgetClause s =
        condition.map (fun e => .expr (.condition e.tree .unknown) .unknown) ∧
      q.scopes = p.scopes ∧ p.Arrives q ws := by
  have hfill := arrives_fill hp 1
  cases condition with
  | none =>
    have hadvance := arrives_advance hfill.spells rfl
    refine ⟨none, (p.fill 1).advance, ?_, rfl, rfl, hfill.trans hadvance⟩
    simp [loopCondition, isOperator_of_kind hp.next]
  | some e =>
    have hfirst := isOperator_next_of_term hp
    obtain ⟨c, q, hq, htree, hscopes, harrives⟩ :=
      condition_words (.inl rfl) hfill.spells hknows hscoped
    obtain ⟨hsemicolon, hadvance⟩ := headerSemicolon_words harrives.spells .condition
    refine ⟨some (.expr c.expr c.location), q.advance, ?_, ?_, hscopes,
      (hfill.trans harrives).trans hadvance⟩
    · simp [loopCondition, hfirst, hq, hsemicolon]
    · simp [Statement.forgetClause, Statement.forget, Condition.expr, Expr.forget, htree]

/-- A rendered last clause of a loop is read, and so is its absence. -/
theorem loopIncrement_words {increment : Option (Direction × Name)}
    (hp : p.Spells (Command.incrementWords increment ++ .operator .leftBrace :: ws))
    (hknows : p.scopes.Knows xs) (hscoped : increment.all (xs.contains ·.2.text) = true) :
    ∃ s q, p.loopIncrement = .ok (some s, q) ∧
      Statement.forgetClause s = increment.map (fun i => .step i.1 i.2.reference .unknown) ∧
      q.scopes = p.scopes ∧ p.Arrives q (.operator .leftBrace :: ws) := by
  have hfill := arrives_fill hp 1
  cases increment with
  | none =>
    refine ⟨none, p.fill 1, ?_, rfl, rfl, hfill⟩
    have hnone : p.next.identifier? = none := by simp [Token.identifier?, hp.next, Word.kind]
    simp [loopIncrement, hnone]
  | some i =>
    obtain ⟨direction, x⟩ := i
    have htwo := hfill.trans (arrives_fill hfill.spells 2)
    have hname := identifier?_of_kind hp.next
    have hop := Option.isSome_of_eq_some (direction?_of_kind hp.second)
    obtain ⟨s, q, hq, htree, hscopes, harrives⟩ := step_words false htwo.spells hknows hscoped
      (fun h => Bool.noConfusion h)
    -- a step is never the place of an error
    have hvalid : s.isInvalid = false := by
      cases s with
      | step direction target l => rfl
      | _ => simp [Statement.forget] at htree
    refine ⟨some s, q, ?_, congrArg some htree, hscopes, htwo.trans harrives⟩
    unfold loopIncrement
    simp [hname, hop, hq, bind, Except.bind, hvalid]
    rfl

end Parser

end FloatLang
