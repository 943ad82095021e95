import FloatLang.Proofs.Infix.Relocation
import FloatLang.Proofs.Parser.Failing
import FloatLang.Proofs.Parser.Termination
import FloatLang.Proofs.Scanner.BracketTokens
import FloatLang.Proofs.Scope.Relocation
import FloatLang.Proofs.Tree.Blocks

/-!
# Reading at another place

A parser asks its tokens for their kinds and tells places apart, and that is all it does with places. So
two parsers that have the same tokens ahead, at other places, read the same statements and report the
same problems, at other places. What they have read and reported before makes no difference.

## Main definitions

* `Parser.Setting` — a change of places, and what two parsers have read and reported before
* `Parser.Moved` — two parsers that have the same ahead and the same open, at other places
* `Parser.MovesTo` — what two such parsers have read

## Main results

* `Parser.Moved.expression`, `Parser.Moved.declaration`, `Parser.Moved.named` — expressions and simple
  statements
* `Parser.Moved.loopHeaderWith`, `Parser.Moved.branchWith`, `Parser.Moved.loopWith` — block statements
* `Parser.Moved.body` — bodies and programs
* `Parser.move_program` — what is read stays in its place if no token is moved
-/

namespace FloatLang

namespace Parser

/-- A change of places, and the statements of the outermost scope and the reports that two parsers have
when they start. -/
structure Setting where
  relocation : Relocation
  statements : List Statement
  statements' : List Statement
  reports : List Report
  reports' : List Report

/-- The parser `p'` has the tokens ahead that `p` has, at the places moved to, and the same brackets
and scopes are open. What both have read and reported since they started is the same too. -/
structure Moved (S : Setting) (p p' : Parser) : Prop where
  ahead : ∀ n, p'.ahead n = (p.ahead n).move S.relocation
  last : p'.scanner.last?.map Token.endsLine = p.scanner.last?.map Token.endsLine
  pending : p'.scanner.pending = p.scanner.pending.map (Opening.move S.relocation)
  scopes : p.scopes.Moved S.relocation S.statements S.statements' p'.scopes
  reports : ∃ more, p.scanner.reports = S.reports ++ more ∧
    p'.scanner.reports = S.reports' ++ more.map (Report.move S.relocation)

/-- Both parsers have read the same and stand at the same place afterwards. -/
def MovesTo {α : Type} (S : Setting) (g : α → α) (x x' : α × Parser) : Prop :=
  x'.1 = g x.1 ∧ Moved S x.2 x'.2

/-- If the first parser can go on, the other one can, and what they read is the same. -/
def AnswersTo {α : Type} (S : Setting) (g : α → α) (x x' : Except Halt (α × Parser)) : Prop :=
  ∀ ⦃a q⦄, x = .ok (a, q) → ∃ q', x' = .ok (g a, q') ∧ Moved S q q'

/-- What the first reader reads in one place, the other one reads in the other. -/
def StatementsMove (S : Setting) (statement statement' : Parser → Except Halt (Statement × Parser)) :
    Prop :=
  ∀ ⦃p p'⦄, Moved S p p' → AnswersTo S (Statement.move S.relocation) (statement p) (statement' p')

/-- The body that the first reader reads in one place, the other one reads in the other. -/
def BodiesMove (S : Setting) (body body' : Parser → Except Halt Parser) : Prop :=
  ∀ ⦃p p' q⦄, Moved S p p' → body p = .ok q → ∃ q', body' p' = .ok q' ∧ Moved S q q'

variable {S : Setting} {p p' q : Parser} {s : Statement}

theorem MovesTo.answers {α : Type} {g : α → α} {x x' : α × Parser} (h : MovesTo S g x x') :
    AnswersTo S g (.ok x) (.ok x') := by
  intro a q hq
  obtain rfl := Except.ok.inj hq
  obtain ⟨a', q'⟩ := x'
  obtain ⟨rfl, hmoved⟩ := h
  exact ⟨q', rfl, hmoved⟩

/-- A computation is the same for both if both of its halves are. -/
theorem AnswersTo.bind {α β : Type} {g : α → α} {k : β → β} {x x' : Except Halt (α × Parser)}
    {f f' : α × Parser → Except Halt (β × Parser)} (h : AnswersTo S g x x')
    (hrest : ∀ a q q', x = .ok (a, q) → Moved S q q' → AnswersTo S k (f (a, q)) (f' (g a, q'))) :
    AnswersTo S k (x >>= f) (x' >>= f') := by
  intro b r hr
  obtain ⟨⟨a, q⟩, hq, hf⟩ := bind_eq_ok.1 hr
  obtain ⟨q', hq', hmoved⟩ := h hq
  obtain ⟨r', hr', hmoved'⟩ := hrest a q q' hq hmoved hf
  exact ⟨r', bind_eq_ok.2 ⟨_, hq', hr'⟩, hmoved'⟩

theorem MovesTo.split {α : Type} {g : α → α} {x x' : α × Parser} (h : MovesTo S g x x') :
    ∃ a q q', x = (a, q) ∧ x' = (g a, q') ∧ Moved S q q' := by
  obtain ⟨a, q⟩ := x
  obtain ⟨a', q'⟩ := x'
  obtain ⟨rfl, hq⟩ := h
  exact ⟨a, q, q', rfl, rfl, hq⟩

namespace Moved

/-! ### Tokens and brackets -/

theorem next (h : Moved S p p') : p'.next = p.next.move S.relocation := h.ahead 0

theorem fill (h : Moved S p p') (m : Nat) : Moved S (p.fill m) (p'.fill m) where
  ahead n := by
    rw [ahead_fill, ahead_fill]
    exact h.ahead n
  last := by
    change (p'.scanner.fill m).last?.map _ = (p.scanner.fill m).last?.map _
    rw [Scanner.last?_fill, Scanner.last?_fill]
    exact h.last
  pending := by
    change (p'.scanner.fill m).pending = (p.scanner.fill m).pending.map _
    rw [Scanner.pending_fill, Scanner.pending_fill]
    exact h.pending
  scopes := h.scopes
  reports := by
    change ∃ more, (p.scanner.fill m).reports = _ ∧ (p'.scanner.fill m).reports = _
    rw [Scanner.reports_fill, Scanner.reports_fill]
    exact h.reports

/-- A report is made by both. -/
theorem report (h : Moved S p p') (r : Report) :
    Moved S (p.modifyScanner (·.report r))
      (p'.modifyScanner (·.report (r.move S.relocation))) where
  ahead n := by
    change (p'.scanner.report _).ahead n = ((p.scanner.report _).ahead n).move _
    rw [Scanner.ahead_report, Scanner.ahead_report]
    exact h.ahead n
  last := h.last
  pending := h.pending
  scopes := h.scopes
  reports := by
    obtain ⟨more, hp, hp'⟩ := h.reports
    refine ⟨more ++ [r], ?_, ?_⟩
    · rw [← List.append_assoc, ← hp]
      rfl
    · rw [List.map_append, ← List.append_assoc, ← hp']
      rfl

theorem error (h : Moved S p p') (l : Location) (problem : Problem) :
    Moved S (p.error l problem)
      (p'.error (S.relocation.place l) (problem.move S.relocation)) :=
  h.report { location := l, problem }

theorem objection? (h : Moved S p p') (t : Token) :
    p'.scanner.objection? (t.move S.relocation) = p.scanner.objection? t := by
  have hhead : p'.scanner.pending.head?.map Opening.bracket =
      p.scanner.pending.head?.map Opening.bracket := by
    rw [h.pending]
    cases p.scanner.pending <;> rfl
  unfold Scanner.objection?
  rw [Token.kind_move, hhead]

theorem pendingAfter (h : Moved S p p') (t : Token) :
    p'.scanner.pendingAfter (t.move S.relocation) =
      (p.scanner.pendingAfter t).map (Opening.move S.relocation) := by
  unfold Scanner.pendingAfter
  rw [Token.operator?_move, h.objection?, h.pending]
  split
  · rfl
  · split
    · rfl
    · split
      · rw [List.map_tail]
      · rfl

/-- What the scanner objects to is no matter of places. -/
theorem move_of_objection? {s : Scanner} {t : Token} {problem : Problem} (f : Relocation)
    (h : s.objection? t = some problem) : problem.move f = problem := by
  unfold Scanner.objection? at h
  split at h
  · obtain rfl := Option.some.inj h
    rfl
  · split at h
    · split at h
      · contradiction
      · obtain rfl := Option.some.inj h
        rfl
    · contradiction
  · contradiction

theorem advance (h : Moved S p p') : Moved S p.advance p'.advance where
  ahead n := by
    rw [ahead_advance, ahead_advance]
    exact h.ahead (n + 1)
  last := by
    have hnext : p'.scanner.next = p.scanner.next.move S.relocation := h.next
    change p'.scanner.advance.last?.map _ = p.scanner.advance.last?.map _
    rw [Scanner.last?_advance, Scanner.last?_advance, hnext]
    rfl
  pending := by
    have hnext : p'.scanner.next = p.scanner.next.move S.relocation := h.next
    change p'.scanner.advance.pending = p.scanner.advance.pending.map _
    rw [Scanner.pending_advance, Scanner.pending_advance, hnext, h.pendingAfter]
  scopes := h.scopes
  reports := by
    obtain ⟨more, hp, hp'⟩ := h.reports
    have hnext : p'.scanner.next = p.scanner.next.move S.relocation := h.next
    change ∃ more, p.scanner.advance.reports = _ ∧ p'.scanner.advance.reports = _
    rw [Scanner.reports_advance, Scanner.reports_advance, hnext, h.objection?, hp, hp',
      List.append_assoc, List.append_assoc]
    refine ⟨_, rfl, ?_⟩
    cases hobjection : p.scanner.objection? p.scanner.next with
    | none => simp
    | some problem => simp [Report.move, move_of_objection? S.relocation hobjection]

/-- The rest of the line is skipped, whatever the bound on its length is. -/
theorem skipLine (h : Moved S p p') :
    Moved S (p.modifyScanner Scanner.skipLine) (p'.modifyScanner Scanner.skipLine) := by
  have hboth (n : Nat) : ∀ {p p' : Parser}, Moved S p p' →
      Moved S (p.modifyScanner (Scanner.skipLineWithin n))
        (p'.modifyScanner (Scanner.skipLineWithin n)) := by
    induction n with
    | zero => exact fun h => h
    | succ n ih =>
      intro p p' h
      have hnext : p'.scanner.next = p.scanner.next.move S.relocation := h.next
      unfold modifyScanner Scanner.skipLineWithin
      rw [hnext, Token.endsLine_move]
      split
      · exact h.advance
      · exact ih h.advance
  have hmax := hboth (max p.scanner.remaining p'.scanner.remaining + 1) h
  have hleft : p.scanner.remaining < max p.scanner.remaining p'.scanner.remaining + 1 :=
    Nat.lt_succ_of_le (Nat.le_max_left _ _)
  have hright : p'.scanner.remaining < max p.scanner.remaining p'.scanner.remaining + 1 :=
    Nat.lt_succ_of_le (Nat.le_max_right _ _)
  unfold modifyScanner at hmax ⊢
  rw [Scanner.skipLineWithin_eq hleft, Scanner.skipLineWithin_eq hright] at hmax
  exact hmax

theorem synchronize (h : Moved S p p') : Moved S p.synchronize p'.synchronize := by
  have hlast := h.last
  unfold Parser.synchronize
  cases hp : p.scanner.last? with
  | none =>
    rw [hp, Option.map_none, Option.map_eq_none_iff] at hlast
    rw [hlast]
    exact h.skipLine
  | some t =>
    rw [hp, Option.map_some] at hlast
    obtain ⟨t', ht', hends⟩ := Option.map_eq_some_iff.1 hlast
    rw [ht']
    dsimp only
    rw [hends]
    split
    · exact h
    · exact h.skipLine

/-- An error is reported, and the rest of the line skipped. -/
theorem rejects (h : Moved S p p') (l : Location) (problem : Problem) :
    Moved S (p.error l problem).synchronize
      (p'.error (S.relocation.place l) (problem.move S.relocation)).synchronize :=
  (h.error l problem).synchronize

theorem reject (h : Moved S p p') (problem : Problem) :
    Moved S (p.reject problem) (p'.reject (problem.move S.relocation)) := by
  unfold Parser.reject
  rw [h.next, h.objection?]
  split
  · exact h.advance
  · exact h.advance.error p.next.location problem

theorem flush (h : Moved S p p') :
    Moved S (p.modifyScanner Scanner.flush) (p'.modifyScanner Scanner.flush) where
  ahead n := by
    change p'.scanner.flush.ahead n = (p.scanner.flush.ahead n).move _
    rw [Scanner.ahead_flush, Scanner.ahead_flush]
    exact h.ahead n
  last := h.last
  pending := rfl
  scopes := h.scopes
  reports := by
    obtain ⟨more, hp, hp'⟩ := h.reports
    refine ⟨more ++ p.scanner.pending.map Scanner.unclosedReport, ?_, ?_⟩
    · rw [← List.append_assoc, ← hp]
      rfl
    · change p'.scanner.reports ++ p'.scanner.pending.map Scanner.unclosedReport = _
      rw [hp', h.pending, List.map_append, List.append_assoc, List.map_map, List.map_map]
      rfl

theorem forget? (h : Moved S p p') (l : Location) :
    (p.scanner.forget? l = none ∧ p'.scanner.forget? (S.relocation.place l) = none) ∨
      ∃ b s s', p.scanner.forget? l = some (b, s) ∧
        p'.scanner.forget? (S.relocation.place l) = some (b, s') ∧
        Moved S { p with scanner := s } { p' with scanner := s' } := by
  have hsame : ((fun o : Opening => o.location.same (S.relocation.place l)) ∘
      Opening.move S.relocation) = fun o => o.location.same l :=
    funext fun o => S.relocation.same o.location l
  have hkeep (p : Parser) (os : List Opening) :
      ({ p with scanner := { p.scanner with pending := os } } : Parser).ahead = p.ahead :=
    Scanner.ahead_congr rfl rfl
  unfold Scanner.forget?
  rw [h.pending, List.find?_map, hsame]
  cases p.scanner.pending.find? (·.location.same l) with
  | none => exact .inl ⟨rfl, rfl⟩
  | some o =>
    refine .inr ⟨o.bracket, _, _, rfl, rfl, fun n => ?_, h.last, ?_, h.scopes, h.reports⟩
    · rw [hkeep p', hkeep p]
      exact h.ahead n
    · change List.eraseP _ _ = _
      rw [List.eraseP_map, hsame]

/-- The brackets of an expression are given up by both. -/
theorem reportUnclosed (h : Moved S p p') (opened : List Location) :
    Moved S (p.reportUnclosed opened) (p'.reportUnclosed (opened.map S.relocation.place)) := by
  induction opened generalizing p p' with
  | nil => exact h
  | cons l opened ih =>
    unfold Parser.reportUnclosed
    rw [List.map_cons, List.foldl_cons, List.foldl_cons]
    apply ih
    rcases h.forget? l with ⟨hnone, hnone'⟩ | ⟨b, s, s', hs, hs', hmoved⟩
    · rw [hnone, hnone']
      exact h
    · rw [hs, hs']
      exact hmoved.error l (.unclosed b)

/-! ### Scopes -/

theorem withScopes {c c' : ScopeChain} (h : Moved S p p')
    (hc : c.Moved S.relocation S.statements S.statements' c') :
    Moved S { p with scopes := c } { p' with scopes := c' } :=
  ⟨h.ahead, h.last, h.pending, hc, h.reports⟩

theorem enter (h : Moved S p p') : Moved S p.enter p'.enter := h.withScopes h.scopes.enter

theorem push (h : Moved S p p') (s : Statement) :
    Moved S (p.push s) (p'.push (s.move S.relocation)) := h.withScopes (h.scopes.push s)

theorem leave {scope : Scope Statement} (h : Moved S p p') (hq : p.leave = .ok (scope, q)) :
    ∃ q', p'.leave = .ok (scope.move S.relocation, q') ∧ Moved S q q' := by
  unfold Parser.leave at hq ⊢
  split at hq
  next scope' c hleave =>
    obtain ⟨rfl, rfl⟩ := Prod.mk.inj (Except.ok.inj hq)
    obtain ⟨c', hleave', hc⟩ := h.scopes.leave? hleave
    rw [hleave']
    exact ⟨_, rfl, h.withScopes hc⟩
  · contradiction

theorem pop (h : Moved S p p') (hdepth : 0 < p.scopes.depth) :
    MovesTo S (Option.map (Statement.move S.relocation)) p.pop p'.pop :=
  ⟨(h.scopes.pop hdepth).1, h.withScopes (h.scopes.pop hdepth).2⟩

theorem resolve (h : Moved S p p') (x : String) (l : Location) :
    MovesTo S (Option.map (Variable.move S.relocation)) (p.resolve x l)
      (p'.resolve x (S.relocation.place l)) := by
  unfold Parser.resolve
  rw [h.scopes.resolve?]
  cases p.scopes.resolve? x with
  | none => exact ⟨rfl, h.error l (.undefined x)⟩
  | some v => exact ⟨rfl, h⟩

theorem define (h : Moved S p p') (x : String) (l : Location) :
    MovesTo S (Option.map (Variable.move S.relocation)) (p.define x l)
      (p'.define x (S.relocation.place l)) := by
  unfold Parser.define
  cases hdefine : p.scopes.define x l with
  | ok answer =>
    obtain ⟨v, c⟩ := answer
    obtain ⟨c', hdefine', hc⟩ := h.scopes.define_ok hdefine
    rw [hdefine']
    exact ⟨rfl, h.withScopes hc⟩
  | error r =>
    rw [h.scopes.define_error hdefine]
    exact ⟨rfl, (h.error r.location (.duplicate x)).report _⟩

/-! ### Expressions -/

section Expressions

open Postfix (Yard)

theorem endsExpression_move (f : Relocation) (terminal : Operator) (continues : Bool) (t : Token) :
    endsExpression terminal continues (t.move f) = endsExpression terminal continues t := rfl

/-- The tokens of an expression are taken by both, within the same bound. -/
theorem collect (h : Moved S p p') (terminal : Operator) (n : Nat) (y : Yard) :
    MovesTo S (Option.map (Yard.move S.relocation)) (Parser.collect terminal n y p)
      (Parser.collect terminal n (y.move S.relocation) p') := by
  induction n generalizing p p' y with
  | zero => exact ⟨rfl, h⟩
  | succ n ih =>
    have hfill := h.fill 1
    unfold Parser.collect
    dsimp only
    rw [hfill.next, endsExpression_move, Yard.continues_move, Token.kind_move, Token.location_move]
    split
    · exact ⟨rfl, hfill⟩
    · split
      · exact ih hfill.advance y
      · exact ⟨rfl, hfill.reject (.unfinished terminal)⟩
      next value _ => exact ih hfill.advance (y.operand (.numeral value (p.fill 1).next.location))
      next x _ =>
        obtain ⟨v, q, q', hq, hq', hmoved⟩ :=
          (hfill.advance.resolve x (p.fill 1).next.location).split
        rw [hq, hq']
        cases v with
        | none => exact ⟨rfl, hmoved⟩
        | some v => exact ih hmoved (y.operand (.reference ⟨v, (p.fill 1).next.location⟩))
      next word _ => exact ⟨rfl, hfill.reject (.keywordInExpression word)⟩
      · exact ⟨rfl, hfill.advance⟩
      next op _ =>
        split
        · exact ⟨rfl, hfill.reject (.operatorInExpression op)⟩
        · rw [Yard.shift?_move]
          cases y.shift? op (p.fill 1).next.location with
          | none => exact ⟨rfl, hfill.reject .strayParenthesis⟩
          | some y => exact ih hfill.advance y

theorem finishExpression (h : Moved S p p') (start : Location) (y : Yard) :
    MovesTo S (Option.map (Expr.move S.relocation)) (Parser.finishExpression start y p)
      (Parser.finishExpression (S.relocation.place start) (y.move S.relocation) p') := by
  unfold Parser.finishExpression
  rw [Yard.openParentheses_move, List.isEmpty_map, Yard.finish_move, Postfix.assemble_move]
  split
  · cases Postfix.assemble start y.finish with
    | error c => exact ⟨rfl, h.error c.location c.problem⟩
    | ok e => exact ⟨rfl, h⟩
  · exact ⟨rfl, h.reportUnclosed y.openParentheses⟩

/-- An expression is read by both, or by neither. -/
theorem expression (h : Moved S p p') (terminal : Operator) :
    MovesTo S (Option.map (Expr.move S.relocation)) (p.expression terminal)
      (p'.expression terminal) := by
  -- a bound that suffices for the tokens of both
  have hcollect := h.collect terminal (max p.remaining p'.remaining + 1) {}
  rw [collect_eq (Nat.lt_succ_of_le (Nat.le_max_left _ _)) (Nat.lt_succ_self _),
    collect_eq (Nat.lt_succ_of_le (Nat.le_max_right _ _)) (Nat.lt_succ_self _)] at hcollect
  obtain ⟨y, q, q', hq, hq', hmoved⟩ := hcollect.split
  have hstart : p'.next.location = S.relocation.place p.next.location := congrArg Token.location h.next
  unfold Parser.expression
  dsimp only
  rw [hq, show Parser.collect terminal (p'.remaining + 1) {} p' = _ from hq', hstart]
  cases y with
  | none => exact ⟨rfl, hmoved⟩
  | some y => exact hmoved.finishExpression p.next.location y

theorem condition (h : Moved S p p') (terminal : Operator) :
    MovesTo S (Option.map (Condition.move S.relocation)) (p.condition terminal)
      (p'.condition terminal) := by
  obtain ⟨e, q, q', hq, hq', hmoved⟩ := (h.expression terminal).split
  unfold Parser.condition
  rw [hq, hq']
  cases e with
  | none => exact ⟨rfl, hmoved⟩
  | some e => exact ⟨by simp [Condition.move], hmoved⟩

end Expressions

/-! ### Simple statements -/

theorem terminator (h : Moved S p p') : MovesTo S id p.terminator p'.terminator := by
  have hfill := h.fill 1
  unfold Parser.terminator
  dsimp only
  rw [hfill.next, Token.isOperator_move, Token.isTerminator_move, Token.location_move]
  split
  · exact ⟨rfl, hfill⟩
  · split
    · exact ⟨rfl, hfill.advance⟩
    · exact ⟨rfl, hfill.advance.rejects _ (.terminatorExpected (p.fill 1).next)⟩

theorem assignment (h : Moved S p p') :
    MovesTo S (Statement.move S.relocation) p.assignment p'.assignment := by
  have hname := h.advance
  have hequals := hname.advance
  unfold Parser.assignment
  dsimp only
  rw [h.next, hname.next, Token.isOperator_move, Token.identifier?_move, Token.location_move,
    Token.location_move]
  split
  · obtain ⟨v, q, q', hq, hq', hresolve⟩ :=
      (hequals.resolve (p.next.identifier?.getD "") p.next.location).split
    rw [hq, hq']
    cases v with
    | none => exact ⟨by simp [Statement.move], hresolve.synchronize⟩
    | some v =>
      obtain ⟨e, r, r', hr, hr', hvalue⟩ := (hresolve.expression .semicolon).split
      dsimp only [Option.map_some]
      rw [hr, hr']
      cases e with
      | none => exact ⟨by simp [Statement.move], hvalue.synchronize⟩
      | some e =>
        obtain ⟨b, u, u', hu, hu', hend⟩ := hvalue.terminator.split
        dsimp only [Option.map_some]
        rw [hu, hu']
        cases b with
        | true => exact ⟨by simp [Statement.move, Reference.move], hend⟩
        | false => exact ⟨by simp [Statement.move], hend⟩
  · exact ⟨by simp [Statement.move], hequals.rejects _ (.assignExpected p.advance.next)⟩

theorem step (h : Moved S p p') (terminated : Bool) :
    AnswersTo S (Statement.move S.relocation) (p.step terminated) (p'.step terminated) := by
  have hname := h.advance
  have hop := hname.advance
  unfold Parser.step
  dsimp only
  rw [h.next, hname.next, Token.operator?_move, Token.identifier?_move, Token.location_move]
  split
  · intro a q hq
    simp [halt] at hq
  next direction _ =>
    obtain ⟨v, q, q', hq, hq', hresolve⟩ :=
      (hop.resolve (p.next.identifier?.getD "") p.next.location).split
    rw [hq, hq']
    cases v with
    | none =>
      apply MovesTo.answers
      refine ⟨by simp [Statement.move], ?_⟩
      cases terminated with
      | true => exact hresolve.synchronize
      | false => exact hresolve
    | some v =>
      have hread : Statement.step direction ⟨v.move S.relocation, S.relocation.place p.next.location⟩
          (S.relocation.place p.next.location) =
            (Statement.step direction ⟨v, p.next.location⟩ p.next.location).move S.relocation := by
        simp [Statement.move, Reference.move]
      dsimp only [Option.map_some]
      rw [hread]
      cases terminated with
      | true =>
        obtain ⟨b, r, r', hr, hr', hend⟩ := hresolve.terminator.split
        rw [if_pos rfl, if_pos rfl, hr, hr']
        cases b with
        | true => exact MovesTo.answers ⟨rfl, hend⟩
        | false => exact MovesTo.answers ⟨by simp [Statement.move], hend⟩
      | false =>
        rw [if_neg (by simp), if_neg (by simp)]
        exact MovesTo.answers ⟨rfl, hresolve⟩

theorem endsStatement_move (f : Relocation) (t : Token) :
    endsStatement (t.move f) = endsStatement t := rfl

theorem declaration (h : Moved S p p') :
    MovesTo S (Statement.move S.relocation) p.declaration p'.declaration := by
  have hname := h.advance.fill 1
  have hafter := hname.fill 2
  unfold Parser.declaration
  dsimp only
  rw [h.next, hname.next, hafter.ahead 1, endsStatement_move, Token.identifier?_move,
    Token.location_move, Token.location_move]
  generalize p.advance.fill 1 = named at hname hafter ⊢
  generalize p'.advance.fill 1 = named' at hname hafter ⊢
  split
  · exact ⟨by simp [Statement.move], hname.rejects _ (.nameExpected named.next)⟩
  next x _ =>
    split
    · obtain ⟨v, q, q', hq, hq', hdefine⟩ :=
        (hafter.advance.terminator.2.define x named.next.location).split
      rw [hq, hq']
      cases v with
      | none => exact ⟨by simp [Statement.move], hdefine⟩
      | some v => exact ⟨by simp [Statement.move], hdefine⟩
    · obtain ⟨v, q, q', hq, hq', hdefine⟩ := (hafter.define x named.next.location).split
      rw [hq, hq']
      cases v with
      | none => exact ⟨by simp [Statement.move], hdefine.synchronize⟩
      | some v =>
        obtain ⟨value, r, r', hr, hr', hvalue⟩ := hdefine.assignment.split
        dsimp only [Option.map_some]
        rw [hr, hr']
        exact ⟨by simp [Statement.move], hvalue⟩

theorem rejectName (h : Moved S p p') (after : Token) :
    MovesTo S (Statement.move S.relocation) (p.rejectName after)
      (p'.rejectName (after.move S.relocation)) := by
  unfold Parser.rejectName
  rw [h.next]
  exact ⟨by simp [Statement.move], h.advance.rejects after.location (.operatorExpected after)⟩

theorem rejectStatement (h : Moved S p p') :
    MovesTo S (Statement.move S.relocation) p.rejectStatement p'.rejectStatement := by
  unfold Parser.rejectStatement
  rw [h.next]
  exact ⟨by simp [Statement.move], (h.reject (.statementExpected p.next)).synchronize⟩

theorem named (h : Moved S p p') :
    AnswersTo S (Statement.move S.relocation) p.named p'.named := by
  have hfill := h.fill 2
  unfold Parser.named
  dsimp only
  rw [hfill.ahead 1, Token.operator?_move]
  split
  · split
    · exact hfill.step true
    · exact hfill.assignment.answers
  · exact (hfill.rejectName _).answers

/-! ### Block statements -/

theorem headerSemicolon (h : Moved S p p') (clause : HeaderClause) :
    MovesTo S id (p.headerSemicolon clause) (p'.headerSemicolon clause) := by
  unfold Parser.headerSemicolon
  dsimp only
  rw [h.next, Token.isOperator_move, Token.location_move]
  split
  · exact ⟨rfl, h.advance⟩
  · exact ⟨rfl, h.advance.rejects _ (.headerSemicolonExpected clause p.next)⟩

theorem loopCondition (h : Moved S p p') :
    MovesTo S (Option.map (Option.map (Statement.move S.relocation))) p.loopCondition
      p'.loopCondition := by
  have hfill := h.fill 1
  unfold Parser.loopCondition
  dsimp only
  rw [hfill.next, Token.isOperator_move]
  split
  · exact ⟨rfl, hfill.advance⟩
  · obtain ⟨c, q, q', hq, hq', hcondition⟩ := (hfill.condition .semicolon).split
    rw [hq, hq']
    cases c with
    | none => exact ⟨rfl, hcondition.synchronize⟩
    | some c =>
      obtain ⟨b, r, r', hr, hr', hsemicolon⟩ := (hcondition.headerSemicolon .condition).split
      dsimp only [Option.map_some]
      rw [hr, hr']
      cases b with
      | true =>
        refine ⟨?_, hsemicolon⟩
        simp [Statement.move, Condition.move, Condition.expr, Expr.move]
      | false => exact ⟨rfl, hsemicolon⟩

theorem loopIncrement (h : Moved S p p') :
    AnswersTo S (Option.map (Option.map (Statement.move S.relocation))) p.loopIncrement
      p'.loopIncrement := by
  have hfill := h.fill 1
  have htwo := hfill.fill 2
  unfold Parser.loopIncrement
  dsimp only
  rw [hfill.next, htwo.ahead 1, Token.operator?_move, Token.identifier?_move, Token.location_move]
  split
  · exact MovesTo.answers ⟨rfl, hfill⟩
  · split
    · refine (htwo.step false).bind fun increment q q' _ hstep => ?_
      dsimp only
      rw [Statement.isInvalid_move]
      split
      · exact MovesTo.answers ⟨rfl, hstep.synchronize⟩
      · exact MovesTo.answers ⟨rfl, hstep⟩
    · exact MovesTo.answers ⟨rfl, htwo.advance.rejects _ .stepExpected⟩

section Blocks

variable {body body' : Parser → Except Halt Parser}
  {statement statement' : Parser → Except Halt (Statement × Parser)}

theorem branchWith (hbody : BodiesMove S body body') :
    StatementsMove S (Parser.branchWith body) (Parser.branchWith body') := by
  intro p p' h
  obtain ⟨c, q, q', hq, hq', hcondition⟩ := (h.advance.condition .leftBrace).split
  unfold Parser.branchWith
  dsimp only
  rw [hq, hq', h.next]
  cases c with
  | none => exact MovesTo.answers ⟨by simp [Statement.move], hcondition.synchronize⟩
  | some c =>
    have hbrace := hcondition.advance
    dsimp only [Option.map_some]
    rw [hcondition.next, Token.isOperator_move]
    split
    · have hblock : AnswersTo S (Scope.move S.relocation) (blockWith body q.advance)
          (blockWith body' q'.advance) := by
        intro scope r hr
        obtain ⟨u, hu, hleave⟩ := bind_eq_ok.1 hr
        obtain ⟨u', hu', hmoved⟩ := hbody hbrace.enter hu
        obtain ⟨r', hleave', hmoved'⟩ := hmoved.leave hleave
        exact ⟨r', bind_eq_ok.2 ⟨u', hu', hleave'⟩, hmoved'⟩
      refine hblock.bind fun scope r r' _ hr => ?_
      exact MovesTo.answers ⟨by simp [Statement.move], hr⟩
    · exact MovesTo.answers ⟨by simp [Statement.move], hbrace.rejects _ (.bodyExpected q.next)⟩

theorem loopInit (hstatement : StatementsMove S statement statement') (h : Moved S p p') :
    AnswersTo S id (Parser.loopInit statement p) (Parser.loopInit statement' p') := by
  have hfill := h.fill 1
  unfold Parser.loopInit
  dsimp only
  rw [hfill.next, Token.isOperator_move]
  split
  · exact MovesTo.answers ⟨rfl, hfill.advance⟩
  · refine (hstatement hfill).bind fun init q q' _ hinit => ?_
    dsimp only
    rw [Statement.initFailed_move, Statement.isBlock_move]
    split
    · exact MovesTo.answers ⟨rfl, hinit⟩
    · split
      · exact ((hinit.push init).headerSemicolon .init).answers
      · exact MovesTo.answers ⟨rfl, hinit.push init⟩

theorem loopHeaderWith (hstatement : StatementsMove S statement statement') (h : Moved S p p') :
    AnswersTo S (Option.map (LoopHeader.move S.relocation)) (Parser.loopHeaderWith statement p)
      (Parser.loopHeaderWith statement' p') := by
  refine (loopInit hstatement h).bind fun complete q q' _ hinit => ?_
  cases complete with
  | false => exact MovesTo.answers ⟨rfl, hinit⟩
  | true =>
    obtain ⟨condition, r, r', hr, hr', hcondition⟩ := hinit.loopCondition.split
    dsimp only [id]
    rw [hr, hr']
    cases condition with
    | none => exact MovesTo.answers ⟨rfl, hcondition⟩
    | some condition =>
      refine hcondition.loopIncrement.bind fun increment u u' _ hincrement => ?_
      cases increment with
      | none => exact MovesTo.answers ⟨rfl, hincrement⟩
      | some increment =>
        have hbrace := hincrement.advance
        dsimp only [Option.map_some]
        rw [hincrement.next, Token.isOperator_move]
        split
        · exact MovesTo.answers ⟨rfl, hbrace⟩
        · exact MovesTo.answers ⟨rfl, hbrace.rejects _ (.loopBodyExpected u.next)⟩

/-- A header leaves the scope of its loop open. -/
theorem depth_of_loopHeaderWith {n : Nat} {header : Option LoopHeader}
    (h : Parser.loopHeaderWith (statementWithin n) p = .ok (header, q)) :
    q.scopes.depth = p.scopes.depth := by
  obtain ⟨header', q', hq', hreaches⟩ := loopHeaderWith_ok
    ((within_ok _).1 p.remaining (Nat.le_max_right n (2 * p.remaining + 1))) (Nat.le_refl _)
  have hread := (extends_of_le (Nat.le_max_left n (2 * p.remaining + 1))).1.loopHeaderWith _ _ h
  rw [hq'] at hread
  obtain ⟨-, rfl⟩ := Prod.mk.inj (Except.ok.inj hread)
  exact hreaches.depth

theorem loopWith {n : Nat} (hbody : BodiesMove S body body')
    (hstatement : StatementsMove S (statementWithin n) statement') :
    StatementsMove S (Parser.loopWith body (statementWithin n))
      (Parser.loopWith body' statement') := by
  intro p p' h
  unfold Parser.loopWith
  dsimp only
  rw [h.next]
  refine (loopHeaderWith hstatement h.advance.enter).bind fun header q q' hq hheader => ?_
  cases header with
  | none =>
    intro s r hr
    obtain ⟨⟨scope, u⟩, hleave, hu⟩ := bind_eq_ok.1 hr
    obtain ⟨u', hleave', hmoved⟩ := hheader.leave hleave
    obtain ⟨rfl, rfl⟩ := Prod.mk.inj (Except.ok.inj hu)
    exact ⟨u', bind_eq_ok.2 ⟨_, hleave', by simp [pure, Except.pure, Statement.move]⟩, hmoved⟩
  | some header =>
    have hdepth : 0 < q.scopes.depth := by
      rw [depth_of_loopHeaderWith hq]
      exact Nat.succ_pos _
    obtain ⟨init, r, r', hr, hr', hpop⟩ := (hheader.pop hdepth).split
    intro s t ht
    dsimp only [Option.map_some] at ht ⊢
    rw [hr] at ht
    rw [hr']
    obtain ⟨u, hu, hrest⟩ := bind_eq_ok.1 ht
    obtain ⟨⟨scope, v⟩, hleave, hv⟩ := bind_eq_ok.1 hrest
    obtain ⟨rfl, rfl⟩ := Prod.mk.inj (Except.ok.inj hv)
    obtain ⟨u', hu', hmoved⟩ := hbody hpop hu
    obtain ⟨v', hleave', hmoved'⟩ := hmoved.leave hleave
    refine ⟨v', bind_eq_ok.2 ⟨u', hu', bind_eq_ok.2 ⟨_, hleave', ?_⟩⟩, hmoved'⟩
    simp [pure, Except.pure, Statement.move, LoopHeader.move]

end Blocks

/-! ### Statements, bodies and programs -/

/-- Both bodies end at the same token. -/
theorem bodyEnds {top : Bool} (h : Moved S p p') (hends : p.BodyEnds top q) :
    ∃ q', p'.BodyEnds top q' ∧ Moved S q q' := by
  have hfill := h.fill 1
  cases hends with
  | brace hbrace => exact ⟨_, .brace (by simpa [h.next] using hbrace), hfill.advance⟩
  | endOfFile hend => exact ⟨_, .endOfFile (by simpa [h.next] using hend), hfill⟩
  | program hend => exact ⟨_, .program (by simpa [h.next] using hend), hfill.flush⟩

/-- Within the same bound on the nesting, both read the same. -/
theorem within (S : Setting) (n : Nat) :
    StatementsMove S (statementWithin n) (statementWithin n) ∧
      ∀ top, BodiesMove S (bodyWithin n top) (bodyWithin n top) := by
  -- one induction for both readers, since each calls the other with a smaller bound
  induction n with
  | zero =>
    refine ⟨fun p p' _ s q hq => ?_, fun top p p' q _ hq => ?_⟩
    · simp [statementWithin, halt] at hq
    · simp [bodyWithin, halt] at hq
  | succ n ih =>
    obtain ⟨ihStatement, ihBody⟩ := ih
    refine ⟨fun p p' h => ?_, fun top p p' q h hq => ?_⟩
    · have hfill := h.fill 1
      unfold statementWithin
      dsimp only
      rw [hfill.next, Token.kind_move]
      split
      · exact hfill.declaration.answers
      · exact branchWith (ihBody false) hfill
      · exact loopWith (ihBody false) ihStatement hfill
      · exact hfill.named
      · exact hfill.rejectStatement.answers
    · have hfill := h.fill 1
      cases bodyWithin_succ.1 hq with
      | ends hends =>
        obtain ⟨q', hends', hmoved⟩ := h.bodyEnds hends
        exact ⟨q', bodyWithin_succ.2 (.ends hends'), hmoved⟩
      | blank hnext hrest =>
        obtain ⟨q', hq', hmoved⟩ := ihBody top hfill.advance hrest
        exact ⟨q', bodyWithin_succ.2 (.blank (by simpa [h.next] using hnext) hq'), hmoved⟩
      | stray htop hnext hrest =>
        obtain ⟨q', hq', hmoved⟩ := ihBody top hfill.advance hrest
        exact ⟨q', bodyWithin_succ.2 (.stray htop (by simpa [h.next] using hnext) hq'), hmoved⟩
      | statement s r hnext hs hrest =>
        obtain ⟨r', hs', hmoved⟩ := ihStatement hfill hs
        have hpush : Moved S (if s.isInvalid then r else r.push s)
            (if (s.move S.relocation).isInvalid then r' else r'.push (s.move S.relocation)) := by
          rw [Statement.isInvalid_move]
          split
          · exact hmoved
          · exact hmoved.push s
        obtain ⟨q', hq', hmoved'⟩ := ihBody top hpush hrest
        have hnext' : startsStatement p'.next = true := by simpa [startsStatement, h.next] using hnext
        exact ⟨q', bodyWithin_succ.2 (.statement _ r' hnext' hs' hq'), hmoved'⟩

/-- Two parsers that have the same ahead read the same program. -/
theorem body {top : Bool} (h : Moved S p p') (hq : p.body top = .ok q) :
    ∃ q', p'.body top = .ok q' ∧ Moved S q q' := by
  obtain ⟨q', hq', hmoved⟩ := (within S p.bound).2 top h hq
  exact ⟨q', body_of_bodyWithin hq', hmoved⟩

/-- A parser at the start of a source is moved if the tokens of the source are. -/
theorem ofSource {source source' : Source} {f : Relocation}
    (h : ∀ k, source'.tokenAt k = (source.tokenAt k).move f) :
    Moved ⟨f, [], [], [], []⟩ (ofSource source) (ofSource source') where
  ahead n := by
    rw [stands_ofSource source', stands_ofSource source]
    exact h _
  last := rfl
  pending := rfl
  scopes := ⟨rfl, ⟨[], rfl, rfl⟩, rfl⟩
  reports := ⟨[], rfl, rfl⟩

end Moved

/-- What is read stays in its place if no token is moved. -/
theorem move_program {source : Source} {f : Relocation}
    (h : ∀ k, f.place (source.tokenAt k).location = (source.tokenAt k).location)
    (hp : (ofSource source).program = .ok p) :
    p.scopes.outermost.move f = p.scopes.outermost ∧
      p.scanner.reports.map (Report.move f) = p.scanner.reports := by
  have hstart : Moved ⟨f, [], [], [], []⟩ (ofSource source) (ofSource source) :=
    .ofSource fun k => by rw [Token.move, h k]
  obtain ⟨p', hp', hmoved⟩ := hstart.body hp
  obtain rfl := Except.ok.inj (hp.symm.trans hp')
  obtain ⟨more, hmore, hscope⟩ := hmoved.scopes.outermost
  obtain ⟨rs, hrs, hreports⟩ := hmoved.reports
  rw [List.nil_append] at hmore hrs hscope hreports
  refine ⟨?_, ?_⟩
  · rw [← hmore] at hscope
    exact hscope.symm
  · rw [← hrs] at hreports
    exact hreports.symm

end Parser

end FloatLang
