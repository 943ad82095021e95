import FloatLang.Parser.Block
import FloatLang.Proofs.Infix.Assembly

/-!
# Relocation

The same text at other places of a file gives the same tokens, trees and messages at other places. A
relocation moves places, and everything that has a place moves with them. It moves no two places to
one, so that what is found by its place is found again.

## Main definitions

* `Relocation` — a change of places
* `Relocation.shift` — moves what comes after a place in the file further on
* `Relocation.down` — moves everything further down
* `Relocation.displace` — moves a single place only
* `Token.move`, `Expr.move`, `Statement.move`, `Scope.move`, `Report.move` — what has a place

## Main results

* `Statement.moveAll_eq`, `Statement.moveClause_eq` — statements in a row and the clauses of a loop
* `Report.diagnostic_move` — a report has the same message at another place
-/

namespace FloatLang

/-- A change of places that tells the same places apart. -/
structure Relocation where
  place : Location → Location
  same : ∀ a b, (place a).same (place b) = a.same b

namespace Location

/-- The place `d` characters further on in the same line. -/
def shift (l : Location) (d : Nat) : Location := { l with offset := l.offset + d }

end Location

namespace Relocation

/-- Everything at an offset of at least `start` is moved `d` characters on. Lines and columns stay. -/
def shift (start d : Nat) : Relocation where
  place l := if l.offset < start then l else l.shift d
  same a b := by
    obtain ⟨⟨i, line, column⟩, file⟩ := a
    obtain ⟨⟨j, line', column'⟩, file'⟩ := b
    rw [Bool.eq_iff_iff]
    simp only [Location.same, Bool.and_eq_true, beq_iff_eq]
    -- what is moved stays behind what is not
    by_cases hi : i < start <;> by_cases hj : j < start <;>
      simp only [hi, hj, if_true, if_false, Location.shift, Position.mk.injEq] <;>
      exact and_congr Iff.rfl (and_congr (by omega) Iff.rfl)

theorem shift_of_lt {start d : Nat} {l : Location} (h : l.offset < start) :
    (shift start d).place l = l := if_pos h

theorem shift_of_le {start d : Nat} {l : Location} (h : start ≤ l.offset) :
    (shift start d).place l = l.shift d := if_neg (Nat.not_lt.2 h)

/-- Everything is moved `d` characters on and `n` lines down. Columns stay. -/
def down (d n : Nat) : Relocation where
  place l := { l with offset := l.offset + d, line := l.line + n }
  same a b := by
    obtain ⟨⟨i, line, column⟩, file⟩ := a
    obtain ⟨⟨j, line', column'⟩, file'⟩ := b
    rw [Bool.eq_iff_iff]
    simp only [Location.same, Bool.and_eq_true, beq_iff_eq, Position.mk.injEq]
    exact and_congr Iff.rfl (and_congr (by omega) (and_congr (by omega) Iff.rfl))

/-- What stands at the offset `k` is moved away from its line, and nothing else is moved. -/
def displace (k : Nat) : Relocation where
  place l := if l.offset = k then { l with line := l.line + 1 } else l
  same a b := by
    obtain ⟨⟨i, line, column⟩, file⟩ := a
    obtain ⟨⟨j, line', column'⟩, file'⟩ := b
    rw [Bool.eq_iff_iff]
    simp only [Location.same, Bool.and_eq_true, beq_iff_eq]
    -- places at different offsets are different in any line
    by_cases hi : i = k
    · subst hi
      by_cases hj : j = i
      · simp [hj]
      · simp [hj, Ne.symm hj]
    · by_cases hj : j = k
      · subst hj
        simp [hi]
      · simp [hi, hj]

theorem displace_eq_self {k : Nat} {l : Location} : (displace k).place l = l ↔ l.offset ≠ k := by
  constructor
  · rintro h rfl
    have hline := congrArg (fun l : Location => l.line) h
    simp [displace] at hline
  · exact fun h => if_neg h

end Relocation

variable (f : Relocation)

/-! ### Tokens -/

namespace Token

/-- The token at the place to which its own is moved. -/
def move (t : Token) : Token := { t with location := f.place t.location }

variable (t : Token)

@[simp] theorem kind_move : (t.move f).kind = t.kind := rfl

@[simp] theorem location_move : (t.move f).location = f.place t.location := rfl

@[simp] theorem isEndOfFile_move : (t.move f).isEndOfFile = t.isEndOfFile := rfl

@[simp] theorem isEndOfLine_move : (t.move f).isEndOfLine = t.isEndOfLine := rfl

@[simp] theorem endsLine_move : (t.move f).endsLine = t.endsLine := rfl

@[simp] theorem operator?_move : (t.move f).operator? = t.operator? := rfl

@[simp] theorem isOperator_move (op : Operator) : (t.move f).isOperator op = t.isOperator op := rfl

@[simp] theorem isTerminator_move : (t.move f).isTerminator = t.isTerminator := rfl

@[simp] theorem identifier?_move : (t.move f).identifier? = t.identifier? := rfl

end Token

/-! ### Trees -/

/-- The variable that is declared at the place moved to. -/
def Variable.move (v : Variable) : Variable := ⟨v.name, f.place v.location⟩

/-- The use of the same variable at the place moved to. -/
def Reference.move (r : Reference) : Reference := ⟨r.target.move f, f.place r.location⟩

/-- The expression with its parts at the places moved to. -/
def Expr.move : Expr → Expr
  | .invalid l => .invalid (f.place l)
  | .unary op e l => .unary op e.move (f.place l)
  | .binary op a b l => .binary op a.move b.move (f.place l)
  | .reference r => .reference (r.move f)
  | .numeral value l => .numeral value (f.place l)
  | .condition e l => .condition e.move (f.place l)

/-- The condition with its parts at the places moved to. -/
def Condition.move (c : Condition) : Condition := ⟨c.inner.move f, f.place c.location⟩

namespace Expr

@[simp] theorem location_move (e : Expr) : (e.move f).location = f.place e.location := by
  cases e <;> rfl

@[simp] theorem isReference_move (e : Expr) : (e.move f).isReference = e.isReference := by
  cases e <;> rfl

@[simp] theorem text_move (e : Expr) : (e.move f).text = e.text := by
  induction e with
  | unary op e l ih => simp [move, text, ih]
  | binary op a b l iha ihb => simp [move, text, iha, ihb]
  | condition e l ih => simp [move, text, ih]
  | _ => rfl

@[simp] theorem leftmost_move (e : Expr) : (e.move f).leftmost = e.leftmost.move f := by
  induction e with
  | unary op e l ih => exact ih
  | binary op a b l iha _ => exact iha
  | _ => rfl

end Expr

namespace Statement

mutual

/-- The statement with its parts at the places moved to. -/
def move : Statement → Statement
  | invalid l => invalid (f.place l)
  | declare v => declare (v.move f)
  | assign target value l => assign (target.move f) (value.move f) (f.place l)
  | step direction target l => step direction (target.move f) (f.place l)
  | branch condition body l => branch (condition.move f) (moveScope body) (f.place l)
  | loop init condition increment body l =>
    loop (moveClause init) (moveClause condition) (moveClause increment) (moveScope body) (f.place l)
  | expr e l => expr (e.move f) (f.place l)
  | compound first second l => compound first.move second.move (f.place l)

/-- The scope with its variables and statements at the places moved to. -/
def moveScope : Scope Statement → Scope Statement
  | ⟨id, parent, declared, statements⟩ =>
    ⟨id, parent, declared.map (Variable.move f), moveAll statements⟩

/-- Statements in a row at the places moved to. -/
def moveAll : List Statement → List Statement
  | [] => []
  | s :: rest => s.move :: moveAll rest

/-- A clause of a loop at the places moved to. -/
def moveClause : Option Statement → Option Statement
  | none => none
  | some s => some s.move

end

@[simp] theorem moveAll_eq (ss : List Statement) : moveAll f ss = ss.map (move f) := by
  induction ss with
  | nil => rw [moveAll, List.map_nil]
  | cons s ss ih => rw [moveAll, List.map_cons, ih]

@[simp] theorem moveClause_eq (clause : Option Statement) :
    moveClause f clause = clause.map (move f) := by
  cases clause <;> simp [moveClause]

@[simp] theorem location_move (s : Statement) : (s.move f).location = f.place s.location := by
  cases s <;> simp [move, location, Variable.move]

@[simp] theorem isInvalid_move (s : Statement) : (s.move f).isInvalid = s.isInvalid := by
  cases s <;> simp [move, isInvalid]

@[simp] theorem isBlock_move (s : Statement) : (s.move f).isBlock = s.isBlock := by
  cases s <;> simp [move, isBlock]

@[simp] theorem initFailed_move (s : Statement) :
    Parser.initFailed (s.move f) = Parser.initFailed s := by
  cases s with
  | compound first second l => simp [move, Parser.initFailed]
  | _ => simp [move, Parser.initFailed, isInvalid]

end Statement

/-- The scope with its variables and statements at the places moved to. -/
def Scope.move (s : Scope Statement) : Scope Statement where
  id := s.id
  parent? := s.parent?
  declared := s.declared.map (Variable.move f)
  statements := s.statements.map (Statement.move f)

@[simp] theorem Statement.moveScope_eq (s : Scope Statement) : moveScope f s = s.move f := by
  obtain ⟨id, parent, declared, statements⟩ := s
  rw [moveScope, moveAll_eq]
  rfl

/-- The clauses of a loop at the places moved to. -/
def Parser.LoopHeader.move (header : Parser.LoopHeader) : Parser.LoopHeader where
  condition := header.condition.map (Statement.move f)
  increment := header.increment.map (Statement.move f)

/-! ### Reports -/

/-- The problem with the token that was found at the place moved to. -/
def Problem.move : Problem → Problem
  | statementExpected found => statementExpected (found.move f)
  | operatorExpected found => operatorExpected (found.move f)
  | nameExpected found => nameExpected (found.move f)
  | assignExpected found => assignExpected (found.move f)
  | bodyExpected found => bodyExpected (found.move f)
  | loopBodyExpected found => loopBodyExpected (found.move f)
  | headerSemicolonExpected clause found => headerSemicolonExpected clause (found.move f)
  | terminatorExpected found => terminatorExpected (found.move f)
  | problem => problem

/-- The report at the place moved to. -/
def Report.move (r : Report) : Report :=
  { r with location := f.place r.location, problem := r.problem.move f }

/-- The diagnostic at the place moved to. -/
def Diagnostic.move (d : Diagnostic) : Diagnostic := { d with location := f.place d.location }

theorem Problem.message_move (quotes : Quotes) (problem : Problem) :
    (problem.move f).message quotes = problem.message quotes := by
  cases problem <;> rfl

/-- A report has the same message at another place. -/
theorem Report.diagnostic_move (quotes : Quotes) (r : Report) :
    (r.move f).diagnostic quotes = (r.diagnostic quotes).move f := by
  simp [diagnostic, Report.move, Diagnostic.move, Problem.message_move]

/-! ### Brackets -/

/-- The open bracket at the place moved to. -/
def Opening.move (o : Opening) : Opening := ⟨o.bracket, f.place o.location⟩

end FloatLang
