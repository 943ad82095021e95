import FloatLang.Parser
import FloatLang.Postfix

/-!
# Reading expressions

An expression ends just before its terminal operator. If that is `;`, a line break, the end of
the file and a closing brace end it too, unless the last token still lacks an operand. Names
are bound to their declarations as they are read. An expression that fails has been reported.

## Main definitions

* `Parser.collect` — puts the tokens of an expression into postfix order
* `Parser.expression` — reads an expression
* `Parser.condition` — reads the expression of a condition
-/

namespace FloatLang.Parser

open Postfix (Yard)

/-- Whether an expression with the given terminal ends before a token. -/
def endsExpression (terminal : Operator) (continues : Bool) (t : Token) : Bool :=
  t.isOperator terminal ||
    (terminal == .semicolon && !continues && (t.endsLine || t.isOperator .rightBrace))

/-- Takes the tokens of an expression, at most `n`. -/
def collect (terminal : Operator) : Nat → Yard → Parser → Option Yard × Parser
  | 0, _, p => (none, p)
  | n + 1, y, p =>
    let p := p.fill 1
    let t := p.next
    if endsExpression terminal y.continues t then (some y, p)
    else
      match t.kind with
      | .endOfLine => collect terminal n y p.advance
      | .endOfFile => (none, p.reject (.unfinished terminal))
      | .numeral value => collect terminal n (y.operand (.numeral value t.location)) p.advance
      | .identifier name =>
        match p.advance.resolve name t.location with
        | (some v, p) => collect terminal n (y.operand (.reference ⟨v, t.location⟩)) p
        | (none, p) => (none, p)
      | .keyword word => (none, p.reject (.keywordInExpression word))
      | .invalid _ => (none, p.advance)
      | .operator op =>
        if op.precedence = Operator.outside then (none, p.reject (.operatorInExpression op))
        else
          match y.shift? op t.location with
          | some y => collect terminal n y p.advance
          | none => (none, p.reject .strayParenthesis)

/-- Reports the parentheses an expression left open, unless they were reported before. -/
def reportUnclosed (opened : List Location) (p : Parser) : Parser :=
  opened.foldl (fun p l =>
    match p.scanner.forget? l with
    | some (bracket, scanner) => { p with scanner := scanner.error l (.unclosed bracket) }
    | none => p) p

/-- Makes a tree of the tokens taken for an expression. -/
def finishExpression (start : Location) (y : Yard) (p : Parser) : Option Expr × Parser :=
  if y.openParentheses.isEmpty then
    match Postfix.assemble start y.finish with
    | .ok e => (some e, p)
    | .error complaint => (none, p.error complaint.location complaint.problem)
  else (none, reportUnclosed y.openParentheses p)

/-- Reads an expression that ends just before its terminal. -/
def expression (terminal : Operator) (p : Parser) : Option Expr × Parser :=
  let start := p.next.location
  match collect terminal (p.remaining + 1) {} p with
  | (some y, p) => finishExpression start y p
  | (none, p) => (none, p)

/-- Reads the expression of a condition. -/
def condition (terminal : Operator) (p : Parser) : Option Condition × Parser :=
  match p.expression terminal with
  | (some e, p) => (some ⟨e, e.location⟩, p)
  | (none, p) => (none, p)

end FloatLang.Parser
