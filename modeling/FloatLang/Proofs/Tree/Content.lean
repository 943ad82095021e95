import FloatLang.Statement
import Mathlib.Algebra.Order.Group.Multiset

/-!
# What a tree holds of its source

A tree keeps the words of its source from left to right, and the operators that its expressions and
statements are written with. Brackets, semicolons and line breaks leave nothing in it. The content of
a tree is read off here without regard to how it was built, and compared with the tokens.

## Main definitions

* `Content` — words in their order, and operators
* `Expr.content`, `Statement.content`, `Statement.contentAll` — the content of a tree
* `Token.word?`, `Token.operation?` — what a token adds to it
* `Written` — the tokens hold a content, and nothing else

## Main results

* `Written.append` — tokens in a row
-/

namespace FloatLang

/-- What a tree holds of its source. -/
structure Content where
  /-- The reserved words, names and numerals, from left to right. -/
  words : List TokenKind
  /-- The operators of expressions, each with its place. -/
  operators : Multiset (Operator × Location)
  /-- The signs of statements: `=`, `++` and `--`. -/
  signs : Multiset Operator

namespace Content

/-- Nothing. -/
def empty : Content := ⟨[], 0, 0⟩

/-- A single word. -/
def word (kind : TokenKind) : Content := ⟨[kind], 0, 0⟩

/-- A single operator of an expression. -/
def operator (op : Operator) (l : Location) : Content := ⟨[], {(op, l)}, 0⟩

/-- A single sign of a statement. -/
def sign (op : Operator) : Content := ⟨[], 0, {op}⟩

instance : Append Content where
  append a b := ⟨a.words ++ b.words, a.operators + b.operators, a.signs + b.signs⟩

variable (a b c : Content)

theorem append_eq :
    a ++ b = ⟨a.words ++ b.words, a.operators + b.operators, a.signs + b.signs⟩ := rfl

@[simp] theorem append_empty : a ++ empty = a := by
  simp [append_eq, empty]

@[simp] theorem empty_append : empty ++ a = a := by
  simp [append_eq, empty]

theorem append_assoc : a ++ b ++ c = a ++ (b ++ c) := by
  simp only [append_eq, List.append_assoc, add_assoc]

variable {a} in
/-- Only the order of words counts. -/
theorem append_comm_of_words (h : a.words = []) : a ++ b = b ++ a := by
  simp only [append_eq, h, List.nil_append, List.append_nil, add_comm]

end Content

/-! ### Trees -/

/-- The content of an expression. -/
def Expr.content : Expr → Content
  | .invalid _ => .empty
  | .unary op operand l => .operator op l ++ operand.content
  | .binary op left right l => left.content ++ .operator op l ++ right.content
  | .reference r => .word (.identifier r.target.name)
  | .numeral value _ => .word (.numeral value)
  | .condition inner _ => inner.content

namespace Statement

mutual

/-- The content of a statement. A declaration with an initial value names its variable once. -/
def content : Statement → Content
  | invalid _ => .empty
  | declare v => .word (.keyword .float) ++ .word (.identifier v.name)
  | assign target value _ =>
    .word (.identifier target.target.name) ++ .sign .assign ++ value.content
  | step direction target _ =>
    .word (.identifier target.target.name) ++ .sign direction.operator
  | branch condition body _ =>
    .word (.keyword .if) ++ condition.inner.content ++ scopeContent body
  | loop init condition increment body _ =>
    .word (.keyword .for) ++ clauseContent init ++ clauseContent condition ++
      clauseContent increment ++ scopeContent body
  | expr e _ => e.content
  | compound first (assign _ value _) _ => first.content ++ .sign .assign ++ value.content
  | compound first second _ => first.content ++ second.content

/-- The content of a scope. -/
def scopeContent : Scope Statement → Content
  | ⟨_, _, _, statements⟩ => contentAll statements

/-- The content of statements in a row. -/
def contentAll : List Statement → Content
  | [] => .empty
  | s :: rest => s.content ++ contentAll rest

/-- The content of a clause of a loop. -/
def clauseContent : Option Statement → Content
  | none => .empty
  | some s => s.content

end

@[simp] theorem scopeContent_eq (scope : Scope Statement) :
    scopeContent scope = contentAll scope.statements := by
  cases scope
  rw [scopeContent]

theorem contentAll_toList (clause : Option Statement) :
    contentAll clause.toList = clauseContent clause := by
  cases clause with
  | none => rfl
  | some s => exact Content.append_empty _

theorem contentAll_append (ss ss' : List Statement) :
    contentAll (ss ++ ss') = contentAll ss ++ contentAll ss' := by
  induction ss with
  | nil => simp [contentAll]
  | cons s ss ih => rw [List.cons_append, contentAll, contentAll, ih, Content.append_assoc]

end Statement

/-! ### Tokens -/

/-- Whether an operator only groups or separates: brackets and the semicolon. -/
def Operator.isPunctuation (op : Operator) : Bool := op.bracket?.isSome || op == .semicolon

namespace Token

/-- The word that a token is: a reserved word, a name or a numeral. -/
def word? (t : Token) : Option TokenKind :=
  match t.kind with
  | .keyword _ | .identifier _ | .numeral _ => some t.kind
  | _ => none

/-- The operator that a token is, if it is no punctuation, with its place. -/
def operation? (t : Token) : Option (Operator × Location) :=
  match t.kind with
  | .operator op => if op.isPunctuation then none else some (op, t.location)
  | _ => none

end Token

/-- The content of tokens by themselves: whether an operator is the sign of a statement depends on
where it stands. -/
def Content.ofTokens (ts : List Token) : Content :=
  ⟨ts.filterMap Token.word?, ↑(ts.filterMap Token.operation?), 0⟩

namespace Content

variable {t : Token} {op : Operator}

theorem ofTokens_append (ts us : List Token) :
    ofTokens (ts ++ us) = ofTokens ts ++ ofTokens us := by
  simp only [append_eq, ofTokens, List.filterMap_append, add_zero]
  rw [Multiset.coe_add]

theorem ofTokens_word {kind : TokenKind} (h : t.word? = some kind) : ofTokens [t] = word kind := by
  have hnone : t.operation? = none := by
    cases hkind : t.kind with
    | operator op => simp [Token.word?, hkind] at h
    | _ => simp [Token.operation?, hkind]
  simp [ofTokens, word, h, hnone]

theorem ofTokens_operation (h : t.kind = .operator op) (hop : op.isPunctuation = false) :
    ofTokens [t] = operator op t.location := by
  simp [ofTokens, operator, Token.word?, Token.operation?, h, hop]

/-- Brackets and semicolons leave nothing. -/
theorem ofTokens_punctuation (h : t.kind = .operator op) (hop : op.isPunctuation = true) :
    ofTokens [t] = empty := by
  simp [ofTokens, empty, Token.word?, Token.operation?, h, hop]

/-- Line breaks and the end of the file leave nothing. -/
theorem ofTokens_endsLine (h : t.endsLine = true) : ofTokens [t] = empty := by
  have hkind : t.kind = .endOfLine ∨ t.kind = .endOfFile := by
    simpa [Token.endsLine, Token.isEndOfLine, Token.isEndOfFile] using h
  rcases hkind with hkind | hkind <;>
    simp [ofTokens, empty, Token.word?, Token.operation?, hkind]

end Content

/-- The tokens hold the words of the content, in the same order. Their operators but for punctuation
are the operators of the content, each at its place, and its signs, each somewhere. -/
structure Written (ts : List Token) (c : Content) : Prop where
  words : ts.filterMap Token.word? = c.words
  operators : ∃ signs : Multiset (Operator × Location), signs.map Prod.fst = c.signs ∧
    ↑(ts.filterMap Token.operation?) = c.operators + signs

variable {t : Token} {ts us : List Token} {c d : Content}

theorem written_nil : Written [] .empty := ⟨rfl, 0, rfl, rfl⟩

theorem Written.append (h : Written ts c) (h' : Written us d) : Written (ts ++ us) (c ++ d) := by
  obtain ⟨signs, hsigns, hoperators⟩ := h.operators
  obtain ⟨signs', hsigns', hoperators'⟩ := h'.operators
  refine ⟨?_, signs + signs', ?_, ?_⟩
  · rw [List.filterMap_append, h.words, h'.words]
    rfl
  · rw [Multiset.map_add, hsigns, hsigns']
    rfl
  · rw [List.filterMap_append, ← Multiset.coe_add, hoperators, hoperators', Content.append_eq]
    exact add_add_add_comm _ _ _ _

/-- Only the content of the tokens counts. -/
theorem Written.congr (h : Written ts c) (heq : Content.ofTokens us = .ofTokens ts) :
    Written us c where
  words := (congrArg Content.words heq).trans h.words
  operators := by
    obtain ⟨signs, hsigns, hoperators⟩ := h.operators
    exact ⟨signs, hsigns, (congrArg Content.operators heq).trans hoperators⟩

/-- Tokens by themselves. -/
theorem written_ofTokens (ts : List Token) : Written ts (.ofTokens ts) :=
  ⟨rfl, 0, rfl, (add_zero _).symm⟩

/-- The sign of a statement, wherever it stands. -/
theorem written_sign {op : Operator} (h : t.kind = .operator op) (hop : op.isPunctuation = false) :
    Written [t] (.sign op) :=
  ⟨by simp [Token.word?, h, Content.sign], {(op, t.location)}, rfl,
    by simp [Token.operation?, h, hop, Content.sign]⟩

end FloatLang
