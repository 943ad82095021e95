import FloatLang.Expr

/-!
# The grammar of expressions

What an expression is, without regard to how one is read. Every binary operator has a rank, and
associates to the left among the operators of its rank; `!` comes before its operand, `++` and
`--` come after a variable.

## Main definitions

* `Infix.operatorsAt` — the binary operators of a rank, the loosest rank first
* `Infix.Derives` — tokens form an expression, with its tree
* `Infix.inPlace` — operands and operators take turns
* `Infix.significant`, `Infix.breaksIgnored` — the tokens that are no line breaks, and where
  line breaks may stand between them

## Main results

* `Infix.mem_operatorsAt` — the rank of a binary operator is its precedence
* `Infix.Derives.inPlace_append` — in an expression operands and operators take turns
-/

namespace FloatLang.Infix

/-- The binary operators of a rank. -/
def operatorsAt : Nat → List Operator
  | 0 => [.or]
  | 1 => [.and]
  | 2 => [.equal, .notEqual]
  | 3 => [.less, .greater, .lessEqual, .greaterEqual]
  | 4 => [.add, .sub]
  | 5 => [.mul, .div, .rem]
  | _ => []

/-- The tokens form an expression of a rank or a tighter one, and the expression is the tree. The
binary operators are followed by rank 6 for `!`, rank 7 for steps and rank 8 for operands. Names
stand for the variables that `resolve` gives them. Every node is at its own token. -/
inductive Derives (resolve : String → Option Variable) : Nat → List Token → Expr → Prop
  | tighter {n : Nat} {ts : List Token} {e : Expr} (h : Derives resolve (n + 1) ts e) :
      Derives resolve n ts e
  | binary {n : Nat} {op : Operator} {t : Token} {ts us : List Token} {l r : Expr}
      (hop : op ∈ operatorsAt n) (ht : t.kind = .operator op) (hleft : Derives resolve n ts l)
      (hright : Derives resolve (n + 1) us r) :
      Derives resolve n (ts ++ t :: us) (.binary op l r t.location)
  | not {t : Token} {ts : List Token} {e : Expr} (ht : t.kind = .operator .not)
      (h : Derives resolve 6 ts e) :
      Derives resolve 6 (t :: ts) (.unary .not e t.location)
  | step {op : Operator} {t : Token} {ts : List Token} {r : Reference}
      (hop : op.isStep = true) (ht : t.kind = .operator op)
      (h : Derives resolve 8 ts (.reference r)) :
      Derives resolve 7 (ts ++ [t]) (.unary op (.reference r) t.location)
  | numeral {t : Token} {value : Numeral} (ht : t.kind = .numeral value) :
      Derives resolve 8 [t] (.numeral value t.location)
  | reference {t : Token} {name : String} {v : Variable} (ht : t.kind = .identifier name)
      (hv : resolve name = some v) : Derives resolve 8 [t] (.reference ⟨v, t.location⟩)
  | group {t u : Token} {ts : List Token} {e : Expr} (ht : t.kind = .operator .leftParen)
      (h : Derives resolve 0 ts e) (hu : u.kind = .operator .rightParen) :
      Derives resolve 8 (t :: (ts ++ [u])) e

/-! ### Operands and operators -/

/-- Whether each token is where its kind belongs: an operand, a `!` and a `(` where an operand is
wanted, a binary operator, a step and a `)` after an operand. -/
def inPlace : Bool → List Token → Bool
  | _, [] => true
  | wanted, t :: ts =>
    match t.kind with
    | .numeral _ | .identifier _ => wanted && inPlace false ts
    | .operator op =>
      if op = .leftParen || op = .not then wanted && inPlace true ts
      else if op.isStep || op = .rightParen then !wanted && inPlace false ts
      else op.isBinary && !wanted && inPlace true ts
    | _ => false

/-- The tokens that are no line breaks. -/
def significant (ts : List Token) : List Token := ts.filter (!·.isEndOfLine)

/-- Whether an operand has to come after a token. -/
def leavesWanting (t : Token) : Bool :=
  match t.operator? with
  | some op => op.isBinary || op = .not || op = .leftParen
  | none => false

/-- Whether line breaks only stand where an expression goes on: in front of a `\x7b` anywhere, or
else where an operand is wanted. -/
def breaksIgnored (terminal : Operator) : Bool → List Token → Bool
  | _, [] => true
  | wanted, t :: ts =>
    if t.isEndOfLine then (terminal == .leftBrace || wanted) && breaksIgnored terminal wanted ts
    else breaksIgnored terminal (leavesWanting t) ts

/-! ### Ranks and precedences -/

/-- The rank of a binary operator is its precedence. -/
theorem mem_operatorsAt {op : Operator} {n : Nat} :
    op ∈ operatorsAt n ↔ op.isBinary = true ∧ op.precedence = n := by
  constructor
  · intro h
    match n, h with
    | 0, h | 1, h | 2, h | 3, h | 4, h | 5, h =>
      simp only [operatorsAt, List.mem_cons, List.not_mem_nil, or_false] at h
      rcases h with rfl | rfl | rfl | rfl <;> exact ⟨rfl, rfl⟩
    | _ + 6, h => simp [operatorsAt] at h
  · rintro ⟨hop, hn⟩
    cases op <;> first | contradiction | skip
    all_goals
      simp only [Operator.precedence] at hn
      obtain rfl : n = _ := by exact_mod_cast hn.symm
      simp [operatorsAt]

theorem le_five_of_mem_operatorsAt {op : Operator} {n : Nat} (h : op ∈ operatorsAt n) : n ≤ 5 := by
  by_cases hn : n ≤ 5
  · exact hn
  · obtain ⟨m, rfl⟩ : ∃ m, n = m + 6 := ⟨n - 6, by omega⟩
    simp [operatorsAt] at h

/-! ### Taking turns -/

section Place

variable {t : Token} {op : Operator} (wanted : Bool) (rest : List Token)

theorem inPlace_before (ht : t.kind = .operator op) (hop : op = .leftParen ∨ op = .not) :
    inPlace wanted (t :: rest) = (wanted && inPlace true rest) := by
  rcases hop with rfl | rfl <;> simp [inPlace, ht]

theorem inPlace_after (ht : t.kind = .operator op) (hop : op.isStep = true ∨ op = .rightParen) :
    inPlace wanted (t :: rest) = (!wanted && inPlace false rest) := by
  cases op <;> simp_all [inPlace, Operator.isStep]

theorem inPlace_binary (ht : t.kind = .operator op) (hop : op.isBinary = true) :
    inPlace wanted (t :: rest) = (!wanted && inPlace true rest) := by
  cases op <;> simp_all [inPlace, Operator.isBinary, Operator.isStep]

end Place

variable {resolve : String → Option Variable} {n : Nat} {ts : List Token} {e : Expr}

/-- An expression stands where an operand is wanted, and leaves no operand wanting. -/
theorem Derives.inPlace_append (h : Derives resolve n ts e) (rest : List Token) :
    inPlace true (ts ++ rest) = inPlace false rest := by
  induction h generalizing rest with
  | tighter _ ih => exact ih rest
  | @binary n op t ts us l r hop ht _ _ ihLeft ihRight =>
    rw [List.append_assoc, List.cons_append, ihLeft, inPlace_binary _ _ ht (mem_operatorsAt.1 hop).1,
      ihRight]
    rfl
  | not ht _ ih =>
    rw [List.cons_append, inPlace_before _ _ ht (.inr rfl), ih]
    rfl
  | step hop ht _ ih =>
    rw [List.append_assoc, ih, List.singleton_append, inPlace_after _ _ ht (.inl hop)]
    rfl
  | numeral ht => simp [inPlace, ht]
  | reference ht _ => simp [inPlace, ht]
  | group ht _ hu ih =>
    rw [List.cons_append, List.append_assoc, inPlace_before _ _ ht (.inl rfl), ih,
      List.singleton_append, inPlace_after _ _ hu (.inr rfl)]
    rfl

theorem Derives.inPlace (h : Derives resolve n ts e) : inPlace true ts = true := by
  have happend := h.inPlace_append []
  rwa [List.append_nil] at happend

/-- An expression of some rank is an expression of every looser one. -/
theorem Derives.of_le {m : Nat} (h : Derives resolve n ts e) (hm : m ≤ n) :
    Derives resolve m ts e := by
  induction hm with
  | refl => exact h
  | step _ ih => exact ih h.tighter

end FloatLang.Infix
