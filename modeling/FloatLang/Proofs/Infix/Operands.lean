import Mathlib.Data.Multiset.MapFold
import FloatLang.Proofs.Infix.Content
import FloatLang.Proofs.Infix.Reading
import FloatLang.Proofs.Parser.Totality
import FloatLang.Proofs.Scope.Growth

/-!
# Operands and operators are kept

Whatever tokens a tree is made of, and in whatever order they were written, its leaves are the
operands among them, in the same order, and its nodes are the operators among them, each at its own
place and with as many operands as it takes. Nothing is lost on the way, nothing comes twice, and no
two operands change places.

## Main definitions

* `Expr.leaves`, `Expr.nodes` — the operands and the operations of a tree
* `Token.isOperand`, `Token.isOperation` — the tokens that operands and operations are written with
* `Token.Names`, `Token.Heads` — a token is that of an operand, or of an operation

## Main results

* `Postfix.leaves_of_assemble` — assembling keeps the order of operands
* `Postfix.Yard.operands_takeAll?` — so does a yard
* `Postfix.rel_nodes` — every node has the operator of one token
* `Parser.expression_keeps_operands` — what a parser makes a tree of is in the tree
-/

namespace FloatLang

/-! ### Leaves and nodes -/

namespace Expr

/-- The operands of an expression that are no operations themselves, from left to right. -/
def leaves : Expr → List Expr
  | unary _ operand _ => operand.leaves
  | binary _ left right _ => left.leaves ++ right.leaves
  | condition inner _ => inner.leaves
  | e => [e]

/-- The operations in an expression. -/
def nodes : Expr → List Expr
  | unary op operand l => unary op operand l :: operand.nodes
  | binary op left right l => binary op left right l :: (left.nodes ++ right.nodes)
  | condition inner _ => inner.nodes
  | _ => []

/-- The operator of an operation. -/
def operator? : Expr → Option Operator
  | unary op _ _ => some op
  | binary op _ _ _ => some op
  | _ => none

end Expr

namespace Token

/-- Whether a token is an operand: a numeral or a name. -/
def isOperand (t : Token) : Bool := t.numeral?.isSome || t.identifier?.isSome

/-- Whether a token is an operator other than a parenthesis. -/
def isOperation (t : Token) : Bool :=
  t.operator?.isSome && !t.isOperator .leftParen && !t.isOperator .rightParen

/-- The token names an operand, which has its value, or is the variable that it resolves to, and
stands where the token does. -/
inductive Names (resolve : String → Option Variable) (t : Token) : Expr → Prop
  | numeral {value : Numeral} (h : t.kind = .numeral value) :
      Names resolve t (.numeral value t.location)
  | reference {x : String} {v : Variable} (h : t.kind = .identifier x) (hv : resolve x = some v) :
      Names resolve t (.reference ⟨v, t.location⟩)

/-- The token is the operator of an operation, which stands where the token does. -/
inductive Heads (t : Token) : Expr → Prop
  | unary {op : Operator} {e : Expr} (h : t.kind = .operator op) (hop : op.isUnary = true) :
      Heads t (.unary op e t.location)
  | binary {op : Operator} {a b : Expr} (h : t.kind = .operator op) (hop : op.isBinary = true) :
      Heads t (.binary op a b t.location)

end Token

namespace Postfix

/-! ### Assembling keeps the order of operands -/

/-- The leaves of an item. -/
def Item.leaves : Item → List Expr
  | .operand e => e.leaves
  | .operator .. => []

/-- The leaves of items, the last of which comes first. -/
def leaves : List Item → List Expr
  | [] => []
  | item :: items => leaves items ++ item.leaves

/-- The leaves of the operands that an operator has already. -/
def Frame.leaves : Frame → List Expr
  | .last .. => []
  | .first _ _ right => right.leaves

/-- The leaves of what has become of an operand. -/
def Settled.leaves : Settled → List Expr
  | .root e => e.leaves
  | .lacking frames => frames.flatMap Frame.leaves

variable {frames : List Frame} {items rest : List Item} {start : Location} {e : Expr}

/-- An operand stands in front of whatever lacks it. -/
theorem leaves_of_settle {outcome : Settled} (h : settle frames e = .ok outcome) :
    outcome.leaves = e.leaves ++ frames.flatMap Frame.leaves := by
  induction frames generalizing e with
  | nil =>
    obtain rfl := Except.ok.inj h
    exact (List.append_nil _).symm
  | cons frame frames ih =>
    rw [List.flatMap_cons]
    cases frame with
    | first op l right => rw [ih h, Expr.leaves, Frame.leaves, List.append_assoc]
    | last op l =>
      rw [settle] at h
      split at h
      · split at h
        · contradiction
        · rw [ih h, Expr.leaves]
          rfl
      · obtain rfl := Except.ok.inj h
        rfl

theorem leaves_of_assembleWith (h : assembleWith start frames items = .ok (e, rest)) :
    leaves items ++ frames.flatMap Frame.leaves = leaves rest ++ e.leaves := by
  induction items generalizing frames with
  | nil => simp [assembleWith] at h
  | cons item items ih =>
    rw [leaves, List.append_assoc]
    cases item with
    | operator op l =>
      rw [assembleWith] at h
      have hleaves := ih h
      exact hleaves
    | operand operand =>
      rw [assembleWith] at h
      split at h
      · contradiction
      next root hsettle =>
        obtain ⟨rfl, rfl⟩ := Prod.mk.inj (Except.ok.inj h)
        exact congrArg (leaves _ ++ ·) (leaves_of_settle hsettle).symm
      next frames hsettle =>
        rw [← ih h]
        exact congrArg (leaves _ ++ ·) (leaves_of_settle hsettle).symm

/-- A tree has the leaves of its items. -/
theorem leaves_of_assemble (h : assemble start items = .ok e) : e.leaves = leaves items := by
  have hleaves := leaves_of_assembleWith (assemble_eq_ok.1 h)
  simpa [leaves] using hleaves.symm

/-- Operators that are done have no leaves. -/
theorem leaves_release (ops : List (Operator × Location)) (items : List Item) :
    leaves (release ops items) = leaves items := by
  induction ops generalizing items with
  | nil => rfl
  | cons x ops ih =>
    obtain ⟨op, l⟩ := x
    rw [release_cons, ih, leaves]
    exact List.append_nil _

/-! ### A yard keeps the order of operands -/

namespace Yard

variable {y y' : Yard} {resolve : String → Option Variable} {t : Token} {ts : List Token}

theorem leaves_close? (h : y.close? = some y') : leaves y'.items = leaves y.items := by
  obtain ⟨inside, l, outside, -, -, rfl⟩ := close?_eq_some h
  exact leaves_release _ _

/-- The token of an operator is none of an operand, and taking it adds no leaf. -/
theorem leaves_take?_operator {op : Operator} (hkind : t.kind = .operator op)
    (h : y.take? resolve t = some y') : leaves y'.items = leaves y.items := by
  rcases cases_of_precedence (precedence_of_take? hkind h) with hbefore | hstep | rfl | hbinary
  · rw [take?_before hkind hbefore] at h
    obtain rfl := Option.some.inj h
    rfl
  · rw [take?_step hkind hstep] at h
    obtain rfl := Option.some.inj h
    exact List.append_nil _
  · rw [take?_rightParen hkind] at h
    obtain ⟨closed, hclosed, rfl⟩ := Option.map_eq_some_iff.1 h
    have hleaves := leaves_close? hclosed
    exact hleaves
  · rw [take?_binary hkind hbinary] at h
    obtain rfl := Option.some.inj h
    exact leaves_release _ _

/-- A token that is taken adds the operand that it names, if it is the token of one. -/
theorem operands_take? (h : y.take? resolve t = some y') :
    ∃ es, leaves y'.items = leaves y.items ++ es ∧
      List.Forall₂ (Token.Names resolve) ([t].filter Token.isOperand) es := by
  have hnone (hoperand : t.isOperand = false) (hleaves : leaves y'.items = leaves y.items) :
      ∃ es, leaves y'.items = leaves y.items ++ es ∧
        List.Forall₂ (Token.Names resolve) ([t].filter Token.isOperand) es := by
    refine ⟨[], by rw [hleaves, List.append_nil], ?_⟩
    rw [List.filter_cons_of_neg (by simp [hoperand])]
    exact .nil
  cases hkind : t.kind with
  | numeral value =>
    simp only [take?, hkind] at h
    obtain rfl := Option.some.inj h
    refine ⟨[.numeral value t.location], rfl, ?_⟩
    rw [List.filter_cons_of_pos (by simp [Token.isOperand, Token.numeral?, hkind])]
    exact .cons (.numeral hkind) .nil
  | identifier x =>
    simp only [take?, hkind] at h
    obtain ⟨v, hv, rfl⟩ := Option.map_eq_some_iff.1 h
    refine ⟨[.reference ⟨v, t.location⟩], rfl, ?_⟩
    rw [List.filter_cons_of_pos (by simp [Token.isOperand, Token.identifier?, hkind])]
    exact .cons (.reference hkind hv) .nil
  | endOfLine =>
    simp only [take?, hkind] at h
    obtain rfl := Option.some.inj h
    exact hnone (by simp [Token.isOperand, Token.numeral?, Token.identifier?, hkind]) rfl
  | operator op =>
    exact hnone (by simp [Token.isOperand, Token.numeral?, Token.identifier?, hkind])
      (leaves_take?_operator hkind h)
  | _ => simp [take?, hkind] at h

/-- Tokens that are taken add the operands that they name, in the same order. -/
theorem operands_takeAll? (h : y.takeAll? resolve ts = some y') :
    ∃ es, leaves y'.items = leaves y.items ++ es ∧
      List.Forall₂ (Token.Names resolve) (ts.filter Token.isOperand) es := by
  refine takeAll?_induction (motive := fun us z => ∃ es, leaves z.items = leaves y.items ++ es ∧
      List.Forall₂ (Token.Names resolve) (us.filter Token.isOperand) es) h
    ⟨[], (List.append_nil _).symm, .nil⟩ fun us z t z' _ hus ht => ?_
  obtain ⟨es, hes, hnames⟩ := hus
  obtain ⟨es', hes', hnames'⟩ := operands_take? ht
  refine ⟨es ++ es', by rw [hes', hes, List.append_assoc], ?_⟩
  rw [List.filter_append]
  exact List.rel_append hnames hnames'

/-! ### Operators -/

/-- An operator that is taken, but for parentheses, is no punctuation. -/
theorem isPunctuation_of_take? {op : Operator} (h : y.take? resolve t = some y')
    (hkind : t.kind = .operator op) :
    op.isPunctuation = (op == .leftParen || op == .rightParen) := by
  have hop := precedence_of_take? hkind h
  cases op <;> first | rfl | exact absurd rfl hop

/-- A token that is taken is the operator of an operation unless it is a parenthesis. -/
theorem operators_take? (h : y.take? resolve t = some y') :
    ([t].filterMap Token.operation?).map (fun x => (some x.1, x.2)) =
      ([t].filter Token.isOperation).map fun t => (t.operator?, t.location) := by
  cases hkind : t.kind with
  | operator op =>
    have hpunctuation := isPunctuation_of_take? h hkind
    cases hparen : (op == Operator.leftParen || op == Operator.rightParen) with
    | true =>
      rw [hparen] at hpunctuation
      have hnone : t.isOperation = false := by
        rcases Bool.or_eq_true_iff.1 hparen with h | h <;>
          simp [Token.isOperation, Token.isOperator, Token.operator?, hkind, eq_of_beq h]
      simp [Token.operation?, hkind, hpunctuation, hnone]
    | false =>
      rw [hparen] at hpunctuation
      obtain ⟨hleft, hright⟩ := Bool.or_eq_false_iff.1 hparen
      have hsome : t.isOperation = true := by
        simp [Token.isOperation, Token.isOperator, Token.operator?, hkind, bne_iff_ne.1,
          beq_eq_false_iff_ne.1 hleft, beq_eq_false_iff_ne.1 hright]
      simp [Token.operation?, hkind, hpunctuation, hsome, Token.operator?]
  | _ => simp [Token.operation?, Token.isOperation, Token.operator?, hkind]

/-- The operators among tokens that are taken, each at its place. -/
theorem operators_takeAll? (h : y.takeAll? resolve ts = some y') :
    (ts.filterMap Token.operation?).map (fun x => (some x.1, x.2)) =
      (ts.filter Token.isOperation).map fun t => (t.operator?, t.location) := by
  refine takeAll?_induction (motive := fun us _ =>
      (us.filterMap Token.operation?).map (fun x => (some x.1, x.2)) =
        (us.filter Token.isOperation).map fun t => (t.operator?, t.location)) h
    rfl fun us z t z' _ hus ht => ?_
  rw [List.filterMap_append, List.filter_append, List.map_append, List.map_append, hus,
    operators_take? ht]

end Yard

/-! ### Nodes -/

/-- The operators of an expression are those of its nodes. -/
theorem operators_eq_nodes (e : Expr) :
    e.content.operators.map (fun x => (some x.1, x.2)) =
      (e.nodes.map fun n => (n.operator?, n.location) : Multiset (Option Operator × Location)) := by
  induction e with
  | invalid l => rfl
  | reference r => rfl
  | numeral value l => rfl
  | condition inner l ih => exact ih
  | unary op e l ih =>
    rw [Expr.content, Content.append_eq, Multiset.map_add, ih]
    rfl
  | binary op a b l iha ihb =>
    rw [Expr.content, Content.append_eq, Content.append_eq, Multiset.map_add, Multiset.map_add, iha,
      ihb, Expr.nodes, List.map_cons, List.map_append, ← Multiset.cons_coe, ← Multiset.coe_add,
      add_right_comm, Multiset.add_comm, ← Multiset.singleton_add]
    rfl

/-- Every node of a tree is an operator with as many operands as it takes. -/
theorem heads_of_mem_nodes {e n : Expr} (he : isInfix e = true) (hn : n ∈ e.nodes) {t : Token}
    (hoperator : t.operator? = n.operator?) (hlocation : t.location = n.location) : t.Heads n := by
  induction e with
  | unary op e l ih =>
    obtain ⟨hop, he⟩ := Bool.and_eq_true_iff.1 he
    rcases List.mem_cons.1 hn with rfl | hn
    · obtain rfl : t.location = l := hlocation
      exact .unary (Token.kind_of_operator? hoperator) hop
    · exact ih he hn
  | binary op a b l iha ihb =>
    obtain ⟨hshape, hb⟩ := Bool.and_eq_true_iff.1 he
    obtain ⟨hop, ha⟩ := Bool.and_eq_true_iff.1 hshape
    rcases List.mem_cons.1 hn with rfl | hn
    · obtain rfl : t.location = l := hlocation
      exact .binary (Token.kind_of_operator? hoperator) hop
    · exact (List.mem_append.1 hn).elim (iha ha) (ihb hb)
  | invalid l => contradiction
  | condition inner l ih => contradiction
  | reference r => simp [Expr.nodes] at hn
  | numeral value l => simp [Expr.nodes] at hn

variable {start : Location} {resolve : String → Option Variable} {ts : List Token} {y : Yard}
  {e : Expr}

/-- Every node of a tree has the operator of one of its tokens, each token that of one node. -/
theorem rel_nodes (hresolve : ∀ x v, resolve x = some v → v.name = x)
    (htake : Yard.takeAll? resolve {} ts = some y) (hclosed : y.openParentheses = [])
    (he : assemble start y.finish = .ok e) :
    Multiset.Rel Token.Heads (ts.filter Token.isOperation) e.nodes := by
  -- what the tree holds of its tokens says which operators stand in its nodes, and where
  have hcontent := congrArg Content.operators (content_of_takeAll? hresolve htake hclosed he)
  have hoperators : (ts.filter Token.isOperation : Multiset Token).map
        (fun t => (t.operator?, t.location)) =
      (e.nodes : Multiset Expr).map fun n => (n.operator?, n.location) := by
    rw [Multiset.map_coe, Multiset.map_coe, ← operators_eq_nodes, hcontent,
      ← Yard.operators_takeAll? htake]
    rfl
  have hrel := Multiset.rel_map.1 (Multiset.rel_eq.2 hoperators)
  have hproper : e.Proper fun _ => True := proper_of_assemble he
    ((Yard.proper_start.takeAll? htake fun _ _ _ _ _ _ => trivial).finish hclosed)
  have hinfix := (Bool.and_eq_true_iff.1 hproper.isProper).1
  refine hrel.mono fun t _ n hn heq => ?_
  obtain ⟨hoperator, hlocation⟩ := Prod.mk.inj heq
  exact heads_of_mem_nodes hinfix hn hoperator hlocation

end Postfix

namespace Parser

open Postfix

variable {p q : Parser} {terminal : Operator} {e : Expr}

/-- Of whatever tokens the parser makes a tree, in whatever order they are accepted, the leaves are
the operands among them, in their order, and the nodes are the operators among them. -/
theorem expression_keeps_operands (h : p.expression terminal = (some e, q)) :
    ∃ ts, p.Takes ts q ∧
      List.Forall₂ (Token.Names p.scopes.resolve?) (ts.filter Token.isOperand) e.leaves ∧
      Multiset.Rel Token.Heads (ts.filter Token.isOperation) e.nodes := by
  obtain ⟨ts, y, hts, htake, hclosed, he⟩ := expression_eq_some h
  obtain ⟨es, hes, hnames⟩ := Yard.operands_takeAll? htake
  have hleaves : e.leaves = es := by
    rw [leaves_of_assemble he, Yard.finish, leaves_release, hes]
    rfl
  refine ⟨ts, hts, hleaves ▸ hnames, ?_⟩
  exact rel_nodes (fun _ _ => p.scopes.name_of_resolve?) htake hclosed he

/-- Operators that come behind their operands are kept as well. -/
theorem expression_keeps_misplaced_operands :
    let p := (ofSource (.ofText ⟨"main"⟩ "float x\nx (!2 3 +) *;")).declaration.2
    ∃ e q, p.expression .semicolon = (some e, q) ∧ ∃ ts, p.Takes ts q ∧
      List.Forall₂ (Token.Names p.scopes.resolve?) (ts.filter Token.isOperand) e.leaves ∧
      Multiset.Rel Token.Heads (ts.filter Token.isOperation) e.nodes := by
  intro p
  have hsome : (p.expression .semicolon).1.isSome = true := by decide +kernel
  clear_value p
  obtain ⟨e, he⟩ := Option.isSome_iff_exists.1 hsome
  have hread : p.expression .semicolon = (some e, (p.expression .semicolon).2) := Prod.ext he rfl
  exact ⟨e, _, hread, expression_keeps_operands hread⟩

end Parser

end FloatLang
