import Mathlib.Algebra.Ring.Int.Defs
import FloatLang.Postfix

/-!
# Assembling trees

A tree has one postfix sequence, and assembling that sequence gives the tree back, unless some
step is applied to something other than a variable. No sequence with too few operands, or too
many, is assembled at all.

## Main definitions

* `Postfix.code` — the postfix sequence of a tree, from its end
* `Postfix.isInfix` — every operator of a tree has as many operands as it takes
* `Postfix.stepsVariables` — every step of a tree is applied to a variable
* `Postfix.weight` — how many more operands a sequence offers than it asks for

## Main results

* `Postfix.assembleWith_code` — a sequence that starts with the code of a tree
* `Postfix.assemble_code_iff` — the code of a tree gives the tree back, or nothing
* `Postfix.weight_eq_one` — what is assembled offers one operand
-/

namespace FloatLang.Postfix

/-- The postfix sequence of a tree, its last item first. -/
def code : Expr → List Item
  | .unary op e l => .operator op l :: code e
  | .binary op a b l => .operator op l :: (code b ++ code a)
  | e => [.operand e]

/-- Whether a tree consists of variables, numerals and operators, each with the operands it
takes. -/
def isInfix : Expr → Bool
  | .unary op e _ => op.isUnary && isInfix e
  | .binary op a b _ => op.isBinary && isInfix a && isInfix b
  | .reference _ | .numeral .. => true
  | .invalid _ | .condition .. => false

/-- Whether every step in a tree is applied to a variable. -/
def stepsVariables : Expr → Bool
  | .unary op e _ => (!op.isStep || e.isReference) && stepsVariables e
  | .binary _ a b _ => stepsVariables a && stepsVariables b
  | _ => true

theorem isUnary_of_isBinary {op : Operator} (h : op.isBinary = true) : op.isUnary = false := by
  cases op <;> first | rfl | contradiction

variable (start : Location)

/-- The code of a tree acts as the tree itself. -/
theorem assembleWith_code {e : Expr} (he : isInfix e = true) (hsteps : stepsVariables e = true)
    (frames : List Frame) (items : List Item) :
    assembleWith start frames (code e ++ items) =
      assembleWith start frames (.operand e :: items) := by
  induction e generalizing frames items with
  | invalid l => rfl
  | condition e l _ => rfl
  | reference r => rfl
  | numeral value l => rfl
  | unary op e l ih =>
    rw [isInfix, Bool.and_eq_true] at he
    rw [stepsVariables, Bool.and_eq_true] at hsteps
    obtain ⟨hop, he⟩ := he
    obtain ⟨hstep, hsteps⟩ := hsteps
    have hallowed : ¬ (op.isStep && !e.isReference) = true := by
      cases hs : op.isStep <;> simp_all
    rw [code, List.cons_append, assembleWith, ih he hsteps, assembleWith, assembleWith, settle,
      if_pos hop, if_neg hallowed]
  | binary op a b l iha ihb =>
    rw [isInfix, Bool.and_eq_true, Bool.and_eq_true] at he
    rw [stepsVariables, Bool.and_eq_true] at hsteps
    obtain ⟨⟨hop, ha⟩, hb⟩ := he
    obtain ⟨hstepsa, hstepsb⟩ := hsteps
    -- the last item comes first, so the right operand is assembled before the left one
    have hunary : ¬ op.isUnary = true := by simp [isUnary_of_isBinary hop]
    have hright : settle (.last op l :: frames) b = .ok (.lacking (.first op l b :: frames)) := by
      rw [settle, if_neg hunary]
    have hleft : settle (.first op l b :: frames) a = settle frames (.binary op a b l) := rfl
    rw [code, List.cons_append, assembleWith, List.append_assoc, ihb hb hstepsb, assembleWith,
      hright]
    dsimp only
    rw [iha ha hstepsa, assembleWith, hleft, assembleWith]

/-- A step that is applied to something other than a variable is an error. -/
theorem assembleWith_code_error {e : Expr} (he : isInfix e = true)
    (hsteps : stepsVariables e = false) (frames : List Frame) (items : List Item) :
    ∃ complaint, assembleWith start frames (code e ++ items) = .error complaint := by
  induction e generalizing frames items with
  | invalid l => simp [stepsVariables] at hsteps
  | condition e l _ => simp [stepsVariables] at hsteps
  | reference r => simp [stepsVariables] at hsteps
  | numeral value l => simp [stepsVariables] at hsteps
  | unary op e l ih =>
    rw [isInfix, Bool.and_eq_true] at he
    obtain ⟨hop, he⟩ := he
    rw [code, List.cons_append, assembleWith]
    by_cases hinner : stepsVariables e = true
    · -- the operand is assembled, and this step is the one that fails
      have hfails : (op.isStep && !e.isReference) = true := by
        rw [stepsVariables, hinner, Bool.and_true] at hsteps
        cases hs : op.isStep <;> simp_all
      rw [assembleWith_code start he hinner, assembleWith, settle, if_pos hop, if_pos hfails]
      exact ⟨_, rfl⟩
    · exact ih he (Bool.eq_false_iff.2 hinner) _ _
  | binary op a b l iha ihb =>
    rw [isInfix, Bool.and_eq_true, Bool.and_eq_true] at he
    obtain ⟨⟨hop, ha⟩, hb⟩ := he
    have hunary : ¬ op.isUnary = true := by simp [isUnary_of_isBinary hop]
    rw [code, List.cons_append, assembleWith, List.append_assoc]
    by_cases hinner : stepsVariables b = true
    · have hleft : stepsVariables a = false := by
        rw [stepsVariables, hinner, Bool.and_true] at hsteps
        exact hsteps
      rw [assembleWith_code start hb hinner, assembleWith, settle, if_neg hunary]
      exact iha ha hleft _ _
    · exact ihb hb (Bool.eq_false_iff.2 hinner) _ _

/-- Assembling the code of a tree gives the tree back, if its steps allow it, and nothing else. -/
theorem assemble_code_iff {start : Location} {e e' : Expr} (he : isInfix e = true) :
    assemble start (code e) = .ok e' ↔ stepsVariables e = true ∧ e' = e := by
  have happend := List.append_nil (code e)
  by_cases hsteps : stepsVariables e = true
  · have hcode := assembleWith_code start he hsteps [] []
    rw [happend, assembleWith, settle] at hcode
    simp [assemble, hcode, hsteps, eq_comm]
  · obtain ⟨complaint, hcode⟩ :=
      assembleWith_code_error start he (Bool.eq_false_iff.2 hsteps) [] []
    rw [happend] at hcode
    simp [assemble, hcode, hsteps]

/-! ### Counting operands -/

variable {start : Location}

/-- An operand offers one, an operator with two operands asks for one more than it offers. -/
def Item.weight : Item → Int
  | .operand _ => 1
  | .operator op _ => if op.isUnary then 0 else -1

/-- How many more operands a sequence offers than it asks for. -/
def weight (items : List Item) : Int := (items.map Item.weight).sum

@[simp] theorem weight_nil : weight [] = 0 := rfl

@[simp] theorem weight_cons (item : Item) (items : List Item) :
    weight (item :: items) = item.weight + weight items := rfl

@[simp] theorem weight_append (items items' : List Item) :
    weight (items ++ items') = weight items + weight items' := by
  simp [weight]

theorem weight_code {e : Expr} (he : isInfix e = true) : weight (code e) = 1 := by
  induction e with
  | invalid l => simp [isInfix] at he
  | condition e l _ => simp [isInfix] at he
  | reference r => rfl
  | numeral value l => rfl
  | unary op e l ih =>
    rw [isInfix, Bool.and_eq_true] at he
    simp [code, Item.weight, he.1, ih he.2]
  | binary op a b l iha ihb =>
    rw [isInfix, Bool.and_eq_true, Bool.and_eq_true] at he
    simp [code, Item.weight, isUnary_of_isBinary he.1.1, iha he.1.2, ihb he.2]

/-- The operands that a frame asks for, but the one at hand. -/
def Frame.wants : Frame → Int
  | .last op _ => if op.isUnary then 0 else 1
  | .first .. => 0

/-- How many operands the frames ask for, but one. -/
def wants (frames : List Frame) : Int := (frames.map Frame.wants).sum

theorem wants_cons (frame : Frame) (frames : List Frame) :
    wants (frame :: frames) = frame.wants + wants frames := rfl

/-- How many operands are asked for after an operand was handed over. -/
def Settled.wants : Settled → Int
  | .root _ => 0
  | .lacking frames => Postfix.wants frames + 1

/-- Handing over an operand meets one of the wants, or the last of them. -/
theorem wants_settle {frames : List Frame} {e : Expr} {outcome : Settled}
    (h : settle frames e = .ok outcome) : wants frames = outcome.wants := by
  induction frames generalizing e with
  | nil =>
    obtain rfl := Except.ok.inj h
    rfl
  | cons frame frames ih =>
    -- a frame whose right operand is settled wants the left one next
    cases frame with
    | first op l right =>
      rw [wants_cons, Frame.wants, Int.zero_add]
      exact ih h
    | last op l =>
      rw [wants_cons, Frame.wants]
      rw [settle] at h
      by_cases hop : op.isUnary = true
      · rw [if_pos hop] at h ⊢
        rw [Int.zero_add]
        split at h
        · contradiction
        · exact ih h
      · rw [if_neg hop] at h ⊢
        obtain rfl := Except.ok.inj h
        rw [Settled.wants, wants_cons, Frame.wants, Int.zero_add, Int.add_comm]

/-- The items that are taken offer an operand for each want. -/
theorem weight_assembleWith {frames : List Frame} {items rest : List Item} {e : Expr}
    (h : assembleWith start frames items = .ok (e, rest)) :
    weight items = weight rest + 1 + wants frames := by
  induction items generalizing frames with
  | nil => simp [assembleWith] at h
  | cons item items ih =>
    -- an operator adds its wants to the frames, an operand meets one of them
    cases item with
    | operator op l =>
      rw [assembleWith] at h
      have hitems := ih h
      rw [wants_cons, Frame.wants] at hitems
      rw [weight_cons, Item.weight]
      by_cases hop : op.isUnary = true
      · rw [if_pos hop] at hitems ⊢
        omega
      · rw [if_neg hop] at hitems ⊢
        omega
    | operand e =>
      rw [assembleWith] at h
      rw [weight_cons, Item.weight]
      split at h
      · contradiction
      next hsettle =>
        have hwants := wants_settle hsettle
        rw [Settled.wants] at hwants
        obtain ⟨-, rfl⟩ := Prod.mk.inj (Except.ok.inj h)
        omega
      next left hsettle =>
        have hwants := wants_settle hsettle
        rw [Settled.wants] at hwants
        have hitems := ih h
        omega

/-- A sequence gives a tree if it is the sequence of one tree, with nothing in front. -/
theorem assemble_eq_ok {items : List Item} {e : Expr} :
    assemble start items = .ok e ↔ assembleWith start [] items = .ok (e, []) := by
  unfold assemble
  split <;> simp_all

/-- A sequence that gives no tree lacks operands, or there is something in front of its last tree. -/
theorem assemble_eq_error {items : List Item} {c : Complaint} (h : assemble start items = .error c) :
    assembleWith start [] items = .error c ∨
      ∃ e rest, assembleWith start [] items = .ok (e, rest) ∧
        c = ⟨e.leftmost.location, .semicolonExpected e.leftmost.text⟩ := by
  unfold assemble at h
  split at h
  next hassemble =>
    obtain rfl := Except.error.inj h
    exact .inl hassemble
  · contradiction
  next hassemble =>
    obtain rfl := Except.error.inj h
    exact .inr ⟨_, _, hassemble, rfl⟩

/-- A sequence that gives a tree offers exactly one operand. -/
theorem weight_eq_one {items : List Item} {e : Expr} (h : assemble start items = .ok e) :
    weight items = 1 := by
  have hweight := weight_assembleWith (assemble_eq_ok.1 h)
  exact hweight

end FloatLang.Postfix
