import FloatLang.Proofs.Infix.Stack
import FloatLang.Proofs.Tree.Parts

/-!
# Assembled trees are proper

Whatever a yard takes, in whatever order, the trees that are assembled in the end have operators
with as many operands as they take, steps of variables only, and no other names than those that
were taken.

## Main definitions

* `Expr.Proper` — a proper expression that uses allowed variables only
* `Postfix.Yard.Proper` — a yard that holds such expressions and operators

## Main results

* `Postfix.Yard.Proper.takeAll?` — taking tokens keeps a yard proper
* `Postfix.proper_of_assemble` — a tree assembled from a proper yard is proper
-/

namespace FloatLang

/-- A proper expression in which only the allowed uses of variables occur. -/
structure Expr.Proper (allowed : Reference → Prop) (e : Expr) : Prop where
  isProper : e.isProper = true
  used : ∀ r ∈ e.references, allowed r

namespace Postfix

variable {allowed : Reference → Prop} {op : Operator} {l : Location} {a b e : Expr}

/-! ### Operators over proper operands -/

theorem proper_numeral (value : Numeral) (l : Location) :
    (Expr.numeral value l).Proper allowed where
  isProper := rfl
  used := by simp [Expr.references]

theorem proper_reference {r : Reference} (h : allowed r) : (Expr.reference r).Proper allowed where
  isProper := rfl
  used := by simpa [Expr.references] using h

theorem proper_unary (hop : op.isUnary = true) (hstep : (op.isStep && !e.isReference) = false)
    (he : e.Proper allowed) : (Expr.unary op e l).Proper allowed where
  isProper := by
    obtain ⟨hshape, hsteps⟩ := Bool.and_eq_true_iff.1 he.isProper
    have hallowed : (!op.isStep || e.isReference) = true := by
      cases hs : op.isStep <;> simp_all
    simp [Expr.isProper, isInfix, stepsVariables, hop, hshape, hsteps, hallowed]
  used := he.used

theorem proper_binary (hop : op.isBinary = true) (ha : a.Proper allowed) (hb : b.Proper allowed) :
    (Expr.binary op a b l).Proper allowed where
  isProper := by
    obtain ⟨hshapea, hstepsa⟩ := Bool.and_eq_true_iff.1 ha.isProper
    obtain ⟨hshapeb, hstepsb⟩ := Bool.and_eq_true_iff.1 hb.isProper
    simp [Expr.isProper, isInfix, stepsVariables, hop, hshapea, hshapeb, hstepsa, hstepsb]
  used r hr := (List.mem_append.1 hr).elim (ha.used r) (hb.used r)

/-! ### Assembling -/

/-- A proper operand, or an operator that has operands. -/
def Item.Proper (allowed : Reference → Prop) : Item → Prop
  | .operand e => e.Proper allowed
  | .operator op _ => op.isUnary = true ∨ op.isBinary = true

/-- An operator whose operands so far are proper. -/
def Frame.Proper (allowed : Reference → Prop) : Frame → Prop
  | .last op _ => op.isUnary = true ∨ op.isBinary = true
  | .first op _ right => op.isBinary = true ∧ right.Proper allowed

/-- What is settled with proper operands. -/
def Settled.Proper (allowed : Reference → Prop) : Settled → Prop
  | .root e => e.Proper allowed
  | .lacking frames => ∀ frame ∈ frames, frame.Proper allowed

theorem proper_of_settle {frames : List Frame} {outcome : Settled} (h : settle frames e = .ok outcome)
    (hframes : ∀ frame ∈ frames, frame.Proper allowed) (he : e.Proper allowed) :
    outcome.Proper allowed := by
  induction frames generalizing e with
  | nil =>
    obtain rfl := Except.ok.inj h
    exact he
  | cons frame frames ih =>
    rw [List.forall_mem_cons] at hframes
    obtain ⟨hframe, hframes⟩ := hframes
    cases frame with
    | first op l right => exact ih h hframes (proper_binary hframe.1 he hframe.2)
    | last op l =>
      rw [settle] at h
      split at h
      next hop =>
        split at h
        · contradiction
        next hstep => exact ih h hframes (proper_unary hop (Bool.eq_false_iff.2 hstep) he)
      next hop =>
        -- the operator waits for its left operand now
        obtain rfl := Except.ok.inj h
        have hbinary : op.isBinary = true := hframe.resolve_left hop
        exact List.forall_mem_cons.2 ⟨⟨hbinary, he⟩, hframes⟩

theorem proper_of_assembleWith {start : Location} {frames : List Frame} {items rest : List Item}
    (h : assembleWith start frames items = .ok (e, rest))
    (hframes : ∀ frame ∈ frames, frame.Proper allowed)
    (hitems : ∀ item ∈ items, item.Proper allowed) : e.Proper allowed := by
  induction items generalizing frames with
  | nil => simp [assembleWith] at h
  | cons item items ih =>
    rw [List.forall_mem_cons] at hitems
    obtain ⟨hitem, hitems⟩ := hitems
    cases item with
    | operator op l => exact ih h (List.forall_mem_cons.2 ⟨hitem, hframes⟩) hitems
    | operand operand =>
      rw [assembleWith] at h
      split at h
      · contradiction
      next root hsettle =>
        obtain ⟨rfl, -⟩ := Prod.mk.inj (Except.ok.inj h)
        exact proper_of_settle hsettle hframes hitem
      next frames hsettle => exact ih h (proper_of_settle hsettle hframes hitem) hitems

/-- What is assembled from proper items is proper. -/
theorem proper_of_assemble {start : Location} {items : List Item} (h : assemble start items = .ok e)
    (hitems : ∀ item ∈ items, item.Proper allowed) : e.Proper allowed :=
  proper_of_assembleWith (assemble_eq_ok.1 h) (by simp) hitems

/-! ### Taking tokens -/

/-- What may wait in a yard: an opening parenthesis, or an operator that has operands. -/
def mayWait (op : Operator) : Prop := op = .leftParen ∨ op.isUnary = true ∨ op.isBinary = true

/-- A yard that holds proper operands and operators that have operands. -/
structure Yard.Proper (allowed : Reference → Prop) (y : Yard) : Prop where
  waiting : ∀ x ∈ y.waiting, mayWait x.1
  items : ∀ item ∈ y.items, item.Proper allowed

theorem proper_release {ops : List (Operator × Location)} {items : List Item}
    (hops : ∀ x ∈ ops, x.1 ≠ .leftParen ∧ mayWait x.1)
    (hitems : ∀ item ∈ items, item.Proper allowed) :
    ∀ item ∈ release ops items, item.Proper allowed := by
  induction ops generalizing items with
  | nil => exact hitems
  | cons x ops ih =>
    rw [List.forall_mem_cons] at hops
    obtain ⟨⟨hparen, hwait⟩, hops⟩ := hops
    exact ih hops (List.forall_mem_cons.2 ⟨hwait.resolve_left hparen, hitems⟩)

namespace Yard

variable {y y' : Yard}

theorem proper_start : ({} : Yard).Proper allowed := ⟨by simp, by simp⟩

theorem Proper.operand (h : y.Proper allowed) (he : e.Proper allowed) :
    (y.operand e).Proper allowed :=
  ⟨h.waiting, List.forall_mem_cons.2 ⟨he, h.items⟩⟩

theorem Proper.wait (h : y.Proper allowed) (hop : mayWait op) : (y.wait op l).Proper allowed :=
  ⟨List.forall_mem_cons.2 ⟨hop, h.waiting⟩, h.items⟩

theorem Proper.close? (h : y.Proper allowed) (hclose : y.close? = some y') : y'.Proper allowed := by
  obtain ⟨inside, l, outside, hwaiting, hinside, rfl⟩ := close?_eq_some hclose
  have hwait := h.waiting
  rw [hwaiting, List.forall_mem_append, List.forall_mem_cons] at hwait
  obtain ⟨hdone, -, hleft⟩ := hwait
  exact ⟨hleft, proper_release (fun x hx => ⟨hinside x hx, hdone x hx⟩) h.items⟩

/-- An operator that binds at least as tightly as a binary one is no parenthesis. -/
theorem ne_leftParen_of_precedence_le {op' : Operator} (hop : op.isBinary = true)
    (h : op.precedence ≤ op'.precedence) : op' ≠ .leftParen := by
  rintro rfl
  cases op <;> contradiction

theorem Proper.infixed (h : y.Proper allowed) (hop : op.isBinary = true) :
    (y.infixed op l).Proper allowed where
  waiting := by
    have hsuffix := List.dropWhile_suffix (l := y.waiting) (decide <| op.precedence ≤ ·.1.precedence)
    exact List.forall_mem_cons.2
      ⟨.inr (.inr hop), fun x hx => h.waiting x (hsuffix.subset hx)⟩
  items := by
    apply proper_release _ h.items
    intro x hx
    have hle := List.all_eq_true.1 List.all_takeWhile x hx
    exact ⟨ne_leftParen_of_precedence_le hop (of_decide_eq_true hle),
      h.waiting x ((List.takeWhile_prefix _).subset hx)⟩

/-- The operators that may stand in an expression. -/
theorem cases_of_precedence (h : op.precedence ≠ Operator.outside) :
    (op = .leftParen ∨ op = .not) ∨ op.isStep = true ∨ op = .rightParen ∨ op.isBinary = true := by
  cases op <;> simp_all [Operator.precedence, Operator.isStep, Operator.isBinary]

variable {resolve : String → Option Variable} {t : Token}

/-- A token that is taken keeps a yard proper, if what its name refers to may be used. -/
theorem Proper.take? (h : y.Proper allowed) (htake : y.take? resolve t = some y')
    (ht : ∀ x v, t.kind = .identifier x → resolve x = some v → allowed ⟨v, t.location⟩) :
    y'.Proper allowed := by
  cases hkind : t.kind with
  | numeral value =>
    simp only [Yard.take?, hkind] at htake
    obtain rfl := Option.some.inj htake
    exact h.operand (proper_numeral value t.location)
  | identifier x =>
    simp only [Yard.take?, hkind] at htake
    obtain ⟨v, hv, rfl⟩ := Option.map_eq_some_iff.1 htake
    exact h.operand (proper_reference (ht x v hkind hv))
  | endOfLine =>
    simp only [Yard.take?, hkind] at htake
    obtain rfl := Option.some.inj htake
    exact h
  | operator op =>
    have hop := precedence_of_take? hkind htake
    rcases cases_of_precedence hop with hbefore | hstep | rfl | hbinary
    · rw [take?_before hkind hbefore] at htake
      obtain rfl := Option.some.inj htake
      have hwait : mayWait op := by rcases hbefore with rfl | rfl <;> simp [mayWait, Operator.isUnary]
      have hproper : (y.wait op t.location).Proper allowed := h.wait hwait
      exact ⟨hproper.waiting, hproper.items⟩
    · rw [take?_step hkind hstep] at htake
      obtain rfl := Option.some.inj htake
      have hunary : op.isUnary = true := by cases op <;> first | rfl | contradiction
      exact ⟨h.waiting, List.forall_mem_cons.2 ⟨.inl hunary, h.items⟩⟩
    · rw [take?_rightParen hkind] at htake
      obtain ⟨closed, hclosed, rfl⟩ := Option.map_eq_some_iff.1 htake
      have hproper := h.close? hclosed
      exact ⟨hproper.waiting, hproper.items⟩
    · rw [take?_binary hkind hbinary] at htake
      obtain rfl := Option.some.inj htake
      have hproper : (y.infixed op t.location).Proper allowed := h.infixed hbinary
      exact ⟨hproper.waiting, hproper.items⟩
  | _ => simp [Yard.take?, hkind] at htake

/-- Tokens that are taken keep a yard proper, if what their names refer to may be used. -/
theorem Proper.takeAll? {ts : List Token} (h : y.Proper allowed)
    (htake : y.takeAll? resolve ts = some y')
    (hts : ∀ t ∈ ts, ∀ x v, t.kind = .identifier x → resolve x = some v → allowed ⟨v, t.location⟩) :
    y'.Proper allowed :=
  takeAll?_induction (motive := fun _ z => z.Proper allowed) htake h
    fun _ _ t _ ht hproper hstep => hproper.take? hstep (hts t ht)

/-- All items of a yard are proper, if no parenthesis is open. -/
theorem Proper.finish (h : y.Proper allowed) (hclosed : y.openParentheses = []) :
    ∀ item ∈ y.finish, item.Proper allowed := by
  apply proper_release _ h.items
  intro x hx
  exact ⟨not_leftParen_of_openParentheses hclosed x hx, h.waiting x hx⟩

end Yard

end Postfix

end FloatLang
