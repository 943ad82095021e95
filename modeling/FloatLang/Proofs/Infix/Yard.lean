import FloatLang.Proofs.Infix.Assembly
import FloatLang.Proofs.Infix.Grammar
import FloatLang.Proofs.Lists
import Mathlib.Data.List.Induction

/-!
# The yard takes expressions

A yard takes the tokens of an expression one by one. Whatever waits in front of an expression
goes on waiting while the expression is taken, and its operands and operators leave the
postfix sequence of its tree.

## Main definitions

* `Postfix.Yard.take?`, `Postfix.Yard.takeAll?` — takes tokens, with names resolved
* `Postfix.Below` — what may wait in front of an expression
* `Postfix.TakenAs` — tokens that are taken as one operand

## Main results

* `Postfix.Yard.takeAll?_induction` — what holds while tokens are taken
* `Postfix.takenAs_of_derives` — an expression is taken as one operand
* `Postfix.assemble_of_derives` — an expression that is taken alone is assembled to its tree
-/

namespace FloatLang.Postfix

open Infix

/-! ### Taking tokens -/

namespace Yard

/-- Takes a token of an expression. Line breaks are passed over. -/
def take? (resolve : String → Option Variable) (y : Yard) (t : Token) : Option Yard :=
  match t.kind with
  | .endOfLine => some y
  | .numeral value => some (y.operand (.numeral value t.location))
  | .identifier name => (resolve name).map fun v => y.operand (.reference ⟨v, t.location⟩)
  | .operator op => if op.precedence = Operator.outside then none else y.shift? op t.location
  | _ => none

/-- Takes tokens, the first one first. -/
def takeAll? (resolve : String → Option Variable) (y : Yard) (ts : List Token) : Option Yard :=
  ts.foldlM (take? resolve) y

variable {resolve : String → Option Variable} {y : Yard} {t : Token}

@[simp] theorem takeAll?_nil : y.takeAll? resolve [] = some y := rfl

@[simp] theorem takeAll?_cons {ts : List Token} :
    y.takeAll? resolve (t :: ts) = (y.take? resolve t).bind (·.takeAll? resolve ts) := by
  simp [takeAll?]

theorem takeAll?_append {ts us : List Token} :
    y.takeAll? resolve (ts ++ us) = (y.takeAll? resolve ts).bind (·.takeAll? resolve us) := by
  simp [takeAll?]

/-- What holds before a token is taken, and goes on holding with each one that is, holds when all of them
are taken. -/
theorem takeAll?_induction {motive : List Token → Yard → Prop} {ts : List Token} {y' : Yard}
    (htake : y.takeAll? resolve ts = some y') (start : motive [] y)
    (step : ∀ us z t z', t ∈ ts → motive us z → z.take? resolve t = some z' →
      motive (us ++ [t]) z') : motive ts y' := by
  -- from the end of the tokens, since the motive is about those taken so far
  induction ts using List.reverseRecOn generalizing y' with
  | nil =>
    obtain rfl := Option.some.inj htake
    exact start
  | append_singleton ts t ih =>
    rw [takeAll?_append] at htake
    obtain ⟨z, hfront, hlast⟩ := Option.bind_eq_some_iff.1 htake
    rw [takeAll?_cons, Option.bind_eq_some_iff] at hlast
    obtain ⟨z', hlast, hdone⟩ := hlast
    obtain rfl := Option.some.inj hdone
    have hmotive := ih hfront fun us z t z' ht => step us z t z' (List.mem_append_left _ ht)
    exact step ts z t z' (by simp) hmotive hlast

/-- Among tokens that are taken each one is taken by some yard. -/
theorem exists_take?_of_mem {ts : List Token} {y' : Yard} (htake : y.takeAll? resolve ts = some y') :
    ∀ t ∈ ts, ∃ z z' : Yard, z.take? resolve t = some z' := by
  refine takeAll?_induction (motive := fun us _ => ∀ t ∈ us, ∃ z z' : Yard, z.take? resolve t = some z')
    htake (by simp) fun us z t z' _ hus ht => ?_
  rw [List.forall_mem_append, List.forall_mem_singleton]
  exact ⟨hus, z, z', ht⟩

theorem take?_endOfLine (ht : t.isEndOfLine = true) : y.take? resolve t = some y := by
  have hkind : t.kind = .endOfLine := by simpa [Token.isEndOfLine] using ht
  simp [take?, hkind]

/-- Line breaks make no difference to what is taken. -/
theorem takeAll?_significant (ts : List Token) :
    y.takeAll? resolve (significant ts) = y.takeAll? resolve ts := by
  induction ts generalizing y with
  | nil => rfl
  | cons t ts ih =>
    by_cases ht : t.isEndOfLine = true
    · rw [takeAll?_cons, take?_endOfLine ht, Option.bind_some, ← ih]
      simp [significant, ht]
    · have hcons : significant (t :: ts) = t :: significant ts := by simp [significant, ht]
      rw [hcons, takeAll?_cons, takeAll?_cons]
      simp only [ih]

/-- An operator that is taken can stand in an expression. -/
theorem precedence_of_take? {op : Operator} {y' : Yard} (ht : t.kind = .operator op)
    (h : y.take? resolve t = some y') : op.precedence ≠ Operator.outside := by
  intro hop
  simp [take?, ht, hop] at h

theorem take?_operator {op : Operator} (ht : t.kind = .operator op)
    (hop : op.precedence ≠ Operator.outside) : y.take? resolve t = y.shift? op t.location := by
  simp [take?, ht, hop]

theorem take?_before {op : Operator} (ht : t.kind = .operator op)
    (hop : op = .leftParen ∨ op = .not) :
    y.take? resolve t = some { y.wait op t.location with continues := true } := by
  rcases hop with rfl | rfl <;> rw [take?_operator ht (by decide)] <;> rfl

theorem take?_step {op : Operator} (ht : t.kind = .operator op) (hop : op.isStep = true) :
    y.take? resolve t =
      some { y with items := .operator op t.location :: y.items, continues := false } := by
  cases op <;> first | contradiction | (rw [take?_operator ht (by decide)]; rfl)

theorem take?_rightParen (ht : t.kind = .operator .rightParen) :
    y.take? resolve t = y.close?.map ({ · with continues := false }) := by
  rw [take?_operator ht (by decide)]
  rfl

theorem take?_binary {op : Operator} (ht : t.kind = .operator op) (hop : op.isBinary = true) :
    y.take? resolve t = some { y.infixed op t.location with continues := true } := by
  cases op <;> first | contradiction | (rw [take?_operator ht (by decide)]; rfl)

/-- A closing parenthesis is taken if an opening one waits; what waits inside of it is released. -/
theorem close?_eq_some {y' : Yard} (h : y.close? = some y') :
    ∃ inside l outside, y.waiting = inside ++ (.leftParen, l) :: outside ∧
      (∀ x ∈ inside, x.1 ≠ .leftParen) ∧
      y' = { y with waiting := outside, items := release inside y.items } := by
  have hsplit := List.takeWhile_append_dropWhile (p := (·.1 != .leftParen)) (l := y.waiting)
  have hinside := List.all_takeWhile (p := (·.1 != .leftParen)) (l := y.waiting)
  have hhead := List.head?_dropWhile_not (·.1 != .leftParen) y.waiting
  unfold close? at h
  dsimp only at h
  split at h
  · contradiction
  next x outside hdrop =>
    obtain rfl := Option.some.inj h
    rw [hdrop] at hsplit hhead
    obtain ⟨op, l⟩ := x
    have hop : op = .leftParen := by simpa using hhead
    subst hop
    exact ⟨_, l, outside, hsplit.symm,
      fun x hx => bne_iff_ne.1 (List.all_eq_true.1 hinside x hx), rfl⟩

end Yard

/-! ### Releasing operators -/

theorem release_append_items (ops : List (Operator × Location)) (items rest : List Item) :
    release ops (items ++ rest) = release ops items ++ rest := by
  induction ops generalizing items with
  | nil => rfl
  | cons x ops ih => exact ih (.operator x.1 x.2 :: items)

theorem release_append (ops ops' : List (Operator × Location)) (items : List Item) :
    release (ops ++ ops') items = release ops' (release ops items) := List.foldl_append

theorem release_cons (op : Operator) (l : Location) (ops : List (Operator × Location))
    (items : List Item) :
    release ((op, l) :: ops) items = release ops (.operator op l :: items) := rfl

/-! ### Expressions are taken -/

variable {resolve : String → Option Variable}

theorem isInfix_of_derives {n : Nat} {ts : List Token} {e : Expr} (h : Derives resolve n ts e) :
    isInfix e = true := by
  induction h with
  | tighter _ ih => exact ih
  | binary hop _ _ _ ihLeft ihRight => simp [isInfix, (mem_operatorsAt.1 hop).1, ihLeft, ihRight]
  | not _ _ ih => simpa [isInfix, Operator.isUnary] using ih
  | @step op _ _ _ hop _ _ _ => cases op <;> first | rfl | contradiction
  | numeral _ => rfl
  | reference _ _ => rfl
  | group _ _ _ ih => exact ih

theorem stepsVariables_of_derives {n : Nat} {ts : List Token} {e : Expr}
    (h : Derives resolve n ts e) : stepsVariables e = true := by
  induction h with
  | tighter _ ih => exact ih
  | binary _ _ _ _ ihLeft ihRight => simp [stepsVariables, ihLeft, ihRight]
  | not _ _ ih => simpa [stepsVariables, Operator.isStep] using ih
  | step _ _ _ _ => simp [stepsVariables, Expr.isReference]
  | numeral _ => rfl
  | reference _ _ => rfl
  | group _ _ _ ih => exact ih

/-- What waits in front of an expression of a rank does not bind as tightly as the operators of
that rank. -/
def Below (n : Nat) (waiting : List (Operator × Location)) : Prop :=
  n ≤ 5 → ∀ x ∈ waiting.head?, x.1.precedence < n

theorem takeWhile_append_of_below {n : Nat} {ops waiting : List (Operator × Location)}
    (hn : n ≤ 5) (hops : ∀ x ∈ ops, (n : Int) ≤ x.1.precedence) (hbelow : Below n waiting) :
    (ops ++ waiting).takeWhile ((n : Int) ≤ ·.1.precedence) = ops ∧
      (ops ++ waiting).dropWhile ((n : Int) ≤ ·.1.precedence) = waiting := by
  -- the operators of the operand bind as tightly, what waited before does not
  exact span_append (fun x hx => decide_eq_true (hops x hx))
    fun x hx => decide_eq_false (Int.not_le.2 (hbelow hn x hx))

/-- A parenthesis does not bind at all. -/
theorem ne_leftParen_of_le {op : Operator} {n : Nat} (h : (n : Int) ≤ op.precedence) :
    op ≠ .leftParen := by
  rintro rfl
  simp only [Operator.precedence, Operator.grouping] at h
  omega

/-- The tokens are taken as one operand: their operators are in order up to those that may still
wait, and these bind at least as tightly as an expression of the rank. -/
def TakenAs (resolve : String → Option Variable) (n : Nat) (ts : List Token) (e : Expr) : Prop :=
  ∀ y : Yard, Below n y.waiting →
    ∃ ops items, y.takeAll? resolve ts = some ⟨ops ++ y.waiting, items ++ y.items, false⟩ ∧
      release ops items = code e ∧ ∀ x ∈ ops, (n : Int) ≤ x.1.precedence

section TakenAs

variable {n : Nat} {op : Operator} {t u : Token} {ts us : List Token} {e l r : Expr}

theorem TakenAs.looser (h : TakenAs resolve (n + 1) ts e) : TakenAs resolve n ts e := by
  intro y hbelow
  have hlooser : Below (n + 1) y.waiting := fun hn x hx => by
    have := hbelow (by omega) x hx
    omega
  obtain ⟨ops, items, htake, hcode, hops⟩ := h y hlooser
  refine ⟨ops, items, htake, hcode, fun x hx => ?_⟩
  have := hops x hx
  omega

theorem TakenAs.binary (hl : TakenAs resolve n ts l) (hr : TakenAs resolve (n + 1) us r)
    (hop : op ∈ operatorsAt n) (ht : t.kind = .operator op) :
    TakenAs resolve n (ts ++ t :: us) (.binary op l r t.location) := by
  intro y hbelow
  obtain ⟨hbinary, hprecedence⟩ := mem_operatorsAt.1 hop
  have hn := le_five_of_mem_operatorsAt hop
  obtain ⟨ops, items, htake, hcode, hops⟩ := hl y hbelow
  -- everything that the left operand left waiting is done now
  obtain ⟨hdone, hleft⟩ := takeWhile_append_of_below hn hops hbelow
  have hinfix : Yard.take? resolve ⟨ops ++ y.waiting, items ++ y.items, false⟩ t =
      some ⟨(op, t.location) :: y.waiting, code l ++ y.items, true⟩ := by
    rw [Yard.take?_binary ht hbinary, Yard.infixed]
    simp only [hprecedence, hdone, hleft, release_append_items, hcode]
  have habove : Below (n + 1) ((op, t.location) :: y.waiting) := by
    rintro - x hx
    obtain rfl := Option.some.inj hx
    rw [hprecedence]
    omega
  obtain ⟨ops', items', htake', hcode', hops'⟩ :=
    hr ⟨(op, t.location) :: y.waiting, code l ++ y.items, true⟩ habove
  refine ⟨ops' ++ [(op, t.location)], items' ++ code l, ?_, ?_, fun x hx => ?_⟩
  · rw [Yard.takeAll?_append, htake, Option.bind_some, Yard.takeAll?_cons, hinfix,
      Option.bind_some, htake']
    simp
  · rw [release_append, release_append_items, hcode']
    rfl
  · rcases List.mem_append.1 hx with hx | hx
    · have := hops' x hx
      omega
    · obtain rfl := List.mem_singleton.1 hx
      exact Int.le_of_eq hprecedence.symm

theorem TakenAs.not (h : TakenAs resolve 6 ts e) (ht : t.kind = .operator .not) :
    TakenAs resolve 6 (t :: ts) (.unary .not e t.location) := by
  intro y _
  -- nothing is released in front of a `!`, and no binary operator binds as tightly
  obtain ⟨ops, items, htake, hcode, hops⟩ :=
    h { y.wait .not t.location with continues := true } (by intro hn; omega)
  refine ⟨ops ++ [(.not, t.location)], items, ?_, ?_, fun x hx => ?_⟩
  · rw [Yard.takeAll?_cons, Yard.take?_before ht (.inr rfl), Option.bind_some, htake]
    simp [Yard.wait]
  · rw [release_append, hcode]
    rfl
  · rcases List.mem_append.1 hx with hx | hx
    · exact hops x hx
    · obtain rfl := List.mem_singleton.1 hx
      exact Int.le_refl 6

theorem TakenAs.step (h : TakenAs resolve 8 ts e) (hop : op.isStep = true)
    (ht : t.kind = .operator op) : TakenAs resolve 7 (ts ++ [t]) (.unary op e t.location) := by
  intro y _
  obtain ⟨ops, items, htake, hcode, hops⟩ := h y (by intro hn; omega)
  -- no operator binds tighter than a step, so none of them waits
  have hnone : ops = [] := by
    cases ops with
    | nil => rfl
    | cons x ops =>
      have hx := hops x List.mem_cons_self
      rcases x with ⟨op, l⟩
      cases op <;> simp [Operator.precedence, Operator.grouping, Operator.outside] at hx
  subst hnone
  refine ⟨[], .operator op t.location :: items, ?_, ?_, by simp⟩
  · rw [Yard.takeAll?_append, htake, Option.bind_some, Yard.takeAll?_cons,
      Yard.take?_step ht hop]
    rfl
  · exact congrArg (List.cons _) hcode

theorem TakenAs.group (h : TakenAs resolve 0 ts e) (ht : t.kind = .operator .leftParen)
    (hu : u.kind = .operator .rightParen) : TakenAs resolve 8 (t :: (ts ++ [u])) e := by
  intro y _
  have hopen : Below 0 (y.wait .leftParen t.location).waiting := by
    rintro - x hx
    obtain rfl := Option.some.inj hx
    exact Int.negSucc_lt_zero 0
  obtain ⟨ops, items, htake, hcode, hops⟩ :=
    h { y.wait .leftParen t.location with continues := true } hopen
  -- only the parenthesis itself stops the release
  have hall : ∀ x ∈ ops, (x.1 != Operator.leftParen) = true :=
    fun x hx => bne_iff_ne.2 (ne_leftParen_of_le (hops x hx))
  have hclose : Yard.close? ⟨ops ++ (.leftParen, t.location) :: y.waiting, items ++ y.items, false⟩ =
      some ⟨y.waiting, code e ++ y.items, false⟩ := by
    rw [Yard.close?]
    simp only [List.takeWhile_append_of_pos hall, List.dropWhile_append_of_pos hall]
    simp [release_append_items, hcode]
  refine ⟨[], code e, ?_, rfl, by simp⟩
  rw [Yard.takeAll?_cons, Yard.take?_before ht (.inl rfl), Option.bind_some,
    Yard.takeAll?_append, htake, Option.bind_some, Yard.takeAll?_cons,
    Yard.take?_rightParen hu]
  simp only [Yard.wait, hclose]
  rfl

end TakenAs

/-- An expression is taken as one operand. -/
theorem takenAs_of_derives {n : Nat} {ts : List Token} {e : Expr} (h : Derives resolve n ts e) :
    TakenAs resolve n ts e := by
  induction h with
  | tighter _ ih => exact ih.looser
  | binary hop ht _ _ ihLeft ihRight => exact ihLeft.binary ihRight hop ht
  | not ht _ ih => exact ih.not ht
  | step hop ht _ ih => exact ih.step hop ht
  | @numeral t value ht =>
    exact fun y _ => ⟨[], [.operand (.numeral value t.location)],
      by simp [Yard.take?, ht, Yard.operand], rfl, by simp⟩
  | @reference t name v ht hv =>
    exact fun y _ => ⟨[], [.operand (.reference ⟨v, t.location⟩)],
      by simp [Yard.take?, ht, hv, Yard.operand], rfl, by simp⟩
  | group ht _ hu ih => exact ih.group ht hu

/-- An expression that is taken alone closes its parentheses and is assembled to its tree. -/
theorem assemble_of_derives {n : Nat} {ts : List Token} {e : Expr} (h : Derives resolve n ts e) :
    ∃ y : Yard, Yard.takeAll? resolve {} ts = some y ∧ y.continues = false ∧
      y.openParentheses = [] ∧ ∀ start, assemble start y.finish = .ok e := by
  obtain ⟨ops, items, htake, hcode, hops⟩ := takenAs_of_derives h {} (by rintro - x hx; contradiction)
  refine ⟨_, htake, rfl, ?_, fun start => ?_⟩
  · have hfilter : ops.filter (·.1 == .leftParen) = [] := by
      rw [List.filter_eq_nil_iff]
      intro x hx hparen
      exact ne_leftParen_of_le (hops x hx) (eq_of_beq hparen)
    simp [Yard.openParentheses, hfilter]
  · have hfinish : Yard.finish ⟨ops ++ [], items ++ [], false⟩ = code e := by
      simp [Yard.finish, hcode]
    rw [hfinish]
    exact (assemble_code_iff (isInfix_of_derives h)).2 ⟨stepsVariables_of_derives h, rfl⟩

end FloatLang.Postfix
