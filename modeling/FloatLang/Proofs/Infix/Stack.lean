import FloatLang.Proofs.Infix.Yard

/-!
# What a yard holds

As long as operands and operators take turns, a yard holds a part of an expression. The operators
that wait and the items in order divide into operands that the grammar derives, each tight enough
for the operator in front of it. So what is assembled in the end is an expression.

A step that is applied to something other than a variable only comes to light when the tree is
assembled. Until then, operands are derived on the condition that there is none in them.

## Main definitions

* `Postfix.rank`, `Postfix.need` — the rank of an operator, and of the operand after it
* `Postfix.Waits`, `Postfix.Holds` — what a yard holds in front of an operand and after it

## Main results

* `Postfix.Holds.reduce`, `Postfix.Holds.release` — operators that are done keep a yard in order
* `Postfix.means_takeAll?` — tokens in their places keep a yard in order
* `Postfix.derives_iff` — what is assembled to a tree is an expression exactly if its tokens are
  in their places
-/

namespace FloatLang.Postfix

open Infix

/-- The rank of an expression that an operator makes. -/
def rank (op : Operator) : Nat := op.precedence.toNat

/-- The rank that the operand after an operator has at least. -/
def need (op : Operator) : Nat :=
  if op.isBinary then rank op + 1 else if op = .not then 6 else 0

theorem need_le (op : Operator) : need op ≤ 6 := by
  cases op <;> decide

theorem mem_operatorsAt_rank {op : Operator} (h : op.isBinary = true) : op ∈ operatorsAt (rank op) := by
  refine mem_operatorsAt.2 ⟨h, ?_⟩
  cases op <;> first | rfl | contradiction

/-- Whether an operand of a rank may come after the operators that wait. -/
def Fits (k : Nat) (waiting : List (Operator × Location)) : Prop :=
  ∀ x ∈ waiting.head?, need x.1 ≤ k

theorem Fits.of_six_le {k : Nat} {waiting : List (Operator × Location)} (hk : 6 ≤ k) :
    Fits k waiting :=
  fun x _ => Nat.le_trans (need_le x.1) hk

/-- What waits for an operand: the operators that wait, the items in order and the tokens taken
so far. -/
inductive Waits (resolve : String → Option Variable) :
    List (Operator × Location) → List Item → List Token → Prop
  | start : Waits resolve [] [] []
  | group {waiting : List (Operator × Location)} {items : List Item} {ts : List Token} {t : Token}
      (h : Waits resolve waiting items ts) (ht : t.kind = .operator .leftParen) :
      Waits resolve ((.leftParen, t.location) :: waiting) items (ts ++ [t])
  | not {waiting : List (Operator × Location)} {items : List Item} {ts : List Token} {t : Token}
      (h : Waits resolve waiting items ts) (ht : t.kind = .operator .not) :
      Waits resolve ((.not, t.location) :: waiting) items (ts ++ [t])
  | binary {waiting : List (Operator × Location)} {items : List Item} {ts us : List Token}
      {t : Token} {op : Operator} {e : Expr} (h : Waits resolve waiting items ts)
      (hfits : Fits (rank op) waiting) (he : isInfix e = true)
      (hleft : stepsVariables e = true → Derives resolve (rank op) us e)
      (hop : op.isBinary = true) (ht : t.kind = .operator op) :
      Waits resolve ((op, t.location) :: waiting) (code e ++ items) (ts ++ us ++ [t])

/-- What waits for an operator, with an operand of rank `k` at hand. -/
inductive Holds (resolve : String → Option Variable) (k : Nat) :
    List (Operator × Location) → List Item → List Token → Prop
  | intro {waiting : List (Operator × Location)} {items : List Item} {ts us : List Token} {e : Expr}
      (h : Waits resolve waiting items ts) (hfits : Fits k waiting) (he : isInfix e = true)
      (hderives : stepsVariables e = true → Derives resolve k us e) :
      Holds resolve k waiting (code e ++ items) (ts ++ us)

variable {resolve : String → Option Variable} {waiting : List (Operator × Location)}
  {items : List Item} {ts : List Token} {t : Token} {op : Operator} {k : Nat}

/-! ### Operators that are done -/

/-- The operator that waits last is done: it makes an expression of its own rank. -/
theorem Holds.reduce {l : Location} (h : Holds resolve k ((op, l) :: waiting) items ts)
    (hop : op ≠ .leftParen) : Holds resolve (rank op) waiting (.operator op l :: items) ts := by
  cases h with
  | @intro items ts us e h hfits he hderives =>
    -- the operand at hand fits what waits last, by the choice of the ranks
    have hneed : need op ≤ k := hfits _ rfl
    cases h with
    | group _ _ => exact absurd rfl hop
    | @not _ _ ts t h ht =>
      have hunary : isInfix (.unary .not e t.location) = true := by
        simpa [isInfix, Operator.isUnary] using he
      rw [List.append_assoc, List.singleton_append]
      refine .intro h (.of_six_le (Nat.le_refl 6)) hunary fun hsteps => ?_
      rw [stepsVariables, Bool.and_eq_true] at hsteps
      exact .not ht ((hderives hsteps.2).of_le hneed)
    | @binary _ items ts us' t _ e' h hfits' he' hleft hbinary ht =>
      have hboth : isInfix (.binary op e' e t.location) = true := by
        simp [isInfix, hbinary, he', he]
      have hright : rank op + 1 ≤ k := by simpa [need, hbinary] using hneed
      rw [List.append_assoc, List.append_assoc, List.singleton_append, ← List.append_assoc (code e)]
      refine .intro h hfits' hboth fun hsteps => ?_
      rw [stepsVariables, Bool.and_eq_true] at hsteps
      exact .binary (mem_operatorsAt_rank hbinary) ht (hleft hsteps.1)
        ((hderives hsteps.2).of_le hright)

/-- Any number of operators of rank `n` and above are done. -/
theorem Holds.release {n : Nat} (done : List (Operator × Location))
    (h : Holds resolve k (done ++ waiting) items ts)
    (hdone : ∀ x ∈ done, x.1 ≠ .leftParen ∧ n ≤ rank x.1) (hk : n ≤ k) :
    ∃ k', n ≤ k' ∧ Holds resolve k' waiting (Postfix.release done items) ts := by
  -- the innermost operator is done first, and leaves one operand of its own rank
  induction done generalizing k items with
  | nil => exact ⟨k, hk, h⟩
  | cons x done ih =>
    obtain ⟨op, l⟩ := x
    obtain ⟨hop, hrank⟩ := hdone _ List.mem_cons_self
    rw [release_cons]
    exact ih (h.reduce hop) (fun x hx => hdone x (List.mem_cons_of_mem _ hx)) hrank

/-! ### Tokens that are taken -/

theorem Waits.operand {e : Expr} (h : Waits resolve waiting items ts) (he : isInfix e = true)
    (hcode : code e = [.operand e]) (hderives : Derives resolve 8 [t] e) :
    Holds resolve 7 waiting (.operand e :: items) (ts ++ [t]) := by
  have hholds := Holds.intro h (.of_six_le (by omega : 6 ≤ 7)) he fun _ => hderives.tighter
  rwa [hcode] at hholds

/-- Only an operand is a variable. -/
theorem derives_reference {r : Reference} (h : Derives resolve 7 ts (.reference r)) :
    Derives resolve 8 ts (.reference r) := by
  cases h with
  | tighter h => exact h

theorem Holds.step (h : Holds resolve 7 waiting items ts) (hop : op.isStep = true)
    (ht : t.kind = .operator op) :
    Holds resolve 7 waiting (.operator op t.location :: items) (ts ++ [t]) := by
  cases h with
  | @intro items ts us e h hfits he hderives =>
    have hunary : isInfix (.unary op e t.location) = true := by
      rw [isInfix, he, Bool.and_true]
      cases op <;> first | rfl | contradiction
    rw [List.append_assoc]
    refine .intro h hfits hunary fun hsteps => ?_
    rw [stepsVariables, hop, Bool.and_eq_true] at hsteps
    obtain ⟨href, hsteps⟩ := hsteps
    cases e with
    | reference r => exact .step hop ht (derives_reference (hderives hsteps))
    | _ => simp [Expr.isReference] at href

/-- A closing parenthesis makes an operand of what the last open one encloses. -/
theorem Holds.close {y y' : Yard} (h : Holds resolve 7 y.waiting y.items ts)
    (ht : t.kind = .operator .rightParen) (hclose : y.close? = some y') :
    Holds resolve 7 y'.waiting y'.items (ts ++ [t]) := by
  obtain ⟨inside, l, outside, hwaiting, hinside, rfl⟩ := Yard.close?_eq_some hclose
  rw [hwaiting] at h
  dsimp only
  obtain ⟨k, -, hholds⟩ :=
    h.release (n := 0) inside (fun x hx => ⟨hinside x hx, Nat.zero_le _⟩) (Nat.zero_le _)
  generalize Postfix.release inside y.items = items at hholds
  cases hholds with
  | @intro items ts us e hwaits hfits he hderives =>
    -- what waits last is the parenthesis, since everything inside it was released
    cases hwaits with
    | @group _ _ ts u hwaits hu =>
      rw [List.append_assoc, List.append_assoc, List.singleton_append]
      refine .intro hwaits (.of_six_le (by omega)) he fun hsteps => ?_
      exact (Derives.group hu ((hderives hsteps).of_le (Nat.zero_le k)) ht).tighter
    | binary _ _ _ _ hop _ => contradiction

theorem rank_le_rank {op op' : Operator} (h : op.precedence ≤ op'.precedence) :
    rank op ≤ rank op' := Int.toNat_le_toNat h

theorem need_le_rank {op op' : Operator} (hop : op.isBinary = true)
    (h : ¬ op.precedence ≤ op'.precedence) : need op' ≤ rank op := by
  unfold need rank
  split
  next hop' =>
    have hzero : 0 ≤ op'.precedence := by cases op' <;> first | decide | contradiction
    omega
  · split
    next hnot =>
      subst hnot
      cases op <;> contradiction
    · exact Nat.zero_le _

/-- A binary operator takes the expressions in front of it that bind as tightly. -/
theorem Holds.infixed {y : Yard} (h : Holds resolve 7 y.waiting y.items ts)
    (ht : t.kind = .operator op) (hop : op.isBinary = true) :
    Waits resolve (y.infixed op t.location).waiting (y.infixed op t.location).items
      (ts ++ [t]) := by
  have hsplit := List.takeWhile_append_dropWhile
    (p := (decide <| op.precedence ≤ ·.1.precedence)) (l := y.waiting)
  have hdone := List.all_takeWhile (p := (decide <| op.precedence ≤ ·.1.precedence)) (l := y.waiting)
  have hhead := List.head?_dropWhile_not (decide <| op.precedence ≤ ·.1.precedence) y.waiting
  have hzero : 0 ≤ op.precedence := by cases op <;> first | decide | contradiction
  unfold Yard.infixed
  dsimp only
  generalize y.waiting.takeWhile (decide <| op.precedence ≤ ·.1.precedence) = done at hsplit hdone ⊢
  generalize y.waiting.dropWhile (decide <| op.precedence ≤ ·.1.precedence) = left at hsplit hhead ⊢
  rw [← hsplit] at h
  have hrank (x : Operator × Location) (hx : x ∈ done) : x.1 ≠ .leftParen ∧ rank op ≤ rank x.1 := by
    have hle : op.precedence ≤ x.1.precedence := by simpa using List.all_eq_true.1 hdone x hx
    refine ⟨?_, rank_le_rank hle⟩
    intro hparen
    rw [hparen] at hle
    exact absurd (Int.le_trans hzero hle) (by decide)
  have hseven : rank op ≤ 7 := by cases op <;> decide
  obtain ⟨k, hk, hholds⟩ := h.release done hrank hseven
  have hfits : Fits (rank op) left := by
    intro x hx
    rw [hx] at hhead
    exact need_le_rank hop (by simpa using hhead)
  generalize Postfix.release done y.items = items at hholds ⊢
  cases hholds with
  | @intro items ts us e hwaits _ he hderives =>
    exact .binary hwaits hfits he (fun hsteps => (hderives hsteps).of_le hk) hop ht

/-! ### Whole expressions -/

/-- What a yard holds after the tokens `ts`, by whether an operand is wanted. -/
def Means (resolve : String → Option Variable) (wanted : Bool) (y : Yard) (ts : List Token) : Prop :=
  if wanted then Waits resolve y.waiting y.items ts else Holds resolve 7 y.waiting y.items ts

theorem means_start : Means resolve true {} [] := Waits.start

/-- An operator in its place keeps the yard in order. -/
theorem means_operator {wanted : Bool} {y y' : Yard} {rest : List Token} {op : Operator}
    (h : Means resolve wanted y ts) (hkind : t.kind = .operator op)
    (hplace : inPlace wanted (t :: rest) = true) (htake : y.take? resolve t = some y') :
    ∃ wanted', Means resolve wanted' y' (ts ++ [t]) ∧ inPlace wanted' rest = true := by
  -- an operand is wanted before `(` and `!`, and one is at hand before all the others
  by_cases hbefore : op = .leftParen ∨ op = .not
  · rw [inPlace_before _ _ hkind hbefore, Bool.and_eq_true] at hplace
    obtain ⟨rfl, hplace⟩ := hplace
    rw [Yard.take?_before hkind hbefore] at htake
    obtain rfl := Option.some.inj htake
    refine ⟨true, ?_, hplace⟩
    rcases hbefore with rfl | rfl
    · exact Waits.group h hkind
    · exact Waits.not h hkind
  by_cases hafter : op.isStep = true ∨ op = .rightParen
  · rw [inPlace_after _ _ hkind hafter, Bool.and_eq_true] at hplace
    obtain ⟨hwanted, hplace⟩ := hplace
    obtain rfl : wanted = false := by simpa using hwanted
    refine ⟨false, ?_, hplace⟩
    rcases hafter with hstep | rfl
    · rw [Yard.take?_step hkind hstep] at htake
      obtain rfl := Option.some.inj htake
      exact Holds.step h hstep hkind
    · rw [Yard.take?_rightParen hkind] at htake
      obtain ⟨closed, hclosed, rfl⟩ := Option.map_eq_some_iff.1 htake
      have hholds := Holds.close h hkind hclosed
      exact hholds
  · have hplaces : (op.isBinary && !wanted && inPlace true rest) = true := by
      rw [not_or] at hbefore hafter
      simpa [inPlace, hkind, hbefore, hafter] using hplace
    rw [Bool.and_eq_true, Bool.and_eq_true] at hplaces
    obtain ⟨⟨hbinary, hwanted⟩, hrest⟩ := hplaces
    obtain rfl : wanted = false := by simpa using hwanted
    rw [Yard.take?_binary hkind hbinary] at htake
    obtain rfl := Option.some.inj htake
    exact ⟨true, Holds.infixed h hkind hbinary, hrest⟩

/-- A token in its place keeps the yard in order. -/
theorem means_take? {wanted : Bool} {y y' : Yard} {rest : List Token}
    (h : Means resolve wanted y ts) (hplace : inPlace wanted (t :: rest) = true)
    (htake : y.take? resolve t = some y') :
    ∃ wanted', Means resolve wanted' y' (ts ++ [t]) ∧ inPlace wanted' rest = true := by
  cases hkind : t.kind with
  | endOfFile => simp [inPlace, hkind] at hplace
  | endOfLine => simp [inPlace, hkind] at hplace
  | keyword word => simp [inPlace, hkind] at hplace
  | invalid error => simp [inPlace, hkind] at hplace
  | numeral value =>
    simp only [inPlace, hkind, Bool.and_eq_true] at hplace
    obtain ⟨rfl, hplace⟩ := hplace
    simp only [Yard.take?, hkind] at htake
    obtain rfl := Option.some.inj htake
    exact ⟨false, Waits.operand h rfl rfl (.numeral hkind), hplace⟩
  | identifier name =>
    simp only [inPlace, hkind, Bool.and_eq_true] at hplace
    obtain ⟨rfl, hplace⟩ := hplace
    simp only [Yard.take?, hkind] at htake
    obtain ⟨v, hv, rfl⟩ := Option.map_eq_some_iff.1 htake
    exact ⟨false, Waits.operand h rfl rfl (.reference hkind hv), hplace⟩
  | operator op => exact means_operator h hkind hplace htake

/-- Tokens in their places keep the yard in order. -/
theorem means_takeAll? {wanted : Bool} {y y' : Yard} {us : List Token}
    (h : Means resolve wanted y ts) (hplace : inPlace wanted us = true)
    (htake : y.takeAll? resolve us = some y') :
    ∃ wanted', Means resolve wanted' y' (ts ++ us) := by
  induction us generalizing wanted y ts with
  | nil =>
    obtain rfl := Option.some.inj htake
    exact ⟨wanted, by rwa [List.append_nil]⟩
  | cons t us ih =>
    rw [Yard.takeAll?_cons] at htake
    obtain ⟨first, hfirst, hrest⟩ := Option.bind_eq_some_iff.1 htake
    obtain ⟨wanted', hmeans, hplace'⟩ := means_take? h hplace hfirst
    have hall := ih hmeans hplace' hrest
    rwa [List.append_assoc, List.singleton_append] at hall

/-- Where an operand is wanted and every parenthesis is closed, the items do not make a tree. -/
theorem Waits.weight_release (h : Waits resolve waiting items ts)
    (hclosed : ∀ x ∈ waiting, x.1 ≠ .leftParen) : weight (Postfix.release waiting items) = 0 := by
  have hsum (ops : List (Operator × Location)) (items : List Item) :
      weight (Postfix.release ops items) = weight (Postfix.release ops []) + weight items := by
    rw [← weight_append, ← release_append_items, List.nil_append]
  -- each binary operator that waits has its left operand among the items, and lacks the right one
  induction h with
  | start => rfl
  | group _ _ _ => exact absurd rfl (hclosed _ List.mem_cons_self)
  | not _ _ ih =>
    have hrest := ih fun x hx => hclosed x (List.mem_cons_of_mem _ hx)
    rw [hsum] at hrest
    rw [release_cons, hsum, weight_cons, Item.weight]
    simpa [Operator.isUnary] using hrest
  | binary _ _ he _ hop _ ih =>
    have hrest := ih fun x hx => hclosed x (List.mem_cons_of_mem _ hx)
    rw [hsum] at hrest
    rw [release_cons, hsum, weight_cons, Item.weight, isUnary_of_isBinary hop, weight_append,
      weight_code he]
    simp only [Bool.false_eq_true, ite_false]
    omega

theorem not_leftParen_of_openParentheses {y : Yard} (h : y.openParentheses = []) :
    ∀ x ∈ y.waiting, x.1 ≠ .leftParen := by
  intro x hx hparen
  have hfilter : y.waiting.filter (·.1 == .leftParen) = [] := List.map_eq_nil_iff.1 h
  exact List.filter_eq_nil_iff.1 hfilter x hx (beq_iff_eq.2 hparen)

/-- If a yard in order is assembled to a tree, its tokens are an expression with that tree. -/
theorem derives_of_means {wanted : Bool} {y : Yard} {start : Location} {e : Expr}
    (h : Means resolve wanted y ts) (hclosed : y.openParentheses = [])
    (he : assemble start y.finish = .ok e) : Derives resolve 0 ts e := by
  have hall := not_leftParen_of_openParentheses hclosed
  cases wanted with
  | true =>
    -- where an operand is still wanted, the items offer none
    have hone := weight_eq_one he
    rw [Yard.finish, Waits.weight_release h hall] at hone
    contradiction
  | false =>
    have hholds : Holds resolve 7 (y.waiting ++ []) y.items ts := by
      rw [List.append_nil]
      exact h
    obtain ⟨k, -, hholds⟩ := hholds.release (n := 0) y.waiting
      (fun x hx => ⟨hall x hx, Nat.zero_le _⟩) (Nat.zero_le _)
    unfold Yard.finish at he
    generalize Postfix.release y.waiting y.items = items at hholds he
    cases hholds with
    | @intro items ts us e' hwaits _ hinfix hderives =>
      cases hwaits with
      | start =>
        rw [List.append_nil] at he
        obtain ⟨hsteps, rfl⟩ := (assemble_code_iff hinfix).1 he
        exact (hderives hsteps).of_le (Nat.zero_le k)

/-- Of the token sequences that are assembled to a tree, the expressions are those with every
token in its place; and the tree of an expression is the one that is assembled. -/
theorem derives_iff {y : Yard} {start : Location} {e e' : Expr}
    (htake : Yard.takeAll? resolve {} ts = some y) (hclosed : y.openParentheses = [])
    (he : assemble start y.finish = .ok e) :
    Derives resolve 0 (significant ts) e' ↔ inPlace true (significant ts) = true ∧ e' = e := by
  rw [← Yard.takeAll?_significant] at htake
  constructor
  · intro h
    obtain ⟨y', htake', -, -, hassemble⟩ := assemble_of_derives h
    obtain rfl := Option.some.inj (htake.symm.trans htake')
    exact ⟨h.inPlace, Except.ok.inj ((hassemble start).symm.trans he)⟩
  · rintro ⟨hplace, rfl⟩
    obtain ⟨wanted, hmeans⟩ := means_takeAll? means_start hplace htake
    exact derives_of_means hmeans hclosed he

end FloatLang.Postfix
