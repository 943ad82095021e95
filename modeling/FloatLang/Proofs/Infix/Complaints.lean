import FloatLang.Proofs.Infix.Reading
import FloatLang.Proofs.Parser.Invariants

/-!
# Complaints about expressions

When no tree can be made of the tokens of an expression, the complaint is about one of them: an
operator that lacks an operand or a variable, or the first token of an operand that lacks an
operator. Parentheses are never complained about in this way. Only if there are no operands and
operators at all, the complaint is about where the expression starts.

## Main definitions

* `Postfix.Yard.StemsFrom` — a yard that holds operands and operators from allowed places
* `Problem.isOfExpression` — what may be wrong with operands and operators

## Main results

* `Postfix.Yard.StemsFrom.takeAll?` — what is taken stems from the tokens taken
* `Postfix.complaint_of_assemble` — what is complained about
-/

namespace FloatLang

/-- Whether a problem is about operands and operators that do not fit together. -/
def Problem.isOfExpression : Problem → Bool
  | .semicolonExpected _ | .variableRequired _ | .operandExpected _ => true
  | _ => false

namespace Postfix

variable {allowed : Location → Prop}

/-! ### What waits in a yard -/

/-- A yard whose operands and operators stand at allowed places, wherever its parentheses stand. -/
structure Yard.StemsFrom (allowed : Location → Prop) (y : Yard) : Prop where
  waiting : ∀ x ∈ y.waiting, x.1 ≠ .leftParen → allowed x.2
  items : ∀ item ∈ y.items, item.Within allowed

namespace Yard

variable {y y' : Yard} {op : Operator} {l : Location} {resolve : String → Option Variable}
  {t : Token}

theorem stemsFrom_start : ({} : Yard).StemsFrom allowed := ⟨by simp, by simp⟩

/-- Operators that are done are no parentheses. -/
theorem StemsFrom.done (h : y.StemsFrom allowed) {done left : List (Operator × Location)}
    (hdone : done <+: y.waiting) (hparens : ∀ x ∈ done, x.1 ≠ .leftParen) (hleft : left <:+ y.waiting) :
    StemsFrom allowed { y with waiting := left, items := release done y.items } where
  waiting x hx := h.waiting x (hleft.subset hx)
  items := within_release (fun x hx => h.waiting x (hdone.subset hx) (hparens x hx)) h.items

theorem StemsFrom.wait (h : y.StemsFrom allowed) (hop : op ≠ .leftParen → allowed l) :
    (y.wait op l).StemsFrom allowed :=
  ⟨List.forall_mem_cons.2 ⟨hop, h.waiting⟩, h.items⟩

theorem StemsFrom.close? (h : y.StemsFrom allowed) (hclose : y.close? = some y') :
    y'.StemsFrom allowed := by
  obtain ⟨inside, l, outside, hwaiting, hinside, rfl⟩ := close?_eq_some hclose
  have hleft : outside <:+ y.waiting := by
    rw [hwaiting]
    exact (List.suffix_cons _ outside).trans (List.suffix_append inside _)
  exact h.done ⟨_, hwaiting.symm⟩ hinside hleft

theorem StemsFrom.infixed (h : y.StemsFrom allowed) (hop : op.isBinary = true) (hl : allowed l) :
    (y.infixed op l).StemsFrom allowed := by
  have hdone := h.done (List.takeWhile_prefix (decide <| op.precedence ≤ ·.1.precedence))
    (fun x hx => ne_leftParen_of_precedence_le hop
      (of_decide_eq_true (List.all_eq_true.1 List.all_takeWhile x hx)))
    (List.dropWhile_suffix (decide <| op.precedence ≤ ·.1.precedence))
  exact ⟨List.forall_mem_cons.2 ⟨fun _ => hl, hdone.waiting⟩, hdone.items⟩

/-- A token that is taken is a parenthesis or gives its place to an operand or operator. -/
theorem StemsFrom.take? (h : y.StemsFrom allowed) (htake : y.take? resolve t = some y')
    (ht : t.isPlain = true → allowed t.location) : y'.StemsFrom allowed := by
  cases hkind : t.kind with
  | numeral value =>
    simp only [Yard.take?, hkind] at htake
    obtain rfl := Option.some.inj htake
    have hplain : t.isPlain = true := by simp [Token.isPlain, Token.error?, Token.operator?, hkind]
    exact ⟨h.waiting, List.forall_mem_cons.2 ⟨ht hplain, h.items⟩⟩
  | identifier x =>
    simp only [Yard.take?, hkind] at htake
    obtain ⟨v, -, rfl⟩ := Option.map_eq_some_iff.1 htake
    have hplain : t.isPlain = true := by simp [Token.isPlain, Token.error?, Token.operator?, hkind]
    exact ⟨h.waiting, List.forall_mem_cons.2 ⟨ht hplain, h.items⟩⟩
  | endOfLine =>
    simp only [Yard.take?, hkind] at htake
    obtain rfl := Option.some.inj htake
    exact h
  | operator op =>
    have hop := precedence_of_take? hkind htake
    rcases cases_of_precedence hop with (rfl | rfl) | hstep | rfl | hbinary
    · rw [take?_before hkind (.inl rfl)] at htake
      obtain rfl := Option.some.inj htake
      have hwait : (y.wait .leftParen t.location).StemsFrom allowed := h.wait (by simp)
      exact ⟨hwait.waiting, hwait.items⟩
    · rw [take?_before hkind (.inr rfl)] at htake
      obtain rfl := Option.some.inj htake
      have hwait : (y.wait .not t.location).StemsFrom allowed :=
        h.wait fun _ => ht (Parser.isPlain_operator hkind rfl)
      exact ⟨hwait.waiting, hwait.items⟩
    · rw [take?_step hkind hstep] at htake
      obtain rfl := Option.some.inj htake
      have hl := ht (Parser.isPlain_operator hkind (Parser.bracket?_of_isStep hstep))
      exact ⟨h.waiting, List.forall_mem_cons.2 ⟨hl, h.items⟩⟩
    · rw [take?_rightParen hkind] at htake
      obtain ⟨closed, hclosed, rfl⟩ := Option.map_eq_some_iff.1 htake
      have hstems := h.close? hclosed
      exact ⟨hstems.waiting, hstems.items⟩
    · rw [take?_binary hkind hbinary] at htake
      obtain rfl := Option.some.inj htake
      have hstems : (y.infixed op t.location).StemsFrom allowed :=
        h.infixed hbinary (ht (Parser.isPlain_operator hkind (Parser.bracket?_of_isBinary hbinary)))
      exact ⟨hstems.waiting, hstems.items⟩
  | _ => simp [Yard.take?, hkind] at htake

/-- What is taken stems from the tokens taken that are no brackets. -/
theorem StemsFrom.takeAll? {ts : List Token} (h : y.StemsFrom allowed)
    (htake : y.takeAll? resolve ts = some y')
    (hts : ∀ t ∈ ts, t.isPlain = true → allowed t.location) : y'.StemsFrom allowed :=
  takeAll?_induction (motive := fun _ z => z.StemsFrom allowed) htake h
    fun _ _ t _ ht hstems hstep => hstems.take? hstep (hts t ht)

theorem StemsFrom.finish (h : y.StemsFrom allowed) (hclosed : y.openParentheses = []) :
    ∀ item ∈ y.finish, item.Within allowed := by
  apply within_release _ h.items
  intro x hx
  exact h.waiting x hx (not_leftParen_of_openParentheses hclosed x hx)

end Yard

/-! ### Complaints -/

/-- A complaint about operands and operators, at an allowed place. -/
structure Complaint.StemsFrom (allowed : Location → Prop) (c : Complaint) : Prop where
  location : allowed c.location
  problem : c.problem.isOfExpression = true

/-- An operand that is handed on completes an expression, or leaves an operator that lacks one; a
complaint is about a step without a variable. -/
theorem settle_cases (frames : List Frame) (e : Expr) :
    (∃ l op, settle frames e = .error ⟨l, .variableRequired op⟩) ∨
      (∃ root, settle frames e = .ok (.root root)) ∨
      ∃ frame frames', settle frames e = .ok (.lacking (frame :: frames')) := by
  induction frames generalizing e with
  | nil => exact .inr (.inl ⟨e, rfl⟩)
  | cons frame frames ih =>
    cases frame with
    | first op l right => exact ih (.binary op e right l)
    | last op l =>
      rw [settle]
      split
      · split
        · exact .inl ⟨l, op, rfl⟩
        · exact ih (.unary op e l)
      · exact .inr (.inr ⟨_, _, rfl⟩)

/-- While there are items or operators that lack one, the place where the expression starts does not
matter. -/
theorem outcome_of_assembleWith (start : Location) {frames : List Frame} {items : List Item}
    (hframes : ∀ frame ∈ frames, frame.Within allowed) (hitems : ∀ item ∈ items, item.Within allowed)
    (hsome : frames = [] → items ≠ []) :
    (∀ c, assembleWith start frames items = .error c → c.StemsFrom allowed) ∧
      ∀ e rest, assembleWith start frames items = .ok (e, rest) → allowed e.leftmost.location := by
  induction items generalizing frames with
  | nil =>
    cases frames with
    | nil => exact absurd rfl (hsome rfl)
    | cons frame frames =>
      refine ⟨fun c h => ?_, fun e rest h => by simp [assembleWith] at h⟩
      obtain rfl := Except.error.inj h
      have hframe := hframes frame List.mem_cons_self
      cases frame <;> exact ⟨hframe, rfl⟩
  | cons item items ih =>
    obtain ⟨hitem, hrest⟩ := List.forall_mem_cons.1 hitems
    cases item with
    | operator op l => exact ih (List.forall_mem_cons.2 ⟨hitem, hframes⟩) hrest (by simp)
    | operand operand =>
      obtain ⟨herror, hok⟩ := within_settle hitem hframes
      rw [assembleWith]
      rcases settle_cases frames operand with ⟨l, op, h⟩ | ⟨root, h⟩ | ⟨frame, frames', h⟩
      · simp only [h]
        refine ⟨fun c hc => ?_, fun e rest hc => by contradiction⟩
        obtain rfl := Except.error.inj hc
        exact ⟨(herror _ h).location, rfl⟩
      · simp only [h]
        refine ⟨fun c hc => by contradiction, fun e rest hc => ?_⟩
        obtain ⟨rfl, -⟩ := Prod.mk.inj (Except.ok.inj hc)
        exact hok _ h
      · simp only [h]
        exact ih (hok _ h) hrest (by simp)

/-- A complaint is about an operand or operator of the expression, or about where it starts if there
are none. -/
theorem complaint_of_assemble {start : Location} {items : List Item} {c : Complaint}
    (hitems : ∀ item ∈ items, item.Within allowed) (h : assemble start items = .error c) :
    c = ⟨start, .expressionExpected⟩ ∨ c.StemsFrom allowed := by
  cases items with
  | nil =>
    obtain rfl := Except.error.inj h
    exact .inl rfl
  | cons item items =>
    have hframes : ∀ frame ∈ ([] : List Frame), frame.Within allowed := by simp
    obtain ⟨herror, hok⟩ := outcome_of_assembleWith start hframes hitems (by simp)
    right
    rcases assemble_eq_error h with hassemble | ⟨e, rest, hassemble, rfl⟩
    · exact herror c hassemble
    · exact ⟨hok e rest hassemble, rfl⟩

end Postfix

end FloatLang
