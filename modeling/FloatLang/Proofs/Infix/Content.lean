import FloatLang.Proofs.Infix.Proper
import FloatLang.Proofs.Tree.Content

/-!
# A yard loses nothing

Putting an expression into postfix order moves its operators and leaves its operands in their order,
and assembling the tree moves the operators back. So the tree has the content of the tokens, whatever
order these were written in.

## Main definitions

* `Postfix.content`, `Postfix.Yard.content` — the content of items, and of a yard
* `Postfix.framesContent` — the content of what lacks operands

## Main results

* `Postfix.content_of_assemble` — a tree has the content of its items
* `Postfix.Yard.content_takeAll?` — a yard has the content of the tokens it has taken
* `Postfix.content_of_takeAll?` — a tree has the content of the tokens taken for it
-/

namespace FloatLang

/-- The content of operators alone. -/
def Content.ofOperators (ops : List (Operator × Location)) : Content := ⟨[], ↑ops, 0⟩

theorem Content.ofOperators_cons (op : Operator) (l : Location) (ops : List (Operator × Location)) :
    ofOperators ((op, l) :: ops) = operator op l ++ ofOperators ops := by
  simp only [append_eq, ofOperators, operator, List.nil_append, add_zero]
  rw [Multiset.singleton_add, Multiset.cons_coe]

theorem Content.ofOperators_append (ops ops' : List (Operator × Location)) :
    ofOperators (ops ++ ops') = ofOperators ops ++ ofOperators ops' := by
  simp only [append_eq, ofOperators, List.nil_append, add_zero]
  rw [Multiset.coe_add]

namespace Postfix

open Content (append_assoc append_comm_of_words)

/-! ### Assembling -/

/-- The content of an item. -/
def Item.content : Item → Content
  | .operand e => e.content
  | .operator op l => .operator op l

/-- The content of items, the last of which comes first. -/
def content : List Item → Content
  | [] => .empty
  | item :: items => content items ++ item.content

/-- The content of an operator and of the operands it has already. -/
def Frame.content : Frame → Content
  | .last op l => .operator op l
  | .first op l right => .operator op l ++ right.content

/-- The content of operators that lack operands, the innermost first. -/
def framesContent : List Frame → Content
  | [] => .empty
  | frame :: frames => frame.content ++ framesContent frames

/-- The content of what has become of an operand. -/
def Settled.content : Settled → Content
  | .root e => e.content
  | .lacking frames => framesContent frames

variable {frames : List Frame} {items rest : List Item} {start : Location} {e : Expr}

/-- An operand stands in front of whatever lacks it. -/
theorem content_of_settle {outcome : Settled} (h : settle frames e = .ok outcome) :
    outcome.content = e.content ++ framesContent frames := by
  induction frames generalizing e with
  | nil =>
    obtain rfl := Except.ok.inj h
    exact (Content.append_empty _).symm
  | cons frame frames ih =>
    have hcomm (op : Operator) (l : Location) : Content.operator op l ++ e.content =
        e.content ++ .operator op l := append_comm_of_words _ rfl
    rw [framesContent]
    cases frame with
    | first op l right =>
      rw [ih h, Expr.content, Frame.content, append_assoc, append_assoc, append_assoc]
    | last op l =>
      rw [settle] at h
      split at h
      · split at h
        · contradiction
        · rw [ih h, Expr.content, hcomm, append_assoc]
          rfl
      · obtain rfl := Except.ok.inj h
        rw [Settled.content, framesContent, Frame.content, Frame.content, hcomm, append_assoc]

theorem content_of_assembleWith (h : assembleWith start frames items = .ok (e, rest)) :
    content items ++ framesContent frames = content rest ++ e.content := by
  induction items generalizing frames with
  | nil => simp [assembleWith] at h
  | cons item items ih =>
    rw [content, append_assoc]
    cases item with
    | operator op l => exact ih h
    | operand operand =>
      rw [assembleWith] at h
      split at h
      · contradiction
      next root hsettle =>
        obtain ⟨rfl, rfl⟩ := Prod.mk.inj (Except.ok.inj h)
        exact congrArg (content _ ++ ·) (content_of_settle hsettle).symm
      next frames hsettle =>
        rw [← ih h]
        exact congrArg (content _ ++ ·) (content_of_settle hsettle).symm

/-- A tree has the content of its items. -/
theorem content_of_assemble (h : assemble start items = .ok e) : e.content = content items := by
  have hcontent := content_of_assembleWith (assemble_eq_ok.1 h)
  simpa [content, framesContent] using hcontent.symm

/-! ### Taking tokens -/

theorem content_release (ops : List (Operator × Location)) (items : List Item) :
    content (release ops items) = content items ++ .ofOperators ops := by
  induction ops generalizing items with
  | nil => exact (Content.append_empty _).symm
  | cons x ops ih =>
    obtain ⟨op, l⟩ := x
    rw [release_cons, ih, Content.ofOperators_cons, ← append_assoc]
    rfl

namespace Yard

/-- The content of a yard; parentheses that wait are no part of it. -/
def content (y : Yard) : Content :=
  Postfix.content y.items ++ .ofOperators (y.waiting.filter (·.1 != .leftParen))

variable {y y' : Yard} {op : Operator} {l : Location}

theorem content_item (y : Yard) (item : Item) (continues : Bool) :
    content { y with items := item :: y.items, continues } = y.content ++ item.content := by
  rw [content, content, append_assoc, append_comm_of_words (a := .ofOperators _) _ rfl,
    ← append_assoc]
  rfl

theorem content_wait (y : Yard) (l : Location) (hop : op ≠ .leftParen) :
    (y.wait op l).content = y.content ++ .operator op l := by
  have hfilter : (y.wait op l).waiting.filter (·.1 != .leftParen) =
      (op, l) :: y.waiting.filter (·.1 != .leftParen) := by
    simp [wait, hop]
  rw [content, hfilter, Content.ofOperators_cons, append_comm_of_words (a := .operator op l) _ rfl,
    ← append_assoc]
  rfl

theorem content_wait_leftParen (y : Yard) (l : Location) :
    (y.wait .leftParen l).content = y.content := by
  simp [content, wait]

/-- Operators that are done go from those that wait to the items. -/
theorem content_of_done {done left : List (Operator × Location)} (h : y.waiting = done ++ left)
    (hdone : ∀ x ∈ done, x.1 ≠ .leftParen) :
    content { y with waiting := left, items := release done y.items } = y.content := by
  have hfilter : done.filter (·.1 != .leftParen) = done :=
    List.filter_eq_self.2 fun x hx => bne_iff_ne.2 (hdone x hx)
  rw [content, content, h, List.filter_append, hfilter, content_release, Content.ofOperators_append,
    append_assoc]

/-- A closing parenthesis goes, and the opening one with it. -/
theorem content_close? (h : y.close? = some y') : y'.content = y.content := by
  obtain ⟨inside, l, outside, hwaiting, hinside, rfl⟩ := close?_eq_some h
  rw [← content_of_done hwaiting hinside]
  simp [content]

theorem content_infixed (y : Yard) (l : Location) (hop : op.isBinary = true) :
    (y.infixed op l).content = y.content ++ .operator op l := by
  have hne : op ≠ .leftParen := by
    rintro rfl
    contradiction
  have hsplit := List.takeWhile_append_dropWhile (p := (decide <| op.precedence ≤ ·.1.precedence))
    (l := y.waiting)
  rw [← content_of_done hsplit.symm, ← content_wait _ l hne]
  · rfl
  · intro x hx
    have hle := List.all_eq_true.1 List.all_takeWhile x hx
    exact ne_leftParen_of_precedence_le hop (of_decide_eq_true hle)

/-- All items of a yard have its content, if no parenthesis is open. -/
theorem content_finish (h : y.openParentheses = []) : Postfix.content y.finish = y.content := by
  rw [← content_of_done (List.append_nil y.waiting).symm (not_leftParen_of_openParentheses h)]
  exact (Content.append_empty _).symm

variable {resolve : String → Option Variable} {t : Token}

/-- A token that is taken adds its own content, if names refer to variables of that name. -/
theorem content_take? (hresolve : ∀ x v, resolve x = some v → v.name = x)
    (h : y.take? resolve t = some y') : y'.content = y.content ++ .ofTokens [t] := by
  cases hkind : t.kind with
  | numeral value =>
    simp only [take?, hkind] at h
    obtain rfl := Option.some.inj h
    have hword : t.word? = some (.numeral value) := by simp [Token.word?, hkind]
    rw [Content.ofTokens_word hword]
    exact content_item y (.operand (.numeral value t.location)) false
  | identifier x =>
    simp only [take?, hkind] at h
    obtain ⟨v, hv, rfl⟩ := Option.map_eq_some_iff.1 h
    have hword : t.word? = some (.identifier x) := by simp [Token.word?, hkind]
    rw [Content.ofTokens_word hword, ← hresolve x v hv]
    exact content_item y (.operand (.reference ⟨v, t.location⟩)) false
  | endOfLine =>
    simp only [take?, hkind] at h
    obtain rfl := Option.some.inj h
    rw [Content.ofTokens_endsLine (by simp [Token.endsLine, Token.isEndOfLine, hkind]),
      Content.append_empty]
  | operator op =>
    have hop := precedence_of_take? hkind h
    rcases cases_of_precedence hop with (rfl | rfl) | hstep | rfl | hbinary
    · rw [take?_before hkind (.inl rfl)] at h
      obtain rfl := Option.some.inj h
      rw [Content.ofTokens_punctuation hkind rfl, Content.append_empty]
      exact content_wait_leftParen y t.location
    · rw [take?_before hkind (.inr rfl)] at h
      obtain rfl := Option.some.inj h
      rw [Content.ofTokens_operation hkind rfl]
      exact content_wait y t.location (by simp)
    · rw [take?_step hkind hstep] at h
      obtain rfl := Option.some.inj h
      rw [Content.ofTokens_operation hkind (by cases op <;> first | rfl | contradiction)]
      exact content_item y (.operator op t.location) false
    · rw [take?_rightParen hkind] at h
      obtain ⟨closed, hclosed, rfl⟩ := Option.map_eq_some_iff.1 h
      rw [Content.ofTokens_punctuation hkind rfl, Content.append_empty]
      have hcontent := content_close? hclosed
      exact hcontent
    · rw [take?_binary hkind hbinary] at h
      obtain rfl := Option.some.inj h
      rw [Content.ofTokens_operation hkind (by cases op <;> first | rfl | contradiction)]
      exact content_infixed y t.location hbinary
  | _ => simp [take?, hkind] at h

theorem content_takeAll? {ts : List Token} (hresolve : ∀ x v, resolve x = some v → v.name = x)
    (h : y.takeAll? resolve ts = some y') : y'.content = y.content ++ .ofTokens ts := by
  refine takeAll?_induction (motive := fun us z => z.content = y.content ++ .ofTokens us) h
    (Content.append_empty _).symm fun us z t z' _ hus ht => ?_
  rw [content_take? hresolve ht, hus, append_assoc, ← Content.ofTokens_append]

end Yard

/-- A tree has the content of the tokens taken for it. -/
theorem content_of_takeAll? {resolve : String → Option Variable} {ts : List Token} {y : Yard}
    (hresolve : ∀ x v, resolve x = some v → v.name = x)
    (htake : Yard.takeAll? resolve {} ts = some y) (hclosed : y.openParentheses = [])
    (he : assemble start y.finish = .ok e) : e.content = .ofTokens ts := by
  rw [content_of_assemble he, Yard.content_finish hclosed, Yard.content_takeAll? hresolve htake]
  exact Content.empty_append _

end Postfix

end FloatLang
