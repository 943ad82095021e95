import FloatLang.Lowering.Tree
import FloatLang.Proofs.Lowering.Scoping

/-!
# Lowering to text and the text of a statement

The backend for texts puts the text of a node together from those of its parts, and a statement has
a text of its own. They are the same unless a node is refused on the way: then the text of the
statement has the parenthesis of the node where the backend says that it is invalid, and the two are
different however they go on. Nothing is refused in what is read without errors.

## Main definitions

* `Expr.isAdmissible`, `Statement.isAdmissible` — trees in which nothing is refused
* `Renders` — a text is that of a node, or says of a part of the node that it is invalid
* `Writes` — what a computation answers, if it leaves the scopes that were entered

## Main results

* `Expr.writes`, `Statement.writes` — what expressions and statements are lowered to
* `Statement.lowering_text_iff` — a statement is lowered to its text just if it is admissible
* `MadeAll.run_lowerAll` — statements that are read without errors are lowered to their texts
-/

namespace FloatLang

/-! ### Admissible trees -/

namespace Expr

/-- Whether every operand in an expression is one, and that of a step a variable. -/
def isAdmissible : Expr → Bool
  | unary op operand _ => accepts op operand && operand.isAdmissible
  | binary _ left right _ =>
    (left.isOperand && right.isOperand) && (left.isAdmissible && right.isAdmissible)
  | condition inner _ => inner.isOperand && inner.isAdmissible
  | invalid _ | reference _ | numeral .. => true

theorem isAdmissible_of_isProper {e : Expr} (h : e.isProper = true) : e.isAdmissible = true := by
  induction e with
  | invalid l => rfl
  | condition inner l => contradiction
  | reference r => rfl
  | numeral value l => rfl
  | unary op e l ih =>
    obtain ⟨haccepts, he⟩ := isProper_unary h
    exact Bool.and_eq_true_iff.2 ⟨haccepts, ih he⟩
  | binary op a b l iha ihb =>
    obtain ⟨ha, hb⟩ := isProper_binary h
    exact Bool.and_eq_true_iff.2
      ⟨Bool.and_eq_true_iff.2 ⟨isOperand_of_isProper ha, isOperand_of_isProper hb⟩,
        Bool.and_eq_true_iff.2 ⟨iha ha, ihb hb⟩⟩

theorem isAdmissible_condition {e : Expr} (h : e.isProper = true) (l : Location) :
    (condition e l).isAdmissible = true :=
  Bool.and_eq_true_iff.2 ⟨isOperand_of_isProper h, isAdmissible_of_isProper h⟩

end Expr

namespace Statement

mutual

/-- Whether every operand in a statement is one, and that of a step a variable, no expression that
stands alone is invalid, and neither half of a compound is, in all that is nested in it. -/
def isAdmissible : Statement → Bool
  | assign _ value _ => value.isOperand && value.isAdmissible
  | branch condition body _ => condition.expr.isAdmissible && scopeAdmissible body
  | loop init condition increment body _ =>
    clauseAdmissible init && clauseAdmissible condition && clauseAdmissible increment &&
      scopeAdmissible body
  | expr e _ => !e.isInvalid && e.isAdmissible
  | compound first second _ =>
    !(first.isInvalid || second.isInvalid) && (first.isAdmissible && second.isAdmissible)
  | invalid _ | declare _ | step .. => true

/-- Whether all statements of a scope are. -/
def scopeAdmissible : Scope Statement → Bool
  | ⟨_, _, _, statements⟩ => allAdmissible statements

/-- Whether all statements in a row are. -/
def allAdmissible : List Statement → Bool
  | [] => true
  | s :: rest => s.isAdmissible && allAdmissible rest

/-- Whether a clause of a loop is, if it is there. -/
def clauseAdmissible : Option Statement → Bool
  | none => true
  | some s => s.isAdmissible

end

theorem scopeAdmissible_eq (body : Scope Statement) :
    scopeAdmissible body = allAdmissible body.statements := by
  rw [scopeAdmissible]

theorem clauseAdmissible_eq_true {clause : Option Statement}
    (h : ∀ s ∈ clause, s.isAdmissible = true) : clauseAdmissible clause = true := by
  cases clause with
  | none => rfl
  | some s => exact h s rfl

theorem isAdmissible_branch {condition : Condition} {body : Scope Statement} {l : Location}
    (hcondition : condition.inner.isProper = true)
    (hbody : allAdmissible body.statements = true) :
    (branch condition body l).isAdmissible = true := by
  rw [isAdmissible, scopeAdmissible_eq, hbody, Bool.and_true]
  exact Expr.isAdmissible_condition hcondition _

theorem isAdmissible_loop {init condition increment : Option Statement} {body : Scope Statement}
    {l : Location} (hinit : allAdmissible init.toList = true)
    (hcondition : ∀ s ∈ condition, s.isAdmissible = true)
    (hincrement : ∀ s ∈ increment, s.isAdmissible = true)
    (hbody : allAdmissible body.statements = true) :
    (loop init condition increment body l).isAdmissible = true := by
  have hfirst : clauseAdmissible init = true := by
    cases init with
    | none => rfl
    | some s => exact (Bool.and_eq_true_iff.1 hinit).1
  rw [isAdmissible, hfirst, clauseAdmissible_eq_true hcondition,
    clauseAdmissible_eq_true hincrement, scopeAdmissible_eq, hbody]
  rfl

end Statement

/-! ### Texts -/

/-- What has the text `t` is rendered as `a`: they are the same if they agree, and otherwise they
part where `t` has the parenthesis of a node and `a` says that it is invalid. -/
inductive Renders (t a : String) : Bool → Prop
  | same (h : a = t) : Renders t a true
  | parts (before rest rest' : List Char) (ht : t.toList = before ++ '(' :: rest)
      (ha : a.toList = before ++ '<' :: rest') : Renders t a false

namespace Renders

variable {t t' a a' : String} {agrees agrees' : Bool}

theorem refl (t : String) : Renders t t true := .same rfl

theorem eq_iff (h : Renders t a agrees) : a = t ↔ agrees = true := by
  cases h with
  | same h => exact iff_of_true h rfl
  | parts before rest rest' ht ha =>
    refine iff_of_false (fun heq => ?_) Bool.false_ne_true
    rw [← heq, ha, List.append_right_inj] at ht
    have hfirst : '<' = '(' := (List.cons.inj ht).1
    exact absurd hfirst (by decide)

/-- Texts in a row part where the first ones of them do. -/
theorem append (h : Renders t a agrees) (h' : Renders t' a' agrees') :
    Renders (t ++ t') (a ++ a') (agrees && agrees') := by
  -- the second texts matter only if the first ones agree
  cases h with
  | parts before rest rest' ht ha =>
    refine .parts before (rest ++ t'.toList) (rest' ++ a'.toList) ?_ ?_
    · rw [String.toList_append, ht, List.append_assoc, List.cons_append]
    · rw [String.toList_append, ha, List.append_assoc, List.cons_append]
  | same h =>
    subst h
    cases h' with
    | same h' => exact .same (by rw [h'])
    | parts before rest rest' ht ha =>
      refine .parts (a.toList ++ before) rest rest' ?_ ?_
      · rw [String.toList_append, ht, List.append_assoc]
      · rw [String.toList_append, ha, List.append_assoc]

theorem after (h : Renders t a agrees) (s : String) : Renders (s ++ t) (s ++ a) agrees :=
  (refl s).append h

theorem before (h : Renders t a agrees) (s : String) : Renders (t ++ s) (a ++ s) agrees := by
  have happend := h.append (refl s)
  rwa [Bool.and_true] at happend

/-- A node that is refused is rendered as an invalid one. -/
theorem refused (ht : t.toList.head? = some '(') : Renders t "<invalid>" false := by
  obtain ⟨rest, hrest⟩ := List.head?_eq_some_iff.1 ht
  exact .parts [] rest "invalid>".toList hrest rfl

end Renders

/-- The texts in a row, each after a space. -/
def spacedRow : List String → String
  | [] => ""
  | t :: rest => " " ++ t ++ spacedRow rest

theorem spacedRow_cons (t : String) (rest : List String) :
    spacedRow (t :: rest) = " " ++ " ".intercalate (t :: rest) := by
  induction rest generalizing t with
  | nil => simp [spacedRow]
  | cons t' rest ih =>
    have hwords : " ".intercalate (t :: t' :: rest) = t ++ " " ++ " ".intercalate (t' :: rest) :=
      String.intercalate_cons_of_ne_nil (List.cons_ne_nil _ _)
    rw [spacedRow, ih, hwords]
    simp only [String.append_assoc]

theorem LoweredScope.text_eq (body : LoweredScope String) :
    body.text = "(scope" ++ spacedRow body.statements ++ ")" := by
  obtain ⟨id, declared, statements⟩ := body
  cases statements with
  | nil => rfl
  | cons t rest =>
    rw [spacedRow_cons]
    simp only [String.append_assoc]
    rfl

/-! ### Computations -/

/-- The computation leaves as many scopes as it enters, and `left` more, and what is seen of its
answer renders the text. -/
def Writes {α : Type} (left : Nat) (m : StateM Nat α) (view : α → String) (t : String)
    (agrees : Bool) : Prop :=
  ∀ depth, ∃ a, m.run (depth + left) = (a, depth) ∧ Renders t (view a) agrees

/-- What a computation does first, and then with the answer. -/
theorem run_bind_eq {σ α β : Type} {m : StateM σ α} {f : α → StateM σ β} {s t : σ} {a : α}
    {r : β × σ} (hm : m.run s = (a, t)) (hf : (f a).run t = r) : (m >>= f).run s = r := by
  rw [StateT.run_bind, hm]
  exact hf

section Writes

variable {α β : Type} {left : Nat} {m : StateM Nat α} {view : α → String} {view' : β → String}
  {t t' : String} {agrees agrees' : Bool}

theorem writes_pure {a : α} (h : Renders t (view a) agrees) : Writes 0 (pure a) view t agrees :=
  fun _ => ⟨a, rfl, h⟩

theorem Writes.bind {f : α → StateM Nat β} (hm : Writes 0 m view t agrees)
    (hf : ∀ a, Renders t (view a) agrees → Writes left (f a) view' t' agrees') :
    Writes left (m >>= f) view' t' agrees' := by
  intro depth
  obtain ⟨a, hrun, ha⟩ := hm (depth + left)
  obtain ⟨b, hrun', hb⟩ := hf a ha depth
  exact ⟨b, run_bind_eq hrun hrun', hb⟩

/-- The answer is put into something else. -/
theorem Writes.pack (hm : Writes 0 m view t agrees) {f : α → β}
    (hf : ∀ a, Renders t (view a) agrees → Renders t' (view' (f a)) agrees') :
    Writes 0 (m >>= fun a => pure (f a)) view' t' agrees' :=
  hm.bind fun a ha => writes_pure (hf a ha)

theorem Writes.enterScope (hm : Writes 1 m view t agrees) :
    Writes 0 (Backend.tree.enterScope >>= fun _ => m) view t agrees :=
  hm

theorem Writes.leaveScope (hm : Writes 0 m view t agrees) :
    Writes 1 (Backend.tree.leaveScope >>= fun _ => m) view t agrees :=
  hm

end Writes

/-! ### Expressions -/

namespace Expr

/-- An expression is lowered to its text, unless a part of it is refused. -/
theorem writes (e : Expr) : Writes 0 (e.lower Backend.tree) id e.text e.isAdmissible := by
  induction e with
  | invalid l => exact writes_pure (.refl _)
  | reference r => exact writes_pure (.refl _)
  | numeral value l => exact writes_pure (.refl _)
  | unary op e l ih =>
    rw [lower, isAdmissible]
    cases accepts op e with
    | false => exact writes_pure (.refused (by simp [text]))
    | true => exact ih.pack fun a ha => (ha.after _).before _
  | binary op a b l iha ihb =>
    rw [lower, isAdmissible]
    cases a.isOperand && b.isOperand with
    | false => exact writes_pure (.refused (by simp [text]))
    | true =>
      exact iha.bind fun a ha => ihb.pack fun b hb => (((ha.after _).before _).append hb).before _
  | condition e l ih =>
    rw [lower, isAdmissible]
    cases e.isOperand with
    | false => exact writes_pure (.refused (by simp [text]))
    | true => exact ih.pack fun a ha => (ha.after _).before _

end Expr

/-! ### Statements -/

namespace Statement

theorem writes_assign (target : Reference) (value : Expr) (l : Location) :
    Writes 0 ((assign target value l).lower Backend.tree) id (assign target value l).text
      (assign target value l).isAdmissible := by
  have htarget : Writes 0 (target.lower Backend.tree) id target.target.name true :=
    writes_pure (.refl _)
  rw [lower, isAdmissible]
  cases value.isOperand with
  | false => exact writes_pure (.refused (by simp [text]))
  | true =>
    exact htarget.bind fun a ha => value.writes.pack fun b hb =>
      (((ha.after _).before _).append hb).before _

theorem writes_step (direction : Direction) (target : Reference) (l : Location) :
    Writes 0 ((step direction target l).lower Backend.tree) id (step direction target l).text
      true := by
  have hstep := (stepExpr direction target l).writes
  have hadmissible : (stepExpr direction target l).isAdmissible = true := by
    cases direction <;> rfl
  rw [hadmissible] at hstep
  rw [lower]
  cases direction with
  | up => exact hstep.pack fun a ha => (ha.after _).before _
  | down => exact hstep.pack fun a ha => (ha.after _).before _

theorem writes_declare (v : Variable) :
    Writes 0 ((declare v).lower Backend.tree) id (declare v).text true := by
  have hobject : Writes 0 (Backend.tree.object v) id v.name true := writes_pure (.refl _)
  rw [lower]
  exact hobject.pack fun _ ha => (ha.after _).before _

theorem writes_expr (e : Expr) (l : Location) :
    Writes 0 ((expr e l).lower Backend.tree) id (expr e l).text (expr e l).isAdmissible := by
  rw [lower, isAdmissible]
  cases e.isInvalid with
  | true => exact writes_pure (.refused (by simp [text]))
  | false => exact e.writes.pack fun a ha => (ha.after _).before _

theorem writes_compound {first second : Statement} (l : Location)
    (hfirst : Writes 0 (first.lower Backend.tree) id first.text first.isAdmissible)
    (hsecond : Writes 0 (second.lower Backend.tree) id second.text second.isAdmissible) :
    Writes 0 ((compound first second l).lower Backend.tree) id (compound first second l).text
      (compound first second l).isAdmissible := by
  rw [lower, isAdmissible]
  cases first.isInvalid || second.isInvalid with
  | true => exact writes_pure (.refused (by simp [text]))
  | false =>
    exact hfirst.bind fun a ha => hsecond.pack fun b hb =>
      (((ha.after _).before _).append hb).before _

mutual

/-- A statement is lowered to its text, unless a part of it is refused. -/
theorem writes : (s : Statement) → Writes 0 (s.lower Backend.tree) id s.text s.isAdmissible
  | invalid _ => writes_pure (.refl _)
  | declare v => writes_declare v
  | assign target value l => writes_assign target value l
  | step direction target l => writes_step direction target l
  | expr e l => writes_expr e l
  | compound first second l => writes_compound l first.writes second.writes
  | branch condition body l => by
    rw [lower, isAdmissible]
    -- the condition comes after the scope is left, and is written before the body
    exact Writes.enterScope <| (writesIn body).bind fun b hb => Writes.leaveScope <|
      condition.expr.writes.pack fun e he => (((he.after _).before _).append hb).before _
  | loop init condition increment body l => by
    rw [lower, isAdmissible]
    exact Writes.enterScope <| (writesOf init).bind fun i hi =>
      (writesOf condition).bind fun c hc => (writesOf increment).bind fun n hn =>
        (writesIn body).bind fun b hb => Writes.leaveScope <| writes_pure
          ((((((((hi.after _).before _).append hc).before _).append hn).before _).append hb).before _)

theorem writesIn : (body : Scope Statement) →
    Writes 0 (lowerScope Backend.tree body) LoweredScope.text (scopeText body)
      (scopeAdmissible body)
  | ⟨id, _, declared, statements⟩ => by
    refine (writesAll statements).pack fun handles hhandles => ?_
    rw [LoweredScope.text_eq]
    exact (hhandles.after _).before _

theorem writesAll : (ss : List Statement) →
    Writes 0 (lowerAll Backend.tree ss) spacedRow (listText ss) (allAdmissible ss)
  | [] => writes_pure (.refl _)
  | s :: rest => s.writes.bind fun _ ha => (writesAll rest).pack fun _ hrest =>
      (ha.after _).append hrest

theorem writesOf : (clause : Option Statement) →
    Writes 0 (lowerClause Backend.tree clause) Backend.clauseText (clauseText clause)
      (clauseAdmissible clause)
  | none => writes_pure (.refl _)
  | some s => s.writes.pack fun _ ha => ha

end

/-- The text that a statement is lowered to is its own if and only if the statement is admissible;
in any case the scopes that are entered are left. -/
theorem lowering_text_iff (s : Statement) (depth : Nat) :
    ((s.lower Backend.tree).run depth).2 = depth ∧
      (((s.lower Backend.tree).run depth).1 = s.text ↔ s.isAdmissible = true) := by
  obtain ⟨a, hrun, ha⟩ := s.writes depth
  have htext : ((s.lower Backend.tree).run depth).1 = a := congrArg Prod.fst hrun
  refine ⟨congrArg Prod.snd hrun, ?_⟩
  rw [htext]
  exact ha.eq_iff

/-- Admissible statements in a row are lowered to their texts. -/
theorem run_lowerAll {ss : List Statement} (h : allAdmissible ss = true) (depth : Nat) :
    (lowerAll Backend.tree ss).run depth = (ss.map text, depth) := by
  induction ss with
  | nil => rfl
  | cons s rest ih =>
    obtain ⟨hs, hrest⟩ := Bool.and_eq_true_iff.1 h
    obtain ⟨a, hrun, ha⟩ := s.writes depth
    obtain rfl : a = s.text := ha.eq_iff.2 hs
    rw [lowerAll]
    exact run_bind_eq hrun (run_bind_eq (ih hrest) rfl)

end Statement

open Statement

variable {source : Source}

theorem ConditionIn.isAdmissible {xs : List Variable} {i j : Nat} {s : Statement}
    (h : ConditionIn source xs i j s) : s.isAdmissible = true := by
  obtain @⟨e, l, l', h⟩ := h
  exact Expr.isAdmissible_condition h.isProper l

theorem StepIn.isAdmissible {xs : List Variable} {i j : Nat} {s : Statement}
    (h : StepIn source xs i j s) : s.isAdmissible = true := by
  cases h
  rfl

mutual

/-- A statement that is made of tokens without failures is admissible. -/
theorem Made.isAdmissible {xs : List Variable} {i j : Nat} {s : Statement} :
    Made source xs i j s → s.failures = 0 → s.isAdmissible = true
  | .declare _, _ => rfl
  | .assign _ hvalue, _ =>
    Bool.and_eq_true_iff.2
      ⟨Expr.isOperand_of_isProper hvalue.isProper, Expr.isAdmissible_of_isProper hvalue.isProper⟩
  | .step _, _ => rfl
  | .branch hcondition _ hbody, hfailures => by
    rw [failures_branch] at hfailures
    exact isAdmissible_branch hcondition.isProper (hbody.allAdmissible hfailures)
  | .loop hinit _ _ _ hcondition _ hincrement _ hbody, hfailures => by
    obtain ⟨hfirst, hrest⟩ := failures_eq_zero_of_loop hfailures
    exact isAdmissible_loop (hinit.allAdmissible hfirst)
      (fun s hs => (hcondition s hs).isAdmissible) (fun s hs => (hincrement s hs).isAdmissible)
      (hbody.allAdmissible hrest)
  | .define _ hvalue, _ => by
    have hproper := hvalue.isProper
    rw [Statement.isAdmissible, Statement.isAdmissible, Statement.isAdmissible,
      Expr.isOperand_of_isProper hproper, Expr.isAdmissible_of_isProper hproper]
    rfl
  | .undefined _, hfailures => by simp [failures, parts, isInvalid] at hfailures

theorem MadeAll.allAdmissible {xs : List Variable} {i j : Nat} {ss : List Statement} :
    MadeAll source xs i j ss → failuresAll ss = 0 → Statement.allAdmissible ss = true
  | .nil _, _ => rfl
  | .cons _ hfirst hrest, hfailures => by
    rw [failuresAll_cons, Nat.add_eq_zero_iff] at hfailures
    exact Bool.and_eq_true_iff.2
      ⟨hfirst.isAdmissible hfailures.1, hrest.allAdmissible hfailures.2⟩

end

/-- Statements that are made of tokens without failures are lowered to their texts. -/
theorem MadeAll.run_lowerAll {xs : List Variable} {i j : Nat} {ss : List Statement}
    (h : MadeAll source xs i j ss) (hfailures : failuresAll ss = 0) (depth : Nat) :
    (lowerAll Backend.tree ss).run depth = (ss.map text, depth) :=
  Statement.run_lowerAll (h.allAdmissible hfailures) depth

end FloatLang
