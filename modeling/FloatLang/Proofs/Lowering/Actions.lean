import FloatLang.Compilation
import FloatLang.Lowering.Trace
import FloatLang.Proofs.Tree.Blocks

/-!
# What lowering does to scopes and variables

Of the calls that a program is lowered to, some concern scopes and variables, and some say that a
node is invalid. These actions can be read off the tree, without the handles that the calls are
about: a name is a handle that was obtained for its variable just before.

## Main definitions

* `Action` — an action on scopes and variables
* `Action.ofCalls` — the actions among calls
* `Statement.actions` — the actions that lowering a statement takes
* `OnlyUses` — actions that are uses of variables
* `Emits` — a computation that takes the given actions

## Main results

* `Made.emits`, `MadeAll.emits` — statements made of tokens take their actions
* `Parser.actions_of_calls` — so does a whole program
-/

namespace FloatLang

/-- An action on scopes and variables. A variable is `none` if the handle was not obtained for
one. -/
inductive Action
  | object (v : Variable)
  | declare (v? : Option Variable)
  | use (v? : Option Variable)
  | enter
  | leave
  | invalidExpr
  | invalidStatement
  deriving DecidableEq, Repr

/-- The variable that a handle was obtained for, among the calls made before. -/
def Call.target? (before : List Call) (handle : Nat) : Option Variable :=
  match before[handle]? with
  | some (.object v) => some v
  | _ => none

/-- The action of a call, after the calls made before. -/
def Call.action? (before : List Call) : Call → Option Action
  | .object v => some (.object v)
  | .declare v => some (.declare (target? before v))
  | .reference v _ => some (.use (target? before v))
  | .enterScope => some .enter
  | .leaveScope => some .leave
  | .invalidExpr => some .invalidExpr
  | .invalidStatement => some .invalidStatement
  | _ => none

/-- The actions of calls that come after others. -/
def Action.ofCalls (before : List Call) : List Call → List Action
  | [] => []
  | call :: rest => (call.action? before).toList ++ ofCalls (before ++ [call]) rest

/-! ### The actions of a tree -/

/-- A name is looked up and then used. -/
def Reference.actions (r : Reference) : List Action := [.object r.target, .use (some r.target)]

def Expr.actions (e : Expr) : List Action := e.references.flatMap Reference.actions

namespace Statement

mutual

/-- The actions that lowering a statement takes. A block statement keeps its own scope open around
its body and clauses, but not around the condition of a branch. -/
def actions : Statement → List Action
  | invalid _ => [.invalidStatement]
  | declare v => [.object v, .declare (some v)]
  | assign target value _ => target.actions ++ value.actions
  | step _ target _ => target.actions
  | branch condition body _ => [.enter] ++ actionsIn body ++ [.leave] ++ condition.inner.actions
  | loop init condition increment body _ =>
    [.enter] ++ actionsOf init ++ actionsOf condition ++ actionsOf increment ++ actionsIn body ++
      [.leave]
  | expr e _ => e.actions
  | compound first second _ =>
    if first.isInvalid || second.isInvalid then [.invalidStatement]
    else first.actions ++ second.actions

/-- The actions that lowering a scope takes. -/
def actionsIn : Scope Statement → List Action
  | ⟨_, _, _, statements⟩ => actionsAll statements

/-- The actions that lowering statements in a row takes. -/
def actionsAll : List Statement → List Action
  | [] => []
  | s :: rest => s.actions ++ actionsAll rest

/-- The actions that lowering a clause of a loop takes. -/
def actionsOf : Option Statement → List Action
  | none => []
  | some s => s.actions

end

theorem actionsIn_eq (body : Scope Statement) : actionsIn body = actionsAll body.statements := by
  rw [actionsIn]

theorem actionsOf_eq (clause : Option Statement) : actionsOf clause = actionsAll clause.toList := by
  cases clause <;> simp [actionsOf, actionsAll]

end Statement

/-! ### Actions that are uses only -/

/-- The actions are uses of the variables `xs`, and nothing else. -/
def OnlyUses (xs : List Variable) (as : List Action) : Prop :=
  ∃ rs : List Reference, as = rs.flatMap Reference.actions ∧ ∀ r ∈ rs, r.target ∈ xs

section OnlyUses

variable {source : Source} {xs : List Variable} {i j : Nat}

theorem OnlyUses.append {as bs : List Action} (has : OnlyUses xs as) (hbs : OnlyUses xs bs) :
    OnlyUses xs (as ++ bs) := by
  obtain ⟨rs, rfl, hrs⟩ := has
  obtain ⟨rs', rfl, hrs'⟩ := hbs
  refine ⟨rs ++ rs', List.flatMap_append.symm, ?_⟩
  intro r hr
  exact (List.mem_append.1 hr).elim (hrs r) (hrs' r)

theorem UsedIn.onlyUses {r : Reference} (h : UsedIn source xs i j r) : OnlyUses xs r.actions :=
  ⟨[r], (List.append_nil _).symm, by simpa using h.target⟩

theorem ReadIn.onlyUses {e : Expr} (h : ReadIn source xs i j e) : OnlyUses xs e.actions :=
  ⟨e.references, rfl, fun r hr => (h.used r hr).target⟩

theorem ConditionIn.onlyUses {s : Statement} (h : ConditionIn source xs i j s) :
    OnlyUses xs s.actions := by
  obtain ⟨h⟩ := h
  exact h.onlyUses

theorem StepIn.onlyUses {s : Statement} (h : StepIn source xs i j s) :
    OnlyUses xs s.actions := by
  obtain ⟨h⟩ := h
  exact h.onlyUses

/-- A clause of a loop that only uses variables, if there is one. -/
theorem Statement.onlyUses_clause {clause : Option Statement}
    (h : ∀ s ∈ clause, OnlyUses xs s.actions) : OnlyUses xs (actionsOf clause) := by
  cases clause with
  | none => exact ⟨[], rfl, by simp⟩
  | some s => exact h s rfl

end OnlyUses

/-! ### Computations that take actions -/

theorem Action.ofCalls_append (before calls calls' : List Call) :
    ofCalls before (calls ++ calls') =
      ofCalls before calls ++ ofCalls (before ++ calls) calls' := by
  induction calls generalizing before with
  | nil => simp [ofCalls]
  | cons call calls ih =>
    rw [List.cons_append, ofCalls, ih, ofCalls, List.append_assoc, List.append_assoc,
      List.singleton_append]

/-- An action that only one call takes is taken as often as the call is made. -/
theorem Action.count_ofCalls {action : Action} {call : Call}
    (h : ∀ before c, Call.action? before c = some action ↔ c = call) (before calls : List Call) :
    (ofCalls before calls).count action = calls.count call := by
  induction calls generalizing before with
  | nil => rfl
  | cons c calls ih =>
    rw [ofCalls, List.count_append, ih, List.count_cons, Nat.add_comm]
    congr 1
    by_cases hc : c = call
    · rw [(h before c).2 hc, hc]
      simp
    · have hne : Call.action? before c ≠ some action := mt (h before c).1 hc
      cases hother : Call.action? before c with
      | none => simp [hc]
      | some other =>
        rw [hother] at hne
        have hother' : other ≠ action := fun h => hne (congrArg some h)
        simp [hc, hother']

/-- The computation records calls that take the given actions, whatever was recorded before. -/
def Emits {α : Type} (m : StateM (Array Call) α) (actions : List Action) : Prop :=
  ∀ calls : Array Call, ∃ more, (m.run calls).2.toList = calls.toList ++ more ∧
    Action.ofCalls calls.toList more = actions

variable {α β : Type} {m : StateM (Array Call) α} {as bs : List Action}

theorem emits_pure (a : α) : Emits (pure a : StateM (Array Call) α) [] := by
  intro calls
  exact ⟨[], (List.append_nil _).symm, rfl⟩

theorem Emits.bind {f : α → StateM (Array Call) β} (hm : Emits m as) (hf : ∀ a, Emits (f a) bs) :
    Emits (m >>= f) (as ++ bs) := by
  intro calls
  obtain ⟨more, hmore, has⟩ := hm calls
  obtain ⟨more', hmore', hbs⟩ := hf (m.run calls).1 (m.run calls).2
  refine ⟨more ++ more', ?_, ?_⟩
  · rw [← List.append_assoc, ← hmore, ← hmore']
    rfl
  · rw [Action.ofCalls_append, has, ← hmore, hbs]

/-- A call that does not depend on the calls before it. -/
theorem emits_record {call : Call} (h : ∀ before, (call.action? before).toList = as) :
    Emits (Backend.record call) as := by
  intro calls
  refine ⟨[call], ?_, ?_⟩
  · exact Array.toList_push
  · rw [Action.ofCalls, Action.ofCalls, h, List.append_nil]

/-- A last call that is no action of its own. -/
theorem Emits.then_record {call : α → Call} (hm : Emits m as)
    (h : ∀ handle before, (call handle).action? before = none) :
    Emits (m >>= fun handle => Backend.record (call handle)) as := by
  have hlast (handle : α) : Emits (Backend.record (call handle)) [] := by
    apply emits_record
    intro before
    rw [h]
    rfl
  have hboth := hm.bind hlast
  rwa [List.append_nil] at hboth

theorem Call.target?_append_object (before : List Call) (v : Variable) :
    target? (before ++ [.object v]) before.length = some v := by
  simp [target?]

/-- A call about a variable whose handle was obtained just before. -/
theorem emits_handle {v : Variable} {call : Nat → Call} {action : Option Variable → Action}
    (h : ∀ before handle, (call handle).action? before = some (action (Call.target? before handle))) :
    Emits (Backend.record (.object v) >>= fun handle => Backend.record (call handle))
      [.object v, action (some v)] := by
  intro calls
  refine ⟨[.object v, call calls.size], ?_, ?_⟩
  · change ((calls.push (.object v)).push (call calls.size)).toList = _
    rw [Array.toList_push, Array.toList_push, List.append_assoc]
    rfl
  · rw [Action.ofCalls, Action.ofCalls, Action.ofCalls, h, ← Array.length_toList,
      Call.target?_append_object]
    rfl

theorem Reference.emits (r : Reference) : Emits (r.lower Backend.trace) r.actions :=
  emits_handle fun _ _ => rfl

/-! ### Expressions -/

namespace Expr

theorem isOperand_of_isProper {e : Expr} (h : e.isProper = true) : e.isOperand = true := by
  cases e <;> first | rfl | contradiction

theorem isProper_unary {op : Operator} {e : Expr} {l : Location}
    (h : (unary op e l).isProper = true) : accepts op e = true ∧ e.isProper = true := by
  obtain ⟨hshape, hsteps⟩ := Bool.and_eq_true_iff.1 h
  have hshape' : Postfix.isInfix e = true := (Bool.and_eq_true_iff.1 hshape).2
  obtain ⟨hstep, hsteps'⟩ := Bool.and_eq_true_iff.1 hsteps
  have he : e.isProper = true := Bool.and_eq_true_iff.2 ⟨hshape', hsteps'⟩
  exact ⟨Bool.and_eq_true_iff.2 ⟨hstep, isOperand_of_isProper he⟩, he⟩

theorem isProper_binary {op : Operator} {a b : Expr} {l : Location}
    (h : (binary op a b l).isProper = true) : a.isProper = true ∧ b.isProper = true := by
  obtain ⟨hshape, hsteps⟩ := Bool.and_eq_true_iff.1 h
  obtain ⟨hleft, hright⟩ := Bool.and_eq_true_iff.1 hshape
  obtain ⟨hstepsLeft, hstepsRight⟩ := Bool.and_eq_true_iff.1 hsteps
  exact ⟨Bool.and_eq_true_iff.2 ⟨(Bool.and_eq_true_iff.1 hleft).2, hstepsLeft⟩,
    Bool.and_eq_true_iff.2 ⟨hright, hstepsRight⟩⟩

/-- A proper expression is lowered to the uses of its variables. -/
theorem emits {e : Expr} (h : e.isProper = true) : Emits (e.lower Backend.trace) e.actions := by
  induction e with
  | invalid l => contradiction
  | condition inner l => contradiction
  | reference r =>
    have hactions : (reference r).actions = r.actions := by simp [actions, references]
    rw [hactions]
    exact r.emits
  | numeral value l => exact emits_record fun _ => rfl
  | unary op e l ih =>
    obtain ⟨haccepts, he⟩ := isProper_unary h
    rw [lower, if_pos haccepts]
    exact (ih he).then_record fun _ _ => rfl
  | binary op a b l iha ihb =>
    obtain ⟨ha, hb⟩ := isProper_binary h
    have hoperands : (a.isOperand && b.isOperand) = true :=
      Bool.and_eq_true_iff.2 ⟨isOperand_of_isProper ha, isOperand_of_isProper hb⟩
    have hactions : (binary op a b l).actions = a.actions ++ b.actions := List.flatMap_append
    rw [lower, if_pos hoperands, hactions]
    exact (iha ha).bind fun _ => (ihb hb).then_record fun _ _ => rfl

/-- The expression of a condition is lowered to the uses of its variables. -/
theorem emits_condition {e : Expr} (h : e.isProper = true) (l : Location) :
    Emits ((condition e l).lower Backend.trace) e.actions := by
  rw [lower, if_pos (isOperand_of_isProper h)]
  exact (emits h).then_record fun _ _ => rfl

end Expr

/-! ### Statements -/

namespace Statement

theorem emits_declare (v : Variable) :
    Emits ((declare v).lower Backend.trace) (declare v).actions :=
  emits_handle fun _ _ => rfl

theorem emits_assign {target : Reference} {value : Expr} {l : Location}
    (h : value.isProper = true) :
    Emits ((assign target value l).lower Backend.trace) (assign target value l).actions := by
  rw [lower, if_pos (Expr.isOperand_of_isProper h), actions]
  apply target.emits.bind
  intro _
  exact (Expr.emits h).then_record fun _ _ => rfl

theorem emits_compound {first second : Statement} {l : Location}
    (hvalid : ¬ (first.isInvalid || second.isInvalid) = true)
    (hfirst : Emits (first.lower Backend.trace) first.actions)
    (hsecond : Emits (second.lower Backend.trace) second.actions) :
    Emits ((compound first second l).lower Backend.trace) (compound first second l).actions := by
  rw [lower, actions, if_neg hvalid, if_neg hvalid]
  apply hfirst.bind
  intro _
  exact hsecond.then_record fun _ _ => rfl

theorem emits_step (direction : Direction) (target : Reference) (l : Location) :
    Emits ((step direction target l).lower Backend.trace) target.actions := by
  have hproper : (stepExpr direction target l).isProper = true := by
    cases direction <;> rfl
  have hactions : (stepExpr direction target l).actions = target.actions := by
    simp [stepExpr, Expr.actions, Expr.references]
  rw [lower, ← hactions]
  cases direction <;> exact (Expr.emits hproper).then_record fun _ _ => rfl

theorem emits_enterScope : Emits Backend.trace.enterScope [.enter] := by
  have henter : Emits (Backend.record .enterScope) [.enter] := emits_record fun _ => rfl
  exact henter.bind fun _ => emits_pure ()

theorem emits_leaveScope : Emits Backend.trace.leaveScope [.leave] := by
  have hleave : Emits (Backend.record .leaveScope) [.leave] := emits_record fun _ => rfl
  exact hleave.bind fun _ => emits_pure ()

theorem emits_scope {body : Scope Statement}
    (h : Emits (lowerAll Backend.trace body.statements) (actionsAll body.statements)) :
    Emits (lowerScope Backend.trace body) (actionsIn body) := by
  have hscope := h.bind fun handles =>
    emits_pure ({ id := body.id, declared := body.declared, statements := handles } :
      LoweredScope Nat)
  rw [List.append_nil] at hscope
  rw [lowerScope, actionsIn_eq]
  exact hscope

theorem emits_clause {clause : Option Statement}
    (h : ∀ s ∈ clause, Emits (s.lower Backend.trace) s.actions) :
    Emits (lowerClause Backend.trace clause) (actionsOf clause) := by
  cases clause with
  | none => exact emits_pure none
  | some s =>
    have hclause := (h s rfl).bind fun handle => emits_pure (some handle)
    rwa [List.append_nil] at hclause

/-- The only one of statements in a row takes its actions if they do. -/
theorem emits_of_emitsAll {clause : Option Statement}
    (h : Emits (lowerAll Backend.trace clause.toList) (actionsAll clause.toList)) :
    ∀ s ∈ clause, Emits (s.lower Backend.trace) s.actions := by
  rintro s rfl
  have hactions : actionsAll [s] = s.actions := by simp [actionsAll]
  rw [Option.toList_some, hactions] at h
  exact h

theorem emits_branch {condition : Condition} {body : Scope Statement} {l : Location}
    (hcondition : condition.inner.isProper = true)
    (hbody : Emits (lowerAll Backend.trace body.statements) (actionsAll body.statements)) :
    Emits ((branch condition body l).lower Backend.trace) (branch condition body l).actions := by
  rw [lower, actions]
  simp only [List.append_assoc]
  apply emits_enterScope.bind
  intro _
  apply (emits_scope hbody).bind
  intro handles
  apply emits_leaveScope.bind
  intro _
  exact (Expr.emits_condition hcondition condition.location).then_record fun _ _ => rfl

theorem emits_loop {init condition increment : Option Statement} {body : Scope Statement}
    {l : Location} (hinit : ∀ s ∈ init, Emits (s.lower Backend.trace) s.actions)
    (hcondition : ∀ s ∈ condition, Emits (s.lower Backend.trace) s.actions)
    (hincrement : ∀ s ∈ increment, Emits (s.lower Backend.trace) s.actions)
    (hbody : Emits (lowerAll Backend.trace body.statements) (actionsAll body.statements)) :
    Emits ((loop init condition increment body l).lower Backend.trace)
      (loop init condition increment body l).actions := by
  rw [lower, actions]
  simp only [List.append_assoc]
  apply emits_enterScope.bind
  intro _
  apply (emits_clause hinit).bind
  intro _
  apply (emits_clause hcondition).bind
  intro _
  apply (emits_clause hincrement).bind
  intro _
  apply (emits_scope hbody).bind
  intro _
  exact emits_leaveScope.then_record fun _ _ => rfl

/-- The condition of a loop. -/
theorem emits_expr {e : Expr} {l l' : Location} (h : e.isProper = true) :
    Emits ((expr (.condition e l) l').lower Backend.trace) (expr (.condition e l) l').actions := by
  have hcondition : (expr (.condition e l) l').actions = e.actions := rfl
  rw [lower, hcondition, if_neg (by simp [Expr.isInvalid])]
  exact (Expr.emits_condition h l).then_record fun _ _ => rfl

end Statement

open Statement

variable {source : Source}

theorem ConditionIn.emits {xs : List Variable} {i j : Nat} {s : Statement}
    (h : ConditionIn source xs i j s) : Emits (s.lower Backend.trace) s.actions := by
  obtain ⟨h⟩ := h
  exact emits_expr h.isProper

theorem StepIn.emits {xs : List Variable} {i j : Nat} {s : Statement}
    (h : StepIn source xs i j s) : Emits (s.lower Backend.trace) s.actions := by
  obtain ⟨-⟩ := h
  exact emits_step _ _ _

mutual

/-- A statement that is made of tokens takes its actions. -/
theorem Made.emits {xs : List Variable} {i j : Nat} {s : Statement} :
    Made source xs i j s → Emits (s.lower Backend.trace) s.actions
  | .declare _ => emits_declare _
  | .assign _ hvalue => emits_assign hvalue.isProper
  | .step _ => emits_step _ _ _
  | .branch hcondition _ hbody => emits_branch hcondition.isProper hbody.emits
  | .loop hinit _ _ _ hcondition _ hincrement _ hbody => by
    exact emits_loop (emits_of_emitsAll hinit.emits) (fun s hs => (hcondition s hs).emits)
      (fun s hs => (hincrement s hs).emits) hbody.emits
  | .define _ hvalue =>
    emits_compound (by simp [isInvalid]) (emits_declare _) (emits_assign hvalue.isProper)
  | .undefined _ => emits_record fun _ => rfl

theorem MadeAll.emits {xs : List Variable} {i j : Nat} {ss : List Statement} :
    MadeAll source xs i j ss → Emits (lowerAll Backend.trace ss) (actionsAll ss)
  | .nil _ => emits_pure _
  | .cons _ hfirst hrest => by
    have hall := hfirst.emits.bind fun handle => hrest.emits.bind fun handles =>
      emits_pure (handle :: handles)
    rw [List.append_nil] at hall
    exact hall

end

namespace Parser

/-- The calls that the statements of the outermost scope are lowered to, in order. -/
def calls (p : Parser) : List Call := ((p.lowerProgram Backend.trace).run #[]).2.toList

/-- The calls of a program whose statements are made of tokens take the actions of these. -/
theorem actions_of_calls {p : Parser} {xs : List Variable} {i j : Nat}
    (h : MadeAll source xs i j p.scopes.outermost.statements) :
    Action.ofCalls [] p.calls = actionsAll p.scopes.outermost.statements := by
  have hprogram := h.emits.bind fun handles =>
    emits_pure (handles, { p with scopes := p.scopes.takeOutermost.2 })
  rw [List.append_nil] at hprogram
  obtain ⟨more, hmore, hactions⟩ := hprogram #[]
  have hcalls : p.calls = more := hmore
  rw [hcalls]
  exact hactions

end Parser

end FloatLang
