import FloatLang.Proofs.Lowering.Actions

/-!
# What can be read

Statements made of tokens have one of a few shapes. A failure is left only as the value of a
variable that was declared, and there is no invalid expression anywhere. So lowering asks the
backend for no invalid expression, and for an invalid statement at most once for every error that
was reported.

## Main results

* `Made.isWellShaped`, `MadeAll.allWellShaped` — what is made of tokens is well-shaped
* `MadeAll.count_invalidStatement` — lowering asks for as many invalid statements as there are
  failures
* `Parser.program_wellShaped` — every program is well-shaped, and lowered without surprises
-/

namespace FloatLang

variable {source : Source}

/-! ### Shapes -/

namespace Statement

theorem clauseWellShaped_of_all {clause : Option Statement}
    (h : allWellShaped clause.toList = true)
    (hcomplete : ∀ s ∈ clause, Parser.initFailed s = false) : clauseWellShaped clause = true := by
  cases clause with
  | none => rfl
  | some s =>
    have hs : s.isWellShaped = true := (Bool.and_eq_true_iff.1 h).1
    rw [clauseWellShaped, hs, hcomplete s rfl]
    rfl

theorem isWellShaped_branch {condition : Condition} {body : Scope Statement} {l : Location}
    (hcondition : condition.inner.isProper = true) (hbody : allWellShaped body.statements = true) :
    (branch condition body l).isWellShaped = true := by
  rw [isWellShaped, scopeWellShaped_eq, hcondition, hbody]
  rfl

theorem isWellShaped_loop {init condition increment : Option Statement} {body : Scope Statement}
    {l : Location} (hinit : clauseWellShaped init = true)
    (hcondition : ∀ s ∈ condition, s.isCondition = true)
    (hincrement : ∀ s ∈ increment, s.isStep = true)
    (hbody : allWellShaped body.statements = true) :
    (loop init condition increment body l).isWellShaped = true := by
  have hcondition' : condition.all isCondition = true := by
    cases condition <;> first | rfl | exact hcondition _ rfl
  have hincrement' : increment.all isStep = true := by
    cases increment <;> first | rfl | exact hincrement _ rfl
  rw [isWellShaped, scopeWellShaped_eq, hinit, hcondition', hincrement', hbody]
  rfl

theorem isWellShaped_define {v : Variable} {value : Expr} {l l' l'' : Location}
    (h : value.isProper = true) :
    (compound (declare v) (assign ⟨v, l⟩ value l') l'').isWellShaped = true := by
  rw [isWellShaped, isDefinition, h]
  simp

end Statement

open Statement

theorem ConditionIn.isCondition {xs : List Variable} {i j : Nat} {s : Statement}
    (h : ConditionIn source xs i j s) : s.isCondition = true := by
  obtain ⟨h⟩ := h
  exact h.isProper

theorem StepIn.isStep {xs : List Variable} {i j : Nat} {s : Statement}
    (h : StepIn source xs i j s) : s.isStep = true := by
  cases h
  rfl

mutual

/-- A statement that is made of tokens is well-shaped. -/
theorem Made.isWellShaped {xs : List Variable} {i j : Nat} {s : Statement} :
    Made source xs i j s → s.isWellShaped = true
  | .declare _ => rfl
  | .assign _ hvalue => hvalue.isProper
  | .step _ => rfl
  | .branch hcondition _ hbody => isWellShaped_branch hcondition.isProper hbody.allWellShaped
  | .loop hinit hcomplete _ _ hcondition _ hincrement _ hbody => by
    have hclause := clauseWellShaped_of_all hinit.allWellShaped hcomplete
    exact isWellShaped_loop hclause (fun s hs => (hcondition s hs).isCondition)
      (fun s hs => (hincrement s hs).isStep) hbody.allWellShaped
  | .define _ hvalue => isWellShaped_define hvalue.isProper
  | .undefined _ => rfl

theorem MadeAll.allWellShaped {xs : List Variable} {i j : Nat} {ss : List Statement} :
    MadeAll source xs i j ss → Statement.allWellShaped ss = true
  | .nil _ => rfl
  | .cons _ hfirst hrest => Bool.and_eq_true_iff.2 ⟨hfirst.isWellShaped, hrest.allWellShaped⟩

end

/-! ### Failures -/

/-- Whether an action says that a node is invalid. -/
def Action.isInvalid : Action → Bool
  | invalidExpr | invalidStatement => true
  | _ => false

theorem OnlyUses.filter_isInvalid {xs : List Variable} {as : List Action} (h : OnlyUses xs as) :
    as.filter Action.isInvalid = [] := by
  obtain ⟨rs, rfl, -⟩ := h
  rw [List.filter_flatMap, List.flatMap_eq_nil_iff]
  exact fun r _ => rfl

namespace Statement

/-- The condition and the step of a loop have no failures, so that only its first clause and its
body matter. -/
theorem filter_actions_loop {xs ys : List Variable} {i j i' j' : Nat}
    {init condition increment : Option Statement} {body : Scope Statement} {l : Location}
    (hinit : (actionsAll init.toList).filter Action.isInvalid =
      List.replicate (failuresAll init.toList) .invalidStatement)
    (hcondition : ∀ s ∈ condition, ConditionIn source xs i j s)
    (hincrement : ∀ s ∈ increment, StepIn source ys i' j' s)
    (hbody : (actionsAll body.statements).filter Action.isInvalid =
      List.replicate (failuresAll body.statements) .invalidStatement) :
    (loop init condition increment body l).actions.filter Action.isInvalid =
      List.replicate (loop init condition increment body l).failures .invalidStatement := by
  have hconditions := onlyUses_clause fun s hs => (hcondition s hs).onlyUses
  have hincrements := onlyUses_clause fun s hs => (hincrement s hs).onlyUses
  rw [failures_loop (fun s hs => (hcondition s hs).failures) fun s hs => (hincrement s hs).failures,
    actions, actionsOf_eq init, actionsIn_eq]
  simp only [List.filter_append, hinit, hconditions.filter_isInvalid, hincrements.filter_isInvalid,
    hbody, List.append_nil, ← List.replicate_append_replicate]
  simp [Action.isInvalid]

end Statement

mutual

/-- Lowering a statement asks for an invalid statement once for every failure in it, and for no
invalid expression. -/
theorem Made.filter_actions {xs : List Variable} {i j : Nat} {s : Statement} :
    Made source xs i j s →
      s.actions.filter Action.isInvalid = List.replicate s.failures .invalidStatement
  | .declare _ => rfl
  | .assign htarget hvalue => (htarget.onlyUses.append hvalue.onlyUses).filter_isInvalid
  | .step _ => rfl
  | .branch hcondition _ hbody => by
    rw [actions, actionsIn_eq, List.filter_append, hcondition.onlyUses.filter_isInvalid,
      failures_branch, ← hbody.filter_actionsAll]
    simp [Action.isInvalid]
  | .loop hinit _ _ _ hcondition _ hincrement _ hbody =>
    filter_actions_loop hinit.filter_actionsAll hcondition hincrement hbody.filter_actionsAll
  | .define _ hvalue => hvalue.onlyUses.filter_isInvalid
  | .undefined _ => rfl

theorem MadeAll.filter_actionsAll {xs : List Variable} {i j : Nat} {ss : List Statement} :
    MadeAll source xs i j ss →
      (actionsAll ss).filter Action.isInvalid = List.replicate (failuresAll ss) .invalidStatement
  | .nil _ => rfl
  | .cons _ hfirst hrest => by
    rw [actionsAll, List.filter_append, hfirst.filter_actions, hrest.filter_actionsAll,
      failuresAll_cons, List.replicate_append_replicate]

end

/-- Among the actions of statements, only failures say that a node is invalid. -/
theorem MadeAll.count_actionsAll {xs : List Variable} {i j : Nat} {ss : List Statement}
    (h : MadeAll source xs i j ss) {action : Action} (haction : action.isInvalid = true) :
    (actionsAll ss).count action =
      (List.replicate (failuresAll ss) Action.invalidStatement).count action := by
  rw [← h.filter_actionsAll, List.count_filter haction]

/-! ### Lowering -/

namespace Call

theorem action?_eq_invalidExpr (before : List Call) (c : Call) :
    action? before c = some .invalidExpr ↔ c = .invalidExpr := by
  cases c <;> simp [action?]

theorem action?_eq_invalidStatement (before : List Call) (c : Call) :
    action? before c = some .invalidStatement ↔ c = .invalidStatement := by
  cases c <;> simp [action?]

end Call

namespace Parser

/-- Every program is well-shaped: there is no invalid expression in it, a condition is only that of
a branch or loop, every operator has as many operands as it takes and a step has a variable, a
declaration with a value gives it to its own variable, and nothing else is compound; a failure
is left only as such a value, and not in the first clause of a loop. Lowering asks for no invalid
expression, for an invalid statement at most once for every error, and for none if there was no
error. -/
theorem program_wellShaped (file : Path) (bytes : ByteArray) :
    ∃ p, (ofSource (.ofBytes file bytes)).program = .ok p ∧
      allWellShaped p.scopes.outermost.statements = true ∧ .invalidExpr ∉ p.calls ∧
      p.calls.count .invalidStatement ≤ p.scanner.errorCount ∧
      (p.scanner.errorCount = 0 → .invalidStatement ∉ p.calls) := by
  obtain ⟨p, j, hp, -, hmade, herrors⟩ := program_made (.ofBytes file bytes)
  have hexpr : p.calls.count .invalidExpr = 0 := by
    rw [← Action.count_ofCalls Call.action?_eq_invalidExpr [], actions_of_calls hmade,
      hmade.count_actionsAll rfl]
    exact List.count_eq_zero.2 fun h => by simp at h
  have hstatement : p.calls.count .invalidStatement =
      failuresAll p.scopes.outermost.statements := by
    rw [← Action.count_ofCalls Call.action?_eq_invalidStatement [], actions_of_calls hmade,
      hmade.count_actionsAll rfl]
    exact List.count_replicate_self
  have hle : p.calls.count .invalidStatement ≤ p.scanner.errorCount := hstatement ▸ herrors
  refine ⟨p, hp, hmade.allWellShaped, List.count_eq_zero.1 hexpr, hle, fun hnone => ?_⟩
  rw [hnone] at hle
  exact List.count_eq_zero.1 (Nat.le_zero.1 hle)

/-- A declaration whose value is missing is lowered to the one invalid statement; with the value
there is none. -/
theorem program_wellShaped_missing_value :
    let broken := "float x = ;\nif x \x7b x++ \x7d"
    let sound := "float x = 1;\nif x \x7b x++ \x7d"
    (∃ p, (ofSource (.ofBytes ⟨"main.rin"⟩ broken.toUTF8)).program = .ok p ∧
      p.calls.count .invalidStatement = 1 ∧
        p.calls.count .invalidStatement ≤ p.scanner.errorCount) ∧
    ∃ p, (ofSource (.ofBytes ⟨"main.rin"⟩ sound.toUTF8)).program = .ok p ∧
      p.scanner.errorCount = 0 ∧ .invalidStatement ∉ p.calls := by
  intro broken sound
  obtain ⟨p, hp, -, -, hle, -⟩ := program_wellShaped ⟨"main.rin"⟩ broken.toUTF8
  obtain ⟨q, hq, -, -, -, hnone⟩ := program_wellShaped ⟨"main.rin"⟩ sound.toUTF8
  have hcount : ((ofSource (.ofBytes ⟨"main.rin"⟩ broken.toUTF8)).program.toOption.map fun p =>
      p.calls.count .invalidStatement) = some 1 := by
    decide +kernel
  have herrors : ((ofSource (.ofBytes ⟨"main.rin"⟩ sound.toUTF8)).program.toOption.map fun p =>
      p.scanner.errorCount) = some 0 := by
    decide +kernel
  rw [hp] at hcount
  rw [hq] at herrors
  have hzero := Option.some.inj herrors
  exact ⟨⟨p, hp, Option.some.inj hcount, hle⟩, q, hq, hzero, hnone hzero⟩

end Parser

end FloatLang
