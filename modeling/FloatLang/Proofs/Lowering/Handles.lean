import FloatLang.Proofs.Lowering.Actions

/-!
# Handles of invalid nodes

Lowering looks at the children of a node before it lowers them, and asks for an invalid node if one
of them may not stand there. It looks at what a child is, not at what becomes of it: an operation
is an operand even if it is itself refused, and then its handle, which is that of an invalid node,
is passed to the call for the node above. The trees for which this happens are exactly those with a
refused node below one that is not refused.

## Main definitions

* `Call.isGivenInvalid` — a call is given the handle of an invalid node where it needs a valid one
* `Call.passInvalid` — one of the calls is
* `Expr.isRefused`, `Statement.isRefused` — nodes in whose place lowering asks for an invalid one
* `Expr.relaysInvalid`, `Statement.relaysInvalid` — trees with such a node below one that is not
* `Relays` — a computation that passes such a handle on, or does not

## Main results

* `Expr.relays`, `Statement.relays` — lowering passes on such a handle just if the tree relays one
* `Statement.lowering_passes_invalid` — so do the calls of a whole lowering
* `Statement.lowering_passes_refused_parts` — a refused part of a node that is not refused is passed on
-/

namespace FloatLang

/-! ### Calls -/

namespace Call

/-- Whether a handle is that of the given call, after the calls made before. -/
def isAt (call : Call) (before : List Call) (handle : Nat) : Bool := before[handle]? == some call

/-- Whether a call is given the handle of an invalid node although it needs a valid one. The calls
for blocks do not. -/
def isGivenInvalid (before : List Call) : Call → Bool
  | unary _ e _ | condition e _ | increment e _ | decrement e _ | expr e _ =>
    invalidExpr.isAt before e
  | binary _ e e' _ | assign e e' _ => invalidExpr.isAt before e || invalidExpr.isAt before e'
  | compound s s' _ => invalidStatement.isAt before s || invalidStatement.isAt before s'
  | _ => false

/-- Whether one of the calls that come after others is given the handle of an invalid node although
it needs a valid one. -/
def passInvalid (before : List Call) : List Call → Bool
  | [] => false
  | call :: rest => call.isGivenInvalid before || passInvalid (before ++ [call]) rest

theorem passInvalid_append (before calls calls' : List Call) :
    passInvalid before (calls ++ calls') =
      (passInvalid before calls || passInvalid (before ++ calls) calls') := by
  induction calls generalizing before with
  | nil => simp [passInvalid]
  | cons call calls ih =>
    rw [List.cons_append, passInvalid, ih, passInvalid, Bool.or_assoc, List.append_assoc,
      List.singleton_append]

end Call

/-! ### Trees that relay invalid nodes -/

namespace Expr

/-- Whether lowering asks for an invalid expression in place of this one. -/
def isRefused : Expr → Bool
  | invalid _ => true
  | unary op operand _ => !accepts op operand
  | binary _ left right _ => !(left.isOperand && right.isOperand)
  | condition inner _ => !inner.isOperand
  | reference _ | numeral .. => false

/-- Whether there is a refused node right below one that is not refused, and that is lowered. -/
def relaysInvalid : Expr → Bool
  | unary op operand _ => accepts op operand && (operand.relaysInvalid || operand.isRefused)
  | binary _ left right _ =>
    (left.isOperand && right.isOperand) &&
      (left.relaysInvalid || right.relaysInvalid || left.isRefused || right.isRefused)
  | condition inner _ => inner.isOperand && (inner.relaysInvalid || inner.isRefused)
  | invalid _ | reference _ | numeral .. => false

end Expr

namespace Statement

/-- Whether lowering asks for an invalid statement in place of this one. -/
def isRefused : Statement → Bool
  | invalid _ => true
  | assign _ value _ => !value.isOperand
  | expr e _ => e.isInvalid
  | compound first second _ => first.isInvalid || second.isInvalid
  | declare _ | step .. | branch .. | loop .. => false

mutual

/-- Whether there is a refused node right below one that is not refused, and that is lowered. The
condition of a branch, the clauses of a loop and the statements of a scope may be refused. -/
def relaysInvalid : Statement → Bool
  | assign _ value _ => value.isOperand && (value.relaysInvalid || value.isRefused)
  | expr e _ => !e.isInvalid && (e.relaysInvalid || e.isRefused)
  | compound first second _ =>
    !(first.isInvalid || second.isInvalid) &&
      (first.relaysInvalid || second.relaysInvalid || first.isRefused || second.isRefused)
  | branch condition body _ => relaysInvalidIn body || condition.expr.relaysInvalid
  | loop init condition increment body _ =>
    relaysInvalidOf init || relaysInvalidOf condition || relaysInvalidOf increment ||
      relaysInvalidIn body
  | invalid _ | declare _ | step .. => false

/-- Whether a statement of the scope relays an invalid node. -/
def relaysInvalidIn : Scope Statement → Bool
  | ⟨_, _, _, statements⟩ => relaysInvalidAll statements

/-- Whether one of the statements relays an invalid node. -/
def relaysInvalidAll : List Statement → Bool
  | [] => false
  | s :: rest => s.relaysInvalid || relaysInvalidAll rest

/-- Whether a clause of a loop is there and relays an invalid node. -/
def relaysInvalidOf : Option Statement → Bool
  | none => false
  | some s => s.relaysInvalid

end

end Statement

/-! ### Computations that pass handles on -/

/-- The computation records calls after the ones given, and one of them is given the handle of an
invalid node just if `relays`; its answer is as `post` says, in view of all the calls. -/
def Relays {α : Type} (calls : Array Call) (m : StateM (Array Call) α) (relays : Bool)
    (post : List Call → α → Prop) : Prop :=
  ∃ more, (m.run calls).2.toList = calls.toList ++ more ∧
    Call.passInvalid calls.toList more = relays ∧ post (m.run calls).2.toList (m.run calls).1

/-- The handle was obtained by one of the calls, and by a call for the given invalid node just if
`refused`. -/
structure IsHandle (node : Call) (refused : Bool) (calls : List Call) (handle : Nat) : Prop where
  lt : handle < calls.length
  isAt : node.isAt calls handle = refused

/-- No matter what the answer is. -/
def AnyAnswer {α : Type} (_ : List Call) (_ : α) : Prop := True

section Relays

variable {α β : Type} {m : StateM (Array Call) α} {calls : Array Call} {node : Call}
  {refused r r' : Bool} {post : List Call → α → Prop} {post' : List Call → β → Prop}

/-- A handle is that of the same node when more calls have been made. -/
theorem IsHandle.mono {before after : List Call} {handle : Nat}
    (h : IsHandle node refused before handle) (hle : before <+: after) :
    IsHandle node refused after handle := by
  obtain ⟨more, rfl⟩ := hle
  refine ⟨?_, ?_⟩
  · rw [List.length_append]
    exact Nat.lt_add_right _ h.lt
  · rw [Call.isAt, List.getElem?_append_left h.lt]
    exact h.isAt

/-- The handle of the last call. -/
theorem isHandle_last (before : List Call) (call : Call) :
    IsHandle node (call == node) (before ++ [call]) before.length where
  lt := by simp
  isAt := by simp [Call.isAt]

theorem Relays.of_eq (h : Relays calls m r post) (hr : r = r') : Relays calls m r' post :=
  hr ▸ h

theorem relays_pure (a : α) :
    Relays calls (pure a : StateM (Array Call) α) false AnyAnswer :=
  ⟨[], (List.append_nil _).symm, rfl, trivial⟩

/-- Two computations in a row. The second one starts with the calls of the first one made. -/
theorem Relays.bind {f : α → StateM (Array Call) β} (hm : Relays calls m r post)
    (hf : ∀ (calls' : Array Call) (a : α), calls.toList <+: calls'.toList →
      post calls'.toList a → Relays calls' (f a) r' post') :
    Relays calls (m >>= f) (r || r') post' := by
  obtain ⟨more, hmore, hr, hpost⟩ := hm
  obtain ⟨more', hmore', hr', hpost'⟩ := hf _ _ ⟨more, hmore.symm⟩ hpost
  refine ⟨more ++ more', ?_, ?_, hpost'⟩
  · rw [← List.append_assoc, ← hmore, ← hmore']
    rfl
  · rw [Call.passInvalid_append, hr, ← hmore, hr']

/-- The answer is put into something else. -/
theorem Relays.pack (h : Relays calls m r post) (f : α → β) :
    Relays calls (m >>= fun a => pure (f a)) r AnyAnswer :=
  (h.bind fun _ _ _ _ => relays_pure _).of_eq (Bool.or_false r)

/-- A single call. -/
theorem relays_record {call : Call} (hgiven : call.isGivenInvalid calls.toList = r)
    (hrefused : (call == node) = refused) :
    Relays calls (Backend.record call) r (IsHandle node refused) := by
  subst hgiven hrefused
  refine ⟨[call], Array.toList_push, Bool.or_false _, ?_⟩
  have hlast : IsHandle node (call == node) (calls.toList ++ [call]) calls.toList.length :=
    isHandle_last _ _
  rw [← Array.toList_push] at hlast
  exact hlast

end Relays

/-! ### Expressions -/

variable {calls : Array Call}

theorem Reference.relays (r : Reference) :
    Relays calls (r.lower Backend.trace) false (IsHandle .invalidExpr false) := by
  have hobject : Relays calls (Backend.record (.object r.target)) false
      (IsHandle .invalidExpr false) := relays_record rfl rfl
  exact hobject.bind fun _ _ _ _ => relays_record rfl rfl

namespace Expr

/-- Lowering an expression passes the handle of an invalid node on just if the expression relays
one, and answers with such a handle just if it is refused. -/
theorem relays (e : Expr) :
    Relays calls (e.lower Backend.trace) e.relaysInvalid (IsHandle .invalidExpr e.isRefused) := by
  induction e generalizing calls with
  | invalid l => exact relays_record rfl rfl
  | reference r => exact r.relays
  | numeral value l => exact relays_record rfl rfl
  | unary op e l ih =>
    rw [lower, relaysInvalid, isRefused]
    cases haccepts : accepts op e with
    | false => exact relays_record rfl rfl
    | true => exact ih.bind fun _ _ _ he => relays_record he.isAt rfl
  | condition e l ih =>
    rw [lower, relaysInvalid, isRefused]
    cases hoperand : e.isOperand with
    | false => exact relays_record rfl rfl
    | true => exact ih.bind fun _ _ _ he => relays_record he.isAt rfl
  | binary op a b l iha ihb =>
    rw [lower, relaysInvalid, isRefused]
    cases hoperands : a.isOperand && b.isOperand with
    | false => exact relays_record rfl rfl
    | true =>
      refine Relays.of_eq (iha.bind fun _ _ _ ha => ihb.bind fun _ _ hle hb =>
        relays_record (congrArg₂ or (ha.mono hle).isAt hb.isAt) rfl) ?_
      simp [Bool.or_assoc]

end Expr

/-! ### Statements -/

namespace Statement

theorem relays_enterScope : Relays calls Backend.trace.enterScope false AnyAnswer := by
  have hrecord : Relays calls (Backend.record .enterScope) false (IsHandle .invalidExpr false) :=
    relays_record rfl rfl
  exact hrecord.bind fun _ _ _ _ => relays_pure ()

theorem relays_leaveScope : Relays calls Backend.trace.leaveScope false AnyAnswer := by
  have hrecord : Relays calls (Backend.record .leaveScope) false (IsHandle .invalidExpr false) :=
    relays_record rfl rfl
  exact hrecord.bind fun _ _ _ _ => relays_pure ()

theorem relays_assign (target : Reference) (value : Expr) (l : Location) :
    Relays calls ((assign target value l).lower Backend.trace)
      (assign target value l).relaysInvalid
      (IsHandle .invalidStatement (assign target value l).isRefused) := by
  rw [lower, relaysInvalid, isRefused]
  cases hoperand : value.isOperand with
  | false => exact relays_record rfl rfl
  | true =>
    exact target.relays.bind fun _ _ _ htarget => value.relays.bind fun _ _ hle hvalue =>
      relays_record (congrArg₂ or (htarget.mono hle).isAt hvalue.isAt) rfl

theorem relays_step (direction : Direction) (target : Reference) (l : Location) :
    Relays calls ((step direction target l).lower Backend.trace) false
      (IsHandle .invalidStatement false) := by
  rw [lower]
  have hvalid : (stepExpr direction target l).relaysInvalid = false ∧
      (stepExpr direction target l).isRefused = false := by
    cases direction <;> exact ⟨rfl, rfl⟩
  have hstep : Relays calls ((stepExpr direction target l).lower Backend.trace) _ _ := Expr.relays _
  rw [hvalid.1, hvalid.2] at hstep
  cases direction with
  | up => exact hstep.bind fun _ _ _ he => relays_record he.isAt rfl
  | down => exact hstep.bind fun _ _ _ he => relays_record he.isAt rfl

theorem relays_expr (e : Expr) (l : Location) :
    Relays calls ((expr e l).lower Backend.trace) (expr e l).relaysInvalid
      (IsHandle .invalidStatement (expr e l).isRefused) := by
  rw [lower, relaysInvalid, isRefused]
  cases hinvalid : e.isInvalid with
  | true => exact relays_record rfl rfl
  | false => exact e.relays.bind fun _ _ _ he => relays_record he.isAt rfl

theorem relays_compound {first second : Statement} (l : Location)
    (hfirst : ∀ calls, Relays calls (first.lower Backend.trace) first.relaysInvalid
      (IsHandle .invalidStatement first.isRefused))
    (hsecond : ∀ calls, Relays calls (second.lower Backend.trace) second.relaysInvalid
      (IsHandle .invalidStatement second.isRefused)) :
    Relays calls ((compound first second l).lower Backend.trace)
      (compound first second l).relaysInvalid
      (IsHandle .invalidStatement (compound first second l).isRefused) := by
  rw [lower, relaysInvalid, isRefused]
  cases hinvalid : first.isInvalid || second.isInvalid with
  | true => exact relays_record rfl rfl
  | false =>
    refine Relays.of_eq ((hfirst calls).bind fun _ _ _ hi => (hsecond _).bind fun _ _ hle hj =>
      relays_record (congrArg₂ or (hi.mono hle).isAt hj.isAt) rfl) ?_
    simp [Bool.or_assoc]

mutual

/-- Lowering a statement passes the handle of an invalid node on just if the statement relays one,
and answers with such a handle just if it is refused. -/
theorem relays : (s : Statement) → ∀ calls, Relays calls (s.lower Backend.trace) s.relaysInvalid
    (IsHandle .invalidStatement s.isRefused)
  | invalid _, _ => relays_record rfl rfl
  | declare v, calls => by
    have hobject : Relays calls (Backend.record (.object v)) false (IsHandle .invalidExpr false) :=
      relays_record rfl rfl
    exact hobject.bind fun _ _ _ _ => relays_record rfl rfl
  | assign target value l, _ => relays_assign target value l
  | step direction target l, _ => relays_step direction target l
  | expr e l, _ => relays_expr e l
  | compound first second l, _ => relays_compound l first.relays second.relays
  | branch condition body l, calls => by
    rw [lower]
    refine Relays.of_eq (relays_enterScope.bind fun _ _ _ _ => (relaysIn body _).bind fun _ _ _ _ =>
      relays_leaveScope.bind fun _ _ _ _ => condition.expr.relays.bind fun _ _ _ _ =>
        relays_record rfl rfl) ?_
    simp [relaysInvalid]
  | loop init condition increment body l, calls => by
    rw [lower]
    refine Relays.of_eq (relays_enterScope.bind fun _ _ _ _ => (relaysOf init _).bind fun _ _ _ _ =>
      (relaysOf condition _).bind fun _ _ _ _ => (relaysOf increment _).bind fun _ _ _ _ =>
        (relaysIn body _).bind fun _ _ _ _ => relays_leaveScope.bind fun _ _ _ _ =>
          relays_record rfl rfl) ?_
    simp [relaysInvalid, Bool.or_assoc]

theorem relaysIn : (body : Scope Statement) → ∀ calls,
    Relays calls (lowerScope Backend.trace body) (relaysInvalidIn body) AnyAnswer
  | ⟨id, _, declared, statements⟩, calls =>
    (relaysAll statements calls).pack fun handles =>
      ({ id, declared, statements := handles } : LoweredScope Nat)

theorem relaysAll : (ss : List Statement) → ∀ calls,
    Relays calls (lowerAll Backend.trace ss) (relaysInvalidAll ss) AnyAnswer
  | [], _ => relays_pure []
  | s :: rest, calls =>
    (s.relays calls).bind fun _ handle _ _ => (relaysAll rest _).pack fun handles =>
      handle :: handles

theorem relaysOf : (clause : Option Statement) → ∀ calls,
    Relays calls (lowerClause Backend.trace clause) (relaysInvalidOf clause) AnyAnswer
  | none, _ => relays_pure none
  | some s, calls => (s.relays calls).pack some

end

/-- Lowering an expression or a statement passes the handle of an invalid node to a call that needs
a valid one if and only if a node that is lowered has a refused node right below it. -/
theorem lowering_passes_invalid (e : Expr) (s : Statement) :
    Call.passInvalid [] ((e.lower Backend.trace).run #[]).2.toList = e.relaysInvalid ∧
      Call.passInvalid [] ((s.lower Backend.trace).run #[]).2.toList = s.relaysInvalid := by
  constructor
  · have hrelays : Relays #[] (e.lower Backend.trace) _ _ := e.relays
    obtain ⟨calls, hcalls, hpass, -⟩ := hrelays
    rw [hcalls]
    exact hpass
  · obtain ⟨calls, hcalls, hpass, -⟩ := s.relays #[]
    rw [hcalls]
    exact hpass

/-- The negation of a negation of an invalid expression: the inner negation is an operand, so that
the outer one is not refused, and is given the handle obtained in place of the inner one. The same
happens to a compound in a compound. -/
theorem lowering_passes_refused_parts :
    let l : Location := .startOf ⟨"main.rin"⟩
    let negated := Expr.unary .not (.unary .not (.invalid l) l) l
    let failed := compound (.invalid l) (.invalid l) l
    ((negated.lower Backend.trace).run #[]).2.toList = [.invalidExpr, .unary .not 0 l] ∧
      Call.passInvalid [] ((negated.lower Backend.trace).run #[]).2.toList = true ∧
      Call.passInvalid [] (((compound failed failed l).lower Backend.trace).run #[]).2.toList = true :=
  ⟨rfl, rfl, rfl⟩

end Statement

end FloatLang
