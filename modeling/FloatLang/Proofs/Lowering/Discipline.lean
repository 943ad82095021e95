import FloatLang.Proofs.Lowering.Linear

/-!
# Lowering uses every handle once

The calls that a statement is lowered to, whatever it is like, hand every handle on to one later
call, but for the last one, which is the answer. Lowering gives up a node before it looks for the
handles of its children, so that no handle is left over; and it gives up no block statement, so that
every scope it enters is left.

## Main definitions

* `IsLoweredTo` — the calls and the handle of a statement, whose handles flow and scopes are nested
* `Disciplined` — what this says of single calls

## Main results

* `Statement.isLoweredTo` — every statement is lowered to such calls
* `Statement.lowering_passes_handles_once` — every handle is given to one call
-/

namespace FloatLang

open Call (Flow result? flow_call)
open Statement

variable {before calls inner rest : List Call} {ss : List Statement} {s : Statement} {handle : Nat}

/-! ### Expressions -/

theorem Reference.lowers (r : Reference) :
    Lowers before ss 0 (r.lower Backend.trace) fun e => {(.expression, e)} := by
  have hobject : Lowers before ss 0 (Backend.record (.object r.target)) fun v => {(.object, v)} :=
    lowers_record rfl rfl
  exact hobject.bind fun _ _ => lowers_record rfl rfl

/-- The handle of an expression is left over of all handles that its calls return. -/
theorem Expr.lowers (e : Expr) :
    Lowers before ss 0 (e.lower Backend.trace) fun e => {(.expression, e)} := by
  induction e generalizing before with
  | invalid l => exact lowers_record rfl rfl
  | reference r => exact r.lowers
  | numeral value l => exact lowers_record rfl rfl
  | unary op e l ih =>
    rw [lower]
    cases accepts op e with
    | false => exact lowers_record rfl rfl
    | true => exact ih.bind fun _ _ => lowers_record rfl rfl
  | condition e l ih =>
    rw [lower]
    cases e.isOperand with
    | false => exact lowers_record rfl rfl
    | true => exact ih.bind fun _ _ => lowers_record rfl rfl
  | binary op a b l iha ihb =>
    rw [lower]
    cases a.isOperand && b.isOperand with
    | false => exact lowers_record rfl rfl
    | true => exact iha.bind fun _ _ => (ihb.keep _).bind fun _ _ => lowers_record rfl rfl

/-! ### Statements -/

/-- The statement is lowered to the calls, after those made before, and the handle is the answer.
The calls of a block statement start with its scope. -/
structure IsLoweredTo (s : Statement) (before calls : List Call) (handle : Nat) : Prop where
  records : Records before (s.lower Backend.trace) calls handle
  flow : Flow before.length 0 calls {(.statement, handle)}
  nested : Nested before s.parts calls
  own : s.isBlock = true → ∃ inner rest, calls = .enterScope :: (inner ++ .leaveScope :: rest) ∧
    Call.Balanced inner ∧ Encloses before inner rest s

theorem IsLoweredTo.lowers (h : IsLoweredTo s before calls handle) :
    Lowers before s.parts 0 (s.lower Backend.trace) fun h => {(.statement, h)} :=
  ⟨calls, handle, h.records, h.flow, h.nested⟩

theorem Lowers.isLoweredTo (hblock : s.isBlock = false)
    (h : Lowers before s.parts 0 (s.lower Backend.trace) fun h => {(.statement, h)}) :
    ∃ calls handle, IsLoweredTo s before calls handle := by
  obtain ⟨calls, handle, hrecords, hflow, hnested⟩ := h
  exact ⟨calls, handle, hrecords, hflow, hnested, fun hown => by simp [hblock] at hown⟩

/-- A block statement is lowered to the calls of its scope, to those behind it, and to one that is
given what they have left over. -/
theorem isLoweredTo_block {call : Call} {mid : Multiset Handle}
    (hresult : call.result? = some .statement)
    (hrecords : Records before (s.lower Backend.trace)
      (.enterScope :: (inner ++ .leaveScope :: (calls ++ [call])))
      (before ++ [Call.enterScope] ++ inner ++ [Call.leaveScope] ++ calls).length)
    (hflow : Flow (before ++ [Call.enterScope]).length 0 inner mid)
    (hflow' : Flow (before ++ [Call.enterScope] ++ inner ++ [Call.leaveScope]).length mid calls
      call.arguments)
    (hinner : Nested (before ++ [.enterScope]) s.parts inner)
    (hcalls : Nested (before ++ [.enterScope] ++ inner ++ [.leaveScope]) s.parts calls)
    (hencloses : Encloses before inner (calls ++ [call]) s) :
    ∃ calls handle, IsLoweredTo s before calls handle := by
  have hlast : call.result?.isSome = true := by
    rw [hresult]
    rfl
  have hrest := hflow'.append (flow_call rfl (by rw [hresult]))
  simp only [List.length_append, List.length_singleton] at hflow hrest hrecords
  exact ⟨_, _, hrecords, hflow.enclosed hrest,
    hinner.enclosed (hcalls.append (nested_call hlast)) (mem_parts_self s) hencloses,
    fun _ => ⟨inner, _, rfl, hinner.balanced, hencloses⟩⟩

namespace Statement

theorem lowers_assign (target : Reference) (value : Expr) (l : Location) :
    Lowers before ss 0 ((assign target value l).lower Backend.trace)
      fun h => {(.statement, h)} := by
  rw [lower]
  cases value.isOperand with
  | false => exact lowers_record rfl rfl
  | true =>
    exact target.lowers.bind fun _ _ => (value.lowers.keep _).bind fun _ _ => lowers_record rfl rfl

theorem lowers_step (direction : Direction) (target : Reference) (l : Location) :
    Lowers before ss 0 ((step direction target l).lower Backend.trace)
      fun h => {(.statement, h)} := by
  rw [lower]
  refine (stepExpr direction target l).lowers.bind fun _ _ => ?_
  cases direction with
  | up => exact lowers_record rfl rfl
  | down => exact lowers_record rfl rfl

theorem lowers_expr (e : Expr) (l : Location) :
    Lowers before ss 0 ((expr e l).lower Backend.trace) fun h => {(.statement, h)} := by
  rw [lower]
  cases e.isInvalid with
  | true => exact lowers_record rfl rfl
  | false => exact e.lowers.bind fun _ _ => lowers_record rfl rfl

theorem lowers_compound {first second : Statement} (l : Location)
    (hfirst : ∀ before, ∃ calls handle, IsLoweredTo first before calls handle)
    (hsecond : ∀ before, ∃ calls handle, IsLoweredTo second before calls handle) :
    Lowers before (compound first second l).parts 0 ((compound first second l).lower Backend.trace)
      fun h => {(.statement, h)} := by
  rw [lower, parts]
  cases first.isInvalid || second.isInvalid with
  | true => exact lowers_record rfl rfl
  | false =>
    obtain ⟨_, _, hfirst⟩ := hfirst before
    refine (hfirst.lowers.mono (by simp)).bind fun before i => ?_
    obtain ⟨_, _, hsecond⟩ := hsecond before
    exact ((hsecond.lowers.mono (by simp)).keep _).bind fun _ _ => lowers_record rfl rfl

theorem isLoweredTo_branch {condition : Condition} {body : Scope Statement} (l : Location)
    (hbody : ∀ before, Lowers before (partsIn body) 0 (lowerScope Backend.trace body)
      fun lowered => statementHandles lowered.statements) (before : List Call) :
    ∃ calls handle, IsLoweredTo (branch condition body l) before calls handle := by
  obtain ⟨inner, lowered, hbody, hflow, hinner⟩ := hbody (before ++ [.enterScope])
  have hlowers : Lowers (before ++ [.enterScope] ++ inner ++ [.leaveScope])
    (branch condition body l).parts 0 _ _ := condition.expr.lowers
  obtain ⟨calls, e, hcondition, hflow', hcalls⟩ := hlowers
  have hrecords : Records before ((branch condition body l).lower Backend.trace)
      (.enterScope :: (inner ++ .leaveScope :: (calls ++ [.branch e lowered l])))
      (before ++ [Call.enterScope] ++ inner ++ [Call.leaveScope] ++ calls).length := by
    rw [lower]
    exact records_enterScope.bind (hbody.bind (records_leaveScope.bind
      (hcondition.bind (records_record _))))
  refine isLoweredTo_block rfl hrecords hflow ?_ (hinner.mono ?_) hcalls
    (.branch hbody hcondition rfl)
  · have hgiven := hflow'.keep (statementHandles lowered.statements)
    rwa [add_comm] at hgiven
  · rw [parts]
    exact List.subset_cons_self _ _

/-- The handles of clauses and a body are just what the call for a loop is given. -/
theorem isLoweredTo_loop {init condition increment : Option Statement} {body : Scope Statement}
    (l : Location)
    (hclause : ∀ clause ∈ [init, condition, increment], ∀ before, Lowers before (partsOf clause) 0
      (lowerClause Backend.trace clause) fun h => statementHandles h.toList)
    (hbody : ∀ before, Lowers before (partsIn body) 0 (lowerScope Backend.trace body)
      fun lowered => statementHandles lowered.statements) (before : List Call) :
    ∃ calls handle, IsLoweredTo (loop init condition increment body l) before calls handle := by
  obtain ⟨first, i, hinit, hfirst, hfirst'⟩ := hclause init (by simp) (before ++ [.enterScope])
  obtain ⟨second, c, hcondition, hsecond, hsecond'⟩ :=
    hclause condition (by simp) (before ++ [.enterScope] ++ first)
  obtain ⟨third, k, hincrement, hthird, hthird'⟩ :=
    hclause increment (by simp) (before ++ [.enterScope] ++ first ++ second)
  obtain ⟨last, lowered, hbody, hlast, hlast'⟩ :=
    hbody (before ++ [.enterScope] ++ first ++ second ++ third)
  have hplace : before ++ [Call.enterScope] ++ (first ++ (second ++ (third ++ last))) ++
      [Call.leaveScope] ++ [] =
        before ++ [Call.enterScope] ++ first ++ second ++ third ++ last ++ [Call.leaveScope] := by
    simp
  have hrecords : Records before ((loop init condition increment body l).lower Backend.trace)
      (.enterScope :: ((first ++ (second ++ (third ++ last))) ++ .leaveScope ::
        ([] ++ [.loop i c k lowered l])))
      (before ++ [Call.enterScope] ++ (first ++ (second ++ (third ++ last))) ++
        [Call.leaveScope] ++ []).length := by
    rw [lower, hplace]
    simp only [List.append_assoc first, List.append_assoc second, List.append_assoc third]
    exact records_enterScope.bind (hinit.bind (hcondition.bind (hincrement.bind
      (hbody.bind (records_leaveScope.bind (records_record _))))))
  have hflow : Flow (before ++ [Call.enterScope]).length 0 (first ++ (second ++ (third ++ last)))
      (Call.loop i c k lowered l).arguments := by
    simp only [List.length_append] at hfirst hsecond hthird hlast
    have hinner := hfirst.append ((hsecond.keep _).append ((hthird.keep _).append (hlast.keep _)))
    simpa [Call.arguments, statementHandles] using hinner
  have hparts : partsOf init ++ partsOf condition ++ partsOf increment ++ partsIn body ⊆
      (loop init condition increment body l).parts := by
    rw [parts]
    exact List.subset_cons_self _ _
  simp only [List.append_subset] at hparts
  obtain ⟨⟨⟨hfirst'', hsecond''⟩, hthird''⟩, hlast''⟩ := hparts
  exact isLoweredTo_block rfl hrecords hflow (Call.flow_nil _ _)
    ((hfirst'.mono hfirst'').append ((hsecond'.mono hsecond'').append
      ((hthird'.mono hthird'').append (hlast'.mono hlast''))))
    nested_nil (.loop hinit hcondition hincrement hbody rfl rfl)

mutual

/-- Whatever a statement is like, the handles of its calls flow, and its scopes are nested. -/
theorem isLoweredTo : (s : Statement) → ∀ before, ∃ calls handle, IsLoweredTo s before calls handle
  | invalid _, _ => by
    refine Lowers.isLoweredTo rfl ?_
    rw [lower]
    exact lowers_record rfl rfl
  | declare v, before => by
    have hobject : Lowers before (declare v).parts 0 (Backend.record (.object v))
      fun v => {(.object, v)} := lowers_record rfl rfl
    refine Lowers.isLoweredTo rfl ?_
    rw [lower]
    exact hobject.bind fun _ _ => lowers_record rfl rfl
  | assign target value l, _ => (lowers_assign target value l).isLoweredTo rfl
  | step direction target l, _ => (lowers_step direction target l).isLoweredTo rfl
  | expr e l, _ => (lowers_expr e l).isLoweredTo rfl
  | compound first second l, _ =>
    (lowers_compound l first.isLoweredTo second.isLoweredTo).isLoweredTo rfl
  | branch _ body l, before => isLoweredTo_branch l (lowersIn body) before
  | loop init condition increment body l, before => by
    refine isLoweredTo_loop l ?_ (lowersIn body) before
    simp only [List.forall_mem_cons]
    exact ⟨lowersOf init, lowersOf condition, lowersOf increment, by simp⟩

theorem lowersIn : (body : Scope Statement) → ∀ before,
    Lowers before (partsIn body) 0 (lowerScope Backend.trace body)
      fun lowered => statementHandles lowered.statements
  | ⟨_, _, _, statements⟩, before => by
    rw [lowerScope, partsIn]
    exact (lowersAll statements before).bind fun _ _ => lowers_pure rfl

/-- Statements in a row leave over their handles, in order. -/
theorem lowersAll : (ss : List Statement) → ∀ before,
    Lowers before (partsAll ss) 0 (lowerAll Backend.trace ss) fun hs => statementHandles hs
  | [], _ => lowers_pure rfl
  | s :: rest, before => by
    rw [lowerAll, partsAll]
    obtain ⟨_, _, hfirst⟩ := s.isLoweredTo before
    refine (hfirst.lowers.mono (by simp)).bind fun before _ => ?_
    exact (((lowersAll rest before).mono (by simp)).keep _).bind fun _ _ => lowers_pure rfl

theorem lowersOf : (clause : Option Statement) → ∀ before,
    Lowers before (partsOf clause) 0 (lowerClause Backend.trace clause)
      fun h => statementHandles h.toList
  | none, _ => lowers_pure rfl
  | some s, before => by
    obtain ⟨_, _, hs⟩ := s.isLoweredTo before
    rw [lowerClause, partsOf]
    exact hs.lowers.bind fun _ _ => lowers_pure rfl

end

end Statement

/-! ### Handles are used once -/

/-- What becomes of handles and scopes in the calls that a statement is lowered to. -/
structure Disciplined (s : Statement) (before calls : List Call) (handle : Nat) : Prop where
  /-- A call is only given what an earlier one of these calls has returned, of the right kind. -/
  returned : ∀ first call rest kind place, calls = first ++ call :: rest →
    (kind, place) ∈ call.arguments → ∃ mid source more, first = mid ++ source :: more ∧
      source.result? = some kind ∧ place = before.length + mid.length
  /-- What a call returns, unless it is the last one, is given to one later call, and once. -/
  passed : ∀ first call rest kind, calls = first ++ call :: rest → rest ≠ [] →
    call.result? = some kind → ∃ mid user more, rest = mid ++ user :: more ∧
      user.arguments.count (kind, before.length + first.length) = 1 ∧
      ∀ other ∈ first ++ call :: (mid ++ more),
        (kind, before.length + first.length) ∉ other.arguments
  /-- The last call returns the handle of the statement. -/
  result : ∃ first call, calls = first ++ [call] ∧ call.result? = some .statement ∧
    handle = before.length + first.length
  /-- Every scope that is entered is left again. -/
  balanced : Call.Balanced calls
  /-- It is that of a block statement, which says what is called inside of it. -/
  blocks : ∀ first inner rest, calls = first ++ .enterScope :: (inner ++ .leaveScope :: rest) →
    Call.Balanced inner → ∃ t ∈ s.parts, Encloses (before ++ first) inner rest t
  /-- A block statement starts with its scope. -/
  own : s.isBlock = true → ∃ inner rest, calls = .enterScope :: (inner ++ .leaveScope :: rest) ∧
    Call.Balanced inner ∧ Encloses before inner rest s

/-- A handle that is given once is given to one of the calls. -/
theorem Call.exists_user {a : Handle} (h : (given calls).count a = 1) :
    ∃ mid user more, calls = mid ++ user :: more ∧ user.arguments.count a = 1 ∧
      ∀ other ∈ mid ++ more, a ∉ other.arguments := by
  induction calls with
  | nil => simp [given] at h
  | cons call calls ih =>
    rw [given, List.flatMap_cons, List.count_append] at h
    rcases Nat.eq_zero_or_pos (call.arguments.count a) with hzero | hpos
    · obtain ⟨mid, user, more, rfl, huser, hothers⟩ := ih (by rw [given]; omega)
      refine ⟨call :: mid, user, more, rfl, huser, ?_⟩
      rintro other (- | ⟨_, hother⟩)
      · exact List.count_eq_zero.1 hzero
      · exact hothers other hother
    · refine ⟨[], call, calls, rfl, by omega, ?_⟩
      intro other hother ha
      have hcount : (calls.flatMap arguments).count a = 0 := by omega
      exact List.count_eq_zero.1 hcount (List.mem_flatMap.2 ⟨other, hother, ha⟩)

namespace IsLoweredTo

variable {first : List Call} {call : Call} {kind : HandleKind} {place : Nat}

theorem returned (h : IsLoweredTo s before calls handle) (hcalls : calls = first ++ call :: rest)
    (hmem : (kind, place) ∈ call.arguments) :
    (kind, place) ∈ Call.results before.length first :=
  (h.flow.earlier first call rest hcalls _ hmem).resolve_left (Multiset.notMem_zero _)

/-- What the calls return is what they are given, and the handle of the statement. -/
theorem results_perm (h : IsLoweredTo s before calls handle) :
    (Call.results before.length calls).Perm (Call.given calls ++ [(.statement, handle)]) := by
  have hpassed := h.flow.passed
  rw [zero_add] at hpassed
  exact Multiset.coe_eq_coe.1 hpassed

theorem result (h : IsLoweredTo s before calls handle) :
    ∃ first call, calls = first ++ [call] ∧ call.result? = some .statement ∧
      handle = before.length + first.length := by
  have hresults := h.results_perm
  rcases List.eq_nil_or_concat calls with rfl | ⟨first, call, hcalls⟩
  · exact absurd hresults (by simp [Call.results, Call.given])
  rw [List.concat_eq_append] at hcalls
  have hlast := h.nested.last call (by simp [hcalls])
  obtain ⟨kind, hkind⟩ := Option.isSome_iff_exists.1 hlast
  have hreturned : (kind, before.length + first.length) ∈ Call.results before.length calls :=
    Call.mem_results_iff.2 ⟨first, call, [], hcalls, hkind, rfl⟩
  rcases List.mem_append.1 (hresults.mem_iff.1 hreturned) with hgiven | hout
  · -- no call comes after the last one
    obtain ⟨user, huser, hmem⟩ := List.mem_flatMap.1 hgiven
    obtain ⟨mid, more, hsplit⟩ := List.append_of_mem huser
    have hlt := (Call.lt_of_mem_results (h.returned hsplit hmem)).2
    have hlength := congrArg List.length (hcalls.symm.trans hsplit)
    simp only [List.length_append, List.length_cons, List.length_nil] at hlength hlt
    omega
  · obtain ⟨rfl, rfl⟩ := Prod.mk.inj (List.mem_singleton.1 hout)
    exact ⟨first, call, hcalls, hkind, rfl⟩

theorem passed (h : IsLoweredTo s before calls handle) (hcalls : calls = first ++ call :: rest)
    (hrest : rest ≠ []) (hresult : call.result? = some kind) :
    ∃ mid user more, rest = mid ++ user :: more ∧
      user.arguments.count (kind, before.length + first.length) = 1 ∧
      ∀ other ∈ first ++ call :: (mid ++ more),
        (kind, before.length + first.length) ∉ other.arguments := by
  set a : Handle := (kind, before.length + first.length) with ha
  have hreturned : a ∈ Call.results before.length calls :=
    Call.mem_results_iff.2 ⟨first, call, rest, hcalls, hresult, rfl⟩
  have hout : a ≠ (.statement, handle) := by
    obtain ⟨first', call', hcalls', -, rfl⟩ := h.result
    intro heq
    have hplace := (Prod.mk.inj heq).2
    have hlength := congrArg List.length (hcalls.symm.trans hcalls')
    have hpos := List.length_pos_iff.2 hrest
    simp only [List.length_append, List.length_cons, List.length_nil] at hlength
    omega
  have hgiven : (Call.given calls).count a = 1 := by
    have hone := List.count_eq_one_of_mem (Call.nodup_results _ _) hreturned
    rwa [h.results_perm.count_eq, List.count_append,
      List.count_eq_zero.2 fun hmem => hout (List.mem_singleton.1 hmem)] at hone
  obtain ⟨mid, user, more, hsplit, huser, hothers⟩ := Call.exists_user hgiven
  have hmem : a ∈ user.arguments := List.count_pos_iff.1 (by omega)
  have hlt := (Call.lt_of_mem_results (h.returned hsplit hmem)).2
  rw [hcalls, List.append_cons] at hsplit
  rcases cases_append_eq_append_cons hsplit with ⟨mid', hfirst, -⟩ | ⟨mid', rfl, rfl⟩
  · -- the call would have been given the handle before it was returned
    have hlength := congrArg List.length hfirst
    simp only [List.length_append, List.length_cons, List.length_nil] at hlength hlt
    omega
  · refine ⟨mid', user, more, rfl, huser, ?_⟩
    simpa using hothers

theorem disciplined (h : IsLoweredTo s before calls handle) :
    Disciplined s before calls handle where
  returned _ _ _ _ _ hcalls hmem := Call.mem_results_iff.1 (h.returned hcalls hmem)
  passed _ _ _ _ hcalls hrest hresult := h.passed hcalls hrest hresult
  result := h.result
  balanced := h.nested.balanced
  blocks := h.nested.blocks
  own := h.own

end IsLoweredTo

/-- Whatever a statement is like, in the calls that it is lowered to every handle that is given was
returned before and is of the right kind, every handle but the last is given to one later call, and
the last one is the answer. Every scope that is entered is left again: that of an `if` after the
calls of its body, and that of a `for` after those of its clauses and its body. -/
theorem Statement.lowering_passes_handles_once (s : Statement) (before : List Call) :
    ∃ calls handle, Records before (s.lower Backend.trace) calls handle ∧
      Disciplined s before calls handle := by
  obtain ⟨calls, handle, h⟩ := s.isLoweredTo before
  exact ⟨calls, handle, h.records, h.disciplined⟩

end FloatLang
