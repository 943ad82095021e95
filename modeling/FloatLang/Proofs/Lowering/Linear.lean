import Mathlib.Algebra.Order.Group.Multiset
import FloatLang.Proofs.Lowering.Scoping

/-!
# Handles flow from call to call

Every call but those for scopes returns a handle, and calls are given handles that were returned
before. In a record of calls whose handles flow, what comes in and what the calls return is just
what the calls are given and what goes out: nothing is used twice, and nothing is lost. Such records
can be put together as the computations are that made them. So can records in which scopes are
nested, of which each belongs to a block statement.

## Main definitions

* `Call.result?`, `Call.arguments` — what a call returns and what it is given
* `Call.Flow` — the handles of a record
* `Call.Balanced` — every scope that is entered is left
* `Records` — the calls and the answer of a computation
* `Encloses`, `Nested` — the scope of a block statement in a record, and all scopes in it
* `Lowers` — a computation that makes such a record

## Main results

* `Call.Flow.append`, `Call.Flow.keep` — handles flow on to the calls that follow
* `Call.Balanced.eq_of_append_leave` — a scope is left in one place
* `Nested.append`, `Nested.enclosed` — scopes in a row and inside one another
* `Lowers.bind` — computations in a row
-/

namespace FloatLang

/-- What a handle stands for. -/
inductive HandleKind
  | object
  | expression
  | statement
  deriving DecidableEq, Repr

/-- A handle: what it stands for, and the place in the record of the call that returned it. -/
abbrev Handle := HandleKind × Nat

/-- The handles of statements. -/
def statementHandles (places : List Nat) : List Handle := places.map (HandleKind.statement, ·)

namespace Call

/-- What the handle stands for that a call returns. -/
def result? : Call → Option HandleKind
  | object _ => some .object
  | invalidExpr | unary .. | binary .. | reference .. | numeral .. | condition .. =>
    some .expression
  | invalidStatement | declare _ | assign .. | increment .. | decrement .. | branch .. | loop ..
  | expr .. | compound .. => some .statement
  | enterScope | leaveScope => none

/-- The handles that a call is given. -/
def arguments : Call → List Handle
  | reference v _ | declare v => [(.object, v)]
  | unary _ e _ | condition e _ | increment e _ | decrement e _ | expr e _ => [(.expression, e)]
  | binary _ e e' _ | assign e e' _ => [(.expression, e), (.expression, e')]
  | branch e body _ => (.expression, e) :: statementHandles body.statements
  | loop i c k body _ =>
    statementHandles (i.toList ++ c.toList ++ k.toList ++ body.statements)
  | compound s s' _ => [(.statement, s), (.statement, s')]
  | object _ | invalidExpr | numeral .. | invalidStatement | enterScope | leaveScope => []

/-- The handles that calls return, the first of which has the place `n` in the record. -/
def results (n : Nat) : List Call → List Handle
  | [] => []
  | call :: rest => (call.result?.map (·, n)).toList ++ results (n + 1) rest

/-- The handles that calls are given. -/
def given (calls : List Call) : List Handle := calls.flatMap arguments

variable {n h : Nat} {kind : HandleKind} {call : Call} {calls calls' first rest : List Call}

/-! ### Handles that are returned -/

theorem results_append (n : Nat) (calls calls' : List Call) :
    results n (calls ++ calls') = results n calls ++ results (n + calls.length) calls' := by
  induction calls generalizing n with
  | nil => rfl
  | cons call calls ih =>
    rw [List.cons_append, results, results, ih, List.append_assoc, List.length_cons,
      Nat.add_assoc n 1, Nat.add_comm 1]

theorem given_append (calls calls' : List Call) :
    given (calls ++ calls') = given calls ++ given calls' := List.flatMap_append

/-- A handle was returned by the call at its place. -/
theorem mem_results_iff :
    (kind, h) ∈ results n calls ↔
      ∃ first call rest, calls = first ++ call :: rest ∧ call.result? = some kind ∧
        h = n + first.length := by
  induction calls generalizing n with
  | nil => simp [results]
  | cons call calls ih =>
    rw [results, List.mem_append, ih]
    constructor
    · rintro (hhead | ⟨first, call', rest, rfl, hresult, rfl⟩)
      · obtain ⟨kind', hresult, heq⟩ := Option.map_eq_some_iff.1 (Option.mem_toList.1 hhead)
        obtain ⟨rfl, rfl⟩ := Prod.mk.inj heq
        exact ⟨[], call, calls, rfl, hresult, rfl⟩
      · exact ⟨call :: first, call', rest, rfl, hresult, by rw [List.length_cons]; omega⟩
    · rintro ⟨first, call', rest, hsplit, hresult, rfl⟩
      cases first with
      | nil =>
        obtain ⟨rfl, rfl⟩ := List.cons.inj hsplit
        exact .inl (by simp [hresult])
      | cons call'' first =>
        obtain ⟨rfl, rfl⟩ := List.cons.inj hsplit
        exact .inr ⟨first, call', rest, rfl, hresult, by rw [List.length_cons]; omega⟩

/-- A handle that was returned has a place in the record. -/
theorem lt_of_mem_results {a : Handle} (ha : a ∈ results n calls) :
    n ≤ a.2 ∧ a.2 < n + calls.length := by
  obtain ⟨first, call, rest, rfl, -, hplace⟩ := mem_results_iff.1 ha
  rw [hplace, List.length_append, List.length_cons]
  omega

/-- No handle is returned twice. -/
theorem nodup_results (n : Nat) (calls : List Call) : (results n calls).Nodup := by
  induction calls generalizing n with
  | nil => exact List.nodup_nil
  | cons call calls ih =>
    rw [results]
    refine List.nodup_append.2 ⟨?_, ih (n + 1), ?_⟩
    · cases call.result? <;> simp
    · rintro a ha b hb rfl
      obtain ⟨kind, -, rfl⟩ := Option.map_eq_some_iff.1 (Option.mem_toList.1 ha)
      have hlt := (lt_of_mem_results hb).1
      exact absurd hlt (Nat.not_succ_le_self n)

/-! ### Handles that flow -/

/-- The handles that come in and those that the calls return, from the place `n` of the record on,
are just those that the calls are given and those that go out, and no call is given a handle before
it has come in or has been returned. -/
structure Flow (n : Nat) (inp : Multiset Handle) (calls : List Call) (out : Multiset Handle) :
    Prop where
  passed : inp + results n calls = given calls + out
  earlier : ∀ first call rest, calls = first ++ call :: rest →
    ∀ a ∈ call.arguments, a ∈ inp ∨ a ∈ results n first

variable {inp mid out : Multiset Handle}

theorem flow_nil (n : Nat) (inp : Multiset Handle) : Flow n inp [] inp where
  passed := by rw [add_comm]; rfl
  earlier first call rest h := by simp at h

/-- A call is given what comes in. -/
theorem flow_call (hgiven : inp = call.arguments)
    (hout : out = (call.result?.map (·, n)).toList) : Flow n inp [call] out where
  passed := by
    subst hgiven hout
    simp [results, given]
  earlier first call' rest h a ha := by
    have hmem : call' ∈ [call] := by rw [h]; simp
    obtain rfl := List.mem_singleton.1 hmem
    exact .inl (hgiven ▸ Multiset.mem_coe.2 ha)

/-- Scopes concern no handle. -/
theorem flow_scope (hresult : call.result? = none) (harguments : call.arguments = []) :
    Flow n 0 [call] 0 :=
  flow_call (by rw [harguments]; rfl) (by rw [hresult]; rfl)

/-- What goes out of the first calls comes in at those that follow. -/
theorem Flow.append (h : Flow n inp calls mid) (h' : Flow (n + calls.length) mid calls' out) :
    Flow n inp (calls ++ calls') out where
  passed := by
    rw [results_append, given_append, ← Multiset.coe_add, ← Multiset.coe_add, ← add_assoc,
      h.passed, add_assoc, h'.passed, add_assoc]
  earlier first call rest hsplit a ha := by
    rcases cases_append_eq_append_cons hsplit with ⟨more, rfl, -⟩ | ⟨more, rfl, rfl⟩
    · exact h.earlier first call more rfl a ha
    · rw [results_append, List.mem_append]
      rcases h'.earlier more call rest rfl a ha with hmid | hresult
      · have hmem : a ∈ inp + (results n calls : Multiset Handle) := by
          rw [h.passed]
          exact Multiset.mem_add.2 (.inr hmid)
        exact (Multiset.mem_add.1 hmem).imp_right .inl
      · exact .inr (.inr hresult)

/-- Handles that were returned before go out as they have come in. -/
theorem Flow.keep (h : Flow n 0 calls out) (held : Multiset Handle) :
    Flow n held calls (held + out) where
  passed := by
    have hpassed := h.passed
    rw [zero_add] at hpassed
    rw [hpassed, add_left_comm]
  earlier first call rest hsplit a ha :=
    (h.earlier first call rest hsplit a ha).imp_left fun hnone => absurd hnone (by simp)

/-- What goes out of the calls inside of a scope comes in behind it. -/
theorem Flow.enclosed (h : Flow (n + 1) 0 calls mid)
    (h' : Flow (n + 1 + calls.length + 1) mid calls' out) :
    Flow n 0 (.enterScope :: (calls ++ .leaveScope :: calls')) out := by
  have hleave : Flow (n + 1 + calls.length) mid [.leaveScope] mid := by
    simpa using (flow_scope rfl rfl).keep mid
  exact (flow_scope rfl rfl).append (h.append (hleave.append h'))

/-! ### Scopes that are left again -/

/-- Every scope that is entered is left again, and no other. -/
structure Balanced (calls : List Call) : Prop where
  stays : StaysOpen .enterScope .leaveScope calls
  closed : calls.count .enterScope = calls.count .leaveScope

theorem balanced_nil : Balanced [] := ⟨staysOpen_of_not_mem (by simp), rfl⟩

/-- Any other call than those for scopes. -/
theorem balanced_call (hresult : call.result?.isSome = true) : Balanced [call] := by
  have henter : .enterScope ∉ [call] := by
    rintro h
    obtain rfl := List.mem_singleton.1 h
    contradiction
  have hleave : .leaveScope ∉ [call] := by
    rintro h
    obtain rfl := List.mem_singleton.1 h
    contradiction
  refine ⟨staysOpen_of_not_mem hleave, ?_⟩
  rw [List.count_eq_zero.2 henter, List.count_eq_zero.2 hleave]

theorem Balanced.append (h : Balanced calls) (h' : Balanced calls') :
    Balanced (calls ++ calls') where
  stays := h.stays.append h'.stays
  closed := by rw [List.count_append, List.count_append, h.closed, h'.closed]

theorem Balanced.enclosed (h : Balanced calls) :
    Balanced ([.enterScope] ++ calls ++ [.leaveScope]) where
  stays := h.stays.enclosed (by simp)
  closed := by
    have henter : List.count Call.enterScope [.leaveScope] = 0 := rfl
    have hleave : List.count Call.leaveScope [.enterScope] = 0 := rfl
    simp only [List.count_append, List.count_singleton_self, henter, hleave, h.closed]
    omega

/-- A scope that is entered is left, if every scope is. -/
theorem not_balanced_of_staysOpen (h : StaysOpen .enterScope .leaveScope rest) :
    ¬Balanced (first ++ .enterScope :: rest) := by
  intro hbalanced
  have hfirst := hbalanced.stays first (List.prefix_append _ _)
  have hrest := h rest (List.prefix_refl _)
  have hclosed := hbalanced.closed
  have hne : List.count Call.leaveScope (.enterScope :: rest) = rest.count .leaveScope :=
    List.count_cons_of_ne (by simp)
  rw [List.count_append, List.count_append, List.count_cons_self, hne] at hclosed
  omega

/-- A scope is left in one place. -/
theorem Balanced.eq_of_append_leave {inner inner' rest' : List Call} (h : Balanced inner)
    (h' : Balanced inner') (heq : inner ++ .leaveScope :: rest = inner' ++ .leaveScope :: rest') :
    inner = inner' ∧ rest = rest' := by
  -- if one went on behind the other, it would leave a scope that it has not entered
  have hshort {xs ys zs : List Call} (hxs : Balanced xs) (hys : Balanced ys) :
      xs ≠ ys ++ .leaveScope :: zs := by
    rintro rfl
    have hle := hxs.stays (ys ++ [.leaveScope]) ⟨zs, by simp⟩
    have hne : List.count Call.enterScope [.leaveScope] = 0 := rfl
    rw [List.count_append, List.count_append, List.count_singleton_self, hys.closed, hne] at hle
    omega
  rcases cases_append_cons_eq_append_cons heq with hsame | ⟨mid, hmid⟩ | ⟨mid, hmid⟩
  · exact hsame
  · exact absurd hmid (hshort h h')
  · exact absurd hmid (hshort h' h)

end Call

/-! ### Records -/

/-- After the calls made before, the computation makes the calls and answers with `a`. -/
def Records {α : Type} (before : List Call) (m : StateM (Array Call) α) (calls : List Call)
    (a : α) : Prop :=
  m.run before.toArray = (a, (before ++ calls).toArray)

section Records

variable {α β : Type} {before calls calls' : List Call} {m : StateM (Array Call) α} {a : α}
  {b : β}

theorem records_pure (a : α) : Records before (pure a : StateM (Array Call) α) [] a := by
  rw [Records, List.append_nil]
  rfl

theorem records_record (call : Call) :
    Records before (Backend.record call) [call] before.length := by
  rw [Records, ← List.push_toArray]
  rfl

/-- Two computations in a row. -/
theorem Records.bind {f : α → StateM (Array Call) β} (hm : Records before m calls a)
    (hf : Records (before ++ calls) (f a) calls' b) :
    Records before (m >>= f) (calls ++ calls') b := by
  rw [Records] at hm
  rw [Records, StateT.run_bind, hm, ← List.append_assoc]
  exact hf

theorem records_enterScope : Records before Backend.trace.enterScope [.enterScope] () :=
  (records_record .enterScope).bind (records_pure ())

theorem records_leaveScope : Records before Backend.trace.leaveScope [.leaveScope] () :=
  (records_record .leaveScope).bind (records_pure ())

end Records

/-! ### Scopes of block statements -/

open Statement (lowerScope lowerClause)

/-- A scope that is entered after the calls made before and left behind the calls `inner` is that of
the statement. For an `if`, these are the calls of its body, and those of its condition come
afterwards. For a `for`, they are the calls of its clauses, in order, and its body. The call for the
statement itself is next. -/
inductive Encloses (before inner rest : List Call) : Statement → Prop
  | branch {condition : Condition} {body : Scope Statement} {l : Location}
      {lowered : LoweredScope Nat} {calls more : List Call} {e : Nat}
      (hbody : Records (before ++ [.enterScope]) (lowerScope Backend.trace body) inner lowered)
      (hcondition : Records (before ++ [.enterScope] ++ inner ++ [.leaveScope])
        (condition.expr.lower Backend.trace) calls e)
      (hrest : rest = calls ++ .branch e lowered l :: more) :
      Encloses before inner rest (.branch condition body l)
  | loop {init condition increment : Option Statement} {body : Scope Statement} {l : Location}
      {first second third last more : List Call} {i c k : Option Nat} {lowered : LoweredScope Nat}
      (hinit : Records (before ++ [.enterScope]) (lowerClause Backend.trace init) first i)
      (hcondition : Records (before ++ [.enterScope] ++ first)
        (lowerClause Backend.trace condition) second c)
      (hincrement : Records (before ++ [.enterScope] ++ first ++ second)
        (lowerClause Backend.trace increment) third k)
      (hbody : Records (before ++ [.enterScope] ++ first ++ second ++ third)
        (lowerScope Backend.trace body) last lowered)
      (hinner : inner = first ++ (second ++ (third ++ last)))
      (hrest : rest = .loop i c k lowered l :: more) :
      Encloses before inner rest (.loop init condition increment body l)

/-- Every scope that the calls enter is left again, and is that of one of the statements. The last
call returns a handle. -/
structure Nested (before : List Call) (ss : List Statement) (calls : List Call) : Prop where
  balanced : Call.Balanced calls
  blocks : ∀ first inner rest, calls = first ++ .enterScope :: (inner ++ .leaveScope :: rest) →
    Call.Balanced inner → ∃ s ∈ ss, Encloses (before ++ first) inner rest s
  last : ∀ call ∈ calls.getLast?, call.result?.isSome = true

section Nested

variable {before calls calls' inner rest : List Call} {ss ss' : List Statement} {s : Statement}
  {call : Call}

/-- The call for the statement comes behind its scope. -/
theorem Encloses.ne_nil (h : Encloses before inner rest s) : rest ≠ [] := by
  cases h with
  | branch hbody hcondition hrest => simp [hrest]
  | loop hinit hcondition hincrement hbody hinner hrest => simp [hrest]

theorem Encloses.append (h : Encloses before inner rest s) (more : List Call) :
    Encloses before inner (rest ++ more) s := by
  cases h with
  | branch hbody hcondition hrest =>
    exact .branch hbody hcondition (by rw [hrest, List.append_assoc]; rfl)
  | loop hinit hcondition hincrement hbody hinner hrest =>
    exact .loop hinit hcondition hincrement hbody hinner (by rw [hrest]; rfl)

theorem Nested.mono (h : Nested before ss calls) (hss : ss ⊆ ss') : Nested before ss' calls where
  balanced := h.balanced
  blocks first inner rest hsplit hinner := by
    obtain ⟨s, hs, hencloses⟩ := h.blocks first inner rest hsplit hinner
    exact ⟨s, hss hs, hencloses⟩
  last := h.last

theorem nested_nil : Nested before ss [] where
  balanced := Call.balanced_nil
  blocks first inner rest h := by simp at h
  last := by simp

theorem nested_call (hresult : call.result?.isSome = true) : Nested before ss [call] where
  balanced := Call.balanced_call hresult
  blocks first inner rest h := by
    have hmem : .enterScope ∈ [call] := by rw [h]; simp
    obtain rfl := List.mem_singleton.1 hmem
    contradiction
  last := by simpa using hresult

/-- A scope that is entered in the first of two records is left there. -/
theorem Nested.blocks_append {first : List Call} (h : Nested before ss calls)
    (hinner : Call.Balanced inner) {mid : List Call} (hcalls : calls = first ++ .enterScope :: mid)
    (hrest : mid ++ calls' = inner ++ .leaveScope :: rest) :
    ∃ s ∈ ss, Encloses (before ++ first) inner rest s := by
  rcases cases_append_eq_append_cons hrest with ⟨more, rfl, rfl⟩ | ⟨more, rfl, -⟩
  · obtain ⟨s, hs, hencloses⟩ := h.blocks first inner more hcalls hinner
    exact ⟨s, hs, hencloses.append calls'⟩
  · have hstays := hinner.stays.of_prefix (List.prefix_append mid more)
    exact absurd (hcalls ▸ h.balanced) (Call.not_balanced_of_staysOpen hstays)

/-- Two records in a row. -/
theorem Nested.append (h : Nested before ss calls) (h' : Nested (before ++ calls) ss calls') :
    Nested before ss (calls ++ calls') where
  balanced := h.balanced.append h'.balanced
  blocks first inner rest hsplit hinner := by
    rcases cases_append_eq_append_cons hsplit with ⟨mid, hcalls, hrest⟩ | ⟨mid, rfl, hcalls⟩
    · exact h.blocks_append hinner hcalls hrest.symm
    · rw [← List.append_assoc]
      exact h'.blocks mid inner rest hcalls hinner
  last call hcall := by
    rw [List.getLast?_append] at hcall
    rcases Option.or_eq_some_iff.1 hcall with hlast | ⟨-, hlast⟩
    · exact h'.last call hlast
    · exact h.last call hlast

/-- The scope of a block statement, and what comes behind it. -/
theorem Nested.enclosed (h : Nested (before ++ [.enterScope]) ss calls)
    (h' : Nested (before ++ [.enterScope] ++ calls ++ [.leaveScope]) ss calls')
    (hs : s ∈ ss) (hencloses : Encloses before calls calls' s) :
    Nested before ss (.enterScope :: (calls ++ .leaveScope :: calls')) where
  balanced := by
    have hbalanced := h.balanced.enclosed.append h'.balanced
    simpa using hbalanced
  blocks first inner rest hsplit hinner := by
    cases first with
    | nil =>
      obtain ⟨-, hsplit⟩ := List.cons.inj hsplit
      obtain ⟨rfl, rfl⟩ := h.balanced.eq_of_append_leave hinner hsplit
      exact ⟨s, hs, by rwa [List.append_nil]⟩
    | cons call first =>
      obtain ⟨rfl, hbehind⟩ := List.cons.inj hsplit
      rw [List.append_cons before]
      rcases cases_append_eq_append_cons hbehind with ⟨mid, hcalls, hrest⟩ |
        ⟨mid, rfl, hcalls⟩
      · exact h.blocks_append hinner hcalls hrest.symm
      · -- the scope is entered behind the one that was left
        cases mid with
        | nil => simp at hcalls
        | cons call mid =>
          obtain ⟨rfl, hafter⟩ := List.cons.inj hcalls
          rw [← List.append_assoc, List.append_cons (before ++ [Call.enterScope] ++ calls)]
          exact h'.blocks mid inner rest hafter hinner
  last call hcall := by
    have hsplit : Call.enterScope :: (calls ++ .leaveScope :: calls') =
        (.enterScope :: calls ++ [.leaveScope]) ++ calls' := by simp
    rw [hsplit, List.getLast?_append_of_ne_nil _ hencloses.ne_nil] at hcall
    exact h'.last call hcall

end Nested

/-! ### Computations -/

/-- After the calls made before, the computation makes calls through which the handles flow that
come in, and what goes out is settled by its answer; every scope among them is that of one of the
statements. -/
def Lowers {α : Type} (before : List Call) (ss : List Statement) (inp : Multiset Handle)
    (m : StateM (Array Call) α) (out : α → Multiset Handle) : Prop :=
  ∃ calls a, Records before m calls a ∧ Call.Flow before.length inp calls (out a) ∧
    Nested before ss calls

section Lowers

variable {α β : Type} {before : List Call} {ss ss' : List Statement} {inp : Multiset Handle}
  {m : StateM (Array Call) α} {out : α → Multiset Handle} {out' : β → Multiset Handle}

theorem lowers_pure {a : α} (hinp : inp = out a) :
    Lowers before ss inp (pure a : StateM (Array Call) α) out :=
  ⟨[], a, records_pure a, hinp ▸ Call.flow_nil _ _, nested_nil⟩

/-- A call that is given what comes in, and whose handle goes out. -/
theorem lowers_record {call : Call} {kind : HandleKind} (hresult : call.result? = some kind)
    (hinp : inp = call.arguments) :
    Lowers before ss inp (Backend.record call) fun h => {(kind, h)} := by
  refine ⟨[call], before.length, records_record call, Call.flow_call hinp ?_, nested_call ?_⟩
  · rw [hresult]
    rfl
  · rw [hresult]
    rfl

/-- What goes out of the first computation comes in at the second one. -/
theorem Lowers.bind {f : α → StateM (Array Call) β} (hm : Lowers before ss inp m out)
    (hf : ∀ before a, Lowers before ss (out a) (f a) out') :
    Lowers before ss inp (m >>= f) out' := by
  obtain ⟨calls, a, hrecords, hflow, hnested⟩ := hm
  obtain ⟨calls', b, hrecords', hflow', hnested'⟩ := hf (before ++ calls) a
  rw [List.length_append] at hflow'
  refine ⟨calls ++ calls', b, hrecords.bind hrecords', hflow.append hflow', ?_⟩
  exact hnested.append hnested'

/-- Handles that were returned before go out as they have come in. -/
theorem Lowers.keep (h : Lowers before ss 0 m out) (held : Multiset Handle) :
    Lowers before ss held m fun a => held + out a := by
  obtain ⟨calls, a, hrecords, hflow, hnested⟩ := h
  exact ⟨calls, a, hrecords, hflow.keep held, hnested⟩

theorem Lowers.mono (h : Lowers before ss inp m out) (hss : ss ⊆ ss') :
    Lowers before ss' inp m out := by
  obtain ⟨calls, a, hrecords, hflow, hnested⟩ := h
  exact ⟨calls, a, hrecords, hflow, hnested.mono hss⟩

end Lowers

end FloatLang
