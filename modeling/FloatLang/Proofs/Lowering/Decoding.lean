import Mathlib.Data.List.Induction
import FloatLang.Proofs.Lowering.Linear

/-!
# A statement is rebuilt from its calls

Lowering writes a tree down as a flat record of calls, in which a node refers to its children by the
places of their calls. Reading the record from its front, what every call stands for is put together
from what stands at the places it is given; the last call stands for the whole statement. Only the
parents of scopes are not handed to a backend. So unless a node was lowered to an invalid one,
nothing else of the tree is lost, and two trees are lowered to the same calls just if they differ in
the parents of their scopes.

## Main definitions

* `Statement.detached` — a statement whose scopes do not name their parents
* `Piece`, `Piece.ofCalls` — what the calls of a record stand for
* `Statement.decode?` — the statement of a record
* `Yields` — what the calls of a computation stand for, if none is for an invalid node

## Main results

* `Piece.ofCalls_append` — what stands at a place is settled by the calls up to it
* `Expr.yields`, `Statement.yields` — the calls of a node stand for it
* `Statement.lowering_decodes` — the calls of a statement tell it apart from any other
-/

namespace FloatLang

/-! ### Scopes without parents -/

namespace Statement

mutual

/-- The statement with scopes that do not name their parents. -/
def detached : Statement → Statement
  | branch condition body l => branch condition (detachedScope body) l
  | loop init condition increment body l =>
    loop (detachedClause init) (detachedClause condition) (detachedClause increment)
      (detachedScope body) l
  | compound first second l => compound first.detached second.detached l
  | invalid l => invalid l
  | declare v => declare v
  | assign target value l => assign target value l
  | step direction target l => step direction target l
  | expr e l => expr e l

/-- The scope without its parent, and its statements likewise. -/
def detachedScope : Scope Statement → Scope Statement
  | ⟨id, _, declared, statements⟩ => ⟨id, none, declared, detachedAll statements⟩

/-- Statements without the parents of their scopes. -/
def detachedAll : List Statement → List Statement
  | [] => []
  | s :: rest => s.detached :: detachedAll rest

/-- A clause of a loop without the parents of its scopes. -/
def detachedClause : Option Statement → Option Statement
  | none => none
  | some s => some s.detached

end

variable {σ V E S : Type} (b : Backend σ V E S)

@[simp] theorem isInvalid_detached (s : Statement) : s.detached.isInvalid = s.isInvalid := by
  cases s <;> rfl

mutual

/-- No backend is told about the parents of scopes. -/
theorem lower_detached : (s : Statement) → s.detached.lower b = s.lower b
  | invalid _ | declare _ | assign .. | step .. | expr .. => rfl
  | branch condition body l => by
    rw [detached, lower, lower, lowerScope_detached body]
  | loop init condition increment body l => by
    rw [detached, lower, lower, lowerClause_detached init, lowerClause_detached condition,
      lowerClause_detached increment, lowerScope_detached body]
  | compound first second l => by
    rw [detached, lower, lower, lower_detached first, lower_detached second, isInvalid_detached,
      isInvalid_detached]

theorem lowerScope_detached : (body : Scope Statement) →
    lowerScope b (detachedScope body) = lowerScope b body
  | ⟨_, _, _, statements⟩ => by
    rw [detachedScope, lowerScope, lowerScope, lowerAll_detached statements]

theorem lowerAll_detached : (ss : List Statement) → lowerAll b (detachedAll ss) = lowerAll b ss
  | [] => rfl
  | s :: rest => by
    rw [detachedAll, lowerAll, lowerAll, lower_detached s, lowerAll_detached rest]

theorem lowerClause_detached : (clause : Option Statement) →
    lowerClause b (detachedClause clause) = lowerClause b clause
  | none => rfl
  | some s => by rw [detachedClause, lowerClause, lowerClause, lower_detached s]

end

/-- The calls that a statement is lowered to. -/
def calls (s : Statement) : List Call := ((s.lower Backend.trace).run #[]).2.toList

end Statement

/-! ### What calls stand for -/

/-- Whether a call asks for an invalid node. -/
def Call.isInvalid : Call → Bool
  | invalidExpr | invalidStatement => true
  | _ => false

/-- What the handle of a call stands for. -/
inductive Piece
  | object (v : Variable)
  | expr (e : Expr)
  | statement (s : Statement)

namespace Piece

/-- The pieces of the calls of a record, each at the place of its call. -/
abbrev Table := List (Option Piece)

/-- The piece at a place. -/
def at? (table : Table) (h : Nat) : Option Piece := table[h]?.join

/-- The variable at a place. -/
def object? (table : Table) (h : Nat) : Option Variable :=
  match at? table h with
  | some (object v) => some v
  | _ => none

/-- The expression at a place. -/
def expr? (table : Table) (h : Nat) : Option Expr :=
  match at? table h with
  | some (expr e) => some e
  | _ => none

/-- The use of a variable at a place. -/
def reference? (table : Table) (h : Nat) : Option Reference :=
  match expr? table h with
  | some (.reference r) => some r
  | _ => none

/-- The condition at a place. -/
def condition? (table : Table) (h : Nat) : Option Condition :=
  match expr? table h with
  | some (.condition inner l) => some ⟨inner, l⟩
  | _ => none

/-- The variable that is counted up or down by the expression at a place. -/
def counted? (table : Table) (h : Nat) : Option Reference :=
  match expr? table h with
  | some (.unary _ (.reference r) _) => some r
  | _ => none

/-- The statement at a place. -/
def statement? (table : Table) (h : Nat) : Option Statement :=
  match at? table h with
  | some (statement s) => some s
  | _ => none

/-- The statements at places. -/
def statements? (table : Table) : List Nat → Option (List Statement)
  | [] => some []
  | h :: rest => do
    let s ← statement? table h
    let ss ← statements? table rest
    pure (s :: ss)

/-- The scope with the statements at its places. -/
def scope? (table : Table) (lowered : LoweredScope Nat) : Option (Scope Statement) :=
  (statements? table lowered.statements).map fun ss => ⟨lowered.id, none, lowered.declared, ss⟩

/-- The clause at a place, or none where there is no place. -/
def clause? (table : Table) : Option Nat → Option (Option Statement)
  | none => some none
  | some h => (statement? table h).map some

/-- What a call stands for, given what the calls before it stand for. -/
def ofCall? (table : Table) : Call → Option Piece
  | .object v => some (object v)
  | .unary op e l => do
    let operand ← expr? table e
    pure (expr (.unary op operand l))
  | .binary op e e' l => do
    let left ← expr? table e
    let right ← expr? table e'
    pure (expr (.binary op left right l))
  | .reference h l => do
    let v ← object? table h
    pure (expr (.reference ⟨v, l⟩))
  | .numeral value l => some (expr (.numeral value l))
  | .condition e l => do
    let inner ← expr? table e
    pure (expr (.condition inner l))
  | .declare h => do
    let v ← object? table h
    pure (statement (.declare v))
  | .assign e e' l => do
    let target ← reference? table e
    let value ← expr? table e'
    pure (statement (.assign target value l))
  | .increment e l => do
    let target ← counted? table e
    pure (statement (.step .up target l))
  | .decrement e l => do
    let target ← counted? table e
    pure (statement (.step .down target l))
  | .branch e body l => do
    let condition ← condition? table e
    let body ← scope? table body
    pure (statement (.branch condition body l))
  | .loop i c k body l => do
    let init ← clause? table i
    let condition ← clause? table c
    let increment ← clause? table k
    let body ← scope? table body
    pure (statement (.loop init condition increment body l))
  | .expr e l => do
    let e ← expr? table e
    pure (statement (.expr e l))
  | .compound h h' l => do
    let first ← statement? table h
    let second ← statement? table h'
    pure (statement (.compound first second l))
  | .invalidExpr | .invalidStatement | .enterScope | .leaveScope => none

/-- What the calls of a record stand for, each in view of those before it. -/
def ofCalls (calls : List Call) : Table :=
  calls.foldl (fun table call => table ++ [ofCall? table call]) []

variable {h : Nat} {p : Piece} {first rest before after : List Call}

theorem ofCalls_concat (calls : List Call) (call : Call) :
    ofCalls (calls ++ [call]) = ofCalls calls ++ [ofCall? (ofCalls calls) call] := by
  rw [ofCalls, List.foldl_append]
  rfl

@[simp] theorem length_ofCalls (calls : List Call) : (ofCalls calls).length = calls.length := by
  induction calls using List.reverseRecOn with
  | nil => rfl
  | append_singleton calls call ih =>
    rw [ofCalls_concat, List.length_append, List.length_append, ih]
    rfl

/-- What calls stand for does not depend on those that follow. -/
theorem ofCalls_append (first rest : List Call) : ofCalls first <+: ofCalls (first ++ rest) := by
  induction rest using List.reverseRecOn with
  | nil => simp
  | append_singleton rest call ih =>
    rw [← List.append_assoc, ofCalls_concat]
    exact ih.trans (List.prefix_append _ _)

/-- What stands at a place still stands there when more calls were made. -/
theorem at?_mono (hle : before <+: after) (hat : at? (ofCalls before) h = some p) :
    at? (ofCalls after) h = some p := by
  obtain ⟨rest, rfl⟩ := hle
  obtain ⟨more, hmore⟩ := ofCalls_append before rest
  have hslot : (ofCalls before)[h]? = some (some p) := Option.join_eq_some_iff.1 hat
  have hlt : h < (ofCalls before).length := (List.getElem?_eq_some_iff.1 hslot).1
  rw [at?, ← hmore, List.getElem?_append_left hlt]
  exact hat

theorem statement?_mono {s : Statement} (hle : before <+: after)
    (hat : statement? (ofCalls before) h = some s) : statement? (ofCalls after) h = some s := by
  rw [statement?] at hat
  split at hat
  next s' hs =>
    rw [statement?, at?_mono hle hs]
    exact hat
  next => contradiction

theorem statements?_mono {hs : List Nat} {ss : List Statement} (hle : before <+: after)
    (hat : statements? (ofCalls before) hs = some ss) :
    statements? (ofCalls after) hs = some ss := by
  induction hs generalizing ss with
  | nil => exact hat
  | cons h hs ih =>
    simp only [statements?, Option.bind_eq_bind, Option.bind_eq_some_iff] at hat ⊢
    obtain ⟨s, hs, ss', hss, hcons⟩ := hat
    exact ⟨s, statement?_mono hle hs, ss', ih hss, hcons⟩

theorem scope?_mono {lowered : LoweredScope Nat} {body : Scope Statement} (hle : before <+: after)
    (hat : scope? (ofCalls before) lowered = some body) :
    scope? (ofCalls after) lowered = some body := by
  obtain ⟨ss, hss, hbody⟩ := Option.map_eq_some_iff.1 hat
  exact Option.map_eq_some_iff.2 ⟨ss, statements?_mono hle hss, hbody⟩

theorem clause?_mono {i : Option Nat} {clause : Option Statement} (hle : before <+: after)
    (hat : clause? (ofCalls before) i = some clause) :
    clause? (ofCalls after) i = some clause := by
  cases i with
  | none => exact hat
  | some h =>
    obtain ⟨s, hs, hclause⟩ := Option.map_eq_some_iff.1 hat
    exact Option.map_eq_some_iff.2 ⟨s, statement?_mono hle hs, hclause⟩

end Piece

/-- The statement that the last call of a record stands for. -/
def Statement.decode? (calls : List Call) : Option Statement :=
  Piece.statement? (Piece.ofCalls calls) (calls.length - 1)

open Piece (ofCalls ofCall?)

/-- The handle is that of the last call, which stands for the piece. -/
structure Stands (piece : Piece) (calls : List Call) (h : Nat) : Prop where
  last : h + 1 = calls.length
  piece : Piece.at? (ofCalls calls) h = some piece

section Stands

variable {before after : List Call} {call : Call} {piece : Piece} {h : Nat} {e : Expr}
  {s : Statement} {v : Variable}

theorem stands_call (hpiece : ofCall? (ofCalls before) call = some piece) :
    Stands piece (before ++ [call]) before.length where
  last := by rw [List.length_append, List.length_singleton]
  piece := by
    have hlength : before.length = (ofCalls before).length := (Piece.length_ofCalls before).symm
    rw [Piece.at?, Piece.ofCalls_concat, hlength, List.getElem?_concat_length, hpiece]
    rfl

theorem Stands.object (hv : Stands (.object v) before h) (hle : before <+: after) :
    Piece.object? (ofCalls after) h = some v := by
  rw [Piece.object?, Piece.at?_mono hle hv.piece]

theorem Stands.expr (he : Stands (.expr e) before h) (hle : before <+: after) :
    Piece.expr? (ofCalls after) h = some e := by
  rw [Piece.expr?, Piece.at?_mono hle he.piece]

theorem Stands.statement (hs : Stands (.statement s) before h) (hle : before <+: after) :
    Piece.statement? (ofCalls after) h = some s := by
  rw [Piece.statement?, Piece.at?_mono hle hs.piece]

end Stands

/-! ### Computations -/

/-- After the calls made before, the computation makes calls, and unless one of them is for an
invalid node, its answer is as `post` says, in view of all calls made so far. -/
def Yields {α : Type} (before : List Call) (m : StateM (Array Call) α)
    (post : List Call → α → Prop) : Prop :=
  ∃ calls a, Records before m calls a ∧
    ((∀ call ∈ calls, call.isInvalid = false) → post (before ++ calls) a)

section Yields

variable {α β : Type} {before : List Call} {m : StateM (Array Call) α} {call : Call}
  {post : List Call → α → Prop} {post' : List Call → β → Prop}

theorem yields_pure {a : α} (ha : post before a) :
    Yields before (pure a : StateM (Array Call) α) post :=
  ⟨[], a, records_pure a, fun _ => by rwa [List.append_nil]⟩

theorem yields_record {post : List Call → Nat → Prop}
    (hpost : post (before ++ [call]) before.length) : Yields before (Backend.record call) post :=
  ⟨[call], before.length, records_record call, fun _ => hpost⟩

/-- Nothing is known of what an invalid node stands for. -/
theorem yields_invalid {post : List Call → Nat → Prop} (hinvalid : call.isInvalid = true) :
    Yields before (Backend.record call) post := by
  refine ⟨[call], before.length, records_record call, fun hvalid => ?_⟩
  have hcall := hvalid call (List.mem_singleton_self call)
  rw [hinvalid] at hcall
  contradiction

theorem yields_enterScope : Yields before Backend.trace.enterScope fun _ _ => True :=
  ⟨[.enterScope], (), records_enterScope, fun _ => trivial⟩

theorem yields_leaveScope : Yields before Backend.trace.leaveScope fun _ _ => True :=
  ⟨[.leaveScope], (), records_leaveScope, fun _ => trivial⟩

/-- Two computations in a row. The second one also makes its calls if one of the first was for an
invalid node, when nothing is known of its answer. -/
theorem Yields.bind {f : α → StateM (Array Call) β} (hm : Yields before m post)
    (hf : ∀ first a, Yields (before ++ first) (f a) fun calls b =>
      post (before ++ first) a → post' calls b) :
    Yields before (m >>= f) post' := by
  obtain ⟨first, a, hrecords, hpost⟩ := hm
  obtain ⟨second, b, hrecords', hpost'⟩ := hf first a
  refine ⟨first ++ second, b, hrecords.bind hrecords', fun hvalid => ?_⟩
  have hfirst := hpost fun call hcall => hvalid call (List.mem_append_left _ hcall)
  have hsecond := hpost' fun call hcall => hvalid call (List.mem_append_right _ hcall)
  rw [← List.append_assoc]
  exact hsecond hfirst

end Yields

/-! ### Expressions -/

theorem Reference.yields (r : Reference) (before : List Call) :
    Yields before (r.lower Backend.trace) (Stands (.expr (.reference r))) := by
  have hobject : Yields before (Backend.record (.object r.target)) (Stands (.object r.target)) :=
    yields_record (stands_call rfl)
  refine hobject.bind fun first v => yields_record fun hv => stands_call ?_
  simp [ofCall?, hv.object (List.prefix_refl _)]

namespace Expr

/-- The last call of an expression stands for it. -/
theorem yields (e : Expr) (before : List Call) :
    Yields before (e.lower Backend.trace) (Stands (.expr e)) := by
  induction e generalizing before with
  | invalid l => exact yields_invalid rfl
  | reference r => exact r.yields before
  | numeral value l => exact yields_record (stands_call rfl)
  | unary op e l ih =>
    rw [lower]
    cases accepts op e with
    | false => exact yields_invalid rfl
    | true =>
      refine (ih before).bind fun first h => yields_record fun he => stands_call ?_
      simp [ofCall?, he.expr (List.prefix_refl _)]
  | condition e l ih =>
    rw [lower]
    cases e.isOperand with
    | false => exact yields_invalid rfl
    | true =>
      refine (ih before).bind fun first h => yields_record fun he => stands_call ?_
      simp [ofCall?, he.expr (List.prefix_refl _)]
  | binary op a b l iha ihb =>
    rw [lower]
    cases a.isOperand && b.isOperand with
    | false => exact yields_invalid rfl
    | true =>
      refine (iha before).bind fun first h => (ihb _).bind fun second h' =>
        yields_record fun hb ha => stands_call ?_
      rw [ofCall?, ha.expr (List.prefix_append _ _), hb.expr (List.prefix_refl _)]
      rfl

end Expr

/-! ### Statements -/

namespace Statement

open Piece (scope? statements? clause?)

theorem yields_assign (target : Reference) (value : Expr) (l : Location) (before : List Call) :
    Yields before ((assign target value l).lower Backend.trace)
      (Stands (.statement (assign target value l))) := by
  rw [lower]
  cases value.isOperand with
  | false => exact yields_invalid rfl
  | true =>
    refine (target.yields before).bind fun first h => (value.yields _).bind fun second h' =>
      yields_record fun hvalue htarget => stands_call ?_
    rw [ofCall?, Piece.reference?, htarget.expr (List.prefix_append _ _),
      hvalue.expr (List.prefix_refl _)]
    rfl

theorem yields_step (direction : Direction) (target : Reference) (l : Location)
    (before : List Call) :
    Yields before ((step direction target l).lower Backend.trace)
      (Stands (.statement (step direction target l))) := by
  rw [lower]
  refine ((stepExpr direction target l).yields before).bind fun first h => ?_
  -- the call alone tells the direction
  cases direction with
  | up =>
    refine yields_record fun he => stands_call ?_
    rw [ofCall?, Piece.counted?, he.expr (List.prefix_refl _)]
    rfl
  | down =>
    refine yields_record fun he => stands_call ?_
    rw [ofCall?, Piece.counted?, he.expr (List.prefix_refl _)]
    rfl

theorem yields_expr (e : Expr) (l : Location) (before : List Call) :
    Yields before ((expr e l).lower Backend.trace) (Stands (.statement (expr e l))) := by
  rw [lower]
  cases e.isInvalid with
  | true => exact yields_invalid rfl
  | false =>
    refine (e.yields before).bind fun first h => yields_record fun he => stands_call ?_
    rw [ofCall?, he.expr (List.prefix_refl _)]
    rfl

theorem yields_compound {first second : Statement} (l : Location)
    (hfirst : ∀ before, Yields before (first.lower Backend.trace)
      (Stands (.statement first.detached)))
    (hsecond : ∀ before, Yields before (second.lower Backend.trace)
      (Stands (.statement second.detached))) (before : List Call) :
    Yields before ((compound first second l).lower Backend.trace)
      (Stands (.statement (compound first second l).detached)) := by
  rw [lower]
  cases first.isInvalid || second.isInvalid with
  | true => exact yields_invalid rfl
  | false =>
    refine (hfirst before).bind fun calls h => (hsecond _).bind fun calls' h' =>
      yields_record fun hs' hs => stands_call ?_
    rw [ofCall?, hs.statement (List.prefix_append _ _), hs'.statement (List.prefix_refl _)]
    rfl

theorem yields_branch (condition : Condition) {body : Scope Statement} (l : Location)
    (hbody : ∀ before, Yields before (lowerScope Backend.trace body)
      fun calls lowered => scope? (ofCalls calls) lowered = some (detachedScope body))
    (before : List Call) :
    Yields before ((branch condition body l).lower Backend.trace)
      (Stands (.statement (branch condition body l).detached)) := by
  rw [lower]
  refine yields_enterScope.bind fun _ _ => (hbody _).bind fun _ _ =>
    yields_leaveScope.bind fun _ _ => (condition.expr.yields _).bind fun _ _ =>
      yields_record fun hcondition _ hscope _ => stands_call ?_
  rw [ofCall?, Piece.condition?, hcondition.expr (List.prefix_refl _),
    Piece.scope?_mono (by simp [List.append_assoc]) hscope]
  rfl

theorem yields_loop {init condition increment : Option Statement} {body : Scope Statement}
    (l : Location)
    (hclause : ∀ clause ∈ [init, condition, increment], ∀ before,
      Yields before (lowerClause Backend.trace clause)
        fun calls i => clause? (ofCalls calls) i = some (detachedClause clause))
    (hbody : ∀ before, Yields before (lowerScope Backend.trace body)
      fun calls lowered => scope? (ofCalls calls) lowered = some (detachedScope body))
    (before : List Call) :
    Yields before ((loop init condition increment body l).lower Backend.trace)
      (Stands (.statement (loop init condition increment body l).detached)) := by
  rw [lower]
  refine yields_enterScope.bind fun _ _ => (hclause init (by simp) _).bind fun _ _ =>
    (hclause condition (by simp) _).bind fun _ _ => (hclause increment (by simp) _).bind fun _ _ =>
      (hbody _).bind fun _ _ => yields_leaveScope.bind fun _ _ =>
        yields_record fun _ hscope hk hc hi _ => stands_call ?_
  -- the clauses were lowered first, and their calls are still in the record
  rw [ofCall?, Piece.clause?_mono (by simp [List.append_assoc]) hi,
    Piece.clause?_mono (by simp [List.append_assoc]) hc,
    Piece.clause?_mono (by simp [List.append_assoc]) hk,
    Piece.scope?_mono (List.prefix_append _ _) hscope]
  rfl

mutual

/-- The last call of a statement stands for it, but for the parents of its scopes. -/
theorem yields : (s : Statement) → ∀ before, Yields before (s.lower Backend.trace)
    (Stands (.statement s.detached))
  | invalid _, _ => yields_invalid rfl
  | declare v, before => by
    have hobject : Yields before (Backend.record (.object v)) (Stands (.object v)) :=
      yields_record (stands_call rfl)
    refine hobject.bind fun first h => yields_record fun hv => stands_call ?_
    rw [ofCall?, hv.object (List.prefix_refl _)]
    rfl
  | assign target value l, before => yields_assign target value l before
  | step direction target l, before => yields_step direction target l before
  | expr e l, before => yields_expr e l before
  | compound first second l, before => yields_compound l first.yields second.yields before
  | branch condition body l, before => yields_branch condition l (yieldsIn body) before
  | loop init condition increment body l, before => by
    refine yields_loop l (fun clause hmem => ?_) (yieldsIn body) before
    simp only [List.mem_cons, List.not_mem_nil, or_false] at hmem
    rcases hmem with h | h | h
    · rw [h]
      exact yieldsOf init
    · rw [h]
      exact yieldsOf condition
    · rw [h]
      exact yieldsOf increment

/-- The handles of a scope stand for its statements. -/
theorem yieldsIn : (body : Scope Statement) → ∀ before,
    Yields before (lowerScope Backend.trace body)
      fun calls lowered => scope? (ofCalls calls) lowered = some (detachedScope body)
  | ⟨id, _, declared, statements⟩, before => by
    rw [lowerScope]
    refine (yieldsAll statements before).bind fun calls handles => yields_pure fun hss => ?_
    rw [scope?, hss]
    rfl

theorem yieldsAll : (ss : List Statement) → ∀ before,
    Yields before (lowerAll Backend.trace ss)
      fun calls handles => statements? (ofCalls calls) handles = some (detachedAll ss)
  | [], _ => yields_pure rfl
  | s :: rest, before => by
    rw [lowerAll]
    refine (s.yields before).bind fun calls h => (yieldsAll rest _).bind fun calls' handles =>
      yields_pure fun hrest hs => ?_
    rw [statements?, hs.statement (List.prefix_append _ _), hrest]
    rfl

theorem yieldsOf : (clause : Option Statement) → ∀ before,
    Yields before (lowerClause Backend.trace clause)
      fun calls i => clause? (ofCalls calls) i = some (detachedClause clause)
  | none, _ => yields_pure rfl
  | some s, before => by
    rw [lowerClause]
    refine (s.yields before).bind fun calls h => yields_pure fun hs => ?_
    rw [clause?, hs.statement (List.prefix_refl _)]
    rfl

end

/-- Read from its calls, a statement is what it was, but for the parents of its scopes. -/
theorem decode?_calls {s : Statement} (hvalid : ∀ call ∈ s.calls, call.isInvalid = false) :
    decode? s.calls = some s.detached := by
  obtain ⟨calls, h, hrecords, hstands⟩ := s.yields []
  have hcalls : s.calls = calls := by
    rw [Statement.calls]
    exact congrArg (·.2.toList) hrecords
  rw [hcalls] at hvalid ⊢
  have hlast := hstands hvalid
  rw [List.nil_append] at hlast
  rw [decode?, ← hlast.last]
  exact hlast.statement (List.prefix_refl _)

/-- If no node of a statement is lowered to an invalid one, the statement is rebuilt from its calls,
and another statement is lowered to the same calls just if both are the same but for the parents of
their scopes. -/
theorem lowering_decodes (s t : Statement) (hvalid : ∀ call ∈ s.calls, call.isInvalid = false) :
    decode? s.calls = some s.detached ∧ (t.calls = s.calls ↔ t.detached = s.detached) := by
  refine ⟨decode?_calls hvalid, fun hcalls => ?_, fun hdetached => ?_⟩
  · have ht : decode? t.calls = some t.detached := decode?_calls (by rwa [hcalls])
    rw [hcalls, decode?_calls hvalid] at ht
    exact (Option.some.inj ht).symm
  · rw [calls, calls, ← lower_detached Backend.trace t, hdetached, lower_detached]

/-- A loop with a first clause only, and a branch in its body: whichever scopes are said to be
around its own, it is lowered to the same calls, from which it is read again. With its first clause
in place of its condition, it is not. -/
theorem lowering_decodes_loop :
    let l : Location := .startOf ⟨"main.rin"⟩
    let x : Variable := ⟨"x", l⟩
    let start := compound (declare x) (assign ⟨x, l⟩ (.numeral ⟨1, 256⟩ l) l) l
    let stepping (parent? : Option Nat) : Statement :=
      branch ⟨.reference ⟨x, l⟩, l⟩ ⟨2, parent?, [], [step .up ⟨x, l⟩ l]⟩ l
    let counting (parent? : Option Nat) : Statement :=
      loop (some start) none none ⟨1, parent?, [x], [stepping parent?]⟩ l
    let waiting : Statement := loop none (some start) none ⟨1, none, [x], [stepping none]⟩ l
    (∀ call ∈ (counting (some 0)).calls, call.isInvalid = false) ∧
      decode? (counting (some 0)).calls = some (counting none) ∧
      (counting (some 3)).calls = (counting (some 0)).calls ∧
      waiting.calls ≠ (counting (some 0)).calls := by
  intro l x start stepping counting waiting
  have hvalid : ∀ call ∈ (counting (some 0)).calls, call.isInvalid = false := by decide
  refine ⟨hvalid, (lowering_decodes _ waiting hvalid).1, ?_, ?_⟩
  · exact (lowering_decodes _ (counting (some 3)) hvalid).2.2 rfl
  · intro hcalls
    have hsame := (lowering_decodes _ waiting hvalid).2.1 hcalls
    simp [waiting, counting, detached, detachedClause] at hsame

end Statement

end FloatLang
