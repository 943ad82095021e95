import FloatLang.Proofs.Scope.Runs

/-!
# Leaving a scope restores the chain

Between the opening of a scope and its end, operations in pairs may open and close others inside of it.
As long as none reaches for the outermost scope, all of them stay inside: when the scope is left, the
scopes around it are what they were, and but for the number of the next scope nothing is different.
Names that were declared inside are free again, and those that were refused still are. The scope that is
handed back has what its own operations made of it, whatever happened in the scopes inside.

## Main definitions

* `ScopeChain.Operation.Balanced` — scopes are opened and closed in pairs
* `ScopeChain.Operation.own` — the operations done while a scope is the current one
* `ScopeChain.Operation.declares`, `ScopeChain.Operation.writes` — what they make of it
* `ScopeChain.Inside` — a chain with more scopes open than another
* `ScopeChain.Alike` — two chains with the same contents, numbers apart
* `ScopeChain.answers` — what a chain tells about a name

## Main results

* `ScopeChain.Inside.perform`, `ScopeChain.Inside.run` — operations inside stay inside
* `ScopeChain.Alike.perform`, `ScopeChain.Alike.run` — chains that are alike stay alike
* `ScopeChain.leave_restores` — leaving restores the chain
-/

namespace FloatLang.ScopeChain

namespace Operation

/-- Whether an operation opens a scope. -/
def isEnter : Operation → Bool
  | .enter => true
  | _ => false

/-- Whether an operation closes a scope. -/
def isLeave : Operation → Bool
  | .leave => true
  | _ => false

/-- Whether an operation reaches for the outermost scope. -/
def isOutermost : Operation → Bool
  | .undefine .outermost _ | .push .outermost _ | .pop .outermost | .take .outermost => true
  | _ => false

/-- Scopes are opened and closed in pairs: never are more closed than were opened, and at the end all
are. -/
structure Balanced (ops : List Operation) : Prop where
  within : ∀ front, front <+: ops → front.countP isLeave ≤ front.countP isEnter
  closed : ops.countP isLeave = ops.countP isEnter

/-- How many scopes are open inside of one after an operation, if it was `k` before. -/
def depthAfter (k : Nat) : Operation → Nat
  | .enter => k + 1
  | .leave => k - 1
  | _ => k

/-- The operations that are done while a scope is the current one, when `k` others are open inside of
it at first. -/
def own : Nat → List Operation → List Operation
  | _, [] => []
  | 0, op :: ops => op :: own (op.depthAfter 0) ops
  | k + 1, op :: ops => own (op.depthAfter (k + 1)) ops

/-- The variables of the current scope after an operation; the names that are known around it can not
be declared in it. -/
def declares (known : String → Bool) (vs : List Variable) : Operation → List Variable
  | .define x l => if known x || vs.any (·.name == x) then vs else vs ++ [⟨x, l⟩]
  | .undefine _ x => vs.eraseP (·.name == x)
  | _ => vs

/-- The statements of the current scope after an operation. -/
def writes (ss : List Statement) : Operation → List Statement
  | .push _ s => ss ++ [s]
  | .pop _ => ss.dropLast
  | .take _ => []
  | _ => ss

/-- The current scope after an operation. -/
def change (known : String → Bool) (s : Scope Statement) (op : Operation) : Scope Statement :=
  { s with declared := op.declares known s.declared, statements := op.writes s.statements }

theorem change_define (known : String → Bool) (s : Scope Statement) (x : String) (l : Location) :
    change known s (.define x l) =
      if known x || s.declared.any (·.name == x) then s else s.declare ⟨x, l⟩ := by
  rw [change, declares]
  split <;> rfl

end Operation

open Operation

/-! ### Operations inside of a scope -/

/-- The chain `d` is `c` with a scope `s` open in it, and `k` more inside of that. -/
structure Inside (c : ScopeChain) (s : Scope Statement) (k : Nat) (d : ScopeChain) : Prop where
  inner : ∃ above : List (Scope Statement), above.length = k ∧ d.inner = above ++ s :: c.inner
  outermost : d.outermost = c.outermost

variable {c c' d d' : ScopeChain} {s : Scope Statement} {k : Nat} {op : Operation}
  {ops : List Operation} {f : Scope Statement → Scope Statement} {x : String}

theorem inside_enter (c : ScopeChain) :
    c.Inside { id := c.nextId, parent? := some c.current.id } 0 c.enter :=
  ⟨⟨[], rfl, rfl⟩, rfl⟩

namespace Inside

/-- The innermost scope is changed, which is the scope itself if none is open in it. -/
theorem modifyCurrent (h : c.Inside s k d) :
    c.Inside (if k = 0 then f s else s) k (d.modifyCurrent f) := by
  obtain ⟨⟨above, rfl, hinner⟩, houtermost⟩ := h
  cases above with
  | nil =>
    simp only [ScopeChain.modifyCurrent, hinner]
    exact ⟨⟨[], rfl, rfl⟩, houtermost⟩
  | cons t above =>
    simp only [ScopeChain.modifyCurrent, hinner]
    exact ⟨⟨f t :: above, rfl, rfl⟩, houtermost⟩

/-- A name refers to a variable of the scope itself, or else to what it referred to before. -/
theorem resolve? (h : c.Inside s 0 d) (x : String) :
    d.resolve? x = (s.lookup? x).or (c.resolve? x) := by
  obtain ⟨⟨above, habove, hinner⟩, houtermost⟩ := h
  obtain rfl := List.eq_nil_of_length_eq_zero habove
  rw [ScopeChain.resolve?, scopes, hinner, houtermost]
  cases hlookup : s.lookup? x <;> simp [ScopeChain.resolve?, scopes, hlookup]

theorem isDefined (h : c.Inside s 0 d) (x : String) :
    d.isDefined x = (c.isDefined x || s.declared.any (·.name == x)) := by
  rw [ScopeChain.isDefined, h.resolve?, Option.isSome_or, Bool.or_comm, Scope.lookup?,
    List.isSome_find?]
  rfl

/-- A declaration is made in the innermost scope, unless the name is known. -/
theorem define (h : c.Inside s k d) (x : String) (l : Location) :
    ∃ d', d.perform? (.define x l) = some d' ∧ d'.nextId = d.nextId ∧
      c.Inside (if k = 0 then change c.isDefined s (.define x l) else s) k d' := by
  rw [perform?, ScopeChain.define]
  cases hresolve : d.resolve? x with
  | none =>
    refine ⟨_, rfl, nextId_modifyAt d .current _, ?_⟩
    have hmodified := h.modifyCurrent (f := (·.declare ⟨x, l⟩))
    split
    next hk =>
      subst hk
      rw [change_define, ← h.isDefined, ScopeChain.isDefined, hresolve]
      exact hmodified
    next hk => rwa [if_neg hk] at hmodified
  | some v =>
    refine ⟨d, rfl, rfl, ?_⟩
    split
    next hk =>
      subst hk
      rw [change_define, ← h.isDefined, ScopeChain.isDefined, hresolve]
      exact h
    next => exact h

theorem enter (h : c.Inside s k d) : c.Inside s (k + 1) d.enter := by
  obtain ⟨⟨above, rfl, hinner⟩, houtermost⟩ := h
  refine ⟨⟨{ id := d.nextId, parent? := some d.current.id } :: above, rfl, ?_⟩, houtermost⟩
  rw [ScopeChain.enter, hinner]
  rfl

/-- A scope that is open inside can be left. -/
theorem leave (h : c.Inside s (k + 1) d) :
    ∃ d', d.perform? .leave = some d' ∧ d'.nextId = d.nextId ∧ c.Inside s k d' := by
  obtain ⟨⟨above, habove, hinner⟩, houtermost⟩ := h
  cases above with
  | nil => contradiction
  | cons t above =>
    refine ⟨{ d with inner := above ++ s :: c.inner }, ?_, rfl,
      ⟨above, Nat.succ.inj habove, rfl⟩, houtermost⟩
    rw [perform?, leave?, hinner]
    rfl

/-- The scope itself is left with the chain as it was, but for the next number. -/
theorem leave?_eq (h : c.Inside s 0 d) : d.leave? = some (s, { c with nextId := d.nextId }) := by
  obtain ⟨⟨above, habove, hinner⟩, houtermost⟩ := h
  obtain rfl := List.eq_nil_of_length_eq_zero habove
  rw [leave?, hinner, ← houtermost]
  rfl

/-- An operation inside of a scope stays inside. -/
theorem perform (h : c.Inside s k d) (hplace : op.isOutermost = false)
    (hleave : op.isLeave = true → 0 < k) :
    ∃ d', d.perform? op = some d' ∧ d'.nextId = d.nextId + [op].countP isEnter ∧
      c.Inside (if k = 0 then change c.isDefined s op else s) (op.depthAfter k) d' := by
  have hmodify (f : Scope Statement → Scope Statement) :
      (d.modifyCurrent f).nextId = d.nextId + 0 ∧
        c.Inside (if k = 0 then f s else s) k (d.modifyCurrent f) :=
    ⟨nextId_modifyAt d .current f, h.modifyCurrent⟩
  cases op with
  | enter =>
    refine ⟨d.enter, rfl, rfl, ?_⟩
    have hsame : (if k = 0 then change c.isDefined s .enter else s) = s := by split <;> rfl
    rw [hsame]
    exact h.enter
  | leave =>
    obtain ⟨k, rfl⟩ := Nat.exists_eq_add_of_lt (hleave rfl)
    rw [Nat.zero_add] at h ⊢
    exact h.leave
  | define x l => exact h.define x l
  | undefine place _ | push place _ | pop place | take place =>
    cases place with
    | current => exact ⟨_, rfl, hmodify _⟩
    | outermost => contradiction

/-- So does a run of operations, as long as the scope itself is not left. -/
theorem run (h : c.Inside s k d) (hplace : ∀ op ∈ ops, op.isOutermost = false)
    (hwithin : ∀ front, front <+: ops → front.countP isLeave ≤ k + front.countP isEnter) :
    ∃ d' k', run? ops d = some d' ∧ k' + ops.countP isLeave = k + ops.countP isEnter ∧
      d'.nextId = d.nextId + ops.countP isEnter ∧
      c.Inside ((own k ops).foldl (change c.isDefined) s) k' d' := by
  induction ops generalizing s k d with
  | nil => exact ⟨d, k, rfl, rfl, rfl, by cases k <;> exact h⟩
  | cons op ops ih =>
    obtain ⟨hop, hops⟩ := List.forall_mem_cons.1 hplace
    have hdepth : op.depthAfter k + [op].countP isLeave = k + [op].countP isEnter := by
      have hfirst := hwithin [op] ⟨ops, rfl⟩
      cases op with
      | leave =>
        have hpos : 1 ≤ k := hfirst
        exact Nat.sub_add_cancel hpos
      | _ => rfl
    have hleave : op.isLeave = true → 0 < k := by
      intro hclose
      have hfirst := hwithin [op] ⟨ops, rfl⟩
      cases op <;> first | contradiction | exact hfirst
    obtain ⟨d₁, hperform, hnext, hinside⟩ := h.perform hop hleave
    obtain ⟨d', k', hrun, hcount, hnextId, hleft⟩ := ih hinside hops fun front hfront => by
      have hmore := hwithin (op :: front) (List.cons_prefix_cons.2 ⟨rfl, hfront⟩)
      rw [← List.singleton_append, List.countP_append, List.countP_append] at hmore
      omega
    refine ⟨d', k', ?_, ?_, ?_, ?_⟩
    · rw [run?, hperform]
      exact hrun
    · rw [← List.singleton_append, List.countP_append, List.countP_append]
      omega
    · rw [← List.singleton_append, List.countP_append, hnextId, hnext, Nat.add_assoc]
    · cases k <;> exact hleft

end Inside

/-! ### Chains that differ in numbers only -/

/-- What a scope has, whatever its number. -/
def content (s : Scope Statement) : List Variable × List Statement := (s.declared, s.statements)

/-- The chains have scopes with the same contents. -/
structure Alike (c c' : ScopeChain) : Prop where
  inner : c'.inner.map content = c.inner.map content
  outermost : content c'.outermost = content c.outermost

/-- What a chain tells about a name: the variable in the current scope and the one that it refers to,
whether there is any, and what comes of a declaration. -/
def answers (x : String) (l : Location) (c : ScopeChain) :
    Option Variable × Option Variable × Bool × Except Redefinition Variable :=
  (c.lookup? x, c.resolve? x, c.isDefined x, (c.define x l).map Prod.fst)

namespace Alike

theorem current (h : c.Alike c') : content c'.current = content c.current := by
  obtain ⟨inner, outermost, nextId⟩ := c
  obtain ⟨inner', outermost', nextId'⟩ := c'
  obtain ⟨hinner, houtermost⟩ := h
  cases inner <;> cases inner' <;> simp_all [ScopeChain.current]

theorem resolve? (h : c.Alike c') : c'.resolve? x = c.resolve? x := by
  have hscopes : c'.scopes.map content = c.scopes.map content := by
    rw [scopes, scopes, List.map_append, List.map_append, h.inner, List.map_singleton,
      List.map_singleton, h.outermost]
  have hlookup (d : ScopeChain) :
      d.resolve? x = (d.scopes.map content).findSome? (·.1.find? (·.name == x)) := by
    rw [List.findSome?_map]
    rfl
  rw [hlookup, hlookup, hscopes]

theorem answers (h : c.Alike c') (x : String) (l : Location) :
    c'.answers x l = c.answers x l := by
  have hlookup : c'.lookup? x = c.lookup? x :=
    congrArg (·.1.find? (·.name == x)) h.current
  rw [ScopeChain.answers, ScopeChain.answers, hlookup, isDefined, isDefined, define, define,
    h.resolve?]
  cases c.resolve? x <;> rfl

theorem modifyAt (h : c.Alike c') (place : Place)
    (hf : ∀ s s' : Scope Statement, content s' = content s → content (f s') = content (f s)) :
    (c.modifyAt place f).Alike (c'.modifyAt place f) := by
  obtain ⟨inner, outermost, nextId⟩ := c
  obtain ⟨inner', outermost', nextId'⟩ := c'
  obtain ⟨hinner, houtermost⟩ := h
  cases place with
  | outermost => exact ⟨hinner, hf _ _ houtermost⟩
  | current =>
    cases inner with
    | nil =>
      obtain rfl := List.map_eq_nil_iff.1 hinner
      exact ⟨rfl, hf _ _ houtermost⟩
    | cons s inner =>
      obtain ⟨s', rest', rfl, hs, hrest⟩ := List.map_eq_cons_iff.1 hinner
      exact ⟨List.cons_eq_cons.2 ⟨hf _ _ hs, hrest⟩, houtermost⟩

/-- An operation can be done to both or to none, and they stay alike. -/
theorem perform (h : c.Alike c') (op : Operation) :
    Option.Rel Alike (c.perform? op) (c'.perform? op) := by
  have hdeclared {s s' : Scope Statement} (hs : content s' = content s) :
      s'.declared = s.declared := congrArg Prod.fst hs
  have hstatements {s s' : Scope Statement} (hs : content s' = content s) :
      s'.statements = s.statements := congrArg Prod.snd hs
  -- what is added to a scope and removed from it does not depend on its number
  have hdeclare (v : Variable) := h.modifyAt .current (f := (·.declare v))
    fun s s' hs => by simp [content, Scope.declare, hdeclared hs, hstatements hs]
  have hundefine (place : Place) (x : String) := h.modifyAt place (f := fun s => (s.undefine x).2)
    fun s s' hs => by simp [content, Scope.undefine, hdeclared hs, hstatements hs]
  have hpush (place : Place) (t : Statement) := h.modifyAt place (f := (·.push t))
    fun s s' hs => by simp [content, Scope.push, hdeclared hs, hstatements hs]
  have hpop (place : Place) := h.modifyAt place (f := fun s => s.pop.2)
    fun s s' hs => by simp [content, Scope.pop, hdeclared hs, hstatements hs]
  have htake (place : Place) := h.modifyAt place (f := fun s => s.take.2)
    fun s s' hs => by simp [content, Scope.take, hdeclared hs]
  cases op with
  | enter => exact .some ⟨congrArg (content _ :: ·) h.inner, h.outermost⟩
  | leave =>
    obtain ⟨inner, outermost, nextId⟩ := c
    obtain ⟨inner', outermost', nextId'⟩ := c'
    obtain ⟨hinner, houtermost⟩ := h
    cases inner with
    | nil =>
      obtain rfl := List.map_eq_nil_iff.1 hinner
      exact .none
    | cons s inner =>
      obtain ⟨s', rest', rfl, hs, hrest⟩ := List.map_eq_cons_iff.1 hinner
      exact .some ⟨hrest, houtermost⟩
  | define x l =>
    rw [perform?, perform?, define, define, h.resolve?]
    cases c.resolve? x with
    | some v => exact .some h
    | none =>
      exact .some (hdeclare ⟨x, l⟩)
  | undefine place x =>
    cases place with
    | current => exact .some (hundefine .current x)
    | outermost => exact .some (hundefine .outermost x)
  | push place t =>
    cases place with
    | current => exact .some (hpush .current t)
    | outermost => exact .some (hpush .outermost t)
  | pop place =>
    cases place with
    | current => exact .some (hpop .current)
    | outermost => exact .some (hpop .outermost)
  | take place =>
    cases place with
    | current => exact .some (htake .current)
    | outermost => exact .some (htake .outermost)

theorem run (h : c.Alike c') (ops : List Operation) :
    Option.Rel Alike (run? ops c) (run? ops c') := by
  induction ops generalizing c c' with
  | nil => exact .some h
  | cons op ops ih =>
    have hop := h.perform op
    rw [run?, run?]
    generalize c.perform? op = r, c'.perform? op = r' at hop
    cases hop with
    | none => exact .none
    | some hnext => exact ih hnext

/-- After any operations, they give the same answers. -/
theorem answers_run (h : c.Alike c') (ops : List Operation) (x : String) (l : Location) :
    (run? ops c').map (ScopeChain.answers x l) = (run? ops c).map (ScopeChain.answers x l) := by
  have hrun := h.run ops
  generalize run? ops c = r, run? ops c' = r' at hrun
  cases hrun with
  | none => rfl
  | some hleft => exact congrArg some (hleft.answers x l)

end Alike

/-! ### Leaving -/

theorem foldl_change (known : String → Bool) (s : Scope Statement) (ops : List Operation) :
    ops.foldl (change known) s =
      { s with
        declared := ops.foldl (declares known) s.declared
        statements := ops.foldl writes s.statements } := by
  induction ops generalizing s with
  | nil => rfl
  | cons op ops ih => exact ih (change known s op)

/-- A scope can be left after any operations inside of it that open and close scopes in pairs and do
not reach for the outermost one. Then the chain is as it was before the scope was entered, except that
as many numbers have been given out as scopes were opened, so that whatever is done later, names are
found and declared as they would have been. The scope that is handed back has what its own operations
have added to it: it is a child of the scope that is current again. -/
theorem leave_restores (c : ScopeChain) {inside : List Operation}
    (hplace : ∀ op ∈ inside, op.isOutermost = false) (hbalanced : Operation.Balanced inside) :
    ∃ s c', (run? (.enter :: inside) c).bind leave? = some (s, c') ∧
      c' = { c with nextId := c.nextId + 1 + inside.countP isEnter } ∧
      s = { id := c.nextId
            parent? := some c.current.id
            declared := (own 0 inside).foldl (declares c.isDefined) []
            statements := (own 0 inside).foldl writes [] } ∧
      ∀ (later : List Operation) (x : String) (l : Location),
        (run? later c').map (answers x l) = (run? later c).map (answers x l) := by
  obtain ⟨d, k, hrun, hcount, hnext, hinside⟩ := (inside_enter c).run hplace fun front hfront => by
    rw [Nat.zero_add]
    exact hbalanced.within front hfront
  obtain rfl : k = 0 := by
    have hclosed := hbalanced.closed
    omega
  refine ⟨_, _, ?_, rfl, rfl, ?_⟩
  · rw [run?, perform?, Option.bind_some, hrun, Option.bind_some, hinside.leave?_eq, hnext,
      foldl_change]
    rfl
  · exact Alike.answers_run ⟨rfl, rfl⟩

/-- Inside, a name from outside is refused, one of two is removed, and a third is declared in a scope
that is left, so that it is free when it is declared once more. -/
theorem leave_restores_of_nested :
    let l : Location := .startOf ⟨"main.rin"⟩
    let c : ScopeChain := { outermost := { id := 0, parent? := none, declared := [⟨"x", l⟩] } }
    let inside : List Operation :=
      [.define "x" l, .define "y" l, .enter, .define "z" l, .push .current (.invalid l), .leave,
        .define "z" l, .undefine .current "y", .push .current (.declare ⟨"z", l⟩)]
    (∀ op ∈ inside, op.isOutermost = false) ∧ Operation.Balanced inside ∧
      ∃ s c', (run? (.enter :: inside) c).bind leave? = some (s, c') ∧
        s.declared = [⟨"z", l⟩] ∧ s.statements = [.declare ⟨"z", l⟩] ∧
        c'.isDefined "z" = false ∧ c'.nextId = 3 := by
  intro l c inside
  have hplace : ∀ op ∈ inside, op.isOutermost = false := by decide
  have hbalanced : Operation.Balanced inside := by
    refine ⟨fun front hfront => ?_, rfl⟩
    have hlength : front.length < 10 := Nat.lt_succ_of_le hfront.length_le
    rw [List.prefix_iff_eq_take.1 hfront]
    generalize front.length = n at hlength
    revert n
    decide
  obtain ⟨s, c', hleft, rfl, rfl, -⟩ := leave_restores c hplace hbalanced
  exact ⟨hplace, hbalanced, _, _, hleft, rfl, rfl, rfl, rfl⟩

end FloatLang.ScopeChain
