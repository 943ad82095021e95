import FloatLang.Proofs.Tree.Blocks

/-!
# Scopes have what is declared in them

The variables of a scope are those that its statements declare, in order, with that of the first
clause in front if it is the scope of a loop. No name is declared twice where it can be seen. Both
hold of every scope that is left in a tree, whatever errors there were.

## Main definitions

* `Scope.nested` — the scopes of a tree, each with the first clause of the loop it belongs to
* `Scope.Agrees` — a scope has exactly the variables that are declared in it

## Main results

* `MadeAll.nodup` — names in sight are different
* `MadeAll.agreesAll` — scopes agree with their statements wherever they are nested
* `Parser.tables_of_statements` — every scope has exactly the variables that are declared in it
-/

namespace FloatLang

namespace Statement

/-- The scopes nested in a statement, each with the first clause of the loop it belongs to. -/
def nested (s : Statement) : List (Option Statement × Scope Statement) := s.parts.filterMap owned?

/-- The scopes nested in statements in a row. -/
def nestedAll (ss : List Statement) : List (Option Statement × Scope Statement) :=
  (partsAll ss).filterMap owned?

theorem nestedAll_cons (s : Statement) (ss : List Statement) :
    nestedAll (s :: ss) = s.nested ++ nestedAll ss := List.filterMap_append

theorem nestedAll_append (ss ss' : List Statement) :
    nestedAll (ss ++ ss') = nestedAll ss ++ nestedAll ss' := by
  induction ss with
  | nil => rfl
  | cons s ss ih => rw [List.cons_append, nestedAll_cons, nestedAll_cons, ih, List.append_assoc]

theorem nested_branch (condition : Condition) (body : Scope Statement) (l : Location) :
    (branch condition body l).nested = (none, body) :: nestedAll body.statements := by
  rw [nested, parts, partsIn_eq]
  rfl

/-- Only the first clause of a loop and its body have scopes nested in them. -/
theorem nested_loop {init condition increment : Option Statement} {body : Scope Statement}
    {l : Location} (hcondition : ∀ s ∈ condition, s.nested = [])
    (hincrement : ∀ s ∈ increment, s.nested = []) :
    (loop init condition increment body l).nested =
      (init, body) :: (nestedAll init.toList ++ nestedAll body.statements) := by
  have hclause {clause : Option Statement} (h : ∀ s ∈ clause, s.nested = []) :
      nestedAll clause.toList = [] := by
    cases clause with
    | none => rfl
    | some s => rw [Option.toList_some, nestedAll_cons, h s rfl]; rfl
  have hconditions := hclause hcondition
  have hincrements := hclause hincrement
  unfold nestedAll at *
  rw [nested, parts, partsOf_eq, partsOf_eq, partsOf_eq, partsIn_eq, List.filterMap_cons, owned?,
    List.filterMap_append, List.filterMap_append, List.filterMap_append, hconditions, hincrements,
    List.append_nil, List.append_nil]

end Statement

/-- The scopes of a tree, from the outermost one on, each with the first clause of the loop it
belongs to. -/
def Scope.nested (root : Scope Statement) : List (Option Statement × Scope Statement) :=
  (none, root) :: Statement.nestedAll root.statements

/-- The scope has exactly the variables that are declared in it, in order, and no two of a name;
`init` is the first clause of the loop it belongs to. -/
structure Scope.Agrees (init : Option Statement) (scope : Scope Statement) : Prop where
  declared : scope.declared = (init.toList ++ scope.statements).flatMap Statement.declared
  names : (scope.declared.map Variable.name).Nodup

variable {source : Source} {xs : List Variable} {i j : Nat} {s : Statement} {v : Variable}

/-! ### Names in sight -/

theorem DeclaredIn.nodup (h : DeclaredIn source xs i j v) (hxs : (xs.map Variable.name).Nodup) :
    ((xs ++ [v]).map Variable.name).Nodup := by
  rw [List.map_append, List.map_singleton, List.nodup_append]
  refine ⟨hxs, List.pairwise_singleton _ _, ?_⟩
  intro x hx y hy
  obtain ⟨u, hu, rfl⟩ := List.mem_map.1 hx
  rw [List.mem_singleton.1 hy]
  exact h.fresh u hu

theorem Made.nodup (h : Made source xs i j s) (hxs : (xs.map Variable.name).Nodup) :
    ((xs ++ s.declared).map Variable.name).Nodup := by
  rcases h.declared_cases with hnone | ⟨v, hone, hv⟩
  · rwa [hnone, List.append_nil]
  · rw [hone]
    exact hv.nodup hxs

/-- The names of the variables in sight are different after statements if they were before. -/
theorem MadeAll.nodup {ss : List Statement} (h : MadeAll source xs i j ss)
    (hxs : (xs.map Variable.name).Nodup) :
    ((xs ++ ss.flatMap Statement.declared).map Variable.name).Nodup := by
  induction ss generalizing xs i with
  | nil => rwa [List.flatMap_nil, List.append_nil]
  | cons s ss ih =>
    cases h with
    | cons _ hfirst hrest =>
      have hnodup := ih hrest (hfirst.nodup hxs)
      rwa [List.append_assoc, ← List.flatMap_cons] at hnodup

/-! ### Nested scopes -/

theorem ConditionIn.nested (h : ConditionIn source xs i j s) : s.nested = [] := by
  cases h
  rfl

theorem StepIn.nested (h : StepIn source xs i j s) : s.nested = [] := by
  cases h
  rfl

/-- What is declared in a scope has different names, as it comes after what was in sight. -/
theorem agrees_of_nodup {init : Option Statement} {scope : Scope Statement}
    (hdeclared : scope.declared = (init.toList ++ scope.statements).flatMap Statement.declared)
    (hnodup : ((xs ++ scope.declared).map Variable.name).Nodup) : scope.Agrees init where
  declared := hdeclared
  names := by
    rw [List.map_append] at hnodup
    exact (List.nodup_append.1 hnodup).2.1

mutual

/-- A scope agrees with its statements wherever it is nested in a statement made of tokens. -/
theorem Made.agrees {xs : List Variable} {i j : Nat} {s : Statement} {init : Option Statement}
    {scope : Scope Statement} :
    Made source xs i j s → (xs.map Variable.name).Nodup → (init, scope) ∈ s.nested →
      scope.Agrees init
  | .declare _, _, h => absurd h List.not_mem_nil
  | .assign _ _, _, h => absurd h List.not_mem_nil
  | .step _, _, h => absurd h List.not_mem_nil
  | .branch _ htable hbody, hxs, h => by
    rw [Statement.nested_branch, List.mem_cons] at h
    rcases h with hown | hinner
    · obtain ⟨rfl, rfl⟩ := Prod.mk.inj hown
      have hnodup := hbody.nodup hxs
      rw [← htable] at hnodup
      exact agrees_of_nodup htable hnodup
    · exact hbody.agreesAll hxs hinner
  | .loop hinit _ hsight _ hcondition _ hincrement htable hbody, hxs, h => by
    have hys := hinit.nodup hxs
    rw [← hsight] at hys
    rw [Statement.nested_loop (fun s hs => (hcondition s hs).nested) fun s hs =>
      (hincrement s hs).nested, List.mem_cons, List.mem_append] at h
    rcases h with hown | hinner | hinner
    · obtain ⟨rfl, rfl⟩ := Prod.mk.inj hown
      have hnodup := hbody.nodup hys
      rw [hsight, List.append_assoc, ← List.flatMap_append, ← htable] at hnodup
      exact agrees_of_nodup htable hnodup
    · exact hinit.agreesAll hxs hinner
    · exact hbody.agreesAll hys hinner
  | .define _ _, _, h => absurd h List.not_mem_nil
  | .undefined _, _, h => absurd h List.not_mem_nil

theorem MadeAll.agreesAll {xs : List Variable} {i j : Nat} {ss : List Statement}
    {init : Option Statement} {scope : Scope Statement} :
    MadeAll source xs i j ss → (xs.map Variable.name).Nodup →
      (init, scope) ∈ Statement.nestedAll ss → scope.Agrees init
  | .nil _, _, h => absurd h List.not_mem_nil
  | .cons _ hfirst hrest, hxs, h => by
    rw [Statement.nestedAll_cons, List.mem_append] at h
    rcases h with h | h
    · exact hfirst.agrees hxs h
    · exact hrest.agreesAll (hfirst.nodup hxs) h

end

namespace Parser

/-- Every scope of a program has exactly the variables that are declared in it, in order, and no
two of a name. A program is read whatever its source is, and the scopes that are left are those of
the statements that are left. -/
theorem tables_of_statements (file : Path) (bytes : ByteArray) :
    ∃ p, (ofSource (.ofBytes file bytes)).program = .ok p ∧
      ∀ init scope, (init, scope) ∈ p.scopes.outermost.nested →
        scope.declared = (init.toList ++ scope.statements).flatMap Statement.declared ∧
          (scope.declared.map Variable.name).Nodup := by
  obtain ⟨p, j, hp, htable, hmade, -⟩ := program_made (.ofBytes file bytes)
  refine ⟨p, hp, fun init scope hscope => ?_⟩
  have hagrees : scope.Agrees init := by
    rcases List.mem_cons.1 hscope with hroot | hinner
    · obtain ⟨rfl, rfl⟩ := Prod.mk.inj hroot
      have hnodup := hmade.nodup List.nodup_nil
      rw [← htable] at hnodup
      exact agrees_of_nodup htable hnodup
    · exact hmade.agreesAll List.nodup_nil hinner
  exact ⟨hagrees.declared, hagrees.names⟩

/-- Nothing is left of a loop whose header failed, and the next loop declares the name again. -/
theorem tables_of_abandoned_loop :
    let source := "for float i = 0; i \x7b \x7d\nfor float i = 1; ; \x7b float x \x7d"
    ∃ p init scope, (ofSource (.ofBytes ⟨"main.rin"⟩ source.toUTF8)).program = .ok p ∧
      (init, scope) ∈ p.scopes.outermost.nested ∧ scope.declared.map Variable.name = ["i", "x"] ∧
        scope.declared = (init.toList ++ scope.statements).flatMap Statement.declared := by
  intro source
  obtain ⟨p, hp, htables⟩ := tables_of_statements ⟨"main.rin"⟩ source.toUTF8
  have hnested : ((ofSource (.ofBytes ⟨"main.rin"⟩ source.toUTF8)).program.toOption.map fun p =>
      p.scopes.outermost.nested.map fun x => x.2.declared.map Variable.name) =
        some [[], ["i", "x"]] := by
    decide +kernel
  rw [hp] at hnested
  have hlist : p.scopes.outermost.nested.map (fun x => x.2.declared.map Variable.name) =
      [[], ["i", "x"]] := Option.some.inj hnested
  have hmem : ["i", "x"] ∈ p.scopes.outermost.nested.map fun x => x.2.declared.map Variable.name := by
    simp [hlist]
  obtain ⟨⟨init, scope⟩, hscope, hnames⟩ := List.mem_map.1 hmem
  exact ⟨p, init, scope, hp, hscope, hnames, (htables init scope hscope).1⟩

end Parser

end FloatLang
