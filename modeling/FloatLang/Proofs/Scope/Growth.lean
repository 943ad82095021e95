import FloatLang.ScopeChain

/-!
# Growing scopes

Reading statements only adds to the current scope: variables, statements, and numbers that were
given to scopes opened and closed in between. What the current scope had before stays, and so do
the scopes around it.

## Main definitions

* `ScopeChain.grow` — the chain with more in its current scope
* `ScopeChain.links` — how the open scopes are numbered and nested
* `ScopeChain.Knows` — the names that refer to a variable

## Main results

* `ScopeChain.grow_grow` — growing twice is growing once
* `ScopeChain.define_of_none`, `ScopeChain.push_eq` — a declaration and a statement make a scope grow
* `ScopeChain.leave?_enter_grow` — a scope that was entered is handed back with what was added
* `ScopeChain.pop_grow` — the statement that was added last is taken back
* `ScopeChain.Knows.grow` — the variables that were added are known too
-/

namespace FloatLang.ScopeChain

variable (c : ScopeChain)

/-- The chain with variables and statements added to the current scope, and with another number
for the next scope. -/
def grow (vs : List Variable) (ss : List Statement) (nextId : Nat) : ScopeChain :=
  { c.modifyCurrent fun s =>
      { s with declared := s.declared ++ vs, statements := s.statements ++ ss } with nextId }

/-- The numbers of the open scopes and of their parents, the innermost first. -/
def links : List (Nat × Option Nat) := c.scopes.map fun s => (s.id, s.parent?)

theorem grow_nil : c.grow [] [] c.nextId = c := by
  obtain ⟨inner, outermost, nextId⟩ := c
  cases inner <;> simp [grow, modifyCurrent]

theorem grow_grow (vs vs' : List Variable) (ss ss' : List Statement) (k k' : Nat) :
    (c.grow vs ss k).grow vs' ss' k' = c.grow (vs ++ vs') (ss ++ ss') k' := by
  obtain ⟨inner, outermost, nextId⟩ := c
  cases inner <;> simp [grow, modifyCurrent]

theorem push_eq (s : Statement) : c.push s = c.grow [] [s] c.nextId := by
  obtain ⟨inner, outermost, nextId⟩ := c
  cases inner <;> simp [push, grow, modifyCurrent, Scope.push]

theorem nextId_eq (k : Nat) : { c with nextId := k } = c.grow [] [] k := by
  obtain ⟨inner, outermost, nextId⟩ := c
  cases inner <;> simp [grow, modifyCurrent]

/-- A scope that was entered is handed back with what was added, and the scopes around it are as
they were. -/
theorem leave?_enter_grow (vs : List Variable) (ss : List Statement) (k : Nat) :
    (c.enter.grow vs ss k).leave? =
      some (⟨c.nextId, some c.current.id, vs, ss⟩, c.grow [] [] k) := by
  rw [← nextId_eq]
  rfl

/-- The statement that was added last is taken back. -/
theorem pop_grow (vs : List Variable) (ss : List Statement) (s : Statement) (k : Nat) :
    (c.grow vs (ss ++ [s]) k).pop = (some s, c.grow vs ss k) := by
  obtain ⟨inner, outermost, nextId⟩ := c
  cases inner <;> simp [grow, modifyCurrent, pop, current, Scope.pop, ← List.append_assoc]

/-! ### Names -/

/-- A name refers to a variable of that name. -/
theorem name_of_resolve? {x : String} {v : Variable} (h : c.resolve? x = some v) : v.name = x := by
  obtain ⟨s, -, hlookup⟩ := List.exists_of_findSome?_eq_some h
  unfold Scope.lookup? at hlookup
  have hname := List.find?_some hlookup
  exact eq_of_beq hname

/-- A name refers to a variable if an open scope has declared it. -/
theorem isSome_resolve?_iff {x : String} :
    (c.resolve? x).isSome = true ↔ ∃ s ∈ c.scopes, ∃ v ∈ s.declared, v.name = x := by
  simp [resolve?, Scope.lookup?, List.findSome?_isSome_iff]

/-- The names that refer to a variable are the given ones. -/
def Knows (xs : List String) : Prop := ∀ x, (c.resolve? x).isSome = true ↔ x ∈ xs

variable {c} {xs : List String}

theorem Knows.enter (h : c.Knows xs) : c.enter.Knows xs := by
  intro x
  rw [resolve?_enter]
  exact h x

/-- The variables that were added are known too. -/
theorem Knows.grow (h : c.Knows xs) (vs : List Variable) (ss : List Statement) (k : Nat) :
    (c.grow vs ss k).Knows (xs ++ vs.map Variable.name) := by
  intro x
  have hx := h x
  rw [isSome_resolve?_iff] at hx ⊢
  rw [List.mem_append, ← hx, List.mem_map]
  -- the current scope is the innermost one, or the outermost if no other is open
  obtain ⟨inner, outermost, nextId⟩ := c
  cases inner with
  | nil => simp [scopes, ScopeChain.grow, modifyCurrent, or_and_right, exists_or]
  | cons s inner =>
    simp [scopes, ScopeChain.grow, modifyCurrent, or_and_right, exists_or, or_assoc, or_comm,
      or_left_comm]

theorem Knows.resolve? {x : String} (h : c.Knows xs) (hx : x ∈ xs) :
    ∃ v, c.resolve? x = some v ∧ v.name = x := by
  obtain ⟨v, hv⟩ := Option.isSome_iff_exists.1 ((h x).2 hx)
  exact ⟨v, hv, c.name_of_resolve? hv⟩

/-- A name that refers to nothing is declared. -/
theorem define_of_none {x : String} (h : c.resolve? x = none) (l : Location) :
    c.define x l = .ok (⟨x, l⟩, c.grow [⟨x, l⟩] [] c.nextId) := by
  unfold ScopeChain.define
  rw [h]
  obtain ⟨inner, outermost, nextId⟩ := c
  cases inner <;> simp [ScopeChain.grow, modifyCurrent, Scope.declare]

/-- A name that is not known is declared. -/
theorem Knows.define {x : String} (h : c.Knows xs) (hx : x ∉ xs) (l : Location) :
    c.define x l = .ok (⟨x, l⟩, c.grow [⟨x, l⟩] [] c.nextId) :=
  define_of_none (Option.not_isSome_iff_eq_none.1 fun hsome => hx ((h x).1 hsome)) l

end FloatLang.ScopeChain
