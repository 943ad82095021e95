import FloatLang.Proofs.Scope.Growth

/-!
# Variables in sight

The variables in sight are those that the open scopes have declared, from the outermost scope
inwards and in order. A name refers to one of them, and is declared only if none of them has it.

## Main definitions

* `ScopeChain.inSight` — the variables that the open scopes have declared

## Main results

* `ScopeChain.inSight_grow`, `ScopeChain.inSight_enter` — what a scope declares comes last
* `ScopeChain.mem_inSight_of_resolve?`, `ScopeChain.name_ne_of_resolve?_eq_none` — names refer to
  variables in sight
* `ScopeChain.define_eq_ok` — a declaration adds a variable with a name of its own
* `ScopeChain.resolve?_declared` — a name refers to the variable declared last
-/

namespace FloatLang.ScopeChain

variable (c : ScopeChain)

/-- The variables that the open scopes have declared, those of the outermost scope first. -/
def inSight : List Variable := c.scopes.reverse.flatMap Scope.declared

theorem inSight_grow (vs : List Variable) (ss : List Statement) (k : Nat) :
    (c.grow vs ss k).inSight = c.inSight ++ vs := by
  obtain ⟨inner, outermost, nextId⟩ := c
  cases inner <;> simp [inSight, scopes, grow, modifyCurrent, List.flatMap_append]

@[simp] theorem inSight_enter : c.enter.inSight = c.inSight := by
  simp [inSight, scopes, enter, List.flatMap_append]

@[simp] theorem inSight_push (s : Statement) : (c.push s).inSight = c.inSight := by
  rw [push_eq, inSight_grow, List.append_nil]

@[simp] theorem inSight_pop : c.pop.2.inSight = c.inSight := by
  obtain ⟨inner, outermost, nextId⟩ := c
  cases inner <;> simp [inSight, scopes, pop, modifyCurrent, Scope.pop]

variable {c} {x : String} {v : Variable} {l : Location}

/-- What is in sight when a scope was left was so before. -/
theorem inSight_leave? {s : Scope Statement} {c' : ScopeChain} (h : c.leave? = some (s, c')) :
    c'.inSight ⊆ c.inSight := by
  unfold leave? at h
  split at h
  · contradiction
  next hinner =>
    obtain ⟨-, rfl⟩ := Prod.mk.inj (Option.some.inj h)
    simp [inSight, scopes, hinner, List.flatMap_append]

theorem mem_inSight {v : Variable} : v ∈ c.inSight ↔ ∃ s ∈ c.scopes, v ∈ s.declared := by
  simp [inSight]

/-- A name refers to a variable in sight. -/
theorem mem_inSight_of_resolve? (h : c.resolve? x = some v) : v ∈ c.inSight := by
  obtain ⟨s, hs, hlookup⟩ := List.exists_of_findSome?_eq_some h
  exact mem_inSight.2 ⟨s, hs, List.mem_of_find?_eq_some hlookup⟩

/-- A name that refers to no variable is the name of none in sight. -/
theorem name_ne_of_resolve?_eq_none (h : c.resolve? x = none) : ∀ u ∈ c.inSight, u.name ≠ x := by
  intro u hu hname
  obtain ⟨s, hs, hdeclared⟩ := mem_inSight.1 hu
  have hsome := c.isSome_resolve?_iff.2 ⟨s, hs, u, hdeclared, hname⟩
  rw [h] at hsome
  contradiction

/-- A declaration adds a variable to the current scope, if its name refers to none so far. -/
theorem define_eq_ok {c' : ScopeChain} (h : c.define x l = .ok (v, c')) :
    v = ⟨x, l⟩ ∧ c.resolve? x = none ∧ c' = c.grow [v] [] c.nextId := by
  unfold define at h
  split at h
  · contradiction
  next hnone =>
    obtain ⟨rfl, rfl⟩ := Prod.mk.inj (Except.ok.inj h)
    refine ⟨rfl, hnone, ?_⟩
    obtain ⟨inner, outermost, nextId⟩ := c
    cases inner <;> simp [grow, modifyCurrent, Scope.declare]

/-- A name that can not be declared refers to a variable. -/
theorem define_eq_error {r : Redefinition} (h : c.define x l = .error r) :
    c.resolve? x = some r.previous ∧ r.location = l := by
  unfold define at h
  split at h
  next hsome =>
    obtain rfl := Except.error.inj h
    exact ⟨hsome, rfl⟩
  · contradiction

/-- A name refers to the variable that was declared last. -/
theorem resolve?_declared (h : c.resolve? v.name = none) (k : Nat) :
    (c.grow [v] [] k).resolve? v.name = some v := by
  have hcurrent : c.current.declared.find? (·.name == v.name) = none := by
    rw [List.find?_eq_none]
    intro u hu hname
    have hmem : c.current ∈ c.scopes := by
      obtain ⟨inner, outermost, nextId⟩ := c
      cases inner <;> simp [current, scopes]
    exact name_ne_of_resolve?_eq_none h u (mem_inSight.2 ⟨_, hmem, hu⟩) (eq_of_beq hname)
  -- the current scope is asked first, and has no other variable of the name
  obtain ⟨inner, outermost, nextId⟩ := c
  cases inner with
  | nil =>
    have hnone : outermost.declared.find? (·.name == v.name) = none := hcurrent
    simp [resolve?, scopes, grow, modifyCurrent, Scope.lookup?, hnone]
  | cons s inner =>
    have hnone : s.declared.find? (·.name == v.name) = none := hcurrent
    simp [resolve?, scopes, grow, modifyCurrent, Scope.lookup?, hnone]

end FloatLang.ScopeChain
