import FloatLang.Proofs.Scope.Sight
import FloatLang.Proofs.Tree.Relocation

/-!
# Relocation of scopes

Names are looked up by their spelling, and scopes refer to each other by number. So a chain of scopes
at other places opens and closes scopes, declares names and finds variables as before. The outermost
scope may have other statements before those that are added.

## Main definitions

* `ScopeChain.Moved` — a chain of scopes at other places

## Main results

* `ScopeChain.Moved.resolve?`, `ScopeChain.Moved.define_ok`, `ScopeChain.Moved.define_error` — names
* `ScopeChain.Moved.grow`, `ScopeChain.Moved.enter`, `ScopeChain.Moved.leave?`,
  `ScopeChain.Moved.pop` — statements and scopes
* `ScopeChain.Moved.grow_self` — the outermost scope alone
-/

namespace FloatLang

theorem Scope.lookup?_move (f : Relocation) (s : Scope Statement) (x : String) :
    (s.move f).lookup? x = (s.lookup? x).map (Variable.move f) := by
  simp only [lookup?, Scope.move, List.find?_map, Function.comp_def]
  rfl

namespace ScopeChain

/-- The chain `c'` is `c` at the places moved to. The outermost scope had the statements `ss` at first,
and `ss'` in the other chain. -/
structure Moved (f : Relocation) (ss ss' : List Statement) (c c' : ScopeChain) : Prop where
  inner : c'.inner = c.inner.map (Scope.move f)
  outermost : ∃ more, c.outermost.statements = ss ++ more ∧
    c'.outermost =
      { c.outermost.move f with statements := ss' ++ more.map (Statement.move f) }
  nextId : c'.nextId = c.nextId

namespace Moved

variable {f : Relocation} {ss ss' : List Statement} {c c' d : ScopeChain} {x : String}

theorem resolve? (h : c.Moved f ss ss' c') (x : String) :
    c'.resolve? x = (c.resolve? x).map (Variable.move f) := by
  obtain ⟨more, -, houtermost⟩ := h.outermost
  have hlookup : c'.outermost.lookup? x = (c.outermost.lookup? x).map (Variable.move f) := by
    rw [houtermost, ← Scope.lookup?_move]
    rfl
  have hinner : c'.inner.findSome? (·.lookup? x) =
      (c.inner.findSome? (·.lookup? x)).map (Variable.move f) := by
    rw [h.inner, List.findSome?_map]
    induction c.inner with
    | nil => rfl
    | cons s inner ih =>
      rw [List.findSome?_cons, List.findSome?_cons, ih, Function.comp_apply, Scope.lookup?_move]
      cases s.lookup? x <;> rfl
  simp only [ScopeChain.resolve?, scopes, List.findSome?_append, List.findSome?_cons,
    List.findSome?_nil, hinner, hlookup]
  cases c.inner.findSome? (·.lookup? x) <;> cases c.outermost.lookup? x <;> rfl

/-- What is added to the current scope is added at the places moved to. -/
theorem grow (h : c.Moved f ss ss' c') (vs : List Variable) (added : List Statement) (k : Nat) :
    (c.grow vs added k).Moved f ss ss'
      (c'.grow (vs.map (Variable.move f)) (added.map (Statement.move f)) k) := by
  obtain ⟨more, hmore, houtermost⟩ := h.outermost
  obtain ⟨inner, outermost, nextId⟩ := c
  obtain ⟨inner', outermost', nextId'⟩ := c'
  obtain rfl : inner' = _ := h.inner
  cases inner with
  | nil =>
    refine ⟨rfl, ⟨more ++ added, ?_, ?_⟩, rfl⟩
    · rw [← List.append_assoc, ← hmore]
      rfl
    · simp only at houtermost
      simp [ScopeChain.grow, modifyCurrent, houtermost, Scope.move]
  | cons s inner =>
    refine ⟨?_, ⟨more, hmore, houtermost⟩, rfl⟩
    simp [ScopeChain.grow, modifyCurrent, Scope.move]

theorem push (h : c.Moved f ss ss' c') (s : Statement) :
    (c.push s).Moved f ss ss' (c'.push (s.move f)) := by
  rw [push_eq, push_eq, h.nextId]
  exact h.grow [] [s] c.nextId

theorem define_ok {l : Location} {v : Variable} (h : c.Moved f ss ss' c')
    (hd : c.define x l = .ok (v, d)) :
    ∃ d', c'.define x (f.place l) = .ok (v.move f, d') ∧ d.Moved f ss ss' d' := by
  obtain ⟨rfl, hnone, rfl⟩ := define_eq_ok hd
  have hnone' : c'.resolve? x = none := by rw [h.resolve?, hnone, Option.map_none]
  rw [define_of_none hnone', h.nextId]
  exact ⟨_, rfl, h.grow [⟨x, l⟩] [] c.nextId⟩

theorem define_error {l : Location} {r : Redefinition} (h : c.Moved f ss ss' c')
    (hr : c.define x l = .error r) :
    c'.define x (f.place l) = .error ⟨r.previous.move f, f.place r.location⟩ := by
  unfold define at hr ⊢
  rw [h.resolve?]
  cases hresolve : c.resolve? x with
  | none => simp [hresolve] at hr
  | some v =>
    rw [hresolve] at hr
    obtain rfl := Except.error.inj hr
    rfl

/-- The current scope has the same number in both chains. -/
theorem id_current (h : c.Moved f ss ss' c') : c'.current.id = c.current.id := by
  obtain ⟨more, -, houtermost⟩ := h.outermost
  unfold current
  rw [h.inner, houtermost]
  cases c.inner <;> rfl

theorem enter (h : c.Moved f ss ss' c') : c.enter.Moved f ss ss' c'.enter where
  inner := by
    simp only [ScopeChain.enter, List.map_cons, h.inner, h.nextId, h.id_current]
    rfl
  outermost := h.outermost
  nextId := congrArg Nat.succ h.nextId

theorem leave? {s : Scope Statement} (h : c.Moved f ss ss' c') (hs : c.leave? = some (s, d)) :
    ∃ d', c'.leave? = some (s.move f, d') ∧ d.Moved f ss ss' d' := by
  unfold ScopeChain.leave? at hs ⊢
  rw [h.inner]
  cases hinner : c.inner with
  | nil => simp [hinner] at hs
  | cons first inner =>
    rw [hinner] at hs
    obtain ⟨rfl, rfl⟩ := Prod.mk.inj (Option.some.inj hs)
    exact ⟨_, rfl, rfl, h.outermost, h.nextId⟩

/-- The last statement is taken back, if it is not one of those that the outermost scope had at first. -/
theorem pop (h : c.Moved f ss ss' c') (hdepth : 0 < c.depth) :
    c'.pop.1 = c.pop.1.map (Statement.move f) ∧ c.pop.2.Moved f ss ss' c'.pop.2 := by
  obtain ⟨inner, outermost, nextId⟩ := c
  obtain ⟨inner', outermost', nextId'⟩ := c'
  obtain rfl : inner' = _ := h.inner
  cases inner with
  | nil => contradiction
  | cons s inner =>
    refine ⟨?_, ⟨?_, h.outermost, h.nextId⟩⟩
    · simp [ScopeChain.pop, current, Scope.move]
    · simp [ScopeChain.pop, modifyCurrent, Scope.pop, Scope.move, List.map_dropLast]

/-- The outermost scope alone is moved by adding statements, if its variables and statements stay in
their places. -/
theorem grow_self (hinner : c.inner = []) (hfixed : c.outermost.move f = c.outermost)
    (added : List Statement) :
    c.Moved f c.outermost.statements (c.outermost.statements ++ added)
      (c.grow [] added c.nextId) := by
  obtain ⟨inner, outermost, nextId⟩ := c
  obtain rfl : inner = [] := hinner
  refine ⟨rfl, ⟨[], (List.append_nil _).symm, ?_⟩, rfl⟩
  simp only at hfixed
  simp [ScopeChain.grow, modifyCurrent, hfixed]

end Moved

end ScopeChain

end FloatLang
