import FloatLang.Proofs.Lists
import FloatLang.Proofs.Scope.Sight
import Mathlib.Data.List.Chain

/-!
# Runs of operations on a chain of scopes

Whatever is done to a chain, step after step, its scopes stay linked to one another by number, and
no name is declared twice. A number that was given to a scope is never given to another one, so that
it can be told in which scope a declaration was made. Each scope lists the declarations that were
made in it and not taken back, in the order in which they were made.

## Main definitions

* `ScopeChain.Operation`, `ScopeChain.perform?`, `ScopeChain.run?` — what can be done to a chain
* `ScopeChain.Performs` — what one operation comes to
* `ScopeChain.Stands` — a declaration was made by an operation of a run, and not taken back
* `ScopeChain.Lawful` — what holds of a chain at the end of a run

## Main results

* `ScopeChain.performs_of_perform?` — every operation is one of a few changes
* `ScopeChain.Linked.run`, `ScopeChain.nodup_of_run` — the links and the names of a chain
* `ScopeChain.dated_of_run` — the declarations that a scope lists
* `ScopeChain.lawful_of_run` — every run leaves a lawful chain
-/

namespace FloatLang.ScopeChain

/-! ### Operations -/

/-- An open scope that can be changed. -/
inductive Place
  | current
  | outermost
  deriving DecidableEq, Repr

/-- What can be done to a chain. -/
inductive Operation
  /-- Open a scope. -/
  | enter
  /-- Close the current scope. -/
  | leave
  /-- Declare a name in the current scope. -/
  | define (name : String) (location : Location)
  /-- Remove the variable of a name. -/
  | undefine (place : Place) (name : String)
  /-- Add a statement. -/
  | push (place : Place) (s : Statement)
  /-- Remove the last statement. -/
  | pop (place : Place)
  /-- Remove all statements. -/
  | take (place : Place)
  deriving Repr

variable (c : ScopeChain)

/-- The scope at a place. -/
def scopeAt : Place → Scope Statement
  | .current => c.current
  | .outermost => c.outermost

/-- Changes the scope at a place. -/
def modifyAt (place : Place) (f : Scope Statement → Scope Statement) : ScopeChain :=
  match place with
  | .current => c.modifyCurrent f
  | .outermost => { c with outermost := f c.outermost }

/-- Does an operation; the outermost scope can not be left. A declaration that is refused leaves the
chain as it is. -/
def perform? : Operation → Option ScopeChain
  | .enter => some c.enter
  | .leave => c.leave?.map Prod.snd
  | .define name location =>
    match c.define name location with
    | .ok (_, c) => some c
    | .error _ => some c
  | .undefine .current name => some (c.undefine name).2
  | .undefine .outermost name => some (c.undefineOutermost name).2
  | .push .current s => some (c.push s)
  | .push .outermost s => some (c.pushOutermost s)
  | .pop .current => some c.pop.2
  | .pop .outermost => some (c.modifyAt .outermost fun s => s.pop.2)
  | .take .current => some c.take.2
  | .take .outermost => some c.takeOutermost.2

/-- Does operations one after the other. -/
def run? : List Operation → ScopeChain → Option ScopeChain
  | [], c => some c
  | op :: ops, c => (c.perform? op).bind (run? ops)

theorem run?_append (ops ops' : List Operation) :
    run? (ops ++ ops') c = (run? ops c).bind (run? ops') := by
  induction ops generalizing c with
  | nil => rfl
  | cons op ops ih =>
    rw [List.cons_append, run?, run?, Option.bind_assoc]
    exact congrArg _ (funext ih)

/-- What one operation comes to. -/
inductive Performs : Operation → ScopeChain → Prop
  | enter : Performs .enter c.enter
  | leave {s : Scope Statement} {rest : List (Scope Statement)} (h : c.inner = s :: rest) :
      Performs .leave { c with inner := rest }
  | define {v : Variable} (h : c.resolve? v.name = none) :
      Performs (.define v.name v.location) (c.modifyAt .current (·.declare v))
  | refuse {x : String} {v : Variable} (h : c.resolve? x = some v) (l : Location) :
      Performs (.define x l) c
  | undefine (place : Place) (x : String) :
      Performs (.undefine place x) (c.modifyAt place fun s => (s.undefine x).2)
  | statements {op : Operation} (hdefine : ∀ x l, op ≠ .define x l)
      (hundefine : ∀ place x, op ≠ .undefine place x) (place : Place)
      (f : List Statement → List Statement) :
      Performs op (c.modifyAt place fun s => { s with statements := f s.statements })

variable {c} {c' : ScopeChain} {op : Operation} {ops : List Operation}

/-- Every operation is one of a few changes. -/
theorem performs_of_perform? (h : c.perform? op = some c') : c.Performs op c' := by
  cases op with
  | enter =>
    obtain rfl := Option.some.inj h
    exact .enter
  | leave =>
    rw [perform?, leave?] at h
    split at h
    · contradiction
    next s rest hinner =>
      obtain rfl := Option.some.inj h
      exact .leave hinner
  | define x l =>
    rw [perform?, define] at h
    cases hresolve : c.resolve? x with
    | none =>
      rw [hresolve] at h
      obtain rfl := Option.some.inj h
      exact .define (v := ⟨x, l⟩) hresolve
    | some v =>
      rw [hresolve] at h
      obtain rfl := Option.some.inj h
      exact .refuse hresolve l
  | undefine place x =>
    cases place <;> obtain rfl := Option.some.inj h
    · exact .undefine .current x
    · exact .undefine .outermost x
  | push place s =>
    cases place <;> obtain rfl := Option.some.inj h
    · exact .statements (by simp) (by simp) .current (· ++ [s])
    · exact .statements (by simp) (by simp) .outermost (· ++ [s])
  | pop place =>
    cases place <;> obtain rfl := Option.some.inj h
    · exact .statements (by simp) (by simp) .current List.dropLast
    · exact .statements (by simp) (by simp) .outermost List.dropLast
  | take place =>
    cases place <;> obtain rfl := Option.some.inj h
    · exact .statements (by simp) (by simp) .current fun _ => []
    · exact .statements (by simp) (by simp) .outermost fun _ => []

/-- One of the scopes is changed, and the others stay. -/
theorem scopes_modifyAt (c : ScopeChain) (place : Place) :
    ∃ before after, c.scopes = before ++ c.scopeAt place :: after ∧
      ∀ f, (c.modifyAt place f).scopes = before ++ f (c.scopeAt place) :: after := by
  obtain ⟨inner, outermost, nextId⟩ := c
  cases place with
  | outermost => exact ⟨inner, [], rfl, fun f => rfl⟩
  | current =>
    cases inner with
    | nil => exact ⟨[], [], rfl, fun f => rfl⟩
    | cons s inner => exact ⟨[], inner ++ [outermost], rfl, fun f => rfl⟩

@[simp] theorem nextId_modifyAt (c : ScopeChain) (place : Place)
    (f : Scope Statement → Scope Statement) : (c.modifyAt place f).nextId = c.nextId := by
  obtain ⟨inner, outermost, nextId⟩ := c
  cases place <;> cases inner <;> rfl

theorem scopeAt_mem (c : ScopeChain) (place : Place) : c.scopeAt place ∈ c.scopes := by
  obtain ⟨before, after, hscopes, -⟩ := c.scopes_modifyAt place
  simp [hscopes]

/-! ### Links -/

/-- Each scope but the outermost one is a child of the one around it, with a higher number, and the
next number is higher than all. -/
structure Linked (c : ScopeChain) : Prop where
  outermost : (c.outermost.id, c.outermost.parent?) = (0, none)
  parents : c.links.IsChain fun s t => s.2 = some t.1
  ids : c.links.Pairwise fun s t => t.1 < s.1
  below : ∀ s ∈ c.links, s.1 < c.nextId

theorem links_modifyAt (c : ScopeChain) (place : Place) {f : Scope Statement → Scope Statement}
    (hf : ∀ s, ((f s).id, (f s).parent?) = (s.id, s.parent?)) :
    (c.modifyAt place f).links = c.links := by
  obtain ⟨before, after, hscopes, hmodify⟩ := c.scopes_modifyAt place
  rw [links, links, hscopes, hmodify f, List.map_append, List.map_append, List.map_cons,
    List.map_cons, hf]

theorem links_enter (c : ScopeChain) :
    c.enter.links = (c.nextId, some c.current.id) :: c.links := rfl

/-- The links begin with those of the current scope. -/
theorem links_eq_cons (c : ScopeChain) :
    ∃ parent? rest, c.links = (c.current.id, parent?) :: rest := by
  obtain ⟨inner, outermost, nextId⟩ := c
  cases inner with
  | nil => exact ⟨_, _, rfl⟩
  | cons s inner => exact ⟨_, _, rfl⟩

namespace Linked

theorem start : Linked {} where
  outermost := rfl
  parents := .singleton _
  ids := List.pairwise_singleton _ _
  below := by simp [links, scopes, Scope.outermost]

theorem modifyAt (h : c.Linked) (place : Place) {f : Scope Statement → Scope Statement}
    (hf : ∀ s, ((f s).id, (f s).parent?) = (s.id, s.parent?)) : (c.modifyAt place f).Linked := by
  have hlinks := c.links_modifyAt place hf
  obtain ⟨houtermost, hparents, hids, hbelow⟩ := h
  rw [← hlinks] at hparents hids hbelow
  rw [← c.nextId_modifyAt place f] at hbelow
  refine ⟨?_, hparents, hids, hbelow⟩
  obtain ⟨inner, outermost, nextId⟩ := c
  cases place with
  | outermost => exact (hf outermost).trans houtermost
  | current =>
    cases inner with
    | nil => exact (hf outermost).trans houtermost
    | cons s inner => exact houtermost

theorem enter (h : c.Linked) : c.enter.Linked where
  outermost := h.outermost
  parents := by
    obtain ⟨parent?, rest, hlinks⟩ := c.links_eq_cons
    have hparents := h.parents
    rw [links_enter]
    rw [hlinks] at hparents ⊢
    exact hparents.cons_cons rfl
  ids := List.pairwise_cons.2 ⟨h.below, h.ids⟩
  below := List.forall_mem_cons.2
    ⟨Nat.lt_succ_self _, fun s hs => Nat.lt_succ_of_lt (h.below s hs)⟩

theorem leave (h : c.Linked) {s : Scope Statement} {rest : List (Scope Statement)}
    (hinner : c.inner = s :: rest) : Linked { c with inner := rest } := by
  have hlinks : c.links = (s.id, s.parent?) :: links { c with inner := rest } := by
    rw [links, scopes, hinner]
    rfl
  obtain ⟨houtermost, hparents, hids, hbelow⟩ := h
  rw [hlinks] at hparents hids hbelow
  exact ⟨houtermost, hparents.tail, (List.pairwise_cons.1 hids).2,
    (List.forall_mem_cons.1 hbelow).2⟩

theorem performs (h : c.Linked) (hop : c.Performs op c') : c'.Linked := by
  cases hop with
  | enter => exact h.enter
  | leave hinner => exact h.leave hinner
  | define hnone => exact h.modifyAt .current fun _ => rfl
  | refuse hsome l => exact h
  | undefine place x => exact h.modifyAt place fun _ => rfl
  | statements hdefine hundefine place f => exact h.modifyAt place fun _ => rfl

theorem run (h : c.Linked) (hrun : run? ops c = some c') : c'.Linked := by
  induction ops generalizing c with
  | nil => exact Option.some.inj hrun ▸ h
  | cons op ops ih =>
    obtain ⟨c₁, hop, hrun⟩ := Option.bind_eq_some_iff.1 hrun
    exact ih (h.performs (performs_of_perform? hop)) hrun

/-- The numbers of the open scopes are different. -/
theorem ne_of_split (h : c.Linked) {before after : List (Scope Statement)} {s t : Scope Statement}
    (hscopes : c.scopes = before ++ s :: after) (ht : t ∈ before ∨ t ∈ after) : t.id ≠ s.id := by
  have hids := h.ids
  rw [links, hscopes, List.map_append, List.map_cons, List.pairwise_append,
    List.pairwise_cons] at hids
  obtain ⟨-, ⟨hafter, -⟩, hbefore⟩ := hids
  rcases ht with ht | ht
  · have hlt := hbefore _ (List.mem_map_of_mem ht) _ List.mem_cons_self
    exact Nat.ne_of_gt hlt
  · have hlt := hafter _ (List.mem_map_of_mem ht)
    exact Nat.ne_of_lt hlt

/-- What holds of the changed scope and of those with another number holds of all scopes. -/
theorem forall_scopes_modifyAt (h : c.Linked) (place : Place)
    {f : Scope Statement → Scope Statement} {p : Scope Statement → Prop}
    (hat : p (f (c.scopeAt place)))
    (hothers : ∀ s ∈ c.scopes, s.id ≠ (c.scopeAt place).id → p s) :
    ∀ s ∈ (c.modifyAt place f).scopes, p s := by
  obtain ⟨before, after, hscopes, hmodify⟩ := c.scopes_modifyAt place
  intro s hs
  rw [hmodify, List.mem_append, List.mem_cons] at hs
  rcases hs with hs | rfl | hs
  · exact hothers s (by simp [hscopes, hs]) (h.ne_of_split hscopes (.inl hs))
  · exact hat
  · exact hothers s (by simp [hscopes, hs]) (h.ne_of_split hscopes (.inr hs))

end Linked

/-- The numbers that are given out get higher. -/
theorem nextId_le_of_performs (h : c.Performs op c') : c.nextId ≤ c'.nextId := by
  cases h with
  | enter => exact Nat.le_succ _
  | leave hinner => exact Nat.le_refl _
  | define hnone => exact Nat.le_of_eq (nextId_modifyAt _ _ _).symm
  | refuse hsome l => exact Nat.le_refl _
  | undefine place x => exact Nat.le_of_eq (nextId_modifyAt _ _ _).symm
  | statements hdefine hundefine place f => exact Nat.le_of_eq (nextId_modifyAt _ _ _).symm

theorem nextId_le_of_run (h : run? ops c = some c') : c.nextId ≤ c'.nextId := by
  induction ops generalizing c with
  | nil => exact Nat.le_of_eq (congrArg nextId (Option.some.inj h))
  | cons op ops ih =>
    obtain ⟨c₁, hop, hrun⟩ := Option.bind_eq_some_iff.1 h
    exact Nat.le_trans (nextId_le_of_performs (performs_of_perform? hop)) (ih hrun)

/-! ### Names -/

/-- The names that the open scopes have declared. -/
def names (c : ScopeChain) : List String := c.inSight.map Variable.name

theorem inSight_of_scopes {before after : List (Scope Statement)} {s : Scope Statement}
    (h : c.scopes = before ++ s :: after) :
    c.inSight = after.reverse.flatMap Scope.declared ++ s.declared ++
      before.reverse.flatMap Scope.declared := by
  rw [inSight, h]
  simp [List.flatMap_append, List.append_assoc]

theorem nodup_of_performs (h : c.names.Nodup) (hop : c.Performs op c') : c'.names.Nodup := by
  cases hop with
  | enter => rwa [names, inSight_enter]
  | @leave s rest hinner =>
    have hscopes : c.scopes = [] ++ s :: (rest ++ [c.outermost]) := by
      rw [scopes, hinner]
      rfl
    -- the names of the innermost scope come last, and are taken away
    refine h.sublist (List.Sublist.map _ ?_)
    rw [inSight_of_scopes hscopes, List.append_assoc]
    exact List.sublist_append_left _ _
  | @define v hnone =>
    obtain ⟨before, after, hscopes, hmodify⟩ := c.scopes_modifyAt .current
    have hfresh : v.name ∉ c.names := by
      intro hmem
      obtain ⟨u, hu, hname⟩ := List.mem_map.1 hmem
      exact name_ne_of_resolve?_eq_none hnone u hu hname
    have hperm : (c.modifyAt .current (·.declare v)).inSight.Perm (v :: c.inSight) := by
      rw [inSight_of_scopes hscopes, inSight_of_scopes (hmodify _), Scope.declare,
        ← List.append_assoc, List.append_assoc _ [v]]
      exact List.perm_middle
    rw [names, (hperm.map Variable.name).nodup_iff]
    exact List.nodup_cons.2 ⟨hfresh, h⟩
  | refuse hsome l => exact h
  | undefine place x =>
    obtain ⟨before, after, hscopes, hmodify⟩ := c.scopes_modifyAt place
    refine h.sublist (List.Sublist.map _ ?_)
    rw [inSight_of_scopes hscopes, inSight_of_scopes (hmodify _)]
    exact ((List.eraseP_sublist).append_left _).append_right _
  | statements hdefine hundefine place f =>
    obtain ⟨before, after, hscopes, hmodify⟩ := c.scopes_modifyAt place
    rw [names, inSight_of_scopes hscopes] at h
    rwa [names, inSight_of_scopes (hmodify _)]

theorem nodup_start : (names {}).Nodup := List.nodup_nil

theorem nodup_of_run (h : c.names.Nodup) (hrun : run? ops c = some c') : c'.names.Nodup := by
  induction ops generalizing c with
  | nil => exact Option.some.inj hrun ▸ h
  | cons op ops ih =>
    obtain ⟨c₁, hop, hrun⟩ := Option.bind_eq_some_iff.1 hrun
    exact ih (nodup_of_performs h (performs_of_perform? hop)) hrun

/-- The names that one scope has declared. -/
theorem nodup_declared (h : c.names.Nodup) {s : Scope Statement} (hs : s ∈ c.scopes) :
    (s.declared.map Variable.name).Nodup := by
  obtain ⟨before, after, hscopes⟩ := List.append_of_mem hs
  refine h.sublist (List.Sublist.map _ ?_)
  rw [inSight_of_scopes hscopes, List.append_assoc]
  exact (List.sublist_append_left _ _).trans (List.sublist_append_right _ _)

/-! ### Declarations -/

/-- An operation declares the variable in the scope with the given number. -/
structure Declares (id : Nat) (v : Variable) (c : ScopeChain) (op : Operation) : Prop where
  operation : op = .define v.name v.location
  fresh : c.resolve? v.name = none
  current : c.current.id = id

/-- An operation removes the variable of a name from the scope with the given number. -/
def Removes (id : Nat) (x : String) (c : ScopeChain) (op : Operation) : Prop :=
  ∃ place, op = .undefine place x ∧ (c.scopeAt place).id = id

/-- The `n`-th operation of a run is as described, and so is the chain on which it is done. -/
def Occurs (what : ScopeChain → Operation → Prop) (ops : List Operation) (n : Nat) : Prop :=
  ∃ op c, ops[n]? = some op ∧ run? (ops.take n) {} = some c ∧ what c op

/-- The `n`-th operation of a run declares the variable in the scope with the given number, and none
after it removes the variable from there. -/
def Stands (ops : List Operation) (id n : Nat) (v : Variable) : Prop :=
  Occurs (Declares id v) ops n ∧ ∀ m, n < m → ¬ Occurs (Removes id v.name) ops m

/-- The variables are those whose declarations in a scope stand, in the order in which they were
made. -/
def Dated (ops : List Operation) (id : Nat) (vs : List Variable) : Prop :=
  ∃ dated : List (Nat × Variable), (dated.map Prod.fst).Pairwise (· < ·) ∧
    dated.map Prod.snd = vs ∧ ∀ n v, (n, v) ∈ dated ↔ Stands ops id n v

section Dated

variable {what : ScopeChain → Operation → Prop} {id n : Nat} {v : Variable} {vs : List Variable}

theorem not_declares (h : ∀ x l, op ≠ .define x l) : ¬ Declares id v c op :=
  fun hdeclares => h _ _ hdeclares.operation

theorem not_removes {x : String} (h : ∀ place x, op ≠ .undefine place x) : ¬ Removes id x c op := by
  rintro ⟨place, hop, -⟩
  exact h place x hop

theorem Occurs.lt (h : Occurs what ops n) : n < ops.length := by
  obtain ⟨op, c, hop, -⟩ := h
  exact (List.getElem?_eq_some_iff.1 hop).1

/-- What occurs in a run occurs before its last operation, or is that operation. -/
theorem occurs_append (hrun : run? ops {} = some c) :
    Occurs what (ops ++ [op]) n ↔ Occurs what ops n ∨ n = ops.length ∧ what c op := by
  constructor
  · rintro ⟨op', c', hop, hrun', hwhat⟩
    have hlt := (List.getElem?_eq_some_iff.1 hop).1
    rw [List.length_append, List.length_singleton] at hlt
    rcases Nat.lt_succ_iff_lt_or_eq.1 hlt with hlt | rfl
    · rw [List.getElem?_append_left hlt] at hop
      rw [List.take_append_of_le_length (Nat.le_of_lt hlt)] at hrun'
      exact .inl ⟨op', c', hop, hrun', hwhat⟩
    · rw [List.getElem?_concat_length] at hop
      rw [List.take_left, hrun] at hrun'
      obtain rfl := Option.some.inj hop
      obtain rfl := Option.some.inj hrun'
      exact .inr ⟨rfl, hwhat⟩
  · rintro (h | ⟨rfl, hwhat⟩)
    · have hlt := h.lt
      obtain ⟨op', c', hop, hrun', hwhat⟩ := h
      refine ⟨op', c', ?_, ?_, hwhat⟩
      · rw [List.getElem?_append_left hlt, hop]
      · rw [List.take_append_of_le_length (Nat.le_of_lt hlt), hrun']
    · refine ⟨op, c, List.getElem?_concat_length, ?_, hwhat⟩
      rw [List.take_left, hrun]

/-- The declarations that stand are those that the last operation does not remove, and what it
declares itself. -/
theorem stands_append (hrun : run? ops {} = some c) :
    Stands (ops ++ [op]) id n v ↔
      Stands ops id n v ∧ ¬ Removes id v.name c op ∨ n = ops.length ∧ Declares id v c op := by
  unfold Stands
  simp only [occurs_append hrun]
  constructor
  · rintro ⟨hdeclares | hlast, hstands⟩
    · refine .inl ⟨⟨hdeclares, fun m hm hremoves => hstands m hm (.inl hremoves)⟩, ?_⟩
      exact fun hremoves => hstands _ hdeclares.lt (.inr ⟨rfl, hremoves⟩)
    · exact .inr hlast
  · rintro (⟨⟨hdeclares, hstands⟩, hnot⟩ | ⟨rfl, hlast⟩)
    · refine ⟨.inl hdeclares, fun m hm hremoves => ?_⟩
      rcases hremoves with hremoves | ⟨-, hremoves⟩
      · exact hstands m hm hremoves
      · exact hnot hremoves
    · refine ⟨.inr ⟨rfl, hlast⟩, fun m hm hremoves => ?_⟩
      rcases hremoves with hremoves | ⟨rfl, -⟩
      · exact Nat.lt_asymm hm hremoves.lt
      · exact Nat.lt_irrefl _ hm

/-- No declaration is made in a scope that has not been opened. -/
theorem not_stands_nextId (hrun : run? ops {} = some c) : ¬ Stands ops c.nextId n v := by
  rintro ⟨⟨op, c₁, -, hrun₁, hdeclares⟩, -⟩
  have hlinked := Linked.start.run hrun₁
  obtain ⟨parent?, rest, hlinks⟩ := c₁.links_eq_cons
  have hbelow : c₁.current.id < c₁.nextId :=
    hlinked.below (_, parent?) (hlinks ▸ List.mem_cons_self)
  rw [← List.take_append_drop n ops, run?_append, hrun₁] at hrun
  have hle : c₁.nextId ≤ c.nextId := nextId_le_of_run hrun
  have hid := hdeclares.current
  omega

theorem dated_nil (h : ∀ n v, ¬ Stands ops id n v) : Dated ops id [] :=
  ⟨[], .nil, rfl, fun n v => iff_of_false List.not_mem_nil (h n v)⟩

/-- An operation that neither declares nor removes anything in a scope. -/
theorem Dated.keep (h : Dated ops id vs) (hrun : run? ops {} = some c)
    (hdeclares : ∀ v, ¬ Declares id v c op) (hremoves : ∀ x, ¬ Removes id x c op) :
    Dated (ops ++ [op]) id vs := by
  obtain ⟨dated, hsorted, hvs, hdated⟩ := h
  refine ⟨dated, hsorted, hvs, fun n v => ?_⟩
  simp [hdated, stands_append hrun, hdeclares, hremoves]

/-- The last operation declares a variable. -/
theorem Dated.declare (h : Dated ops id vs) (hrun : run? ops {} = some c)
    (hdeclares : Declares id v c op) : Dated (ops ++ [op]) id (vs ++ [v]) := by
  obtain ⟨dated, hsorted, hvs, hdated⟩ := h
  refine ⟨dated ++ [(ops.length, v)], ?_, by rw [List.map_append, hvs]; rfl, fun n u => ?_⟩
  · rw [List.map_append, List.pairwise_append]
    refine ⟨hsorted, List.pairwise_singleton _ _, fun m hm k hk => ?_⟩
    obtain rfl := List.mem_singleton.1 hk
    obtain ⟨⟨m, u⟩, hmem, rfl⟩ := List.mem_map.1 hm
    exact ((hdated m u).1 hmem).1.lt
  · have hremoves : ¬ Removes id u.name c op := by
      rintro ⟨place, hop, -⟩
      rw [hdeclares.operation] at hop
      contradiction
    have hlast : Declares id u c op ↔ u = v := by
      constructor
      · rintro ⟨hop, -, -⟩
        rw [hdeclares.operation] at hop
        obtain ⟨hname, hlocation⟩ := Operation.define.inj hop
        cases u; cases v; cases hname; cases hlocation; rfl
      · rintro rfl
        exact hdeclares
    rw [stands_append hrun, List.mem_append, List.mem_singleton, hdated, hlast, Prod.mk.injEq,
      and_iff_left hremoves]

/-- The last operation removes the variable of a name. -/
theorem Dated.remove {x : String} {place : Place} (h : Dated ops id vs)
    (hrun : run? ops {} = some c) (hid : (c.scopeAt place).id = id) :
    Dated (ops ++ [.undefine place x]) id (vs.filter (·.name != x)) := by
  obtain ⟨dated, hsorted, hvs, hdated⟩ := h
  refine ⟨dated.filter (·.2.name != x), ?_, ?_, fun n v => ?_⟩
  · exact hsorted.sublist (List.filter_sublist.map _)
  · rw [← hvs, List.filter_map]
    rfl
  · have hdeclares : ¬ Declares id v c (.undefine place x) := not_declares (by simp)
    have hremoves : Removes id v.name c (.undefine place x) ↔ v.name = x := by
      constructor
      · rintro ⟨place', hop, -⟩
        exact (Operation.undefine.inj hop).2.symm
      · rintro rfl
        exact ⟨place, rfl, hid⟩
    simp [stands_append hrun, List.mem_filter, hdated, hdeclares, hremoves]

end Dated

/-- A scope with each name once only has no other variable of a name. -/
theorem pairwise_name {x : String} {vs : List Variable} (h : (vs.map Variable.name).Nodup) :
    vs.Pairwise fun u v => (u.name == x) = true → (v.name == x) = false := by
  refine (List.pairwise_map.1 h).imp fun hne hu => ?_
  rw [beq_eq_false_iff_ne]
  rintro rfl
  exact hne (beq_iff_eq.1 hu)

/-- Every open scope lists the variables that are declared in it, in the order of their
declarations. -/
theorem dated_of_run (hrun : run? ops {} = some c) :
    ∀ s ∈ c.scopes, Dated ops s.id s.declared := by
  -- by induction from the end of the run: a declaration stands unless a later operation removes it
  induction ops using List.reverseRecOn generalizing c with
  | nil =>
    obtain rfl := Option.some.inj hrun
    rintro s hs
    obtain rfl := List.mem_singleton.1 hs
    exact dated_nil fun n v h => Nat.not_lt_zero _ h.1.lt
  | append_singleton ops op ih =>
    rw [run?_append] at hrun
    obtain ⟨c₁, hrun₁, hrun⟩ := Option.bind_eq_some_iff.1 hrun
    obtain ⟨_, hop, hc⟩ := Option.bind_eq_some_iff.1 hrun
    obtain rfl := Option.some.inj hc
    have hlinked := Linked.start.run hrun₁
    have ih := ih hrun₁
    cases performs_of_perform? hop with
    | enter =>
      refine List.forall_mem_cons.2 ⟨dated_nil fun n v h => ?_, fun s hs => ?_⟩
      · -- the number of the new scope has not been given out before
        rcases (stands_append hrun₁).1 h with ⟨hstands, -⟩ | ⟨-, hlast⟩
        · exact not_stands_nextId hrun₁ hstands
        · exact not_declares (by simp) hlast
      · exact (ih s hs).keep hrun₁ (fun v => not_declares (by simp)) fun x => not_removes (by simp)
    | @leave s rest hinner =>
      intro t ht
      have hmem : t ∈ c₁.scopes := by
        rw [scopes, hinner]
        exact List.mem_cons_of_mem s ht
      exact (ih t hmem).keep hrun₁ (fun v => not_declares (by simp)) fun x => not_removes (by simp)
    | @define v hnone =>
      refine hlinked.forall_scopes_modifyAt .current ?_ fun t ht hne => ?_
      · exact (ih _ (c₁.scopeAt_mem .current)).declare hrun₁ ⟨rfl, hnone, rfl⟩
      · exact (ih t ht).keep hrun₁ (fun u h => hne h.current.symm) fun x => not_removes (by simp)
    | @refuse x v hsome l =>
      have hdeclares : ∀ id u, ¬ Declares id u c₁ (.define x l) := by
        rintro id u ⟨hop, hnone, -⟩
        obtain ⟨rfl, -⟩ := Operation.define.inj hop
        rw [hsome] at hnone
        contradiction
      intro t ht
      exact (ih t ht).keep hrun₁ (hdeclares _) fun x => not_removes (by simp)
    | undefine place x =>
      refine hlinked.forall_scopes_modifyAt place ?_ fun t ht hne => ?_
      · -- a scope has a name once only, so that removing the first variable of it removes all
        have hdated := ih _ (c₁.scopeAt_mem place)
        have hnodup := nodup_declared (nodup_of_run nodup_start hrun₁) (c₁.scopeAt_mem place)
        rw [Scope.undefine, eraseP_eq_filter (pairwise_name hnodup)]
        exact hdated.remove hrun₁ rfl
      · refine (ih t ht).keep hrun₁ (fun v => not_declares (by simp)) ?_
        rintro y ⟨place', hop, hid⟩
        obtain ⟨rfl, rfl⟩ := Operation.undefine.inj hop
        exact hne hid.symm
    | statements hdefine hundefine place f =>
      have hkeep : ∀ t ∈ c₁.scopes, Dated (ops ++ [op]) t.id t.declared := fun t ht =>
        (ih t ht).keep hrun₁ (fun v => not_declares hdefine) fun x => not_removes hundefine
      have hat := hkeep _ (c₁.scopeAt_mem place)
      exact hlinked.forall_scopes_modifyAt place hat fun t ht _ => hkeep t ht

/-! ### Runs -/

/-- What holds of a chain at the end of a run. -/
structure Lawful (ops : List Operation) (c : ScopeChain) : Prop where
  /-- The outermost scope has the number 0, and no parent. -/
  outermost : c.outermost.id = 0 ∧ c.outermost.parent? = none
  /-- Every other scope is a child of the one around it. -/
  parents : c.scopes.IsChain fun s t => s.parent? = some t.id
  /-- Its number is higher than those of the scopes around it. -/
  ids : c.scopes.Pairwise fun s t => t.id < s.id
  /-- A scope that is opened at any later time has a number of its own. -/
  fresh : ∀ later c', run? (later ++ [.enter]) c = some c' → ∀ s ∈ c.scopes, s.id < c'.current.id
  /-- A name is declared at most once in all open scopes. -/
  distinct : (c.inSight.map Variable.name).Nodup
  /-- A scope lists the variables that are declared in it, in the order of their declarations. -/
  declared : ∀ s ∈ c.scopes, Dated ops s.id s.declared
  /-- A name can be declared if and only if it refers to nothing. -/
  define_iff : ∀ x l, (∃ r, c.define x l = .ok r) ↔ c.resolve? x = none
  /-- What has been declared is what the name refers to. -/
  defined : ∀ x l r, c.define x l = .ok r → r.1 = ⟨x, l⟩ ∧ r.2.resolve? x = some ⟨x, l⟩
  /-- Otherwise the variable that it refers to is handed back, and the chain is as it was. -/
  refused : ∀ x l v, c.resolve? x = some v →
    c.define x l = .error ⟨v, l⟩ ∧ c.perform? (.define x l) = some c

/-- An operation can always be done, except that the outermost scope can not be left. -/
theorem perform?_eq_none_iff : c.perform? op = none ↔ op = .leave ∧ c.depth = 0 := by
  cases op with
  | enter => simp [perform?]
  | leave =>
    obtain ⟨inner, outermost, nextId⟩ := c
    cases inner <;> simp [perform?, leave?, depth]
  | define x l =>
    rw [perform?]
    cases c.define x l <;> simp
  | undefine place x => cases place <;> simp [perform?]
  | push place s => cases place <;> simp [perform?]
  | pop place => cases place <;> simp [perform?]
  | take place => cases place <;> simp [perform?]

/-- Every run leaves a lawful chain. -/
theorem lawful_of_run (h : run? ops {} = some c) : Lawful ops c := by
  have hlinked : c.Linked := Linked.start.run h
  refine
    { outermost := Prod.mk.inj hlinked.outermost
      parents := (List.isChain_map _).1 hlinked.parents
      ids := List.pairwise_map.1 hlinked.ids
      fresh := fun later c' hlater s hs => ?_
      distinct := nodup_of_run nodup_start h
      declared := dated_of_run h
      define_iff := fun x l =>
        ⟨fun ⟨r, hr⟩ => (define_eq_ok hr).2.1, fun hnone => ⟨_, define_of_none hnone l⟩⟩
      defined := fun x l r hr => ?_
      refused := fun x l v hsome => ?_ }
  · rw [run?_append] at hlater
    obtain ⟨c₁, hrun, henter⟩ := Option.bind_eq_some_iff.1 hlater
    obtain rfl := Option.some.inj henter
    exact Nat.lt_of_lt_of_le (hlinked.below _ (List.mem_map_of_mem hs)) (nextId_le_of_run hrun)
  · obtain ⟨hv, hnone, hc⟩ := define_eq_ok hr
    rw [hv] at hc
    exact ⟨hv, hc ▸ resolve?_declared hnone _⟩
  · have hrefused : c.define x l = .error ⟨v, l⟩ := by rw [define, hsome]
    exact ⟨hrefused, by rw [perform?, hrefused]⟩

/-- A name that is removed from the outermost scope can be declared again in an inner one. -/
theorem lawful_of_run_of_undefine :
    let l : Location := .startOf ⟨"main.rin"⟩
    let ops : List Operation :=
      [.define "x" l, .enter, .define "y" l, .undefine .outermost "x", .define "x" l,
        .undefine .current "y", .define "y" l]
    ∃ c, run? ops {} = some c ∧ c.current.declared = [⟨"x", l⟩, ⟨"y", l⟩] ∧ Lawful ops c :=
  ⟨_, rfl, rfl, lawful_of_run rfl⟩

end FloatLang.ScopeChain
