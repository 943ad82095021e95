import Mathlib.Logic.ExistsUnique
import FloatLang.Proofs.Lowering.Scoping
import FloatLang.Proofs.Tree.Tables

/-!
# The calls of a program declare variables once and use them afterwards

Every token declares at most one variable, and the declarations of a program without failures are
those of its scopes. So its calls declare each variable exactly once, and wherever a variable is
used, it was declared in a scope that has not been left since.

## Main definitions

* `Action.declarations` — the variables that actions declare
* `Distinct` — different variables, declared by the tokens of a range

## Main results

* `MadeAll.distinct` — what is made of tokens declares each variable once
* `MadeAll.declares_of_nested` — and all variables of its scopes
* `Parser.calls_scoped` — the calls of a program that was read without an error
-/

namespace FloatLang

/-! ### Declarations -/

/-- The variable that an action declares. -/
def Action.declared? : Action → Option Variable
  | declare v? => v?
  | _ => none

/-- The variables that actions declare, in order. -/
def Action.declarations (as : List Action) : List Variable := as.filterMap declared?

/-- Different variables, declared by tokens from the `i`-th on and before the `j`-th. -/
structure Distinct (source : Source) (i j : Nat) (vs : List Variable) : Prop where
  declares : ∀ v ∈ vs, ∃ k, i ≤ k ∧ k < j ∧ source.DeclaresAt k v
  nodup : vs.Nodup

theorem Action.mem_declarations {as : List Action} {v : Variable} :
    v ∈ declarations as ↔ .declare (some v) ∈ as := by
  constructor
  · intro h
    obtain ⟨a, ha, hv⟩ := List.mem_filterMap.1 h
    cases a with
    | declare v? =>
      obtain rfl : v? = some v := hv
      exact ha
    | _ => contradiction
  · intro h
    exact List.mem_filterMap.2 ⟨_, h, rfl⟩

theorem Action.declarations_append (as bs : List Action) :
    declarations (as ++ bs) = declarations as ++ declarations bs := List.filterMap_append

theorem OnlyUses.declarations {xs : List Variable} {as : List Action} (h : OnlyUses xs as) :
    Action.declarations as = [] := by
  obtain ⟨rs, rfl, -⟩ := h
  rw [Action.declarations, List.filterMap_flatMap, List.flatMap_eq_nil_iff]
  exact fun r _ => rfl

namespace Statement

theorem declarations_branch {xs : List Variable} {condition : Condition} {body : Scope Statement}
    {l : Location} (hcondition : OnlyUses xs condition.inner.actions) :
    Action.declarations (branch condition body l).actions =
      Action.declarations (actionsAll body.statements) := by
  rw [actions, actionsIn_eq]
  simp only [Action.declarations_append, hcondition.declarations, List.append_nil]
  exact List.append_nil _

theorem declarations_loop {xs : List Variable} {init condition increment : Option Statement}
    {body : Scope Statement} {l : Location} (hcondition : ∀ s ∈ condition, OnlyUses xs s.actions)
    (hincrement : ∀ s ∈ increment, OnlyUses xs s.actions) :
    Action.declarations (loop init condition increment body l).actions =
      Action.declarations (actionsAll init.toList) ++
        Action.declarations (actionsAll body.statements) := by
  rw [actions, actionsOf_eq init, actionsIn_eq]
  simp only [Action.declarations_append, (onlyUses_clause hcondition).declarations,
    (onlyUses_clause hincrement).declarations, List.append_nil]
  exact List.append_nil _

theorem declarations_define {xs : List Variable} {v : Variable} {r : Reference} {value : Expr}
    {l l' : Location} (hvalue : OnlyUses xs value.actions) :
    Action.declarations (compound (declare v) (assign r value l) l').actions = [v] := by
  change v :: Action.declarations value.actions = [v]
  rw [hvalue.declarations]

end Statement

/-! ### Every variable is declared once -/

section Distinct

variable {source : Source} {xs : List Variable} {i i' j j' m : Nat} {v : Variable}
  {vs ws : List Variable}

theorem distinct_nil (source : Source) (i j : Nat) : Distinct source i j [] where
  declares := by simp
  nodup := List.nodup_nil

theorem DeclaredIn.distinct (h : DeclaredIn source xs i j v) : Distinct source i j [v] where
  declares u hu := by
    obtain rfl := List.mem_singleton.1 hu
    obtain ⟨k, hik, hkj, hdeclares⟩ := h.declares
    exact ⟨k, hik, by omega, hdeclares⟩
  nodup := List.pairwise_singleton _ _

theorem Distinct.mono (h : Distinct source i j vs) (hi : i' ≤ i) (hj : j ≤ j') :
    Distinct source i' j' vs where
  declares v hv := by
    obtain ⟨k, hik, hkj, hdeclares⟩ := h.declares v hv
    exact ⟨k, Nat.le_trans hi hik, Nat.lt_of_lt_of_le hkj hj, hdeclares⟩
  nodup := h.nodup

/-- A token declares one variable only, so that later ones declare others. -/
theorem Distinct.append (hvs : Distinct source i m vs) (hws : Distinct source m j ws) (him : i ≤ m)
    (hmj : m ≤ j) : Distinct source i j (vs ++ ws) where
  declares v hv := by
    rcases List.mem_append.1 hv with hv | hv
    · exact (hvs.mono (Nat.le_refl i) hmj).declares v hv
    · exact (hws.mono him (Nat.le_refl j)).declares v hv
  nodup := by
    refine List.nodup_append.2 ⟨hvs.nodup, hws.nodup, ?_⟩
    rintro v hv w hw rfl
    obtain ⟨k, -, hkm, hk⟩ := hvs.declares v hv
    obtain ⟨k', hmk', -, hk'⟩ := hws.declares v hw
    have heq := hk.names.eq_of_location_eq hk'.names
    omega

end Distinct

open Statement

variable {source : Source}

mutual

/-- What is made of tokens declares each of its variables once. -/
theorem Made.distinct {xs : List Variable} {i j : Nat} {s : Statement} :
    Made source xs i j s → Distinct source i j (Action.declarations s.actions)
  | .declare hdeclared => hdeclared.distinct
  | .assign htarget hvalue => by
    rw [actions, (htarget.onlyUses.append hvalue.onlyUses).declarations]
    exact distinct_nil source i j
  | .step _ => distinct_nil source i j
  | .branch hcondition _ hbody => by
    rw [declarations_branch hcondition.onlyUses]
    exact hbody.distinct.mono hcondition.le (Nat.le_refl j)
  | .loop hinit _ _ hab hcondition hbc hincrement _ hbody => by
    have hac := Nat.le_trans hab hbc
    rw [declarations_loop (fun s hs => (hcondition s hs).onlyUses) fun s hs =>
      (hincrement s hs).onlyUses]
    exact hinit.distinct.append (hbody.distinct.mono hac (Nat.le_refl j)) hinit.le
      (Nat.le_trans hac hbody.le)
  | .define hdeclared hvalue => by
    rw [declarations_define hvalue.onlyUses]
    exact hdeclared.distinct.mono (Nat.le_refl i) hvalue.le
  | .undefined _ => distinct_nil source i j

theorem MadeAll.distinct {xs : List Variable} {i j : Nat} {ss : List Statement} :
    MadeAll source xs i j ss → Distinct source i j (Action.declarations (actionsAll ss))
  | .nil _ => distinct_nil source i j
  | .cons hle hfirst hrest => by
    rw [actionsAll, Action.declarations_append]
    exact (hfirst.distinct.append hrest.distinct hfirst.le hrest.le).mono hle (Nat.le_refl j)

end

mutual

/-- What a scope has, nested in a statement without failures, is declared by its actions. -/
theorem Made.declares_of_nested {xs : List Variable} {i j : Nat} {s : Statement}
    {init : Option Statement} {scope : Scope Statement} {v : Variable} :
    Made source xs i j s → s.failures = 0 → (init, scope) ∈ s.nested → v ∈ scope.declared →
      v ∈ Action.declarations s.actions
  | .declare _, _, h, _ => absurd h List.not_mem_nil
  | .assign _ _, _, h, _ => absurd h List.not_mem_nil
  | .step _, _, h, _ => absurd h List.not_mem_nil
  | .branch hcondition htable hbody, hfailures, h, hv => by
    rw [failures_branch] at hfailures
    rw [nested_branch, List.mem_cons] at h
    rw [declarations_branch hcondition.onlyUses]
    rcases h with hown | hinner
    · obtain ⟨rfl, rfl⟩ := Prod.mk.inj hown
      rw [htable] at hv
      exact Action.mem_declarations.2 ((hbody.scoped hfailures).declares v hv).mem
    · exact hbody.declares_of_nested hfailures hinner hv
  | .loop hinit _ hsight _ hcondition _ hincrement htable hbody, hfailures, h, hv => by
    obtain ⟨hfirst, hrest⟩ := failures_eq_zero_of_loop hfailures
    rw [nested_loop (fun s hs => (hcondition s hs).nested) fun s hs => (hincrement s hs).nested,
      List.mem_cons, List.mem_append] at h
    rw [declarations_loop (fun s hs => (hcondition s hs).onlyUses) fun s hs =>
      (hincrement s hs).onlyUses]
    rcases h with hown | hinner | hinner
    · obtain ⟨rfl, rfl⟩ := Prod.mk.inj hown
      have hscoped := (hinit.scoped hfirst).append (hsight ▸ hbody.scoped hrest)
      rw [htable, List.flatMap_append] at hv
      rw [← Action.declarations_append]
      exact Action.mem_declarations.2 (hscoped.declares v hv).mem
    · exact List.mem_append_left _ (hinit.declares_of_nested hfirst hinner hv)
    · exact List.mem_append_right _ (hbody.declares_of_nested hrest hinner hv)
  | .define _ _, _, h, _ => absurd h List.not_mem_nil
  | .undefined _, _, h, _ => absurd h List.not_mem_nil

theorem MadeAll.declares_of_nested {xs : List Variable} {i j : Nat} {ss : List Statement}
    {init : Option Statement} {scope : Scope Statement} {v : Variable} :
    MadeAll source xs i j ss → failuresAll ss = 0 → (init, scope) ∈ nestedAll ss →
      v ∈ scope.declared → v ∈ Action.declarations (actionsAll ss)
  | .nil _, _, h, _ => absurd h List.not_mem_nil
  | .cons _ hfirst hrest, hfailures, h, hv => by
    rw [failuresAll_cons, Nat.add_eq_zero_iff] at hfailures
    rw [nestedAll_cons, List.mem_append] at h
    rw [actionsAll, Action.declarations_append, List.mem_append]
    exact h.imp (fun h => hfirst.declares_of_nested hfailures.1 h hv)
      fun h => hrest.declares_of_nested hfailures.2 h hv

end

/-! ### From actions to calls -/

namespace Call

theorem action?_eq_object (before : List Call) (c : Call) (v : Variable) :
    action? before c = some (.object v) ↔ c = .object v := by
  cases c <;> simp [action?]

theorem action?_eq_enter (before : List Call) (c : Call) :
    action? before c = some .enter ↔ c = .enterScope := by
  cases c <;> simp [action?]

theorem action?_eq_leave (before : List Call) (c : Call) :
    action? before c = some .leave ↔ c = .leaveScope := by
  cases c <;> simp [action?]

theorem action?_eq_declare {before : List Call} {c : Call} {v? : Option Variable}
    (h : action? before c = some (.declare v?)) :
    ∃ handle, c = .declare handle ∧ target? before handle = v? := by
  cases c with
  | declare handle => exact ⟨handle, rfl, Action.declare.inj (Option.some.inj h)⟩
  | _ => simp [action?] at h

end Call

namespace Action

variable {before calls : List Call} {v : Variable}

/-- Every action is that of one of the calls. -/
theorem ofCalls_eq_append_cons {as bs : List Action} {a : Action}
    (h : ofCalls before calls = as ++ a :: bs) :
    ∃ first c rest, calls = first ++ c :: rest ∧ Call.action? (before ++ first) c = some a ∧
      ofCalls (before ++ first ++ [c]) rest = bs := by
  induction calls generalizing before as with
  | nil => simp [ofCalls] at h
  | cons c calls ih =>
    have hlater (as' : List Action) (h : ofCalls (before ++ [c]) calls = as' ++ a :: bs) :
        ∃ first c' rest, c :: calls = first ++ c' :: rest ∧
          Call.action? (before ++ first) c' = some a ∧
            ofCalls (before ++ first ++ [c']) rest = bs := by
      obtain ⟨first, c', rest, rfl, hc', hrest⟩ := ih h
      exact ⟨c :: first, c', rest, rfl, by simpa using hc', by simpa using hrest⟩
    rw [ofCalls] at h
    cases hc : Call.action? before c with
    | none =>
      rw [hc] at h
      exact hlater as h
    | some a' =>
      rw [hc] at h
      cases as with
      | nil =>
        obtain ⟨rfl, hrest⟩ := List.cons.inj h
        exact ⟨[], c, calls, rfl, by rwa [List.append_nil], by rwa [List.append_nil]⟩
      | cons a'' as => exact hlater as (List.cons.inj h).2

theorem staysOpen_of_stays (h : Stays (ofCalls before calls)) :
    StaysOpen .enterScope .leaveScope calls := by
  rintro mid ⟨rest, rfl⟩
  rw [ofCalls_append] at h
  have hle := h _ (List.prefix_append _ _)
  rwa [count_ofCalls Call.action?_eq_enter, count_ofCalls Call.action?_eq_leave] at hle

/-- A variable that is declared in a scope that is still open. -/
theorem Declares.of_calls (h : Declares (ofCalls [] calls) v) :
    ∃ first handle between, calls = first ++ .declare handle :: between ∧
      Call.target? first handle = some v ∧ StaysOpen .enterScope .leaveScope between := by
  obtain ⟨as, bs, hactions, hstays⟩ := h
  obtain ⟨first, c, between, rfl, hc, rfl⟩ := ofCalls_eq_append_cons hactions
  obtain ⟨handle, rfl, hhandle⟩ := Call.action?_eq_declare hc
  exact ⟨first, handle, between, rfl, hhandle, staysOpen_of_stays hstays⟩

/-- The declaration by a call comes between those before and after the call. -/
theorem declarations_ofCalls {first after : List Call} {handle : Nat}
    (h : Call.target? first handle = some v) :
    declarations (ofCalls [] (first ++ .declare handle :: after)) =
      declarations (ofCalls [] first) ++
        v :: declarations (ofCalls (first ++ [.declare handle]) after) := by
  rw [ofCalls_append, declarations_append, ofCalls, Call.action?, List.nil_append, h]
  rfl

/-- If no variable is declared twice, there is only one call that declares it. -/
theorem eq_of_declarations_nodup {first first' after after' : List Call} {handle handle' : Nat}
    (hnodup : (declarations (ofCalls [] calls)).Nodup)
    (h : calls = first ++ .declare handle :: after) (hv : Call.target? first handle = some v)
    (h' : calls = first' ++ .declare handle' :: after')
    (hv' : Call.target? first' handle' = some v) : first = first' := by
  have honce {first mid after : List Call} {handle handle' : Nat}
      (h : calls = (first ++ .declare handle :: mid) ++ .declare handle' :: after)
      (hv : Call.target? first handle = some v)
      (hv' : Call.target? (first ++ .declare handle :: mid) handle' = some v) : False := by
    rw [h, declarations_ofCalls hv', declarations_ofCalls hv] at hnodup
    simp [List.nodup_append] at hnodup
  rcases cases_append_cons_eq_append_cons (h.symm.trans h') with
    ⟨hsame, -⟩ | ⟨mid, rfl⟩ | ⟨mid, rfl⟩
  · exact hsame
  · exact (honce h hv' hv).elim
  · exact (honce h' hv hv').elim

end Action

namespace Parser

/-- A variable that the calls are about, or that a scope has, is declared. -/
theorem mem_declarations_of_calls {p : Parser} {j : Nat} {v : Variable}
    (hmade : MadeAll source [] 0 j p.scopes.outermost.statements)
    (htable : p.scopes.outermost.declared = p.scopes.outermost.statements.flatMap declared)
    (hfailures : failuresAll p.scopes.outermost.statements = 0)
    (h : .object v ∈ p.calls ∨ ∃ x ∈ p.scopes.outermost.nested, v ∈ x.2.declared) :
    v ∈ Action.declarations (Action.ofCalls [] p.calls) := by
  have hscoped := hmade.scoped hfailures
  rw [actions_of_calls hmade]
  rcases h with hobject | ⟨⟨init, scope⟩, hscope, hv⟩
  · have hmem : .object v ∈ actionsAll p.scopes.outermost.statements := by
      rw [← actions_of_calls hmade, ← List.count_pos_iff, Action.count_ofCalls fun before c =>
        Call.action?_eq_object before c v]
      exact List.count_pos_iff.2 hobject
    exact Action.mem_declarations.2 ((hscoped.objects v hmem).resolve_left List.not_mem_nil)
  · rcases List.mem_cons.1 hscope with hroot | hinner
    · obtain ⟨rfl, rfl⟩ := Prod.mk.inj hroot
      rw [htable] at hv
      exact Action.mem_declarations.2 (hscoped.declares v hv).mem
    · exact hmade.declares_of_nested hfailures hinner hv

/-- The calls of a program that was read without an error use only variables that were declared
before in a scope that has not been left since, and declare every variable, whether it is used or
only stands in a scope, exactly once. -/
theorem calls_scoped (file : Path) (bytes : ByteArray) :
    ∃ p, (ofSource (.ofBytes file bytes)).program = .ok p ∧ (p.scanner.errorCount = 0 →
      (∀ before handle l after, p.calls = before ++ .reference handle l :: after →
        ∃ v, Call.target? before handle = some v ∧
          ∃ first handle' between, before = first ++ .declare handle' :: between ∧
            Call.target? first handle' = some v ∧ StaysOpen .enterScope .leaveScope between) ∧
      ∀ v, (.object v ∈ p.calls ∨ ∃ x ∈ p.scopes.outermost.nested, v ∈ x.2.declared) →
        ∃! first, ∃ handle after, p.calls = first ++ .declare handle :: after ∧
          Call.target? first handle = some v) := by
  obtain ⟨p, j, hp, htable, hmade, herrors⟩ := program_made (.ofBytes file bytes)
  refine ⟨p, hp, fun hnone => ?_⟩
  have hfailures : failuresAll p.scopes.outermost.statements = 0 :=
    Nat.le_zero.1 (hnone ▸ herrors)
  constructor
  · intro before handle l after hcalls
    have hbound := (hmade.scoped hfailures).bound
    rw [← actions_of_calls hmade, hcalls, Action.ofCalls_append] at hbound
    obtain ⟨v, hv, hdeclares⟩ := hbound _ _ _ rfl
    exact ⟨v, hv, (hdeclares.resolve_left List.not_mem_nil).of_calls⟩
  · intro v hv
    have hdistinct := hmade.distinct
    rw [← actions_of_calls hmade] at hdistinct
    have hmem := Action.mem_declarations.1 (mem_declarations_of_calls hmade htable hfailures hv)
    obtain ⟨as, bs, hsplit⟩ := List.append_of_mem hmem
    obtain ⟨first, c, after, hcalls, hc, -⟩ := Action.ofCalls_eq_append_cons hsplit
    obtain ⟨handle, rfl, hhandle⟩ := Call.action?_eq_declare hc
    refine ⟨first, ⟨handle, after, hcalls, hhandle⟩, ?_⟩
    rintro first' ⟨handle', after', hcalls', hhandle'⟩
    exact Action.eq_of_declarations_nodup hdistinct.nodup hcalls' hhandle' hcalls hhandle

/-- The condition of a branch is lowered after its body, and uses a variable that was declared before
the loop. -/
theorem calls_scoped_condition :
    let source := "float x = 1;\nfor float i = x; i < 3; i++ \x7b x = x + i \x7d\n" ++
      "if x > 2 \x7b float i = x \x7d"
    let x : Variable := ⟨"x", ⟨⟨6, 0, 6⟩, ⟨"main.rin"⟩⟩⟩
    ∃ p before l after first handle between,
      (ofSource (.ofBytes ⟨"main.rin"⟩ source.toUTF8)).program = .ok p ∧
        p.scanner.errorCount = 0 ∧ p.calls = before ++ .reference 46 l :: after ∧
          before = first ++ .declare handle :: between ∧
            StaysOpen .enterScope .leaveScope between ∧
              ∃! first, ∃ handle after, p.calls = first ++ .declare handle :: after ∧
                Call.target? first handle = some x := by
  intro source x
  obtain ⟨p, hp, hscoped⟩ := calls_scoped ⟨"main.rin"⟩ source.toUTF8
  let l : Location := ⟨⟨58, 2, 3⟩, ⟨"main.rin"⟩⟩
  have hcalls : ((ofSource (.ofBytes ⟨"main.rin"⟩ source.toUTF8)).program.toOption.map fun p =>
      (p.scanner.errorCount, p.calls.contains (.reference 46 l), p.calls.contains (.object x))) =
        some (0, true, true) := by
    decide +kernel
  rw [hp] at hcalls
  obtain ⟨hnone, hrest⟩ := Prod.mk.inj (Option.some.inj hcalls)
  obtain ⟨hreference, hobject⟩ := Prod.mk.inj hrest
  obtain ⟨hbound, honce⟩ := hscoped hnone
  obtain ⟨before, after, hsplit⟩ := List.append_of_mem (List.contains_iff_mem.1 hreference)
  obtain ⟨v, -, first, handle, between, hbetween, -, hopen⟩ := hbound before 46 l after hsplit
  exact ⟨p, before, l, after, first, handle, between, hp, hnone, hsplit, hbetween, hopen,
    honce x (.inl (List.contains_iff_mem.1 hobject))⟩

end Parser

end FloatLang
