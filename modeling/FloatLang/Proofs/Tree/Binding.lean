import Mathlib.Data.List.Nodup
import FloatLang.Proofs.Tree.Tables

/-!
# Names are bound where they stand

A name refers to the one variable of that name that the scopes around it have declared up to its
place, whatever these scopes declare further on and whatever scopes were closed before. The tables
of a tree are those at the end of parsing, so that places have to tell what was declared when the
name was read.

## Main definitions

* `Use.Bound` — a use refers to the one variable it can mean
* `Sees` — which variables of the scopes around were declared before, and which come later

## Main results

* `Sees.eq_of_name` — only one variable of a name was declared before a place
* `Made.bound`, `MadeAll.boundAll` — the uses in what is made of tokens are bound
* `Parser.uses_bound` — the uses in every program are
-/

namespace FloatLang

/-- A use refers to the one variable of its name that the scopes around it have declared up to its
place. -/
structure Use.Bound (source : Source) (u : Use) : Prop where
  /-- The name of the variable stands at the place of the use, after the keyword that declares
  it. -/
  tokens : ∃ k m, k < m ∧ source.DeclaresAt k u.reference.target ∧
    source.NamesAt m u.reference.target.name u.reference.location
  /-- The variable is declared further to the front, unless the use is the name in the declaration
  itself. -/
  place : if u.initial then u.reference.target.location = u.reference.location
    else u.reference.target.location.offset < u.reference.location.offset
  only : ∀ v, (v ∈ u.scopes.flatMap Scope.declared ∧ v.name = u.reference.target.name ∧
    v.location.offset ≤ u.reference.location.offset) ↔ v = u.reference.target

/-- Of the scopes `around`, the variables `xs` were declared before the `i`-th token, and those
that are none of `xs` and `ys` are declared from the `j`-th token on only. -/
structure Sees (source : Source) (around : List (Scope Statement)) (xs ys : List Variable)
    (i j : Nat) : Prop where
  before : ∀ v ∈ xs, ∃ k, k + 1 < i ∧ source.DeclaresAt k v
  mem : ∀ v ∈ xs ++ ys, v ∈ around.flatMap Scope.declared
  later : ∀ v ∈ around.flatMap Scope.declared, v ∈ xs ++ ys ∨ ∃ k, j ≤ k ∧ source.DeclaresAt k v
  names : ((xs ++ ys).map Variable.name).Nodup

variable {source : Source} {around : List (Scope Statement)} {xs ys zs : List Variable}
  {i i' j m : Nat}

/-! ### What is seen from a place -/

namespace Sees

theorem mono (h : Sees source around xs ys i j) (hi : i ≤ i') : Sees source around xs ys i' j where
  before v hv := by
    obtain ⟨k, hki, hk⟩ := h.before v hv
    exact ⟨k, Nat.lt_of_lt_of_le hki hi, hk⟩
  mem := h.mem
  later := h.later
  names := h.names

/-- Until the variables `zs` are declared. -/
theorem first (h : Sees source around xs (ys ++ zs) i j)
    (hzs : ∀ v ∈ zs, ∃ k, m ≤ k ∧ source.DeclaresAt k v) (hm : m ≤ j) :
    Sees source around xs ys i m where
  before := h.before
  mem v hv := by
    apply h.mem
    rw [← List.append_assoc]
    exact List.mem_append_left zs hv
  later v hv := by
    rcases h.later v hv with hv | ⟨k, hjk, hk⟩
    · rw [← List.append_assoc] at hv
      exact (List.mem_append.1 hv).imp_right (hzs v)
    · exact .inr ⟨k, Nat.le_trans hm hjk, hk⟩
  names := by
    have hnames := h.names
    rw [← List.append_assoc, List.map_append] at hnames
    exact (List.nodup_append.1 hnames).1

/-- Once the variables `ys` are declared. -/
theorem rest (h : Sees source around xs (ys ++ zs) i j)
    (hys : ∀ v ∈ ys, ∃ k, k + 1 < m ∧ source.DeclaresAt k v) (hm : i ≤ m) :
    Sees source around (xs ++ ys) zs m j where
  before v hv := (List.mem_append.1 hv).elim ((h.mono hm).before v) (hys v)
  mem := by rw [List.append_assoc]; exact h.mem
  later := by rw [List.append_assoc]; exact h.later
  names := by rw [List.append_assoc]; exact h.names

/-- From inside a scope that declares the variables `ys`. -/
theorem enter {body : Scope Statement} (h : Sees source around xs [] i j)
    (hbody : body.declared = ys) (hnames : ((xs ++ ys).map Variable.name).Nodup) :
    Sees source (body :: around) xs ys i j where
  before := h.before
  mem v hv := by
    rw [List.flatMap_cons, hbody, List.mem_append]
    exact (List.mem_append.1 hv).symm.imp_right fun hv => h.mem v (List.mem_append_left [] hv)
  later v hv := by
    rw [List.flatMap_cons, hbody, List.mem_append] at hv
    rcases hv with hv | hv
    · exact .inl (List.mem_append_right xs hv)
    · rcases h.later v hv with hv | hv
      · rw [List.append_nil] at hv
        exact .inl (List.mem_append_left ys hv)
      · exact .inr hv
  names := hnames

theorem nodup (h : Sees source around xs [] i j) : (xs.map Variable.name).Nodup := by
  have hnames := h.names
  rwa [List.append_nil] at hnames

/-- Only one variable of a name was declared up to a place before the `j`-th token: if there were
another one, it would stand further on. -/
theorem eq_of_name (h : Sees source around xs ys i j) {u v : Variable} {k : Nat} {x : String}
    {l : Location} (hv : v ∈ xs ++ ys) (hkj : k < j) (hk : source.NamesAt k x l)
    (hu : u ∈ around.flatMap Scope.declared) (hname : u.name = v.name)
    (hle : u.location.offset ≤ l.offset) : u = v := by
  rcases h.later u hu with hmem | ⟨k', hjk', hk'⟩
  · exact List.inj_on_of_nodup_map h.names hmem hv hname
  · have hlt := hk.offset_lt (Nat.lt_succ_of_lt (Nat.lt_of_lt_of_le hkj hjk'))
    rw [hk'.names.location] at hlt
    omega

/-- A name that refers to a variable declared before is bound. -/
theorem bound_of_used {r : Reference} (h : Sees source around xs [] i j)
    (hr : UsedIn source xs i j r) : Use.Bound source ⟨r, around, false⟩ := by
  obtain ⟨k, hki, hk⟩ := h.before r.target hr.target
  obtain ⟨m, him, hmj, hm⟩ := hr.names
  have hmem : r.target ∈ xs ++ [] := List.mem_append_left [] hr.target
  have hearlier : r.target.location.offset < r.location.offset := by
    have hlt := hk.names.offset_lt (Nat.lt_of_lt_of_le hki him)
    rwa [hm.location] at hlt
  refine ⟨⟨k, m, by omega, hk, hm⟩, hearlier, fun v => ⟨?_, ?_⟩⟩
  · rintro ⟨hv, hname, hle⟩
    exact h.eq_of_name hmem hmj hm hv hname hle
  · rintro rfl
    exact ⟨h.mem _ hmem, rfl, Nat.le_of_lt hearlier⟩

/-- The name in a declaration with a value is bound to the variable that is declared. -/
theorem bound_of_declared {v : Variable} (h : Sees source around xs [v] i j)
    (hv : DeclaredIn source xs i j v) : Use.Bound source ⟨⟨v, v.location⟩, around, true⟩ := by
  obtain ⟨k, -, hkj, hk⟩ := hv.declares
  have hmem : v ∈ xs ++ [v] := List.mem_append_right xs (List.mem_singleton_self v)
  refine ⟨⟨k, k + 1, Nat.lt_succ_self k, hk, hk.names⟩, rfl, fun u => ⟨?_, ?_⟩⟩
  · rintro ⟨hu, hname, hle⟩
    exact h.eq_of_name hmem hkj hk.names hu hname hle
  · rintro rfl
    exact ⟨h.mem _ hmem, rfl, Nat.le_refl _⟩

theorem bound_of_read {e : Expr} (h : Sees source around xs [] i j) (he : ReadIn source xs i j e) :
    ∀ u ∈ e.uses around, u.Bound source := by
  intro u hu
  obtain ⟨r, hr, rfl⟩ := List.mem_map.1 hu
  exact h.bound_of_used (he.used r hr)

/-- The value in a declaration sees the variable that is declared. -/
theorem bound_of_define {v : Variable} {value : Expr} (h : Sees source around xs [v] i j)
    (hv : DeclaredIn source xs i m v) (hvalue : ReadIn source (xs ++ [v]) m j value) :
    ∀ u ∈ ⟨⟨v, v.location⟩, around, true⟩ :: value.uses around, u.Bound source := by
  obtain ⟨k, -, hkm, hk⟩ := hv.declares
  have hbefore : ∀ u ∈ [v], ∃ k, k + 1 < m ∧ source.DeclaresAt k u := by
    intro u hu
    obtain rfl := List.mem_singleton.1 hu
    exact ⟨k, hkm, hk⟩
  have hinside : Sees source around (xs ++ [v]) [] m j := h.rest hbefore (Nat.le_of_lt hv.lt)
  exact List.forall_mem_cons.2
    ⟨h.bound_of_declared (hv.mono hvalue.le), hinside.bound_of_read hvalue⟩

end Sees

/-! ### The places of declarations -/

theorem Made.declares {s : Statement} (h : Made source xs i j s) :
    ∀ v ∈ s.declared, ∃ k, i ≤ k ∧ k + 1 < j ∧ source.DeclaresAt k v := by
  intro u hu
  rcases h.declared_cases with hnone | ⟨v, hone, hv⟩
  · rw [hnone] at hu
    exact absurd hu List.not_mem_nil
  · rw [hone] at hu
    obtain rfl := List.mem_singleton.1 hu
    exact hv.declares

/-- Statements declare variables by the tokens they are made of. -/
theorem MadeAll.declares {ss : List Statement} (h : MadeAll source xs i j ss) :
    ∀ v ∈ ss.flatMap Statement.declared, ∃ k, i ≤ k ∧ k + 1 < j ∧ source.DeclaresAt k v := by
  induction ss generalizing xs i with
  | nil => exact fun _ hv => absurd hv List.not_mem_nil
  | cons s ss ih =>
    cases h with
    | cons hik hfirst hrest =>
      intro v hv
      rw [List.flatMap_cons, List.mem_append] at hv
      rcases hv with hv | hv
      · obtain ⟨k, hk, hkm, hdeclares⟩ := hfirst.declares v hv
        exact ⟨k, Nat.le_trans hik hk, Nat.lt_of_lt_of_le hkm hrest.le, hdeclares⟩
      · obtain ⟨k, hk, hkj, hdeclares⟩ := ih hrest v hv
        exact ⟨k, Nat.le_trans hik (Nat.le_trans hfirst.le hk), hkj, hdeclares⟩

theorem MadeAll.declares_before {ss : List Statement} (h : MadeAll source xs i j ss) :
    ∀ v ∈ ss.flatMap Statement.declared, ∃ k, k + 1 < j ∧ source.DeclaresAt k v := by
  intro v hv
  obtain ⟨k, -, hkj, hk⟩ := h.declares v hv
  exact ⟨k, hkj, hk⟩

theorem MadeAll.declares_later {ss : List Statement} (h : MadeAll source xs i j ss) (hm : m ≤ i) :
    ∀ v ∈ ss.flatMap Statement.declared, ∃ k, m ≤ k ∧ source.DeclaresAt k v := by
  intro v hv
  obtain ⟨k, hik, -, hk⟩ := h.declares v hv
  exact ⟨k, Nat.le_trans hm hik, hk⟩

/-! ### Uses in statements -/

namespace Statement

theorem usesIn_eq (around : List (Scope Statement)) (body : Scope Statement) :
    usesIn around body = usesAll (body :: around) body.statements := by
  rw [usesIn]

theorem mem_usesOf {clause : Option Statement} {u : Use} (h : u ∈ usesOf around clause) :
    ∃ s ∈ clause, u ∈ s.uses around := by
  cases clause with
  | none => exact absurd h List.not_mem_nil
  | some s => exact ⟨s, rfl, h⟩

theorem uses_loop (init condition increment : Option Statement) (body : Scope Statement)
    (l : Location) :
    (loop init condition increment body l).uses around =
      usesAll (body :: around) init.toList ++ usesOf (body :: around) condition ++
        usesOf (body :: around) increment ++ usesAll (body :: around) body.statements := by
  have hinit : usesOf (body :: around) init = usesAll (body :: around) init.toList := by
    cases init <;> simp [usesOf, usesAll]
  rw [uses, usesIn_eq, hinit]

end Statement

theorem ConditionIn.bound {s : Statement} (h : ConditionIn source xs i j s)
    (hsees : Sees source around xs [] i j) : ∀ u ∈ s.uses around, u.Bound source := by
  obtain ⟨h⟩ := h
  intro u hu
  exact hsees.bound_of_read h u hu

theorem StepIn.bound {s : Statement} (h : StepIn source xs i j s)
    (hsees : Sees source around xs [] i j) : ∀ u ∈ s.uses around, u.Bound source := by
  obtain ⟨h⟩ := h
  exact List.forall_mem_singleton.2 (hsees.bound_of_used h)

/-- The first clause of a loop is read inside its scope, the other clauses see what the first
declares, and the body comes after them all. -/
theorem Sees.loop {init : List Statement} {body : Scope Statement} {a c : Nat}
    (h : Sees source around xs [] i j) (hinit : MadeAll source xs i a init)
    (hsight : ys = xs ++ init.flatMap Statement.declared) (hac : a ≤ c)
    (htable : body.declared = (init ++ body.statements).flatMap Statement.declared)
    (hbody : MadeAll source ys c j body.statements) :
    Sees source (body :: around) xs (init.flatMap Statement.declared) i a ∧
      Sees source (body :: around) ys [] a c ∧
        Sees source (body :: around) ys (body.statements.flatMap Statement.declared) c j := by
  subst hsight
  have hnames := hbody.nodup (hinit.nodup h.nodup)
  rw [List.append_assoc] at hnames
  rw [List.flatMap_append] at htable
  have hinside := h.enter htable hnames
  have hcj := hbody.le
  have hrest : Sees source (body :: around) (xs ++ init.flatMap Statement.declared)
      ([] ++ body.statements.flatMap Statement.declared) a j :=
    hinside.rest hinit.declares_before hinit.le
  refine ⟨?_, ?_, hrest.mono hac⟩
  · exact hinside.first (hbody.declares_later hac) (Nat.le_trans hac hcj)
  · exact hrest.first (hbody.declares_later (Nat.le_refl c)) hcj

open Statement

mutual

/-- The uses in a statement that is made of tokens are bound. -/
theorem Made.bound {xs : List Variable} {i j : Nat} {s : Statement}
    {around : List (Scope Statement)} :
    Made source xs i j s → Sees source around xs s.declared i j →
      ∀ u ∈ s.uses around, u.Bound source
  | .declare _, _ => fun _ hu => absurd hu List.not_mem_nil
  | .assign htarget hvalue, h =>
    List.forall_mem_cons.2 ⟨h.bound_of_used htarget, h.bound_of_read hvalue⟩
  | .step htarget, h => List.forall_mem_singleton.2 (h.bound_of_used htarget)
  | .branch hcondition htable hbody, h => by
    intro u hu
    rw [uses, usesIn_eq, List.mem_append] at hu
    rcases hu with hu | hu
    · exact h.bound_of_read (hcondition.mono (Nat.le_refl i) hbody.le) u hu
    · have hinside := (h.mono hcondition.le).enter htable (hbody.nodup h.nodup)
      exact hbody.boundAll hinside u hu
  | .loop hinit _ hsight hab hcondition hbc hincrement htable hbody, h => by
    obtain ⟨hfirst, hclauses, hinside⟩ :=
      h.loop hinit hsight (Nat.le_trans hab hbc) htable hbody
    intro u hu
    simp only [uses_loop, List.mem_append] at hu
    rcases hu with ((hu | hu) | hu) | hu
    · exact hinit.boundAll hfirst u hu
    · obtain ⟨s, hs, hu⟩ := mem_usesOf hu
      exact ((hcondition s hs).mono (Nat.le_refl _) hbc).bound hclauses u hu
    · obtain ⟨s, hs, hu⟩ := mem_usesOf hu
      exact ((hincrement s hs).mono hab (Nat.le_refl _)).bound hclauses u hu
    · exact hbody.boundAll hinside u hu
  | .define hdeclared hvalue, h => h.bound_of_define hdeclared hvalue
  | .undefined _, _ => fun _ hu => absurd hu List.not_mem_nil

theorem MadeAll.boundAll {xs : List Variable} {i j : Nat} {ss : List Statement}
    {around : List (Scope Statement)} :
    MadeAll source xs i j ss → Sees source around xs (ss.flatMap declared) i j →
      ∀ u ∈ usesAll around ss, u.Bound source
  | .nil _, _ => fun _ hu => absurd hu List.not_mem_nil
  | .cons hle hfirst hrest, h => by
    rw [List.flatMap_cons] at h
    have hhead := (h.first (hrest.declares_later (Nat.le_refl _)) hrest.le).mono hle
    intro u hu
    rw [usesAll, List.mem_append] at hu
    rcases hu with hu | hu
    · exact hfirst.bound hhead u hu
    · refine hrest.boundAll (h.rest (fun v hv => ?_) (Nat.le_trans hle hfirst.le)) u hu
      obtain ⟨k, -, hkm, hk⟩ := hfirst.declares v hv
      exact ⟨k, hkm, hk⟩

end

namespace Parser

/-- Wherever a program uses a variable, the name of the variable stands there, and it is the one
variable of this name that the scopes around have declared up to that place. It was declared
further to the front; only the name in a declaration with a value, which the tree uses as the target
of an assignment, is itself the place of the declaration. -/
theorem uses_bound (file : Path) (bytes : ByteArray) :
    ∃ p, (ofSource (.ofBytes file bytes)).program = .ok p ∧ ∀ u ∈ p.scopes.outermost.uses,
      u.reference.target.name.toList <+:
          (Source.charactersOf bytes).drop u.reference.location.offset ∧
        u.Bound (.ofBytes file bytes) := by
  obtain ⟨p, j, hp, htable, hmade, -⟩ := program_made (.ofBytes file bytes)
  refine ⟨p, hp, fun u hu => ?_⟩
  have hnames := hmade.nodup List.nodup_nil
  have hsees : Sees (.ofBytes file bytes) [] [] [] 0 j :=
    ⟨by simp, by simp, by simp, List.nodup_nil⟩
  have hbound : u.Bound (.ofBytes file bytes) := by
    rw [Scope.uses, usesIn_eq] at hu
    exact hmade.boundAll (hsees.enter htable hnames) u hu
  obtain ⟨-, m, -, -, hm⟩ := hbound.tokens
  exact ⟨hm.spelled, hbound⟩

/-- The name in the second declaration is used at its own place, and the condition refers to it, not
to the variable of the scope that was closed before. -/
theorem uses_bound_after_closed_scope :
    let source := "x = 1;\nif 1 \x7b float i = 2 \x7d\nfor float i = 1; i < 3; \x7b \x7d"
    ∃ p u, (ofSource (.ofBytes ⟨"main.rin"⟩ source.toUTF8)).program = .ok p ∧
      u ∈ p.scopes.outermost.uses ∧ u.reference.location.offset = 45 ∧
        u.reference.target.location.offset = 38 ∧ u.Bound (.ofBytes ⟨"main.rin"⟩ source.toUTF8) := by
  intro source
  obtain ⟨p, hp, hbound⟩ := uses_bound ⟨"main.rin"⟩ source.toUTF8
  have huses : ((ofSource (.ofBytes ⟨"main.rin"⟩ source.toUTF8)).program.toOption.map fun p =>
      p.scopes.outermost.uses.map fun u =>
        (u.reference.target.location.offset, u.reference.location.offset)) =
          some [(20, 20), (38, 38), (38, 45)] := by
    decide +kernel
  rw [hp] at huses
  have hlist : p.scopes.outermost.uses.map (fun u =>
      (u.reference.target.location.offset, u.reference.location.offset)) =
        [(20, 20), (38, 38), (38, 45)] := Option.some.inj huses
  have hmem : (38, 45) ∈ p.scopes.outermost.uses.map fun u =>
      (u.reference.target.location.offset, u.reference.location.offset) := by
    simp [hlist]
  obtain ⟨u, hu, hoffsets⟩ := List.mem_map.1 hmem
  obtain ⟨htarget, hplace⟩ := Prod.mk.inj hoffsets
  exact ⟨p, u, hp, hu, hplace, htarget, (hbound u hu).2⟩

/-- The name in a declaration with a value is used where it is declared, not after it. -/
theorem not_declared_before_initial_value :
    let source := "float x = 1"
    ∃ p u, (ofSource (.ofBytes ⟨"main.rin"⟩ source.toUTF8)).program = .ok p ∧
      u ∈ p.scopes.outermost.uses ∧
        ¬ u.reference.target.location.offset < u.reference.location.offset := by
  intro source
  obtain ⟨p, -, hp, -⟩ := program_made (.ofBytes ⟨"main.rin"⟩ source.toUTF8)
  have huses : ((ofSource (.ofBytes ⟨"main.rin"⟩ source.toUTF8)).program.toOption.map fun p =>
      p.scopes.outermost.uses.map fun u =>
        (u.reference.target.location.offset, u.reference.location.offset)) = some [(6, 6)] := by
    decide +kernel
  rw [hp] at huses
  have hlist : p.scopes.outermost.uses.map (fun u =>
      (u.reference.target.location.offset, u.reference.location.offset)) =
        [(6, 6)] := Option.some.inj huses
  have hmem : (6, 6) ∈ p.scopes.outermost.uses.map fun u =>
      (u.reference.target.location.offset, u.reference.location.offset) := by
    simp [hlist]
  obtain ⟨u, hu, hoffsets⟩ := List.mem_map.1 hmem
  obtain ⟨htarget, hplace⟩ := Prod.mk.inj hoffsets
  exact ⟨p, u, hp, hu, by omega⟩

end Parser

end FloatLang
