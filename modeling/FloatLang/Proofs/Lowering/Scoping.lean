import FloatLang.Proofs.Lists
import FloatLang.Proofs.Lowering.Actions

/-!
# Variables are declared before they are used

The actions of a program without failures use only variables that were declared before, while the
scope of the declaration is still open. The body of a branch is lowered before its condition, but
the condition sees nothing of the body; the clauses of a loop are lowered inside its scope and
before its body.

## Main definitions

* `StaysOpen` — no more scopes are left than were entered
* `Action.Declares` — a variable is declared in a scope that stays open
* `Action.Bound`, `Action.Scoped` — uses of declared variables

## Main results

* `Made.scoped`, `MadeAll.scoped` — what is made of tokens uses declared variables
-/

namespace FloatLang

/-! ### Scopes that stay open -/

/-- No more scopes are left than have been entered before, so that the scope around stays open. -/
def StaysOpen {α : Type} [BEq α] (enter leave : α) (xs : List α) : Prop :=
  ∀ mid, mid <+: xs → mid.count leave ≤ mid.count enter

section StaysOpen

variable {α : Type} [BEq α] {enter leave : α} {xs ys : List α}

theorem staysOpen_of_not_mem [LawfulBEq α] (h : leave ∉ xs) : StaysOpen enter leave xs := by
  intro mid hmid
  rw [List.count_eq_zero.2 fun hleave => h (hmid.subset hleave)]
  exact Nat.zero_le _

theorem StaysOpen.of_prefix (h : StaysOpen enter leave ys) (hxs : xs <+: ys) :
    StaysOpen enter leave xs :=
  fun _ hmid => h _ (hmid.trans hxs)

theorem StaysOpen.append (hxs : StaysOpen enter leave xs) (hys : StaysOpen enter leave ys) :
    StaysOpen enter leave (xs ++ ys) := by
  intro mid hmid
  rcases List.prefix_or_prefix_of_prefix hmid (List.prefix_append xs ys) with h | ⟨rest, rfl⟩
  · exact hxs mid h
  · have hleft := hxs xs (List.prefix_refl _)
    have hright := hys rest ((List.prefix_append_right_inj xs).1 hmid)
    rw [List.count_append, List.count_append]
    omega

/-- A scope that is entered and left again. -/
theorem StaysOpen.enclosed [LawfulBEq α] (h : StaysOpen enter leave xs) (hne : enter ≠ leave) :
    StaysOpen enter leave ([enter] ++ xs ++ [leave]) := by
  have hopened : StaysOpen enter leave ([enter] ++ xs) :=
    (staysOpen_of_not_mem (by simpa using hne.symm)).append h
  intro mid hmid
  rcases List.prefix_concat_iff.1 hmid with rfl | hmid
  · have hle := h xs (List.prefix_refl _)
    have hleft : [enter].count leave = 0 := List.count_eq_zero.2 (by simpa using hne.symm)
    simp only [List.count_append, List.count_singleton_self, hleft]
    omega
  · exact hopened mid hmid

end StaysOpen

namespace Action

/-- The actions do not leave the scope around them. -/
abbrev Stays (as : List Action) : Prop := StaysOpen .enter .leave as

/-- The variable is declared in a scope that is still open afterwards. -/
def Declares (as : List Action) (v : Variable) : Prop :=
  ∃ before after, as = before ++ .declare (some v) :: after ∧ Stays after

/-- Every use is one of a variable among `xs`, or of one that was declared before in a scope that
is still open. -/
def Bound (xs : List Variable) (as : List Action) : Prop :=
  ∀ before v? after, as = before ++ .use v? :: after →
    ∃ v, v? = some v ∧ (v ∈ xs ∨ Declares before v)

/-- The actions leave open the scope around them, use declared variables only, and declare the
variables `vs`; `xs` are the variables declared before. -/
structure Scoped (xs : List Variable) (as : List Action) (vs : List Variable) : Prop where
  stays : Stays as
  bound : Bound xs as
  declares : ∀ v ∈ vs, Declares as v
  objects : ∀ v, .object v ∈ as → v ∈ xs ∨ .declare (some v) ∈ as

variable {xs ys vs ws : List Variable} {as bs : List Action} {v : Variable}

/-! ### Declared variables -/

theorem Declares.append (h : Declares as v) (hbs : Stays bs) : Declares (as ++ bs) v := by
  obtain ⟨before, after, rfl, hafter⟩ := h
  exact ⟨before, after ++ bs, by simp, hafter.append hbs⟩

theorem Declares.after (h : Declares bs v) (as : List Action) : Declares (as ++ bs) v := by
  obtain ⟨before, after, rfl, hafter⟩ := h
  exact ⟨as ++ before, after, by simp, hafter⟩

theorem Declares.mem (h : Declares as v) : .declare (some v) ∈ as := by
  obtain ⟨before, after, rfl, -⟩ := h
  simp

/-! ### Uses of declared variables -/

theorem bound_of_mem (h : ∀ v?, .use v? ∈ as → ∃ v ∈ xs, v? = some v) : Bound xs as := by
  rintro before v? after rfl
  obtain ⟨v, hv, rfl⟩ := h v? (by simp)
  exact ⟨v, rfl, .inl hv⟩

/-- Actions in a row, of which the later ones may use what the earlier ones have declared. -/
theorem Bound.append (has : Bound xs as) (hbs : Bound ys bs)
    (hys : ∀ v ∈ ys, v ∈ xs ∨ Declares as v) (hstays : Stays bs) : Bound xs (as ++ bs) := by
  intro before v? after h
  rcases cases_append_eq_append_cons h with ⟨middle, hmiddle, -⟩ | ⟨middle, rfl, hmiddle⟩
  · exact has before v? middle hmiddle
  · obtain ⟨v, rfl, hv⟩ := hbs middle v? after hmiddle
    refine ⟨v, rfl, ?_⟩
    rcases hv with hv | hv
    · -- the scope of a declaration among the first actions is still open
      have hprefix : Stays middle := hstays.of_prefix ⟨_, hmiddle.symm⟩
      exact (hys v hv).imp_right fun hdeclares => hdeclares.append hprefix
    · exact .inr (hv.after as)

/-- Leaving a scope uses nothing. -/
theorem Bound.leave (h : Bound xs as) : Bound xs (as ++ [.leave]) := by
  intro before v? after happend
  rcases cases_append_eq_append_cons happend with ⟨middle, hmiddle, -⟩ | ⟨middle, -, hmiddle⟩
  · exact h before v? middle hmiddle
  · have hmem : Action.use v? ∈ [Action.leave] := by
      rw [hmiddle]
      simp
    simp at hmem

theorem Bound.enclosed (h : Bound xs as) (hstays : Stays as) :
    Bound xs ([.enter] ++ as ++ [.leave]) :=
  ((bound_of_mem (by simp)).append h (fun _ hv => .inl hv) hstays).leave

/-! ### Scoped actions -/

theorem scoped_nil (xs : List Variable) : Scoped xs [] [] where
  stays := staysOpen_of_not_mem (by simp)
  bound := bound_of_mem (by simp)
  declares := by simp
  objects := by simp

/-- Actions in a row. -/
theorem Scoped.append (has : Scoped xs as vs) (hbs : Scoped (xs ++ vs) bs ws) :
    Scoped xs (as ++ bs) (vs ++ ws) where
  stays := has.stays.append hbs.stays
  bound := by
    refine has.bound.append hbs.bound (fun v hv => ?_) hbs.stays
    exact (List.mem_append.1 hv).imp_right (has.declares v)
  declares v hv := by
    rcases List.mem_append.1 hv with hv | hv
    · exact (has.declares v hv).append hbs.stays
    · exact (hbs.declares v hv).after as
  objects v hv := by
    rcases List.mem_append.1 hv with hv | hv
    · exact (has.objects v hv).imp_right (List.mem_append_left bs)
    · rcases hbs.objects v hv with hv | hv
      · exact (List.mem_append.1 hv).imp_right fun hv =>
          List.mem_append_left bs (has.declares v hv).mem
      · exact .inr (List.mem_append_right as hv)

/-- Actions in a row, of which the first ones declare nothing. -/
theorem Scoped.append_nil (has : Scoped xs as []) (hbs : Scoped xs bs ws) :
    Scoped xs (as ++ bs) ws :=
  has.append (by rwa [List.append_nil])

/-- A scope that is entered and left declares nothing for what comes after it. -/
theorem Scoped.enclosed (h : Scoped xs as vs) : Scoped xs ([.enter] ++ as ++ [.leave]) [] where
  stays := h.stays.enclosed (by simp)
  bound := h.bound.enclosed h.stays
  declares := by simp
  objects v hv := by
    have hmem : .object v ∈ as := by simpa using hv
    exact (h.objects v hmem).imp_right fun h => by simp [h]

theorem scoped_declare (xs : List Variable) (v : Variable) :
    Scoped xs [.object v, .declare (some v)] [v] where
  stays := staysOpen_of_not_mem (by simp)
  bound := bound_of_mem (by simp)
  declares u hu := by
    obtain rfl := List.mem_singleton.1 hu
    exact ⟨[.object u], [], rfl, staysOpen_of_not_mem (by simp)⟩
  objects u hu := by
    obtain rfl : u = v := by simpa using hu
    exact .inr (by simp)

/-- Uses of variables that are declared. -/
theorem scoped_of_onlyUses (h : OnlyUses xs as) : Scoped xs as [] := by
  obtain ⟨rs, rfl, hrs⟩ := h
  have huses (a : Action) (ha : a ∈ rs.flatMap Reference.actions) :
      ∃ v ∈ xs, a = .object v ∨ a = .use (some v) := by
    obtain ⟨r, hr, ha⟩ := List.mem_flatMap.1 ha
    exact ⟨r.target, hrs r hr, by simpa [Reference.actions] using ha⟩
  refine ⟨staysOpen_of_not_mem fun ha => ?_, bound_of_mem fun v? ha => ?_, by simp, fun v ha => ?_⟩
  · obtain ⟨v, -, hv | hv⟩ := huses _ ha <;> contradiction
  · obtain ⟨v, hv, hobject | huse⟩ := huses _ ha
    · contradiction
    · exact ⟨v, hv, Action.use.inj huse⟩
  · obtain ⟨u, hu, hobject | huse⟩ := huses _ ha
    · obtain rfl := Action.object.inj hobject
      exact .inl hu
    · contradiction

end Action

open Statement

namespace Statement

/-- A variable is declared before it is given its value. -/
theorem scoped_define {xs : List Variable} {v : Variable} {value : Expr} {l l' l'' : Location}
    (hvalue : OnlyUses (xs ++ [v]) value.actions) :
    Action.Scoped xs (compound (declare v) (assign ⟨v, l⟩ value l') l'').actions [v] := by
  have htarget : OnlyUses (xs ++ [v]) (Reference.actions ⟨v, l⟩) := ⟨[⟨v, l⟩], rfl, by simp⟩
  exact (Action.scoped_declare xs v).append (Action.scoped_of_onlyUses (htarget.append hvalue))

/-- The clauses and the body of a loop lie in its scope, and see what the first clause declares. -/
theorem scoped_loop {xs ys vs ws : List Variable} {init condition increment : Option Statement}
    {body : Scope Statement} {l : Location} (hinit : Action.Scoped xs (actionsAll init.toList) vs)
    (hsight : ys = xs ++ vs) (hcondition : ∀ s ∈ condition, OnlyUses ys s.actions)
    (hincrement : ∀ s ∈ increment, OnlyUses ys s.actions)
    (hbody : Action.Scoped ys (actionsAll body.statements) ws) :
    Action.Scoped xs (loop init condition increment body l).actions [] := by
  subst hsight
  have huses := (onlyUses_clause hcondition).append (onlyUses_clause hincrement)
  have hloop := (hinit.append ((Action.scoped_of_onlyUses huses).append_nil hbody)).enclosed
  rw [actions, actionsOf_eq init, actionsIn_eq]
  simpa only [List.append_assoc] using hloop

theorem failures_eq_zero_of_loop {init condition increment : Option Statement}
    {body : Scope Statement} {l : Location}
    (h : (loop init condition increment body l).failures = 0) :
    failuresAll init.toList = 0 ∧ failuresAll body.statements = 0 := by
  simp only [failures, failuresAll, parts, partsOf_eq, partsIn_eq, List.countP_cons,
    List.countP_append] at h ⊢
  omega

end Statement

variable {source : Source}

mutual

/-- A statement without failures, made of tokens, uses declared variables only, and declares its
own. -/
theorem Made.scoped {xs : List Variable} {i j : Nat} {s : Statement} :
    Made source xs i j s → s.failures = 0 → Action.Scoped xs s.actions s.declared
  | .declare _, _ => Action.scoped_declare _ _
  | .assign htarget hvalue, _ =>
    Action.scoped_of_onlyUses (htarget.onlyUses.append hvalue.onlyUses)
  | .step htarget, _ => Action.scoped_of_onlyUses htarget.onlyUses
  | .branch hcondition _ hbody, hfailures => by
    rw [failures_branch] at hfailures
    rw [actions, actionsIn_eq]
    exact (hbody.scoped hfailures).enclosed.append_nil
      (Action.scoped_of_onlyUses hcondition.onlyUses)
  | .loop hinit _ hsight _ hcondition _ hincrement _ hbody, hfailures => by
    obtain ⟨hfirst, hrest⟩ := failures_eq_zero_of_loop hfailures
    exact scoped_loop (hinit.scoped hfirst) hsight (fun s hs => (hcondition s hs).onlyUses)
      (fun s hs => (hincrement s hs).onlyUses) (hbody.scoped hrest)
  | .define _ hvalue, _ => scoped_define hvalue.onlyUses
  | .undefined _, hfailures => by
    simp [failures, parts, Statement.isInvalid] at hfailures

theorem MadeAll.scoped {xs : List Variable} {i j : Nat} {ss : List Statement} :
    MadeAll source xs i j ss → failuresAll ss = 0 →
      Action.Scoped xs (actionsAll ss) (ss.flatMap declared)
  | .nil _, _ => Action.scoped_nil _
  | .cons _ hfirst hrest, hfailures => by
    rw [failuresAll_cons, Nat.add_eq_zero_iff] at hfailures
    exact (hfirst.scoped hfailures.1).append (hrest.scoped hfailures.2)

end

end FloatLang
