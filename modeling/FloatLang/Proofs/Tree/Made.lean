import FloatLang.Proofs.Scanner.Names
import FloatLang.Proofs.Tree.Parts

/-!
# Statements made of tokens

What a parser reads is made of the tokens it takes, in sight of the variables declared before. This
relation says so, statement by statement: which tokens each part comes from, which variables its
names refer to, and which variables it declares. It holds of all that is left in a tree, whatever
errors there were, and every other property of trees that parsers leave follows from it.

## Main definitions

* `UsedIn`, `ReadIn`, `DeclaredIn` — a use, an expression and a declaration among tokens
* `ConditionIn`, `StepIn` — the clauses of a loop but the first, among tokens
* `Made`, `MadeAll` — a statement, and statements in a row, made of tokens

## Main results

* `Made.le`, `MadeAll.le` — tokens are taken in order
* `Made.declared_cases` — what a statement declares
-/

namespace FloatLang

variable (source : Source)

/-- The tokens of numbers `k` and `k + 1` begin a declaration of the variable. -/
structure Source.DeclaresAt (k : Nat) (v : Variable) : Prop where
  keyword : (source.tokenAt k).kind = .keyword .float
  names : source.NamesAt (k + 1) v.name v.location

/-- A name from the `i`-th token on and before the `j`-th that refers to one of the variables
`xs`. -/
structure UsedIn (xs : List Variable) (i j : Nat) (r : Reference) : Prop where
  target : r.target ∈ xs
  names : ∃ k, i ≤ k ∧ k < j ∧ source.NamesAt k r.target.name r.location

/-- An expression made of tokens from the `i`-th on and before the `j`-th. -/
structure ReadIn (xs : List Variable) (i j : Nat) (e : Expr) : Prop where
  le : i ≤ j
  isProper : e.isProper = true
  used : ∀ r ∈ e.references, UsedIn source xs i j r

/-- A declaration from the `i`-th token on and before the `j`-th, of a name that none of the
variables `xs` has. -/
structure DeclaredIn (xs : List Variable) (i j : Nat) (v : Variable) : Prop where
  fresh : ∀ u ∈ xs, u.name ≠ v.name
  declares : ∃ k, i ≤ k ∧ k + 1 < j ∧ source.DeclaresAt k v

/-- The condition of a loop, made of tokens from the `i`-th on and before the `j`-th. -/
inductive ConditionIn (xs : List Variable) (i j : Nat) : Statement → Prop
  | intro {e : Expr} {l l' : Location} (h : ReadIn source xs i j e) :
      ConditionIn xs i j (.expr (.condition e l) l')

/-- The last clause of a loop, made of tokens from the `i`-th on and before the `j`-th. -/
inductive StepIn (xs : List Variable) (i j : Nat) : Statement → Prop
  | intro {direction : Direction} {r : Reference} {l : Location} (h : UsedIn source xs i j r) :
      StepIn xs i j (.step direction r l)

mutual

/-- A statement made of tokens from the `i`-th on and before the `j`-th, with the variables `xs` in
sight. -/
inductive Made : List Variable → Nat → Nat → Statement → Prop
  | declare {xs : List Variable} {i j : Nat} {v : Variable} (h : DeclaredIn source xs i j v) :
      Made xs i j (.declare v)
  | assign {xs : List Variable} {i j : Nat} {target : Reference} {value : Expr} {l : Location}
      (htarget : UsedIn source xs i j target) (hvalue : ReadIn source xs i j value) :
      Made xs i j (.assign target value l)
  | step {xs : List Variable} {i j : Nat} {direction : Direction} {target : Reference}
      {l : Location} (htarget : UsedIn source xs i j target) : Made xs i j (.step direction target l)
  | branch {xs : List Variable} {i m j : Nat} {condition : Condition} {body : Scope Statement}
      {l : Location} (hcondition : ReadIn source xs i m condition.inner)
      (htable : body.declared = body.statements.flatMap Statement.declared)
      (hbody : MadeAll xs m j body.statements) : Made xs i j (.branch condition body l)
  | loop {xs ys : List Variable} {i a b c j : Nat} {init condition increment : Option Statement}
      {body : Scope Statement} {l : Location} (hinit : MadeAll xs i a init.toList)
      (hcomplete : ∀ s ∈ init, Parser.initFailed s = false)
      (hsight : ys = xs ++ init.toList.flatMap Statement.declared) (hab : a ≤ b)
      (hcondition : ∀ s ∈ condition, ConditionIn source ys a b s) (hbc : b ≤ c)
      (hincrement : ∀ s ∈ increment, StepIn source ys b c s)
      (htable : body.declared = (init.toList ++ body.statements).flatMap Statement.declared)
      (hbody : MadeAll ys c j body.statements) :
      Made xs i j (.loop init condition increment body l)
  | define {xs : List Variable} {i m j : Nat} {v : Variable} {value : Expr} {l l' : Location}
      (hdeclared : DeclaredIn source xs i m v) (hvalue : ReadIn source (xs ++ [v]) m j value) :
      Made xs i j (.compound (.declare v) (.assign ⟨v, v.location⟩ value l) l')
  | undefined {xs : List Variable} {i j : Nat} {v : Variable} {l l' : Location}
      (hdeclared : DeclaredIn source xs i j v) :
      Made xs i j (.compound (.declare v) (.invalid l) l')

/-- Statements in a row, made of tokens one after the other. Each has the variables in sight that
the ones before it declare. -/
inductive MadeAll : List Variable → Nat → Nat → List Statement → Prop
  | nil {xs : List Variable} {i j : Nat} (h : i ≤ j) : MadeAll xs i j []
  | cons {xs : List Variable} {i k m j : Nat} {s : Statement} {ss : List Statement} (h : i ≤ k)
      (hfirst : Made xs k m s) (hrest : MadeAll (xs ++ s.declared) m j ss) : MadeAll xs i j (s :: ss)

end

variable {source} {xs : List Variable} {i i' j j' m : Nat}

theorem UsedIn.mono {r : Reference} (h : UsedIn source xs i j r) (hi : i' ≤ i) (hj : j ≤ j') :
    UsedIn source xs i' j' r where
  target := h.target
  names := by
    obtain ⟨k, hik, hkj, hnames⟩ := h.names
    exact ⟨k, Nat.le_trans hi hik, Nat.lt_of_lt_of_le hkj hj, hnames⟩

theorem UsedIn.lt {r : Reference} (h : UsedIn source xs i j r) : i < j := by
  obtain ⟨k, hik, hkj, -⟩ := h.names
  exact Nat.lt_of_le_of_lt hik hkj

theorem ReadIn.mono {e : Expr} (h : ReadIn source xs i j e) (hi : i' ≤ i) (hj : j ≤ j') :
    ReadIn source xs i' j' e where
  le := Nat.le_trans hi (Nat.le_trans h.le hj)
  isProper := h.isProper
  used r hr := (h.used r hr).mono hi hj

theorem DeclaredIn.mono {v : Variable} (h : DeclaredIn source xs i j v) (hj : j ≤ j') :
    DeclaredIn source xs i j' v where
  fresh := h.fresh
  declares := by
    obtain ⟨k, hik, hkj, hdeclares⟩ := h.declares
    exact ⟨k, hik, Nat.lt_of_lt_of_le hkj hj, hdeclares⟩

theorem DeclaredIn.lt {v : Variable} (h : DeclaredIn source xs i j v) : i < j := by
  obtain ⟨k, hik, hkj, -⟩ := h.declares
  omega

theorem ConditionIn.mono {s : Statement} (h : ConditionIn source xs i j s) (hi : i' ≤ i)
    (hj : j ≤ j') : ConditionIn source xs i' j' s := by
  obtain ⟨h⟩ := h
  exact ⟨h.mono hi hj⟩

theorem StepIn.mono {s : Statement} (h : StepIn source xs i j s) (hi : i' ≤ i) (hj : j ≤ j') :
    StepIn source xs i' j' s := by
  obtain ⟨h⟩ := h
  exact ⟨h.mono hi hj⟩

theorem ConditionIn.failures {s : Statement} (h : ConditionIn source xs i j s) :
    s.failures = 0 := by
  cases h
  rfl

theorem StepIn.failures {s : Statement} (h : StepIn source xs i j s) : s.failures = 0 := by
  cases h
  rfl

theorem MadeAll.of_le {ss : List Statement} (h : MadeAll source xs i j ss) (hi : i' ≤ i) :
    MadeAll source xs i' j ss := by
  cases h with
  | nil h => exact .nil (Nat.le_trans hi h)
  | cons h first rest => exact .cons (Nat.le_trans hi h) first rest

mutual

/-- A statement is made of tokens in order. -/
theorem Made.le {xs : List Variable} {i j : Nat} {s : Statement} : Made source xs i j s → i ≤ j
  | .declare h => Nat.le_of_lt h.lt
  | .assign target _ => Nat.le_of_lt target.lt
  | .step target => Nat.le_of_lt target.lt
  | .branch condition _ body => Nat.le_trans condition.le body.le
  | .loop init _ _ hab _ hbc _ _ body =>
    Nat.le_trans init.le (Nat.le_trans hab (Nat.le_trans hbc body.le))
  | .define declared value => Nat.le_trans (Nat.le_of_lt declared.lt) value.le
  | .undefined declared => Nat.le_of_lt declared.lt

/-- Statements in a row are made of tokens in order. -/
theorem MadeAll.le {xs : List Variable} {i j : Nat} {ss : List Statement} :
    MadeAll source xs i j ss → i ≤ j
  | .nil h => h
  | .cons h first rest => Nat.le_trans h (Nat.le_trans first.le rest.le)

end

/-- A statement declares one variable in the scope around it, or none. -/
theorem Made.declared_cases {s : Statement} (h : Made source xs i j s) :
    s.declared = [] ∨ ∃ v, s.declared = [v] ∧ DeclaredIn source xs i j v := by
  cases h with
  | declare hv => exact .inr ⟨_, rfl, hv⟩
  | define hv hvalue => exact .inr ⟨_, rfl, hv.mono hvalue.le⟩
  | undefined hv => exact .inr ⟨_, rfl, hv⟩
  | assign _ _ => exact .inl rfl
  | step _ => exact .inl rfl
  | branch _ _ _ => exact .inl rfl
  | loop _ _ _ _ _ _ _ _ _ => exact .inl rfl

end FloatLang
