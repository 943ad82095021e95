import FloatLang.Proofs.Parser.Failing
import FloatLang.Proofs.Parser.Termination
import FloatLang.Proofs.Tree.Made

/-!
# Simple statements are made of tokens

A parser stands somewhere among the tokens of its source. Each simple statement that it reads is
made of the tokens from there on, with the variables of its scopes in sight, and declares its
variable in the current scope. A statement that could not be read has been reported, and declares
nothing.

## Main definitions

* `Parser.Stands` — where a parser is among the tokens of a source
* `Parser.Makes` — what a statement that is read leaves behind

## Main results

* `Parser.readIn_of_expression` — expressions
* `Parser.assignment_steps`, `Parser.step_cases`, `Parser.named_cases`, `Parser.declaration_cases` —
  what is read, or has failed
* `Parser.makes_declaration`, `Parser.makes_named` — simple statements
-/

namespace FloatLang

theorem Token.isEndOfFile_of_kind {t : Token} {kind : TokenKind} (h : t.kind = kind)
    (hne : kind ≠ .endOfFile) : t.isEndOfFile = false := by
  simpa [isEndOfFile, h] using hne

theorem Token.kind_of_identifier? {t : Token} {x : String} (h : t.identifier? = some x) :
    t.kind = .identifier x := by
  unfold identifier? at h
  split at h
  next hkind =>
    obtain rfl := Option.some.inj h
    exact hkind
  · contradiction

namespace Parser

/-- The tokens ahead of the parser are those of the source from the `i`-th on. -/
def Stands (p : Parser) (source : Source) (i : Nat) : Prop :=
  ∀ n, p.ahead n = source.tokenAt (i + n)

variable {source : Source} {i j : Nat} {p q r : Parser} {x : String} {v : Variable}

/-! ### Among the tokens of a source -/

theorem Stands.next (h : p.Stands source i) : p.next = source.tokenAt i := h 0

theorem Stands.congr (h : p.Stands source i) (hscanner : q.scanner = p.scanner) :
    q.Stands source i := by
  intro n
  rw [ahead, hscanner]
  exact h n

theorem Stands.takes {ts : List Token} (h : p.Stands source i) (hq : p.Takes ts q) :
    q.Stands source (i + ts.length) := by
  intro n
  have hahead : q.ahead n = p.ahead (n + ts.length) := hq.handsOut.ahead n
  rw [hahead, h, Nat.add_assoc, Nat.add_comm n]

theorem Stands.fill (h : p.Stands source i) (n : Nat) : (p.fill n).Stands source i :=
  h.takes (p.takes_fill n)

theorem Stands.advance (h : p.Stands source i) : p.advance.Stands source (i + 1) :=
  h.takes p.takes_advance

theorem Stands.reaches (h : p.Stands source i) (hq : p.Reaches q) :
    ∃ j, i ≤ j ∧ q.Stands source j := by
  obtain ⟨ts, hts⟩ := hq
  exact ⟨_, Nat.le_add_right _ _, h.takes hts⟩

theorem Stands.passes (h : p.Stands source i) (hq : p.Passes q) :
    ∃ j, i < j ∧ q.Stands source j := by
  obtain ⟨ts, hts⟩ := hq
  exact ⟨_, Nat.lt_add_of_pos_right (Nat.zero_lt_succ _), h.takes hts⟩

theorem Stands.namesAt (h : p.Stands source i) (hkind : p.next.kind = .identifier x) :
    source.NamesAt i x p.next.location := by
  rw [h.next] at hkind ⊢
  exact ⟨hkind, rfl⟩

/-- A name that is next and refers to a variable is a use of it. -/
theorem Stands.usedIn (h : p.Stands source i) (hkind : p.next.kind = .identifier x)
    (hv : p.scopes.resolve? x = some v) (hj : i < j) :
    UsedIn source p.scopes.inSight i j ⟨v, p.next.location⟩ where
  target := ScopeChain.mem_inSight_of_resolve? hv
  names := by
    have hnames := h.namesAt hkind
    rw [← p.scopes.name_of_resolve? hv] at hnames
    exact ⟨i, Nat.le_refl i, hj, hnames⟩

/-- An expression is made of the tokens taken for it. -/
theorem readIn_of_expression {terminal : Operator} {e : Expr} (hp : p.Stands source i)
    (h : p.expression terminal = (some e, q)) :
    ∃ j, q.Stands source j ∧ ReadIn source p.scopes.inSight i j e := by
  obtain ⟨us, y, hus, htake, hclosed, he⟩ := expression_eq_some h
  have hnames : ∀ t ∈ us, ∀ x v, t.kind = .identifier x → p.scopes.resolve? x = some v →
      UsedIn source p.scopes.inSight i (i + us.length) ⟨v, t.location⟩ := by
    intro t ht x v hkind hv
    rw [hus.handsOut.tokens_eq] at ht
    obtain ⟨n, hn, rfl⟩ := List.mem_map.1 ht
    have hahead : p.scanner.ahead n = source.tokenAt (i + n) := hp n
    rw [hahead] at hkind ⊢
    rw [← p.scopes.name_of_resolve? hv] at hkind
    exact ⟨ScopeChain.mem_inSight_of_resolve? hv, i + n, Nat.le_add_right _ _,
      Nat.add_lt_add_left (List.mem_range.1 hn) i, hkind, rfl⟩
  have hproper := Postfix.proper_of_assemble he
    ((Postfix.Yard.proper_start.takeAll? htake hnames).finish hclosed)
  exact ⟨_, hp.takes hus, Nat.le_add_right _ _, hproper.isProper, hproper.used⟩

/-! ### What a statement leaves behind -/

/-- The parser `q` comes from `p`, which stands at the `i`-th token, by reading the statement `s`:
the current scope has the variables of `s`, every failure in `s` has been reported, and `s` is made
of the tokens taken unless it is a failure itself. -/
structure Makes (source : Source) (i : Nat) (p : Parser) (s : Statement) (q : Parser) : Prop where
  scopes : ∃ k, q.scopes = p.scopes.grow s.declared [] k
  errors : p.errorCount + s.failures ≤ q.errorCount
  made : ∃ j, i ≤ j ∧ q.Stands source j ∧
    (s.isInvalid = false → Made source p.scopes.inSight i j s)

theorem Keeps.grow (h : p.Keeps q) : q.scopes = p.scopes.grow [] [] p.scopes.nextId := by
  rw [h.scopes, ScopeChain.grow_nil]

/-- Reading ahead first makes no difference to what is read. -/
theorem Makes.of_fill {s : Statement} {n : Nat} (h : Makes source i (p.fill n) s q) :
    Makes source i p s q where
  scopes := h.scopes
  errors := Nat.le_trans (Nat.add_le_add_right (p.reaches_fill n).errorCount_le _) h.errors
  made := h.made

/-- A statement that could not be read has been reported. -/
theorem Fails.makes (h : p.Fails q) (hp : p.Stands source i) (l : Location) :
    Makes source i p (.invalid l) q where
  scopes := ⟨_, h.grow⟩
  errors := h.errors
  made := by
    obtain ⟨j, hij, hq⟩ := hp.reaches h.reaches
    exact ⟨j, hij, hq, fun hvalid => by simp [Statement.isInvalid] at hvalid⟩

/-- A statement without failures and declarations is read. -/
theorem Keeps.makes {s : Statement} (h : p.Keeps q) (hq : q.Stands source j)
    (hmade : Made source p.scopes.inSight i j s) (hdeclared : s.declared = [])
    (hfailures : s.failures = 0) : Makes source i p s q where
  scopes := ⟨_, by rw [hdeclared]; exact h.grow⟩
  errors := by
    rw [hfailures]
    exact h.reaches.errorCount_le
  made := ⟨j, hmade.le, hq, fun _ => hmade⟩

/-! ### Assignments and steps -/

/-- An assignment is given up, or assigns an expression to what the name in front refers to. -/
theorem assignment_steps {s : Statement} (h : p.assignment = (s, q)) :
    (∃ l, s = .invalid l ∧ p.GivesUp q) ∨
      ∃ v value r, p.advance.next.isOperator .assign = true ∧
        p.scopes.resolve? (p.next.identifier?.getD "") = some v ∧
        p.advance.advance.expression .semicolon = (some value, r) ∧ r.terminator = (true, q) ∧
        s = .assign ⟨v, p.next.location⟩ value p.next.location ∧ p.Keeps q := by
  have htwo : p.Keeps p.advance.advance := p.keeps_advance.trans (keeps_advance _)
  unfold assignment at h
  dsimp only at h
  split at h
  next hassign =>
    split at h
    next r hresolve =>
      obtain ⟨rfl, rfl⟩ := Prod.mk.inj h
      exact .inl ⟨_, rfl, (htwo.fails (resolve_eq_none hresolve)).givesUp⟩
    next v r hresolve =>
      obtain ⟨rfl, hv⟩ := resolve_eq_some hresolve
      split at h
      next r hvalue =>
        obtain ⟨rfl, rfl⟩ := Prod.mk.inj h
        exact .inl ⟨_, rfl, (htwo.fails (fails_expression hvalue)).givesUp⟩
      next value r hvalue =>
        have hkeeps := htwo.trans (keeps_of_expression hvalue)
        split at h
        next u hend =>
          obtain ⟨rfl, rfl⟩ := Prod.mk.inj h
          exact .inr ⟨v, value, r, hassign, hv, hvalue, hend, rfl,
            hkeeps.trans (keeps_of_terminator hend)⟩
        next u hend =>
          obtain ⟨rfl, rfl⟩ := Prod.mk.inj h
          exact .inl ⟨_, rfl, hkeeps.givesUp (givesUp_terminator hend)⟩
  · obtain ⟨rfl, rfl⟩ := Prod.mk.inj h
    exact .inl ⟨_, rfl, htwo.rejects _ _⟩

/-- An assignment is a failure that has been reported, or assigns an expression to what the name in
front refers to. -/
theorem assignment_cases {s : Statement} (hp : p.Stands source i)
    (hkind : p.next.kind = .identifier x) (h : p.assignment = (s, q)) :
    (∃ l, s = .invalid l ∧ p.Fails q) ∨
      ∃ v value l j, s = .assign ⟨v, p.next.location⟩ value l ∧ p.scopes.resolve? x = some v ∧
        p.Keeps q ∧ q.Stands source j ∧ ReadIn source p.scopes.inSight (i + 2) j value := by
  have hname : p.next.identifier?.getD "" = x := by simp [Token.identifier?, hkind]
  rcases assignment_steps h with
    ⟨l, rfl, hgives⟩ | ⟨v, value, r, -, hv, hvalue, hend, rfl, hkeeps⟩
  · exact .inl ⟨l, rfl, hgives.toFails⟩
  · rw [hname] at hv
    obtain ⟨j, hr, hread⟩ := readIn_of_expression hp.advance.advance hvalue
    obtain ⟨k, hjk, hq⟩ := hr.reaches (keeps_of_terminator hend).reaches
    exact .inr ⟨v, value, _, k, rfl, hv, hkeeps, hq, hread.mono (Nat.le_refl _) hjk⟩

theorem makes_assignment {s : Statement} (hp : p.Stands source i)
    (hkind : p.next.kind = .identifier x) (h : p.assignment = (s, q)) : Makes source i p s q := by
  rcases assignment_cases hp hkind h with ⟨l, rfl, hfails⟩ | ⟨v, value, l, j, rfl, hv, hkeeps, hq, hread⟩
  · exact hfails.makes hp l
  · have hij : i < j := Nat.lt_of_lt_of_le (by omega) hread.le
    exact hkeeps.makes hq (.assign (hp.usedIn hkind hv hij) (hread.mono (by omega) (Nat.le_refl _)))
      rfl rfl

/-- A step is a failure that has been reported, or steps what the name in front refers to. One that
has an end is given up if it fails. -/
theorem step_cases {s : Statement} {terminated : Bool} (h : p.step terminated = .ok (s, q)) :
    (∃ l, s = .invalid l ∧ p.Fails q ∧ (terminated = true → p.GivesUp q)) ∨
      ∃ d v, p.advance.next.operator?.bind Direction.ofOperator? = some d ∧
        p.scopes.resolve? (p.next.identifier?.getD "") = some v ∧
        s = .step d ⟨v, p.next.location⟩ p.next.location ∧
        (if terminated then p.advance.advance.terminator = (true, q)
          else q = p.advance.advance) ∧ p.Keeps q ∧ p.Passes q := by
  have htwo : p.Keeps p.advance.advance := p.keeps_advance.trans (keeps_advance _)
  have hpasses : p.Passes p.advance.advance := p.passes_advance.trans (passes_advance _).reaches
  unfold step at h
  dsimp only at h
  split at h
  · simp [halt] at h
  next d hd =>
    split at h
    next r hresolve =>
      have hfails := htwo.fails (resolve_eq_none hresolve)
      obtain ⟨rfl, rfl⟩ := Prod.mk.inj (Except.ok.inj h)
      refine .inl ⟨_, rfl, ?_⟩
      split
      · exact ⟨hfails.keeps (keeps_synchronize _), fun _ => hfails.givesUp⟩
      next hterminated => exact ⟨hfails, fun h => absurd h hterminated⟩
    next v r hresolve =>
      obtain ⟨rfl, hv⟩ := resolve_eq_some hresolve
      split at h
      next hterminated =>
        split at h
        next r hend =>
          obtain ⟨rfl, rfl⟩ := Prod.mk.inj (Except.ok.inj h)
          have hkeeps := keeps_of_terminator hend
          refine .inr ⟨d, v, hd, hv, rfl, ?_, htwo.trans hkeeps, hpasses.trans hkeeps.reaches⟩
          rw [if_pos hterminated]
          exact hend
        next r hend =>
          obtain ⟨rfl, rfl⟩ := Prod.mk.inj (Except.ok.inj h)
          have hgives := htwo.givesUp (givesUp_terminator hend)
          exact .inl ⟨_, rfl, hgives.toFails, fun _ => hgives⟩
      next hterminated =>
        obtain ⟨rfl, rfl⟩ := Prod.mk.inj (Except.ok.inj h)
        refine .inr ⟨d, v, hd, hv, rfl, ?_, htwo, hpasses⟩
        rw [if_neg hterminated]

theorem makes_step {s : Statement} {terminated : Bool} (hp : p.Stands source i)
    (hkind : p.next.kind = .identifier x) (h : p.step terminated = .ok (s, q)) :
    Makes source i p s q := by
  have hname : p.next.identifier?.getD "" = x := by simp [Token.identifier?, hkind]
  rcases step_cases h with ⟨l, rfl, hfails, -⟩ | ⟨d, v, -, hv, rfl, -, hkeeps, hpasses⟩
  · exact hfails.makes hp l
  · rw [hname] at hv
    obtain ⟨j, hij, hq⟩ := hp.passes hpasses
    exact hkeeps.makes hq (.step (hp.usedIn hkind hv hij)) rfl rfl

/-- A statement that starts with a name is given up, or is a step or an assignment. -/
theorem named_cases {s : Statement} (h : p.named = .ok (s, q)) :
    (∃ l, s = .invalid l ∧ (p.fill 2).GivesUp q) ∨ (p.fill 2).step true = .ok (s, q) ∨
      (p.fill 2).assignment = (s, q) := by
  unfold named at h
  dsimp only at h
  split at h
  · split at h
    · exact .inr (.inl h)
    · exact .inr (.inr (Except.ok.inj h))
  · obtain ⟨rfl, rfl⟩ := Prod.mk.inj (Except.ok.inj h)
    exact .inl ⟨_, rfl, givesUp_rejectName _ _⟩

theorem makes_named {s : Statement} (hp : p.Stands source i) (hkind : p.next.kind = .identifier x)
    (h : p.named = .ok (s, q)) : Makes source i p s q := by
  have hfill : (p.fill 2).next.kind = .identifier x := by rwa [next_fill]
  apply Makes.of_fill (n := 2)
  rcases named_cases h with ⟨l, rfl, hgives⟩ | hstep | hassignment
  · exact hgives.makes (hp.fill 2) l
  · exact makes_step (hp.fill 2) hfill hstep
  · exact makes_assignment (hp.fill 2) hfill hassignment

/-! ### Declarations -/

/-- A name that follows `float` and referred to nothing is a declaration of its variable. -/
theorem declaredIn_of_resolve? (hp : p.Stands source i) (hkeyword : p.next.kind = .keyword .float)
    (hq : q.Stands source (i + 1)) (hkind : q.next.kind = .identifier x)
    (hnone : p.scopes.resolve? x = none) :
    DeclaredIn source p.scopes.inSight i (i + 2) ⟨x, q.next.location⟩ := by
  rw [hp.next] at hkeyword
  exact ⟨ScopeChain.name_ne_of_resolve?_eq_none hnone, i, Nat.le_refl i, Nat.lt_succ_self _, hkeyword,
    hq.namesAt hkind⟩

/-- A variable that was declared at the name that is next, with the statement that gives it its
value. -/
theorem makes_compound {s : Statement} {l : Location} {k : Nat} (hv : p.scopes.resolve? v.name = none)
    (hdeclared : DeclaredIn source p.scopes.inSight i (i + 2) v)
    (hscopes : q.scopes = p.scopes.grow [v] [] k) (hle : p.errorCount ≤ q.errorCount)
    (hq : q.Stands source (i + 1)) (hkind : q.next.kind = .identifier v.name)
    (hlocation : q.next.location = v.location) (h : q.assignment = (s, r)) :
    Makes source i p (.compound (.declare v) s l) r := by
  rcases assignment_cases hq hkind h with
    ⟨l', rfl, hfails⟩ | ⟨u, value, l', j, rfl, hu, hkeeps, hr, hread⟩
  · have hpasses := q.passes_assignment
    rw [h] at hpasses
    obtain ⟨j, hij, hr⟩ := hq.passes hpasses
    exact ⟨⟨k, hfails.scopes.trans hscopes⟩, Nat.lt_of_le_of_lt hle hfails.errors, j, by omega, hr,
      fun _ => .undefined (hdeclared.mono (by omega))⟩
  · -- the name refers to the variable that was just declared
    rw [hscopes, ScopeChain.resolve?_declared hv] at hu
    obtain rfl := Option.some.inj hu
    rw [hscopes, ScopeChain.inSight_grow] at hread
    have hij : i ≤ j := Nat.le_trans (Nat.le_add_right i 3) hread.le
    refine ⟨⟨k, hkeeps.scopes.trans hscopes⟩, Nat.le_trans hle hkeeps.reaches.errorCount_le, j, hij,
      hr, fun _ => ?_⟩
    rw [hlocation]
    exact .define (hdeclared.mono (Nat.le_succ _)) hread

/-- A declaration is a failure that has been reported, or declares the name after the keyword: once
it has ended, or else before its value is read. -/
theorem declaration_cases {s : Statement} (h : p.declaration = (s, q)) :
    (∃ l, s = .invalid l ∧ p.Fails q) ∨
      ∃ x v, p.advance.next.kind = .identifier x ∧
        ((s = .declare v ∧ ∃ u, p.advance.Passes u ∧ u.scopes = p.scopes ∧
            u.define x p.advance.next.location = (some v, q)) ∨
          ∃ u r value, s = .compound (.declare v) value p.next.location ∧ p.advance.Takes [] u ∧
            u.scopes = p.scopes ∧ u.define x p.advance.next.location = (some v, r) ∧
            r.assignment = (value, q)) := by
  have hkeeps : p.Keeps (p.advance.fill 1) := p.keeps_advance.trans (keeps_fill _ _)
  have hnext : (p.advance.fill 1).next = p.advance.next := next_fill _ _
  have htakes : p.advance.Takes [] (p.advance.fill 1) := takes_fill _ _
  unfold declaration at h
  dsimp only at h
  generalize p.advance.fill 1 = named at h hkeeps hnext htakes
  rw [hnext] at h
  split at h
  · obtain ⟨rfl, rfl⟩ := Prod.mk.inj h
    exact .inl ⟨_, rfl, (hkeeps.rejects _ _).toFails⟩
  next x hname =>
    have hkind := Token.kind_of_identifier? hname
    have hfill : p.Keeps (named.fill 2) := hkeeps.trans (keeps_fill _ _)
    split at h
    · have hpasses := (named.fill 2).passes_advance.trans (reaches_terminator _)
      have hend : p.Keeps (named.fill 2).advance.terminator.2 :=
        (hfill.trans (keeps_advance _)).trans (keeps_terminator _)
      split at h
      next v u hdefine =>
        obtain ⟨rfl, rfl⟩ := Prod.mk.inj h
        obtain ⟨ts, hts⟩ := hpasses.of_fill
        rw [hnext] at hts
        exact .inr ⟨x, v, hkind, .inl ⟨rfl, _, ⟨ts, htakes.trans hts⟩, hend.scopes, hdefine⟩⟩
      next u hdefine =>
        obtain ⟨rfl, rfl⟩ := Prod.mk.inj h
        exact .inl ⟨_, rfl, hend.fails (define_eq_none hdefine)⟩
    · split at h
      next v u hdefine =>
        obtain ⟨rfl, rfl⟩ := Prod.mk.inj h
        exact .inr ⟨x, v, hkind, .inr ⟨_, u, _, rfl, htakes.trans (takes_fill _ _), hfill.scopes,
          hdefine, rfl⟩⟩
      next u hdefine =>
        obtain ⟨rfl, rfl⟩ := Prod.mk.inj h
        exact .inl ⟨_, rfl, (hfill.fails (define_eq_none hdefine)).keeps (keeps_synchronize _)⟩

theorem makes_declaration {s : Statement} (hp : p.Stands source i)
    (hkeyword : p.next.kind = .keyword .float) (h : p.declaration = (s, q)) :
    Makes source i p s q := by
  rcases declaration_cases h with ⟨l, rfl, hfails⟩ | ⟨x, v, hkind, hread⟩
  · exact hfails.makes hp l
  · have hadvance := p.keeps_advance.reaches.errorCount_le
    rcases hread with ⟨rfl, u, hpasses, hu, hdefine⟩ |
      ⟨u, r, value, rfl, htakes, hu, hdefine, hvalue⟩
    · obtain ⟨rfl, hnone, hscopes, hscanner⟩ := define_eq_some hdefine
      rw [hu] at hnone hscopes
      have hdeclared := declaredIn_of_resolve? hp hkeyword hp.advance hkind hnone
      obtain ⟨j, hij, hstands⟩ := hp.advance.passes hpasses
      refine ⟨⟨_, hscopes⟩, ?_, j, by omega, hstands.congr hscanner,
        fun _ => .declare (hdeclared.mono hij)⟩
      rw [errorCount_congr hscanner]
      exact Nat.le_trans hadvance hpasses.reaches.errorCount_le
    · obtain ⟨rfl, hnone, hscopes, hscanner⟩ := define_eq_some hdefine
      rw [hu] at hnone hscopes
      have hdeclared := declaredIn_of_resolve? hp hkeyword hp.advance hkind hnone
      have hr : r.Stands source (i + 1) := (hp.advance.takes htakes).congr hscanner
      have hnext : r.next = p.advance.next := hr.next.trans hp.advance.next.symm
      have herrors : p.errorCount ≤ r.errorCount := by
        rw [errorCount_congr hscanner]
        exact Nat.le_trans hadvance (Reaches.errorCount_le ⟨[], htakes⟩)
      exact makes_compound hnone hdeclared hscopes herrors hr (by rwa [hnext]) (by rw [hnext])
        hvalue

end Parser

end FloatLang
