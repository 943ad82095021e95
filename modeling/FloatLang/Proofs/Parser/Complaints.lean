import FloatLang.Proofs.Infix.Complaints
import FloatLang.Proofs.Parser.Quiet

/-!
# What parsers complain about

The scanner of a parser reports tokens that it objects to when they are taken; everything else is
reported by the readers of the parser. Readers complain about tokens in the order in which these
come: about a token that was just taken, or about one that is next and then skipped. Some of them
take care not to complain about a token to which the scanner objects, others do not.

What is to hold of all that a parser reports has to be shown of its steps only: the readers of
expressions follow here, those of statements elsewhere.

## Main definitions

* `Problem.concerns` — what readers say about tokens, whether the scanner objects to them or not
* `Problem.rejects` — what they say only if it does not
* `Scanner.Discipline` — a property of scanners that every step of a parser keeps
* `Parser.Clear`, `Parser.Due` — how far complaints have come

## Main results

* `Scanner.Discipline.synchronize`, `Scanner.Discipline.clear_reject` — the elementary readers
* `Scanner.Discipline.collect`, `Scanner.Discipline.expression` — expressions
-/

namespace FloatLang

/-! ### Complaints -/

namespace Problem

/-- Whether a reader may say this about a token without asking whether the scanner objects to it. -/
def concerns (t : Token) : Problem → Bool
  | nameExpected _ | assignExpected _ | terminatorExpected _ | headerSemicolonExpected .. |
    stepExpected | loopBodyExpected _ => true
  | operatorExpected _ => t.operator?.isNone
  | expressionExpected => t.error?.isNone
  | undefined _ | duplicate _ | semicolonExpected _ | variableRequired _ | operandExpected _ =>
    t.isPlain
  | _ => false

/-- Whether a reader may say this about a token to which the scanner does not object. -/
def rejects (t : Token) : Problem → Bool
  | statementExpected _ | operatorInExpression _ => true
  | unfinished _ | keywordInExpression _ => t.isPlain
  | strayParenthesis => t.isOperator .rightParen
  | _ => false

theorem concerns_of_isOfExpression {t : Token} {problem : Problem} (ht : t.isPlain = true)
    (h : problem.isOfExpression = true) : problem.concerns t = true := by
  cases problem <;> first | contradiction | exact ht

end Problem

/-- A token that ends an expression is not invalid. -/
theorem Token.error?_of_endsExpression {t : Token} {terminal : Operator} {continues : Bool}
    (h : Parser.endsExpression terminal continues t = true) : t.error? = none := by
  cases hkind : t.kind with
  | invalid error =>
    simp [Parser.endsExpression, isOperator, operator?, endsLine, isEndOfLine, isEndOfFile,
      hkind] at h
  | _ => simp [error?, hkind]

/-! ### The steps of a parser -/

namespace Scanner

/-- A property of a scanner that every step of a parser keeps. The scanner has handed out the first
`n` tokens of the source, and unless the file ends, complaints are about the first `c` tokens only. A
complaint is about a later one. -/
structure Discipline (source : Source) (inv : Nat → Nat → Scanner → Prop) : Prop where
  ahead : ∀ {n c : Nat} {s : Scanner}, inv n c s → ∀ k, s.ahead k = source.tokenAt (n + k)
  mono : ∀ {n c c' : Nat} {s : Scanner}, inv n c s → c ≤ c' → inv n c' s
  fill : ∀ {n c : Nat} {s : Scanner}, inv n c s → ∀ m, inv n c (s.fill m)
  advance : ∀ {n c : Nat} {s : Scanner}, inv n c s → inv (n + 1) c s.advance
  complain : ∀ {n c k : Nat} {s : Scanner} {problem : Problem}, inv n c s → c ≤ k →
    problem.concerns (source.tokenAt k) = true → inv n (k + 1) (s.error (source.place k) problem)
  complainAtEnd : ∀ {n c k : Nat} {s : Scanner} {problem : Problem}, inv n c s →
    (source.tokenAt k).isEndOfFile = true → problem.concerns (source.tokenAt k) = true →
      inv n c (s.error (source.place k) problem)
  reject : ∀ {n : Nat} {s : Scanner} {problem : Problem}, inv n n s →
    s.objection? s.next = none → problem.rejects (source.tokenAt n) = true →
      inv (n + 1) (n + 1) (s.advance.error (source.place n) problem)
  remind : ∀ {n c : Nat} {s : Scanner} (l : Location) (name : String), inv n c s →
    0 < s.errorCount →
      inv n c (s.report { severity := .inform, location := l, problem := .previousDefinition name })
  giveUp : ∀ {n c : Nat} {s : Scanner} {o : Opening} {os : List Opening}, inv n c s →
    s.pending = o :: os → inv n c ({ s with pending := os }.report (unclosedReport o))

end Scanner

namespace Parser

variable (inv : Nat → Nat → Scanner → Prop)

/-- Every token complained about has been taken. -/
def Clear (p : Parser) : Prop := ∃ n, inv n n p.scanner

/-- Every token complained about has been taken, except perhaps the next one. -/
def Due (p : Parser) : Prop := ∃ n, inv n (n + 1) p.scanner

/-- What has been collected for an expression, from the `n`-th token on. -/
structure Collects (terminal : Operator) (y y' : Postfix.Yard) (n c : Nat) (p q : Parser)
    (us : List Token) : Prop where
  takes : p.Takes us q
  taken : y.takeAll? p.scopes.resolve? us = some y'
  holds : inv (n + us.length) c q.scanner
  last : us = [] → q.scanner.last? = p.scanner.last?
  ends : endsExpression terminal y'.continues q.next = true

/-- The next token has been complained about, because it ends an expression that has not begun. -/
structure Lacks (terminal : Operator) (p q : Parser) : Prop where
  due : Due inv q
  last : q.scanner.last? = p.scanner.last?
  next : q.next = p.next
  isEndOfFile : p.next.isEndOfFile = false
  ends : endsExpression terminal false p.next = true

end Parser

open FloatLang.Parser (Clear Due Collects Lacks)

namespace Scanner.Discipline

open Postfix (Yard)

variable {source : Source} {inv : Nat → Nat → Scanner → Prop} (h : Discipline source inv)
  {s : Scanner} {p q : Parser} {n c k : Nat} {problem : Problem}

include h

/-! ### Tokens -/

theorem clear_of_le (hp : inv n c p.scanner) (hc : c ≤ n) : Clear inv p := ⟨n, h.mono hp hc⟩

theorem due_of_clear (hp : Clear inv p) : Due inv p := by
  obtain ⟨n, hp⟩ := hp
  exact ⟨n, h.mono hp n.le_succ⟩

theorem next_eq (hp : inv n c p.scanner) : p.next = source.tokenAt n := h.ahead hp 0

theorem place_eq (hp : inv n c p.scanner) : p.next.location = source.place n :=
  congrArg Token.location (h.next_eq hp)

theorem clear_fill (hp : Clear inv p) (m : Nat) : Clear inv (p.fill m) := by
  obtain ⟨n, hp⟩ := hp
  exact ⟨n, h.fill hp m⟩

theorem due_fill (hp : Due inv p) (m : Nat) : Due inv (p.fill m) := by
  obtain ⟨n, hp⟩ := hp
  exact ⟨n, h.fill hp m⟩

theorem clear_advance_of_due (hp : Due inv p) : Clear inv p.advance := by
  obtain ⟨n, hp⟩ := hp
  exact ⟨n + 1, h.advance hp⟩

theorem clear_advance (hp : Clear inv p) : Clear inv p.advance :=
  h.clear_advance_of_due (h.due_of_clear hp)

/-- A line has one token at least. -/
theorem skipLineWithin (hs : inv n c s) (m : Nat) :
    ∃ n', n < n' ∧ inv n' c (Scanner.skipLineWithin (m + 1) s) := by
  induction m generalizing n s with
  | zero =>
    refine ⟨n + 1, Nat.lt_succ_self n, ?_⟩
    unfold Scanner.skipLineWithin
    split <;> exact h.advance hs
  | succ m ih =>
    unfold Scanner.skipLineWithin
    split
    · exact ⟨n + 1, Nat.lt_succ_self n, h.advance hs⟩
    · obtain ⟨n', hn, hskip⟩ := ih (h.advance hs)
      exact ⟨n', Nat.lt_of_succ_lt hn, hskip⟩

theorem clear_skipLine (hp : Due inv p) : Clear inv (p.modifyScanner Scanner.skipLine) := by
  obtain ⟨n, hp⟩ := hp
  obtain ⟨n', hn, hskip⟩ := h.skipLineWithin hp p.scanner.remaining
  exact ⟨n', h.mono hskip hn⟩

theorem synchronize (hp : Clear inv p) : Clear inv p.synchronize := by
  unfold Parser.synchronize
  split
  · split
    · exact hp
    · exact h.clear_skipLine (h.due_of_clear hp)
  · exact h.clear_skipLine (h.due_of_clear hp)

/-- The next token is skipped, unless a line has just ended. -/
theorem synchronize_of_due (hp : Due inv p) (hlast : ∀ t ∈ p.scanner.last?, t.endsLine = false) :
    Clear inv p.synchronize := by
  unfold Parser.synchronize
  split
  next t ht =>
    rw [hlast t ht, if_neg (by simp)]
    exact h.clear_skipLine hp
  · exact h.clear_skipLine hp

/-! ### Complaints -/

/-- A complaint about the next token. -/
theorem complain_next (hp : Clear inv p) (hproblem : problem.concerns p.next = true) :
    Due inv (p.error p.next.location problem) := by
  obtain ⟨n, hp⟩ := hp
  rw [h.next_eq hp] at hproblem ⊢
  exact ⟨n, h.complain hp (Nat.le_refl n) hproblem⟩

/-- A complaint about the token that was just taken. -/
theorem complain_last (hp : Clear inv p) (hproblem : problem.concerns p.next = true) :
    Clear inv (p.advance.error p.next.location problem) := by
  obtain ⟨n, hp⟩ := hp
  rw [h.next_eq hp] at hproblem ⊢
  exact ⟨n + 1, h.complain (h.advance hp) (Nat.le_refl n) hproblem⟩

theorem clear_reject (hp : Clear inv p) (hproblem : problem.rejects p.next = true) :
    Clear inv (p.reject problem) := by
  unfold Parser.reject
  split
  · exact h.clear_advance hp
  next hobjection =>
    obtain ⟨n, hp⟩ := hp
    rw [h.next_eq hp] at hproblem ⊢
    exact ⟨n + 1, h.reject hp hobjection hproblem⟩

theorem resolve (hp : inv n c p.scanner) (hc : c ≤ k)
    (hk : (source.tokenAt k).isPlain = true) (name : String) :
    inv n (k + 1) (p.resolve name (source.place k)).2.scanner := by
  unfold Parser.resolve
  split
  · exact h.mono hp (Nat.le_succ_of_le hc)
  · exact h.complain hp hc hk

theorem define (hp : inv n c p.scanner) (hc : c ≤ k)
    (hk : (source.tokenAt k).isPlain = true) (name : String) :
    inv n (k + 1) (p.define name (source.place k)).2.scanner := by
  unfold Parser.define
  split
  · exact h.mono hp (Nat.le_succ_of_le hc)
  next r hr =>
    have hlocation : r.location = source.place k := by
      unfold ScopeChain.define at hr
      split at hr
      · obtain rfl := Except.error.inj hr
        rfl
      · contradiction
    rw [hlocation]
    refine h.remind _ _ (h.complain hp hc hk) ?_
    exact (p.scanner.errorCount_error _ _).symm ▸ Nat.succ_pos _

/-! ### Expressions -/

/-- What can not be collected is complained about. -/
theorem collect_stop {terminal : Operator} {m : Nat} {y : Yard} (hp : Clear inv p)
    (hend : ¬ Parser.endsExpression terminal y.continues p.next = true)
    (htake : y.take? p.scopes.resolve? p.next = none) :
    Clear inv (Parser.collect terminal (m + 1) y p).2 := by
  have hfill := h.clear_fill hp 1
  have hreject {problem : Problem} (hproblem : problem.rejects p.next = true) :
      Clear inv ((p.fill 1).reject problem) :=
    h.clear_reject hfill (by rwa [Parser.next_fill])
  rw [Parser.collect, Parser.next_fill, if_neg hend]
  cases hkind : p.next.kind with
  | endOfLine => simp [Yard.take?, hkind] at htake
  | numeral value => simp [Yard.take?, hkind] at htake
  | endOfFile =>
    have hplain : p.next.isPlain = true := Token.isPlain_of_endsLine (by
      simp [Token.endsLine, Token.isEndOfFile, hkind])
    exact hreject hplain
  | keyword word =>
    have hrejects : (Problem.keywordInExpression word).rejects p.next = true :=
      Token.isPlain_of_keyword hkind
    exact hreject hrejects
  | invalid error => exact h.clear_advance hfill
  | operator op =>
    dsimp only
    split
    · exact hreject rfl
    next hop =>
      have hshift : y.shift? op p.next.location = none := by
        simpa [Yard.take?, hkind, hop] using htake
      rw [hshift]
      have hparen : op = .rightParen := by
        cases op <;> first | rfl | (simp [Yard.shift?] at hshift)
      exact hreject (by simp [Problem.rejects, Token.isOperator, Token.operator?, hkind, hparen])
  | identifier name =>
    obtain ⟨n, hp⟩ := hp
    have hplain := Token.isPlain_of_identifier hkind
    have hnext : p.next = source.tokenAt n := h.next_eq hp
    have hresolve : inv (n + 1) (n + 1)
        ((p.fill 1).advance.resolve name p.next.location).2.scanner := by
      rw [hnext] at hplain ⊢
      exact h.resolve (p := (p.fill 1).advance) (h.advance (h.fill hp 1)) (Nat.le_refl n) hplain name
    have hnone : p.scopes.resolve? name = none := by
      simpa [Yard.take?, hkind] using htake
    dsimp only
    split
    next v q hq =>
      obtain ⟨-, hsome⟩ := Parser.resolve_eq_some hq
      rw [Parser.scopes_advance, Parser.scopes_fill, hnone] at hsome
      contradiction
    next q hq =>
      rw [hq] at hresolve
      exact ⟨n + 1, hresolve⟩

/-- Whatever is not collected is complained about, and nothing else. -/
theorem collect {terminal : Operator} {m : Nat} {y : Yard} {y? : Option Yard}
    (hp : inv n c p.scanner) (hc : c ≤ n) (hm : p.remaining < m)
    (hcollect : Parser.collect terminal m y p = (y?, q)) :
    (y? = none ∧ Clear inv q) ∨
      ∃ y' us, y? = some y' ∧ Collects inv terminal y y' n c p q us := by
  induction m generalizing n y p with
  | zero => exact absurd hm (Nat.not_lt_zero _)
  | succ m ih =>
    by_cases hend : Parser.endsExpression terminal y.continues p.next = true
    · rw [Parser.collect_end hend] at hcollect
      obtain ⟨rfl, rfl⟩ := Prod.mk.inj hcollect
      refine .inr ⟨y, [], rfl, p.takes_fill 1, rfl, h.fill hp 1, fun _ => ?_, ?_⟩
      · exact p.scanner.last?_fill 1
      · rwa [Parser.next_fill]
    · cases htake : y.take? p.scopes.resolve? p.next with
      | none =>
        have hstop := h.collect_stop (m := m) (h.clear_of_le hp hc) hend htake
        have hnone := Parser.collect_stop (n := m) hend htake
        rw [hcollect] at hstop hnone
        exact .inl ⟨hnone, hstop⟩
      | some first =>
        rw [Parser.collect_take hend htake] at hcollect
        have hfile : p.next.isEndOfFile = false := by
          rw [Token.isEndOfFile, beq_eq_false_iff_ne]
          intro hkind
          simp [Yard.take?, hkind] at htake
        have hpasses : p.Passes (p.fill 1).advance :=
          (Parser.passes_advance (p.fill 1)).of_fill
        have hlt := hpasses.remaining_lt hfile
        have htakes := (p.takes_fill 1).trans (Parser.takes_advance (p.fill 1))
        rw [Parser.next_fill] at htakes
        rcases ih (p := (p.fill 1).advance) (h.advance (h.fill hp 1)) (Nat.le_succ_of_le hc)
          (by omega) hcollect with hnone | ⟨y', us, rfl, hus⟩
        · exact .inl hnone
        · refine .inr ⟨y', p.next :: us, rfl, htakes.trans hus.takes, ?_, ?_, by simp, hus.ends⟩
          · rw [Yard.takeAll?_cons, htake]
            exact hus.taken
          · rw [List.length_cons, Nat.add_comm us.length, ← Nat.add_assoc]
            exact hus.holds

/-- The tokens of an expression, by their numbers. -/
theorem exists_of_mem {us : List Token} (hp : inv n c p.scanner) (hus : p.Takes us q) {t : Token}
    (ht : t ∈ us) : ∃ k, n ≤ k ∧ k < n + us.length ∧ source.tokenAt k = t := by
  rw [hus.handsOut.tokens_eq] at ht
  obtain ⟨j, hj, rfl⟩ := List.mem_map.1 ht
  exact ⟨n + j, Nat.le_add_right n j, Nat.add_lt_add_left (List.mem_range.1 hj) n, (h.ahead hp j).symm⟩

/-- Where an expression is expected there is no invalid token. -/
theorem clear_or_lacks {terminal : Operator} {y : Yard} {us : List Token}
    (hp : inv n n p.scanner) (hus : Collects inv terminal {} y n n p q us) :
    Clear inv (q.error p.next.location .expressionExpected) ∨
      Lacks inv terminal p (q.error p.next.location .expressionExpected) := by
  have hnext : p.next = source.tokenAt n := h.next_eq hp
  have hq := hus.holds
  cases us with
  | nil =>
    obtain rfl := Option.some.inj hus.taken
    have hsame : q.next = p.next := hus.takes.handsOut.ahead 0
    have hends := hus.ends
    rw [hsame] at hends
    have hconcerns : Problem.expressionExpected.concerns (source.tokenAt n) = true := by
      rw [← hnext]
      exact Option.isNone_iff_eq_none.2 (Token.error?_of_endsExpression hends)
    rw [h.place_eq hp]
    cases hend : p.next.isEndOfFile with
    | true => exact .inl ⟨n, h.complainAtEnd hq (hnext ▸ hend) hconcerns⟩
    | false =>
      refine .inr ⟨⟨n, h.complain hq (Nat.le_refl n) hconcerns⟩, hus.last rfl, ?_, hend, hends⟩
      rw [← hsame]
      exact congrFun (q.scanner.ahead_report _) 0
  | cons t us =>
    have ht : t = p.next := by
      have htokens := hus.takes.handsOut.tokens_eq
      rw [List.length_cons, List.range_succ_eq_map, List.map_cons] at htokens
      exact (List.cons.inj htokens).1
    have htaken := hus.taken
    rw [Yard.takeAll?_cons] at htaken
    obtain ⟨first, hfirst, -⟩ := Option.bind_eq_some_iff.1 htaken
    have hconcerns : Problem.expressionExpected.concerns (source.tokenAt n) = true := by
      rw [← hnext, ← ht]
      cases hkind : t.kind with
      | invalid error => simp [Yard.take?, hkind] at hfirst
      | _ => simp [Problem.concerns, Token.error?, hkind]
    rw [h.place_eq hp]
    rw [List.length_cons] at hq
    exact .inl (h.clear_of_le (h.complain hq (Nat.le_refl n) hconcerns) (by omega))

/-- What is collected is made a tree of, or complained about. -/
theorem finishExpression {terminal : Operator} {y : Yard} {us : List Token} {r : Parser}
    {e? : Option Expr} (hp : inv n n p.scanner) (hus : Collects inv terminal {} y n n p r us)
    (hpending : r.scanner.pending = Postfix.opened y.waiting ++ p.scanner.pending)
    (hfinish : Parser.finishExpression p.next.location y r = (e?, q)) :
    (∃ e, e? = some e ∧ q = r) ∨ e? = none ∧ (Clear inv q ∨ Lacks inv terminal p q) := by
  have hr : inv (n + us.length) n r.scanner := hus.holds
  unfold Parser.finishExpression at hfinish
  split at hfinish
  next hclosed =>
    split at hfinish
    next e _ =>
      obtain ⟨rfl, rfl⟩ := Prod.mk.inj hfinish
      exact .inl ⟨e, rfl, rfl⟩
    next complaint hassemble =>
      obtain ⟨rfl, rfl⟩ := Prod.mk.inj hfinish
      refine .inr ⟨rfl, ?_⟩
      -- operands and operators stem from tokens of the expression that are no brackets
      have hstems : y.StemsFrom fun l => ∃ k, n ≤ k ∧ k < n + us.length ∧ source.place k = l ∧
          (source.tokenAt k).isPlain = true := by
        refine Yard.stemsFrom_start.takeAll? hus.taken fun t ht hplain => ?_
        obtain ⟨k, hnk, hk, rfl⟩ := h.exists_of_mem hp hus.takes ht
        exact ⟨k, hnk, hk, rfl, hplain⟩
      have hitems := hstems.finish (List.isEmpty_iff.1 hclosed)
      rcases Postfix.complaint_of_assemble hitems hassemble with rfl | hcomplaint
      · exact h.clear_or_lacks hp hus
      · obtain ⟨k, hnk, hk, hplace, hplain⟩ := hcomplaint.location
        rw [← hplace]
        have hconcerns := Problem.concerns_of_isOfExpression hplain hcomplaint.problem
        exact .inl (h.clear_of_le (h.complain hr hnk hconcerns) hk)
  · obtain ⟨rfl, rfl⟩ := Prod.mk.inj hfinish
    rw [Postfix.openParentheses_eq]
    have hgiven := reportUnclosed_of_giveUp h.giveUp hr hpending
    exact .inr ⟨rfl, .inl (h.clear_of_le hgiven (Nat.le_add_right _ _))⟩

/-- An expression that is read ends at its end, and one that is not is complained about. -/
theorem expression {terminal : Operator} {e? : Option Expr} (hp : Clear inv p)
    (hexpression : p.expression terminal = (e?, q)) :
    (∃ e, e? = some e ∧ Clear inv q ∧
      ∃ continues, Parser.endsExpression terminal continues q.next = true) ∨
        e? = none ∧ (Clear inv q ∨ Lacks inv terminal p q) := by
  obtain ⟨n, hp⟩ := hp
  unfold Parser.expression at hexpression
  dsimp only at hexpression
  split at hexpression
  next y r hr =>
    rcases h.collect hp (Nat.le_refl n) (Nat.lt_succ_self _) hr with ⟨hnone, -⟩ | ⟨y', us, hy', hus⟩
    · contradiction
    · obtain rfl := Option.some.inj hy'
      obtain ⟨-, -, hpending⟩ := Parser.accepts_of_collect p.scanner.pending rfl hr
      refine (h.finishExpression hp hus hpending hexpression).imp_left ?_
      rintro ⟨e, rfl, rfl⟩
      exact ⟨e, rfl, h.clear_of_le hus.holds (Nat.le_add_right _ _), _, hus.ends⟩
  next r hr =>
    obtain ⟨rfl, rfl⟩ := Prod.mk.inj hexpression
    rcases h.collect hp (Nat.le_refl n) (Nat.lt_succ_self _) hr with ⟨-, hclear⟩ | ⟨y', us, hy', -⟩
    · exact .inr ⟨rfl, .inl hclear⟩
    · contradiction

theorem condition {terminal : Operator} {condition? : Option Condition} (hp : Clear inv p)
    (hcondition : p.condition terminal = (condition?, q)) :
    (∃ c, condition? = some c ∧ Clear inv q ∧
      ∃ continues, Parser.endsExpression terminal continues q.next = true) ∨
        condition? = none ∧ (Clear inv q ∨ Lacks inv terminal p q) := by
  unfold Parser.condition at hcondition
  split at hcondition
  next e r hr =>
    obtain ⟨rfl, rfl⟩ := Prod.mk.inj hcondition
    rcases h.expression hp hr with ⟨e', -, hread⟩ | ⟨hnone, -⟩
    · exact .inl ⟨_, rfl, hread⟩
    · contradiction
  next r hr =>
    obtain ⟨rfl, rfl⟩ := Prod.mk.inj hcondition
    rcases h.expression hp hr with ⟨e', hsome, -⟩ | hlacks
    · contradiction
    · exact .inr ⟨rfl, hlacks.2⟩

end Scanner.Discipline

end FloatLang
