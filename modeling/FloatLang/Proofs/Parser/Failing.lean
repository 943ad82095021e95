import FloatLang.Proofs.Infix.Reading
import FloatLang.Proofs.Infix.Proper
import FloatLang.Proofs.Parser.Totality
import FloatLang.Proofs.Scope.Sight

/-!
# Failures are reported

What a parser reads leaves its scopes as they are, until a statement is done. What it reports only
ever gets longer, and whenever it fails to read something, it has reported an error by then. For a
parenthesis that an expression leaves open this rests on the brackets: those of the expression are
the innermost ones that the scanner knows to be open.

## Main definitions

* `Parser.Keeps` — a parser comes from another by taking tokens, with the same scopes
* `Parser.Fails` — and has reported an error on the way
* `Parser.GivesUp` — and has skipped the rest of the line
* `Postfix.opened` — the open parentheses of a yard, as a scanner knows them

## Main results

* `Scanner.HandsOut.reports` — reports are added at the end
* `Parser.accepts_of_collect` — what is collected is taken without objection
* `Parser.fails_expression` — an expression that is not read has been reported
* `Parser.fails_condition`, `Parser.givesUp_terminator` — so has everything else
-/

namespace FloatLang

/-! ### Reports are added -/

namespace Scanner

theorem reports_acknowledge (s : Scanner) (t : Token) : s.reports <+: (s.acknowledge t).reports := by
  unfold acknowledge
  split
  · exact List.prefix_append _ _
  · exact List.prefix_refl _

theorem reports_forget? {s f : Scanner} {l : Location} {b : Bracket}
    (h : s.forget? l = some (b, f)) : f.reports = s.reports := by
  rw [eq_of_forget? h]

/-- On the way of a scanner, reports are added at the end. -/
theorem HandsOut.reports {s s' : Scanner} {ts : List Token} (h : s.HandsOut ts s') :
    s.reports <+: s'.reports := by
  induction h with
  | refl s => exact List.prefix_refl _
  | @advance s s' _ _ ih =>
    have hadvance := ({ s.fill 1 with lookahead := (s.fill 1).lookahead.tail }).reports_acknowledge
      s.next
    have hfill : s.reports <+: s.advance.reports := by rwa [← s.reports_fill 1]
    exact hfill.trans ih
  | @fill s _ _ n _ ih => rwa [reports_fill] at ih
  | report r _ ih => exact (List.prefix_append _ _).trans ih
  | forget hf _ ih => rwa [reports_forget? hf] at ih
  | flush _ ih => exact (List.prefix_append _ _).trans ih

theorem HandsOut.errorCount_le {s s' : Scanner} {ts : List Token} (h : s.HandsOut ts s') :
    s.errorCount ≤ s'.errorCount := h.reports.sublist.countP_le

theorem errorCount_error (s : Scanner) (l : Location) (problem : Problem) :
    (s.error l problem).errorCount = s.errorCount + 1 := by
  simp [error, report, errorCount, Severity.isError]

/-- A token to which there is an objection is handed out with an error. -/
theorem errorCount_advance {s : Scanner} {problem : Problem}
    (h : s.objection? s.next = some problem) : s.advance.errorCount = s.errorCount + 1 := by
  have hfill : ({ s.fill 1 with lookahead := (s.fill 1).lookahead.tail }).objection? s.next =
      some problem := by
    rw [← h]
    unfold objection?
    rw [s.pending_fill 1]
  unfold advance acknowledge
  dsimp only
  rw [hfill]
  dsimp only
  rw [errorCount_error, errorCount, s.reports_fill 1]
  rfl

end Scanner

/-! ### The open parentheses of a yard -/

namespace Postfix

/-- The parentheses among the operators that wait, as the brackets a scanner waits for. -/
def opened (waiting : List (Operator × Location)) : List Opening :=
  (waiting.filter (·.1 == .leftParen)).map fun x => ⟨.parenthesis, x.2⟩

theorem opened_append (ops ops' : List (Operator × Location)) :
    opened (ops ++ ops') = opened ops ++ opened ops' := by
  simp [opened]

theorem opened_leftParen (l : Location) (waiting : List (Operator × Location)) :
    opened ((.leftParen, l) :: waiting) = ⟨.parenthesis, l⟩ :: opened waiting := by
  simp [opened]

theorem opened_of_ne {op : Operator} (hop : op ≠ .leftParen) (l : Location)
    (waiting : List (Operator × Location)) : opened ((op, l) :: waiting) = opened waiting := by
  simp [opened, hop]

theorem opened_eq_nil {ops : List (Operator × Location)} (h : ∀ x ∈ ops, x.1 ≠ .leftParen) :
    opened ops = [] := by
  simpa [opened] using h

theorem openParentheses_eq (y : Yard) :
    y.openParentheses = (opened y.waiting).map Opening.location := by
  simp [Yard.openParentheses, opened, Function.comp_def]

/-- A binary operator releases no parenthesis. -/
theorem opened_infixed {op : Operator} (hop : op.isBinary = true) (l : Location) (y : Yard) :
    opened (y.infixed op l).waiting = opened y.waiting := by
  have hsplit := List.takeWhile_append_dropWhile
    (p := (decide <| op.precedence ≤ ·.1.precedence)) (l := y.waiting)
  have hdone : opened (y.waiting.takeWhile (decide <| op.precedence ≤ ·.1.precedence)) = [] := by
    apply opened_eq_nil
    intro x hx
    have hle := List.all_eq_true.1 List.all_takeWhile x hx
    exact Yard.ne_leftParen_of_precedence_le hop (of_decide_eq_true hle)
  have hparen : op ≠ .leftParen := Yard.ne_leftParen_of_precedence_le hop (Int.le_refl _)
  conv => rhs; rw [← hsplit, opened_append, hdone, List.nil_append]
  exact opened_of_ne hparen l _

/-- A scanner has no objection to a token that a yard takes, and keeps its brackets in step with
the parentheses of the yard. -/
theorem follow?_of_take? {y y' : Yard} {resolve : String → Option Variable} {t : Token}
    (htake : y.take? resolve t = some y') (outside : List Opening) :
    follow? (opened y.waiting ++ outside) t = some (opened y'.waiting ++ outside) := by
  cases hkind : t.kind with
  | endOfLine =>
    simp only [Yard.take?, hkind] at htake
    obtain rfl := Option.some.inj htake
    simp [follow?, hkind]
  | numeral value =>
    simp only [Yard.take?, hkind] at htake
    obtain rfl := Option.some.inj htake
    simp [follow?, hkind, Yard.operand]
  | identifier x =>
    simp only [Yard.take?, hkind] at htake
    obtain ⟨v, -, rfl⟩ := Option.map_eq_some_iff.1 htake
    simp [follow?, hkind, Yard.operand]
  | operator op =>
    have hop := Yard.precedence_of_take? hkind htake
    rcases Yard.cases_of_precedence hop with (rfl | rfl) | hstep | rfl | hbinary
    · rw [Yard.take?_before hkind (.inl rfl)] at htake
      obtain rfl := Option.some.inj htake
      simp [follow?, hkind, Operator.opens?, Yard.wait, opened_leftParen]
    · rw [Yard.take?_before hkind (.inr rfl)] at htake
      obtain rfl := Option.some.inj htake
      simp [follow?, hkind, Operator.opens?, Operator.closes?, Yard.wait,
        opened_of_ne (show Operator.not ≠ .leftParen by decide)]
    · rw [Yard.take?_step hkind hstep] at htake
      obtain rfl := Option.some.inj htake
      exact follow?_of_isPlain (Parser.isPlain_operator hkind (Parser.bracket?_of_isStep hstep))
    · -- the last open parenthesis is the innermost bracket for both
      rw [Yard.take?_rightParen hkind] at htake
      obtain ⟨closed, hclosed, rfl⟩ := Option.map_eq_some_iff.1 htake
      obtain ⟨inside, l, left, hwaiting, hinside, rfl⟩ := Yard.close?_eq_some hclosed
      rw [hwaiting, opened_append, opened_eq_nil hinside, opened_leftParen]
      simp [follow?, hkind, Operator.opens?, Operator.closes?]
    · rw [Yard.take?_binary hkind hbinary] at htake
      obtain rfl := Option.some.inj htake
      rw [opened_infixed hbinary]
      exact follow?_of_isPlain
        (Parser.isPlain_operator hkind (Parser.bracket?_of_isBinary hbinary))
  | _ => simp [Yard.take?, hkind] at htake

end Postfix

namespace Parser

/-! ### Ways that keep the scopes -/

/-- The number of errors reported so far. -/
def errorCount (p : Parser) : Nat := p.scanner.errorCount

/-- The parser `q` comes from `p` by taking tokens, with the scopes as they were. -/
structure Keeps (p q : Parser) : Prop where
  reaches : p.Reaches q
  scopes : q.scopes = p.scopes

/-- The parser `q` comes from `p` by taking tokens, with the scopes as they were, and an error was
reported on the way. -/
structure Fails (p q : Parser) : Prop extends Keeps p q where
  errors : p.errorCount < q.errorCount

/-- The parser `q` comes from `p` by failing, and has come to skip the rest of its line. -/
structure GivesUp (p q : Parser) : Prop extends Fails p q where
  skips : ∃ r : Parser, q = r.synchronize

variable {p q r : Parser}

theorem errorCount_congr (h : q.scanner = p.scanner) : q.errorCount = p.errorCount := by
  rw [errorCount, errorCount, h]

theorem Reaches.errorCount_le (h : p.Reaches q) : p.errorCount ≤ q.errorCount := by
  obtain ⟨ts, hts⟩ := h
  exact hts.handsOut.errorCount_le

theorem Keeps.refl (p : Parser) : p.Keeps p := ⟨.refl p, rfl⟩

theorem Keeps.trans (h : p.Keeps q) (h' : q.Keeps r) : p.Keeps r :=
  ⟨h.reaches.trans h'.reaches, h'.scopes.trans h.scopes⟩

theorem Keeps.fails (h : p.Keeps q) (h' : q.Fails r) : p.Fails r :=
  ⟨h.trans h'.toKeeps, Nat.lt_of_le_of_lt h.reaches.errorCount_le h'.errors⟩

theorem Fails.keeps (h : p.Fails q) (h' : q.Keeps r) : p.Fails r :=
  ⟨h.toKeeps.trans h', Nat.lt_of_lt_of_le h.errors h'.reaches.errorCount_le⟩

variable (p)

theorem keeps_fill (n : Nat) : p.Keeps (p.fill n) := ⟨p.reaches_fill n, rfl⟩

theorem keeps_advance : p.Keeps p.advance := ⟨p.passes_advance.reaches, rfl⟩

theorem keeps_synchronize : p.Keeps p.synchronize := by
  refine ⟨p.reaches_synchronize, ?_⟩
  unfold synchronize
  split
  · split <;> rfl
  · rfl

theorem fails_error (l : Location) (problem : Problem) : p.Fails (p.error l problem) where
  reaches := p.reaches_error l problem
  scopes := rfl
  errors := by
    rw [errorCount, errorCount, error, modifyScanner, Scanner.errorCount_error]
    exact Nat.lt_succ_self _

variable {p}

/-- A token to which there is an objection is taken with an error. -/
theorem fails_advance {problem : Problem} (h : p.scanner.objection? p.next = some problem) :
    p.Fails p.advance where
  toKeeps := p.keeps_advance
  errors := by
    rw [errorCount, errorCount, advance, modifyScanner, Scanner.errorCount_advance h]
    exact Nat.lt_succ_self _

theorem fails_reject (p : Parser) (problem : Problem) : p.Fails (p.reject problem) := by
  unfold reject
  split
  next h => exact fails_advance h
  · exact p.keeps_advance.fails (fails_error _ _ _)

theorem Fails.givesUp (h : p.Fails q) : p.GivesUp q.synchronize :=
  ⟨h.keeps (keeps_synchronize q), q, rfl⟩

theorem Keeps.givesUp (h : p.Keeps q) (h' : q.GivesUp r) : p.GivesUp r :=
  ⟨h.fails h'.toFails, h'.skips⟩

/-- An error is reported, and the rest of the line skipped. -/
theorem Keeps.rejects (h : p.Keeps q) (l : Location) (problem : Problem) :
    p.GivesUp (q.error l problem).synchronize :=
  (h.fails (fails_error _ _ _)).givesUp

/-! ### Names -/

theorem resolve_eq_none {x : String} {l : Location} (h : p.resolve x l = (none, q)) :
    p.Fails q := by
  unfold resolve at h
  split at h
  · simp at h
  · obtain ⟨-, rfl⟩ := Prod.mk.inj h
    exact p.fails_error _ _

theorem resolve_eq_some {x : String} {l : Location} {v : Variable}
    (h : p.resolve x l = (some v, q)) : q = p ∧ p.scopes.resolve? x = some v := by
  unfold resolve at h
  split at h
  next v' hresolve =>
    obtain ⟨hv, rfl⟩ := Prod.mk.inj h
    exact ⟨rfl, by rw [hresolve, Option.some.inj hv]⟩
  · simp at h

theorem define_eq_none {x : String} {l : Location} (h : p.define x l = (none, q)) : p.Fails q := by
  unfold define at h
  split at h
  · simp at h
  next r _ =>
    obtain ⟨-, rfl⟩ := Prod.mk.inj h
    exact (p.fails_error _ _).keeps ⟨⟨[], takes_report _ _⟩, rfl⟩

/-- A name that is declared referred to nothing, and adds a variable to the current scope. -/
theorem define_eq_some {x : String} {l : Location} {v : Variable} (h : p.define x l = (some v, q)) :
    v = ⟨x, l⟩ ∧ p.scopes.resolve? x = none ∧ q.scopes = p.scopes.grow [v] [] p.scopes.nextId ∧
      q.scanner = p.scanner := by
  unfold define at h
  split at h
  next v' c hdefine =>
    obtain ⟨hv, rfl⟩ := Prod.mk.inj h
    obtain rfl := Option.some.inj hv
    obtain ⟨hv', hnone, hscopes⟩ := ScopeChain.define_eq_ok hdefine
    exact ⟨hv', hnone, hscopes, rfl⟩
  · simp at h

/-! ### Expressions -/

open Postfix (Yard opened)

variable {terminal : Operator} {y y' : Yard} {n : Nat}

theorem scopes_collect (terminal : Operator) (n : Nat) (y : Yard) (p : Parser) :
    (collect terminal n y p).2.scopes = p.scopes := by
  induction n generalizing y p with
  | zero => rfl
  | succ n ih =>
    have hreject (problem : Problem) : ((p.fill 1).reject problem).scopes = p.scopes :=
      (fails_reject (p.fill 1) problem).scopes
    unfold collect
    dsimp only
    split
    · rfl
    · split
      · exact ih _ _
      · exact hreject _
      · exact ih _ _
      next name _ =>
        split
        next v q h =>
          obtain ⟨rfl, -⟩ := resolve_eq_some h
          exact ih _ _
        next q h => exact (resolve_eq_none h).scopes
      · exact hreject _
      · rfl
      · split
        · exact hreject _
        · split
          · exact ih _ _
          · exact hreject _

/-- Tokens that are not collected up to the end of an expression have been reported. -/
theorem fails_collect (hn : p.remaining < n) (h : collect terminal n y p = (none, q)) :
    p.Fails q := by
  induction n generalizing y p with
  | zero => contradiction
  | succ n ih =>
    have hfill := p.keeps_fill 1
    have hle := hfill.reaches.remaining_le
    -- a token that lets the expression go on is not the end of the file
    have hmore {kind : TokenKind} (y : Yard) (hkind : (p.fill 1).next.kind = kind)
        (hne : kind ≠ .endOfFile) (h : collect terminal n y (p.fill 1).advance = (none, q)) :
        p.Fails q := by
      have hlt := (p.fill 1).remaining_advance_lt hkind hne
      exact (hfill.trans (keeps_advance _)).fails (ih (by omega) h)
    have hreject (problem : Problem) (h : ((none : Option Yard), (p.fill 1).reject problem) =
        (none, q)) : p.Fails q := by
      obtain ⟨-, rfl⟩ := Prod.mk.inj h
      exact hfill.fails (fails_reject _ _)
    unfold collect at h
    dsimp only at h
    split at h
    · simp at h
    · split at h
      next hkind => exact hmore _ hkind (by simp) h
      next hkind => exact hreject _ h
      next hkind => exact hmore _ hkind (by simp) h
      next name hkind =>
        split at h
        next v q' hresolve =>
          obtain ⟨rfl, -⟩ := resolve_eq_some hresolve
          exact hmore _ hkind (by simp) h
        next q' hresolve =>
          obtain ⟨-, rfl⟩ := Prod.mk.inj h
          exact (hfill.trans (keeps_advance _)).fails (resolve_eq_none hresolve)
      next hkind => exact hreject _ h
      next error hkind =>
        have hobjection : (p.fill 1).scanner.objection? (p.fill 1).next = some (.lexical error) := by
          unfold Scanner.objection?
          rw [hkind]
        obtain ⟨-, rfl⟩ := Prod.mk.inj h
        exact hfill.fails (fails_advance hobjection)
      next op hkind =>
        split at h
        · exact hreject _ h
        · split at h
          · exact hmore _ hkind (by simp) h
          · exact hreject _ h

/-- What is collected is taken without objection, and the brackets open afterwards are the open
parentheses of the yard inside those open before. -/
theorem accepts_of_collect (outside : List Opening)
    (hpending : p.scanner.pending = opened y.waiting ++ outside)
    (h : collect terminal n y p = (some y', q)) :
    ∃ us, p.scanner.Accepts us q.scanner ∧ q.scanner.pending = opened y'.waiting ++ outside := by
  induction n generalizing y p with
  | zero => simp [collect] at h
  | succ n ih =>
    by_cases hend : endsExpression terminal y.continues p.next = true
    · rw [collect_end hend] at h
      obtain ⟨hy, rfl⟩ := Prod.mk.inj h
      obtain rfl := Option.some.inj hy
      exact ⟨[], p.scanner.accepts_fill 1, (p.scanner.pending_fill 1).trans hpending⟩
    · cases htake : y.take? p.scopes.resolve? p.next with
      | none =>
        have hnone := collect_stop (n := n) hend htake
        simp [h] at hnone
      | some first =>
        rw [collect_take hend htake] at h
        have hfollow := Postfix.follow?_of_take? htake outside
        rw [← hpending] at hfollow
        obtain ⟨haccepts, hfirst⟩ := accepts_fill_advance hfollow
        obtain ⟨us, hus, hall⟩ := ih hfirst h
        exact ⟨_, haccepts.trans hus, hall⟩

theorem scopes_reportUnclosed (ls : List Location) (p : Parser) :
    (p.reportUnclosed ls).scopes = p.scopes := by
  induction ls generalizing p with
  | nil => rfl
  | cons l ls ih =>
    unfold reportUnclosed
    rw [List.foldl_cons]
    split
    · exact ih _
    · exact ih p

/-- Parentheses left open are reported, if the scanner knows the innermost one of them. -/
theorem fails_reportUnclosed {l : Location} {ls : List Location}
    (h : ∃ o ∈ p.scanner.pending, o.location = l) : p.Fails (p.reportUnclosed (l :: ls)) where
  reaches := p.reaches_reportUnclosed _
  scopes := scopes_reportUnclosed _ p
  errors := by
    obtain ⟨o, ho, rfl⟩ := h
    have hfind : (p.scanner.pending.find? (·.location.same o.location)).isSome = true := by
      rw [List.find?_isSome]
      exact ⟨o, ho, o.location.same_self⟩
    obtain ⟨found, hfound⟩ := Option.isSome_iff_exists.1 hfind
    unfold reportUnclosed
    rw [List.foldl_cons]
    simp only [Scanner.forget?, hfound]
    -- the first one is reported, and what follows only adds reports
    refine Nat.lt_of_lt_of_le ?_ (reaches_reportUnclosed _ ls).errorCount_le
    rw [errorCount, errorCount, Scanner.errorCount_error]
    exact Nat.lt_succ_self _

theorem keeps_expression (terminal : Operator) (p : Parser) :
    p.Keeps (p.expression terminal).2 := by
  have hcollect := scopes_collect terminal (p.remaining + 1) {} p
  refine ⟨p.reaches_expression terminal, ?_⟩
  unfold expression
  dsimp only
  split
  next y q h =>
    rw [h] at hcollect
    unfold finishExpression
    split
    · split <;> exact hcollect
    · exact (scopes_reportUnclosed _ q).trans hcollect
  next q h =>
    rw [h] at hcollect
    exact hcollect

theorem keeps_of_expression {e? : Option Expr} (h : p.expression terminal = (e?, q)) :
    p.Keeps q := by
  have hkeeps := keeps_expression terminal p
  rwa [h] at hkeeps

/-- An expression that is not read has been reported. -/
theorem fails_expression (h : p.expression terminal = (none, q)) : p.Fails q := by
  refine ⟨keeps_of_expression h, ?_⟩
  unfold expression at h
  dsimp only at h
  split at h
  next y q' hcollect =>
    have hreaches := p.reaches_collect terminal (p.remaining + 1) {}
    rw [hcollect] at hreaches
    apply Nat.lt_of_le_of_lt hreaches.errorCount_le
    unfold finishExpression at h
    split at h
    · split at h
      · simp at h
      · obtain ⟨-, rfl⟩ := Prod.mk.inj h
        exact (q'.fails_error _ _).errors
    next hopen =>
      -- every open parenthesis of the yard is open for the scanner too
      obtain ⟨-, rfl⟩ := Prod.mk.inj h
      obtain ⟨-, -, hpending⟩ := accepts_of_collect p.scanner.pending rfl hcollect
      rw [Postfix.openParentheses_eq] at hopen ⊢
      cases hopened : opened y.waiting with
      | nil => simp [hopened] at hopen
      | cons o os =>
        rw [hopened, List.cons_append] at hpending
        have hmem : o ∈ q'.scanner.pending := by
          rw [hpending]
          exact List.mem_cons_self
        exact (fails_reportUnclosed ⟨o, hmem, rfl⟩).errors
  next q' hcollect =>
    obtain ⟨-, rfl⟩ := Prod.mk.inj h
    exact (fails_collect (Nat.lt_succ_self _) hcollect).errors

theorem condition_eq_some {c : Condition} (h : p.condition terminal = (some c, q)) :
    p.expression terminal = (some c.inner, q) ∧ c.location = c.inner.location := by
  unfold condition at h
  split at h
  next e r hexpression =>
    obtain ⟨hc, rfl⟩ := Prod.mk.inj h
    obtain rfl := Option.some.inj hc
    exact ⟨hexpression, rfl⟩
  · simp at h

theorem fails_condition (h : p.condition terminal = (none, q)) : p.Fails q := by
  unfold condition at h
  split at h
  · simp at h
  next hexpression =>
    obtain ⟨-, rfl⟩ := Prod.mk.inj h
    exact fails_expression hexpression

theorem keeps_condition {c : Condition} (h : p.condition terminal = (some c, q)) : p.Keeps q := by
  obtain ⟨hexpression, -⟩ := condition_eq_some h
  exact keeps_of_expression hexpression

/-! ### The ends of statements and clauses -/

theorem keeps_terminator (p : Parser) : p.Keeps p.terminator.2 := by
  have hadvance := (p.keeps_fill 1).trans (keeps_advance _)
  unfold terminator
  dsimp only
  split
  · exact p.keeps_fill 1
  · split
    · exact hadvance
    · exact (hadvance.rejects _ _).toKeeps

theorem keeps_of_terminator {ended : Bool} (h : p.terminator = (ended, q)) : p.Keeps q := by
  have hkeeps := keeps_terminator p
  rwa [h] at hkeeps

theorem givesUp_terminator (h : p.terminator = (false, q)) : p.GivesUp q := by
  unfold terminator at h
  dsimp only at h
  split at h
  · simp at h
  · split at h
    · simp at h
    · obtain ⟨-, rfl⟩ := Prod.mk.inj h
      exact ((p.keeps_fill 1).trans (keeps_advance _)).rejects _ _

theorem keeps_headerSemicolon (clause : HeaderClause) (p : Parser) :
    p.Keeps (p.headerSemicolon clause).2 := by
  unfold headerSemicolon
  dsimp only
  split
  · exact p.keeps_advance
  · exact (p.keeps_advance.rejects _ _).toKeeps

theorem keeps_of_headerSemicolon {clause : HeaderClause} {there : Bool}
    (h : p.headerSemicolon clause = (there, q)) : p.Keeps q := by
  have hkeeps := keeps_headerSemicolon clause p
  rwa [h] at hkeeps

theorem givesUp_headerSemicolon {clause : HeaderClause}
    (h : p.headerSemicolon clause = (false, q)) : p.GivesUp q := by
  unfold headerSemicolon at h
  dsimp only at h
  split at h
  · simp at h
  · obtain ⟨-, rfl⟩ := Prod.mk.inj h
    exact p.keeps_advance.rejects _ _

theorem givesUp_rejectName (p : Parser) (after : Token) : p.GivesUp (p.rejectName after).2 :=
  p.keeps_advance.rejects _ _

theorem givesUp_rejectStatement (p : Parser) : p.GivesUp p.rejectStatement.2 :=
  (fails_reject p _).givesUp

end Parser

end FloatLang
