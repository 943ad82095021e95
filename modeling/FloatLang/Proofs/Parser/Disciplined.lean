import FloatLang.Proofs.Parser.Complaints

/-!
# Complaints while statements are read

Every reader keeps complaints in the order of tokens. After a statement that is read there is none
about what comes next. After a loop that is not, there may be one about the next token: the
condition of a loop may come after a line has ended, and then the rest of that line is not skipped.
But such a token is a line break or a closing brace, which a body takes without a complaint.

## Main definitions

* `Parser.Pauses` — how a parser stands after a statement

## Main results

* `Scanner.Discipline.assignment`, `Scanner.Discipline.declaration` — simple statements
* `Scanner.Discipline.loopCondition`, `Scanner.Discipline.loopIncrement` — the clauses of a loop
* `Scanner.Discipline.within` — statements and bodies
-/

namespace FloatLang

theorem Token.isPlain_of_identifier? {t : Token} {x : String} (h : t.identifier? = some x) :
    t.isPlain = true := isPlain_of_identifier (kind_of_identifier? h)

theorem Token.endsLine_of_isOperator {t : Token} {op : Operator} (h : t.isOperator op = true) :
    t.endsLine = false := by
  cases hkind : t.kind <;>
    simp [isOperator, operator?, endsLine, isEndOfLine, isEndOfFile, hkind] at h ⊢

theorem Token.endsLine_of_keyword {t : Token} {word : Keyword} (h : t.kind = .keyword word) :
    t.endsLine = false := by simp [endsLine, isEndOfLine, isEndOfFile, h]

theorem Token.endsLine_of_identifier {t : Token} {x : String} (h : t.kind = .identifier x) :
    t.endsLine = false := by simp [endsLine, isEndOfLine, isEndOfFile, h]

namespace Parser

variable (inv : Nat → Nat → Scanner → Prop)

/-- Every token complained about has been taken, except perhaps the next one if that is taken without
another complaint. -/
def Pauses (p : Parser) : Prop :=
  Clear inv p ∨ Due inv p ∧ (p.next.isEndOfLine = true ∨ p.next.isOperator .rightBrace = true)

theorem last?_define (p : Parser) (x : String) (l : Location) :
    (p.define x l).2.scanner.last? = p.scanner.last? := by
  unfold define
  split <;> rfl

/-- A token that was just taken and does not end a line. -/
theorem endsLine_of_last? {p : Parser} (h : p.next.endsLine = false) :
    ∀ t ∈ p.advance.scanner.last?, t.endsLine = false := by
  intro t ht
  obtain rfl := Option.some.inj (p.scanner.last?_advance.symm.trans ht)
  exact h

end Parser

open FloatLang.Parser (Clear Due Pauses Lacks)

namespace Scanner.Discipline

variable {source : Source} {inv : Nat → Nat → Scanner → Prop} (h : Discipline source inv)
  {p q : Parser} {n c k : Nat} {problem : Problem}

include h

/-! ### Simple statements -/

/-- The rest of a line that did not begin with its end is skipped, with the token complained about. -/
theorem synchronize_of_lacks {terminal : Operator} (hq : Clear inv q ∨ Lacks inv terminal p q)
    (hlast : ∀ t ∈ p.scanner.last?, t.endsLine = false) : Clear inv q.synchronize := by
  rcases hq with hclear | hlacks
  · exact h.synchronize hclear
  · exact h.synchronize_of_due hlacks.due (hlacks.last ▸ hlast)

theorem terminator (hp : Clear inv p) : Clear inv p.terminator.2 := by
  have hfill := h.clear_fill hp 1
  unfold Parser.terminator
  dsimp only
  split
  · exact hfill
  · split
    · exact h.clear_advance hfill
    · exact h.synchronize (h.complain_last hfill rfl)

/-- Where a statement ends there is nothing to complain about. -/
theorem terminator_of_endsStatement (hp : inv n c p.scanner)
    (hends : Parser.endsStatement p.next = true) :
    ∃ n', n ≤ n' ∧ inv n' c p.terminator.2.scanner := by
  have hterminator := Parser.terminator_eq_true.2 ⟨hends, rfl⟩
  rw [hterminator]
  dsimp only
  split
  · exact ⟨n, Nat.le_refl n, h.fill hp 1⟩
  · exact ⟨n + 1, Nat.le_succ n, h.advance (h.fill hp 1)⟩

/-- The name before the token that was just taken is looked up. -/
theorem resolve_before (hp : Clear inv p) (hname : p.next.isPlain = true) (x : String) :
    Clear inv (p.advance.advance.resolve x p.next.location).2 := by
  obtain ⟨n, hp⟩ := hp
  rw [h.next_eq hp] at hname
  rw [h.place_eq hp]
  have htwo : inv (n + 2) n p.advance.advance.scanner := h.advance (h.advance hp)
  exact h.clear_of_le (h.resolve htwo (Nat.le_refl n) hname x) (Nat.le_succ _)

theorem assignment (hp : Clear inv p) (hname : p.next.isPlain = true) :
    Clear inv p.assignment.2 := by
  have hequals : Clear inv p.advance := h.clear_advance hp
  have hresolve := h.resolve_before hp hname (p.next.identifier?.getD "")
  unfold Parser.assignment
  dsimp only
  split
  next hassign =>
    have hlast := Parser.endsLine_of_last? (Token.endsLine_of_isOperator hassign)
    split
    next q hq =>
      rw [hq] at hresolve
      exact h.synchronize hresolve
    next v q hq =>
      rw [hq] at hresolve
      rw [← (Parser.resolve_eq_some hq).1] at hlast
      split
      next r hr =>
        rcases h.expression hresolve hr with ⟨e, hsome, -⟩ | ⟨-, hnone⟩
        · cases hsome
        · exact h.synchronize_of_lacks hnone hlast
      next value r hr =>
        rcases h.expression hresolve hr with ⟨e, -, hclear, -⟩ | ⟨hnone, -⟩
        · have hend := h.terminator hclear
          split
          next hu => rwa [hu] at hend
          next hu => rwa [hu] at hend
        · cases hnone
  · exact h.synchronize (h.complain_last hequals rfl)

theorem step {s : Statement} {terminated : Bool} (hp : Clear inv p)
    (hname : p.next.isPlain = true) (hstep : p.step terminated = .ok (s, q)) : Clear inv q := by
  have hresolve := h.resolve_before hp hname (p.next.identifier?.getD "")
  exact Parser.step_induction (motive := Clear inv) hstep hresolve
    (fun _ hr => h.synchronize hr) fun _ hr => h.terminator hr

/-- A declaration without a value: the name is declared after its end has been taken. -/
theorem define_behind (hp : Clear inv p) (hname : p.next.isPlain = true) (x : String)
    (hends : Parser.endsStatement (p.ahead 1) = true) :
    Clear inv ((p.fill 2).advance.terminator.2.define x p.next.location).2 := by
  obtain ⟨n, hp⟩ := hp
  rw [h.next_eq hp] at hname
  rw [h.place_eq hp]
  have hone : inv (n + 1) n (p.fill 2).advance.scanner := h.advance (h.fill hp 2)
  obtain ⟨n', hn, hterminator⟩ := h.terminator_of_endsStatement hone (by simpa using hends)
  exact h.clear_of_le (h.define hterminator (Nat.le_refl n) hname x) hn

theorem declaration (hp : Clear inv p) (hkeyword : p.next.endsLine = false) :
    Clear inv p.declaration.2 := by
  have hnamed : Clear inv (p.advance.fill 1) := h.clear_fill (h.clear_advance hp) 1
  have hlast : ∀ t ∈ (p.advance.fill 1).scanner.last?, t.endsLine = false := by
    rw [Parser.fill, Parser.modifyScanner, Scanner.last?_fill]
    exact Parser.endsLine_of_last? hkeyword
  unfold Parser.declaration
  dsimp only
  generalize p.advance.fill 1 = named at hnamed hlast ⊢
  split
  · exact h.synchronize_of_due (h.complain_next hnamed rfl) hlast
  next x hx =>
    have hname := Token.isPlain_of_identifier? hx
    rw [Parser.ahead_fill]
    split
    next hends =>
      have hdefine := h.define_behind hnamed hname x hends
      split
      next hq => rwa [hq] at hdefine
      next hq => rwa [hq] at hdefine
    · have hdue : Due inv ((named.fill 2).define x named.next.location).2 := by
        obtain ⟨n, hn⟩ := hnamed
        rw [h.next_eq hn] at hname ⊢
        exact ⟨n, h.define (h.fill hn 2) (Nat.le_refl n) hname x⟩
      split
      next v q hq =>
        obtain ⟨-, -, -, hscanner⟩ := Parser.define_eq_some hq
        have hclear : Clear inv q := by
          rw [Clear, hscanner]
          exact h.clear_fill hnamed 2
        have hnext : q.next = named.next := by
          rw [Parser.next, hscanner]
          exact named.next_fill 2
        exact h.assignment hclear (by rwa [hnext])
      next q hq =>
        have hkept := Parser.last?_define (named.fill 2) x named.next.location
        rw [hq] at hdue hkept
        refine h.synchronize_of_due hdue ?_
        rw [hkept, Parser.fill, Parser.modifyScanner, Scanner.last?_fill]
        exact hlast

/-- A complaint about the token after the next one, once the next one, which does not end the
line, has been taken. -/
theorem complain_ahead {problem : Problem} (hp : Clear inv p) (hname : p.next.endsLine = false)
    (hproblem : problem.concerns (p.ahead 1) = true) :
    Clear inv (p.advance.error (p.ahead 1).location problem).synchronize := by
  rw [← Parser.next_advance] at hproblem ⊢
  exact h.synchronize_of_due (h.complain_next (h.clear_advance hp) hproblem)
    (Parser.endsLine_of_last? hname)

theorem rejectName (hp : Clear inv p) (hname : p.next.endsLine = false)
    (hafter : (p.ahead 1).operator? = none) : Clear inv (p.rejectName (p.ahead 1)).2 :=
  h.complain_ahead hp hname (by simp [Problem.concerns, hafter])

theorem named {s : Statement} {x : String} (hp : Clear inv p) (hname : p.next.kind = .identifier x)
    (hnamed : p.named = .ok (s, q)) : Clear inv q := by
  have hfill := h.clear_fill hp 2
  have hplain : (p.fill 2).next.isPlain = true := by
    rw [Parser.next_fill]
    exact Token.isPlain_of_identifier hname
  unfold Parser.named at hnamed
  dsimp only at hnamed
  split at hnamed
  · split at hnamed
    · exact h.step hfill hplain hnamed
    · have hassignment := h.assignment hfill hplain
      rwa [Except.ok.inj hnamed] at hassignment
  next hafter =>
    have hline : (p.fill 2).next.endsLine = false := by
      rw [Parser.next_fill]
      exact Token.endsLine_of_identifier hname
    have hreject := h.rejectName hfill hline hafter
    rwa [Except.ok.inj hnamed] at hreject

theorem rejectStatement (hp : Clear inv p) : Clear inv p.rejectStatement.2 :=
  h.synchronize (h.clear_reject hp rfl)

/-! ### The clauses of a loop -/

theorem headerSemicolon (hp : Clear inv p) (clause : HeaderClause) :
    Clear inv (p.headerSemicolon clause).2 := by
  unfold Parser.headerSemicolon
  dsimp only
  split
  · exact h.clear_advance hp
  · exact h.synchronize (h.complain_last hp rfl)

/-- A line break or closing brace is taken without a complaint. -/
theorem pauses_synchronize (hp : Due inv p)
    (hnext : p.next.isEndOfLine = true ∨ p.next.isOperator .rightBrace = true) :
    Pauses inv p.synchronize := by
  unfold Parser.synchronize
  split
  · split
    · exact .inr ⟨hp, hnext⟩
    · exact .inl (h.clear_skipLine hp)
  · exact .inl (h.clear_skipLine hp)

/-- The condition of a loop may come after the end of a line, and then its complaint about the next
token may still be due. -/
theorem loopCondition {condition : Option (Option Statement)} (hp : Clear inv p)
    (hcondition : p.loopCondition = (condition, q)) :
    (∃ c, condition = some c ∧ Clear inv q) ∨ condition = none ∧ Pauses inv q := by
  have hfill := h.clear_fill hp 1
  unfold Parser.loopCondition at hcondition
  dsimp only at hcondition
  split at hcondition
  · obtain ⟨rfl, rfl⟩ := Prod.mk.inj hcondition
    exact .inl ⟨_, rfl, h.clear_advance hfill⟩
  next hsemicolon =>
    split at hcondition
    next r hr =>
      obtain ⟨rfl, rfl⟩ := Prod.mk.inj hcondition
      refine .inr ⟨rfl, ?_⟩
      rcases h.condition hfill hr with ⟨c, hsome, -⟩ | ⟨-, hclear | hlacks⟩
      · cases hsome
      · exact .inl (h.synchronize hclear)
      · refine h.pauses_synchronize hlacks.due ?_
        have hends := hlacks.ends
        have hfile := hlacks.isEndOfFile
        rw [Parser.next_fill] at hends hfile
        rw [hlacks.next, Parser.next_fill]
        rw [Parser.next_fill] at hsemicolon
        simpa [Parser.endsExpression, Token.endsLine, hfile, hsemicolon] using hends
    next c r hr =>
      rcases h.condition hfill hr with ⟨c', -, hclear, -⟩ | ⟨hnone, -⟩
      · have hend := h.headerSemicolon hclear .condition
        split at hcondition
        next hu =>
          obtain ⟨rfl, rfl⟩ := Prod.mk.inj hcondition
          rw [hu] at hend
          exact .inl ⟨_, rfl, hend⟩
        next hu =>
          obtain ⟨rfl, rfl⟩ := Prod.mk.inj hcondition
          rw [hu] at hend
          exact .inr ⟨rfl, .inl hend⟩
      · cases hnone

theorem loopIncrement {increment : Option (Option Statement)} (hp : Clear inv p)
    (hincrement : p.loopIncrement = .ok (increment, q)) : Clear inv q := by
  have hfill := h.clear_fill hp 1
  have htwo := h.clear_fill hfill 2
  unfold Parser.loopIncrement at hincrement
  dsimp only at hincrement
  split at hincrement
  · obtain ⟨-, rfl⟩ := Prod.mk.inj (Except.ok.inj hincrement)
    exact hfill
  next hname =>
    have hkind : ∃ x, p.next.identifier? = some x := by
      rw [Parser.next_fill, Option.isNone_iff_eq_none] at hname
      exact Option.ne_none_iff_exists'.1 hname
    obtain ⟨x, hx⟩ := hkind
    have hplain : ((p.fill 1).fill 2).next.isPlain = true := by
      rw [Parser.next_fill, Parser.next_fill]
      exact Token.isPlain_of_identifier? hx
    split at hincrement
    · obtain ⟨⟨s, r⟩, hstep, hrest⟩ := Parser.bind_eq_ok.1 hincrement
      have hr := h.step htwo hplain hstep
      dsimp only at hrest
      split at hrest
      · obtain ⟨-, rfl⟩ := Prod.mk.inj (Except.ok.inj hrest)
        exact h.synchronize hr
      · obtain ⟨-, rfl⟩ := Prod.mk.inj (Except.ok.inj hrest)
        exact hr
    · obtain ⟨-, rfl⟩ := Prod.mk.inj (Except.ok.inj hincrement)
      have hends : ((p.fill 1).fill 2).next.endsLine = false := by
        rw [Parser.next_fill, Parser.next_fill]
        exact Token.endsLine_of_identifier (Token.kind_of_identifier? hx)
      exact h.complain_ahead htwo hends rfl

end Scanner.Discipline

/-! ### Block statements -/

namespace Parser

/-- The reader of statements keeps complaints in order. A complaint about the next token is only due
if the statement was not read. -/
def StatementsClear (inv : Nat → Nat → Scanner → Prop)
    (statement : Parser → Except Halt (Statement × Parser)) : Prop :=
  ∀ ⦃p s q⦄, Clear inv p → statement p = .ok (s, q) →
    Pauses inv q ∧ (s.isInvalid = false → Clear inv q)

/-- The reader of bodies keeps complaints in order. -/
def BodiesClear (inv : Nat → Nat → Scanner → Prop) (body : Parser → Except Halt Parser) : Prop :=
  ∀ ⦃p q⦄, Pauses inv p → body p = .ok q → Clear inv q

end Parser

namespace Scanner.Discipline

open FloatLang.Parser (StatementsClear BodiesClear)

variable {source : Source} {inv : Nat → Nat → Scanner → Prop} (h : Discipline source inv)
  {p q : Parser} {body : Parser → Except Halt Parser}
  {statement : Parser → Except Halt (Statement × Parser)}

include h

theorem branchWith {s : Statement} (hbody : BodiesClear inv body) (hp : Clear inv p)
    (hkeyword : p.next.endsLine = false) (hbranch : Parser.branchWith body p = .ok (s, q)) :
    Clear inv q := by
  have hlast := Parser.endsLine_of_last? hkeyword
  unfold Parser.branchWith at hbranch
  dsimp only at hbranch
  split at hbranch
  next r hr =>
    obtain ⟨-, rfl⟩ := Prod.mk.inj (Except.ok.inj hbranch)
    rcases h.condition (h.clear_advance hp) hr with ⟨c, hsome, -⟩ | ⟨-, hnone⟩
    · cases hsome
    · exact h.synchronize_of_lacks hnone hlast
  next condition r hr =>
    rcases h.condition (h.clear_advance hp) hr with ⟨c, -, hclear, _, hends⟩ | ⟨hnone, -⟩
    · have hbrace : r.next.isOperator .leftBrace = true := by
        simpa [Parser.endsExpression] using hends
      rw [if_pos hbrace] at hbranch
      obtain ⟨⟨scope, u⟩, hblock, hu⟩ := Parser.bind_eq_ok.1 hbranch
      obtain ⟨-, rfl⟩ := Prod.mk.inj (Except.ok.inj hu)
      obtain ⟨v, hv, hleave⟩ := Parser.bind_eq_ok.1 hblock
      rw [Clear, Parser.scanner_of_leave hleave]
      have henter : Clear inv r.advance.enter := h.clear_advance hclear
      exact hbody (.inl henter) hv
    · cases hnone

theorem loopInit {complete : Bool} (hstatement : StatementsClear inv statement)
    (hp : Clear inv p) (hinit : Parser.loopInit statement p = .ok (complete, q)) :
    Pauses inv q ∧ (complete = true → Clear inv q) := by
  have hfill := h.clear_fill hp 1
  unfold Parser.loopInit at hinit
  dsimp only at hinit
  split at hinit
  · obtain ⟨-, rfl⟩ := Prod.mk.inj (Except.ok.inj hinit)
    have hadvance := h.clear_advance hfill
    exact ⟨.inl hadvance, fun _ => hadvance⟩
  · obtain ⟨⟨s, r⟩, hs, hrest⟩ := Parser.bind_eq_ok.1 hinit
    obtain ⟨hpauses, hvalid⟩ := hstatement hfill hs
    dsimp only at hrest
    split at hrest
    · obtain ⟨rfl, rfl⟩ := Prod.mk.inj (Except.ok.inj hrest)
      exact ⟨hpauses, fun hcomplete => absurd hcomplete (by simp)⟩
    next hfailed =>
      have hclear : Clear inv (r.push s) :=
        hvalid (Statement.isInvalid_of_initFailed (Bool.eq_false_iff.2 hfailed))
      split at hrest
      · have hsemicolon := h.headerSemicolon hclear .init
        rw [Except.ok.inj hrest] at hsemicolon
        exact ⟨.inl hsemicolon, fun _ => hsemicolon⟩
      · obtain ⟨-, rfl⟩ := Prod.mk.inj (Except.ok.inj hrest)
        exact ⟨.inl hclear, fun _ => hclear⟩

theorem loopHeaderWith {header : Option Parser.LoopHeader}
    (hstatement : StatementsClear inv statement) (hp : Clear inv p)
    (hheader : Parser.loopHeaderWith statement p = .ok (header, q)) :
    Pauses inv q ∧ (header.isSome = true → Clear inv q) := by
  obtain ⟨⟨complete, r⟩, hinit, hrest⟩ := Parser.bind_eq_ok.1 hheader
  obtain ⟨hpauses, hcomplete⟩ := h.loopInit hstatement hp hinit
  cases complete with
  | false =>
    obtain ⟨rfl, rfl⟩ := Prod.mk.inj (Except.ok.inj hrest)
    exact ⟨hpauses, fun hsome => absurd hsome (by simp)⟩
  | true =>
    dsimp only at hrest
    split at hrest
    next u hu =>
      obtain ⟨rfl, rfl⟩ := Prod.mk.inj (Except.ok.inj hrest)
      rcases h.loopCondition (hcomplete rfl) hu with ⟨c, hsome, -⟩ | ⟨-, hpauses⟩
      · cases hsome
      · exact ⟨hpauses, fun hsome => absurd hsome (by simp)⟩
    next condition u hu =>
      rcases h.loopCondition (hcomplete rfl) hu with ⟨c, -, hclear⟩ | ⟨hnone, -⟩
      · obtain ⟨⟨increment, v⟩, hincrement, hend⟩ := Parser.bind_eq_ok.1 hrest
        have hv := h.loopIncrement hclear hincrement
        suffices hq : Clear inv q from ⟨.inl hq, fun _ => hq⟩
        cases increment with
        | none =>
          obtain ⟨-, rfl⟩ := Prod.mk.inj (Except.ok.inj hend)
          exact hv
        | some increment =>
          dsimp only at hend
          split at hend
          · obtain ⟨-, rfl⟩ := Prod.mk.inj (Except.ok.inj hend)
            exact h.clear_advance hv
          · obtain ⟨-, rfl⟩ := Prod.mk.inj (Except.ok.inj hend)
            exact h.synchronize (h.complain_last hv rfl)
      · cases hnone

theorem loopWith (hbody : BodiesClear inv body) (hstatement : StatementsClear inv statement) :
    StatementsClear inv (Parser.loopWith body statement) := by
  intro p s q hp hloop
  obtain ⟨⟨header, r⟩, hheader, hrest⟩ := Parser.bind_eq_ok.1 hloop
  have henter : Clear inv p.advance.enter := h.clear_advance hp
  obtain ⟨hpauses, hread⟩ := h.loopHeaderWith hstatement henter hheader
  cases header with
  | none =>
    obtain ⟨⟨scope, u⟩, hleave, hu⟩ := Parser.bind_eq_ok.1 hrest
    obtain ⟨rfl, rfl⟩ := Prod.mk.inj (Except.ok.inj hu)
    refine ⟨?_, fun hvalid => absurd hvalid (by simp [Statement.isInvalid])⟩
    rw [Pauses, Clear, Due, Parser.next, Parser.scanner_of_leave hleave]
    exact hpauses
  | some header =>
    obtain ⟨u, hu, hend⟩ := Parser.bind_eq_ok.1 hrest
    obtain ⟨⟨scope, v⟩, hleave, hv⟩ := Parser.bind_eq_ok.1 hend
    obtain ⟨-, rfl⟩ := Prod.mk.inj (Except.ok.inj hv)
    have hpop : Clear inv r.pop.2 := hread rfl
    have hclear : Clear inv v := by
      rw [Clear, Parser.scanner_of_leave hleave]
      exact hbody (.inl hpop) hu
    exact ⟨.inl hclear, fun _ => hclear⟩

/-! ### Statements, bodies and programs -/

theorem statementWithin_succ {n : Nat} (hstatement : StatementsClear inv (Parser.statementWithin n))
    (hbody : BodiesClear inv (Parser.bodyWithin n false)) :
    StatementsClear inv (Parser.statementWithin (n + 1)) := by
  intro p s q hp hq
  have hfill := h.clear_fill hp 1
  have hdone (hclear : Clear inv q) : Pauses inv q ∧ (s.isInvalid = false → Clear inv q) :=
    ⟨.inl hclear, fun _ => hclear⟩
  unfold Parser.statementWithin at hq
  dsimp only at hq
  split at hq
  next hkind =>
    have hdeclaration := h.declaration hfill (Token.endsLine_of_keyword hkind)
    rw [Except.ok.inj hq] at hdeclaration
    exact hdone hdeclaration
  next hkind => exact hdone (h.branchWith hbody hfill (Token.endsLine_of_keyword hkind) hq)
  · exact h.loopWith hbody hstatement hfill hq
  next x hkind => exact hdone (h.named hfill hkind hq)
  · have hreject := h.rejectStatement hfill
    rw [Except.ok.inj hq] at hreject
    exact hdone hreject

theorem bodyWithin_succ {n : Nat} {top : Bool}
    (hstatement : StatementsClear inv (Parser.statementWithin n))
    (hbody : BodiesClear inv (Parser.bodyWithin n top)) :
    BodiesClear inv (Parser.bodyWithin (n + 1) top) := by
  intro p q hp hq
  have hadvance : Clear inv (p.fill 1).advance := by
    rcases hp with hclear | ⟨hdue, -⟩
    · exact h.clear_advance (h.clear_fill hclear 1)
    · exact h.clear_advance_of_due (h.due_fill hdue 1)
  -- where something else is next than a line break or a brace, nothing is due
  have hclear (hline : p.next.isEndOfLine = false) (hbrace : p.next.isOperator .rightBrace = false) :
      Clear inv (p.fill 1) := by
    rcases hp with hclear | ⟨-, hnext | hnext⟩
    · exact h.clear_fill hclear 1
    · exact absurd (hline.symm.trans hnext) Bool.false_ne_true
    · exact absurd (hbrace.symm.trans hnext) Bool.false_ne_true
  have hend (hnext : p.next.isEndOfFile = true) : Clear inv (p.fill 1) := by
    have hkind : p.next.kind = .endOfFile := by simpa [Token.isEndOfFile] using hnext
    exact hclear (by simp [Token.isEndOfLine, hkind])
      (by simp [Token.isOperator, Token.operator?, hkind])
  cases Parser.bodyWithin_succ.1 hq with
  | ends hends =>
    cases hends with
    | brace _ => exact hadvance
    | endOfFile hnext => exact hend hnext
    | program hnext =>
      obtain ⟨n, hn⟩ := hend hnext
      exact ⟨n, flush_of_giveUp h.giveUp hn⟩
  | blank _ hrest => exact hbody (.inl hadvance) hrest
  | stray _ _ hrest => exact hbody (.inl hadvance) hrest
  | statement s r hnext hs hrest =>
    rw [Parser.startsStatement, Bool.not_eq_true', Bool.or_eq_false_iff, Bool.or_eq_false_iff,
      Bool.or_eq_false_iff] at hnext
    obtain ⟨⟨⟨-, hline⟩, -⟩, hbrace⟩ := hnext
    obtain ⟨hpauses, -⟩ := hstatement (hclear hline hbrace) hs
    split at hrest
    · exact hbody hpauses hrest
    · exact hbody (p := r.push s) hpauses hrest

/-- Whatever is read keeps complaints in order, whatever the bound on the nesting. -/
theorem within (n : Nat) :
    StatementsClear inv (Parser.statementWithin n) ∧
      ∀ top, BodiesClear inv (Parser.bodyWithin n top) := by
  induction n with
  | zero =>
    refine ⟨fun p s q _ hq => ?_, fun top p q _ hq => ?_⟩
    · simp [Parser.statementWithin, Parser.halt] at hq
    · simp [Parser.bodyWithin, Parser.halt] at hq
  | succ n ih =>
    obtain ⟨hstatement, hbody⟩ := ih
    exact ⟨h.statementWithin_succ hstatement (hbody false),
      fun top => h.bodyWithin_succ hstatement (hbody top)⟩

end Scanner.Discipline

end FloatLang
