import FloatLang.Proofs.Parser.Disciplined
import FloatLang.Proofs.Parser.Nesting

/-!
# A failed statement is skipped to the end of its line

Whatever is wrong with a statement, the parser goes on with the next line: it skips the rest of the
line that it has come to, unless the last token that it took was its end. There is one failure of
which nothing is left to skip, that of a second declaration `float x` with the token that ends it.
But as the first clause of a loop such a declaration ends where the clause does, and the loop is
given up there without another look at the line: what is left of its header is then read as
statements.

## Main definitions

* `Parser.OnFreshLine` — the last token that was taken ended its line
* `Parser.Redeclares` — a declaration of a known name is next, perhaps as the first clause of loops

## Main results

* `Parser.GivesUp.onFreshLine` — a line that is given up is over
* `Parser.onFreshLine_of_assignment`, `Parser.onFreshLine_of_branch`, `Parser.onFreshLine_of_loop` —
  so is that of a statement that has failed
* `Parser.declaration_of_redeclares`, `Parser.loop_of_redeclares` — a declaration of a known name ends
  before its line
* `Parser.failed_statement_ends_line` — which statements fail in the middle of a line
* `Parser.rest_of_header_is_next` — one of them is a loop
-/

namespace FloatLang

namespace Scanner

/-- A line that is skipped is skipped with its end. -/
theorem last?_skipLineWithin {s : Scanner} {n : Nat} (h : s.remaining < n) :
    ∃ t, (skipLineWithin n s).last? = some t ∧ t.endsLine = true := by
  induction n generalizing s with
  | zero => exact absurd h (Nat.not_lt_zero _)
  | succ n ih =>
    unfold skipLineWithin
    split
    next hline => exact ⟨s.next, s.last?_advance, hline⟩
    next hline =>
      -- the end of the file would end the line, so there are fewer tokens left
      have hend : s.next.isEndOfFile = false := by
        rw [Token.endsLine, Bool.or_eq_true, not_or] at hline
        exact Bool.eq_false_iff.2 hline.2
      have hlt := s.remaining_advance_lt hend
      exact ih (by omega)

end Scanner

namespace Parser

variable {p q r : Parser} {s : Statement} {n k : Nat} {body : Parser → Except Halt Parser}
  {statement : Parser → Except Halt (Statement × Parser)}

/-! ### Fresh lines -/

/-- The last token that was taken has ended its line. -/
def OnFreshLine (p : Parser) : Prop := ∃ t, p.scanner.last? = some t ∧ t.endsLine = true

theorem OnFreshLine.congr (h : p.OnFreshLine) (hlast : q.scanner.last? = p.scanner.last?) :
    q.OnFreshLine := by
  rw [OnFreshLine, hlast]
  exact h

/-- A token that was just taken tells where the parser is. -/
theorem onFreshLine_advance_iff : p.advance.OnFreshLine ↔ p.next.endsLine = true := by
  rw [OnFreshLine, advance, modifyScanner, Scanner.last?_advance]
  constructor
  · rintro ⟨t, ht, hline⟩
    rwa [← Option.some.inj ht] at hline
  · exact fun hline => ⟨_, rfl, hline⟩

/-- A line that is given up is over. -/
theorem onFreshLine_synchronize (p : Parser) : p.synchronize.OnFreshLine := by
  have hskip : (p.modifyScanner Scanner.skipLine).OnFreshLine :=
    Scanner.last?_skipLineWithin (Nat.lt_succ_self _)
  unfold synchronize
  split
  next t hlast =>
    split
    next hline => exact ⟨t, hlast, hline⟩
    · exact hskip
  · exact hskip

/-! ### Simple statements -/

theorem initFailed_of_isInvalid (h : s.isInvalid = true) : initFailed s = true := by
  cases s <;> first | exact h | contradiction

theorem GivesUp.onFreshLine (h : p.GivesUp q) : q.OnFreshLine := by
  obtain ⟨r, rfl⟩ := h.skips
  exact onFreshLine_synchronize r

theorem onFreshLine_of_assignment (h : p.assignment = (s, q)) (hs : initFailed s = true) :
    q.OnFreshLine := by
  rcases assignment_steps h with ⟨l, rfl, hgives⟩ | ⟨_, _, _, -, -, -, -, rfl, -⟩
  · exact hgives.onFreshLine
  · exact absurd hs Bool.false_ne_true

theorem onFreshLine_of_step (h : p.step true = .ok (s, q)) (hs : initFailed s = true) :
    q.OnFreshLine := by
  rcases step_cases h with ⟨l, rfl, -, hgives⟩ | ⟨_, _, -, -, rfl, -⟩
  · exact (hgives rfl).onFreshLine
  · exact absurd hs Bool.false_ne_true

theorem onFreshLine_of_named (h : p.named = .ok (s, q)) (hs : initFailed s = true) :
    q.OnFreshLine := by
  rcases named_cases h with ⟨l, rfl, hgives⟩ | hstep | hassignment
  · exact hgives.onFreshLine
  · exact onFreshLine_of_step hstep hs
  · exact onFreshLine_of_assignment hassignment hs

/-! ### Declarations of known names -/

/-- The tokens ahead are the keywords of `k` loops and then `float x`, where `x` is known already,
and a `;` or a closing brace comes behind it. -/
def Redeclares (p : Parser) (k : Nat) : Prop :=
  (∀ i < k, (p.ahead i).kind = .keyword .for) ∧ (p.ahead k).kind = .keyword .float ∧
    ∃ x, (p.ahead (k + 1)).kind = .identifier x ∧ p.scopes.isDefined x = true ∧
      ((p.ahead (k + 2)).isOperator .semicolon = true ∨
        (p.ahead (k + 2)).isOperator .rightBrace = true)

theorem Redeclares.congr (h : p.Redeclares k) (hahead : ∀ i, q.ahead i = p.ahead i)
    (hscopes : q.scopes = p.scopes) : q.Redeclares k := by
  simp only [Redeclares, hahead, hscopes]
  exact h

/-- The first clause of a loop comes behind its keyword. -/
theorem redeclares_succ_iff :
    p.Redeclares (k + 1) ↔ p.next.kind = .keyword .for ∧ p.advance.enter.Redeclares k := by
  have hahead (i : Nat) : p.advance.enter.ahead i = p.ahead (i + 1) := p.ahead_advance i
  have hdefined (x : String) : p.advance.enter.scopes.isDefined x = p.scopes.isDefined x :=
    congrArg Option.isSome (p.scopes.resolve?_enter x)
  simp only [Redeclares, hahead, hdefined]
  constructor
  · rintro ⟨hfor, hrest⟩
    exact ⟨hfor 0 (Nat.succ_pos k), fun i hi => hfor (i + 1) (Nat.succ_lt_succ hi), hrest⟩
  · rintro ⟨hkeyword, hfor, hrest⟩
    refine ⟨fun i hi => ?_, hrest⟩
    cases i with
    | zero => exact hkeyword
    | succ i => exact hfor i (Nat.lt_of_succ_lt_succ hi)

/-- A keyword comes first. -/
theorem Redeclares.isOperator_next (h : p.Redeclares k) (op : Operator) :
    p.next.isOperator op = false := by
  have hkeyword : ∃ word, p.next.kind = .keyword word := by
    cases k with
    | zero => exact ⟨_, h.2.1⟩
    | succ k => exact ⟨_, h.1 0 (Nat.succ_pos k)⟩
  obtain ⟨word, hword⟩ := hkeyword
  simp [Token.isOperator, Token.operator?, hword]

/-- A name that can not be declared is known. -/
theorem isDefined_of_define {x : String} {l : Location} (h : p.define x l = (none, q)) :
    p.scopes.isDefined x = true := by
  cases hv : p.scopes.resolve? x with
  | some v => rw [ScopeChain.isDefined, hv]; rfl
  | none =>
    unfold define at h
    rw [ScopeChain.define_of_none hv] at h
    simp at h

/-- A name that is known can not be declared. -/
theorem define_of_isDefined {x : String} (hx : p.scopes.isDefined x = true) (l : Location) :
    (p.define x l).1 = none := by
  obtain ⟨v, hv⟩ := Option.isSome_iff_exists.1 hx
  unfold define ScopeChain.define
  rw [hv]

/-- The end of a statement ends its line unless it is a `;` or a closing brace. -/
theorem onFreshLine_terminator_iff (hends : endsStatement p.next = true) (hp : ¬p.OnFreshLine) :
    p.terminator.2.OnFreshLine ↔
      ¬(p.next.isOperator .semicolon = true ∨ p.next.isOperator .rightBrace = true) := by
  rw [terminator_eq_true.2 ⟨hends, rfl⟩]
  dsimp only
  split
  next hbrace =>
    have hfill : ¬(p.fill 1).OnFreshLine := fun h => hp (h.congr (p.scanner.last?_fill 1).symm)
    exact ⟨fun h => absurd h hfill, fun h => absurd (.inr hbrace) h⟩
  next hbrace =>
    rw [onFreshLine_advance_iff, next_fill]
    constructor
    · rintro hline (hsemicolon | hbrace')
      · rw [Token.endsLine_of_isOperator hsemicolon] at hline
        contradiction
      · exact hbrace hbrace'
    · intro hnot
      rw [not_or] at hnot
      simpa [endsStatement, Token.isTerminator, hnot.1, hnot.2] using hends

/-- A known name that is declared once more is taken with the end of the statement. -/
theorem onFreshLine_define_iff {x : String} {l : Location} (hname : p.next.kind = .identifier x)
    (hends : endsStatement (p.ahead 1) = true)
    (hdefine : p.advance.terminator.2.define x l = (none, q)) :
    q.OnFreshLine ↔
      ¬((p.ahead 1).isOperator .semicolon = true ∨ (p.ahead 1).isOperator .rightBrace = true) := by
  have hlast := last?_define p.advance.terminator.2 x l
  rw [hdefine] at hlast
  have hadvance : ¬p.advance.OnFreshLine := by
    rw [onFreshLine_advance_iff, Token.endsLine_of_identifier hname]
    exact Bool.false_ne_true
  rw [← next_advance] at hends ⊢
  rw [← onFreshLine_terminator_iff hends hadvance]
  exact ⟨fun h => h.congr hlast.symm, fun h => h.congr hlast⟩

/-- A declaration of a known name that is next is one of those that are given up. -/
theorem redeclares_zero_iff {x : String} (hkeyword : p.next.kind = .keyword .float)
    (hname : (p.ahead 1).kind = .identifier x) :
    p.Redeclares 0 ↔ p.scopes.isDefined x = true ∧
      ((p.ahead 2).isOperator .semicolon = true ∨ (p.ahead 2).isOperator .rightBrace = true) := by
  constructor
  · rintro ⟨-, -, y, hy, hrest⟩
    obtain rfl := TokenKind.identifier.inj (hy.symm.trans hname)
    exact hrest
  · exact fun h => ⟨fun i hi => absurd hi (Nat.not_lt_zero i), hkeyword, x, hname, h⟩

/-- A declaration that fails is over with its line, unless it is that of a known name with the token
that ends it. -/
theorem onFreshLine_of_declaration (hkeyword : p.next.kind = .keyword .float)
    (h : p.declaration = (s, q)) (hs : initFailed s = true) (hnot : ¬p.Redeclares 0) :
    q.OnFreshLine := by
  have hahead (i : Nat) : ((p.advance.fill 1).fill 2).ahead i = p.ahead (i + 1) := by simp
  have hscopes : ((p.advance.fill 1).fill 2).scopes = p.scopes := rfl
  unfold declaration at h
  dsimp only at h
  split at h
  · obtain ⟨-, rfl⟩ := Prod.mk.inj h
    exact onFreshLine_synchronize _
  next x hname =>
    have hkind := Token.kind_of_identifier? hname
    rw [next_fill, next_advance] at hkind
    rw [redeclares_zero_iff hkeyword hkind] at hnot
    generalize (p.advance.fill 1).fill 2 = named at h hahead hscopes
    split at h
    next hends =>
      split at h
      · obtain ⟨rfl, -⟩ := Prod.mk.inj h
        exact absurd hs Bool.false_ne_true
      next u hdefine =>
        obtain ⟨-, rfl⟩ := Prod.mk.inj h
        have hnext : named.next.kind = .identifier x := (congrArg Token.kind (hahead 0)).trans hkind
        rw [onFreshLine_define_iff hnext hends hdefine, hahead 1]
        -- the name could not be declared, so it is known
        have hknown := isDefined_of_define hdefine
        rw [(keeps_terminator _).scopes, scopes_advance, hscopes] at hknown
        exact fun hend => hnot ⟨hknown, hend⟩
    · split at h
      · -- the variable is there, so it is its value that has failed
        obtain ⟨rfl, rfl⟩ := Prod.mk.inj h
        exact onFreshLine_of_assignment (Prod.eta _).symm (initFailed_of_isInvalid hs)
      · obtain ⟨-, rfl⟩ := Prod.mk.inj h
        exact onFreshLine_synchronize _

/-- The declaration of a known name fails, and its line goes on behind the token that ends it. -/
theorem declaration_of_redeclares (hp : p.Redeclares 0) (h : p.declaration = (s, q)) :
    s.isInvalid = true ∧ ¬q.OnFreshLine := by
  obtain ⟨-, hkeyword, x, hkind, hknown, hend⟩ := hp
  have hahead (i : Nat) : ((p.advance.fill 1).fill 2).ahead i = p.ahead (i + 1) := by simp
  have hscopes : ((p.advance.fill 1).fill 2).scopes = p.scopes := rfl
  have hname : (p.advance.fill 1).next.identifier? = some x := by
    rw [next_fill, next_advance, Token.identifier?, hkind]
  have hends : endsStatement (p.ahead 2) = true := by
    rcases hend with hend | hend <;> simp [endsStatement, Token.isTerminator, hend]
  unfold declaration at h
  simp only [hname] at h
  generalize (p.advance.fill 1).fill 2 = named at h hahead hscopes
  rw [← hahead 1] at hends hend
  rw [if_pos hends] at h
  have hnext : named.next.kind = .identifier x := (congrArg Token.kind (hahead 0)).trans hkind
  have hknown' : named.advance.terminator.2.scopes.isDefined x = true := by
    rw [(keeps_terminator _).scopes, scopes_advance, hscopes]
    exact hknown
  have hdefine := define_of_isDefined hknown' (p.advance.fill 1).next.location
  split at h
  next hsome =>
    rw [hsome] at hdefine
    exact absurd hdefine (Option.some_ne_none _)
  next u hnone =>
    obtain ⟨rfl, rfl⟩ := Prod.mk.inj h
    exact ⟨rfl, fun hfresh => (onFreshLine_define_iff hnext hends hnone).1 hfresh hend⟩

/-! ### Block statements -/

/-- Whatever the reader fails to read is over with its line, unless a declaration of a known name is
next, perhaps as the first clause of loops. -/
def FailsWithLines (statement : Parser → Except Halt (Statement × Parser)) : Prop :=
  ∀ ⦃p s q⦄, statement p = .ok (s, q) → initFailed s = true → (∀ k, ¬p.Redeclares k) → q.OnFreshLine

/-- The reader fails in the middle of a line where a declaration of a known name is next, perhaps as
the first clause of loops. -/
def FailsWithinLines (statement : Parser → Except Halt (Statement × Parser)) : Prop :=
  ∀ ⦃p s q k⦄, statement p = .ok (s, q) → p.Redeclares k → s.isInvalid = true ∧ ¬q.OnFreshLine

theorem onFreshLine_of_branch (h : branchWith body p = .ok (s, q)) (hs : initFailed s = true) :
    q.OnFreshLine := by
  rcases branchWith_cases h with ⟨l, rfl, hgives⟩ | ⟨_, _, _, _, -, -, -, -, rfl⟩
  · exact hgives.onFreshLine
  · exact absurd hs Bool.false_ne_true

theorem onFreshLine_of_loopInit (hstatement : FailsWithLines statement)
    (h : loopInit statement p = .ok (false, q)) (hnot : ∀ k, ¬p.Redeclares k) : q.OnFreshLine := by
  rcases loopInit_steps h with ⟨hcomplete, -⟩ | ⟨s, u, hs, hrest⟩
  · contradiction
  · split at hrest
    next hfailed =>
      obtain ⟨-, rfl⟩ := hrest
      exact hstatement hs hfailed fun k hk => hnot k (hk.congr (by simp) rfl)
    · exact (hrest.2 rfl).onFreshLine

theorem onFreshLine_of_loopHeader (hstatement : FailsWithLines statement)
    (h : loopHeaderWith statement p = .ok (none, q)) (hnot : ∀ k, ¬p.Redeclares k) :
    q.OnFreshLine := by
  obtain ⟨complete, u, hinit, hrest⟩ := loopHeader_steps h
  cases complete with
  | false =>
    obtain ⟨-, rfl⟩ := hrest
    exact onFreshLine_of_loopInit hstatement hinit hnot
  | true =>
    rcases hrest with ⟨-, hgives⟩ | ⟨_, _, _, hheader, -⟩
    · exact hgives.onFreshLine
    · contradiction

/-- A loop is given up with its header, and leaves the parser where that has. -/
theorem loopHeader_of_initFailed (h : loopWith body statement p = .ok (s, q))
    (hs : initFailed s = true) :
    ∃ u, loopHeaderWith statement p.advance.enter = .ok (none, u) ∧ q.scanner = u.scanner := by
  obtain ⟨⟨header, u⟩, hheader, hrest⟩ := bind_eq_ok.1 h
  cases header with
  | none =>
    obtain ⟨⟨scope, r⟩, hleave, hrest⟩ := bind_eq_ok.1 hrest
    obtain ⟨-, rfl⟩ := Prod.mk.inj (Except.ok.inj hrest)
    exact ⟨u, hheader, scanner_of_leave hleave⟩
  | some header =>
    dsimp only at hrest
    obtain ⟨w, -, hrest⟩ := bind_eq_ok.1 hrest
    obtain ⟨⟨scope, r⟩, -, hrest⟩ := bind_eq_ok.1 hrest
    obtain ⟨rfl, -⟩ := Prod.mk.inj (Except.ok.inj hrest)
    exact absurd hs Bool.false_ne_true

/-- A loop that fails is over with its line, unless its first clause is not. -/
theorem onFreshLine_of_loop (hstatement : FailsWithLines statement)
    (hkeyword : p.next.kind = .keyword .for) (h : loopWith body statement p = .ok (s, q))
    (hs : initFailed s = true) (hnot : ∀ k, ¬p.Redeclares k) : q.OnFreshLine := by
  obtain ⟨u, hheader, hscanner⟩ := loopHeader_of_initFailed h hs
  have hinit (k : Nat) : ¬p.advance.enter.Redeclares k := fun hk =>
    hnot (k + 1) (redeclares_succ_iff.2 ⟨hkeyword, hk⟩)
  exact (onFreshLine_of_loopHeader hstatement hheader hinit).congr (by rw [hscanner])

/-- A first clause that ends before its line leaves the rest of the line to be read. -/
theorem loop_of_redeclares (hstatement : FailsWithinLines statement)
    (hp : p.advance.enter.Redeclares k) (h : loopWith body statement p = .ok (s, q)) :
    s.isInvalid = true ∧ ¬q.OnFreshLine := by
  obtain ⟨⟨header, u⟩, hheader, hrest⟩ := bind_eq_ok.1 h
  obtain ⟨⟨complete, v⟩, hinit, hclauses⟩ := bind_eq_ok.1 hheader
  have hclause : (p.advance.enter.fill 1).Redeclares k := hp.congr (by simp) rfl
  have hnext := hclause.isOperator_next .semicolon
  unfold loopInit at hinit
  simp only [hnext, Bool.false_eq_true, ite_false] at hinit
  obtain ⟨⟨init, w⟩, hs, hinit⟩ := bind_eq_ok.1 hinit
  obtain ⟨hinvalid, hline⟩ := hstatement hs hclause
  dsimp only at hinit
  rw [if_pos (initFailed_of_isInvalid hinvalid)] at hinit
  obtain ⟨rfl, rfl⟩ := Prod.mk.inj (Except.ok.inj hinit)
  obtain ⟨rfl, rfl⟩ := Prod.mk.inj (Except.ok.inj hclauses)
  obtain ⟨⟨scope, r⟩, hleave, hrest⟩ := bind_eq_ok.1 hrest
  obtain ⟨rfl, rfl⟩ := Prod.mk.inj (Except.ok.inj hrest)
  exact ⟨rfl, fun hfresh => hline (hfresh.congr (by rw [scanner_of_leave hleave]))⟩

/-! ### All statements -/

theorem failsWithLines_within (n : Nat) : FailsWithLines (statementWithin n) := by
  induction n with
  | zero =>
    intro p s q h
    simp [statementWithin, halt] at h
  | succ n ih =>
    intro p s q h hs hnot
    have hfill (k : Nat) : ¬(p.fill 1).Redeclares k := fun hk => hnot k (hk.congr (by simp) rfl)
    rw [statementWithin] at h
    split at h
    next hkind => exact onFreshLine_of_declaration hkind (Except.ok.inj h) hs (hfill 0)
    · exact onFreshLine_of_branch h hs
    next hkind => exact onFreshLine_of_loop ih hkind h hs hfill
    · exact onFreshLine_of_named h hs
    · obtain ⟨-, rfl⟩ := Prod.mk.inj (Except.ok.inj h)
      exact onFreshLine_synchronize _

theorem failsWithinLines_within (n : Nat) : FailsWithinLines (statementWithin n) := by
  induction n with
  | zero =>
    intro p s q k h
    simp [statementWithin, halt] at h
  | succ n ih =>
    intro p s q k h hp
    have hclause : (p.fill 1).Redeclares k := hp.congr (by simp) rfl
    rw [statementWithin] at h
    cases k with
    | zero =>
      have hkeyword : (p.fill 1).next.kind = .keyword .float := hclause.2.1
      rw [hkeyword] at h
      exact declaration_of_redeclares hclause (Except.ok.inj h)
    | succ k =>
      obtain ⟨hkeyword, hinit⟩ := redeclares_succ_iff.1 hclause
      rw [hkeyword] at h
      exact loop_of_redeclares ih hinit h

/-- A statement that fails, wherever it is read, takes a token, and the last that it takes ends its
line, unless a declaration `float x` of a known name with a `;` or a closing brace behind it was
next: as the statement itself, or as the first clause of a loop, or of a loop that is such a clause
in turn. -/
theorem failed_statement_ends_line (h : statementWithin n p = .ok (s, q))
    (hs : s.isInvalid = true) :
    ∃ ts t, p.Takes (ts ++ [t]) q ∧ q.scanner.last? = some t ∧
      (t.endsLine = true ↔ ∀ k, ¬p.Redeclares k) := by
  obtain ⟨s', q', hread, us, hus⟩ := p.statement_passes
  rw [extends_statement n p _ h] at hread
  obtain ⟨rfl, rfl⟩ := Prod.mk.inj (Except.ok.inj hread)
  have hsplit := List.dropLast_concat_getLast (List.cons_ne_nil p.next us)
  have hlast : q.scanner.last? = some ((p.next :: us).getLast (List.cons_ne_nil p.next us)) := by
    rw [hus.handsOut.last?, List.getLast?_eq_some_getLast (List.cons_ne_nil p.next us)]
    rfl
  refine ⟨_, _, hsplit ▸ hus, hlast, ?_, fun hnot => ?_⟩
  · intro hline k hk
    exact (failsWithinLines_within n h hk).2 ⟨_, hlast, hline⟩
  · obtain ⟨t, ht, hline⟩ := failsWithLines_within n h (initFailed_of_isInvalid hs) hnot
    obtain rfl := Option.some.inj (hlast.symm.trans ht)
    exact hline

/-- The line of a loop whose first clause has no value is skipped to its end. -/
theorem failed_first_clause_ends_line :
    let p := ofSource (.ofText ⟨"main"⟩ "for float i = z; i < 3; i++ \x7b\n")
    ∃ s q, p.statement = .ok (s, q) ∧ s.isInvalid = true ∧
      ∃ ts t, p.Takes (ts ++ [t]) q ∧ q.scanner.last? = some t ∧
        (t.endsLine = true ↔ ∀ k, ¬p.Redeclares k) := by
  intro p
  have hinvalid : (p.statement.toOption.map fun answer => answer.1.isInvalid) = some true := by
    decide +kernel
  clear_value p
  obtain ⟨s, q, hs, -⟩ := p.statement_passes
  rw [hs] at hinvalid
  have hs' : s.isInvalid = true := Option.some.inj hinvalid
  exact ⟨s, q, hs, hs', failed_statement_ends_line hs hs'⟩

/-- A loop that declares a known name in its first clause is given up behind the first `;`, and the
condition is the next thing to be read, as a statement. -/
theorem rest_of_header_is_next :
    let text := "float x\nfor float x; x < 3; x++ \x7b\n\x7d"
    let root := ofSource (.ofBytes ⟨"main.rin"⟩ text.toUTF8)
    ∃ bs p s q t, ComesToBody root bs p ∧ startsStatement p.next = true ∧
      p.next.kind = .keyword .for ∧ (p.fill 1).statement = .ok (s, q) ∧ s.isInvalid = true ∧
      q.scanner.last? = some t ∧ t.endsLine = false ∧ q.next.kind = .identifier "x" := by
  intro text root
  have hfacts : ((root.fill 1).statement.toOption.bind fun first =>
      (((first.2.push first.1).fill 1).statement.toOption.map fun second =>
        ((first.1.isInvalid, (first.2.push first.1).next.kind),
          (second.1.isInvalid, second.2.scanner.last?.map Token.endsLine, second.2.next.kind)))) =
      some ((false, .keyword .for), (true, some false, .identifier "x")) := by
    decide +kernel
  have hstarts : startsStatement root.next = true := by decide +kernel
  clear_value root
  obtain ⟨s, q, hs, -⟩ := (root.fill 1).statement_passes
  obtain ⟨s', q', hs', -⟩ := ((q.push s).fill 1).statement_passes
  rw [hs] at hfacts
  simp only [Except.toOption, Option.bind_some, hs', Option.map_some] at hfacts
  obtain ⟨hfirst, hsecond⟩ := Prod.mk.inj (Option.some.inj hfacts)
  obtain ⟨hvalid, hkeyword⟩ := Prod.mk.inj hfirst
  obtain ⟨hinvalid, hrest⟩ := Prod.mk.inj hsecond
  obtain ⟨hlast, hnext⟩ := Prod.mk.inj hrest
  obtain ⟨t, ht, hline⟩ := Option.map_eq_some_iff.1 hlast
  have hcomes : ComesToBody root [] (q.push s) := .pushed .program hstarts hs hvalid
  have hstarts' : startsStatement (q.push s).next = true := by
    simp [startsStatement, Token.isEndOfFile, Token.isEndOfLine, Token.isOperator, Token.operator?,
      hkeyword]
  exact ⟨[], q.push s, s', q', t, hcomes, hstarts', hkeyword, hs', hinvalid, ht, hline, hnext⟩

end Parser

end FloatLang
