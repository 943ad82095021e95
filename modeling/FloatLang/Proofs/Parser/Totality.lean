import FloatLang.Proofs.Parser.Takes

/-!
# Every statement is read

A statement passes its first token, whatever that is, and a body stops only at its closing brace
or at the end of the file. So twice the number of tokens left bounds the nesting, no scope is
left that was not opened.

## Main definitions

* `Parser.ReadsStatements`, `Parser.ReadsBodies` — a reader answers while few tokens are left
* `Parser.BodyEnds`, `Parser.EndsBodies` — how a body ends
* `Parser.BodyStep` — what a body does first

## Main results

* `Parser.bodyWithin_succ` — a body is read step by step
* `Parser.statementWithin_ok`, `Parser.bodyWithin_ok` — a bound that suffices
* `Parser.statement_passes` — every statement passes the next token
* `Parser.body_ok` — every body is read up to its end
-/

namespace FloatLang

theorem Token.kind_of_operator? {t : Token} {op : Operator} (h : t.operator? = some op) :
    t.kind = .operator op := by
  unfold operator? at h
  split at h
  next hkind =>
    obtain rfl := Option.some.inj h
    exact hkind
  · contradiction

theorem Token.kind_of_isOperator {t : Token} {op : Operator} (h : t.isOperator op = true) :
    t.kind = .operator op := kind_of_operator? (by simpa [isOperator] using h)

namespace Parser

/-- The reader answers on every parser with at most `m` tokens left, and passes a token. -/
def ReadsStatements (m : Nat) (statement : Parser → Except Halt (Statement × Parser)) : Prop :=
  ∀ p : Parser, p.remaining ≤ m → ∃ s q, statement p = .ok (s, q) ∧ p.Passes q

/-- The reader answers on every parser with at most `m` tokens left. -/
def ReadsBodies (m : Nat) (body : Parser → Except Halt Parser) : Prop :=
  ∀ p : Parser, p.remaining ≤ m → ∃ q, body p = .ok q ∧ p.Reaches q

/-- How a body ends once the parser has come to `p`. A program (`top`) only ends with the
file. -/
inductive BodyEnds (p : Parser) : Bool → Parser → Prop
  | brace (h : p.next.isOperator .rightBrace = true) : BodyEnds p false (p.fill 1).advance
  | endOfFile (h : p.next.isEndOfFile = true) : BodyEnds p false (p.fill 1)
  | program (h : p.next.isEndOfFile = true) :
      BodyEnds p true ((p.fill 1).modifyScanner Scanner.flush)

variable {p q : Parser} {m : Nat} {body : Parser → Except Halt Parser}
  {statement : Parser → Except Halt (Statement × Parser)}

theorem BodyEnds.reaches {top : Bool} (h : p.BodyEnds top q) : p.Reaches q := by
  cases h with
  | brace _ => exact (p.reaches_fill 1).trans (passes_advance _).reaches
  | endOfFile _ => exact p.reaches_fill 1
  | program _ => exact (p.reaches_fill 1).trans ⟨_, takes_flush _⟩

/-- A scope that was entered can be left. -/
theorem leave_ok (h : p.enter.Reaches q) : ∃ s r, q.leave = .ok (s, r) ∧ p.Reaches r := by
  obtain ⟨s, scopes, hleave, hdepth⟩ := q.scopes.leave?_of_depth h.depth
  obtain ⟨ts, hts⟩ := h
  refine ⟨s, { q with scopes }, ?_, ts, hts.handsOut, hdepth⟩
  rw [leave, hleave]

/-! ### Block statements -/

theorem blockWith_ok (hbody : ReadsBodies m body) (hp : p.remaining ≤ m) :
    ∃ s q, blockWith body p = .ok (s, q) ∧ p.Reaches q := by
  obtain ⟨q, hq, hreaches⟩ := hbody p.enter hp
  obtain ⟨s, r, hr, hleft⟩ := leave_ok hreaches
  refine ⟨s, r, ?_, hleft⟩
  simp only [blockWith, hq, bind, Except.bind, hr]

theorem branchWith_ok (hbody : ReadsBodies m body) (hp : p.advance.remaining ≤ m) :
    ∃ s q, branchWith body p = .ok (s, q) ∧ p.Passes q := by
  have hcondition := p.passes_advance.trans (p.advance.reaches_condition .leftBrace)
  have hle := (p.advance.reaches_condition .leftBrace).remaining_le
  -- the keyword is taken first, so what comes after it is within the bound
  unfold branchWith
  dsimp only
  split
  next q h =>
    rw [h] at hcondition
    exact ⟨_, _, rfl, hcondition.trans q.reaches_synchronize⟩
  next condition q h =>
    rw [h] at hcondition hle
    have hbrace := hcondition.trans q.passes_advance.reaches
    split
    · have hbound := Nat.le_trans q.passes_advance.reaches.remaining_le (Nat.le_trans hle hp)
      obtain ⟨s, r, hr, hreaches⟩ := blockWith_ok hbody hbound
      simp only [hr, bind, Except.bind]
      exact ⟨_, _, rfl, hbrace.trans hreaches⟩
    · exact ⟨_, _, rfl, (hbrace.trans (reaches_error _ _ _)).trans (reaches_synchronize _)⟩

theorem loopInit_ok (hstatement : ReadsStatements m statement) (hp : p.remaining ≤ m) :
    ∃ b q, loopInit statement p = .ok (b, q) ∧ p.Reaches q := by
  have hfill := p.reaches_fill 1
  unfold loopInit
  dsimp only
  split
  · exact ⟨_, _, rfl, hfill.trans (passes_advance _).reaches⟩
  · obtain ⟨s, q, hq, hpasses⟩ := hstatement (p.fill 1) (Nat.le_trans hfill.remaining_le hp)
    -- what follows holds of the parser with the clause pushed as well
    have hpush := (hfill.trans hpasses.reaches).trans ⟨_, q.takes_push s⟩
    simp only [hq, bind, Except.bind]
    split
    · exact ⟨_, _, rfl, hfill.trans hpasses.reaches⟩
    · split
      · exact ⟨_, _, rfl, hpush.trans ((q.push s).passes_headerSemicolon .init).reaches⟩
      · exact ⟨_, _, rfl, hpush⟩

theorem loopHeaderWith_ok (hstatement : ReadsStatements m statement) (hp : p.remaining ≤ m) :
    ∃ header q, loopHeaderWith statement p = .ok (header, q) ∧ p.Reaches q := by
  obtain ⟨complete, q, hq, hinit⟩ := loopInit_ok hstatement hp
  have hcondition := hinit.trans q.reaches_loopCondition
  unfold loopHeaderWith
  simp only [hq, bind, Except.bind]
  cases complete with
  | false => exact ⟨_, _, rfl, hinit⟩
  | true =>
    dsimp only
    generalize q.loopCondition = clause at hcondition ⊢
    obtain ⟨condition, r⟩ := clause
    cases condition with
    | none => exact ⟨_, _, rfl, hcondition⟩
    | some condition =>
      obtain ⟨increment, u, hu, hincrement⟩ := r.loopIncrement_ok
      have hbrace := (hcondition.trans hincrement).trans u.passes_advance.reaches
      simp only [hu]
      cases increment with
      | none => exact ⟨_, _, rfl, hcondition.trans hincrement⟩
      | some increment =>
        dsimp only
        split
        · exact ⟨_, _, rfl, hbrace⟩
        · exact ⟨_, _, rfl, (hbrace.trans (reaches_error _ _ _)).trans (reaches_synchronize _)⟩

theorem loopWith_ok (hbody : ReadsBodies m body) (hstatement : ReadsStatements m statement)
    (hp : p.advance.remaining ≤ m) : ∃ s q, loopWith body statement p = .ok (s, q) ∧ p.Passes q := by
  obtain ⟨header, q, hq, hheader⟩ := loopHeaderWith_ok (p := p.advance.enter) hstatement hp
  unfold loopWith
  simp only [hq, bind, Except.bind]
  cases header with
  | none =>
    obtain ⟨s, r, hr, hleft⟩ := leave_ok hheader
    simp only [hr]
    exact ⟨_, _, rfl, p.passes_advance.trans hleft⟩
  | some header =>
    -- taking the first clause back takes no token
    have hpop := hheader.trans ⟨_, q.takes_pop⟩
    obtain ⟨r, hr, hreaches⟩ := hbody q.pop.2 (Nat.le_trans hpop.remaining_le hp)
    obtain ⟨s, u, hu, hleft⟩ := leave_ok (hpop.trans hreaches)
    simp only [hr, hu]
    exact ⟨_, _, rfl, p.passes_advance.trans hleft⟩

/-! ### Statements and bodies -/

theorem passes_rejectName (p : Parser) (after : Token) : p.Passes (p.rejectName after).2 :=
  (p.passes_advance.trans (reaches_error _ _ _)).trans (reaches_synchronize _)

theorem passes_rejectStatement (p : Parser) : p.Passes p.rejectStatement.2 :=
  (p.passes_reject _).trans (reaches_synchronize _)

/-- A statement that can not halt answers. -/
theorem answers (r : Statement × Parser) (h : p.Passes r.2) :
    ∃ s q, (.ok r : Except Halt (Statement × Parser)) = .ok (s, q) ∧ p.Passes q :=
  ⟨r.1, r.2, rfl, h⟩

theorem named_ok (p : Parser) : ∃ s q, p.named = .ok (s, q) ∧ p.Passes q := by
  unfold named
  dsimp only
  split
  next op hop =>
    split
    next hstep =>
      have hdirection : ((p.fill 2).ahead 1).operator?.bind Direction.ofOperator? |>.isSome := by
        rw [hop]
        cases op <;> first | rfl | contradiction
      obtain ⟨s, q, hq, hpasses⟩ := (p.fill 2).step_ok true hdirection
      exact ⟨s, q, hq, hpasses.of_fill⟩
    · exact answers _ (passes_assignment _).of_fill
  · exact answers _ (passes_rejectName _ _).of_fill

theorem remaining_advance_lt {kind : TokenKind} (p : Parser) (hkind : p.next.kind = kind)
    (hne : kind ≠ .endOfFile) : p.advance.remaining < p.remaining := by
  apply p.passes_advance.remaining_lt
  simpa [Token.isEndOfFile, hkind] using hne

/-- A statement answers if what is nested in it does: its first token is no more among the tokens
left. -/
theorem statementWithin_succ_ok {n : Nat}
    (hbody : p.remaining ≠ 0 → ReadsBodies (p.remaining - 1) (bodyWithin n false))
    (hstatement : p.remaining ≠ 0 → ReadsStatements (p.remaining - 1) (statementWithin n)) :
    ∃ s q, statementWithin (n + 1) p = .ok (s, q) ∧ p.Passes q := by
  have hle := (p.reaches_fill 1).remaining_le
  -- only `if` and `for` nest anything, and their keyword is taken before it
  unfold statementWithin
  dsimp only
  split
  · exact answers _ (passes_declaration _).of_fill
  next hkind =>
    have hlt := (p.fill 1).remaining_advance_lt hkind (by simp)
    obtain ⟨s, q, hq, hpasses⟩ := branchWith_ok (p := p.fill 1) (hbody (by omega)) (by omega)
    exact ⟨s, q, hq, hpasses.of_fill⟩
  next hkind =>
    have hlt := (p.fill 1).remaining_advance_lt hkind (by simp)
    obtain ⟨s, q, hq, hpasses⟩ :=
      loopWith_ok (p := p.fill 1) (hbody (by omega)) (hstatement (by omega)) (by omega)
    exact ⟨s, q, hq, hpasses.of_fill⟩
  · obtain ⟨s, q, hq, hpasses⟩ := (p.fill 1).named_ok
    exact ⟨s, q, hq, hpasses.of_fill⟩
  · exact answers _ (passes_rejectStatement _).of_fill

/-! ### What a body does next -/

/-- A computation answers by its first half and then by its second. -/
theorem bind_eq_ok {α β : Type} {x : Except Halt α} {f : α → Except Halt β} {b : β} :
    x >>= f = .ok b ↔ ∃ a, x = .ok a ∧ f a = .ok b := by
  cases x with
  | error _ => simp [bind, Except.bind]
  | ok a => simp [bind, Except.bind]

/-- Whether a token between statements is the first of a statement. -/
def startsStatement (t : Token) : Bool :=
  !(t.isEndOfFile || t.isEndOfLine || t.isOperator .semicolon || t.isOperator .rightBrace)

theorem isEndOfFile_of_startsStatement {t : Token} (h : startsStatement t = true) :
    t.isEndOfFile = false := by
  cases hend : t.isEndOfFile with
  | true => simp [startsStatement, hend] at h
  | false => rfl

theorem isEndOfFile_of_isOperator {t : Token} {op : Operator} (h : t.isOperator op = true) :
    t.isEndOfFile = false := by simp [Token.isEndOfFile, Token.kind_of_isOperator h]

theorem isEndOfFile_of_blank {t : Token}
    (h : (t.isEndOfLine || t.isOperator .semicolon) = true) : t.isEndOfFile = false := by
  rcases Bool.or_eq_true_iff.1 h with hline | hsemicolon
  · have hkind : t.kind = .endOfLine := by simpa [Token.isEndOfLine] using hline
    simp [Token.isEndOfFile, hkind]
  · exact isEndOfFile_of_isOperator hsemicolon

/-- What a body does next depends on the next token. -/
theorem cases_next (t : Token) :
    t.isEndOfFile = true ∨ (t.isEndOfLine || t.isOperator .semicolon) = true ∨
      t.isOperator .rightBrace = true ∨ startsStatement t = true := by
  by_cases hend : t.isEndOfFile = true
  · exact .inl hend
  · by_cases hblank : (t.isEndOfLine || t.isOperator .semicolon) = true
    · exact .inr (.inl hblank)
    · by_cases hbrace : t.isOperator .rightBrace = true
      · exact .inr (.inr (.inl hbrace))
      · rw [Bool.or_eq_true, not_or] at hblank
        exact .inr (.inr (.inr (by simp [startsStatement, hend, hblank, hbrace])))

section Steps

variable {n : Nat} {top : Bool}

theorem bodyWithin_of_endOfFile (h : p.next.isEndOfFile = true) :
    bodyWithin (n + 1) top p =
      .ok (if top then (p.fill 1).modifyScanner Scanner.flush else p.fill 1) := by
  rw [bodyWithin]
  dsimp only
  rw [next_fill, if_pos h]

theorem bodyWithin_of_blank (h : (p.next.isEndOfLine || p.next.isOperator .semicolon) = true) :
    bodyWithin (n + 1) top p = bodyWithin n top (p.fill 1).advance := by
  rw [bodyWithin]
  dsimp only
  rw [next_fill, if_neg (by simp [isEndOfFile_of_blank h]), if_pos h]

theorem bodyWithin_of_rightBrace (h : p.next.isOperator .rightBrace = true) :
    bodyWithin (n + 1) top p =
      if top then bodyWithin n top (p.fill 1).advance else .ok (p.fill 1).advance := by
  have hkind := Token.kind_of_isOperator h
  rw [bodyWithin]
  dsimp only
  rw [next_fill, if_neg (by simp [Token.isEndOfFile, hkind]),
    if_neg (by simp [Token.isEndOfLine, Token.isOperator, Token.operator?, hkind]), if_pos h]

theorem bodyWithin_of_statement (h : startsStatement p.next = true) :
    bodyWithin (n + 1) top p = .ok q ↔
      ∃ s r, statementWithin n (p.fill 1) = .ok (s, r) ∧
        bodyWithin n top (if s.isInvalid then r else r.push s) = .ok q := by
  simp only [startsStatement, Bool.not_eq_true', Bool.or_eq_false_iff] at h
  obtain ⟨⟨⟨hend, hline⟩, hsemicolon⟩, hbrace⟩ := h
  rw [bodyWithin]
  dsimp only
  rw [next_fill, if_neg (by simp [hend]), if_neg (by simp [hline, hsemicolon]),
    if_neg (by simp [hbrace]), bind_eq_ok, Prod.exists]

end Steps

/-- What is done first at `p` when a body (`top`: a program) is read from there as far as `q`. What is
nested in it, and the rest of the body, are read within the bound `n`. -/
inductive BodyStep (n : Nat) (top : Bool) (p q : Parser) : Prop
  | ends (hends : p.BodyEnds top q)
  | blank (hnext : (p.next.isEndOfLine || p.next.isOperator .semicolon) = true)
      (hrest : bodyWithin n top (p.fill 1).advance = .ok q)
  | stray (htop : top = true) (hnext : p.next.isOperator .rightBrace = true)
      (hrest : bodyWithin n top (p.fill 1).advance = .ok q)
  | statement (s : Statement) (r : Parser) (hnext : startsStatement p.next = true)
      (hs : statementWithin n (p.fill 1) = .ok (s, r))
      (hrest : bodyWithin n top (if s.isInvalid then r else r.push s) = .ok q)

/-- A body is read step by step. -/
theorem bodyWithin_succ {n : Nat} {top : Bool} :
    bodyWithin (n + 1) top p = .ok q ↔ BodyStep n top p q := by
  constructor
  · intro h
    rcases cases_next p.next with hend | hblank | hbrace | hstart
    · rw [bodyWithin_of_endOfFile hend] at h
      obtain rfl := Except.ok.inj h
      cases top with
      | true => exact .ends (.program hend)
      | false => exact .ends (.endOfFile hend)
    · exact .blank hblank ((bodyWithin_of_blank hblank).symm.trans h)
    · rw [bodyWithin_of_rightBrace hbrace] at h
      cases top with
      | true => exact .stray rfl hbrace h
      | false =>
        obtain rfl := Except.ok.inj h
        exact .ends (.brace hbrace)
    · obtain ⟨s, r, hs, hrest⟩ := (bodyWithin_of_statement hstart).1 h
      exact .statement s r hstart hs hrest
  · intro h
    cases h with
    | ends hends =>
      cases hends with
      | brace hbrace => exact bodyWithin_of_rightBrace hbrace
      | endOfFile hend => exact bodyWithin_of_endOfFile hend
      | program hend => exact bodyWithin_of_endOfFile hend
    | blank hnext hrest => exact (bodyWithin_of_blank hnext).trans hrest
    | stray htop hnext hrest =>
      subst htop
      exact (bodyWithin_of_rightBrace hnext).trans hrest
    | statement s r hnext hs hrest => exact (bodyWithin_of_statement hnext).2 ⟨s, r, hs, hrest⟩

/-- The reader comes to the end of the body on every parser with at most `m` tokens left. -/
def EndsBodies (m : Nat) (top : Bool) (body : Parser → Except Halt Parser) : Prop :=
  ∀ p : Parser, p.remaining ≤ m → ∃ q r, body p = .ok r ∧ p.Reaches q ∧ q.BodyEnds top r

theorem EndsBodies.reads {top : Bool} (h : EndsBodies m top body) : ReadsBodies m body := by
  intro p hp
  obtain ⟨q, r, hr, hreaches, hends⟩ := h p hp
  exact ⟨r, hr, hreaches.trans hends.reaches⟩

/-- A body answers if its first statement and what comes after it do: the rest of the body has
fewer tokens left. -/
theorem bodyWithin_succ_ok {n : Nat} {top : Bool}
    (hbody : p.remaining ≠ 0 → EndsBodies (p.remaining - 1) top (bodyWithin n top))
    (hstatement : ReadsStatements p.remaining (statementWithin n)) :
    ∃ q r, bodyWithin (n + 1) top p = .ok r ∧ p.Reaches q ∧ q.BodyEnds top r := by
  have hfill := p.reaches_fill 1
  have hends {r : Parser} (h : p.BodyEnds top r) :
      ∃ q r, bodyWithin (n + 1) top p = .ok r ∧ p.Reaches q ∧ q.BodyEnds top r :=
    ⟨p, r, bodyWithin_succ.2 (.ends h), .refl p, h⟩
  -- after a token or a statement, the body goes on with fewer tokens left
  have hmore {q : Parser} (hq : (p.fill 1).Passes q) (hnext : p.next.isEndOfFile = false)
      (hstep : ∀ u, bodyWithin n top q = .ok u → BodyStep n top p u) :
      ∃ r u, bodyWithin (n + 1) top p = .ok u ∧ p.Reaches r ∧ r.BodyEnds top u := by
    have hle := hfill.remaining_le
    have hlt := hq.remaining_lt (by simpa using hnext)
    obtain ⟨r, u, hu, hreaches, hends⟩ := hbody (by omega) q (by omega)
    exact ⟨r, u, bodyWithin_succ.2 (hstep u hu), (hfill.trans hq.reaches).trans hreaches, hends⟩
  rcases cases_next p.next with hend | hblank | hbrace | hstart
  · cases top with
    | true => exact hends (.program hend)
    | false => exact hends (.endOfFile hend)
  · exact hmore (passes_advance _) (isEndOfFile_of_blank hblank) fun u hu => .blank hblank hu
  · cases top with
    | true =>
      exact hmore (passes_advance _) (isEndOfFile_of_isOperator hbrace)
        fun u hu => .stray rfl hbrace hu
    | false => exact hends (.brace hbrace)
  · obtain ⟨s, q, hs, hpasses⟩ := hstatement (p.fill 1) hfill.remaining_le
    have hpush : (p.fill 1).Passes (if s.isInvalid then q else q.push s) := by
      split
      · exact hpasses
      · exact hpasses.trans ⟨_, q.takes_push s⟩
    exact hmore hpush (isEndOfFile_of_startsStatement hstart)
      fun u hu => .statement s q hstart hs hu

/-- Twice the number of tokens left bounds the nesting. -/
theorem within_ok (n : Nat) :
    (∀ m, 2 * m + 1 ≤ n → ReadsStatements m (statementWithin n)) ∧
      ∀ m top, 2 * m + 2 ≤ n → EndsBodies m top (bodyWithin n top) := by
  -- statements and bodies call each other: a body of `m` tokens asks for a statement of `m` with
  -- one less of the bound, and that for a body of fewer tokens with one less again
  induction n with
  | zero => exact ⟨by omega, by omega⟩
  | succ n ih =>
    obtain ⟨ihStatement, ihBody⟩ := ih
    refine ⟨fun m hm p hp => ?_, fun m top hm p hp => ?_⟩
    · exact statementWithin_succ_ok (fun _ => (ihBody _ false (by omega)).reads)
        (fun _ => ihStatement _ (by omega))
    · exact bodyWithin_succ_ok (fun _ => ihBody _ top (by omega)) (ihStatement _ (by omega))

/-- A statement is read with any bound that exceeds twice the tokens left. -/
theorem statementWithin_ok {n : Nat} (h : 2 * p.remaining + 1 ≤ n) :
    ∃ s q, statementWithin n p = .ok (s, q) ∧ p.Passes q :=
  (within_ok n).1 p.remaining h p (Nat.le_refl _)

/-- A body is read with any bound that exceeds that by one. -/
theorem bodyWithin_ok {n : Nat} {top : Bool} (h : 2 * p.remaining + 2 ≤ n) :
    ∃ q r, bodyWithin n top p = .ok r ∧ p.Reaches q ∧ q.BodyEnds top r :=
  (within_ok n).2 p.remaining top h p (Nat.le_refl _)

/-- Every statement is read, and passes the next token. -/
theorem statement_passes (p : Parser) : ∃ s q, p.statement = .ok (s, q) ∧ p.Passes q :=
  statementWithin_ok (Nat.le_succ _)

/-- Every body is read. -/
theorem body_ok (p : Parser) (top : Bool) :
    ∃ q r, p.body top = .ok r ∧ p.Reaches q ∧ q.BodyEnds top r :=
  bodyWithin_ok (Nat.le_refl _)

end Parser

end FloatLang
