import FloatLang.Proofs.Parser.Invariants
import FloatLang.Proofs.Parser.Quiet

/-!
# Nested bodies and open brackets

The reader of bodies keeps its own account of what is nested, by calling itself, and the scanner keeps
another, by the brackets that are open. A statement that is read leaves both as they were. A statement
that fails is skipped with the rest of its line, and its brackets are handed out like any others. So
the two accounts agree until a statement that failed has left brackets behind, and only until then.

## Main definitions

* `Parser.ComesToBody`, `Parser.ComesToStatement` — where the readers come to while a program is read
* `Parser.LeadsTo` — the order in which they come there
* `Parser.Falters` — a statement that was not read
* `Parser.Unharmed` — what failed has left the open brackets as they were

## Main results

* `Parser.ComesToBody.open` — the open brackets are the braces of the bodies that are being read
* `Parser.bodies_follow_braces` — when they are, and where bodies end then
* `Parser.brace_of_failed_header_stays_open` — when they are not
-/

namespace FloatLang.Parser

/-! ### Where the readers come to -/

mutual

/-- While `root` is read as a program, the reader of bodies comes to `p`, between two statements. The
bodies that are being read then have the opening braces `bs`, the innermost first. -/
inductive ComesToBody (root : Parser) : List Opening → Parser → Prop
  | program : ComesToBody root [] root
  | blank {bs : List Opening} {p : Parser} (h : ComesToBody root bs p)
      (hnext : (p.next.isEndOfLine || p.next.isOperator .semicolon) = true) :
      ComesToBody root bs (p.fill 1).advance
  | stray {p : Parser} (h : ComesToBody root [] p)
      (hnext : p.next.isOperator .rightBrace = true) : ComesToBody root [] (p.fill 1).advance
  | dropped {bs : List Opening} {p q : Parser} {s : Statement} (h : ComesToBody root bs p)
      (hnext : startsStatement p.next = true) (hs : (p.fill 1).statement = .ok (s, q))
      (hinvalid : s.isInvalid = true) : ComesToBody root bs q
  | pushed {bs : List Opening} {p q : Parser} {s : Statement} (h : ComesToBody root bs p)
      (hnext : startsStatement p.next = true) (hs : (p.fill 1).statement = .ok (s, q))
      (hvalid : s.isInvalid = false) : ComesToBody root bs (q.push s)
  | branch {bs : List Opening} {p r : Parser} {c : Condition} (h : ComesToStatement root bs p)
      (hkeyword : p.next.kind = .keyword .if)
      (hcondition : (p.fill 1).advance.condition .leftBrace = (some c, r))
      (hbrace : r.next.isOperator .leftBrace = true) :
      ComesToBody root (⟨.brace, r.next.location⟩ :: bs) r.advance.enter
  | loop {bs : List Opening} {p r u w : Parser} {condition increment : Option Statement}
      (h : ComesToStatement root bs p) (hkeyword : p.next.kind = .keyword .for)
      (hinit : loopInit statement (p.fill 1).advance.enter = .ok (true, r))
      (hcondition : r.loopCondition = (some condition, u))
      (hincrement : u.loopIncrement = .ok (some increment, w))
      (hbrace : w.next.isOperator .leftBrace = true) :
      ComesToBody root (⟨.brace, w.next.location⟩ :: bs) w.advance.pop.2

/-- While `root` is read as a program, the reader of statements comes to `p`, in a body or for the
first clause of a loop. -/
inductive ComesToStatement (root : Parser) : List Opening → Parser → Prop
  | body {bs : List Opening} {p : Parser} (h : ComesToBody root bs p)
      (hnext : startsStatement p.next = true) : ComesToStatement root bs (p.fill 1)
  | init {bs : List Opening} {p : Parser} (h : ComesToStatement root bs p)
      (hkeyword : p.next.kind = .keyword .for)
      (hnext : (p.fill 1).advance.next.isOperator .semicolon = false) :
      ComesToStatement root bs ((p.fill 1).advance.enter.fill 1)

end

/-- The scanner of `q` comes from that of `p` by handing out tokens. -/
def LeadsTo (p q : Parser) : Prop := ∃ ts, p.scanner.HandsOut ts q.scanner

/-- While `root` is read, the reader of bodies comes to `p`, and the statement that it reads there
fails, or declares a variable with a value that fails, and leaves the parser at `q`. -/
inductive Falters (root p q : Parser) : Prop
  | intro {bs : List Opening} {s : Statement} (h : ComesToBody root bs p)
      (hnext : startsStatement p.next = true) (hs : (p.fill 1).statement = .ok (s, q))
      (hfailed : s.isRead = false)

/-- Every statement that has failed by the time of `q` has left the open brackets as they were. -/
def Unharmed (root q : Parser) : Prop :=
  ∀ p r, Falters root p r → r.LeadsTo q → r.scanner.pending = p.scanner.pending

/-! ### The order in which they come -/

variable {root p q r : Parser} {bs : List Opening} {b : Opening} {s : Statement} {n : Nat}

theorem LeadsTo.refl (p : Parser) : p.LeadsTo p := ⟨[], .refl _⟩

theorem LeadsTo.trans (h : p.LeadsTo q) (h' : q.LeadsTo r) : p.LeadsTo r := by
  obtain ⟨ts, hts⟩ := h
  obtain ⟨us, hus⟩ := h'
  exact ⟨ts ++ us, hts.trans hus⟩

theorem Reaches.leadsTo (h : p.Reaches q) : p.LeadsTo q := by
  obtain ⟨ts, hts⟩ := h
  exact ⟨ts, hts.handsOut⟩

theorem LeadsTo.congr (h : p.LeadsTo q) (hscanner : r.scanner = q.scanner) : p.LeadsTo r := by
  rw [LeadsTo, hscanner]
  exact h

theorem leadsTo_of_eq (hscanner : q.scanner = p.scanner) : p.LeadsTo q :=
  (LeadsTo.refl p).congr hscanner

/-- After the end of the file there is nothing but the end of the file. -/
theorem LeadsTo.isEndOfFile (h : p.LeadsTo q) (honce : p.scanner.EndsOnce)
    (hp : p.next.isEndOfFile = true) : q.next.isEndOfFile = true := by
  obtain ⟨ts, hts⟩ := h
  have hahead := hts.ahead 0
  rw [next, Scanner.next, hahead]
  exact honce.ahead hp _

/-- What comes before something else is not the end of the file. -/
theorem LeadsTo.isEndOfFile_eq_false (h : p.LeadsTo q) (honce : p.scanner.EndsOnce)
    (hq : q.next.isEndOfFile = false) : p.next.isEndOfFile = false := by
  cases hp : p.next.isEndOfFile with
  | false => rfl
  | true => rw [← hq, h.isEndOfFile honce hp]

theorem Unharmed.mono (h : Unharmed root q) (hpq : p.LeadsTo q) : Unharmed root p :=
  fun p' r hfalters hr => h p' r hfalters (hr.trans hpq)

theorem leadsTo_of_statement (h : p.statement = .ok (s, q)) : p.LeadsTo q := by
  obtain ⟨s', q', hq', hpasses⟩ := p.statement_passes
  rw [h] at hq'
  obtain ⟨-, rfl⟩ := Prod.mk.inj (Except.ok.inj hq')
  exact hpasses.reaches.leadsTo

theorem leadsTo_of_bodyWithin {top : Bool} (h : bodyWithin n top p = .ok q) : p.LeadsTo q := by
  obtain ⟨q', r, hr, hreaches, hends⟩ := p.body_ok top
  rw [body_of_bodyWithin h] at hr
  obtain rfl := Except.ok.inj hr
  exact (hreaches.trans hends.reaches).leadsTo

theorem leadsTo_of_loopInit {complete : Bool} (h : loopInit statement p = .ok (complete, q)) :
    p.LeadsTo q := by
  have hreads : ReadsStatements p.remaining statement := fun u _ => u.statement_passes
  obtain ⟨complete', q', hq', hreaches⟩ := loopInit_ok hreads (Nat.le_refl _)
  rw [h] at hq'
  obtain ⟨-, rfl⟩ := Prod.mk.inj (Except.ok.inj hq')
  exact hreaches.leadsTo

theorem leadsTo_of_loopCondition {clause : Option (Option Statement)}
    (h : p.loopCondition = (clause, q)) : p.LeadsTo q := by
  have hreaches := p.reaches_loopCondition
  rw [h] at hreaches
  exact hreaches.leadsTo

theorem leadsTo_of_loopIncrement {clause : Option (Option Statement)}
    (h : p.loopIncrement = .ok (clause, q)) : p.LeadsTo q := by
  obtain ⟨clause', q', hq', hreaches⟩ := p.loopIncrement_ok
  rw [h] at hq'
  obtain ⟨-, rfl⟩ := Prod.mk.inj (Except.ok.inj hq')
  exact hreaches.leadsTo

theorem leadsTo_of_condition {terminal : Operator} {c : Option Condition}
    (h : p.condition terminal = (c, q)) : p.LeadsTo q := by
  have hreaches := p.reaches_condition terminal
  rw [h] at hreaches
  exact hreaches.leadsTo

theorem leadsTo_fill (p : Parser) (n : Nat) : p.LeadsTo (p.fill n) := (p.reaches_fill n).leadsTo

theorem leadsTo_advance (p : Parser) : p.LeadsTo p.advance := p.passes_advance.reaches.leadsTo

theorem leadsTo_enter (p : Parser) : p.LeadsTo p.enter := leadsTo_of_eq rfl

theorem leadsTo_push (p : Parser) (s : Statement) : p.LeadsTo (p.push s) := leadsTo_of_eq rfl

theorem leadsTo_pop (p : Parser) : p.LeadsTo p.pop.2 := leadsTo_of_eq rfl

theorem leadsTo_fill_advance (p : Parser) : p.LeadsTo (p.fill 1).advance :=
  (p.leadsTo_fill 1).trans (leadsTo_advance _)

mutual

/-- The readers come to all places from where the program starts. -/
theorem ComesToBody.leadsTo {bs : List Opening} {p : Parser} :
    ComesToBody root bs p → root.LeadsTo p
  | .program => .refl root
  | .blank h _ => h.leadsTo.trans (leadsTo_fill_advance _)
  | .stray h _ => h.leadsTo.trans (leadsTo_fill_advance _)
  | .dropped h _ hs _ => (h.leadsTo.trans (leadsTo_fill _ 1)).trans (leadsTo_of_statement hs)
  | .pushed h _ hs _ =>
    ((h.leadsTo.trans (leadsTo_fill _ 1)).trans (leadsTo_of_statement hs)).trans (leadsTo_push _ _)
  | .branch h _ hcondition _ =>
    (((h.leadsTo.trans (leadsTo_fill_advance _)).trans (leadsTo_of_condition hcondition)).trans
      (leadsTo_advance _)).trans (leadsTo_enter _)
  | .loop h _ hinit hcondition hincrement _ =>
    have hkeyword := (h.leadsTo.trans (leadsTo_fill_advance _)).trans (leadsTo_enter _)
    have hheader := ((hkeyword.trans (leadsTo_of_loopInit hinit)).trans
      (leadsTo_of_loopCondition hcondition)).trans (leadsTo_of_loopIncrement hincrement)
    (hheader.trans (leadsTo_advance _)).trans (leadsTo_pop _)

theorem ComesToStatement.leadsTo {bs : List Opening} {p : Parser} :
    ComesToStatement root bs p → root.LeadsTo p
  | .body h _ => h.leadsTo.trans (leadsTo_fill _ 1)
  | .init h _ _ =>
    ((h.leadsTo.trans (leadsTo_fill_advance _)).trans (leadsTo_enter _)).trans (leadsTo_fill _ 1)

end

mutual

/-- Bodies are nested in braces only. -/
theorem ComesToBody.bracket {bs : List Opening} {p : Parser} :
    ComesToBody root bs p → ∀ b ∈ bs, b.bracket = .brace
  | .program => by simp
  | .blank h _ => h.bracket
  | .stray h _ => h.bracket
  | .dropped h _ _ _ => h.bracket
  | .pushed h _ _ _ => h.bracket
  | .branch h _ _ _ => List.forall_mem_cons.2 ⟨rfl, h.bracket⟩
  | .loop h _ _ _ _ _ => List.forall_mem_cons.2 ⟨rfl, h.bracket⟩

theorem ComesToStatement.bracket {bs : List Opening} {p : Parser} :
    ComesToStatement root bs p → ∀ b ∈ bs, b.bracket = .brace
  | .body h _ => h.bracket
  | .init h _ _ => h.bracket

end

theorem LeadsTo.endsOnce (h : p.LeadsTo q) (honce : p.scanner.EndsOnce) : q.scanner.EndsOnce := by
  obtain ⟨ts, hts⟩ := h
  exact hts.endsOnce honce

/-! ### The open brackets of what is read -/

/-- The open brackets are `bs`. If the file has ended, there may be others inside of them. -/
def Open (bs : List Opening) (p : Parser) : Prop :=
  p.scanner.pending = bs ∨ p.next.isEndOfFile = true ∧ bs <:+ p.scanner.pending

theorem Open.pending (h : p.Open bs) (hnext : p.next.isEndOfFile = false) :
    p.scanner.pending = bs := by
  rcases h with hpending | ⟨hend, -⟩
  · exact hpending
  · rw [hend] at hnext
    contradiction

theorem Open.suffix (h : p.Open bs) : bs <:+ p.scanner.pending := by
  rcases h with hpending | ⟨-, hsuffix⟩
  · exact hpending ▸ List.suffix_refl _
  · exact hsuffix

theorem Open.congr (h : p.Open bs) (hscanner : q.scanner = p.scanner) : q.Open bs := by
  rw [Open, next, hscanner]
  exact h

/-- An opening brace is open once it is taken. -/
theorem pending_advance_leftBrace (h : p.next.isOperator .leftBrace = true) :
    p.advance.scanner.pending = ⟨.brace, p.next.location⟩ :: p.scanner.pending :=
  (Scanner.advance_of_opening (b := .brace) (Token.kind_of_isOperator h)).1

/-- A closing brace closes the innermost open bracket if that is a brace. -/
theorem advance_rightBrace (h : p.next.isOperator .rightBrace = true) (hb : b.bracket = .brace)
    (hpending : p.scanner.pending = b :: bs) :
    p.advance.scanner.pending = bs ∧ p.advance.scanner.reports = p.scanner.reports := by
  have hhead : p.scanner.pending.head?.map Opening.bracket = some .brace := by simp [hpending, hb]
  obtain ⟨hafter, hreports⟩ :=
    Scanner.advance_of_closing (b := .brace) (Token.kind_of_isOperator h) hhead
  rw [hpending, List.tail_cons] at hafter
  exact ⟨hafter, hreports⟩

/-- A closing brace that closes nothing opens nothing either. -/
theorem pending_advance_stray (h : p.next.isOperator .rightBrace = true)
    (hpending : p.scanner.pending = []) : p.advance.scanner.pending = [] := by
  have hhead : p.scanner.pending.head?.map Opening.bracket ≠ some .brace := by simp [hpending]
  rw [← hpending]
  exact (Scanner.advance_of_unopened (b := .brace) (Token.kind_of_isOperator h) hhead).1

theorem pending_blank (hpending : p.scanner.pending = bs)
    (h : (p.next.isEndOfLine || p.next.isOperator .semicolon) = true) :
    (p.fill 1).advance.scanner.pending = bs := by
  rw [← hpending]
  apply (quiet_fill_advance _).pending
  rcases Bool.or_eq_true_iff.1 h with hline | hsemicolon
  · exact Token.isPlain_of_endsLine (by simp [Token.endsLine, hline])
  · exact Token.isPlain_of_isOperator hsemicolon rfl

/-- The brackets open at the start of the body of an `if`. -/
theorem pending_branch {c : Condition} (hpending : p.scanner.pending = bs)
    (hkeyword : p.next.kind = .keyword .if)
    (hcondition : (p.fill 1).advance.condition .leftBrace = (some c, r))
    (hbrace : r.next.isOperator .leftBrace = true) :
    r.advance.enter.scanner.pending = ⟨.brace, r.next.location⟩ :: bs := by
  have hkeep : p.Quiet r :=
    (quiet_fill_advance (Token.isPlain_of_keyword hkeyword)).trans (quiet_condition hcondition)
  rw [← hpending, ← hkeep.pending]
  exact pending_advance_leftBrace hbrace

/-- The brackets open at the start of the body of a loop, if its first clause leaves them as they
were. -/
theorem pending_loop {u w : Parser} {condition increment : Option Statement}
    {reader : Parser → Except Halt (Statement × Parser)} (hreader : Extends reader statement)
    (honce : p.scanner.EndsOnce) (hpending : p.scanner.pending = bs)
    (hkeyword : p.next.kind = .keyword .for)
    (hinit : loopInit reader (p.fill 1).advance.enter = .ok (true, r))
    (hclause : ∀ s v, (p.fill 1).advance.next.isOperator .semicolon = false →
      reader ((p.fill 1).advance.enter.fill 1) = .ok (s, v) → s.isRead = true → v.LeadsTo r →
      v.Open bs)
    (hcondition : r.loopCondition = (some condition, u))
    (hincrement : u.loopIncrement = .ok (some increment, w))
    (hbrace : w.next.isOperator .leftBrace = true) :
    w.advance.pop.2.scanner.pending = ⟨.brace, w.next.location⟩ :: bs := by
  have hentered : (p.fill 1).advance.enter.scanner.pending = bs := by
    rw [← hpending]
    exact (quiet_fill_advance (Token.isPlain_of_keyword hkeyword)).pending
  have hrest : r.Quiet w := (quiet_loopCondition hcondition).trans (quiet_loopIncrement hincrement)
  have hfirst : r.scanner.pending = bs := by
    rcases loopInit_eq_true.1 hinit with ⟨hsemicolon, rfl⟩ | ⟨hnext, s, v, hs, hread, hend⟩
    · rw [← hentered]
      exact (quiet_fill_advance (Token.isPlain_of_isOperator hsemicolon rfl)).pending
    · have hsemicolon : v.Quiet r ∧ v.LeadsTo r := by
        split at hend
        · obtain ⟨-, hr⟩ := headerSemicolon_eq_true.1 hend
          have hleads : (v.push s).LeadsTo r := by
            rw [hr]
            exact leadsTo_advance _
          exact ⟨⟨(quiet_headerSemicolon hend).pending, (quiet_headerSemicolon hend).reports⟩,
            (leadsTo_push v s).trans hleads⟩
        · obtain rfl := hend
          exact ⟨⟨rfl, rfl⟩, leadsTo_push v s⟩
      have hopen := hclause s v hnext hs hread hsemicolon.2
      rw [hsemicolon.1.pending]
      -- the file goes on after the clause, up to the brace of the body
      apply hopen.pending
      have hleads : v.LeadsTo w := (hsemicolon.2.trans (leadsTo_of_loopCondition hcondition)).trans
        (leadsTo_of_loopIncrement hincrement)
      have honce' : v.scanner.EndsOnce :=
        ((((leadsTo_fill_advance p).trans (leadsTo_enter _)).trans (leadsTo_fill _ 1)).trans
          (leadsTo_of_statement (hreader _ _ hs))).endsOnce honce
      exact hleads.isEndOfFile_eq_false honce' (isEndOfFile_of_isOperator hbrace)
  rw [← hfirst, ← hrest.pending]
  exact pending_advance_leftBrace hbrace

/-! ### Statements and bodies -/

/-- The statements that are read with a bound leave the open brackets as they were. -/
def StatementsClose (root : Parser) (n : Nat) : Prop :=
  ∀ ⦃bs p s q⦄, ComesToStatement root bs p → p.scanner.pending = bs →
    statementWithin n p = .ok (s, q) → s.isRead = true → Unharmed root q → q.Open bs

/-- The bodies that are read with a bound close their braces. -/
def BodiesClose (root : Parser) (n : Nat) : Prop :=
  ∀ ⦃b bs p q⦄, ComesToBody root (b :: bs) p → p.Open (b :: bs) →
    bodyWithin n false p = .ok q → Unharmed root q → q.Open bs

theorem statement_of_statementWithin (h : statementWithin n p = .ok (s, q)) :
    p.statement = .ok (s, q) := extends_statement n p _ h

theorem statementsClose_succ (honce : root.scanner.EndsOnce) (hstatement : StatementsClose root n)
    (hbody : BodiesClose root n) : StatementsClose root (n + 1) := by
  intro bs p s q hp hpending h hread hunharmed
  have hvalid := isInvalid_of_isRead hread
  have hfill : p.Quiet (p.fill 1) := p.quiet_fill 1
  have hquiet (hq : (p.fill 1).Quiet q) : q.Open bs :=
    .inl (((hfill.trans hq).pending).trans hpending)
  unfold statementWithin at h
  dsimp only at h
  split at h
  next hkind => exact hquiet (quiet_declaration hkind (Except.ok.inj h) hread)
  next hkind =>
    rw [next_fill] at hkind
    obtain ⟨c, r, u, scope, hcondition, hbrace, hu, hleave, -⟩ := branchWith_eq_read.1 ⟨h, hvalid⟩
    have hscanner := scanner_of_leave hleave
    have hbody' := hbody (.branch hp hkind hcondition hbrace)
      (.inl (pending_branch hpending hkind hcondition hbrace)) hu
      (hunharmed.mono (leadsTo_of_eq hscanner))
    exact hbody'.congr hscanner
  next hkind =>
    rw [next_fill] at hkind
    obtain ⟨header, r, u, scope, hheader, hu, hleave, -⟩ := loopWith_eq_read.1 ⟨h, hvalid⟩
    obtain ⟨v, w, x, hinit, hcondition, hincrement, hbrace, rfl⟩ := loopHeaderWith_eq_some.1 hheader
    have hscanner := scanner_of_leave hleave
    have hcome := ComesToBody.loop hp hkind ((extends_statement n).loopInit _ _ hinit) hcondition
      hincrement hbrace
    have hleads : v.LeadsTo q :=
      ((((leadsTo_of_loopCondition hcondition).trans (leadsTo_of_loopIncrement hincrement)).trans
        ((leadsTo_advance x).trans (leadsTo_pop _))).trans (leadsTo_of_bodyWithin hu)).congr hscanner
    -- the first clause is a statement of its own, read with the smaller bound
    have hopened := pending_loop (extends_statement n) (hp.leadsTo.endsOnce honce) hpending hkind hinit
      (fun s' v' hnext hs' hread' hv' => hstatement (.init hp hkind hnext)
        ((quiet_fill _ 1).pending.trans
          ((quiet_fill_advance (Token.isPlain_of_keyword hkind)).pending.trans hpending))
        hs' hread' (hunharmed.mono (hv'.trans hleads))) hcondition hincrement hbrace
    have hbody' := hbody hcome (.inl hopened) hu (hunharmed.mono (leadsTo_of_eq hscanner))
    exact hbody'.congr hscanner
  next x hkind => exact hquiet (quiet_named hkind h hvalid)
  next =>
    obtain ⟨rfl, -⟩ := Prod.mk.inj (Except.ok.inj h)
    simp [Statement.isInvalid] at hvalid

theorem bodiesClose_succ (hstatement : StatementsClose root n) (hbody : BodiesClose root n) :
    BodiesClose root (n + 1) := by
  intro b bs p q hp hopen h hunharmed
  have hfill : p.Quiet (p.fill 1) := p.quiet_fill 1
  cases bodyWithin_succ.1 h with
  | ends hends =>
    cases hends with
    | brace hbrace =>
      have hnext : (p.fill 1).next.isOperator .rightBrace = true := by rwa [next_fill]
      have hb : b.bracket = .brace := hp.bracket b List.mem_cons_self
      have hpending := hopen.pending (isEndOfFile_of_isOperator hbrace)
      exact .inl (advance_rightBrace hnext hb (hfill.pending.trans hpending)).1
    | endOfFile hend =>
      -- the brackets of the body are still open, the own brace of the body among them
      refine .inr ⟨(congrArg Token.isEndOfFile (p.next_fill 1)).trans hend, ?_⟩
      rw [hfill.pending]
      exact (List.suffix_cons b bs).trans hopen.suffix
  | blank hnext hrest =>
    have hpending := hopen.pending (isEndOfFile_of_blank hnext)
    exact hbody (hp.blank hnext) (.inl (pending_blank hpending hnext)) hrest hunharmed
  | stray htop _ _ => contradiction
  | statement s r hnext hs hrest =>
    have hpending := hopen.pending (isEndOfFile_of_startsStatement hnext)
    have hs' := statement_of_statementWithin hs
    have hleads : r.LeadsTo q := by
      split at hrest
      · exact leadsTo_of_bodyWithin hrest
      · exact (leadsTo_push r s).trans (leadsTo_of_bodyWithin hrest)
    have hafter : r.Open (b :: bs) := by
      cases hread : s.isRead with
      | true =>
        exact hstatement (.body hp hnext) (hfill.pending.trans hpending) hs hread
          (hunharmed.mono hleads)
      | false => exact .inl ((hunharmed p r ⟨hp, hnext, hs', hread⟩ hleads).trans hpending)
    split at hrest
    next hinvalid => exact hbody (hp.dropped hnext hs' hinvalid) hafter hrest hunharmed
    next hvalid =>
      exact hbody (hp.pushed hnext hs' (Bool.eq_false_iff.2 hvalid)) (hafter.congr rfl) hrest
        hunharmed

theorem close_within (honce : root.scanner.EndsOnce) (n : Nat) :
    StatementsClose root n ∧ BodiesClose root n := by
  -- one induction for both readers, since each calls the other with a smaller bound
  induction n with
  | zero =>
    refine ⟨fun bs p s q _ _ h => ?_, fun b bs p q _ _ h => ?_⟩
    · simp [statementWithin, halt] at h
    · simp [bodyWithin, halt] at h
  | succ n ih =>
    exact ⟨statementsClose_succ honce ih.1 ih.2, bodiesClose_succ ih.1 ih.2⟩

/-- A statement that is read leaves the open brackets as they were, at whatever place the reader has
come to. -/
theorem open_of_statement (honce : root.scanner.EndsOnce) (hp : ComesToStatement root bs p)
    (hpending : p.scanner.pending = bs) (h : p.statement = .ok (s, q)) (hread : s.isRead = true)
    (hunharmed : Unharmed root q) : q.Open bs :=
  (close_within honce p.bound).1 hp hpending h hread hunharmed

mutual

/-- The open brackets are the braces of the bodies that are being read, as long as what failed has left
them as they were. -/
theorem ComesToBody.open {bs : List Opening} {p : Parser} (honce : root.scanner.EndsOnce)
    (hstart : root.scanner.pending = []) :
    ComesToBody root bs p → Unharmed root p → p.Open bs
  | .program, _ => .inl hstart
  | .blank h hnext, hunharmed => by
    have hopen := h.open honce hstart (hunharmed.mono (leadsTo_fill_advance _))
    exact .inl (pending_blank (hopen.pending (isEndOfFile_of_blank hnext)) hnext)
  | .stray (p := p) h hnext, hunharmed => by
    have hopen := h.open honce hstart (hunharmed.mono (leadsTo_fill_advance _))
    have hpending := hopen.pending (isEndOfFile_of_isOperator hnext)
    rw [← p.next_fill 1] at hnext
    exact .inl (pending_advance_stray hnext ((p.quiet_fill 1).pending.trans hpending))
  | .dropped (s := s) h hnext hs hinvalid, hunharmed => by
    have hfailed : s.isRead = false := by
      cases hread : s.isRead with
      | false => rfl
      | true => rw [isInvalid_of_isRead hread] at hinvalid; contradiction
    have hleads := (leadsTo_fill _ 1).trans (leadsTo_of_statement hs)
    have hopen := h.open honce hstart (hunharmed.mono hleads)
    have hpending := hopen.pending (isEndOfFile_of_startsStatement hnext)
    exact .inl ((hunharmed _ _ ⟨h, hnext, hs, hfailed⟩ (.refl _)).trans hpending)
  | .pushed (p := p) (s := s) h hnext hs hvalid, hunharmed => by
    have hleads := ((leadsTo_fill _ 1).trans (leadsTo_of_statement hs)).trans (leadsTo_push _ s)
    have hopen := h.open honce hstart (hunharmed.mono hleads)
    have hpending := hopen.pending (isEndOfFile_of_startsStatement hnext)
    have hunharmed' := hunharmed.mono (leadsTo_push _ s)
    cases hread : s.isRead with
    | true =>
      exact (open_of_statement honce (.body h hnext) ((p.quiet_fill 1).pending.trans hpending) hs
        hread hunharmed').congr rfl
    | false => exact .inl ((hunharmed' _ _ ⟨h, hnext, hs, hread⟩ (.refl _)).trans hpending)
  | .branch h hkeyword hcondition hbrace, hunharmed => by
    have hleads := (((leadsTo_fill_advance _).trans (leadsTo_of_condition hcondition)).trans
      (leadsTo_advance _)).trans (leadsTo_enter _)
    have hpending := h.pending honce hstart (hunharmed.mono hleads)
    exact .inl (pending_branch hpending hkeyword hcondition hbrace)
  | .loop h hkeyword hinit hcondition hincrement hbrace, hunharmed => by
    have hclauses := (((leadsTo_of_loopCondition hcondition).trans
      (leadsTo_of_loopIncrement hincrement)).trans (leadsTo_advance _)).trans (leadsTo_pop _)
    have hleads := (((leadsTo_fill_advance _).trans (leadsTo_enter _)).trans
      (leadsTo_of_loopInit hinit)).trans hclauses
    have hpending := h.pending honce hstart (hunharmed.mono hleads)
    refine .inl (pending_loop (fun _ _ h => h) (h.leadsTo.endsOnce honce) hpending hkeyword hinit
      (fun s v hnext hs hread hv => ?_) hcondition hincrement hbrace)
    have hfirst := (quiet_fill _ 1).pending.trans
      ((quiet_fill_advance (Token.isPlain_of_keyword hkeyword)).pending.trans hpending)
    exact open_of_statement honce (.init h hkeyword hnext) hfirst hs hread
      (hunharmed.mono (hv.trans hclauses))

/-- The same where a statement starts. -/
theorem ComesToStatement.pending {bs : List Opening} {p : Parser} (honce : root.scanner.EndsOnce)
    (hstart : root.scanner.pending = []) :
    ComesToStatement root bs p → Unharmed root p → p.scanner.pending = bs
  | .body h hnext, hunharmed => by
    have hopen := h.open honce hstart (hunharmed.mono (leadsTo_fill _ 1))
    exact (quiet_fill _ 1).pending.trans (hopen.pending (isEndOfFile_of_startsStatement hnext))
  | .init (p := p) h hkeyword hnext, hunharmed => by
    have hleads := ((leadsTo_fill_advance p).trans (leadsTo_enter _)).trans (leadsTo_fill _ 1)
    have hpending := h.pending honce hstart (hunharmed.mono hleads)
    exact (quiet_fill _ 1).pending.trans
      ((quiet_fill_advance (Token.isPlain_of_keyword hkeyword)).pending.trans hpending)

end

/-! ### Programs -/

/-- A body that is being read goes on to its closing brace or to the end of the file, and the reader
comes to that place. -/
theorem ComesToBody.ends {bs : List Opening} {b : Opening} {q : Parser}
    (hp : ComesToBody root (b :: bs) p) (h : bodyWithin n false p = .ok q) :
    ∃ r, ComesToBody root (b :: bs) r ∧ p.LeadsTo r ∧ r.BodyEnds false q := by
  induction n generalizing p with
  | zero => simp [bodyWithin, halt] at h
  | succ n ih =>
    -- the rest of the body is read from a place that comes later
    have hmore {u : Parser} (hu : ComesToBody root (b :: bs) u) (hleads : p.LeadsTo u)
        (h : bodyWithin n false u = .ok q) :
        ∃ r, ComesToBody root (b :: bs) r ∧ p.LeadsTo r ∧ r.BodyEnds false q := by
      obtain ⟨r, hr, hur, hends⟩ := ih hu h
      exact ⟨r, hr, hleads.trans hur, hends⟩
    cases bodyWithin_succ.1 h with
    | ends hends => exact ⟨p, hp, .refl p, hends⟩
    | blank hnext hrest => exact hmore (hp.blank hnext) (leadsTo_fill_advance p) hrest
    | stray htop _ _ => contradiction
    | statement s r hnext hs hrest =>
      have hs' := statement_of_statementWithin hs
      have hleads := (leadsTo_fill p 1).trans (leadsTo_of_statement hs')
      split at hrest
      next hinvalid => exact hmore (hp.dropped hnext hs' hinvalid) hleads hrest
      next hvalid =>
        exact hmore (hp.pushed hnext hs' (Bool.eq_false_iff.2 hvalid))
          (hleads.trans (leadsTo_push r s)) hrest

/-- A statement that has failed has been reported. -/
theorem Falters.errorCount_pos {source : Source} (h : Falters (ofSource source) p q) :
    0 < q.errorCount := by
  obtain ⟨hp, -, hs, hfailed⟩ := h
  obtain ⟨ts, hts⟩ := hp.leadsTo
  have hstands : (p.fill 1).Stands source ts.length := by
    intro n
    rw [ahead_fill, Nat.add_comm]
    exact ((hts.ahead n).trans (stands_ofSource source _)).trans
      (congrArg source.tokenAt (Nat.zero_add _))
  have herrors := ((makes_within source _).1 hstands hs).errors
  have hpos := Statement.failures_pos_of_initFailed (by simpa [Statement.isRead] using hfailed)
  omega

/-- As long as nothing has been reported, nothing has failed. -/
theorem unharmed_of_errorCount {source : Source} (h : q.errorCount = 0) :
    Unharmed (ofSource source) q := by
  intro p r hfalters hr
  obtain ⟨ts, hts⟩ := hr
  have hpos := hfalters.errorCount_pos
  have hle : r.errorCount ≤ q.errorCount := hts.errorCount_le
  omega

/-- How the open brackets at a place to which the reader of bodies has come agree with the braces `bs`
of the bodies that are being read there. -/
structure FollowsBraces (root : Parser) (bs : List Opening) (p : Parser) : Prop where
  /-- Before the end of the file, they are the braces here and at all places before, exactly if all that
  has failed has left them as they were. -/
  pending : p.next.isEndOfFile = false →
    ((∀ bs' p', ComesToBody root bs' p' → p'.LeadsTo p → p'.scanner.pending = bs') ↔
      Unharmed root p)
  /-- At the end of the file too, the braces are open then. -/
  suffix : Unharmed root p → bs <:+ p.scanner.pending
  /-- A nested body ends at a closing brace or at the end of the file. -/
  ends : ∀ b bs', bs = b :: bs' →
    ∃ q r, p.body false = .ok r ∧ ComesToBody root bs q ∧ p.LeadsTo q ∧ q.BodyEnds false r
  /-- A closing brace at which a nested body ends closes the body's own brace. -/
  closes : ∀ b bs', bs = b :: bs' → Unharmed root p → p.next.isOperator .rightBrace = true →
    p.scanner.pending = b :: bs' ∧ p.scanner.objection? p.next = none ∧
      (p.fill 1).advance.scanner.pending = bs'

/-- After a statement that fails the reader of bodies goes on, and finds the brackets that it left. -/
theorem unharmed_of_pending
    (hpending : ∀ bs' p', ComesToBody root bs' p' → p'.LeadsTo p → p'.scanner.pending = bs') :
    Unharmed root p := by
  intro q r hfalters hr
  obtain @⟨bs, s, hq, hnext, hs, -⟩ := hfalters
  have hleads := ((leadsTo_fill q 1).trans (leadsTo_of_statement hs)).trans hr
  rw [hpending bs q hq hleads]
  cases hinvalid : s.isInvalid with
  | true => exact hpending bs r (hq.dropped hnext hs hinvalid) hr
  | false => exact hpending bs (r.push s) (hq.pushed hnext hs hinvalid) hr

theorem ComesToBody.followsBraces (hp : ComesToBody root bs p) (honce : root.scanner.EndsOnce)
    (hstart : root.scanner.pending = []) : FollowsBraces root bs p where
  pending hend := by
    refine ⟨unharmed_of_pending, fun hunharmed bs' p' hp' hleads => ?_⟩
    have hend' := hleads.isEndOfFile_eq_false (hp'.leadsTo.endsOnce honce) hend
    exact (hp'.open honce hstart (hunharmed.mono hleads)).pending hend'
  suffix hunharmed := (hp.open honce hstart hunharmed).suffix
  ends b bs' hbs := by
    subst hbs
    obtain ⟨-, r, hr, -⟩ := p.body_ok false
    obtain ⟨q, hq, hleads, hends⟩ := hp.ends hr
    exact ⟨q, r, hr, hq, hleads, hends⟩
  closes b bs' hbs hunharmed hbrace := by
    subst hbs
    have hpending := (hp.open honce hstart hunharmed).pending (isEndOfFile_of_isOperator hbrace)
    have hb : b.bracket = .brace := hp.bracket b List.mem_cons_self
    have hnext : (p.fill 1).next.isOperator .rightBrace = true := by rwa [next_fill]
    refine ⟨hpending, ?_,
      (advance_rightBrace hnext hb ((p.quiet_fill 1).pending.trans hpending)).1⟩
    unfold Scanner.objection?
    rw [Token.kind_of_isOperator hbrace]
    simp [Operator.closes?, hpending, hb]

/-- Bodies follow braces up to what statements that failed have left behind, whatever the source is. A
program is read, and wherever the reader of bodies comes to while it is, the brackets that are open are
the braces of the bodies being read, exactly if every statement that has failed by then has left the
open brackets as they were; and then a body ends at the brace that closes its own, or with the file. -/
theorem bodies_follow_braces (file : Path) (bytes : ByteArray) :
    (∃ q, (ofSource (.ofBytes file bytes)).program = .ok q) ∧
      ∀ bs p, ComesToBody (ofSource (.ofBytes file bytes)) bs p →
        FollowsBraces (ofSource (.ofBytes file bytes)) bs p := by
  obtain ⟨-, q, hq, -⟩ := (ofSource (.ofBytes file bytes)).body_ok true
  exact ⟨⟨q, hq⟩, fun bs p hp => hp.followsBraces (.ofSource _) rfl⟩

/-- In the body of an `if` that was read without an error, the next closing brace is its own. -/
theorem bodies_follow_braces_of_branch :
    let root := ofSource (.ofBytes ⟨"main.rin"⟩ "if 1 \x7b\x7d".toUTF8)
    ∃ p b, ComesToBody root [b] p ∧ p.next.isOperator .rightBrace = true ∧
      (p.fill 1).advance.scanner.pending = [] := by
  intro root
  have hfacts : ((((root.fill 1).fill 1).advance.condition .leftBrace).1.isSome &&
      (((root.fill 1).fill 1).advance.condition .leftBrace).2.next.isOperator .leftBrace &&
      ((((root.fill 1).fill 1).advance.condition .leftBrace).2.advance.enter.next.isOperator
        .rightBrace) &&
      ((((root.fill 1).fill 1).advance.condition .leftBrace).2.advance.enter.errorCount == 0)) =
        true := by
    decide +kernel
  generalize hcondition : ((root.fill 1).fill 1).advance.condition .leftBrace = answer at hfacts
  obtain ⟨c, r⟩ := answer
  simp only [Bool.and_eq_true, beq_iff_eq] at hfacts
  obtain ⟨⟨⟨hc, hopening⟩, hclosing⟩, herrors⟩ := hfacts
  obtain ⟨c, rfl⟩ := Option.isSome_iff_exists.1 hc
  have hstatement : ComesToStatement root [] (root.fill 1) := .body .program (by decide +kernel)
  have hbody := ComesToBody.branch hstatement (by decide +kernel) hcondition hopening
  have hfollows := (bodies_follow_braces ⟨"main.rin"⟩ "if 1 \x7b\x7d".toUTF8).2 _ _ hbody
  have hcloses := hfollows.closes _ _ rfl (unharmed_of_errorCount herrors) hclosing
  exact ⟨_, _, hbody, hclosing, hcloses.2.2⟩

/-- A brace that was skipped with the header of a loop is still open when the reader of bodies goes
on, although no body is being read. -/
theorem brace_of_failed_header_stays_open :
    let root := ofSource (.ofBytes ⟨"main.rin"⟩ "for ; ; i = 1 \x7b\n\x7d".toUTF8)
    ∃ bs p, ComesToBody root bs p ∧ p.next.isOperator .rightBrace = true ∧
      p.scanner.pending ≠ bs := by
  intro root
  have hfacts : ((root.fill 1).statement.toOption.map fun answer =>
      (answer.1.isInvalid, answer.2.next.isOperator .rightBrace,
        answer.2.scanner.pending.isEmpty)) = some (true, true, false) := by
    decide +kernel
  obtain ⟨s, q, hs, -⟩ := (root.fill 1).statement_passes
  rw [hs] at hfacts
  obtain ⟨hinvalid, hrest⟩ := Prod.mk.inj (Option.some.inj hfacts)
  obtain ⟨hbrace, hpending⟩ := Prod.mk.inj hrest
  refine ⟨[], q, .dropped .program (by decide +kernel) hs hinvalid, hbrace, fun hempty => ?_⟩
  simp [hempty] at hpending

end FloatLang.Parser
