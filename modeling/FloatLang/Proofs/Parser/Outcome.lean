import FloatLang.Proofs.Parser.Failing
import FloatLang.Proofs.Scanner.BracketTokens

/-!
# What comes of reading an expression

An expression goes on over tokens that may stand in one, until one comes at which it ends. If it is
read, nothing is reported, the open brackets and the scopes are as they were, and the token at which
it ends is the next one. Otherwise there is exactly one error. But if the end is reached with
parentheses open, there is one error for each of them, at the parenthesis and the innermost first,
and the scanner waits for none of them any longer.

## Main definitions

* `Parser.GoesOn`, `Parser.EndsAfter` — how far the next tokens make up an expression
* `Parser.ReadsTo` — what holds after an expression has been read
* `Parser.LeavesOpen` — what holds after one with open parentheses

## Main results

* `Parser.EndsAfter.unique` — an expression has one end
* `Parser.collect_outcome` — what is collected ends where the expression ends
* `Parser.outcome_of_expression` — the outcome of reading an expression
-/

namespace FloatLang

/-! ### Brackets that are waited for -/

namespace Scanner

variable {source : Source} {s s' : Scanner} {ts : List Token}

/-- The scanner has come to some token of the source, and waits for brackets in front of it only. -/
structure WaitsBehind (source : Source) (s : Scanner) : Prop where
  ahead : ∃ n, ∀ i, s.ahead i = source.tokenAt (n + i)
  pending : ∀ o ∈ s.pending, ∀ i, o.location.offset < (s.ahead i).location.offset

theorem WaitsBehind.congr (h : s.WaitsBehind source) (hahead : s'.ahead = s.ahead)
    (hpending : ∀ o ∈ s'.pending, o ∈ s.pending) : s'.WaitsBehind source where
  ahead := hahead ▸ h.ahead
  pending o ho i := by
    rw [hahead]
    exact h.pending o (hpending o ho) i

theorem WaitsBehind.advance (h : s.WaitsBehind source) : s.advance.WaitsBehind source := by
  obtain ⟨⟨n, hn⟩, hpending⟩ := h
  refine ⟨⟨n + 1, fun i => ?_⟩, fun o ho i => ?_⟩
  · rw [ahead_advance, hn, Nat.add_assoc, Nat.add_comm 1]
  · rw [ahead_advance]
    rw [pending_advance] at ho
    rcases mem_pendingAfter ho with hold | ⟨hkind, hlocation⟩
    · exact hpending o hold (i + 1)
    · have hnext : s.next = source.tokenAt n := hn 0
      have hfile : (source.tokenAt n).isEndOfFile = false := by
        rw [← hnext, Token.isEndOfFile, hkind]
        rfl
      rw [hlocation, hnext, hn]
      exact Source.offset_lt hfile (by omega)

theorem WaitsBehind.handsOut (h : s.WaitsBehind source) (hs : s.HandsOut ts s') :
    s'.WaitsBehind source := by
  induction hs with
  | refl s => exact h
  | advance _ ih => exact ih h.advance
  | @fill s _ _ n _ ih =>
    exact ih (h.congr (s.ahead_fill_eq n) fun o ho => by rwa [pending_fill] at ho)
  | report r _ ih => exact ih (h.congr (ahead_report _ r) fun o ho => ho)
  | forget hforget _ ih =>
    refine ih (h.congr (ahead_forget? hforget) fun o ho => ?_)
    rw [eq_of_forget? hforget] at ho
    exact List.mem_of_mem_eraseP ho
  | flush _ ih => exact ih (h.congr (ahead_flush _) fun o ho => by simp [flush] at ho)

theorem forget?_eq_none_iff {l : Location} :
    s.forget? l = none ↔ ∀ o ∈ s.pending, ¬ o.location.same l = true := by
  unfold forget?
  cases hfind : s.pending.find? (·.location.same l) with
  | none => exact iff_of_true rfl (List.find?_eq_none.1 hfind)
  | some o =>
    refine iff_of_false (by simp) fun h => ?_
    have hsame := List.find?_some hfind
    exact h o (List.mem_of_find?_eq_some hfind) hsame

/-- A scanner of a source waits for nothing that is ahead. -/
theorem forget?_of_handsOut (h : ({ source } : Scanner).HandsOut ts s) (i : Nat) :
    s.forget? (s.ahead i).location = none := by
  have hstart : ({ source } : Scanner).WaitsBehind source :=
    ⟨⟨0, fun i => by simp [ahead_eq]⟩, by simp⟩
  rw [forget?_eq_none_iff]
  intro o ho hsame
  have hlt := (hstart.handsOut h).pending o ho i
  simp only [Location.same, Bool.and_eq_true, beq_iff_eq] at hsame
  rw [hsame.2] at hlt
  exact Nat.lt_irrefl _ hlt

end Scanner

/-! ### The tokens of an expression -/

/-- Whether a token may stand in an expression, wherever that is. -/
def Token.fits (resolve : String → Option Variable) (t : Token) : Bool :=
  match t.kind with
  | .endOfLine | .numeral _ => true
  | .identifier name => (resolve name).isSome
  | .operator op => op.precedence != Operator.outside
  | .endOfFile | .keyword _ | .invalid _ => false

theorem Token.isEndOfFile_of_fits {resolve : String → Option Variable} {t : Token}
    (h : t.fits resolve = true) : t.isEndOfFile = false := by
  rw [isEndOfFile, beq_eq_false_iff_ne]
  intro hkind
  simp [fits, hkind] at h

/-- Whether an operand is wanted after a token. A line break changes nothing. -/
def Token.wants (wanted : Bool) (t : Token) : Bool :=
  if t.isEndOfLine then wanted else Infix.leavesWanting t

namespace Parser

open Postfix (Yard opened)

/-- An expression with the given terminal goes on over the next `n` tokens: none of them ends it,
all may stand in it, and a closing parenthesis closes one of its own. An operand is wanted after
them, or not, and the parentheses in the list are open, the innermost first. -/
inductive GoesOn (terminal : Operator) (p : Parser) : Nat → Bool → List Opening → Prop
  | start : GoesOn terminal p 0 false []
  | token {n : Nat} {wanted : Bool} {os os' : List Opening} (h : GoesOn terminal p n wanted os)
      (hend : endsExpression terminal wanted (p.ahead n) = false)
      (hfits : (p.ahead n).fits p.scopes.resolve? = true)
      (hfollow : follow? os (p.ahead n) = some os') :
      GoesOn terminal p (n + 1) ((p.ahead n).wants wanted) os'

/-- An expression with the given terminal goes on over the next `n` tokens and ends there, with the
parentheses in the list open. -/
def EndsAfter (terminal : Operator) (p : Parser) (n : Nat) (os : List Opening) : Prop :=
  ∃ wanted, GoesOn terminal p n wanted os ∧ endsExpression terminal wanted (p.ahead n) = true

variable {terminal : Operator} {p q r : Parser} {n m : Nat} {wanted wanted' : Bool}
  {os os' : List Opening}

namespace GoesOn

theorem unique (h : GoesOn terminal p n wanted os) (h' : GoesOn terminal p n wanted' os') :
    wanted = wanted' ∧ os = os' := by
  induction h generalizing wanted' os' with
  | start =>
    cases h'
    exact ⟨rfl, rfl⟩
  | token _ _ _ hfollow ih =>
    cases h' with
    | token h' _ _ hfollow' =>
      obtain ⟨rfl, rfl⟩ := ih h'
      exact ⟨rfl, Option.some.inj (hfollow.symm.trans hfollow')⟩

/-- It goes on over fewer tokens, and is not at its end before. -/
theorem of_lt (h : GoesOn terminal p m wanted' os') (hlt : n < m) :
    ∃ wanted os, GoesOn terminal p n wanted os ∧
      endsExpression terminal wanted (p.ahead n) = false ∧
      (p.ahead n).fits p.scopes.resolve? = true ∧ (follow? os (p.ahead n)).isSome = true := by
  induction h with
  | start => contradiction
  | token h hend hfits hfollow ih =>
    rcases Nat.lt_succ_iff_lt_or_eq.1 hlt with hlt | rfl
    · exact ih hlt
    · exact ⟨_, _, h, hend, hfits, by rw [hfollow]; rfl⟩

end GoesOn

/-- It does not end if the next token neither ends it nor can be taken. -/
theorem GoesOn.not_endsAfter (h : GoesOn terminal p n wanted os)
    (hend : endsExpression terminal wanted (p.ahead n) = false)
    (hstuck : (p.ahead n).fits p.scopes.resolve? = true → follow? os (p.ahead n) = none) (m : Nat)
    (os' : List Opening) : ¬ EndsAfter terminal p m os' := by
  rintro ⟨wanted', h', hend'⟩
  -- it went on over every token before this one, and goes on over none from this one on
  rcases Nat.lt_trichotomy m n with hlt | rfl | hlt
  · obtain ⟨w, o, hbefore, hnot, -⟩ := h.of_lt hlt
    obtain ⟨rfl, -⟩ := hbefore.unique h'
    rw [hnot] at hend'
    contradiction
  · obtain ⟨rfl, -⟩ := h.unique h'
    rw [hend] at hend'
    contradiction
  · obtain ⟨w, o, hbefore, -, hfits, hsome⟩ := h'.of_lt hlt
    obtain ⟨-, rfl⟩ := hbefore.unique h
    rw [hstuck hfits] at hsome
    contradiction

/-- An expression has one end. -/
theorem EndsAfter.unique (h : EndsAfter terminal p n os) (h' : EndsAfter terminal p m os') :
    n = m ∧ os = os' := by
  obtain ⟨wanted, hgoes, hend⟩ := h
  obtain ⟨wanted', hgoes', hend'⟩ := h'
  rcases Nat.lt_trichotomy n m with hlt | rfl | hlt
  · obtain ⟨w, o, hbefore, hnot, -⟩ := hgoes'.of_lt hlt
    obtain ⟨rfl, -⟩ := hbefore.unique hgoes
    rw [hnot] at hend
    contradiction
  · exact ⟨rfl, (hgoes.unique hgoes').2⟩
  · obtain ⟨w, o, hbefore, hnot, -⟩ := hgoes.of_lt hlt
    obtain ⟨rfl, -⟩ := hbefore.unique hgoes'
    rw [hnot] at hend'
    contradiction

/-- The brackets open after a token that may stand in an expression. -/
theorem mem_of_follow? {t : Token} {o : Opening} {resolve : String → Option Variable}
    (hfits : t.fits resolve = true) (hfollow : follow? os t = some os') (ho : o ∈ os') :
    o ∈ os ∨ t.kind = .operator .leftParen ∧ o = ⟨.parenthesis, t.location⟩ := by
  unfold follow? at hfollow
  split at hfollow
  · contradiction
  next op hkind =>
    simp only [Token.fits, hkind] at hfits
    split at hfollow
    next bracket _ hopens =>
      obtain rfl := Option.some.inj hfollow
      rcases List.mem_cons.1 ho with rfl | ho
      · -- no other bracket that opens may stand in an expression
        cases op <;> first | contradiction | skip
        obtain rfl := Option.some.inj hopens
        exact .inr ⟨hkind, rfl⟩
      · exact .inl ho
    · split at hfollow
      · obtain rfl := Option.some.inj hfollow
        exact .inl (List.mem_of_mem_tail ho)
      · contradiction
    · obtain rfl := Option.some.inj hfollow
      exact .inl ho
  · obtain rfl := Option.some.inj hfollow
    exact .inl ho

/-- What is open are parentheses among the tokens. -/
theorem GoesOn.parenthesis (h : GoesOn terminal p n wanted os) :
    ∀ o ∈ os, o.bracket = .parenthesis ∧
      ∃ k < n, (p.ahead k).kind = .operator .leftParen ∧ o.location = (p.ahead k).location := by
  induction h with
  | start => simp
  | @token n _ _ _ _ _ hfits hfollow ih =>
    intro o ho
    rcases mem_of_follow? hfits hfollow ho with hold | ⟨hkind, rfl⟩
    · obtain ⟨hbracket, k, hk, hopener⟩ := ih o hold
      exact ⟨hbracket, k, Nat.lt_succ_of_lt hk, hopener⟩
    · exact ⟨rfl, n, Nat.lt_succ_self n, hkind, rfl⟩

/-! ### One token -/

/-- What a yard takes may stand in an expression, and the parentheses of the yard are those that are
open. -/
theorem fits_of_take? {y y' : Yard} {resolve : String → Option Variable} {t : Token}
    (h : y.take? resolve t = some y') :
    t.fits resolve = true ∧ follow? (opened y.waiting) t = some (opened y'.waiting) ∧
      y'.continues = t.wants y.continues := by
  refine ⟨?_, ?_, ?_⟩
  · unfold Yard.take? at h
    unfold Token.fits
    split at h
    next hkind => rw [hkind]
    next hkind => rw [hkind]
    next hkind =>
      obtain ⟨v, hv, -⟩ := Option.map_eq_some_iff.1 h
      rw [hkind]
      exact Option.isSome_iff_exists.2 ⟨v, hv⟩
    next hkind =>
      rw [hkind]
      split at h
      · contradiction
      next hop => exact bne_iff_ne.2 hop
    · contradiction
  · have hfollow := Postfix.follow?_of_take? h []
    rwa [List.append_nil, List.append_nil] at hfollow
  · unfold Token.wants
    split
    next hline =>
      obtain rfl := Option.some.inj ((Yard.take?_endOfLine hline).symm.trans h)
      rfl
    next hline => exact continues_take? h (Bool.eq_false_iff.2 hline)

/-- A closing parenthesis is not taken if none is open. -/
theorem close?_of_opened {y : Yard} (h : y.close? = none) : opened y.waiting = [] := by
  unfold Yard.close? at h
  dsimp only at h
  split at h
  next hdrop =>
    have hsplit := List.takeWhile_append_dropWhile (p := (·.1 != .leftParen)) (l := y.waiting)
    rw [hdrop, List.append_nil] at hsplit
    rw [← hsplit]
    refine Postfix.opened_eq_nil fun x hx => ?_
    exact bne_iff_ne.1 (List.all_eq_true.1 List.all_takeWhile x hx)
  · contradiction

/-- A token that a yard does not take may not stand in an expression, or closes nothing in it. -/
theorem follow?_of_take?_eq_none {y : Yard} {resolve : String → Option Variable} {t : Token}
    (h : y.take? resolve t = none) (hfits : t.fits resolve = true) :
    follow? (opened y.waiting) t = none := by
  cases hkind : t.kind with
  | operator op =>
    simp only [Token.fits, hkind] at hfits
    rcases Yard.cases_of_precedence (bne_iff_ne.1 hfits) with hbefore | hstep | rfl | hbinary
    · rw [Yard.take?_before hkind hbefore] at h
      contradiction
    · rw [Yard.take?_step hkind hstep] at h
      contradiction
    · rw [Yard.take?_rightParen hkind, Option.map_eq_none_iff] at h
      rw [close?_of_opened h]
      simp [follow?, hkind, Operator.opens?, Operator.closes?]
    · rw [Yard.take?_binary hkind hbinary] at h
      contradiction
  | identifier x =>
    simp only [Token.fits, hkind] at hfits
    simp only [Yard.take?, hkind, Option.map_eq_none_iff] at h
    rw [h] at hfits
    contradiction
  | _ => simp [Token.fits, Yard.take?, hkind] at h hfits

/-- The parser `q` has reported what `p` had, and then one error. -/
def ReportsOnce (p q : Parser) : Prop :=
  ∃ r : Report, r.severity = .error ∧ q.scanner.reports = p.scanner.reports ++ [r]

theorem ReportsOnce.congr {p' q' : Parser} (h : p.ReportsOnce q)
    (hp : p'.scanner.reports = p.scanner.reports) (hq : q'.scanner.reports = q.scanner.reports) :
    p'.ReportsOnce q' := by
  obtain ⟨r, hr, hreports⟩ := h
  exact ⟨r, hr, by rw [hq, hp, hreports]⟩

theorem reportsOnce_error (p : Parser) (l : Location) (problem : Problem) :
    p.ReportsOnce (p.error l problem) := ⟨_, rfl, rfl⟩

/-- A token to which there is an objection. -/
theorem reportsOnce_advance {problem : Problem}
    (h : p.scanner.objection? p.next = some problem) : p.ReportsOnce p.advance := by
  refine ⟨{ location := p.next.location, problem }, rfl, (p.scanner.reports_advance).trans ?_⟩
  rw [next] at h
  rw [h]
  rfl

/-- A token to which there is none. -/
theorem reports_advance (h : p.scanner.objection? p.next = none) :
    p.advance.scanner.reports = p.scanner.reports := by
  refine (p.scanner.reports_advance).trans ?_
  rw [next] at h
  rw [h]
  exact List.append_nil _

theorem reportsOnce_reject (p : Parser) (problem : Problem) : p.ReportsOnce (p.reject problem) := by
  unfold reject
  split
  next h => exact reportsOnce_advance h
  next h => exact (p.advance.reportsOnce_error _ _).congr (reports_advance h).symm rfl

/-- A token that an expression can not go on with is reported once. -/
theorem collect_stuck {y : Yard} (hend : endsExpression terminal y.continues p.next = false)
    (htake : y.take? p.scopes.resolve? p.next = none) :
    ∃ q, collect terminal (n + 1) y p = (none, q) ∧ p.ReportsOnce q := by
  have hfill {q : Parser} (h : (p.fill 1).ReportsOnce q) : p.ReportsOnce q :=
    h.congr (p.scanner.reports_fill 1).symm rfl
  rw [collect, next_fill, if_neg (Bool.eq_false_iff.1 hend)]
  -- either the scanner objects when the token is handed out, or the parser reports it, never both
  cases hkind : p.next.kind with
  | endOfLine => simp [Yard.take?, hkind] at htake
  | numeral value => simp [Yard.take?, hkind] at htake
  | endOfFile => exact ⟨_, rfl, hfill (reportsOnce_reject _ _)⟩
  | keyword word => exact ⟨_, rfl, hfill (reportsOnce_reject _ _)⟩
  | invalid error =>
    have hobjection : (p.fill 1).scanner.objection? (p.fill 1).next = some (.lexical error) := by
      rw [next_fill, Scanner.objection?, hkind]
    exact ⟨_, rfl, hfill (reportsOnce_advance hobjection)⟩
  | identifier x =>
    have hnone : p.scopes.resolve? x = none := by simpa [Yard.take?, hkind] using htake
    have hresolve : (p.fill 1).advance.resolve x p.next.location =
        (none, (p.fill 1).advance.error p.next.location (.undefined x)) := by
      rw [resolve, scopes_advance, scopes_fill, hnone]
    have hquiet : (p.fill 1).advance.scanner.reports = (p.fill 1).scanner.reports := by
      apply reports_advance
      rw [next_fill, Scanner.objection?, hkind]
    dsimp only
    rw [hresolve]
    exact ⟨_, rfl, hfill ((reportsOnce_error _ _ _).congr hquiet.symm rfl)⟩
  | operator op =>
    dsimp only
    split
    · exact ⟨_, rfl, hfill (reportsOnce_reject _ _)⟩
    next hop =>
      have hshift : y.shift? op p.next.location = none := by
        rwa [Yard.take?_operator hkind hop] at htake
      rw [hshift]
      exact ⟨_, rfl, hfill (reportsOnce_reject _ _)⟩

/-! ### All tokens -/

/-- What is collected ends where the expression ends, with the parentheses of the yard open. If it
has no end, that is reported once. -/
theorem collect_outcome {y : Yard} {k : Nat} (outside : List Opening)
    (hgoes : GoesOn terminal p k y.continues (opened y.waiting))
    (hahead : ∀ i, q.ahead i = p.ahead (k + i)) (hscopes : q.scopes = p.scopes)
    (hpending : q.scanner.pending = opened y.waiting ++ outside) (hn : q.remaining < n) :
    (∃ y' q' m, collect terminal n y q = (some y', q') ∧
        EndsAfter terminal p m (opened y'.waiting) ∧ ∀ i, q'.ahead i = p.ahead (m + i)) ∨
      ∃ q', collect terminal n y q = (none, q') ∧ (∀ m os, ¬ EndsAfter terminal p m os) ∧
        q.ReportsOnce q' := by
  -- by induction on the bound for the tokens; the ones before have been handed out without a report
  induction n generalizing y q k with
  | zero => contradiction
  | succ n ih =>
    have hnext : q.next = p.ahead k := hahead 0
    cases hend : endsExpression terminal y.continues q.next with
    | true =>
      refine .inl ⟨y, q.fill 1, k, collect_end hend, ⟨_, hgoes, hnext ▸ hend⟩, fun i => ?_⟩
      rw [ahead_fill, hahead]
    | false =>
      cases htake : y.take? q.scopes.resolve? q.next with
      | none =>
        obtain ⟨q', hq', hreports⟩ := collect_stuck (n := n) hend htake
        rw [hnext] at hend htake
        rw [hscopes] at htake
        exact .inr ⟨q', hq', hgoes.not_endsAfter hend (follow?_of_take?_eq_none htake), hreports⟩
      | some first =>
        have hfollow := Postfix.follow?_of_take? htake outside
        rw [← hpending] at hfollow
        obtain ⟨haccepts, hfirst⟩ := accepts_fill_advance hfollow
        rw [collect_take (Bool.eq_false_iff.1 hend) htake]
        obtain ⟨hfits, hopened, hcontinues⟩ := fits_of_take? htake
        have hless : (q.fill 1).advance.remaining < n := by
          have hfile : (q.fill 1).next.isEndOfFile = false := by
            rw [next_fill]
            exact Token.isEndOfFile_of_fits hfits
          have hfill := (q.keeps_fill 1).reaches.remaining_le
          have hlt := ((q.fill 1).passes_advance).remaining_lt hfile
          omega
        rw [hnext] at hend hfits hopened hcontinues
        rw [hscopes] at hfits
        have hgoes' := hgoes.token hend hfits hopened
        rw [← hcontinues] at hgoes'
        have hahead' : ∀ i, (q.fill 1).advance.ahead i = p.ahead (k + 1 + i) := fun i => by
          rw [ahead_advance, ahead_fill, hahead, Nat.add_assoc, Nat.add_comm 1]
        rcases ih hgoes' hahead' hscopes hfirst hless with hfound | ⟨q', hq', hnone, hreports⟩
        · exact .inl hfound
        · exact .inr ⟨q', hq', hnone, hreports.congr haccepts.reports.symm rfl⟩

/-! ### Outcomes -/

/-- Parentheses left open are reported, and no longer waited for. -/
theorem reportUnclosed_outcome {outside : List Opening}
    (h : p.scanner.pending = os ++ outside) :
    (p.reportUnclosed (os.map Opening.location)).scanner.reports =
        p.scanner.reports ++ os.map Scanner.unclosedReport ∧
      (p.reportUnclosed (os.map Opening.location)).scanner.pending = outside := by
  induction os generalizing p with
  | nil => exact ⟨(List.append_nil _).symm, h⟩
  | cons o os ih =>
    -- the scanner waits for the innermost one first, and forgets that one
    rw [List.map_cons, reportUnclosed, List.foldl_cons]
    simp only [Scanner.forget?_innermost h]
    let q := p.modifyScanner fun s =>
      ({ s with pending := os ++ outside } : Scanner).report (Scanner.unclosedReport o)
    have hrest := ih (p := q) rfl
    refine ⟨hrest.1.trans ?_, hrest.2⟩
    change p.scanner.reports ++ [_] ++ _ = _
    rw [List.append_assoc]
    rfl

/-- The parser `q` comes from `p` by reading an expression: nothing has been reported, brackets and
scopes are as they were, and the token at which the expression ends is the next one. -/
structure ReadsTo (terminal : Operator) (p q : Parser) : Prop where
  reports : q.scanner.reports = p.scanner.reports
  pending : q.scanner.pending = p.scanner.pending
  scopes : q.scopes = p.scopes
  ends : ∃ n, EndsAfter terminal p n [] ∧ ∀ i, q.ahead i = p.ahead (n + i)
  next : q.next.isOperator terminal = true ∨
    terminal = .semicolon ∧ (q.next.endsLine = true ∨ q.next.isOperator .rightBrace = true)

/-- The parser `q` comes from `p` by reading an expression whose parentheses in the list were left
open, the innermost first: there is an error at each of them, and none is waited for. -/
structure LeavesOpen (p q : Parser) (os : List Opening) : Prop where
  reports : q.scanner.reports = p.scanner.reports ++ os.map fun o =>
    { location := o.location, problem := .unclosed .parenthesis }
  openers : ∀ o ∈ os, ∃ k, (p.ahead k).kind = .operator .leftParen ∧
    o.location = (p.ahead k).location
  forgotten : ∀ o ∈ os, q.scanner.forget? o.location = none
  pending : q.scanner.pending = p.scanner.pending
  scopes : q.scopes = p.scopes

theorem endsExpression_cases {t : Token} (h : endsExpression terminal wanted t = true) :
    t.isOperator terminal = true ∨
      terminal = .semicolon ∧ (t.endsLine = true ∨ t.isOperator .rightBrace = true) := by
  simp only [endsExpression, Bool.or_eq_true, Bool.and_eq_true, beq_iff_eq] at h
  rcases h with h | ⟨⟨h, -⟩, hend⟩
  · exact .inl h
  · exact .inr ⟨h, hend⟩

/-- An expression that ends with parentheses open. -/
theorem LeavesOpen.of_collect {source : Source} {ts : List Token}
    (h : ({ source } : Scanner).HandsOut ts p.scanner) (hends : EndsAfter terminal p n os)
    (hreports : q.scanner.reports = p.scanner.reports) (hscopes : q.scopes = p.scopes)
    (hpending : q.scanner.pending = os ++ p.scanner.pending) :
    LeavesOpen p (q.reportUnclosed (os.map Opening.location)) os := by
  obtain ⟨wanted, hgoes, -⟩ := hends
  have hparentheses := hgoes.parenthesis
  obtain ⟨hreported, hforgotten⟩ := reportUnclosed_outcome hpending
  refine ⟨?_, fun o ho => ?_, fun o ho => ?_, hforgotten, ?_⟩
  · rw [hreported, hreports]
    refine congrArg _ (List.map_congr_left fun o ho => ?_)
    rw [Scanner.unclosedReport, (hparentheses o ho).1]
  · obtain ⟨-, k, -, hopener⟩ := hparentheses o ho
    exact ⟨k, hopener⟩
  · -- a bracket that was open before stands at no token that was still to be taken
    obtain ⟨-, k, -, -, hlocation⟩ := hparentheses o ho
    have hnone : p.scanner.forget? o.location = none := by
      rw [hlocation]
      exact Scanner.forget?_of_handsOut h k
    rw [Scanner.forget?_eq_none_iff, hforgotten]
    exact Scanner.forget?_eq_none_iff.1 hnone
  · exact (scopes_reportUnclosed _ q).trans hscopes

/-- The outcome of reading an expression, wherever a parser stands in a source. If it is read, its
tokens are taken and nothing else has changed. If it is not, but its end is reached with parentheses
open, these are reported one by one; in any other case exactly one error is reported. -/
theorem outcome_of_expression {source : Source} {ts : List Token}
    (h : ({ source } : Scanner).HandsOut ts p.scanner) (terminal : Operator) :
    (∀ e q, p.expression terminal = (some e, q) → ReadsTo terminal p q) ∧
      ∀ q, p.expression terminal = (none, q) →
        (∀ n os, EndsAfter terminal p n os → os ≠ [] → LeavesOpen p q os) ∧
          ((∀ n os, EndsAfter terminal p n os → os = []) → p.ReportsOnce q) := by
  have hstart : GoesOn terminal p 0 false [] := .start
  have hcollect := collect_outcome (y := {}) p.scanner.pending hstart
    (fun i => by rw [Nat.zero_add]) rfl rfl (Nat.lt_succ_self p.remaining)
  have hscopes := scopes_collect terminal (p.remaining + 1) {} p
  unfold expression
  dsimp only
  rcases hcollect with ⟨y, r, n, hcollect, hends, hahead⟩ | ⟨r, hcollect, hnone, hreports⟩
  · -- its end is reached; open parentheses are reported before anything is made of what was taken
    obtain ⟨us, haccepts, hpending⟩ := accepts_of_collect p.scanner.pending rfl hcollect
    rw [hcollect] at hscopes ⊢
    dsimp only at hscopes ⊢
    rw [finishExpression, Postfix.openParentheses_eq]
    cases hopened : opened y.waiting with
    | cons o os =>
      rw [hopened] at hends hpending
      refine ⟨by simp, fun q hq => ?_⟩
      obtain ⟨-, rfl⟩ := Prod.mk.inj hq
      refine ⟨fun m os' hends' _ => ?_, fun hclosed => absurd (hclosed n _ hends) (by simp)⟩
      obtain ⟨-, rfl⟩ := hends.unique hends'
      exact .of_collect h hends haccepts.reports hscopes hpending
    | nil =>
      rw [hopened] at hends hpending
      rw [List.map_nil, List.isEmpty_nil, if_pos rfl]
      cases Postfix.assemble p.next.location y.finish with
      | ok e =>
        refine ⟨fun e' q hq => ?_, by simp⟩
        obtain ⟨-, rfl⟩ := Prod.mk.inj hq
        have hnext : r.next = p.ahead n := hahead 0
        obtain ⟨wanted, hgoes, hend⟩ := hends
        rw [← hnext] at hend
        exact ⟨haccepts.reports, hpending, hscopes, ⟨n, ⟨wanted, hgoes, hnext ▸ hend⟩, hahead⟩,
          endsExpression_cases hend⟩
      | error complaint =>
        refine ⟨by simp, fun q hq => ?_⟩
        obtain ⟨-, rfl⟩ := Prod.mk.inj hq
        refine ⟨fun m os hends' hne => absurd (hends.unique hends').2.symm hne, fun _ => ?_⟩
        exact (r.reportsOnce_error _ _).congr haccepts.reports.symm rfl
  · rw [hcollect]
    refine ⟨by simp, fun q hq => ?_⟩
    obtain ⟨-, rfl⟩ := Prod.mk.inj hq
    exact ⟨fun n os hends => absurd hends (hnone n os), fun _ => hreports⟩

/-- Two parentheses that are never closed: each is reported, the inner one first. -/
theorem outcome_of_expression_of_unclosed :
    let p := ofSource (.ofText ⟨"main.rin"⟩ "((1")
    let os : List Opening :=
      [⟨.parenthesis, (p.ahead 1).location⟩, ⟨.parenthesis, (p.ahead 0).location⟩]
    ∃ q, p.expression .semicolon = (none, q) ∧ EndsAfter .semicolon p 3 os ∧ LeavesOpen p q os := by
  intro p os
  have hfirst : endsExpression .semicolon false (p.ahead 0) = false ∧
      (p.ahead 0).fits p.scopes.resolve? = true ∧ (p.ahead 0).wants false = true ∧
      follow? [] (p.ahead 0) = some [⟨.parenthesis, (p.ahead 0).location⟩] := by decide
  have hsecond : endsExpression .semicolon true (p.ahead 1) = false ∧
      (p.ahead 1).fits p.scopes.resolve? = true ∧ (p.ahead 1).wants true = true ∧
      follow? [⟨.parenthesis, (p.ahead 0).location⟩] (p.ahead 1) = some os := by decide
  have hthird : endsExpression .semicolon true (p.ahead 2) = false ∧
      (p.ahead 2).fits p.scopes.resolve? = true ∧ (p.ahead 2).wants true = false ∧
      follow? os (p.ahead 2) = some os := by decide
  have hend : endsExpression .semicolon false (p.ahead 3) = true := by decide
  have hnone : (p.expression .semicolon).1 = none := by decide
  have hreached : ({ source := .ofText ⟨"main.rin"⟩ "((1" } : Scanner).HandsOut [] p.scanner :=
    .refl _
  have hsome : os ≠ [] := List.cons_ne_nil _ _
  clear_value os
  clear_value p
  have hstart : GoesOn .semicolon p 0 false [] := .start
  have hone := hstart.token hfirst.1 hfirst.2.1 hfirst.2.2.2
  rw [hfirst.2.2.1] at hone
  have htwo := hone.token hsecond.1 hsecond.2.1 hsecond.2.2.2
  rw [hsecond.2.2.1] at htwo
  have hthree := htwo.token hthird.1 hthird.2.1 hthird.2.2.2
  rw [hthird.2.2.1] at hthree
  have hends : EndsAfter .semicolon p 3 os := ⟨false, hthree, hend⟩
  have hread : p.expression .semicolon = (none, (p.expression .semicolon).2) := Prod.ext hnone rfl
  have houtcome := outcome_of_expression hreached .semicolon
  exact ⟨_, hread, hends, (houtcome.2 _ hread).1 3 os hends hsome⟩

/-- The message of such an error. -/
example : (Problem.unclosed .parenthesis).message {} = "unmatched parenthesis" := by decide

end Parser

end FloatLang
