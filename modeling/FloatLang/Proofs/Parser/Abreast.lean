import FloatLang.Proofs.Parser.Errorless
import FloatLang.Proofs.Parser.Nesting
import FloatLang.Proofs.Scanner.Continuation

/-!
# Two parsers abreast

One source ends where another has a line break and goes on. Two parsers, one of each, read the same
statements as long as the first one reports no error: up to the end of the first source they see the
same tokens, and a line break does for the second whatever the end of the file does for the first. Only
the body of a block would go on; but without an error no block is open at the end of the file.

## Main definitions

* `Parser.Abreast` — two parsers have come to the same place, and agree on what is before it
* `Parser.ReadsUpTo` — a program is read as far as the line break

## Main results

* `Parser.Abreast.expression`, `Parser.Abreast.declaration`, `Parser.Abreast.named` — what one parser
  reads without an error, the other one reads too
* `Parser.Abreast.statement`, `Parser.Abreast.body` — block statements
* `Parser.Abreast.program` — programs, up to the line break
-/

namespace FloatLang

/-- The second token is the first, or a line break where the first is the end of the file. -/
inductive Token.Alike : Token → Token → Prop
  | same (t : Token) : Alike t t
  | ends {t t' : Token} (hend : t.isEndOfFile = true) (hline : t'.isEndOfLine = true)
      (hplace : t'.location = t.location) : Alike t t'

namespace Token.Alike

variable {t t' : Token}

theorem kinds (hend : t.isEndOfFile = true) (hline : t'.isEndOfLine = true) :
    t.kind = .endOfFile ∧ t'.kind = .endOfLine :=
  ⟨by simpa [isEndOfFile] using hend, by simpa [isEndOfLine] using hline⟩

theorem location (h : Alike t t') : t'.location = t.location := by
  cases h with
  | same => rfl
  | ends _ _ hplace => exact hplace

theorem endsLine (h : Alike t t') : t'.endsLine = t.endsLine := by
  cases h with
  | same => rfl
  | ends hend hline _ => simp [Token.endsLine, hend, hline]

theorem operator? (h : Alike t t') : t'.operator? = t.operator? := by
  cases h with
  | same => rfl
  | ends hend hline _ =>
    obtain ⟨hkind, hkind'⟩ := kinds hend hline
    simp [Token.operator?, hkind, hkind']

theorem identifier? (h : Alike t t') : t'.identifier? = t.identifier? := by
  cases h with
  | same => rfl
  | ends hend hline _ =>
    obtain ⟨hkind, hkind'⟩ := kinds hend hline
    simp [Token.identifier?, hkind, hkind']

theorem isOperator (h : Alike t t') (op : Operator) : t'.isOperator op = t.isOperator op := by
  rw [Token.isOperator, h.operator?]
  rfl

theorem endsStatement (h : Alike t t') : Parser.endsStatement t' = Parser.endsStatement t := by
  simp [Parser.endsStatement, Token.isTerminator, h.endsLine, h.isOperator]

theorem endsExpression (h : Alike t t') (terminal : Operator) (continues : Bool) :
    Parser.endsExpression terminal continues t' = Parser.endsExpression terminal continues t := by
  simp [Parser.endsExpression, h.endsLine, h.isOperator]

theorem objection? (h : Alike t t') (s : Scanner) : s.objection? t' = s.objection? t := by
  cases h with
  | same => rfl
  | ends hend hline _ =>
    obtain ⟨hkind, hkind'⟩ := kinds hend hline
    simp [Scanner.objection?, hkind, hkind']

theorem pendingAfter (h : Alike t t') (s : Scanner) : s.pendingAfter t' = s.pendingAfter t := by
  unfold Scanner.pendingAfter
  rw [h.operator?, h.location, h.objection?]

end Token.Alike

namespace Parser

/-- The parser `p'` has come to the token of the number to which `p` has come, with the same scopes,
open brackets and reports. If that is not before the end of the source of `p`, at the token of number
`n`, it is no more than one token after. -/
structure Abreast (source source' : Source) (n i : Nat) (p p' : Parser) : Prop where
  stands : p.Stands source i
  stands' : p'.Stands source' i
  le : i ≤ n + 1
  scopes : p'.scopes = p.scopes
  pending : p'.scanner.pending = p.scanner.pending
  reports : p'.scanner.reports = p.scanner.reports
  follows : p.scanner.Follows source

namespace Abreast

variable {source source' : Source} {n i j k : Nat} {p p' q : Parser} {s : Statement} {x : String}

/-! ### Tokens -/

section Tokens

variable (hc : source.Continues source' n) (h : Abreast source source' n i p p')

include hc h

/-- What comes before something else is not the end of the file. -/
theorem lt (hk : (p.ahead k).isEndOfFile = false) : i + k < n := by
  apply Nat.lt_of_not_le
  intro hle
  rw [h.stands k, Source.isEndOfFile_of_le hc.end_of_file hle] at hk
  contradiction

theorem ahead_eq (hk : i + k < n) : p'.ahead k = p.ahead k := by
  rw [h.stands' k, h.stands k, hc.before _ hk]

theorem alike (hk : i + k ≤ n) : (p.ahead k).Alike (p'.ahead k) := by
  rcases Nat.lt_or_eq_of_le hk with hlt | heq
  · rw [h.ahead_eq hc hlt]
    exact .same _
  · have hplace := hc.place
    have hend := hc.end_of_file
    have hline := hc.end_of_line
    rw [← heq, ← h.stands k, ← h.stands' k] at hplace
    rw [← heq, ← h.stands k] at hend
    rw [← heq, ← h.stands' k] at hline
    exact .ends hend hline hplace

/-- A token that does not end the file is next for both. -/
theorem next_eq (hnext : p.next.isEndOfFile = false) : i < n ∧ p'.next = p.next :=
  ⟨h.lt hc hnext, h.ahead_eq hc (h.lt hc hnext)⟩

theorem advance (hi : i ≤ n) : Abreast source source' n (i + 1) p.advance p'.advance where
  stands := h.stands.advance
  stands' := h.stands'.advance
  le := Nat.succ_le_succ hi
  scopes := h.scopes
  pending := by
    have hnext := h.alike (k := 0) hc hi
    change p'.scanner.advance.pending = p.scanner.advance.pending
    rw [Scanner.pending_advance, Scanner.pending_advance, Scanner.pendingAfter_congr h.pending]
    exact hnext.pendingAfter _
  reports := by
    have hnext := h.alike (k := 0) hc hi
    have hobjection : p.scanner.objection? p'.scanner.next = p.scanner.objection? p.scanner.next :=
      hnext.objection? _
    have hplace : p'.scanner.next.location = p.scanner.next.location := hnext.location
    change p'.scanner.advance.reports = p.scanner.advance.reports
    rw [Scanner.reports_advance, Scanner.reports_advance, Scanner.objection?_congr h.pending,
      hobjection, hplace, h.reports]
  follows := (Scanner.follows_invariant source).advance h.follows

end Tokens

/-! ### Steps that take no token -/

section Steps

variable (h : Abreast source source' n i p p')

include h

theorem fill (m m' : Nat) : Abreast source source' n i (p.fill m) (p'.fill m') where
  stands := h.stands.fill m
  stands' := h.stands'.fill m'
  le := h.le
  scopes := h.scopes
  pending := ((p'.quiet_fill m').pending.trans h.pending).trans (p.quiet_fill m).pending.symm
  reports := ((p'.quiet_fill m').reports.trans h.reports).trans (p.quiet_fill m).reports.symm
  follows := (Scanner.follows_invariant source).fill h.follows m

/-- Both parsers get the same scopes. -/
theorem withScopes (c : ScopeChain) :
    Abreast source source' n i { p with scopes := c } { p' with scopes := c } where
  stands := h.stands.congr rfl
  stands' := h.stands'.congr rfl
  le := h.le
  scopes := rfl
  pending := h.pending
  reports := h.reports
  follows := h.follows

theorem enter : Abreast source source' n i p.enter p'.enter := by
  rw [Parser.enter, Parser.enter, h.scopes]
  exact h.withScopes _

theorem push (s : Statement) : Abreast source source' n i (p.push s) (p'.push s) := by
  rw [Parser.push, Parser.push, h.scopes]
  exact h.withScopes _

theorem pop : p'.pop.1 = p.pop.1 ∧ Abreast source source' n i p.pop.2 p'.pop.2 := by
  unfold Parser.pop
  rw [h.scopes]
  exact ⟨rfl, h.withScopes _⟩

theorem target? (hnext : p'.next = p.next) : p'.target? = p.target? := by
  rw [Parser.target?, Parser.target?, hnext, h.scopes]

theorem leave {scope : Scope Statement} (hq : p.leave = .ok (scope, q)) :
    ∃ q', p'.leave = .ok (scope, q') ∧ Abreast source source' n i q q' := by
  unfold Parser.leave at hq ⊢
  rw [h.scopes]
  split at hq
  next c hleave =>
    obtain ⟨rfl, rfl⟩ := Prod.mk.inj (Except.ok.inj hq)
    exact ⟨_, rfl, h.withScopes c⟩
  · contradiction

theorem define {l : Location} {v : Variable} (hq : p.define x l = (some v, q)) :
    ∃ q', p'.define x l = (some v, q') ∧ Abreast source source' n i q q' := by
  unfold Parser.define at hq ⊢
  rw [h.scopes]
  split at hq
  next c hdefine =>
    obtain ⟨hv, rfl⟩ := Prod.mk.inj hq
    rw [hv]
    exact ⟨_, rfl, h.withScopes c⟩
  · simp at hq

end Steps

/-! ### Expressions -/

section Expressions

variable (hc : source.Continues source' n)

include hc

open Postfix (Yard)

/-- What is collected without an error ends before the end of the file, or at it. -/
theorem collect {terminal : Operator} {y y' : Yard} {m m' : Nat}
    (h : Abreast source source' n i p p') (hi : i ≤ n)
    (hq : Parser.collect terminal m y p = (some y', q)) (hm' : p'.remaining < m') :
    ∃ q' j, Parser.collect terminal m' y p' = (some y', q') ∧ j ≤ n ∧
      Abreast source source' n j q q' := by
  induction m generalizing i m' y p p' with
  | zero => simp [Parser.collect] at hq
  | succ m ih =>
    cases m' with
    | zero => contradiction
    | succ m' =>
      have hends := (h.alike (k := 0) hc hi).endsExpression terminal y.continues
      by_cases hend : endsExpression terminal y.continues p.next = true
      · rw [collect_end hend] at hq
        obtain ⟨hy, rfl⟩ := Prod.mk.inj hq
        obtain rfl := Option.some.inj hy
        exact ⟨p'.fill 1, i, collect_end (hends.trans hend), hi, h.fill 1 1⟩
      · cases htake : y.take? p.scopes.resolve? p.next with
        | none =>
          have hnone := collect_stop (n := m) hend htake
          simp [hq] at hnone
        | some first =>
          rw [collect_take hend htake] at hq
          -- the token that is taken is not the end of the file
          have hmore : p.next.isEndOfFile = false := by
            cases heof : p.next.isEndOfFile with
            | false => rfl
            | true =>
              have hkind : p.next.kind = .endOfFile := by simpa [Token.isEndOfFile] using heof
              simp [Yard.take?, hkind] at htake
          obtain ⟨hlt, hnext⟩ := h.next_eq hc hmore
          have hend' : ¬ endsExpression terminal y.continues p'.next = true := by rwa [hnext]
          have htake' : y.take? p'.scopes.resolve? p'.next = some first := by
            rwa [hnext, h.scopes]
          have hfewer : (p'.fill 1).advance.remaining < p'.remaining :=
            ((p'.fill 1).passes_advance.of_fill).remaining_lt (by rwa [hnext])
          rw [collect_take hend' htake']
          exact ih ((h.fill 1 1).advance hc hi) hlt hq (by omega)

/-- An expression that is read. -/
theorem expression {terminal : Operator} {e : Expr} (h : Abreast source source' n i p p')
    (hq : p.expression terminal = (some e, q)) :
    ∃ q' j, p'.expression terminal = (some e, q') ∧ j ≤ n ∧ Abreast source source' n j q q' := by
  have hmore := isEndOfFile_of_expression hq
  obtain ⟨hlt, hnext⟩ := h.next_eq hc hmore
  obtain ⟨y, hcollect, hclosed, hassemble⟩ := expression_eq_read.1 hq
  obtain ⟨q', j, hcollect', hj, hq'⟩ := h.collect hc (Nat.le_of_lt hlt) hcollect (Nat.lt_succ_self _)
  rw [← hnext] at hassemble
  exact ⟨q', j, expression_eq_read.2 ⟨y, hcollect', hclosed, hassemble⟩, hj, hq'⟩

theorem condition {terminal : Operator} {c : Condition} (h : Abreast source source' n i p p')
    (hq : p.condition terminal = (some c, q)) :
    ∃ q' j, p'.condition terminal = (some c, q') ∧ j ≤ n ∧ Abreast source source' n j q q' := by
  obtain ⟨hexpression, hplace⟩ := condition_eq_some_iff.1 hq
  obtain ⟨q', j, hexpression', hj, hq'⟩ := h.expression hc hexpression
  exact ⟨q', j, condition_eq_some_iff.2 ⟨hexpression', hplace⟩, hj, hq'⟩

end Expressions

/-! ### Simple statements -/

section Simple

variable (hc : source.Continues source' n)

include hc

/-- A statement ends at the end of the file as it does at a line break. -/
theorem terminator (h : Abreast source source' n i p p') (hi : i ≤ n)
    (hq : p.terminator = (true, q)) :
    ∃ q' j, p'.terminator = (true, q') ∧ Abreast source source' n j q q' := by
  have halike := h.alike (k := 0) hc hi
  obtain ⟨hend, hq⟩ := terminator_eq_true.1 hq
  have hend' : endsStatement p'.next = true := halike.endsStatement.trans hend
  have hbrace : p'.next.isOperator .rightBrace = p.next.isOperator .rightBrace := halike.isOperator _
  split at hq
  next hnext =>
    obtain rfl := hq
    rw [← hbrace] at hnext
    exact ⟨p'.fill 1, i, terminator_eq_true.2 ⟨hend', by rw [if_pos hnext]⟩, h.fill 1 1⟩
  next hnext =>
    obtain rfl := hq
    rw [← hbrace] at hnext
    exact ⟨(p'.fill 1).advance, i + 1, terminator_eq_true.2 ⟨hend', by rw [if_neg hnext]⟩,
      (h.fill 1 1).advance hc hi⟩

/-- Where a statement ends after the name that it declares. -/
theorem terminator_of_endsStatement (h : Abreast source source' n i p p') (hi : i ≤ n)
    (hend : endsStatement p.next = true) :
    ∃ j, Abreast source source' n j p.terminator.2 p'.terminator.2 := by
  have hread := terminator_eq_true.2 ⟨hend, rfl⟩
  obtain ⟨q', j, hread', hq'⟩ := h.terminator hc hi hread
  rw [hread, hread']
  exact ⟨j, hq'⟩

theorem assignment (h : Abreast source source' n i p p') (hkind : p.next.kind = .identifier x)
    (hq : p.assignment = (s, q)) (hvalid : s.isInvalid = false) :
    ∃ q' j, p'.assignment = (s, q') ∧ Abreast source source' n j q q' := by
  obtain ⟨v, value, r, hassign, hv, hvalue, hend, rfl⟩ := assignment_eq_read.1 ⟨hq, hvalid⟩
  obtain ⟨hi, hnext⟩ := h.next_eq hc (Token.isEndOfFile_of_kind hkind (by simp))
  have hname := h.advance hc (Nat.le_of_lt hi)
  obtain ⟨hi', hequals⟩ := hname.next_eq hc (isEndOfFile_of_isOperator hassign)
  obtain ⟨r', j, hvalue', hj, hr⟩ := (hname.advance hc (Nat.le_of_lt hi')).expression hc hvalue
  obtain ⟨q', k, hend', hq'⟩ := hr.terminator hc hj hend
  have hv' : p'.target? = some v := (h.target? hnext).trans hv
  rw [← hequals] at hassign
  rw [← hnext]
  exact ⟨q', k, (assignment_eq_read.2 ⟨v, value, r', hassign, hv', hvalue', hend', rfl⟩).1, hq'⟩

theorem step {terminated : Bool} (h : Abreast source source' n i p p')
    (hkind : p.next.kind = .identifier x) (hq : p.step terminated = .ok (s, q))
    (hvalid : s.isInvalid = false) :
    ∃ q' j, p'.step terminated = .ok (s, q') ∧ Abreast source source' n j q q' := by
  obtain ⟨d, v, hd, hv, rfl, hend⟩ := step_eq_read.1 ⟨hq, hvalid⟩
  obtain ⟨hi, hnext⟩ := h.next_eq hc (Token.isEndOfFile_of_kind hkind (by simp))
  have hname := h.advance hc (Nat.le_of_lt hi)
  obtain ⟨op, hoperator, -⟩ := Option.bind_eq_some_iff.1 hd
  obtain ⟨hi', hop⟩ := hname.next_eq hc
    (Token.isEndOfFile_of_kind (Token.kind_of_operator? hoperator) (by simp))
  have htwo := hname.advance hc (Nat.le_of_lt hi')
  have hv' : p'.target? = some v := (h.target? hnext).trans hv
  rw [← hop] at hd
  rw [← hnext]
  cases terminated with
  | true =>
    obtain ⟨q', j, hend', hq'⟩ := htwo.terminator hc hi' hend
    have hread : p'.step true = .ok (_, q') ∧ _ :=
      step_eq_read.2 ⟨d, v, hd, hv', rfl, by rw [if_pos rfl]; exact hend'⟩
    exact ⟨q', j, hread.1, hq'⟩
  | false =>
    obtain rfl := hend
    have hread : p'.step false = .ok (_, p'.advance.advance) ∧ _ :=
      step_eq_read.2 ⟨d, v, hd, hv', rfl, by rw [if_neg (by simp)]⟩
    exact ⟨_, _, hread.1, htwo⟩

theorem named (h : Abreast source source' n i p p') (hkind : p.next.kind = .identifier x)
    (hq : p.named = .ok (s, q)) (hvalid : s.isInvalid = false) :
    ∃ q' j, p'.named = .ok (s, q') ∧ Abreast source source' n j q q' := by
  obtain ⟨op, hop, hread⟩ := named_eq_read.1 ⟨hq, hvalid⟩
  obtain ⟨hi, -⟩ := h.next_eq hc (Token.isEndOfFile_of_kind hkind (by simp))
  have hop' : (p'.ahead 1).operator? = some op := (h.alike (k := 1) hc hi).operator?.trans hop
  have hfill : (p.fill 2).next.kind = .identifier x := by rwa [next_fill]
  split at hread
  next hstep =>
    obtain ⟨q', j, hread', hq'⟩ := (h.fill 2 2).step hc hfill hread.1 hread.2
    exact ⟨q', j, (named_eq_read.2 ⟨op, hop', by rw [if_pos hstep]; exact ⟨hread', hvalid⟩⟩).1, hq'⟩
  next hstep =>
    obtain ⟨q', j, hread', hq'⟩ := (h.fill 2 2).assignment hc hfill hread.1 hread.2
    exact ⟨q', j, (named_eq_read.2 ⟨op, hop', by rw [if_neg hstep]; exact ⟨hread', hvalid⟩⟩).1, hq'⟩

theorem declaration (h : Abreast source source' n i p p')
    (hkeyword : p.next.kind = .keyword .float) (hq : p.declaration = (s, q))
    (hread : s.isRead = true) :
    ∃ q' j, p'.declaration = (s, q') ∧ Abreast source source' n j q q' := by
  obtain ⟨x, v, hname, hcases⟩ := declaration_eq_read.1 ⟨hq, hread⟩
  obtain ⟨hi, hnext⟩ := h.next_eq hc (Token.isEndOfFile_of_kind hkeyword (by simp))
  have hfirst := (h.advance hc (Nat.le_of_lt hi)).fill 1 1
  have hkind := Token.kind_of_identifier? hname
  obtain ⟨hi', hnext'⟩ := hfirst.next_eq hc (Token.isEndOfFile_of_kind hkind (by simp))
  have hplace : (p'.ahead 1).location = (p.ahead 1).location := (h.alike (k := 1) hc hi).location
  have hafter : endsStatement (p'.ahead 2) = endsStatement (p.ahead 2) :=
    (h.alike (k := 2) hc hi').endsStatement
  have hname' : (p'.advance.fill 1).next.identifier? = some x :=
    (congrArg Token.identifier? hnext').trans hname
  have htwo := hfirst.fill 2 2
  -- the name is known to be there, and so is what comes after it
  rcases hcases with ⟨hend, rfl, hdefine⟩ | ⟨hend, value, r, hdefine, hvalue, hvalid, rfl⟩
  · have hahead : ((p.advance.fill 1).fill 2).advance.next = p.ahead 2 := by
      rw [next_advance, ahead_fill, ahead_fill, ahead_advance]
    obtain ⟨j, hstop⟩ := (htwo.advance hc (Nat.le_of_lt hi')).terminator_of_endsStatement hc hi'
      ((congrArg endsStatement hahead).trans hend)
    obtain ⟨q', hdefine', hq'⟩ := hstop.define hdefine
    have hread' : p'.declaration = (.declare v, q') ∧ _ := declaration_eq_read.2
      ⟨x, v, hname', .inl ⟨hafter.trans hend, rfl, by rw [hplace]; exact hdefine'⟩⟩
    exact ⟨q', j, hread'.1, hq'⟩
  · rw [← hnext]
    obtain ⟨r', hdefine', hr⟩ := htwo.define hdefine
    obtain ⟨-, -, -, hscanner⟩ := define_eq_some hdefine
    have hsame : r.next.kind = .identifier x := by
      have hnext : r.next = ((p.advance.fill 1).fill 2).next := congrArg Scanner.next hscanner
      rw [hnext, next_fill]
      exact hkind
    obtain ⟨q', j, hvalue', hq'⟩ := hr.assignment hc hsame hvalue hvalid
    have hread' : p'.declaration = (.compound (.declare v) value p'.next.location, q') ∧ _ :=
      declaration_eq_read.2 ⟨x, v, hname', .inr ⟨hafter.trans hend, value, r',
        by rw [hplace]; exact hdefine', hvalue', hvalid, rfl⟩⟩
    exact ⟨q', j, hread'.1, hq'⟩

end Simple

/-! ### The clauses of a loop -/

section Clauses

variable (hc : source.Continues source' n)

include hc

theorem headerSemicolon {clause : HeaderClause} (h : Abreast source source' n i p p')
    (hq : p.headerSemicolon clause = (true, q)) :
    ∃ q' j, p'.headerSemicolon clause = (true, q') ∧ j ≤ n ∧ Abreast source source' n j q q' := by
  obtain ⟨hsemicolon, rfl⟩ := headerSemicolon_eq_true.1 hq
  obtain ⟨hi, hnext⟩ := h.next_eq hc (isEndOfFile_of_isOperator hsemicolon)
  rw [← hnext] at hsemicolon
  exact ⟨p'.advance, i + 1, headerSemicolon_eq_true.2 ⟨hsemicolon, rfl⟩, hi,
    h.advance hc (Nat.le_of_lt hi)⟩

theorem loopCondition {clause : Option Statement} (h : Abreast source source' n i p p')
    (hq : p.loopCondition = (some clause, q)) :
    ∃ q' j, p'.loopCondition = (some clause, q') ∧ j ≤ n ∧ Abreast source source' n j q q' := by
  rcases loopCondition_eq_some.1 hq with ⟨hsemicolon, hclause, rfl⟩ |
    ⟨hsemicolon, c, r, hcondition, hafter, rfl, hclause⟩
  · obtain ⟨hi, hnext⟩ := h.next_eq hc (isEndOfFile_of_isOperator hsemicolon)
    rw [← hnext] at hsemicolon
    exact ⟨_, i + 1, loopCondition_eq_some.2 (.inl ⟨hsemicolon, hclause, rfl⟩), hi,
      (h.fill 1 1).advance hc (Nat.le_of_lt hi)⟩
  · have hmore := isEndOfFile_of_expression (condition_eq_some hcondition).1
    rw [next_fill] at hmore
    obtain ⟨-, hnext⟩ := h.next_eq hc hmore
    obtain ⟨r', j, hcondition', -, hr⟩ := (h.fill 1 1).condition hc hcondition
    obtain ⟨hj, hnext'⟩ := hr.next_eq hc (isEndOfFile_of_isOperator hafter)
    rw [← hnext] at hsemicolon
    rw [← hnext'] at hafter
    exact ⟨_, j + 1, loopCondition_eq_some.2 (.inr ⟨hsemicolon, c, r', hcondition', hafter, rfl, hclause⟩),
      hj, hr.advance hc (Nat.le_of_lt hj)⟩

theorem loopIncrement {clause : Option Statement} (h : Abreast source source' n i p p') (hi : i ≤ n)
    (hq : p.loopIncrement = .ok (some clause, q)) :
    ∃ q' j, p'.loopIncrement = .ok (some clause, q') ∧ Abreast source source' n j q q' := by
  have hname' : p'.next.identifier? = p.next.identifier? := (h.alike (k := 0) hc hi).identifier?
  rcases loopIncrement_eq_some.1 hq with ⟨hnone, hclause, rfl⟩ |
    ⟨hname, hop, step, hstep, hvalid, hclause⟩
  · rw [← hname'] at hnone
    exact ⟨_, i, loopIncrement_eq_some.2 (.inl ⟨hnone, hclause, rfl⟩), h.fill 1 1⟩
  · obtain ⟨x, hx⟩ := Option.isSome_iff_exists.1 (Option.isNone_eq_false_iff.1 hname)
    have hkind := Token.kind_of_identifier? hx
    obtain ⟨hlt, -⟩ := h.next_eq hc (Token.isEndOfFile_of_kind hkind (by simp))
    have hop' : (p'.ahead 1).operator? = (p.ahead 1).operator? := (h.alike (k := 1) hc hlt).operator?
    have hfill : ((p.fill 1).fill 2).next.kind = .identifier x := by rwa [next_fill, next_fill]
    obtain ⟨q', j, hstep', hq'⟩ := ((h.fill 1 1).fill 2 2).step hc hfill hstep hvalid
    rw [← hname'] at hname
    rw [← hop'] at hop
    exact ⟨q', j, loopIncrement_eq_some.2 (.inr ⟨hname, hop, step, hstep', hvalid, hclause⟩), hq'⟩

end Clauses

end Abreast

/-! ### Statements and bodies -/

theorem LeadsTo.errorCount_eq_zero {p q : Parser} (h : p.LeadsTo q) (hq : q.errorCount = 0) :
    p.errorCount = 0 := by
  obtain ⟨ts, hts⟩ := h
  exact Nat.le_zero.1 (hq ▸ hts.errorCount_le)

section Statements

variable {source source' : Source} {n i m : Nat} {p p' q : Parser} {s : Statement}

/-- A statement after which no error is reported was read. -/
theorem isRead_of_errorCount (hp : p.Stands source i) (h : statementWithin m p = .ok (s, q))
    (herrors : q.errorCount = 0) : s.isRead = true := by
  cases hread : s.isRead with
  | true => rfl
  | false =>
    have hcount := ((makes_within source m).1 hp h).errors
    have hpos := Statement.failures_pos_of_initFailed (by simpa [Statement.isRead] using hread)
    omega

/-- At the end of the file there is no statement. -/
theorem isEndOfFile_of_statementWithin (h : statementWithin m p = .ok (s, q))
    (hvalid : s.isInvalid = false) : p.next.isEndOfFile = false := by
  cases hend : p.next.isEndOfFile with
  | false => rfl
  | true =>
    have hkind : p.next.kind = .endOfFile := by simpa [Token.isEndOfFile] using hend
    cases m with
    | zero => simp [statementWithin, halt] at h
    | succ m =>
      simp only [statementWithin, next_fill, hkind, rejectStatement] at h
      obtain ⟨rfl, -⟩ := Prod.mk.inj (Except.ok.inj h)
      simp [Statement.isInvalid] at hvalid

/-- What one reader of statements reads without an error, the other one reads, and the brackets that
are open stay open. -/
def StatementsAbreast (source source' : Source) (n m : Nat) : Prop :=
  ∀ ⦃i p p' s q⦄, Abreast source source' n i p p' → statementWithin m p = .ok (s, q) →
    q.errorCount = 0 → ∃ m' q' j, statementWithin m' p' = .ok (s, q') ∧
      Abreast source source' n j q q' ∧ q.scanner.pending = p.scanner.pending

/-- The same for the bodies of blocks, whose opening brace is open before and not after. -/
def BodiesAbreast (source source' : Source) (n m : Nat) : Prop :=
  ∀ ⦃i p p' q b bs⦄, Abreast source source' n i p p' → p.scanner.pending = b :: bs →
    b.bracket = .brace → bodyWithin m false p = .ok q → q.errorCount = 0 →
    ∃ m' q' j, bodyWithin m' false p' = .ok q' ∧ Abreast source source' n j q q' ∧
      q.scanner.pending = bs

variable (hc : source.Continues source' n)

include hc

theorem Abreast.loopInit (hstatement : StatementsAbreast source source' n m)
    (h : Abreast source source' n i p p') (hq : Parser.loopInit (statementWithin m) p = .ok (true, q))
    (herrors : q.errorCount = 0) :
    ∃ m' q' j, Parser.loopInit (statementWithin m') p' = .ok (true, q') ∧
      Abreast source source' n j q q' ∧ q.scanner.pending = p.scanner.pending := by
  rcases loopInit_eq_true.1 hq with ⟨hsemicolon, rfl⟩ | ⟨hsemicolon, init, r, hinit, hread, hend⟩
  · obtain ⟨hi, hnext⟩ := h.next_eq hc (isEndOfFile_of_isOperator hsemicolon)
    have hquiet := quiet_fill_advance (Token.isPlain_of_isOperator hsemicolon rfl)
    rw [← hnext] at hsemicolon
    exact ⟨m, _, i + 1, loopInit_eq_true.2 (.inl ⟨hsemicolon, rfl⟩),
      (h.fill 1 1).advance hc (Nat.le_of_lt hi), hquiet.pending⟩
  · have hmore := isEndOfFile_of_statementWithin hinit (isInvalid_of_isRead hread)
    rw [next_fill] at hmore
    obtain ⟨-, hnext⟩ := h.next_eq hc hmore
    have hfill := (p.quiet_fill 1).pending
    rw [← hnext] at hsemicolon
    split at hend
    next hblock =>
      have hr : r.errorCount = 0 := by
        obtain ⟨-, hq⟩ := headerSemicolon_eq_true.1 hend
        rw [hq] at herrors
        exact ((leadsTo_push r init).trans (leadsTo_advance _)).errorCount_eq_zero herrors
      obtain ⟨m', r', j, hinit', hr', hpending⟩ := hstatement (h.fill 1 1) hinit hr
      obtain ⟨q', k, hend', -, hq'⟩ := (hr'.push init).headerSemicolon hc hend
      refine ⟨m', q', k, loopInit_eq_true.2 (.inr ⟨hsemicolon, init, r', hinit', hread, ?_⟩), hq', ?_⟩
      · rw [if_pos hblock]
        exact hend'
      · exact ((quiet_headerSemicolon hend).pending.trans hpending).trans hfill
    next hblock =>
      obtain rfl := hend
      obtain ⟨m', r', j, hinit', hr', hpending⟩ := hstatement (h.fill 1 1) hinit herrors
      refine ⟨m', r'.push init, j,
        loopInit_eq_true.2 (.inr ⟨hsemicolon, init, r', hinit', hread, ?_⟩), hr'.push init,
        hpending.trans hfill⟩
      rw [if_neg hblock]

theorem Abreast.branchWith (hbody : BodiesAbreast source source' n m)
    (h : Abreast source source' n i p p') (hkeyword : p.next.kind = .keyword .if)
    (hq : Parser.branchWith (bodyWithin m false) p = .ok (s, q)) (hvalid : s.isInvalid = false)
    (herrors : q.errorCount = 0) :
    ∃ m' q' j, Parser.branchWith (bodyWithin m' false) p' = .ok (s, q') ∧
      Abreast source source' n j q q' ∧ q.scanner.pending = p.scanner.pending := by
  obtain ⟨c, r, u, scope, hcondition, hbrace, hu, hleave, rfl⟩ := branchWith_eq_read.1 ⟨hq, hvalid⟩
  obtain ⟨hi, hnext⟩ := h.next_eq hc (Token.isEndOfFile_of_kind hkeyword (by simp))
  have hscanner := scanner_of_leave hleave
  obtain ⟨r', j, hcondition', -, hr⟩ := (h.advance hc (Nat.le_of_lt hi)).condition hc hcondition
  obtain ⟨hj, hnext'⟩ := hr.next_eq hc (isEndOfFile_of_isOperator hbrace)
  have hopen : r.advance.enter.scanner.pending =
      ⟨.brace, r.next.location⟩ :: p.scanner.pending := by
    have hkeep : p.Quiet r :=
      (quiet_advance (Token.isPlain_of_keyword hkeyword)).trans (quiet_condition hcondition)
    rw [← hkeep.pending]
    exact pending_advance_leftBrace hbrace
  obtain ⟨m', u', k, hu', hu'', hclosed⟩ := hbody (hr.advance hc (Nat.le_of_lt hj)).enter hopen rfl hu
    ((errorCount_congr hscanner).symm.trans herrors)
  obtain ⟨q', hleave', hq'⟩ := hu''.leave hleave
  rw [← hnext'] at hbrace
  refine ⟨m', q', k, ?_, hq', by rw [hscanner, hclosed]⟩
  rw [← hnext]
  exact (branchWith_eq_read.2 ⟨c, r', u', scope, hcondition', hbrace, hu', hleave', rfl⟩).1

theorem Abreast.loopWith (hbody : BodiesAbreast source source' n m)
    (hstatement : StatementsAbreast source source' n m) (h : Abreast source source' n i p p')
    (hkeyword : p.next.kind = .keyword .for)
    (hq : Parser.loopWith (bodyWithin m false) (statementWithin m) p = .ok (s, q))
    (hvalid : s.isInvalid = false) (herrors : q.errorCount = 0) :
    ∃ m' q' j, Parser.loopWith (bodyWithin m' false) (statementWithin m') p' = .ok (s, q') ∧
      Abreast source source' n j q q' ∧ q.scanner.pending = p.scanner.pending := by
  obtain ⟨header, r, u, scope, hheader, hu, hleave, rfl⟩ := loopWith_eq_read.1 ⟨hq, hvalid⟩
  obtain ⟨v, w, x, hinit, hcondition, hincrement, hbrace, rfl⟩ := loopHeaderWith_eq_some.1 hheader
  obtain ⟨hi, hnext⟩ := h.next_eq hc (Token.isEndOfFile_of_kind hkeyword (by simp))
  have hscanner := scanner_of_leave hleave
  have hend : u.errorCount = 0 := (errorCount_congr hscanner).symm.trans herrors
  -- nothing has been reported in the header either
  have hheader' : v.errorCount = 0 :=
    ((((leadsTo_of_loopCondition hcondition).trans (leadsTo_of_loopIncrement hincrement)).trans
      ((leadsTo_advance x).trans (leadsTo_pop _))).trans
        (leadsTo_of_bodyWithin hu)).errorCount_eq_zero hend
  obtain ⟨m₁, v', j₁, hinit', hv, hfirst⟩ :=
    Abreast.loopInit hc hstatement (h.advance hc (Nat.le_of_lt hi)).enter hinit hheader'
  obtain ⟨w', j₂, hcondition', hj₂, hw⟩ := hv.loopCondition hc hcondition
  obtain ⟨x', j₃, hincrement', hx⟩ := hw.loopIncrement hc hj₂ hincrement
  obtain ⟨hj₃, hnext'⟩ := hx.next_eq hc (isEndOfFile_of_isOperator hbrace)
  obtain ⟨hpop, hafter⟩ := (hx.advance hc (Nat.le_of_lt hj₃)).pop
  have hopen : x.advance.pop.2.scanner.pending = ⟨.brace, x.next.location⟩ :: p.scanner.pending := by
    have hrest := (quiet_loopCondition hcondition).trans (quiet_loopIncrement hincrement)
    have hkeep := (quiet_advance (Token.isPlain_of_keyword hkeyword)).pending
    rw [← hkeep, ← show p.advance.enter.scanner.pending = p.advance.scanner.pending from rfl,
      ← hfirst, ← hrest.pending]
    exact pending_advance_leftBrace hbrace
  obtain ⟨m₂, u', k, hu', hu'', hclosed⟩ := hbody hafter hopen rfl hu hend
  obtain ⟨q', hleave', hq'⟩ := hu''.leave hleave
  rw [← hnext'] at hbrace
  have hbody' := (extends_of_le (Nat.le_max_right m₁ m₂)).2 false _ _ hu'
  have hinit'' := (extends_of_le (Nat.le_max_left m₁ m₂)).1.loopInit _ _ hinit'
  have hheader' := loopHeaderWith_eq_some.2 ⟨v', w', x', hinit'', hcondition', hincrement', hbrace, rfl⟩
  refine ⟨max m₁ m₂, q', k, ?_, hq', by rw [hscanner, hclosed]⟩
  rw [← hnext, ← hpop]
  exact (loopWith_eq_read.2 ⟨header, x'.advance, u', scope, hheader', hbody', hleave', rfl⟩).1

theorem statementsAbreast_succ (hstatement : StatementsAbreast source source' n m)
    (hbody : BodiesAbreast source source' n m) : StatementsAbreast source source' n (m + 1) := by
  intro i p p' s q h hq herrors
  have hread := isRead_of_errorCount h.stands hq herrors
  have hvalid := isInvalid_of_isRead hread
  have hmore := isEndOfFile_of_statementWithin hq hvalid
  obtain ⟨-, hnext⟩ := h.next_eq hc hmore
  have hfill := (p.quiet_fill 1).pending
  unfold statementWithin at hq
  dsimp only at hq
  split at hq
  next hkind =>
    have hkind' : (p'.fill 1).next.kind = .keyword .float := by
      rw [next_fill, hnext, ← p.next_fill 1, hkind]
    obtain ⟨q', j, hq', habreast⟩ := (h.fill 1 1).declaration hc hkind (Except.ok.inj hq) hread
    refine ⟨1, q', j, ?_, habreast, (quiet_declaration hkind (Except.ok.inj hq) hread).pending.trans hfill⟩
    rw [statementWithin]
    simp only [hkind', hq']
  next hkind =>
    have hkind' : (p'.fill 1).next.kind = .keyword .if := by
      rw [next_fill, hnext, ← p.next_fill 1, hkind]
    obtain ⟨m', q', j, hq', habreast, hpending⟩ :=
      Abreast.branchWith hc hbody (h.fill 1 1) hkind hq hvalid herrors
    refine ⟨m' + 1, q', j, ?_, habreast, hpending.trans hfill⟩
    rw [statementWithin]
    simp only [hkind', hq']
  next hkind =>
    have hkind' : (p'.fill 1).next.kind = .keyword .for := by
      rw [next_fill, hnext, ← p.next_fill 1, hkind]
    obtain ⟨m', q', j, hq', habreast, hpending⟩ :=
      Abreast.loopWith hc hbody hstatement (h.fill 1 1) hkind hq hvalid herrors
    refine ⟨m' + 1, q', j, ?_, habreast, hpending.trans hfill⟩
    rw [statementWithin]
    simp only [hkind', hq']
  next x hkind =>
    have hkind' : (p'.fill 1).next.kind = .identifier x := by
      rw [next_fill, hnext, ← p.next_fill 1, hkind]
    obtain ⟨q', j, hq', habreast⟩ := (h.fill 1 1).named hc hkind hq hvalid
    refine ⟨1, q', j, ?_, habreast, (quiet_named hkind hq hvalid).pending.trans hfill⟩
    rw [statementWithin]
    simp only [hkind', hq']
  next =>
    obtain ⟨rfl, -⟩ := Prod.mk.inj (Except.ok.inj hq)
    simp [Statement.isInvalid] at hvalid

end Statements

/-! ### Bodies and programs -/

/-- From `p'` on the program is read as far as the line break where the source goes on, with what `q` has
read and reported and with no bracket open. What comes after the line break is read from there on. -/
def ReadsUpTo (source' : Source) (n : Nat) (q p' : Parser) : Prop :=
  ∃ r, r.Stands source' (n + 1) ∧ r.scopes = q.scopes ∧ r.scanner.pending = [] ∧
    r.scanner.reports = q.scanner.reports ∧
    ∀ k u, bodyWithin k true r = .ok u → ∃ k', bodyWithin k' true p' = .ok u

/-- What comes before such a place may be read first. -/
theorem ReadsUpTo.of_rest {source' : Source} {n : Nat} {p' q u' : Parser} (h : ReadsUpTo source' n q u')
    (hrest : ∀ k v, bodyWithin k true u' = .ok v → ∃ k', bodyWithin k' true p' = .ok v) :
    ReadsUpTo source' n q p' := by
  obtain ⟨r, hr, hscopes, hpending, hreports, hresume⟩ := h
  refine ⟨r, hr, hscopes, hpending, hreports, fun k u hu => ?_⟩
  obtain ⟨k', hk'⟩ := hresume k u hu
  exact hrest k' u hk'

section Bodies

variable {source source' : Source} {n i m : Nat} {p p' q : Parser}
  (hc : source.Continues source' n)

include hc

/-- A statement in a body that is read without an error, and the body after it. -/
theorem Abreast.statement_body {top : Bool} {s : Statement} {r : Parser}
    (hstatement : StatementsAbreast source source' n m) (h : Abreast source source' n i p p')
    (hstart : startsStatement p.next = true) (hs : statementWithin m (p.fill 1) = .ok (s, r))
    (hrest : bodyWithin m top (if s.isInvalid then r else r.push s) = .ok q)
    (herrors : q.errorCount = 0) :
    ∃ u u' j, Abreast source source' n j u u' ∧ u.scanner.pending = p.scanner.pending ∧
      bodyWithin m top u = .ok q ∧ ∀ k v, bodyWithin k top u' = .ok v →
        ∃ k', bodyWithin k' top p' = .ok v := by
  obtain ⟨-, hnext⟩ := h.next_eq hc (isEndOfFile_of_startsStatement hstart)
  have hr : r.errorCount = 0 := by
    have hrest' := (leadsTo_of_bodyWithin hrest).errorCount_eq_zero herrors
    split at hrest' <;> exact hrest'
  have hvalid := isInvalid_of_isRead (isRead_of_errorCount (h.stands.fill 1) hs hr)
  obtain ⟨m', r', j, hs', habreast, hpending⟩ := hstatement (h.fill 1 1) hs hr
  rw [if_neg (by simp [hvalid])] at hrest
  refine ⟨r.push s, r'.push s, j, habreast.push s, hpending.trans (p.quiet_fill 1).pending, hrest,
    fun k v hv => ⟨max m' k + 1, ?_⟩⟩
  rw [← hnext] at hstart
  refine bodyWithin_succ.2 (.statement s r' hstart ?_ ?_)
  · exact (extends_of_le (Nat.le_max_left m' k)).1 _ _ hs'
  · rw [if_neg (by simp [hvalid])]
    exact (extends_of_le (Nat.le_max_right m' k)).2 top _ _ hv

theorem bodiesAbreast_succ (hsource : source.Sound n) (hstatement : StatementsAbreast source source' n m)
    (hbody : BodiesAbreast source source' n m) : BodiesAbreast source source' n (m + 1) := by
  intro i p p' q b bs h hpending hb hq herrors
  cases bodyWithin_succ.1 hq with
  | ends hends =>
    cases hends with
    | brace hbrace =>
      obtain ⟨hi, hnext⟩ := h.next_eq hc (isEndOfFile_of_isOperator hbrace)
      have hfill : (p.fill 1).next.isOperator .rightBrace = true := by rwa [next_fill]
      have hclosed := (advance_rightBrace hfill hb ((p.quiet_fill 1).pending.trans hpending)).1
      rw [← hnext] at hbrace
      exact ⟨1, _, i + 1, bodyWithin_succ.2 (.ends (.brace hbrace)),
        (h.fill 1 1).advance hc (Nat.le_of_lt hi), hclosed⟩
    | endOfFile hend =>
      -- the brace of the body would be open at the end of the file
      have hnone := h.follows.pending_eq_nil hsource
        ((leadsTo_of_bodyWithin hq).errorCount_eq_zero herrors) hend
      rw [hpending] at hnone
      contradiction
  | blank hblank hrest =>
    obtain ⟨hi, hnext⟩ := h.next_eq hc (isEndOfFile_of_blank hblank)
    obtain ⟨m', q', j, hq', habreast, hclosed⟩ := hbody ((h.fill 1 1).advance hc (Nat.le_of_lt hi))
      (pending_blank hpending hblank) hb hrest herrors
    rw [← hnext] at hblank
    exact ⟨m' + 1, q', j, bodyWithin_succ.2 (.blank hblank hq'), habreast, hclosed⟩
  | stray htop _ _ => contradiction
  | statement s r hstart hs hrest =>
    obtain ⟨r, r', j, habreast, hkeep, hrest, hresume⟩ :=
      Abreast.statement_body hc hstatement h hstart hs hrest herrors
    obtain ⟨m', q', k, hq', hq'', hclosed⟩ := hbody habreast (hkeep.trans hpending) hb hrest herrors
    obtain ⟨k', hk'⟩ := hresume m' q' hq'
    exact ⟨k', q', k, hk', hq'', hclosed⟩

theorem abreast_within (hsource : source.Sound n) (m : Nat) :
    StatementsAbreast source source' n m ∧ BodiesAbreast source source' n m := by
  -- one induction for both readers, since each calls the other with a smaller bound
  induction m with
  | zero =>
    refine ⟨fun i p p' s q _ hq => ?_, fun i p p' q b bs _ _ _ hq => ?_⟩
    · simp [statementWithin, halt] at hq
    · simp [bodyWithin, halt] at hq
  | succ m ih =>
    exact ⟨statementsAbreast_succ hc ih.1 ih.2, bodiesAbreast_succ hc hsource ih.1 ih.2⟩

/-- Where one source ends, the other one has the line break. -/
theorem Abreast.program_ends (hsource : source.Sound n) (h : Abreast source source' n i p p')
    (hend : p.next.isEndOfFile = true) (hnone : p.scanner.pending = []) :
    ReadsUpTo source' n ((p.fill 1).modifyScanner Scanner.flush) p' := by
  have hreports : ((p.fill 1).modifyScanner Scanner.flush).scanner.reports = p.scanner.reports := by
    have hfill := p.quiet_fill 1
    change (p.fill 1).scanner.reports ++ (p.fill 1).scanner.pending.map Scanner.unclosedReport = _
    rw [hfill.pending, hnone, List.map_nil, List.append_nil, hfill.reports]
  -- the first parser may have taken the end of the file, and the other one the line break
  rcases Nat.lt_or_eq_of_le h.le with hle | rfl
  · have hi : i = n := by
      apply Nat.le_antisymm (Nat.lt_succ_iff.1 hle)
      apply Nat.le_of_not_lt
      intro hlt
      rw [h.stands.next, hsource.before i hlt] at hend
      contradiction
    subst hi
    have hline : p'.next.isEndOfLine = true := by
      rw [h.stands'.next]
      exact hc.end_of_line
    have hnext := (h.fill 1 1).advance hc (Nat.le_refl i)
    have hquiet : p'.Quiet (p'.fill 1).advance :=
      quiet_fill_advance (Token.isPlain_of_endsLine (by simp [Token.endsLine, hline]))
    exact ⟨(p'.fill 1).advance, hnext.stands', hnext.scopes,
      (hquiet.pending.trans h.pending).trans hnone,
      (hquiet.reports.trans h.reports).trans hreports.symm,
      fun k u hu => ⟨k + 1, bodyWithin_succ.2 (.blank (by simp [hline]) hu)⟩⟩
  · exact ⟨p', h.stands', h.scopes, h.pending.trans hnone, h.reports.trans hreports.symm,
      fun k u hu => ⟨k, hu⟩⟩

/-- A program that is read without an error is read as far as the line break where the other source
goes on. -/
theorem Abreast.program (hsource : source.Sound n) (h : Abreast source source' n i p p')
    (hq : bodyWithin m true p = .ok q) (herrors : q.errorCount = 0) : ReadsUpTo source' n q p' := by
  induction m generalizing i p p' with
  | zero => simp [bodyWithin, halt] at hq
  | succ m ih =>
    cases bodyWithin_succ.1 hq with
    | ends hends =>
      cases hends with
      | program hend =>
        exact h.program_ends hc hsource hend
          (h.follows.pending_eq_nil hsource ((leadsTo_of_bodyWithin hq).errorCount_eq_zero herrors) hend)
    | blank hblank hrest =>
      obtain ⟨hi, hnext⟩ := h.next_eq hc (isEndOfFile_of_blank hblank)
      have hprogram := ih ((h.fill 1 1).advance hc (Nat.le_of_lt hi)) hrest
      rw [← hnext] at hblank
      exact hprogram.of_rest fun k u hu => ⟨k + 1, bodyWithin_succ.2 (.blank hblank hu)⟩
    | stray htop hbrace hrest =>
      obtain ⟨hi, hnext⟩ := h.next_eq hc (isEndOfFile_of_isOperator hbrace)
      have hprogram := ih ((h.fill 1 1).advance hc (Nat.le_of_lt hi)) hrest
      rw [← hnext] at hbrace
      exact hprogram.of_rest fun k u hu => ⟨k + 1, bodyWithin_succ.2 (.stray htop hbrace hu)⟩
    | statement s r hstart hs hrest =>
      obtain ⟨u, u', j, habreast, -, hrest, hresume⟩ :=
        Abreast.statement_body hc (abreast_within hc hsource m).1 h hstart hs hrest herrors
      exact (ih habreast hrest).of_rest hresume

end Bodies

end Parser

end FloatLang
