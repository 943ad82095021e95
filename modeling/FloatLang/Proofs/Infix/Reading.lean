import FloatLang.Proofs.Infix.Stack
import FloatLang.Proofs.Parser.Takes
import FloatLang.Proofs.Scanner.Brackets

/-!
# Reading expressions

A parser hands the tokens of an expression to a yard, with the names resolved in its scopes, until
one comes at which the expression ends. So what the yard makes of tokens is what the parser makes
of them.

## Main results

* `Parser.expression_of_derives` — an expression of the grammar is read to its tree, without a
  report
* `Parser.expression_eq_some` — what is read is what a yard takes and is assembled
* `Parser.expression_reads_grammar` — the parser reads the grammar
* `Parser.expression_sound_iff` — what the parser reads is an expression exactly if every token
  is in its place
-/

namespace FloatLang.Parser

open Infix
open Postfix (Yard)

variable {p q : Parser} {terminal : Operator} {y y' : Yard} {n : Nat} {us : List Token} {e : Expr}

/-! ### One token of an expression -/

theorem collect_end (hend : endsExpression terminal y.continues p.next = true) :
    collect terminal (n + 1) y p = (some y, p.fill 1) := by
  rw [collect, next_fill, if_pos hend]

theorem collect_take (hend : ¬ endsExpression terminal y.continues p.next = true)
    (htake : y.take? p.scopes.resolve? p.next = some y') :
    collect terminal (n + 1) y p = collect terminal n y' (p.fill 1).advance := by
  rw [collect, next_fill, if_neg hend]
  unfold Yard.take? at htake
  split at htake
  next hkind =>
    obtain rfl := Option.some.inj htake
    simp only [hkind]
  next value hkind =>
    obtain rfl := Option.some.inj htake
    simp only [hkind]
  next name hkind =>
    obtain ⟨v, hv, rfl⟩ := Option.map_eq_some_iff.1 htake
    have hresolve : (p.fill 1).advance.resolve name p.next.location =
        (some v, (p.fill 1).advance) := by
      rw [resolve, scopes_advance, scopes_fill, hv]
    simp only [hkind, hresolve]
  next op hkind =>
    split at htake
    · contradiction
    next hop => simp only [hkind, if_neg hop, htake]
  · contradiction

theorem collect_stop (hend : ¬ endsExpression terminal y.continues p.next = true)
    (htake : y.take? p.scopes.resolve? p.next = none) :
    (collect terminal (n + 1) y p).1 = none := by
  rw [collect, next_fill, if_neg hend]
  unfold Yard.take? at htake
  split at htake
  · contradiction
  · contradiction
  next name hkind =>
    have hnone := Option.map_eq_none_iff.1 htake
    have hresolve : ((p.fill 1).advance.resolve name p.next.location).1 = none := by
      rw [resolve, scopes_advance, scopes_fill, hnone]
    rw [hkind]
    dsimp only
    split
    next v q h => simp [h] at hresolve
    · rfl
  next op hkind =>
    split at htake
    next hop => simp only [hkind, if_pos hop]
    next hop => simp only [hkind, if_neg hop, htake]
  next h₁ h₂ h₃ h₄ =>
    cases hkind : p.next.kind with
    | endOfLine => exact absurd hkind h₁
    | numeral value => exact absurd hkind (h₂ value)
    | identifier name => exact absurd hkind (h₃ name)
    | operator op => exact absurd hkind (h₄ op)
    | _ => rfl

/-! ### All tokens of an expression -/

/-- What is collected is what a yard takes. -/
theorem takeAll?_of_collect (h : collect terminal n y p = (some y', q)) :
    ∃ us, p.Takes us q ∧ y.takeAll? p.scopes.resolve? us = some y' := by
  induction n generalizing y p with
  | zero => simp [collect] at h
  | succ n ih =>
    by_cases hend : endsExpression terminal y.continues p.next = true
    · rw [collect_end hend] at h
      obtain ⟨hy, rfl⟩ := Prod.mk.inj h
      exact ⟨[], p.takes_fill 1, hy⟩
    · cases htake : y.take? p.scopes.resolve? p.next with
      | none =>
        have hnone := collect_stop (n := n) hend htake
        simp [h] at hnone
      | some first =>
        rw [collect_take hend htake] at h
        obtain ⟨us, hus, hall⟩ := ih h
        have htakes := ((p.takes_fill 1).trans (takes_advance _)).trans hus
        rw [next_fill] at htakes
        refine ⟨p.next :: us, htakes, ?_⟩
        rw [Yard.takeAll?_cons, htake]
        exact hall

/-- What the parser makes a tree of is what a yard takes and is assembled. -/
theorem expression_eq_some (h : p.expression terminal = (some e, q)) :
    ∃ us y, p.Takes us q ∧ Yard.takeAll? p.scopes.resolve? {} us = some y ∧
      y.openParentheses = [] ∧ Postfix.assemble p.next.location y.finish = .ok e := by
  unfold expression at h
  dsimp only at h
  split at h
  next y q' hcollect =>
    obtain ⟨us, hus, hall⟩ := takeAll?_of_collect hcollect
    unfold finishExpression at h
    split at h
    next hclosed =>
      split at h
      next e' he =>
        obtain ⟨he', rfl⟩ := Prod.mk.inj h
        obtain rfl := Option.some.inj he'
        exact ⟨us, y, hus, hall, List.isEmpty_iff.1 hclosed, he⟩
      · simp at h
    · simp at h
  · simp at h

/-! ### Expressions of the grammar -/

/-- A token that a yard takes is no token at which an expression ends. -/
theorem not_endsExpression {t : Token} (hterminal : terminal = .semicolon ∨ terminal = .leftBrace)
    (htake : y.take? p.scopes.resolve? t = some y')
    (hbreak : t.isEndOfLine = true → (terminal == .leftBrace || y.continues) = true) :
    ¬ endsExpression terminal y.continues t = true := by
  -- what may end an expression is no operator of any
  have houtside (op : Operator) (hop : op.precedence = Operator.outside) :
      t.isOperator op = false := by
    cases hkind : t.kind with
    | operator op' =>
      have hinside := Yard.precedence_of_take? hkind htake
      simp only [Token.isOperator, Token.operator?, hkind, beq_eq_false_iff_ne]
      intro h
      exact hinside (Option.some.inj h ▸ hop)
    | _ => simp [Token.isOperator, Token.operator?, hkind]
  have hfile : t.isEndOfFile = false := by
    rw [Token.isEndOfFile, beq_eq_false_iff_ne]
    intro hkind
    simp [Yard.take?, hkind] at htake
  have hbrace := houtside .rightBrace rfl
  have hline : t.endsLine = t.isEndOfLine := by rw [Token.endsLine, hfile, Bool.or_false]
  rcases hterminal with rfl | rfl
  · have hsemicolon := houtside .semicolon rfl
    cases hend : t.isEndOfLine with
    | true =>
      have hcontinues : y.continues = true := by simpa using hbreak hend
      simp [endsExpression, hsemicolon, hcontinues]
    | false => simp [endsExpression, hsemicolon, hline, hend, hbrace]
  · have hleft := houtside .leftBrace rfl
    simp [endsExpression, hleft]

theorem continues_take? {t : Token} {resolve : String → Option Variable}
    (htake : y.take? resolve t = some y') (hline : t.isEndOfLine = false) :
    y'.continues = leavesWanting t := by
  unfold Yard.take? at htake
  split at htake
  next hkind => simp [Token.isEndOfLine, hkind] at hline
  next value hkind =>
    obtain rfl := Option.some.inj htake
    simp [leavesWanting, Token.operator?, hkind, Yard.operand]
  next name hkind =>
    obtain ⟨v, -, rfl⟩ := Option.map_eq_some_iff.1 htake
    simp [leavesWanting, Token.operator?, hkind, Yard.operand]
  next op hkind =>
    split at htake
    · contradiction
    next hop =>
      unfold Yard.shift? at htake
      obtain ⟨shifted, -, rfl⟩ := Option.map_eq_some_iff.1 htake
      rw [leavesWanting, Token.operator?, hkind]
      cases op <;> rfl
  · contradiction

/-- Line breaks that are passed over are passed over one by one. -/
theorem breaksIgnored_take? {t : Token} {resolve : String → Option Variable}
    (hbreaks : breaksIgnored terminal y.continues (t :: us) = true)
    (htake : y.take? resolve t = some y') :
    (t.isEndOfLine = true → (terminal == .leftBrace || y.continues) = true) ∧
      breaksIgnored terminal y'.continues us = true := by
  by_cases hline : t.isEndOfLine = true
  · rw [breaksIgnored, if_pos hline, Bool.and_eq_true] at hbreaks
    obtain rfl := Option.some.inj ((Yard.take?_endOfLine hline).symm.trans htake)
    exact ⟨fun _ => hbreaks.1, hbreaks.2⟩
  · rw [breaksIgnored, if_neg hline] at hbreaks
    refine ⟨fun h => absurd h hline, ?_⟩
    rwa [continues_take? htake (Bool.eq_false_iff.2 hline)]

/-- A token to which there is no objection is taken without a report, read ahead or not. -/
theorem accepts_fill_advance {pending : List Opening}
    (h : follow? p.scanner.pending p.next = some pending) :
    p.scanner.Accepts [p.next] (p.fill 1).advance.scanner ∧
      (p.fill 1).advance.scanner.pending = pending := by
  have hfill : follow? (p.fill 1).scanner.pending (p.fill 1).scanner.next = some pending := by
    change follow? (p.scanner.fill 1).pending (p.scanner.fill 1).next = some pending
    rwa [Scanner.pending_fill, Scanner.next_fill]
  obtain ⟨hadvance, hpending⟩ := Scanner.accepts_advance hfill
  have hnext : (p.fill 1).scanner.next = p.next := p.next_fill 1
  rw [hnext] at hadvance
  exact ⟨(p.scanner.accepts_fill 1).trans hadvance, hpending⟩

/-- Tokens that a yard takes are collected, up to one at which the expression ends. -/
theorem collect_of_takeAll? (hterminal : terminal = .semicolon ∨ terminal = .leftBrace)
    (hus : p.Upcoming us) (htake : y.takeAll? p.scopes.resolve? us = some y')
    (hbreaks : breaksIgnored terminal y.continues us = true)
    (hpending : (followAll? p.scanner.pending us).isSome = true)
    (hend : endsExpression terminal y'.continues (p.ahead us.length) = true)
    (hn : us.length < n) :
    ∃ q, collect terminal n y p = (some y', q) ∧ q.scopes = p.scopes ∧
      p.scanner.Accepts us q.scanner := by
  induction us generalizing p y n with
  | nil =>
    obtain rfl := Option.some.inj htake
    cases n with
    | zero => contradiction
    | succ n => exact ⟨p.fill 1, collect_end hend, rfl, p.scanner.accepts_fill 1⟩
  | cons t us ih =>
    cases n with
    | zero => contradiction
    | succ n =>
      obtain ⟨rfl, hrest⟩ := upcoming_cons.1 hus
      rw [Yard.takeAll?_cons] at htake
      obtain ⟨first, hfirst, hall⟩ := Option.bind_eq_some_iff.1 htake
      rw [followAll?_cons] at hpending
      obtain ⟨pending, hfollowed⟩ := Option.isSome_iff_exists.1 hpending
      obtain ⟨opened, hopened, hfollowed⟩ := Option.bind_eq_some_iff.1 hfollowed
      -- the next token is taken, and does not end the expression
      obtain ⟨haccepts, rfl⟩ := accepts_fill_advance hopened
      obtain ⟨hbreak, hbreaks'⟩ := breaksIgnored_take? hbreaks hfirst
      have hahead : (p.fill 1).advance.ahead = p.advance.ahead := by
        funext k
        rw [ahead_advance, ahead_advance, ahead_fill]
      obtain ⟨q, hq, hscopes, hrest'⟩ := ih (p := (p.fill 1).advance) (hrest.congr hahead) hall
        hbreaks' (Option.isSome_iff_exists.2 ⟨pending, hfollowed⟩)
        (by rw [hahead, ahead_advance]; exact hend) (Nat.lt_of_succ_lt_succ hn)
      refine ⟨q, ?_, hscopes, haccepts.trans hrest'⟩
      rw [collect_take (not_endsExpression hterminal hfirst hbreak) hfirst, hq]

/-- The tokens before the end of the file are among those left. -/
theorem length_le_remaining (hus : p.Upcoming us) (hfile : ∀ t ∈ us, t.isEndOfFile = false) :
    us.length ≤ p.remaining := by
  induction us generalizing p with
  | nil => exact Nat.zero_le _
  | cons t us ih =>
    obtain ⟨rfl, hrest⟩ := upcoming_cons.1 hus
    have hlt := p.scanner.remaining_advance_lt (hfile _ List.mem_cons_self)
    have hle := ih hrest fun t ht => hfile t (List.mem_cons_of_mem _ ht)
    exact Nat.lt_of_le_of_lt hle hlt

theorem isEndOfFile_of_takeAll? {resolve : String → Option Variable}
    (htake : y.takeAll? resolve us = some y') : ∀ t ∈ us, t.isEndOfFile = false := by
  intro t ht
  obtain ⟨z, z', hstep⟩ := Yard.exists_take?_of_mem htake t ht
  rw [Token.isEndOfFile, beq_eq_false_iff_ne]
  intro hkind
  simp [Yard.take?, hkind] at hstep

theorem isPlain_operator {t : Token} {op : Operator} (ht : t.kind = .operator op)
    (hop : op.bracket? = none) : t.isPlain = true := by
  simp [Token.isPlain, Token.error?, Token.operator?, ht, hop]

theorem bracket?_of_isBinary {op : Operator} (h : op.isBinary = true) : op.bracket? = none := by
  cases op <;> first | rfl | contradiction

theorem bracket?_of_isStep {op : Operator} (h : op.isStep = true) : op.bracket? = none := by
  cases op <;> first | rfl | contradiction

/-- The parentheses of an expression are balanced. -/
theorem balanced_of_derives {resolve : String → Option Variable} {k : Nat} {ts : List Token}
    (h : Derives resolve k ts e) : Balanced ts := by
  -- parentheses only come around whole expressions
  induction h with
  | tighter _ ih => exact ih
  | binary hop ht _ _ ihLeft ihRight =>
    have hplain := isPlain_operator ht (bracket?_of_isBinary (mem_operatorsAt.1 hop).1)
    exact ihLeft.append (ihRight.cons hplain)
  | not ht _ ih => exact ih.cons (isPlain_operator ht rfl)
  | step hop ht _ ih => exact ih.append (.plain (isPlain_operator ht (bracket?_of_isStep hop)))
  | numeral ht => exact .plain (by simp [Token.isPlain, Token.error?, Token.operator?, ht])
  | reference ht _ => exact .plain (by simp [Token.isPlain, Token.error?, Token.operator?, ht])
  | group ht _ hu ih => exact .enclosed .parenthesis ht ih hu

theorem followAll?_significant (pending : List Opening) :
    followAll? pending (significant us) = followAll? pending us := by
  induction us generalizing pending with
  | nil => rfl
  | cons t us ih =>
    by_cases ht : t.isEndOfLine = true
    · have hkind : t.kind = .endOfLine := by simpa [Token.isEndOfLine] using ht
      have hfollow : follow? pending t = some pending := by simp [follow?, hkind]
      rw [followAll?_cons, hfollow, Option.bind_some, ← ih]
      simp [significant, ht]
    · have hcons : significant (t :: us) = t :: significant us := by simp [significant, ht]
      rw [hcons, followAll?_cons, followAll?_cons]
      simp only [ih]

/-- An expression of the grammar is read to its tree. Nothing is reported, and the scopes and the
open brackets are as they were. -/
theorem expression_of_derives (hterminal : terminal = .semicolon ∨ terminal = .leftBrace)
    (hderives : Derives p.scopes.resolve? 0 (significant us) e)
    (hbreaks : breaksIgnored terminal false us = true) (hus : p.Upcoming us)
    (hend : endsExpression terminal false (p.ahead us.length) = true) :
    ∃ q, p.expression terminal = (some e, q) ∧ q.scopes = p.scopes ∧
      p.scanner.Accepts us q.scanner ∧ q.scanner.pending = p.scanner.pending := by
  -- the yard passes over line breaks, so it takes the tokens with them
  obtain ⟨y, htake, hcontinues, hclosed, hassemble⟩ := Postfix.assemble_of_derives hderives
  rw [Yard.takeAll?_significant] at htake
  have hfollow : followAll? p.scanner.pending us = some p.scanner.pending := by
    rw [← followAll?_significant]
    exact followAll?_of_balanced (balanced_of_derives hderives) _
  have hlength := length_le_remaining hus (isEndOfFile_of_takeAll? htake)
  obtain ⟨q, hq, hscopes, haccepts⟩ := collect_of_takeAll? (y := {}) (n := p.remaining + 1)
    hterminal hus htake hbreaks (by rw [hfollow]; rfl) (by rwa [hcontinues])
    (Nat.lt_succ_of_le hlength)
  have hpending := haccepts.pending
  rw [hfollow] at hpending
  refine ⟨q, ?_, hscopes, haccepts, (Option.some.inj hpending).symm⟩
  unfold expression
  simp only [hq, finishExpression, hclosed, List.isEmpty_nil, hassemble, ite_true]

/-! ### The parser and the grammar -/

/-- The parser reads the grammar. If the next tokens are an expression and then one that ends it,
with line breaks only where the expression goes on, then the tree of the expression is read. Its
tokens are taken and no more, and nothing is reported. -/
theorem expression_reads_grammar {t : Token}
    (hterminal : terminal = .semicolon ∨ terminal = .leftBrace)
    (hderives : Derives p.scopes.resolve? 0 (significant us) e)
    (hbreaks : breaksIgnored terminal false us = true) (hus : p.Upcoming (us ++ [t]))
    (hend : t.isOperator terminal = true ∨ terminal = .semicolon ∧
      (t.isEndOfLine = true ∨ t.isEndOfFile = true ∨ t.isOperator .rightBrace = true)) :
    ∃ q, p.expression terminal = (some e, q) ∧ p.Takes us q ∧ q.next = t ∧
      q.scanner.reports = p.scanner.reports ∧ q.scopes = p.scopes := by
  have hnext : p.ahead us.length = t := hus.ahead_length
  have hends : endsExpression terminal false (p.ahead us.length) = true := by
    rw [hnext, endsExpression]
    rcases hend with hend | ⟨rfl, hend | hend | hend⟩ <;> simp [hend, Token.endsLine]
  obtain ⟨q, hq, hscopes, haccepts, -⟩ :=
    expression_of_derives hterminal hderives hbreaks hus.left hends
  refine ⟨q, hq, ⟨haccepts.handsOut, by rw [hscopes]⟩, ?_, haccepts.reports, hscopes⟩
  have hahead := haccepts.handsOut.ahead 0
  rw [Nat.zero_add] at hahead
  exact hahead.trans hnext

/-- A sum is read across a line break. -/
theorem expression_reads_continued_sum :
    let p := ofSource (.ofText ⟨"main"⟩ "1 +\n 2;")
    ∃ q, p.expression .semicolon =
        (some (.binary .add (.numeral { value := 1 } (p.ahead 0).location)
          (.numeral { value := 2 } (p.ahead 3).location) (p.ahead 1).location), q) ∧
      p.Takes ((List.range 4).map p.ahead) q ∧ q.next = p.ahead 4 ∧
      q.scanner.reports = p.scanner.reports ∧ q.scopes = p.scopes := by
  intro p
  have hone : Derives p.scopes.resolve? 4 [p.ahead 0] (.numeral { value := 1 } (p.ahead 0).location) :=
    (Derives.numeral (by decide)).of_le (by decide)
  have htwo : Derives p.scopes.resolve? 5 [p.ahead 3] (.numeral { value := 2 } (p.ahead 3).location) :=
    (Derives.numeral (by decide)).of_le (by decide)
  have hplus : (p.ahead 1).kind = .operator .add := by decide
  have hsum := Derives.binary (by decide) hplus hone htwo
  exact expression_reads_grammar (.inl rfl) (hsum.of_le (Nat.zero_le 4)) (by decide) rfl
    (.inl (by decide))

/-- Whenever the parser makes a tree of tokens, they are an expression exactly if every token is in
its place; and then the tree is theirs. -/
theorem expression_sound_iff (h : p.expression terminal = (some e, q)) :
    ∃ ts, p.Takes ts q ∧ ∀ e', Derives p.scopes.resolve? 0 (significant ts) e' ↔
      inPlace true (significant ts) = true ∧ e' = e := by
  obtain ⟨ts, y, hts, htake, hclosed, he⟩ := expression_eq_some h
  exact ⟨ts, hts, fun e' => Postfix.derives_iff htake hclosed he⟩

/-- The tree made of a sum is its only tree. -/
theorem expression_sound_of_sum :
    let p := ofSource (.ofText ⟨"main"⟩ "1 + 2;")
    ∃ e q, p.expression .semicolon = (some e, q) ∧ ∃ ts, p.Takes ts q ∧
      ∀ e', Derives p.scopes.resolve? 0 (significant ts) e' ↔
        inPlace true (significant ts) = true ∧ e' = e := by
  intro p
  have hsome : (p.expression .semicolon).1.isSome = true := by decide
  clear_value p
  obtain ⟨e, he⟩ := Option.isSome_iff_exists.1 hsome
  have hread : p.expression .semicolon = (some e, (p.expression .semicolon).2) := Prod.ext he rfl
  exact ⟨e, _, hread, expression_sound_iff hread⟩

/-- Of two operands in front of their operator a tree is made, though they are no expression. -/
theorem expression_accepts_misplaced_operand :
    let p := ofSource (.ofText ⟨"main.rin"⟩ "1 2 +;")
    ∃ e q, p.expression .semicolon = (some e, q) ∧ p.Reaches q ∧
      ∀ ts, p.Takes ts q → ∀ e', ¬ Derives p.scopes.resolve? 0 (significant ts) e' := by
  intro p
  have hsome : (p.expression .semicolon).1.isSome = true := by decide
  have hlast : (p.expression .semicolon).2.next.kind = .operator .semicolon := by decide
  have hfirst : (p.scanner.ahead 0).kind = .numeral { value := 1 } := by decide
  have hsecond : (p.scanner.ahead 1).kind = .numeral { value := 2 } := by decide
  have hreaches := p.reaches_expression .semicolon
  clear_value p
  obtain ⟨e, he⟩ := Option.isSome_iff_exists.1 hsome
  refine ⟨e, (p.expression .semicolon).2, Prod.ext he rfl, hreaches, fun ts hts e' h => ?_⟩
  have hnext : (p.scanner.ahead ts.length).kind = .operator .semicolon := by
    rw [← hlast, ← Nat.zero_add ts.length]
    exact congrArg Token.kind (hts.handsOut.ahead 0).symm
  have htokens := hts.handsOut.tokens_eq
  have hplace := h.inPlace
  -- both operands are among the tokens, and the second stands where none is wanted
  match hlength : ts.length with
  | 0 => simp [hlength, hfirst] at hnext
  | 1 => simp [hlength, hsecond] at hnext
  | n + 2 =>
    rw [hlength, List.range_succ_eq_map, List.range_succ_eq_map] at htokens
    rw [htokens] at hplace
    simp [significant, inPlace, Token.isEndOfLine, hfirst, hsecond] at hplace

end FloatLang.Parser
