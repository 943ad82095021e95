import FloatLang.Proofs.Parser.Totality
import FloatLang.Proofs.Scanner.Names

/-!
# Reading stops by itself

The readers are given bounds for the tokens they may take. Here the bounds turn out to be no
part of what is read: with any greater bound, every reader gives the same answer. So the loops
end of their own accord, and a program ends with nothing left of its source.

## Main definitions

* `Parser.Extends` — a reader answers whatever another one answers
* `Parser.Finished` — how a parser stands after a whole program

## Main results

* `Scanner.skipLineWithin_eq`, `Parser.collect_eq`, `Parser.statementWithin_eq`,
  `Parser.bodyWithin_eq` — the bounds make no difference
* `Parser.reading_terminates` — every program is read to its end
-/

namespace FloatLang

/-- An opening bracket has a kind and a bracket that closes it. -/
theorem Operator.isSome_pair?_of_isOpening {op : Operator} (h : op.isOpening = true) :
    op.pair?.isSome = true ∧ op.bracket?.isSome = true := by
  cases op <;> first | exact ⟨rfl, rfl⟩ | contradiction

namespace Scanner

theorem skipLineWithin_congr {s : Scanner} {m n : Nat} (hm : s.remaining < m)
    (hn : s.remaining < n) : skipLineWithin m s = skipLineWithin n s := by
  induction m generalizing n s with
  | zero => exact absurd hm (Nat.not_lt_zero _)
  | succ m ih =>
    cases n with
    | zero => exact absurd hn (Nat.not_lt_zero _)
    | succ n =>
      -- neither bound is used up: each token that does not end the line leaves fewer
      unfold skipLineWithin
      split
      · rfl
      next hline =>
        have hend : s.next.isEndOfFile = false := by
          rw [Token.endsLine, Bool.or_eq_true, not_or] at hline
          exact Bool.eq_false_iff.2 hline.2
        have hlt := s.remaining_advance_lt hend
        exact ih (by omega) (by omega)

/-- A line ends by itself. -/
theorem skipLineWithin_eq {s : Scanner} {n : Nat} (h : s.remaining < n) :
    skipLineWithin n s = s.skipLine :=
  skipLineWithin_congr h (Nat.lt_succ_self _)

end Scanner

namespace Parser

variable {p q : Parser} {m n : Nat}

/-- An expression ends by itself. -/
theorem collect_eq {terminal : Operator} {y : Postfix.Yard} (hm : p.remaining < m)
    (hn : p.remaining < n) : collect terminal m y p = collect terminal n y p := by
  induction m generalizing n y p with
  | zero => exact absurd hm (Nat.not_lt_zero _)
  | succ m ih =>
    cases n with
    | zero => exact absurd hn (Nat.not_lt_zero _)
    | succ n =>
      have hle := (p.reaches_fill 1).remaining_le
      -- a token that lets the expression go on is not the end of the file
      have hmore {kind : TokenKind} (y : Postfix.Yard) (q : Parser)
          (hkind : (p.fill 1).next.kind = kind) (hne : kind ≠ .endOfFile)
          (hq : (p.fill 1).advance.Reaches q) :
          collect terminal m y q = collect terminal n y q := by
        have hlt := (p.fill 1).remaining_advance_lt hkind hne
        have hreaches := hq.remaining_le
        exact ih (by omega) (by omega)
      unfold collect
      dsimp only
      split
      · rfl
      · split
        next hkind => exact hmore _ _ hkind (by simp) (.refl _)
        next hkind => rfl
        next hkind => exact hmore _ _ hkind (by simp) (.refl _)
        next name hkind =>
          have hresolve := (p.fill 1).advance.reaches_resolve name (p.fill 1).next.location
          split
          next v q h =>
            rw [h] at hresolve
            exact hmore _ q hkind (by simp) hresolve
          next => rfl
        next => rfl
        next => rfl
        next op hkind =>
          split
          · rfl
          · split
            · exact hmore _ _ hkind (by simp) (.refl _)
            · rfl

/-! ### Nested statements -/

/-- Whatever `f` answers, `g` answers the same. -/
def Extends {α : Type} (f g : Parser → Except Halt α) : Prop :=
  ∀ (p : Parser) (a : α), f p = .ok a → g p = .ok a

variable {body body' : Parser → Except Halt Parser}
  {statement statement' : Parser → Except Halt (Statement × Parser)}

theorem Extends.blockWith (h : Extends body body') : Extends (blockWith body) (blockWith body') := by
  intro p a ha
  obtain ⟨q, hq, hleave⟩ := bind_eq_ok.1 ha
  exact bind_eq_ok.2 ⟨q, h _ _ hq, hleave⟩

theorem Extends.branchWith (h : Extends body body') :
    Extends (branchWith body) (branchWith body') := by
  intro p a ha
  unfold Parser.branchWith at ha ⊢
  dsimp only at ha ⊢
  generalize p.advance.condition .leftBrace = condition at ha ⊢
  obtain ⟨condition, q⟩ := condition
  cases condition with
  | none => exact ha
  | some condition =>
    dsimp only at ha ⊢
    split at ha
    next hbrace =>
      rw [if_pos hbrace]
      obtain ⟨b, hb, hrest⟩ := bind_eq_ok.1 ha
      exact bind_eq_ok.2 ⟨b, h.blockWith _ _ hb, hrest⟩
    next hbrace =>
      rw [if_neg hbrace]
      exact ha

theorem Extends.loopInit (h : Extends statement statement') :
    Extends (loopInit statement) (loopInit statement') := by
  intro p a ha
  unfold Parser.loopInit at ha ⊢
  dsimp only at ha ⊢
  split at ha
  next hsemicolon =>
    rw [if_pos hsemicolon]
    exact ha
  next hsemicolon =>
    rw [if_neg hsemicolon]
    obtain ⟨b, hb, hrest⟩ := bind_eq_ok.1 ha
    exact bind_eq_ok.2 ⟨b, h _ _ hb, hrest⟩

theorem Extends.loopHeaderWith (h : Extends statement statement') :
    Extends (loopHeaderWith statement) (loopHeaderWith statement') := by
  intro p a ha
  obtain ⟨b, hb, hrest⟩ := bind_eq_ok.1 ha
  exact bind_eq_ok.2 ⟨b, h.loopInit _ _ hb, hrest⟩

theorem Extends.loopWith (hbody : Extends body body') (hstatement : Extends statement statement') :
    Extends (loopWith body statement) (loopWith body' statement') := by
  intro p a ha
  obtain ⟨⟨header, q⟩, hheader, hrest⟩ := bind_eq_ok.1 ha
  refine bind_eq_ok.2 ⟨_, hstatement.loopHeaderWith _ _ hheader, ?_⟩
  cases header with
  | none => exact hrest
  | some header =>
    obtain ⟨r, hr, hleave⟩ := bind_eq_ok.1 hrest
    exact bind_eq_ok.2 ⟨r, hbody _ _ hr, hleave⟩

/-- A greater bound on the nesting answers whatever a smaller one does. -/
theorem extends_succ (n : Nat) :
    Extends (statementWithin n) (statementWithin (n + 1)) ∧
      ∀ top, Extends (bodyWithin n top) (bodyWithin (n + 1) top) := by
  -- one induction for both readers, since each calls the other with a smaller bound
  induction n with
  | zero => exact ⟨fun p a ha => by simp [statementWithin, halt] at ha,
      fun top p a ha => by simp [bodyWithin, halt] at ha⟩
  | succ n ih =>
    obtain ⟨ihStatement, ihBody⟩ := ih
    refine ⟨fun p a ha => ?_, fun top p a ha => ?_⟩
    · unfold statementWithin at ha ⊢
      dsimp only at ha ⊢
      split at ha
      · exact ha
      · exact (ihBody false).branchWith _ _ ha
      · exact (ihBody false).loopWith ihStatement _ _ ha
      · exact ha
      · exact ha
    · rw [bodyWithin_succ] at ha ⊢
      cases ha with
      | ends hends => exact .ends hends
      | blank hnext hrest => exact .blank hnext (ihBody top _ _ hrest)
      | stray htop hnext hrest => exact .stray htop hnext (ihBody top _ _ hrest)
      | statement s r hnext hs hrest =>
        exact .statement s r hnext (ihStatement _ _ hs) (ihBody top _ _ hrest)

theorem extends_of_le (h : m ≤ n) :
    Extends (statementWithin m) (statementWithin n) ∧
      ∀ top, Extends (bodyWithin m top) (bodyWithin n top) := by
  induction h with
  | refl => exact ⟨fun _ _ h => h, fun _ _ _ h => h⟩
  | step _ ih =>
    obtain ⟨hstatement, hbody⟩ := extends_succ _
    exact ⟨fun p a ha => hstatement p a (ih.1 p a ha),
      fun top p a ha => hbody top p a (ih.2 top p a ha)⟩

/-- Statements are nested no deeper than the bound. -/
theorem statementWithin_eq (h : p.bound ≤ n) : statementWithin n p = p.statement := by
  obtain ⟨s, q, hq, -⟩ := p.statement_passes
  rw [hq]
  exact (extends_of_le h).1 _ _ hq

/-- Bodies are nested no deeper than the bound. -/
theorem bodyWithin_eq {top : Bool} (h : p.bound ≤ n) : bodyWithin n top p = p.body top := by
  obtain ⟨q, r, hr, -⟩ := p.body_ok top
  rw [hr]
  exact (extends_of_le h).2 top _ _ hr

/-- What the reader of statements reads with some bound, it reads with the one that suffices. -/
theorem extends_statement (n : Nat) : Extends (statementWithin n) Parser.statement := by
  intro p a h
  rw [← statementWithin_eq (Nat.le_max_right n p.bound)]
  exact (extends_of_le (Nat.le_max_left n p.bound)).1 p a h

theorem body_of_bodyWithin {top : Bool} (h : bodyWithin n top p = .ok q) : p.body top = .ok q := by
  rw [← bodyWithin_eq (Nat.le_max_right n p.bound)]
  exact (extends_of_le (Nat.le_max_left n p.bound)).2 top p q h

/-! ### Whole programs -/

/-- How a parser stands that has read a file of these bytes: nothing is left of the source and
only the end of the file is ahead, and no scope and no bracket is open. -/
structure Finished (bytes : ByteArray) (p : Parser) : Prop where
  rest : p.scanner.source.rest = []
  offset : p.scanner.source.position.offset = bytes.size
  hasNext : p.scanner.hasNext = false
  next : p.next.isEndOfFile = true
  depth : p.scopes.depth = 0
  pending : p.scanner.pending = []

theorem finished_of_bodyEnds {file : Path} {bytes : ByteArray}
    (hp : (ofSource (.ofBytes file bytes)).Reaches p) (hend : p.BodyEnds true q) :
    q.Finished bytes := by
  obtain ⟨ts, hts⟩ := hp
  have honce := hts.handsOut.endsOnce (.ofSource _)
  -- all characters have been passed, so the position is their number
  obtain ⟨passed, hpassed, hposition⟩ := (hts.trans (p.takes_fill 1)).handsOut.source
  cases hend with
  | program hnext =>
    have hrest : (p.fill 1).scanner.source.rest = [] := honce.rest_eq_nil hnext
    refine ⟨hrest, ?_, honce.hasNext_eq_false hnext, ?_, hts.depth, rfl⟩
    · rw [hrest, List.append_nil] at hpassed
      have hlength := Source.length_charactersOf bytes
      change (p.fill 1).scanner.source.position.offset = bytes.size
      rw [hposition, Position.offset_after, ← hpassed, ← hlength]
      exact Nat.zero_add _
    · change ((p.fill 1).scanner.flush.ahead 0).isEndOfFile = true
      rw [Scanner.ahead_flush]
      exact (congrArg Token.isEndOfFile (p.next_fill 1)).trans hnext

/-- Reading terminates. Every file is read as a program, without a halt and to its end; every
statement is read, from wherever a parser stands, and takes the next token at least; the bounds
of the readers are never reached; and every opening bracket has one that closes it. -/
theorem reading_terminates :
    (∀ (file : Path) (bytes : ByteArray),
      ∃ p, (ofSource (.ofBytes file bytes)).program = .ok p ∧ p.Finished bytes) ∧
    (∀ p : Parser, ∃ s q, p.statement = .ok (s, q) ∧ p.Passes q ∧
      (p.next.isEndOfFile = false → q.remaining < p.remaining)) ∧
    (∀ (p : Parser) (n : Nat), p.bound ≤ n →
      statementWithin n p = p.statement ∧ ∀ top, bodyWithin n top p = p.body top) ∧
    (∀ (terminal : Operator) (y : Postfix.Yard) (p : Parser) (n : Nat), p.remaining < n →
      collect terminal n y p = collect terminal (p.remaining + 1) y p) ∧
    (∀ (s : Scanner) (n : Nat), s.remaining < n → Scanner.skipLineWithin n s = s.skipLine) ∧
    ∀ op : Operator, op.isOpening = true → op.pair?.isSome = true ∧ op.bracket?.isSome = true := by
  refine ⟨fun file bytes => ?_, fun p => ?_, fun p n hn => ?_, fun terminal y p n hn => ?_,
    fun s n hn => Scanner.skipLineWithin_eq hn, fun op hop => Operator.isSome_pair?_of_isOpening hop⟩
  · obtain ⟨p, q, hq, hreaches, hends⟩ := (ofSource (.ofBytes file bytes)).body_ok true
    exact ⟨q, hq, finished_of_bodyEnds hreaches hends⟩
  · obtain ⟨s, q, hq, hpasses⟩ := p.statement_passes
    exact ⟨s, q, hq, hpasses, hpasses.remaining_lt⟩
  · exact ⟨statementWithin_eq hn, fun top => bodyWithin_eq hn⟩
  · exact collect_eq hn (Nat.lt_succ_self _)

end Parser

end FloatLang
