import FloatLang.Parser.Program
import FloatLang.Proofs.Scanner.HandsOut

/-!
# What a parser takes

Whatever a parser reads, it goes through its scanner by handing out tokens and leaves as many
scopes open as it found. `Parser.Takes` says so with the tokens named, `Parser.Reaches` with the
tokens left open, and `Parser.Passes` says that the next token is among them. There is one
lemma for each thing a parser reads; the bodies of block statements come in elsewhere.

## Main definitions

* `Parser.Takes` — a parser comes from another by taking tokens
* `Parser.Reaches`, `Parser.Passes` — by taking any tokens, or the next one at least

## Main results

* `Parser.reaches_expression` — expressions
* `Parser.passes_assignment`, `Parser.passes_declaration`, `Parser.step_ok` — simple statements
* `Parser.reaches_loopCondition`, `Parser.loopIncrement_ok` — the clauses of a loop
-/

namespace FloatLang

/-! ### The number of open scopes -/

namespace ScopeChain

variable (c : ScopeChain)

@[simp] theorem depth_modifyCurrent (f : Scope Statement → Scope Statement) :
    (c.modifyCurrent f).depth = c.depth := by
  unfold modifyCurrent depth
  split
  next h => rfl
  next h => simp [h]

@[simp] theorem depth_push (s : Statement) : (c.push s).depth = c.depth :=
  c.depth_modifyCurrent _

@[simp] theorem depth_pop : c.pop.2.depth = c.depth := c.depth_modifyCurrent _

theorem depth_define {name : String} {l : Location} {v : Variable} {c' : ScopeChain}
    (h : c.define name l = .ok (v, c')) : c'.depth = c.depth := by
  unfold define at h
  split at h
  · contradiction
  · obtain ⟨-, rfl⟩ := Prod.mk.inj (Except.ok.inj h)
    exact c.depth_modifyCurrent _

/-- A scope can be left if it is not the outermost one. -/
theorem leave?_of_depth {n : Nat} (h : c.depth = n + 1) :
    ∃ s c', c.leave? = some (s, c') ∧ c'.depth = n := by
  unfold depth at h
  unfold leave?
  cases hinner : c.inner with
  | nil => simp [hinner] at h
  | cons s rest =>
    rw [hinner, List.length_cons] at h
    exact ⟨s, _, rfl, Nat.succ.inj h⟩

end ScopeChain

namespace Parser

/-- The parser `p'` comes from `p` by taking exactly the tokens `ts`, with as many scopes
open. -/
structure Takes (p : Parser) (ts : List Token) (p' : Parser) : Prop where
  handsOut : p.scanner.HandsOut ts p'.scanner
  depth : p'.scopes.depth = p.scopes.depth

/-- The parser `p'` comes from `p` by taking tokens. -/
def Reaches (p p' : Parser) : Prop := ∃ ts, p.Takes ts p'

/-- The parser `p'` comes from `p` by taking tokens, the next one at least. -/
def Passes (p p' : Parser) : Prop := ∃ ts, p.Takes (p.next :: ts) p'

variable {p q r : Parser} {ts us : List Token}

theorem Takes.refl (p : Parser) : p.Takes [] p := ⟨.refl _, rfl⟩

theorem Takes.trans (h : p.Takes ts q) (h' : q.Takes us r) : p.Takes (ts ++ us) r :=
  ⟨h.handsOut.trans h'.handsOut, h'.depth.trans h.depth⟩

theorem Reaches.refl (p : Parser) : p.Reaches p := ⟨[], .refl p⟩

theorem Reaches.trans (h : p.Reaches q) (h' : q.Reaches r) : p.Reaches r := by
  obtain ⟨ts, hts⟩ := h
  obtain ⟨us, hus⟩ := h'
  exact ⟨ts ++ us, hts.trans hus⟩

theorem Passes.reaches (h : p.Passes q) : p.Reaches q := by
  obtain ⟨ts, hts⟩ := h
  exact ⟨_, hts⟩

theorem Passes.trans (h : p.Passes q) (h' : q.Reaches r) : p.Passes r := by
  obtain ⟨ts, hts⟩ := h
  obtain ⟨us, hus⟩ := h'
  exact ⟨ts ++ us, hts.trans hus⟩

theorem Reaches.depth (h : p.Reaches q) : q.scopes.depth = p.scopes.depth := by
  obtain ⟨ts, hts⟩ := h
  exact hts.depth

/-- Taking tokens leaves no more than there was. -/
theorem Reaches.remaining_le (h : p.Reaches q) : q.remaining ≤ p.remaining := by
  obtain ⟨ts, hts⟩ := h
  exact Nat.le_trans (Nat.le_add_right _ _) hts.handsOut.remaining_le

/-- Passing a token leaves less, unless the file has ended. -/
theorem Passes.remaining_lt (h : p.Passes q) (hnext : p.next.isEndOfFile = false) :
    q.remaining < p.remaining := by
  obtain ⟨ts, hts⟩ := h
  exact hts.handsOut.remaining_lt hnext

/-! ### The elementary steps -/

variable (p)

theorem takes_fill (n : Nat) : p.Takes [] (p.fill n) := ⟨.fill n (.refl _), rfl⟩

theorem takes_advance : p.Takes [p.next] p.advance := ⟨.advance (.refl _), rfl⟩

theorem takes_error (l : Location) (problem : Problem) : p.Takes [] (p.error l problem) :=
  ⟨.report _ (.refl _), rfl⟩

theorem takes_report (r : Report) : p.Takes [] (p.modifyScanner (·.report r)) :=
  ⟨.report r (.refl _), rfl⟩

theorem takes_flush : p.Takes [] (p.modifyScanner Scanner.flush) := ⟨.flush (.refl _), rfl⟩

theorem takes_push (s : Statement) : p.Takes [] (p.push s) :=
  ⟨.refl _, p.scopes.depth_push s⟩

theorem takes_pop : p.Takes [] p.pop.2 := ⟨.refl _, p.scopes.depth_pop⟩

@[simp] theorem next_fill (n : Nat) : (p.fill n).next = p.next := p.scanner.next_fill n

@[simp] theorem ahead_fill (m n : Nat) : (p.fill m).ahead n = p.ahead n :=
  p.scanner.ahead_fill m n

@[simp] theorem next_advance : p.advance.next = p.ahead 1 := p.scanner.ahead_advance 0

@[simp] theorem ahead_advance (n : Nat) : p.advance.ahead n = p.ahead (n + 1) :=
  p.scanner.ahead_advance n

@[simp] theorem scopes_fill (n : Nat) : (p.fill n).scopes = p.scopes := rfl

@[simp] theorem scopes_advance : p.advance.scopes = p.scopes := rfl

theorem reaches_fill (n : Nat) : p.Reaches (p.fill n) := ⟨_, p.takes_fill n⟩

theorem reaches_error (l : Location) (problem : Problem) : p.Reaches (p.error l problem) :=
  ⟨_, p.takes_error l problem⟩

theorem passes_advance : p.Passes p.advance := ⟨[], p.takes_advance⟩

variable {p}

/-- Reading ahead first makes no difference to what is passed. -/
theorem Passes.of_fill {n : Nat} (h : (p.fill n).Passes q) : p.Passes q := by
  obtain ⟨ts, hts⟩ := h
  rw [next_fill] at hts
  exact ⟨ts, (p.takes_fill n).trans hts⟩

variable (p)

theorem passes_reject (problem : Problem) : p.Passes (p.reject problem) := by
  unfold reject
  split
  · exact p.passes_advance
  · exact p.passes_advance.trans (reaches_error _ _ _)

theorem handsOut_skipLineWithin (n : Nat) (s : Scanner) :
    ∃ ts, s.HandsOut ts (Scanner.skipLineWithin n s) := by
  induction n generalizing s with
  | zero => exact ⟨[], .refl s⟩
  | succ n ih =>
    unfold Scanner.skipLineWithin
    split
    · exact ⟨_, .advance (.refl _)⟩
    · obtain ⟨ts, hts⟩ := ih s.advance
      exact ⟨_, .advance hts⟩

theorem reaches_synchronize : p.Reaches p.synchronize := by
  obtain ⟨ts, hts⟩ := handsOut_skipLineWithin (p.scanner.remaining + 1) p.scanner
  have hskip : p.Reaches (p.modifyScanner Scanner.skipLine) := ⟨ts, hts, rfl⟩
  unfold synchronize
  split
  · split
    · exact .refl p
    · exact hskip
  · exact hskip

theorem reaches_resolve (name : String) (l : Location) : p.Reaches (p.resolve name l).2 := by
  unfold resolve
  split
  · exact .refl p
  · exact p.reaches_error _ _

theorem reaches_define (name : String) (l : Location) : p.Reaches (p.define name l).2 := by
  unfold define
  split
  next v c hdefine => exact ⟨[], .refl _, p.scopes.depth_define hdefine⟩
  next r _ =>
    -- a second declaration is reported twice: as an error, and as a reminder of the first
    have herror := p.reaches_error r.location (.duplicate name)
    exact herror.trans ⟨[], takes_report _ _⟩

/-! ### The tokens ahead -/

/-- The next tokens are `ts`. -/
def Upcoming (p : Parser) (ts : List Token) : Prop := (List.range ts.length).map p.ahead = ts

variable {p}

theorem upcoming_cons {t : Token} : p.Upcoming (t :: ts) ↔ p.next = t ∧ p.advance.Upcoming ts := by
  have hshift : (List.range ts.length).map p.advance.ahead =
      (List.range ts.length).map (p.ahead ∘ Nat.succ) :=
    congrArg (List.map · _) (funext p.ahead_advance)
  rw [Upcoming, Upcoming, List.length_cons, List.range_succ_eq_map, List.map_cons, List.map_map,
    List.cons.injEq, hshift]
  rfl

theorem Upcoming.congr (h : p.Upcoming ts) (hahead : q.ahead = p.ahead) : q.Upcoming ts := by
  rw [Upcoming, hahead]
  exact h

theorem Upcoming.left (h : p.Upcoming (ts ++ us)) : p.Upcoming ts := by
  induction ts generalizing p with
  | nil => rfl
  | cons t ts ih =>
    rw [List.cons_append, upcoming_cons] at h
    exact upcoming_cons.2 ⟨h.1, ih h.2⟩

theorem Upcoming.ahead_length {t : Token} (h : p.Upcoming (ts ++ [t])) : p.ahead ts.length = t := by
  rw [Upcoming, List.length_append, List.length_singleton, List.range_succ, List.map_append] at h
  exact List.singleton_inj.1 (List.append_inj' h rfl).2

/-! ### Expressions -/

variable (p)

theorem reaches_collect (terminal : Operator) (n : Nat) (y : Postfix.Yard) :
    p.Reaches (collect terminal n y p).2 := by
  induction n generalizing y p with
  | zero => exact .refl p
  | succ n ih =>
    have hfill := p.reaches_fill 1
    have hadvance (q : Parser) (hq : (p.fill 1).Passes q) (y : Postfix.Yard) :
        p.Reaches (collect terminal n y q).2 := hfill.trans (hq.reaches.trans (ih q y))
    have hreject (problem : Problem) : p.Reaches ((p.fill 1).reject problem) :=
      hfill.trans (passes_reject _ problem).reaches
    -- every way on has taken a token, every way out at most rejects one
    unfold collect
    dsimp only
    split
    · exact hfill
    · split
      · exact hadvance _ (passes_advance _) _
      · exact hreject _
      · exact hadvance _ (passes_advance _) _
      next name _ =>
        have hresolve := (passes_advance _).trans
          ((p.fill 1).advance.reaches_resolve name (p.fill 1).next.location)
        split
        next v q h =>
          rw [h] at hresolve
          exact hadvance q hresolve _
        next q h =>
          rw [h] at hresolve
          exact hfill.trans hresolve.reaches
      · exact hreject _
      · exact hfill.trans (passes_advance _).reaches
      · split
        · exact hreject _
        · split
          · exact hadvance _ (passes_advance _) _
          · exact hreject _

theorem reaches_reportUnclosed (opened : List Location) : p.Reaches (p.reportUnclosed opened) := by
  induction opened generalizing p with
  | nil => exact .refl p
  | cons l opened ih =>
    unfold reportUnclosed
    rw [List.foldl_cons]
    split
    next b s h =>
      have hforget : p.Reaches { p with scanner := s.error l (.unclosed b) } :=
        ⟨[], .forget h (.report _ (.refl _)), rfl⟩
      exact hforget.trans (ih _)
    · exact ih p

theorem reaches_finishExpression (start : Location) (y : Postfix.Yard) :
    p.Reaches (finishExpression start y p).2 := by
  unfold finishExpression
  split
  · split
    · exact .refl p
    · exact p.reaches_error _ _
  · exact p.reaches_reportUnclosed _

theorem reaches_expression (terminal : Operator) : p.Reaches (p.expression terminal).2 := by
  have hcollect := p.reaches_collect terminal (p.remaining + 1) {}
  unfold expression
  dsimp only
  split
  next y q h =>
    rw [h] at hcollect
    exact hcollect.trans (q.reaches_finishExpression _ y)
  next q h =>
    rw [h] at hcollect
    exact hcollect

theorem reaches_condition (terminal : Operator) : p.Reaches (p.condition terminal).2 := by
  have hexpression := p.reaches_expression terminal
  unfold condition
  split
  next h => rwa [h] at hexpression
  next h => rwa [h] at hexpression

/-! ### Simple statements -/

theorem reaches_terminator : p.Reaches p.terminator.2 := by
  have hfill := p.reaches_fill 1
  have hadvance := hfill.trans (passes_advance _).reaches
  unfold terminator
  dsimp only
  split
  · exact hfill
  · split
    · exact hadvance
    · exact (hadvance.trans (reaches_error _ _ _)).trans (reaches_synchronize _)

theorem passes_assignment : p.Passes p.assignment.2 := by
  have htwo : p.Passes p.advance.advance := p.passes_advance.trans (passes_advance _).reaches
  have hresolve := htwo.trans
    (p.advance.advance.reaches_resolve (p.next.identifier?.getD "") p.next.location)
  -- the name and the sign after it are taken in any case
  unfold assignment
  dsimp only
  split
  · split
    next q h =>
      rw [h] at hresolve
      exact hresolve.trans q.reaches_synchronize
    next v q h =>
      rw [h] at hresolve
      have hexpression := hresolve.trans (q.reaches_expression .semicolon)
      split
      next q h =>
        rw [h] at hexpression
        exact hexpression.trans q.reaches_synchronize
      next value q h =>
        rw [h] at hexpression
        have hterminator := hexpression.trans q.reaches_terminator
        split
        next h => rwa [h] at hterminator
        next h => rwa [h] at hterminator
  · exact (htwo.trans (reaches_error _ _ _)).trans (reaches_synchronize _)

/-- A step is read where an increment or decrement comes after the next token. -/
theorem step_ok (terminated : Bool)
    (hop : ((p.ahead 1).operator?.bind Direction.ofOperator?).isSome) :
    ∃ s q, p.step terminated = .ok (s, q) ∧ p.Passes q := by
  have htwo : p.Passes p.advance.advance := p.passes_advance.trans (passes_advance _).reaches
  have hresolve := htwo.trans
    (p.advance.advance.reaches_resolve (p.next.identifier?.getD "") p.next.location)
  obtain ⟨direction, hdirection⟩ := Option.isSome_iff_exists.1 hop
  unfold step
  simp only [next_advance, hdirection]
  split
  next q h =>
    rw [h] at hresolve
    refine ⟨_, _, rfl, ?_⟩
    split
    · exact hresolve.trans q.reaches_synchronize
    · exact hresolve
  next v q h =>
    rw [h] at hresolve
    have hterminator := hresolve.trans q.reaches_terminator
    split
    · split
      next h =>
        rw [h] at hterminator
        exact ⟨_, _, rfl, hterminator⟩
      next h =>
        rw [h] at hterminator
        exact ⟨_, _, rfl, hterminator⟩
    · exact ⟨_, _, rfl, hresolve⟩

theorem passes_declaration : p.Passes p.declaration.2 := by
  have hname : p.Passes (p.advance.fill 1) := p.passes_advance.trans (reaches_fill _ _)
  have hahead := hname.trans (reaches_fill _ 2)
  -- the keyword is taken in any case, and the name is read ahead
  unfold declaration
  dsimp only
  split
  · exact (hname.trans (reaches_error _ _ _)).trans (reaches_synchronize _)
  next x _ =>
    have hdefine (q : Parser) (hq : p.Passes q) := hq.trans
      (q.reaches_define x (p.advance.fill 1).next.location)
    split
    · have h := hdefine _ ((hahead.trans (passes_advance _).reaches).trans
        (reaches_terminator _))
      split
      next heq => rwa [heq] at h
      next heq => rwa [heq] at h
    · have h := hdefine _ hahead
      split
      next q heq =>
        rw [heq] at h
        exact h.trans q.passes_assignment.reaches
      next q heq =>
        rw [heq] at h
        exact h.trans q.reaches_synchronize

/-! ### The clauses of a loop -/

theorem passes_headerSemicolon (clause : HeaderClause) :
    p.Passes (p.headerSemicolon clause).2 := by
  unfold headerSemicolon
  dsimp only
  split
  · exact p.passes_advance
  · exact (p.passes_advance.trans (reaches_error _ _ _)).trans (reaches_synchronize _)

theorem reaches_loopCondition : p.Reaches p.loopCondition.2 := by
  have hfill := p.reaches_fill 1
  have hcondition := hfill.trans ((p.fill 1).reaches_condition .semicolon)
  unfold loopCondition
  dsimp only
  split
  · exact hfill.trans (passes_advance _).reaches
  · split
    next q h =>
      rw [h] at hcondition
      exact hcondition.trans q.reaches_synchronize
    next q h =>
      rw [h] at hcondition
      have hsemicolon := hcondition.trans (q.passes_headerSemicolon .condition).reaches
      split
      next h => rwa [h] at hsemicolon
      next h => rwa [h] at hsemicolon

theorem loopIncrement_ok : ∃ i q, p.loopIncrement = .ok (i, q) ∧ p.Reaches q := by
  have hfill := p.reaches_fill 1
  have htwo := hfill.trans (reaches_fill _ 2)
  unfold loopIncrement
  dsimp only
  split
  · exact ⟨_, _, rfl, hfill⟩
  · split
    next hop =>
      -- the step comes after a name, so it is not missing
      rw [ahead_fill] at hop
      obtain ⟨s, q, hstep, hpasses⟩ := ((p.fill 1).fill 2).step_ok false (by rwa [ahead_fill])
      simp only [hstep, bind, Except.bind]
      split
      · exact ⟨_, _, rfl, (htwo.trans hpasses.reaches).trans q.reaches_synchronize⟩
      · exact ⟨_, _, rfl, htwo.trans hpasses.reaches⟩
    · refine ⟨_, _, rfl, ?_⟩
      exact ((htwo.trans (passes_advance _).reaches).trans (reaches_error _ _ _)).trans
        (reaches_synchronize _)

end Parser

end FloatLang
