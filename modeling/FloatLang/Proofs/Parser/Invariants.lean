import FloatLang.Proofs.Parser.Frame
import FloatLang.Proofs.Scanner.BracketTokens

/-!
# What holds of a scanner throughout

A parser takes tokens, reads ahead, reports errors at tokens that it has seen, and gives up on the
innermost open bracket. A property of scanners that these steps keep is kept by every reader that
declares nothing, however it ends. A declaration may also report where its name was declared before,
and what was declared before is in sight. So what is to hold of the scanner of a whole program has to
be shown of six small steps only.

## Main definitions

* `Scanner.Stable` — a property of scanners that reading and complaining keeps
* `Scanner.SightedInvariant` — one that reminders of variables in sight keep too
* `Scanner.Invariant` — one that every reminder keeps
* `Parser.Upholds` — the scanner has a property, and the variables in sight have their places

## Main results

* `Scanner.flush_of_giveUp`, `Scanner.reportUnclosed_of_giveUp` — giving up on several brackets
* `Scanner.Stable.expression`, `Scanner.Stable.assignment` — readers that declare nothing
* `Scanner.SightedInvariant.declaration` — declarations
* `Scanner.SightedInvariant.within`, `Scanner.Invariant.within` — whatever is read keeps an invariant
-/

namespace FloatLang

namespace Scanner

/-- A property of scanners that reading and complaining keeps. Errors are reported at allowed places
only, and the tokens ahead stand at such places; errors about brackets are left to the scanner. -/
structure Stable (allowed : Location → Prop) (inv : Scanner → Prop) : Prop where
  ahead : ∀ {s : Scanner}, inv s → ∀ n, allowed (s.ahead n).location
  fill : ∀ {s : Scanner}, inv s → ∀ n, inv (s.fill n)
  advance : ∀ {s : Scanner}, inv s → inv s.advance
  error : ∀ {s : Scanner} {l : Location} {problem : Problem}, inv s → allowed l →
    problem.isBracket = false → inv (s.error l problem)
  giveUp : ∀ {s : Scanner} {o : Opening} {os : List Opening}, inv s → s.pending = o :: os →
    inv ({ s with pending := os }.report (unclosedReport o))

/-- A property that every step of a parser keeps, provided that the variables in sight are where
something can be seen. That is so of all that is declared at an allowed place. -/
structure SightedInvariant (allowed sighted : Location → Prop) (inv : Scanner → Prop) : Prop
    extends Stable allowed inv where
  sight : ∀ {l : Location}, allowed l → sighted l
  remind : ∀ {s : Scanner} {l : Location} (name : String), inv s → sighted l →
    inv (s.report { severity := .inform, location := l, problem := .previousDefinition name })

/-- A property that every step of a parser keeps, wherever variables were declared. -/
structure Invariant (allowed : Location → Prop) (inv : Scanner → Prop) : Prop
    extends Stable allowed inv where
  remind : ∀ {s : Scanner} (l : Location) (name : String), inv s →
    inv (s.report { severity := .inform, location := l, problem := .previousDefinition name })

theorem Invariant.sighted {allowed : Location → Prop} {inv : Scanner → Prop}
    (h : Invariant allowed inv) : SightedInvariant allowed (fun _ => True) inv where
  toStable := h.toStable
  sight _ := trivial
  remind name hs _ := h.remind _ name hs

/-! ### Open brackets -/

section GiveUp

variable {inv : Scanner → Prop}
  (giveUp : ∀ {s : Scanner} {o : Opening} {os : List Opening}, inv s → s.pending = o :: os →
    inv ({ s with pending := os }.report (unclosedReport o)))

include giveUp

/-- All open brackets are given up one by one, the innermost first. -/
theorem flush_of_giveUp {s : Scanner} (hs : inv s) : inv s.flush := by
  obtain ⟨source, lookahead, pending, lineCount, reports, last⟩ := s
  induction pending generalizing reports with
  | nil => simpa [flush] using hs
  | cons o os ih =>
    have hfirst := ih _ (giveUp hs rfl)
    simpa [flush, report] using hfirst

/-- The open parentheses of an expression are the innermost open brackets, and are given up one by
one. -/
theorem reportUnclosed_of_giveUp {p : Parser} {os outside : List Opening} (hp : inv p.scanner)
    (hpending : p.scanner.pending = os ++ outside) :
    inv (p.reportUnclosed (os.map Opening.location)).scanner := by
  induction os generalizing p with
  | nil => exact hp
  | cons o os ih =>
    rw [List.map_cons, Parser.reportUnclosed, List.foldl_cons]
    simp only [forget?_innermost hpending]
    exact ih (giveUp hp hpending) rfl

end GiveUp

end Scanner

/-! ### The places in a yard -/

namespace Postfix

variable {allowed : Location → Prop}

/-- An operand whose first token stands at an allowed place, or an operator at such a place. -/
def Item.Within (allowed : Location → Prop) : Item → Prop
  | .operand e => allowed e.leftmost.location
  | .operator _ l => allowed l

/-- An operator at an allowed place. -/
def Frame.Within (allowed : Location → Prop) : Frame → Prop
  | .last _ l => allowed l
  | .first _ l _ => allowed l

/-- A complaint about an allowed place, which is not about brackets. -/
structure Complaint.Within (allowed : Location → Prop) (c : Complaint) : Prop where
  location : allowed c.location
  problem : c.problem.isBracket = false

/-- What is settled with operands at allowed places. -/
def Settled.Within (allowed : Location → Prop) : Settled → Prop
  | .root e => allowed e.leftmost.location
  | .lacking frames => ∀ frame ∈ frames, frame.Within allowed

/-- A yard that holds operators and operands at allowed places. -/
structure Yard.Within (allowed : Location → Prop) (y : Yard) : Prop where
  waiting : ∀ x ∈ y.waiting, allowed x.2
  items : ∀ item ∈ y.items, item.Within allowed

/-- An operand completes expressions that start where it starts, and complaints are about operators
that lack operands. -/
theorem within_settle {frames : List Frame} {e : Expr} (he : allowed e.leftmost.location)
    (hframes : ∀ frame ∈ frames, frame.Within allowed) :
    (∀ c, settle frames e = .error c → c.Within allowed) ∧
      ∀ outcome, settle frames e = .ok outcome → outcome.Within allowed := by
  induction frames generalizing e with
  | nil =>
    refine ⟨fun c h => by simp [settle] at h, fun outcome h => ?_⟩
    obtain rfl := Except.ok.inj h
    exact he
  | cons frame frames ih =>
    rw [List.forall_mem_cons] at hframes
    obtain ⟨hframe, hframes⟩ := hframes
    cases frame with
    | first op l right => exact ih (e := .binary op e right l) he hframes
    | last op l =>
      rw [settle]
      split
      · split
        · refine ⟨fun c h => ?_, fun outcome h => by contradiction⟩
          obtain rfl := Except.error.inj h
          exact ⟨hframe, rfl⟩
        · exact ih (e := .unary op e l) he hframes
      · refine ⟨fun c h => by contradiction, fun outcome h => ?_⟩
        obtain rfl := Except.ok.inj h
        exact List.forall_mem_cons.2 ⟨hframe, hframes⟩

theorem within_runOut {start : Location} {frames : List Frame} (hstart : allowed start)
    (hframes : ∀ frame ∈ frames, frame.Within allowed) : (runOut start frames).Within allowed := by
  cases frames with
  | nil => exact ⟨hstart, rfl⟩
  | cons frame frames =>
    have hframe := hframes frame List.mem_cons_self
    cases frame <;> exact ⟨hframe, rfl⟩

theorem within_assembleWith {start : Location} {frames : List Frame} {items : List Item}
    (hstart : allowed start) (hframes : ∀ frame ∈ frames, frame.Within allowed)
    (hitems : ∀ item ∈ items, item.Within allowed) :
    (∀ c, assembleWith start frames items = .error c → c.Within allowed) ∧
      ∀ e rest, assembleWith start frames items = .ok (e, rest) → allowed e.leftmost.location := by
  induction items generalizing frames with
  | nil =>
    refine ⟨fun c h => ?_, fun e rest h => by simp [assembleWith] at h⟩
    obtain rfl := Except.error.inj h
    exact within_runOut hstart hframes
  | cons item items ih =>
    rw [List.forall_mem_cons] at hitems
    obtain ⟨hitem, hitems⟩ := hitems
    cases item with
    | operator op l => exact ih (List.forall_mem_cons.2 ⟨hitem, hframes⟩) hitems
    | operand operand =>
      obtain ⟨herror, hok⟩ := within_settle hitem hframes
      rw [assembleWith]
      split
      next c hsettle =>
        refine ⟨fun c' h => ?_, fun e rest h => by contradiction⟩
        obtain rfl := Except.error.inj h
        exact herror c hsettle
      next root hsettle =>
        refine ⟨fun c h => by contradiction, fun e rest h => ?_⟩
        obtain ⟨rfl, -⟩ := Prod.mk.inj (Except.ok.inj h)
        exact hok _ hsettle
      next frames hsettle => exact ih (hok _ hsettle) hitems

/-- A complaint about an expression is about one of its tokens, or about where it starts. -/
theorem within_assemble {start : Location} {items : List Item} {c : Complaint}
    (hstart : allowed start) (hitems : ∀ item ∈ items, item.Within allowed)
    (h : assemble start items = .error c) : c.Within allowed := by
  have hnone : ∀ frame ∈ ([] : List Frame), frame.Within allowed := by simp
  obtain ⟨herror, hok⟩ := within_assembleWith hstart hnone hitems
  rcases assemble_eq_error h with hassemble | ⟨e, rest, hassemble, rfl⟩
  · exact herror c hassemble
  · exact ⟨hok e rest hassemble, rfl⟩

theorem within_release {ops : List (Operator × Location)} {items : List Item}
    (hops : ∀ x ∈ ops, allowed x.2) (hitems : ∀ item ∈ items, item.Within allowed) :
    ∀ item ∈ release ops items, item.Within allowed := by
  induction ops generalizing items with
  | nil => exact hitems
  | cons x ops ih =>
    rw [List.forall_mem_cons] at hops
    exact ih hops.2 (List.forall_mem_cons.2 ⟨hops.1, hitems⟩)

namespace Yard

variable {y y' : Yard} {op : Operator} {l : Location}

theorem within_start : ({} : Yard).Within allowed := ⟨by simp, by simp⟩

theorem Within.operand {e : Expr} (h : y.Within allowed) (he : allowed e.leftmost.location) :
    (y.operand e).Within allowed :=
  ⟨h.waiting, List.forall_mem_cons.2 ⟨he, h.items⟩⟩

theorem Within.finish (h : y.Within allowed) : ∀ item ∈ y.finish, item.Within allowed :=
  within_release h.waiting h.items

/-- Operators that are done are put in order, and others go on waiting. -/
theorem Within.shift? (h : y.Within allowed) (hl : allowed l) (hshift : y.shift? op l = some y') :
    y'.Within allowed := by
  obtain ⟨shifted, hshifted, rfl⟩ := Option.map_eq_some_iff.1 hshift
  have hwait : (y.wait op l).Within allowed :=
    ⟨List.forall_mem_cons.2 ⟨hl, h.waiting⟩, h.items⟩
  suffices hwithin : shifted.Within allowed from ⟨hwithin.waiting, hwithin.items⟩
  split at hshifted
  · obtain rfl := Option.some.inj hshifted
    exact hwait
  · obtain ⟨inside, l', outside, hwaiting, -, rfl⟩ := close?_eq_some hshifted
    have hwaits := h.waiting
    rw [hwaiting, List.forall_mem_append, List.forall_mem_cons] at hwaits
    obtain ⟨hinside, -, houtside⟩ := hwaits
    exact ⟨houtside, within_release hinside h.items⟩
  · obtain rfl := Option.some.inj hshifted
    exact ⟨h.waiting, List.forall_mem_cons.2 ⟨hl, h.items⟩⟩
  · obtain rfl := Option.some.inj hshifted
    exact ⟨h.waiting, List.forall_mem_cons.2 ⟨hl, h.items⟩⟩
  · obtain rfl := Option.some.inj hshifted
    exact hwait
  · obtain rfl := Option.some.inj hshifted
    have hdone := List.takeWhile_prefix (l := y.waiting)
      (decide <| op.precedence ≤ ·.1.precedence)
    have hsuffix := List.dropWhile_suffix (l := y.waiting)
      (decide <| op.precedence ≤ ·.1.precedence)
    exact ⟨List.forall_mem_cons.2 ⟨hl, fun x hx => h.waiting x (hsuffix.subset hx)⟩,
      within_release (fun x hx => h.waiting x (hdone.subset hx)) h.items⟩

end Yard

end Postfix

/-- What holds when the variable of a step has been looked up, and goes on holding when a line is
skipped or the end of a statement is expected, holds when the step has been read. -/
theorem Parser.step_induction {motive : Parser → Prop} {p q : Parser} {s : Statement}
    {terminated : Bool} (hstep : p.step terminated = .ok (s, q))
    (resolve : motive (p.advance.advance.resolve (p.next.identifier?.getD "") p.next.location).2)
    (synchronize : ∀ r, motive r → motive r.synchronize)
    (terminator : ∀ r, motive r → motive r.terminator.2) : motive q := by
  unfold step at hstep
  dsimp only at hstep
  split at hstep
  · simp [halt] at hstep
  · split at hstep
    next r hr =>
      rw [hr] at resolve
      obtain ⟨-, rfl⟩ := Prod.mk.inj (Except.ok.inj hstep)
      split
      · exact synchronize r resolve
      · exact resolve
    next v r hr =>
      rw [hr] at resolve
      have hend := terminator r resolve
      split at hstep
      · split at hstep
        next hu =>
          obtain ⟨-, rfl⟩ := Prod.mk.inj (Except.ok.inj hstep)
          rwa [hu] at hend
        next hu =>
          obtain ⟨-, rfl⟩ := Prod.mk.inj (Except.ok.inj hstep)
          rwa [hu] at hend
      · obtain ⟨-, rfl⟩ := Prod.mk.inj (Except.ok.inj hstep)
        exact resolve

namespace Scanner.Stable

open Postfix (Yard opened)

variable {allowed : Location → Prop} {inv : Scanner → Prop} (h : Stable allowed inv)
  {s : Scanner} {p q : Parser} {l : Location} {problem : Problem}

include h

/-! ### Lines -/

theorem skipLineWithin (hs : inv s) (n : Nat) : inv (Scanner.skipLineWithin n s) := by
  induction n generalizing s with
  | zero => exact hs
  | succ n ih =>
    unfold Scanner.skipLineWithin
    split
    · exact h.advance hs
    · exact ih (h.advance hs)

theorem synchronize (hp : inv p.scanner) : inv p.synchronize.scanner := by
  unfold Parser.synchronize
  split
  · split
    · exact hp
    · exact h.skipLineWithin hp _
  · exact h.skipLineWithin hp _

/-- An error is reported, and the rest of the line skipped. -/
theorem rejects (hp : inv p.scanner) (hl : allowed l) (hproblem : problem.isBracket = false) :
    inv (p.error l problem).synchronize.scanner :=
  h.synchronize (p := p.error l problem) (h.error hp hl hproblem)

theorem reject (hp : inv p.scanner) (hproblem : problem.isBracket = false) :
    inv (p.reject problem).scanner := by
  unfold Parser.reject
  split
  · exact h.advance hp
  · exact h.error (h.advance hp) (h.ahead hp 0) hproblem

/-! ### Names -/

theorem resolve (hp : inv p.scanner) (hl : allowed l) (name : String) :
    inv (p.resolve name l).2.scanner := by
  unfold Parser.resolve
  split
  · exact hp
  · exact h.error hp hl rfl

/-! ### Expressions -/

/-- What is collected, collected or not, keeps the invariant, and was found at allowed places. -/
theorem collect {terminal : Operator} {n : Nat} {y : Yard} (hp : inv p.scanner)
    (hy : y.Within allowed) :
    inv (Parser.collect terminal n y p).2.scanner ∧
      ∀ y' ∈ (Parser.collect terminal n y p).1, y'.Within allowed := by
  induction n generalizing y p with
  | zero => exact ⟨hp, by simp [Parser.collect]⟩
  | succ n ih =>
    have hfill : inv (p.fill 1).scanner := h.fill hp 1
    have hadvance : inv (p.fill 1).advance.scanner := h.advance hfill
    have hnext : allowed (p.fill 1).next.location := h.ahead hfill 0
    have hreject (problem : Problem) (hproblem : problem.isBracket = false) :
        inv ((p.fill 1).reject problem).scanner ∧
          ∀ y' ∈ (none : Option Yard), y'.Within allowed :=
      ⟨h.reject hfill hproblem, by simp⟩
    unfold Parser.collect
    dsimp only
    split
    · exact ⟨hfill, by rintro _ ⟨⟩; exact hy⟩
    · split
      · exact ih hadvance hy
      · exact hreject _ rfl
      · exact ih hadvance (hy.operand hnext)
      next name _ =>
        have hresolve := h.resolve hadvance hnext name
        split
        next v q hq =>
          rw [hq] at hresolve
          exact ih hresolve (hy.operand hnext)
        next q hq =>
          rw [hq] at hresolve
          exact ⟨hresolve, by simp⟩
      · exact hreject _ rfl
      · exact ⟨hadvance, by simp⟩
      · split
        · exact hreject _ rfl
        · split
          next y' hshift => exact ih hadvance (hy.shift? hnext hshift)
          · exact hreject _ rfl

theorem expression (hp : inv p.scanner) (terminal : Operator) :
    inv (p.expression terminal).2.scanner := by
  have hcollected : inv (Parser.collect terminal (p.remaining + 1) {} p).2.scanner ∧
      ∀ y ∈ (Parser.collect terminal (p.remaining + 1) {} p).1, y.Within allowed :=
    h.collect hp Yard.within_start
  obtain ⟨hq, hy⟩ := hcollected
  unfold Parser.expression
  dsimp only
  split
  next y q hcollect =>
    rw [hcollect] at hq hy
    unfold Parser.finishExpression
    split
    · split
      · exact hq
      next c hassemble =>
        have hc := Postfix.within_assemble (h.ahead hp 0) (hy y rfl).finish hassemble
        exact h.error hq hc.location hc.problem
    · obtain ⟨-, -, hpending⟩ := Parser.accepts_of_collect p.scanner.pending rfl hcollect
      rw [Postfix.openParentheses_eq]
      exact reportUnclosed_of_giveUp h.giveUp hq hpending
  next q hcollect =>
    rw [hcollect] at hq
    exact hq

theorem condition (hp : inv p.scanner) (terminal : Operator) :
    inv (p.condition terminal).2.scanner := by
  have hexpression := h.expression hp terminal
  unfold Parser.condition
  split
  next hq => rwa [hq] at hexpression
  next hq => rwa [hq] at hexpression

/-! ### Simple statements -/

theorem terminator (hp : inv p.scanner) : inv p.terminator.2.scanner := by
  have hfill : inv (p.fill 1).scanner := h.fill hp 1
  have hadvance : inv (p.fill 1).advance.scanner := h.advance hfill
  unfold Parser.terminator
  dsimp only
  split
  · exact hfill
  · split
    · exact hadvance
    · exact h.rejects hadvance (h.ahead hfill 0) rfl

theorem assignment (hp : inv p.scanner) : inv p.assignment.2.scanner := by
  have hname : inv p.advance.scanner := h.advance hp
  have hequals : inv p.advance.advance.scanner := h.advance hname
  have hplace : allowed p.next.location := h.ahead hp 0
  have hresolve := h.resolve hequals hplace (p.next.identifier?.getD "")
  unfold Parser.assignment
  dsimp only
  split
  · split
    next q hq =>
      rw [hq] at hresolve
      exact h.synchronize hresolve
    next v q hq =>
      rw [hq] at hresolve
      have hexpression := h.expression hresolve .semicolon
      split
      next r hr =>
        rw [hr] at hexpression
        exact h.synchronize hexpression
      next value r hr =>
        rw [hr] at hexpression
        have hend := h.terminator hexpression
        split
        next hu => rwa [hu] at hend
        next hu => rwa [hu] at hend
  · exact h.rejects hequals (h.ahead hname 0) rfl

theorem step {s : Statement} {terminated : Bool} (hp : inv p.scanner)
    (hstep : p.step terminated = .ok (s, q)) : inv q.scanner := by
  have hop : inv p.advance.advance.scanner := h.advance (h.advance hp)
  have hplace : allowed p.next.location := h.ahead hp 0
  have hresolve := h.resolve hop hplace (p.next.identifier?.getD "")
  exact Parser.step_induction (motive := fun r => inv r.scanner) hstep hresolve
    (fun _ hr => h.synchronize hr) fun _ hr => h.terminator hr

theorem named {s : Statement} (hp : inv p.scanner) (hnamed : p.named = .ok (s, q)) :
    inv q.scanner := by
  have hfill : inv (p.fill 2).scanner := h.fill hp 2
  unfold Parser.named at hnamed
  dsimp only at hnamed
  split at hnamed
  · split at hnamed
    · exact h.step hfill hnamed
    · have hassignment := h.assignment hfill
      rwa [Except.ok.inj hnamed] at hassignment
  · obtain ⟨-, rfl⟩ := Prod.mk.inj (Except.ok.inj hnamed)
    exact h.rejects (p := (p.fill 2).advance) (h.advance hfill) (h.ahead hfill 1) rfl

/-! ### The clauses of a loop -/

theorem headerSemicolon (hp : inv p.scanner) (clause : HeaderClause) :
    inv (p.headerSemicolon clause).2.scanner := by
  have hadvance : inv p.advance.scanner := h.advance hp
  unfold Parser.headerSemicolon
  dsimp only
  split
  · exact hadvance
  · exact h.rejects hadvance (h.ahead hp 0) rfl

theorem loopCondition (hp : inv p.scanner) : inv p.loopCondition.2.scanner := by
  have hfill : inv (p.fill 1).scanner := h.fill hp 1
  have hcondition := h.condition hfill .semicolon
  unfold Parser.loopCondition
  dsimp only
  split
  · exact h.advance hfill
  · split
    next q hq =>
      rw [hq] at hcondition
      exact h.synchronize hcondition
    next q hq =>
      rw [hq] at hcondition
      have hsemicolon := h.headerSemicolon hcondition .condition
      split
      next hr => rwa [hr] at hsemicolon
      next hr => rwa [hr] at hsemicolon

theorem loopIncrement {increment : Option (Option Statement)} (hp : inv p.scanner)
    (hincrement : p.loopIncrement = .ok (increment, q)) : inv q.scanner := by
  have hfill : inv (p.fill 1).scanner := h.fill hp 1
  have htwo : inv ((p.fill 1).fill 2).scanner := h.fill hfill 2
  unfold Parser.loopIncrement at hincrement
  dsimp only at hincrement
  split at hincrement
  · obtain ⟨-, rfl⟩ := Prod.mk.inj (Except.ok.inj hincrement)
    exact hfill
  · split at hincrement
    · obtain ⟨⟨s, r⟩, hstep, hrest⟩ := Parser.bind_eq_ok.1 hincrement
      have hr := h.step htwo hstep
      dsimp only at hrest
      split at hrest
      · obtain ⟨-, rfl⟩ := Prod.mk.inj (Except.ok.inj hrest)
        exact h.synchronize hr
      · obtain ⟨-, rfl⟩ := Prod.mk.inj (Except.ok.inj hrest)
        exact hr
    · obtain ⟨-, rfl⟩ := Prod.mk.inj (Except.ok.inj hincrement)
      exact h.rejects (p := ((p.fill 1).fill 2).advance) (h.advance htwo) (h.ahead htwo 1) rfl

end Scanner.Stable

/-! ### Variables in sight -/

namespace Parser

/-- The scanner has a property, and the variables in sight are where something can be seen. -/
structure Upholds (sighted : Location → Prop) (inv : Scanner → Prop) (p : Parser) : Prop where
  scanner : inv p.scanner
  sight : ∀ v ∈ p.scopes.inSight, sighted v.location

theorem scanner_of_leave {p q : Parser} {scope : Scope Statement} (h : p.leave = .ok (scope, q)) :
    q.scanner = p.scanner := by
  unfold leave at h
  split at h
  · obtain ⟨-, rfl⟩ := Prod.mk.inj (Except.ok.inj h)
    rfl
  · contradiction

namespace Upholds

variable {sighted : Location → Prop} {inv : Scanner → Prop} {p q : Parser}

/-- What leaves the scopes as they are has to keep the property only. -/
theorem of_scopes (h : p.Upholds sighted inv) (hscopes : q.scopes = p.scopes)
    (hq : inv q.scanner) : q.Upholds sighted inv where
  scanner := hq
  sight := by
    rw [hscopes]
    exact h.sight

theorem enter (h : p.Upholds sighted inv) : p.enter.Upholds sighted inv where
  scanner := h.scanner
  sight := by
    rw [inSight_scopes_enter]
    exact h.sight

theorem push (h : p.Upholds sighted inv) (s : Statement) : (p.push s).Upholds sighted inv where
  scanner := h.scanner
  sight := by
    have hpush : (p.push s).scopes.inSight = p.scopes.inSight := p.scopes.inSight_push s
    rw [hpush]
    exact h.sight

theorem pop (h : p.Upholds sighted inv) : p.pop.2.Upholds sighted inv where
  scanner := h.scanner
  sight := by
    have hpop : p.pop.2.scopes.inSight = p.scopes.inSight := p.scopes.inSight_pop
    rw [hpop]
    exact h.sight

/-- Less is in sight when a scope was left. -/
theorem leave {scope : Scope Statement} (h : p.Upholds sighted inv)
    (hleave : p.leave = .ok (scope, q)) : q.Upholds sighted inv where
  scanner := by
    rw [scanner_of_leave hleave]
    exact h.scanner
  sight v hv := by
    unfold Parser.leave at hleave
    split at hleave
    next hscopes =>
      obtain ⟨-, rfl⟩ := Prod.mk.inj (Except.ok.inj hleave)
      exact h.sight v (ScopeChain.inSight_leave? hscopes hv)
    · contradiction

end Upholds

/-- The reader upholds a property of scanners. -/
def StatementsUphold (sighted : Location → Prop) (inv : Scanner → Prop)
    (statement : Parser → Except Halt (Statement × Parser)) : Prop :=
  ∀ ⦃p s q⦄, p.Upholds sighted inv → statement p = .ok (s, q) → q.Upholds sighted inv

/-- The reader of bodies upholds a property of scanners. -/
def BodiesUphold (sighted : Location → Prop) (inv : Scanner → Prop)
    (body : Parser → Except Halt Parser) : Prop :=
  ∀ ⦃p q⦄, p.Upholds sighted inv → body p = .ok q → q.Upholds sighted inv

end Parser

/-! ### Declarations and block statements -/

namespace Scanner.SightedInvariant

open FloatLang.Parser (StatementsUphold BodiesUphold)

variable {allowed sighted : Location → Prop} {inv : Scanner → Prop}
  (h : SightedInvariant allowed sighted inv) {p q : Parser} {s : Statement} {l : Location}
  {body : Parser → Except Halt Parser}
  {statement : Parser → Except Halt (Statement × Parser)}

include h

/-- A declaration adds a variable at an allowed place, or reports one in sight. -/
theorem define {v : Option Variable} {name : String} (hp : p.Upholds sighted inv) (hl : allowed l)
    (hdefine : p.define name l = (v, q)) : q.Upholds sighted inv := by
  unfold Parser.define at hdefine
  split at hdefine
  next v scopes hscopes =>
    obtain ⟨-, rfl⟩ := Prod.mk.inj hdefine
    obtain ⟨rfl, -, rfl⟩ := ScopeChain.define_eq_ok hscopes
    refine ⟨hp.scanner, ?_⟩
    rw [ScopeChain.inSight_grow, List.forall_mem_append]
    exact ⟨hp.sight, by simpa using h.sight hl⟩
  next r hr =>
    obtain ⟨-, rfl⟩ := Prod.mk.inj hdefine
    obtain ⟨hresolve, rfl⟩ := ScopeChain.define_eq_error hr
    have hprevious := hp.sight r.previous (ScopeChain.mem_inSight_of_resolve? hresolve)
    exact hp.of_scopes rfl (h.remind _ (h.error hp.scanner hl rfl) hprevious)

theorem declaration (hp : p.Upholds sighted inv) (hdeclaration : p.declaration = (s, q)) :
    q.Upholds sighted inv := by
  have hname : (p.advance.fill 1).Upholds sighted inv :=
    hp.of_scopes rfl (h.fill (h.advance hp.scanner) 1)
  unfold Parser.declaration at hdeclaration
  dsimp only at hdeclaration
  generalize p.advance.fill 1 = named at hname hdeclaration
  have hplace : allowed named.next.location := h.ahead hname.scanner 0
  have hfill : (named.fill 2).Upholds sighted inv :=
    hname.of_scopes rfl (h.fill hname.scanner 2)
  split at hdeclaration
  · obtain ⟨-, rfl⟩ := Prod.mk.inj hdeclaration
    exact hname.of_scopes (Parser.fails_error named _ _).givesUp.scopes
      (h.rejects hname.scanner hplace rfl)
  · split at hdeclaration
    · -- the end of the statement is read before its name is declared
      have hend : ((named.fill 2).advance.terminator.2).Upholds sighted inv :=
        hfill.of_scopes (Parser.keeps_terminator _).scopes
          (h.terminator (p := (named.fill 2).advance) (h.advance hfill.scanner))
      split at hdeclaration
      next hdefine =>
        obtain ⟨-, rfl⟩ := Prod.mk.inj hdeclaration
        exact h.define hend hplace hdefine
      next hdefine =>
        obtain ⟨-, rfl⟩ := Prod.mk.inj hdeclaration
        exact h.define hend hplace hdefine
    · split at hdeclaration
      next r hdefine =>
        obtain ⟨-, rfl⟩ := Prod.mk.inj hdeclaration
        have hr := h.define hfill hplace hdefine
        exact hr.of_scopes (Parser.spares_assignment (Prod.eta _).symm).scopes
          (h.assignment hr.scanner)
      next r hdefine =>
        obtain ⟨-, rfl⟩ := Prod.mk.inj hdeclaration
        have hr := h.define hfill hplace hdefine
        exact hr.of_scopes r.keeps_synchronize.scopes (h.synchronize hr.scanner)

theorem branchWith (hbody : BodiesUphold sighted inv body) :
    StatementsUphold sighted inv (Parser.branchWith body) := by
  intro p s q hp hbranch
  have hcondition := h.condition (p := p.advance) (h.advance hp.scanner) .leftBrace
  unfold Parser.branchWith at hbranch
  dsimp only at hbranch
  split at hbranch
  next r hr =>
    rw [hr] at hcondition
    obtain ⟨-, rfl⟩ := Prod.mk.inj (Except.ok.inj hbranch)
    exact hp.of_scopes (Parser.fails_condition hr).givesUp.scopes (h.synchronize hcondition)
  next condition r hr =>
    rw [hr] at hcondition
    have hbrace : r.advance.Upholds sighted inv :=
      hp.of_scopes (Parser.keeps_condition hr).scopes (h.advance hcondition)
    split at hbranch
    · obtain ⟨⟨scope, u⟩, hblock, hu⟩ := Parser.bind_eq_ok.1 hbranch
      obtain ⟨-, rfl⟩ := Prod.mk.inj (Except.ok.inj hu)
      obtain ⟨v, hv, hleave⟩ := Parser.bind_eq_ok.1 hblock
      exact (hbody hbrace.enter hv).leave hleave
    · obtain ⟨-, rfl⟩ := Prod.mk.inj (Except.ok.inj hbranch)
      exact hbrace.of_scopes (Parser.fails_error _ _ _).givesUp.scopes
        (h.rejects hbrace.scanner (h.ahead hcondition 0) rfl)

theorem loopInit {complete : Bool} (hstatement : StatementsUphold sighted inv statement)
    (hp : p.Upholds sighted inv) (hinit : Parser.loopInit statement p = .ok (complete, q)) :
    q.Upholds sighted inv := by
  have hfill : (p.fill 1).Upholds sighted inv := hp.of_scopes rfl (h.fill hp.scanner 1)
  unfold Parser.loopInit at hinit
  dsimp only at hinit
  split at hinit
  · obtain ⟨-, rfl⟩ := Prod.mk.inj (Except.ok.inj hinit)
    exact hfill.of_scopes rfl (h.advance hfill.scanner)
  · obtain ⟨⟨s, r⟩, hs, hrest⟩ := Parser.bind_eq_ok.1 hinit
    have hr : r.Upholds sighted inv := hstatement hfill hs
    dsimp only at hrest
    split at hrest
    · obtain ⟨-, rfl⟩ := Prod.mk.inj (Except.ok.inj hrest)
      exact hr
    · split at hrest
      · have hsemicolon := Except.ok.inj hrest
        have hq := h.headerSemicolon (p := r.push s) hr.scanner .init
        rw [hsemicolon] at hq
        exact (hr.push s).of_scopes (Parser.keeps_of_headerSemicolon hsemicolon).scopes hq
      · obtain ⟨-, rfl⟩ := Prod.mk.inj (Except.ok.inj hrest)
        exact hr.push s

theorem loopHeaderWith {header : Option Parser.LoopHeader}
    (hstatement : StatementsUphold sighted inv statement) (hp : p.Upholds sighted inv)
    (hheader : Parser.loopHeaderWith statement p = .ok (header, q)) : q.Upholds sighted inv := by
  obtain ⟨complete, r, hinit, hsteps⟩ := Parser.loopHeader_steps hheader
  have hr := h.loopInit hstatement hp hinit
  have hscopes : q.scopes = r.scopes := by
    cases complete with
    | false => rw [hsteps.2]
    | true =>
      rcases hsteps with ⟨-, hgives⟩ | ⟨_, _, _, -, -, -, -, hkeeps⟩
      · exact hgives.scopes
      · exact hkeeps.scopes
  refine hr.of_scopes hscopes ?_
  -- what comes after the first clause declares nothing
  obtain ⟨⟨complete, r⟩, hinit', hrest⟩ := Parser.bind_eq_ok.1 hheader
  obtain ⟨rfl, rfl⟩ := Prod.mk.inj (Except.ok.inj (hinit'.symm.trans hinit))
  cases complete with
  | false =>
    obtain ⟨-, rfl⟩ := Prod.mk.inj (Except.ok.inj hrest)
    exact hr.scanner
  | true =>
    have hcondition := h.loopCondition hr.scanner
    dsimp only at hrest
    split at hrest
    next u hu =>
      obtain ⟨-, rfl⟩ := Prod.mk.inj (Except.ok.inj hrest)
      rwa [hu] at hcondition
    next condition u hu =>
      rw [hu] at hcondition
      obtain ⟨⟨increment, v⟩, hincrement, hend⟩ := Parser.bind_eq_ok.1 hrest
      have hv := h.loopIncrement hcondition hincrement
      cases increment with
      | none =>
        obtain ⟨-, rfl⟩ := Prod.mk.inj (Except.ok.inj hend)
        exact hv
      | some increment =>
        have hbrace : inv v.advance.scanner := h.advance hv
        dsimp only at hend
        split at hend
        · obtain ⟨-, rfl⟩ := Prod.mk.inj (Except.ok.inj hend)
          exact hbrace
        · obtain ⟨-, rfl⟩ := Prod.mk.inj (Except.ok.inj hend)
          exact h.rejects hbrace (h.ahead hv 0) rfl

theorem loopWith (hbody : BodiesUphold sighted inv body)
    (hstatement : StatementsUphold sighted inv statement) :
    StatementsUphold sighted inv (Parser.loopWith body statement) := by
  intro p s q hp hloop
  have hkeyword : p.advance.Upholds sighted inv := hp.of_scopes rfl (h.advance hp.scanner)
  obtain ⟨⟨header, r⟩, hheader, hrest⟩ := Parser.bind_eq_ok.1 hloop
  have hr := h.loopHeaderWith hstatement hkeyword.enter hheader
  cases header with
  | none =>
    obtain ⟨⟨scope, u⟩, hleave, hu⟩ := Parser.bind_eq_ok.1 hrest
    obtain ⟨-, rfl⟩ := Prod.mk.inj (Except.ok.inj hu)
    exact hr.leave hleave
  | some header =>
    obtain ⟨u, hu, hend⟩ := Parser.bind_eq_ok.1 hrest
    obtain ⟨⟨scope, v⟩, hleave, hv⟩ := Parser.bind_eq_ok.1 hend
    obtain ⟨-, rfl⟩ := Prod.mk.inj (Except.ok.inj hv)
    exact (hbody hr.pop hu).leave hleave

/-! ### Statements, bodies and programs -/

/-- Whatever is read upholds an invariant, whatever the bound on the nesting. -/
theorem within (n : Nat) :
    StatementsUphold sighted inv (Parser.statementWithin n) ∧
      ∀ top, BodiesUphold sighted inv (Parser.bodyWithin n top) := by
  -- one induction for both readers, since each calls the other with a smaller bound
  induction n with
  | zero =>
    refine ⟨fun p s q _ hq => ?_, fun top p q _ hq => ?_⟩
    · simp [Parser.statementWithin, Parser.halt] at hq
    · simp [Parser.bodyWithin, Parser.halt] at hq
  | succ n ih =>
    obtain ⟨ihStatement, ihBody⟩ := ih
    refine ⟨fun p s q hp hq => ?_, fun top p q hp hq => ?_⟩
    · have hfill : (p.fill 1).Upholds sighted inv := hp.of_scopes rfl (h.fill hp.scanner 1)
      unfold Parser.statementWithin at hq
      dsimp only at hq
      split at hq
      · exact h.declaration hfill (Except.ok.inj hq)
      · exact h.branchWith (ihBody false) hfill hq
      · exact h.loopWith (ihBody false) ihStatement hfill hq
      · exact hfill.of_scopes (Parser.spares_named hq).scopes (h.named hfill.scanner hq)
      · obtain ⟨-, rfl⟩ := Prod.mk.inj (Except.ok.inj hq)
        exact hfill.of_scopes (Parser.spares_rejectStatement _).scopes
          (h.synchronize (h.reject hfill.scanner rfl))
    · have hfill : (p.fill 1).Upholds sighted inv := hp.of_scopes rfl (h.fill hp.scanner 1)
      have hadvance : (p.fill 1).advance.Upholds sighted inv :=
        hfill.of_scopes rfl (h.advance hfill.scanner)
      cases Parser.bodyWithin_succ.1 hq with
      | ends hends =>
        cases hends with
        | brace _ => exact hadvance
        | endOfFile _ => exact hfill
        | program _ => exact hfill.of_scopes rfl (flush_of_giveUp h.giveUp hfill.scanner)
      | blank _ hrest => exact ihBody top hadvance hrest
      | stray _ _ hrest => exact ihBody top hadvance hrest
      | statement s r _ hs hrest =>
        have hr := ihStatement hfill hs
        split at hrest
        · exact ihBody top hr hrest
        · exact ihBody top (hr.push s) hrest

end Scanner.SightedInvariant

namespace Parser

/-- The reader keeps a property of scanners. -/
def StatementsKeep (inv : Scanner → Prop)
    (statement : Parser → Except Halt (Statement × Parser)) : Prop :=
  ∀ ⦃p s q⦄, inv p.scanner → statement p = .ok (s, q) → inv q.scanner

/-- The reader of bodies keeps a property of scanners. -/
def BodiesKeep (inv : Scanner → Prop) (body : Parser → Except Halt Parser) : Prop :=
  ∀ ⦃p q⦄, inv p.scanner → body p = .ok q → inv q.scanner

end Parser

/-- Whatever is read keeps an invariant, whatever is in sight. -/
theorem Scanner.Invariant.within {allowed : Location → Prop} {inv : Scanner → Prop}
    (h : Invariant allowed inv) (n : Nat) :
    Parser.StatementsKeep inv (Parser.statementWithin n) ∧
      ∀ top, Parser.BodiesKeep inv (Parser.bodyWithin n top) := by
  obtain ⟨hstatement, hbody⟩ := h.sighted.within n
  exact ⟨fun _ _ _ hp hq => (hstatement ⟨hp, fun _ _ => trivial⟩ hq).scanner,
    fun top _ _ hp hq => (hbody top ⟨hp, fun _ _ => trivial⟩ hq).scanner⟩

end FloatLang
