import FloatLang.Proofs.Parser.Success
import FloatLang.Proofs.Scanner.Places
import FloatLang.Proofs.Tree.Tables

/-!
# Scopes are numbered in the order of the text

A scope takes its number when it is entered, and the scope around it for its parent: an `if` after
its condition, a `for` already before its first clause, which then lies in the scope of the loop
although it is taken out of it again. A header that fails uses up the numbers of the scopes it has
entered. So numbers may be left out, but in what is left in the tree they still ascend with the
text, and every scope has that scope for its parent that holds the statement it belongs to.

## Main definitions

* `Ascending` — numbers that grow within bounds
* `Scope.held` — the statements that a scope holds directly
* `Scope.Holds` — a scope holds its statements in order, and is the parent of the scopes they own
* `Statement.Arranged` — statements in a row, with everything nested in them
* `Parser.Orders` — what reading statements in order leaves behind

## Main results

* `Statement.arranged_block` — a block statement, from what its scope holds
* `Parser.orders_branch`, `Parser.orders_loop` — block statements, over any readers of their parts
* `Parser.orders_within` — all statements and bodies
* `Parser.scopes_in_order` — the scopes of every program
-/

namespace FloatLang

/-- The numbers ascend, from `lo` on and below `hi`. -/
inductive Ascending : Nat → Nat → List Nat → Prop
  | nil {lo hi : Nat} (h : lo ≤ hi) : Ascending lo hi []
  | cons {lo hi n : Nat} {ns : List Nat} (h : lo ≤ n) (hrest : Ascending (n + 1) hi ns) :
      Ascending lo hi (n :: ns)

namespace Ascending

variable {lo m hi n : Nat} {ns ns' : List Nat}

theorem le (h : Ascending lo hi ns) : lo ≤ hi := by
  induction h with
  | nil h => exact h
  | cons h _ ih => exact Nat.le_trans (Nat.le_succ_of_le h) ih

theorem of_le (h : Ascending m hi ns) (hlo : lo ≤ m) : Ascending lo hi ns := by
  cases h with
  | nil h => exact .nil (Nat.le_trans hlo h)
  | cons h hrest => exact .cons (Nat.le_trans hlo h) hrest

theorem append (h : Ascending lo m ns) (h' : Ascending m hi ns') : Ascending lo hi (ns ++ ns') := by
  induction h with
  | nil h => exact h'.of_le h
  | cons h _ ih => exact .cons h (ih h')

theorem le_of_mem (h : Ascending lo hi ns) (hn : n ∈ ns) : lo ≤ n := by
  induction h with
  | nil _ => exact absurd hn List.not_mem_nil
  | cons h _ ih =>
    rcases List.mem_cons.1 hn with rfl | hn
    · exact h
    · exact Nat.le_trans (Nat.le_succ_of_le h) (ih hn)

theorem pairwise (h : Ascending lo hi ns) : ns.Pairwise (· < ·) := by
  induction h with
  | nil _ => exact .nil
  | cons _ hrest ih => exact .cons (fun _ hn => hrest.le_of_mem hn) ih

end Ascending

/-! ### Trees -/

/-- The statements that a scope holds directly; `init` is the first clause of the loop it belongs
to. -/
def Scope.held (init : Option Statement) (scope : Scope Statement) : List Statement :=
  init.toList ++ scope.statements

/-- The scope is the parent of every scope that a statement in it owns, and every statement in it
stands further on than the one before. -/
structure Scope.Holds (init : Option Statement) (scope : Scope Statement) : Prop where
  parent : ∀ s ∈ scope.held init, ∀ own ∈ s.owned?, own.2.parent? = some scope.id
  places : ((scope.held init).map (·.location.offset)).Pairwise (· < ·)

namespace Statement

/-- The statement, unless it stands for an error. -/
def kept (s : Statement) : List Statement := if s.isInvalid then [] else [s]

theorem kept_eq {s : Statement} (h : s.isInvalid = false) : s.kept = [s] := by
  rw [kept, h, if_neg Bool.false_ne_true]

theorem owned?_eq_none {s : Statement} (h : s.nested = []) : s.owned? = none :=
  List.filterMap_eq_nil_iff.1 h s (mem_parts_self s)

/-- Statements in a row in the scope of number `holder`: they stand from the offset `a` on and
before `b`, and the scopes nested in them have numbers from `lo` on and below `hi`. -/
structure Arranged (holder lo hi a b : Nat) (ss : List Statement) : Prop where
  ids : Ascending lo hi ((nestedAll ss).map (·.2.id))
  places : Ascending a b (ss.map (·.location.offset))
  parent : ∀ s ∈ ss, ∀ own ∈ s.owned?, own.2.parent? = some holder
  holds : ∀ own ∈ nestedAll ss, own.2.Holds own.1
  owner : ∀ own ∈ nestedAll ss, (∃ s ∈ ss, s.owned? = some own) ∨
    ∃ outer ∈ nestedAll ss, ∃ s ∈ outer.2.held outer.1, s.owned? = some own

variable {holder lo m hi a b c : Nat} {s : Statement} {ss ss' : List Statement}

theorem arranged_nil (hid : lo ≤ hi) (hplace : a ≤ b) : Arranged holder lo hi a b [] where
  ids := .nil hid
  places := .nil hplace
  parent _ h := absurd h List.not_mem_nil
  holds _ h := absurd h List.not_mem_nil
  owner _ h := absurd h List.not_mem_nil

theorem Arranged.append (h : Arranged holder lo m a b ss) (h' : Arranged holder m hi b c ss') :
    Arranged holder lo hi a c (ss ++ ss') where
  ids := by
    rw [nestedAll_append, List.map_append]
    exact h.ids.append h'.ids
  places := by
    rw [List.map_append]
    exact h.places.append h'.places
  parent s hs := by
    rcases List.mem_append.1 hs with hs | hs
    · exact h.parent s hs
    · exact h'.parent s hs
  holds own hown := by
    rw [nestedAll_append, List.mem_append] at hown
    rcases hown with hown | hown
    · exact h.holds own hown
    · exact h'.holds own hown
  owner own hown := by
    rw [nestedAll_append] at hown ⊢
    rcases List.mem_append.1 hown with hown | hown
    · rcases h.owner own hown with ⟨s, hs, hsown⟩ | ⟨outer, houter, hsown⟩
      · exact .inl ⟨s, List.mem_append_left _ hs, hsown⟩
      · exact .inr ⟨outer, List.mem_append_left _ houter, hsown⟩
    · rcases h'.owner own hown with ⟨s, hs, hsown⟩ | ⟨outer, houter, hsown⟩
      · exact .inl ⟨s, List.mem_append_right _ hs, hsown⟩
      · exact .inr ⟨outer, List.mem_append_right _ houter, hsown⟩

/-- A scope whose statements are arranged with its own number holds them. -/
theorem Arranged.holds_of_held {init : Option Statement} {scope : Scope Statement}
    (h : Arranged scope.id lo hi a b (scope.held init)) : scope.Holds init where
  parent := h.parent
  places := h.places.pairwise

/-- A statement without scopes. -/
theorem arranged_simple (hnested : s.nested = []) (hid : lo ≤ hi) (ha : a ≤ s.location.offset)
    (hb : s.location.offset < b) : Arranged holder lo hi a b [s] := by
  have hall : nestedAll [s] = [] := by rw [nestedAll_cons, hnested]; rfl
  refine ⟨?_, .cons ha (.nil hb), fun s' hs' own hown => ?_, ?_, ?_⟩
  · rw [hall]
    exact .nil hid
  · rw [List.mem_singleton.1 hs', owned?_eq_none hnested] at hown
    contradiction
  · simp [hall]
  · simp [hall]

/-- A statement that owns a scope, which was numbered before everything in it. -/
theorem arranged_block {init : Option Statement} {scope : Scope Statement}
    (hown : s.owned? = some (init, scope))
    (hnested : s.nested = (init, scope) :: nestedAll (scope.held init))
    (hparent : scope.parent? = some holder) (ha : a ≤ s.location.offset)
    (hlt : s.location.offset < c)
    (h : Arranged scope.id (scope.id + 1) hi c b (scope.held init)) :
    Arranged holder scope.id hi a b [s] := by
  have hall : nestedAll [s] = (init, scope) :: nestedAll (scope.held init) := by
    rw [nestedAll_cons, hnested]
    exact List.append_nil _
  have hlt' := Nat.lt_of_lt_of_le hlt h.places.le
  refine ⟨?_, .cons ha (.nil hlt'), fun s' hs' own hown' => ?_, ?_, ?_⟩
  · rw [hall]
    exact .cons (Nat.le_refl _) h.ids
  · rw [List.mem_singleton.1 hs', hown] at hown'
    obtain rfl := Option.some.inj hown'
    exact hparent
  · rw [hall]
    intro own hmem
    rcases List.mem_cons.1 hmem with rfl | hmem
    · exact h.holds_of_held
    · exact h.holds own hmem
  · rw [hall]
    intro own hmem
    rcases List.mem_cons.1 hmem with rfl | hmem
    · exact .inl ⟨s, List.mem_singleton_self s, hown⟩
    · rcases h.owner own hmem with hdirect | ⟨outer, houter, hheld⟩
      · exact .inr ⟨_, List.mem_cons_self, hdirect⟩
      · exact .inr ⟨outer, List.mem_cons_of_mem _ houter, hheld⟩

end Statement

namespace ScopeChain

theorem id_current_grow (c : ScopeChain) (vs : List Variable) (ss : List Statement) (k : Nat) :
    (c.grow vs ss k).current.id = c.current.id := by
  obtain ⟨inner, outermost, nextId⟩ := c
  cases inner <;> rfl

end ScopeChain

namespace Parser

open Statement (Arranged)

variable {source : Source} {i : Nat} {p q r : Parser} {s : Statement} {ss added : List Statement}

/-- Where the next token stands. -/
def offset (p : Parser) : Nat := p.next.location.offset

theorem offset_congr (h : q.scanner = p.scanner) : q.offset = p.offset := by
  rw [offset, offset, next, next, h]

theorem Stands.offset_le (hp : p.Stands source i) (h : p.Reaches q) : p.offset ≤ q.offset := by
  obtain ⟨j, hij, hq⟩ := hp.reaches h
  rw [offset, offset, hp.next, hq.next]
  exact source.offset_tokenAt_le hij

/-- A token that is passed stands before those after it. -/
theorem Stands.offset_lt (hp : p.Stands source i) (h : p.Passes q)
    (hnext : p.next.isEndOfFile = false) : p.offset < q.offset := by
  obtain ⟨j, hij, hq⟩ := hp.passes h
  rw [hp.next] at hnext
  rw [offset, offset, hp.next, hq.next]
  exact Source.offset_lt hnext hij

/-- The parser `q` comes from `p` by reading the statements `ss` in order, and adding the statements
`added` to the current scope. -/
structure Orders (source : Source) (p : Parser) (ss added : List Statement) (q : Parser) :
    Prop where
  scopes : ∃ vs, q.scopes = p.scopes.grow vs added q.scopes.nextId
  stands : ∃ j, q.Stands source j
  arranged : Arranged p.scopes.current.id p.scopes.nextId q.scopes.nextId p.offset q.offset ss

theorem Keeps.orders (h : p.Keeps q) (hp : p.Stands source i) : Orders source p [] [] q where
  scopes := ⟨[], by rw [h.scopes, ScopeChain.grow_nil]⟩
  stands := by
    obtain ⟨j, -, hq⟩ := hp.reaches h.reaches
    exact ⟨j, hq⟩
  arranged := Statement.arranged_nil (by rw [h.scopes]) (hp.offset_le h.reaches)

theorem Orders.id_current (h : Orders source p ss added q) :
    q.scopes.current.id = p.scopes.current.id := by
  obtain ⟨vs, hscopes⟩ := h.scopes
  rw [hscopes, ScopeChain.id_current_grow]

theorem Orders.trans {ss' added' : List Statement} (h : Orders source p ss added q)
    (h' : Orders source q ss' added' r) : Orders source p (ss ++ ss') (added ++ added') r where
  scopes := by
    obtain ⟨vs, hq⟩ := h.scopes
    obtain ⟨vs', hr⟩ := h'.scopes
    refine ⟨vs ++ vs', ?_⟩
    rw [hq, ScopeChain.grow_grow] at hr
    exact hr
  stands := h'.stands
  arranged := by
    have harranged := h'.arranged
    rw [h.id_current] at harranged
    exact h.arranged.append harranged

theorem Orders.keeps (h : Orders source p ss added q) (hr : q.Keeps r) :
    Orders source p ss added r := by
  obtain ⟨j, hq⟩ := h.stands
  have hall := h.trans (hr.orders hq)
  rwa [List.append_nil, List.append_nil] at hall

/-- What was read may be forgotten. -/
theorem Orders.forget (h : Orders source p ss added q) : Orders source p [] added q where
  scopes := h.scopes
  stands := h.stands
  arranged := Statement.arranged_nil h.arranged.ids.le h.arranged.places.le

theorem nextId_push (q : Parser) (s : Statement) :
    (q.push s).scopes.nextId = q.scopes.nextId := by
  change (q.scopes.push s).nextId = _
  rw [ScopeChain.push_eq]
  rfl

/-- A statement that was read is added to the current scope. -/
theorem Orders.push (h : Orders source p [s] [] q) : Orders source p [s] [s] (q.push s) where
  scopes := by
    obtain ⟨vs, hscopes⟩ := h.scopes
    refine ⟨vs, ?_⟩
    rw [nextId_push]
    change q.scopes.push s = _
    rw [ScopeChain.push_eq, hscopes, ScopeChain.grow_grow, List.append_nil]
    rfl
  stands := by
    obtain ⟨j, hq⟩ := h.stands
    exact ⟨j, hq.push s⟩
  arranged := by
    rw [nextId_push]
    exact h.arranged

/-- Whatever the reader reads is in order. -/
def StatementsOrdered (source : Source) (statement : Parser → Except Halt (Statement × Parser)) :
    Prop :=
  ∀ ⦃i p s q⦄, p.Stands source i → statement p = .ok (s, q) → Orders source p s.kept [] q

/-- Whatever the reader reads into the current scope is in order. -/
def BodiesOrdered (source : Source) (body : Parser → Except Halt Parser) : Prop :=
  ∀ ⦃i p q⦄, p.Stands source i → body p = .ok q → ∃ ss, Orders source p ss ss q

/-! ### Simple statements -/

/-- A statement without scopes stands at a token that is passed. -/
theorem orders_simple {vs : List Variable} (hp : p.Stands source i) (hr : p.Reaches r)
    (hpasses : r.Passes q) (hnext : r.next.isEndOfFile = false)
    (hscopes : q.scopes = p.scopes.grow vs [] p.scopes.nextId) (hnested : s.nested = [])
    (hlocation : s.location = r.next.location) : Orders source p [s] [] q := by
  obtain ⟨j, -, hstands⟩ := hp.reaches hr
  obtain ⟨j', -, hstands'⟩ := hp.reaches (hr.trans hpasses.reaches)
  have hid : q.scopes.nextId = p.scopes.nextId := by rw [hscopes]; rfl
  refine ⟨⟨vs, by rw [hid, hscopes]⟩, ⟨j', hstands'⟩, ?_⟩
  rw [hid]
  apply Statement.arranged_simple hnested (Nat.le_refl _)
  · rw [hlocation]
    exact hp.offset_le hr
  · rw [hlocation]
    exact hstands.offset_lt hpasses hnext

theorem orders_assignment {x : String} (hp : p.Stands source i)
    (hkind : p.next.kind = .identifier x) (h : p.assignment = (s, q)) :
    Orders source p s.kept [] q := by
  rcases assignment_cases hp hkind h with
    ⟨l, rfl, hfails⟩ | ⟨v, value, l, j, rfl, -, hkeeps, -, -⟩
  · exact hfails.toKeeps.orders hp
  · obtain ⟨_, _, _, -, -, -, -, hs⟩ := assignment_eq_read.1 ⟨h, rfl⟩
    obtain ⟨-, -, rfl⟩ := Statement.assign.inj hs
    have hpasses := p.passes_assignment
    rw [h] at hpasses
    exact orders_simple hp (.refl p) hpasses (Token.isEndOfFile_of_kind hkind (by simp)) hkeeps.grow
      rfl rfl

theorem orders_step {x : String} (hp : p.Stands source i) (hkind : p.next.kind = .identifier x)
    (h : p.step true = .ok (s, q)) : Orders source p s.kept [] q := by
  rcases step_cases h with ⟨l, rfl, hfails, -⟩ | ⟨d, v, -, -, rfl, -, hkeeps, hpasses⟩
  · exact hfails.toKeeps.orders hp
  · exact orders_simple hp (.refl p) hpasses (Token.isEndOfFile_of_kind hkind (by simp)) hkeeps.grow
      rfl rfl

theorem orders_named {x : String} (hp : p.Stands source i) (hkind : p.next.kind = .identifier x)
    (h : p.named = .ok (s, q)) : Orders source p s.kept [] q := by
  have hfill : (p.fill 2).next.kind = .identifier x := by rwa [next_fill]
  have hfirst := (p.keeps_fill 2).orders hp
  rcases named_cases h with ⟨l, rfl, hgives⟩ | hstep | hassignment
  · exact hfirst.trans (hgives.toKeeps.orders (hp.fill 2))
  · exact hfirst.trans (orders_step (hp.fill 2) hfill hstep)
  · exact hfirst.trans (orders_assignment (hp.fill 2) hfill hassignment)

/-- What is assigned has no scopes, and leaves those of the parser as they are. -/
theorem keeps_assignment {x : String} (hp : p.Stands source i)
    (hkind : p.next.kind = .identifier x) (h : p.assignment = (s, q)) :
    p.Keeps q ∧ s.nested = [] := by
  rcases assignment_cases hp hkind h with
    ⟨l, rfl, hfails⟩ | ⟨v, value, l, j, rfl, -, hkeeps, -, -⟩
  · exact ⟨hfails.toKeeps, rfl⟩
  · exact ⟨hkeeps, rfl⟩

/-- A declaration stands at its name, and one with a value at its keyword. -/
theorem orders_declaration (hp : p.Stands source i) (hkeyword : p.next.kind = .keyword .float)
    (h : p.declaration = (s, q)) : Orders source p s.kept [] q := by
  have hwhole := p.passes_declaration
  rw [h] at hwhole
  rcases declaration_cases h with ⟨l, rfl, hfails⟩ | ⟨x, v, hkind, hread⟩
  · exact hfails.toKeeps.orders hp
  · rcases hread with ⟨rfl, u, hpasses, hu, hdefine⟩ |
      ⟨u, r, value, rfl, htakes, hu, hdefine, hvalue⟩
    · -- the statement ends after the name, and only then is the name declared
      have hreaches := u.reaches_define x p.advance.next.location
      rw [hdefine] at hreaches
      obtain ⟨rfl, -, hscopes, -⟩ := define_eq_some hdefine
      rw [hu] at hscopes
      exact orders_simple hp p.passes_advance.reaches (hpasses.trans hreaches)
        (Token.isEndOfFile_of_kind hkind (by simp)) hscopes rfl rfl
    · -- the name is declared while it is still next, and then assigned its value
      obtain ⟨rfl, -, hscopes, hscanner⟩ := define_eq_some hdefine
      have hr : r.Stands source (i + 1) := (hp.advance.takes htakes).congr hscanner
      have hnext : r.next = p.advance.next := hr.next.trans hp.advance.next.symm
      obtain ⟨hkeeps, hnested⟩ := keeps_assignment hr (by rwa [hnext]) hvalue
      rw [hu, ← hkeeps.scopes] at hscopes
      exact orders_simple hp (.refl p) hwhole (Token.isEndOfFile_of_kind hkeyword (by simp)) hscopes
        hnested rfl

/-! ### Block statements -/

variable {body : Parser → Except Halt Parser}
  {statement : Parser → Except Halt (Statement × Parser)}

/-- A statement stands at its keyword and owns the scope that was entered after it, with what was
read into it. -/
theorem orders_block {init : Option Statement} {scope : Scope Statement} {u : Parser}
    {vs : List Variable} {a k : Nat} (hleave : u.leave = .ok (scope, q))
    (hown : s.owned? = some (init, scope))
    (hnested : s.nested = (init, scope) :: Statement.nestedAll (scope.held init))
    (hlocation : s.location = p.next.location) (hlt : p.offset < a)
    (hscopes : u.scopes = p.scopes.enter.grow vs ss k) (hstands : ∃ j, u.Stands source j)
    (harranged :
      Arranged p.scopes.nextId (p.scopes.nextId + 1) k a u.offset (init.toList ++ ss)) :
    Orders source p [s] [] q := by
  obtain ⟨rfl, hq, hscanner⟩ := leave_of_grow hleave hscopes
  obtain ⟨j, hu⟩ := hstands
  have hid : q.scopes.nextId = k := by rw [hq]; rfl
  have hle : p.offset ≤ s.location.offset := by rw [hlocation]; exact Nat.le_refl _
  refine ⟨⟨[], by rw [hid, hq]⟩, ⟨j, hu.congr hscanner⟩, ?_⟩
  rw [hid, offset_congr hscanner]
  exact Statement.arranged_block hown hnested rfl hle (by rwa [hlocation]) harranged

theorem orders_branch (hbody : BodiesOrdered source body) (hp : p.Stands source i)
    (hnext : p.next.isEndOfFile = false) (h : branchWith body p = .ok (s, q)) :
    Orders source p s.kept [] q := by
  rcases branchWith_cases h with
    ⟨l, rfl, hfails⟩ | ⟨c, r, u, scope, hcondition, -, hu, hleave, rfl⟩
  · exact hfails.toKeeps.orders hp
  · -- the scope is entered behind the brace, and the condition has given no numbers by then
    have hbrace := (keeps_condition hcondition).trans r.keeps_advance
    have hpasses := p.passes_advance.trans hbrace.reaches
    obtain ⟨j, -, hstands⟩ := hp.reaches hpasses.reaches
    obtain ⟨ss, hss⟩ := hbody hstands.enter hu
    obtain ⟨vs, hscopes⟩ := hss.scopes
    have henter : r.advance.enter.scopes = p.scopes.enter := congrArg ScopeChain.enter hbrace.scopes
    have harranged := hss.arranged
    rw [henter] at hscopes harranged
    exact orders_block hleave rfl (Statement.nested_branch _ _ _) rfl (hp.offset_lt hpasses hnext)
      hscopes hss.stands harranged

/-- Whatever becomes of a first clause, it is all that is left in the current scope. -/
theorem orders_loopInit {complete : Bool} (hstatement : StatementsOrdered source statement)
    (hp : p.Stands source i) (h : loopInit statement p = .ok (complete, q)) :
    ∃ init : Option Statement, Orders source p init.toList init.toList q := by
  rcases loopInit_steps h with ⟨-, hkeeps⟩ | ⟨s, u, hs, hrest⟩
  · exact ⟨none, hkeeps.orders hp⟩
  · have hread := ((p.keeps_fill 1).orders hp).trans (hstatement (hp.fill 1) hs)
    split at hrest
    · -- a declaration without its value is not added, though it is not invalid as a whole
      obtain ⟨-, rfl⟩ := hrest
      exact ⟨none, hread.forget⟩
    next hfailed =>
      have hvalid := Statement.isInvalid_of_initFailed (Bool.eq_false_iff.2 hfailed)
      rw [Statement.kept_eq hvalid] at hread
      exact ⟨some s, hread.push.keeps hrest.1⟩

/-- Whatever becomes of a header, its first clause is all that is left in the current scope, and the
other clauses have no scopes. -/
theorem orders_loopHeader {header : Option LoopHeader}
    (hstatement : StatementsOrdered source statement) (hp : p.Stands source i)
    (h : loopHeaderWith statement p = .ok (header, q)) :
    ∃ init : Option Statement, Orders source p init.toList init.toList q ∧
      ∀ clauses ∈ header, (∀ s ∈ clauses.condition, s.nested = []) ∧
        ∀ s ∈ clauses.increment, s.nested = [] := by
  obtain ⟨complete, u, hinit, hrest⟩ := loopHeader_steps h
  obtain ⟨init, horders⟩ := orders_loopInit hstatement hp hinit
  obtain ⟨a, hu⟩ := horders.stands
  refine ⟨init, ?_⟩
  cases complete with
  | false =>
    obtain ⟨rfl, rfl⟩ := hrest
    exact ⟨horders, by simp⟩
  | true =>
    rcases hrest with ⟨rfl, hgives⟩ | ⟨clauses, v, w, rfl, hcondition, hincrement, rfl, hkeeps⟩
    · exact ⟨horders.keeps hgives.toKeeps, by simp⟩
    · obtain ⟨b, c, -, -, -, hconditions, hincrements⟩ := hu.clauses hcondition hincrement
      refine ⟨horders.keeps hkeeps, ?_⟩
      rintro _ ⟨⟩
      exact ⟨fun s hs => (hconditions s hs).nested, fun s hs => (hincrements s hs).nested⟩

theorem orders_loop (hbody : BodiesOrdered source body)
    (hstatement : StatementsOrdered source statement) (hp : p.Stands source i)
    (hnext : p.next.isEndOfFile = false) (h : loopWith body statement p = .ok (s, q)) :
    Orders source p s.kept [] q := by
  have hlt : p.offset < p.advance.offset := hp.offset_lt p.passes_advance hnext
  obtain ⟨⟨header, u⟩, hheader, hrest⟩ := bind_eq_ok.1 h
  obtain ⟨init, hinit, hclauses⟩ := orders_loopHeader hstatement hp.advance.enter hheader
  obtain ⟨j, hu⟩ := hinit.stands
  obtain ⟨vs, hscopes⟩ := hinit.scopes
  have harranged : Arranged p.scopes.nextId (p.scopes.nextId + 1) u.scopes.nextId p.advance.offset
      u.offset init.toList := hinit.arranged
  cases header with
  | none =>
    -- nothing is left of the loop, but the numbers that were given in it are used up
    obtain ⟨⟨scope, r⟩, hleave, hr⟩ := bind_eq_ok.1 hrest
    obtain ⟨rfl, rfl⟩ := Prod.mk.inj (Except.ok.inj hr)
    obtain ⟨-, hr, hscanner⟩ := leave_of_grow hleave hscopes
    have hid : r.scopes.nextId = u.scopes.nextId := by rw [hr]; rfl
    refine ⟨⟨[], by rw [hid, hr]; rfl⟩, ⟨j, hu.congr hscanner⟩, ?_⟩
    apply Statement.arranged_nil
    · rw [hid]
      exact Nat.le_of_succ_le harranged.ids.le
    · rw [offset_congr hscanner]
      exact Nat.le_trans (Nat.le_of_lt hlt) harranged.places.le
  | some header =>
    obtain ⟨hconditions, hincrements⟩ := hclauses header rfl
    -- the first clause is taken out of the scope again, and the body read into it
    obtain ⟨w, hw, hwscopes, hwscanner⟩ := pop_of_grow hscopes
    dsimp only at hrest
    rw [hw] at hrest
    obtain ⟨v, hv, hrest⟩ := bind_eq_ok.1 hrest
    obtain ⟨⟨scope, r⟩, hleave, hr⟩ := bind_eq_ok.1 hrest
    obtain ⟨rfl, rfl⟩ := Prod.mk.inj (Except.ok.inj hr)
    obtain ⟨ss, hss⟩ := hbody (hu.congr hwscanner) hv
    obtain ⟨vs', hscopes'⟩ := hss.scopes
    have harranged' := hss.arranged
    -- both lie in the scope of the loop, and the body goes on with the numbers and the places
    rw [hwscopes, ScopeChain.id_current_grow, offset_congr hwscanner] at harranged'
    rw [hwscopes, ScopeChain.grow_grow] at hscopes'
    refine orders_block hleave rfl ?_ rfl hlt hscopes' hss.stands (harranged.append harranged')
    rw [Statement.nested_loop hconditions hincrements, ← Statement.nestedAll_append]
    rfl

/-! ### Statements, bodies and programs -/

theorem orders_statementWithin_succ {n : Nat} (hbody : BodiesOrdered source (bodyWithin n false))
    (hstatement : StatementsOrdered source (statementWithin n)) :
    StatementsOrdered source (statementWithin (n + 1)) := by
  intro i p s q hp h
  have hfirst := (p.keeps_fill 1).orders hp
  unfold statementWithin at h
  dsimp only at h
  split at h
  next hkind => exact hfirst.trans (orders_declaration (hp.fill 1) hkind (Except.ok.inj h))
  next hkind =>
    have hnext := Token.isEndOfFile_of_kind hkind (by simp)
    exact hfirst.trans (orders_branch hbody (hp.fill 1) hnext h)
  next hkind =>
    have hnext := Token.isEndOfFile_of_kind hkind (by simp)
    exact hfirst.trans (orders_loop hbody hstatement (hp.fill 1) hnext h)
  next hkind => exact hfirst.trans (orders_named (hp.fill 1) hkind h)
  · obtain ⟨rfl, rfl⟩ := Prod.mk.inj (Except.ok.inj h)
    exact hfirst.trans ((givesUp_rejectStatement (p.fill 1)).toKeeps.orders (hp.fill 1))

theorem orders_bodyWithin_succ {n : Nat} {top : Bool}
    (hbody : BodiesOrdered source (bodyWithin n top))
    (hstatement : StatementsOrdered source (statementWithin n)) :
    BodiesOrdered source (bodyWithin (n + 1) top) := by
  intro i p q hp h
  have hfill := p.keeps_fill 1
  have hadvance := hfill.trans (keeps_advance _)
  -- what has been read is in the current scope, and the body goes on
  have hmore {ss : List Statement} {u : Parser} (hu : Orders source p ss ss u)
      (hrest : bodyWithin n top u = .ok q) : ∃ ss, Orders source p ss ss q := by
    obtain ⟨j, hstands⟩ := hu.stands
    obtain ⟨ss', hss'⟩ := hbody hstands hrest
    exact ⟨ss ++ ss', hu.trans hss'⟩
  cases bodyWithin_succ.1 h with
  | ends hends =>
    cases hends with
    | brace _ => exact ⟨[], hadvance.orders hp⟩
    | endOfFile _ => exact ⟨[], hfill.orders hp⟩
    | program _ => exact ⟨[], (hfill.trans ⟨⟨_, takes_flush _⟩, rfl⟩).orders hp⟩
  | blank _ hrest => exact hmore (hadvance.orders hp) hrest
  | stray _ _ hrest => exact hmore (hadvance.orders hp) hrest
  | statement s u _ hs hrest =>
    have hread := (hfill.orders hp).trans (hstatement (hp.fill 1) hs)
    split at hrest
    next hinvalid => exact hmore hread.forget hrest
    next hvalid =>
      rw [Statement.kept_eq (Bool.eq_false_iff.2 hvalid)] at hread
      exact hmore hread.push hrest

/-- Whatever is read is in order, whatever the bound on the nesting. -/
theorem orders_within (source : Source) (n : Nat) :
    StatementsOrdered source (statementWithin n) ∧
      ∀ top, BodiesOrdered source (bodyWithin n top) := by
  -- one induction for both readers, since each calls the other with a smaller bound
  induction n with
  | zero =>
    refine ⟨fun i p s q _ h => ?_, fun top i p q _ h => ?_⟩
    · simp [statementWithin, halt] at h
    · simp [bodyWithin, halt] at h
  | succ n ih =>
    obtain ⟨hstatement, hbody⟩ := ih
    exact ⟨orders_statementWithin_succ (hbody false) hstatement,
      fun top => orders_bodyWithin_succ (hbody top) hstatement⟩

/-- Every program is read, whatever its source is. The numbers of the scopes that are left ascend
with the text, an outer scope before those nested in it; so no two are the same. Every scope but the
outermost belongs to a statement that another one holds, and has that one for its parent: the scope
of a loop holds its first clause too, in front. The statements that a scope holds stand one after
the other. -/
theorem scopes_in_order (file : Path) (bytes : ByteArray) :
    ∃ p, (ofSource (.ofBytes file bytes)).program = .ok p ∧
      (p.scopes.outermost.nested.map (·.2.id)).Pairwise (· < ·) ∧
      (∀ own ∈ Statement.nestedAll p.scopes.outermost.statements,
        ∃ holder ∈ p.scopes.outermost.nested, ∃ s ∈ holder.2.held holder.1, s.owned? = some own) ∧
      ∀ init scope, (init, scope) ∈ p.scopes.outermost.nested →
        (∀ s ∈ scope.held init, ∀ own ∈ s.owned?, own.2.parent? = some scope.id) ∧
          ((scope.held init).map (·.location.offset)).Pairwise (· < ·) := by
  obtain ⟨-, p, hp, -⟩ := (ofSource (.ofBytes file bytes)).body_ok true
  obtain ⟨ss, hss⟩ := (orders_within (.ofBytes file bytes) _).2 true (stands_ofSource _) hp
  obtain ⟨vs, hscopes⟩ := hss.scopes
  have harranged :
      Arranged 0 1 p.scopes.nextId (ofSource (.ofBytes file bytes)).offset p.offset ss :=
    hss.arranged
  -- the outermost scope has the number 0, which is below all others, and holds what was read
  have hroot : p.scopes.outermost = ⟨0, none, vs, ss⟩ := by
    rw [hscopes]
    rfl
  refine ⟨p, hp, ?_⟩
  rw [hroot]
  refine ⟨?_, fun own hown => ?_, fun init scope hscope => ?_⟩
  · exact (Ascending.cons (Nat.le_refl 0) harranged.ids).pairwise
  · rcases harranged.owner own hown with hdirect | ⟨holder, hholder, hheld⟩
    · exact ⟨_, List.mem_cons_self, hdirect⟩
    · exact ⟨holder, List.mem_cons_of_mem _ hholder, hheld⟩
  · have hholds : scope.Holds init := by
      rcases List.mem_cons.1 hscope with hown | hinner
      · obtain ⟨rfl, rfl⟩ := Prod.mk.inj hown
        exact harranged.holds_of_held
      · exact harranged.holds _ hinner
    exact ⟨hholds.parent, hholds.places⟩

/-- The loop that is abandoned uses up the number 1. The block that is the first clause of the other
loop lies in the scope of that loop, in front of the body. -/
theorem scopes_in_order_of_abandoned_loop :
    let source :=
      "for float i = 0; i \x7b \x7d\nfor if 1 \x7b float y \x7d; ; \x7b if 0 \x7b \x7d \x7d"
    ∃ p, (ofSource (.ofBytes ⟨"main.rin"⟩ source.toUTF8)).program = .ok p ∧
      p.scopes.outermost.nested.map (fun x =>
          (x.2.id, x.2.parent?, (x.2.held x.1).map (·.location.offset))) =
        [(0, none, [23]), (2, some 0, [27, 49]), (3, some 2, [40]), (4, some 2, [])] ∧
      (p.scopes.outermost.nested.map (·.2.id)).Pairwise (· < ·) := by
  intro source
  obtain ⟨p, hp, hids, -, -⟩ := scopes_in_order ⟨"main.rin"⟩ source.toUTF8
  have hnested : ((ofSource (.ofBytes ⟨"main.rin"⟩ source.toUTF8)).program.toOption.map fun p =>
      p.scopes.outermost.nested.map fun x =>
        (x.2.id, x.2.parent?, (x.2.held x.1).map (·.location.offset))) =
        some [(0, none, [23]), (2, some 0, [27, 49]), (3, some 2, [40]), (4, some 2, [])] := by
    decide +kernel
  rw [hp] at hnested
  exact ⟨p, hp, Option.some.inj hnested, hids⟩

end Parser

end FloatLang
