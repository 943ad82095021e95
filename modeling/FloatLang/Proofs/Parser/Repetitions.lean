import FloatLang.Proofs.Parser.Accounts
import FloatLang.Proofs.Parser.Disciplined

/-!
# What is reported twice

The scanner objects to a token once, and a reader complains about a token once. But some readers
complain about a token without asking whether the scanner objects to it, and then there are two
errors at one place. At the end of the file, which can be met again and again, there may be more
than one complaint. Otherwise no two errors are at one place.

## Main definitions

* `Problem.isScanned` — what the scanner reports itself
* `Problem.clashes` — what readers say about tokens that the scanner reports too
* `Source.EndsAt` — where the file ends
* `Source.Tells` — how two reports of one place come about

## Main results

* `repetitions_discipline` — every step of a parser keeps to these ways
* `Parser.errors_apart` — so do all errors of a program
* `Parser.error_reported_twice` — which may be at one place
-/

namespace FloatLang

/-! ### Problems of one token -/

namespace Problem

/-- Whether the scanner reports this itself. -/
def isScanned : Problem → Bool
  | lexical _ | unclosed _ | unopened _ => true
  | _ => false

/-- Whether this is about an opening bracket. -/
def isUnclosed : Problem → Bool
  | unclosed _ => true
  | _ => false

/-- Whether a reader may complain about a token, by the second problem, that the scanner reports, by
the first. -/
def clashes (scanned : Problem) : Problem → Bool
  | nameExpected _ | assignExpected _ | terminatorExpected _ | headerSemicolonExpected .. |
    stepExpected | loopBodyExpected _ => scanned.isScanned
  | operatorExpected _ => scanned.isScanned && !scanned.isBracket
  | expressionExpected => scanned.isBracket
  | statementExpected _ | operatorInExpression _ => scanned.isUnclosed
  | _ => false

variable {t : Token} {problem : Problem}

theorem clashes_lexical {error : LexError} (ht : t.kind = .invalid error)
    (h : problem.concerns t = true) : (lexical error).clashes problem = true := by
  have herror : t.error? = some error := by simp [Token.error?, ht]
  have hplain : t.isPlain = false := by simp [Token.isPlain, herror]
  cases problem <;> simp_all [concerns, clashes, isScanned, isBracket]

theorem clashes_unopened {b : Bracket} (ht : t.kind = .operator (.closing b))
    (h : problem.concerns t = true) : (unopened (.closing b)).clashes problem = true := by
  have hop : t.operator? = some (.closing b) := by simp [Token.operator?, ht]
  have hplain : t.isPlain = false := by
    cases b <;> simp [Token.isPlain, hop, Operator.closing, Operator.bracket?, Operator.closes?]
  cases problem <;> simp_all [concerns, clashes, isScanned, isBracket]

theorem clashes_unclosed {b : Bracket} (ht : t.kind = .operator (.opening b))
    (h : problem.concerns t = true ∨ problem.rejects t = true) :
    (unclosed b).clashes problem = true := by
  have hop : t.operator? = some (.opening b) := by simp [Token.operator?, ht]
  have hplain : t.isPlain = false := by
    cases b <;> simp [Token.isPlain, hop, Operator.opening, Operator.bracket?, Operator.opens?]
  have hparen : t.isOperator .rightParen = false := by
    cases b <;> simp [Token.isOperator, hop, Operator.opening]
  cases problem <;> simp_all [concerns, rejects, clashes, isScanned, isBracket, isUnclosed]

theorem isScanned_of_concerns (h : problem.concerns t = true) : problem.isScanned = false := by
  cases problem <;> first | rfl | contradiction

theorem isScanned_of_rejects (h : problem.rejects t = true) : problem.isScanned = false := by
  cases problem <;> first | rfl | contradiction

end Problem

/-! ### Places of tokens -/

namespace Source

/-- A token before the end of the file is known by its place. -/
theorem eq_of_place_eq {source : Source} {k k' : Nat}
    (hk' : (source.tokenAt k').isEndOfFile = false) (h : source.place k = source.place k') :
    k = k' := by
  refine eq_of_location_eq ?_ hk' h
  cases hk : (source.tokenAt k).isEndOfFile with
  | false => rfl
  | true =>
    -- what comes before the end of the file does not stand there
    have hlt : k' < k := by
      refine Nat.lt_of_not_le fun hle => ?_
      rw [isEndOfFile_of_le hk hle] at hk'
      contradiction
    have hoffset := offset_lt hk' hlt
    rw [show (source.tokenAt k').location = (source.tokenAt k).location from h.symm] at hoffset
    exact absurd hoffset (Nat.lt_irrefl _)

/-- The file ends at this place. -/
def EndsAt (source : Source) (l : Location) : Prop :=
  ∃ k, (source.tokenAt k).isEndOfFile = true ∧ l = source.place k

/-- How two errors at one place come about: as two complaints where the file ends, or as a complaint
about a token that the scanner reports too. -/
def Tells (source : Source) (r r' : Report) : Prop :=
  (source.EndsAt r.location ∧ r.problem.isScanned = false ∧ r'.problem.isScanned = false) ∨
    r.problem.clashes r'.problem = true ∨ r'.problem.clashes r.problem = true

end Source

/-! ### What has been reported -/

/-- Where an error comes from: the scanner has reported one of the first `n` tokens, or a reader has
complained about one of the first `c`, or has rejected one. -/
inductive Known (source : Source) (n c : Nat) (r : Report) : Prop
  | lexical (k : Nat) (error : LexError) (hk : k < n)
      (hkind : (source.tokenAt k).kind = .invalid error)
      (hr : r = { location := source.place k, problem := .lexical error })
  | unopened (k : Nat) (b : Bracket) (hk : k < n) (hcloses : source.Closes k b)
      (hr : r = Scanner.unopenedReport b (source.place k))
  | unclosed (k : Nat) (b : Bracket) (hk : k < n) (hopens : source.Opens k b)
      (hr : r = Scanner.unclosedReport ⟨b, source.place k⟩)
  | complaint (k : Nat) (hk : k < c ∨ (source.tokenAt k).isEndOfFile = true)
      (hconcerns : r.problem.concerns (source.tokenAt k) = true)
      (hplace : r.location = source.place k)
  | rejection (k : Nat) (hk : k < n) (hc : k < c)
      (hrejects : r.problem.rejects (source.tokenAt k) = true)
      (hplace : r.location = source.place k)

namespace Known

variable {source : Source} {n n' c c' k : Nat} {b : Bracket} {r : Report} {problem : Problem}

theorem mono (h : Known source n c r) (hn : n ≤ n') (hc : c ≤ c') : Known source n' c' r := by
  cases h with
  | lexical k error hk hkind hr => exact .lexical k error (Nat.lt_of_lt_of_le hk hn) hkind hr
  | unopened k b hk hcloses hr => exact .unopened k b (Nat.lt_of_lt_of_le hk hn) hcloses hr
  | unclosed k b hk hopens hr => exact .unclosed k b (Nat.lt_of_lt_of_le hk hn) hopens hr
  | complaint k hk hconcerns hplace =>
    exact .complaint k (hk.imp_left fun hk => Nat.lt_of_lt_of_le hk hc) hconcerns hplace
  | rejection k hk hkc hrejects hplace =>
    exact .rejection k (Nat.lt_of_lt_of_le hk hn) (Nat.lt_of_lt_of_le hkc hc) hrejects hplace

/-- The scanner reports nothing where the file ends. -/
theorem isScanned_of_endsAt (h : Known source n c r) (hend : source.EndsAt r.location) :
    r.problem.isScanned = false := by
  obtain ⟨k, hfile, hplace⟩ := hend
  have hbefore {k' : Nat} (hk' : (source.tokenAt k').isEndOfFile = false)
      (hr : r.location = source.place k') : False := by
    obtain rfl := Source.eq_of_place_eq hk' (hplace.symm.trans hr)
    rw [hfile] at hk'
    contradiction
  cases h with
  | lexical k' error hk hkind hr =>
    exact (hbefore (by simp [Token.isEndOfFile, hkind]) (congrArg Report.location hr)).elim
  | unopened k' b hk hcloses hr =>
    exact (hbefore hcloses.isEndOfFile (congrArg Report.location hr)).elim
  | unclosed k' b hk hopens hr =>
    exact (hbefore hopens.isEndOfFile (congrArg Report.location hr)).elim
  | complaint k' hk hconcerns hr => exact Problem.isScanned_of_concerns hconcerns
  | rejection k' hk hc hrejects hr => exact Problem.isScanned_of_rejects hrejects

/-- What is next has not been reported by the scanner; a reader may have complained about it. -/
theorem of_next (h : Known source n c r) (hfile : (source.tokenAt n).isEndOfFile = false)
    (hplace : r.location = source.place n) :
    n < c ∧ r.problem.concerns (source.tokenAt n) = true := by
  have hbefore {k : Nat} (hk : k < n) (hr : r.location = source.place k) : False := by
    have heq := Source.eq_of_place_eq hfile (hr.symm.trans hplace)
    exact Nat.ne_of_lt hk heq
  cases h with
  | lexical k error hk hkind hr => exact (hbefore hk (congrArg Report.location hr)).elim
  | unopened k b hk hcloses hr => exact (hbefore hk (congrArg Report.location hr)).elim
  | unclosed k b hk hopens hr => exact (hbefore hk (congrArg Report.location hr)).elim
  | complaint k hk hconcerns hr =>
    obtain rfl := Source.eq_of_place_eq hfile (hr.symm.trans hplace)
    exact ⟨hk.resolve_right (by simp [hfile]), hconcerns⟩
  | rejection k hk hc hrejects hr => exact (hbefore hk hr).elim

/-- A token that has not been complained about may have been reported by the scanner. -/
theorem clashes_of_fresh (h : Known source n c r) (hfresh : c ≤ k)
    (hfile : (source.tokenAt k).isEndOfFile = false) (hplace : r.location = source.place k)
    (hconcerns : problem.concerns (source.tokenAt k) = true) :
    r.problem.clashes problem = true := by
  have hsame {k' : Nat} (hr : r.location = source.place k') : k' = k :=
    Source.eq_of_place_eq hfile (hr.symm.trans hplace)
  cases h with
  | lexical k' error hk hkind hr =>
    obtain rfl := hsame (congrArg Report.location hr)
    subst hr
    exact Problem.clashes_lexical hkind hconcerns
  | unopened k' b hk hcloses hr =>
    obtain rfl := hsame (congrArg Report.location hr)
    subst hr
    exact Problem.clashes_unopened hcloses hconcerns
  | unclosed k' b hk hopens hr =>
    obtain rfl := hsame (congrArg Report.location hr)
    subst hr
    exact Problem.clashes_unclosed hopens (.inl hconcerns)
  | complaint k' hk _ hr =>
    obtain rfl := hsame hr
    rcases hk with hk | hend
    · exact absurd hk (Nat.not_lt_of_le hfresh)
    · rw [hfile] at hend
      contradiction
  | rejection k' hk hc hrejects hr =>
    obtain rfl := hsame hr
    exact absurd hc (Nat.not_lt_of_le hfresh)

/-- An opening bracket that is still open may have been complained about. -/
theorem clashes_of_opens (h : Known source n c r) (hopens : source.Opens k b)
    (hplace : r.location = source.place k)
    (hfresh : r ≠ Scanner.unclosedReport ⟨b, source.place k⟩) :
    (Problem.unclosed b).clashes r.problem = true := by
  have hsame {k' : Nat} (hr : r.location = source.place k') : k' = k :=
    Source.eq_of_place_eq hopens.isEndOfFile (hr.symm.trans hplace)
  cases h with
  | lexical k' error hk hkind hr =>
    obtain rfl := hsame (congrArg Report.location hr)
    have hkinds := hkind.symm.trans hopens
    contradiction
  | unopened k' b' hk hcloses hr =>
    obtain rfl := hsame (congrArg Report.location hr)
    exact absurd hcloses hopens.not_closes
  | unclosed k' b' hk hopens' hr =>
    obtain rfl := hsame (congrArg Report.location hr)
    obtain rfl := hopens'.unique hopens
    exact absurd hr hfresh
  | complaint k' hk hconcerns hr =>
    obtain rfl := hsame hr
    exact Problem.clashes_unclosed hopens (.inl hconcerns)
  | rejection k' hk hc hrejects hr =>
    obtain rfl := hsame hr
    exact Problem.clashes_unclosed hopens (.inr hrejects)

end Known

/-! ### The steps of a parser -/

/-- The scanner objects to invalid tokens and to closing brackets. -/
theorem Scanner.objection?_cases {s : Scanner} {t : Token} {problem : Problem}
    (h : s.objection? t = some problem) :
    (∃ error, t.kind = .invalid error ∧ problem = .lexical error) ∨
      ∃ b, t.kind = .operator (.closing b) ∧ problem = .unopened (.closing b) := by
  unfold objection? at h
  split at h
  next error hkind => exact .inl ⟨error, hkind, (Option.some.inj h).symm⟩
  next op hkind =>
    split at h
    next b hcloses =>
      have hop : op = .closing b := by
        cases op <;> cases b <;> first | rfl | contradiction
      subst hop
      split at h
      · contradiction
      · exact .inr ⟨b, hkind, (Option.some.inj h).symm⟩
    · contradiction
  · contradiction

/-- What a reader may say about a token to which the scanner objects. -/
theorem Scanner.clashes_of_objection? {s : Scanner} {t : Token} {problem : Problem}
    (h : s.objection? t = some problem) : t.isEndOfFile = false ∧
      ∀ said : Problem, said.concerns t = true → problem.clashes said = true := by
  rcases Scanner.objection?_cases h with ⟨error, hkind, rfl⟩ | ⟨b, hkind, rfl⟩
  · exact ⟨by simp [Token.isEndOfFile, hkind], fun said => Problem.clashes_lexical hkind⟩
  · exact ⟨by simp [Token.isEndOfFile, hkind], fun said => Problem.clashes_unopened hkind⟩

/-- The scanner has come to the `n`-th token, readers have complained about the first `c` tokens only,
and of any two errors at one place it is known how they come about. -/
structure Untangled (source : Source) (n c : Nat) (s : Scanner) : Prop where
  keeping : ∃ pairs opens, Keeping source n pairs opens s
  known : ∀ r ∈ s.reports, r.severity.isError = true → Known source n c r
  tells : s.reports.Pairwise fun r r' => r.severity.isError = true → r'.severity.isError = true →
    r.location = r'.location → source.Tells r r'

namespace Untangled

variable {source : Source} {n n' c c' k : Nat} {s s' : Scanner} {r : Report} {problem : Problem}

/-- What has been reported so far may be followed by what is known to be told apart from it. -/
theorem append (h : Untangled source n c s) (hn : n ≤ n') (hc : c ≤ c')
    (hkeeping : ∃ pairs opens, Keeping source n' pairs opens s')
    (hreports : s'.reports = s.reports ++ [r])
    (hknown : r.severity.isError = true → Known source n' c' r)
    (htells : ∀ r' ∈ s.reports, Known source n c r' → r'.location = r.location →
      source.Tells r' r) : Untangled source n' c' s' where
  keeping := hkeeping
  known := by
    rw [hreports, List.forall_mem_append]
    refine ⟨fun r' hr' herror => (h.known r' hr' herror).mono hn hc, ?_⟩
    simpa using hknown
  tells := by
    rw [hreports, List.pairwise_append]
    refine ⟨h.tells, List.pairwise_singleton _ _, fun r' hr' r'' hr'' herror _ hplace => ?_⟩
    obtain rfl := List.mem_singleton.1 hr''
    exact htells r' hr' (h.known r' hr' herror) hplace

theorem same (h : Untangled source n c s) (hn : n ≤ n') (hc : c ≤ c')
    (hkeeping : ∃ pairs opens, Keeping source n' pairs opens s')
    (hreports : s'.reports = s.reports) : Untangled source n' c' s' where
  keeping := hkeeping
  known r hr herror := (h.known r (hreports ▸ hr) herror).mono hn hc
  tells := hreports ▸ h.tells

theorem advance (h : Untangled source n c s) : Untangled source (n + 1) c s.advance := by
  obtain ⟨pairs, opens, hkeeping⟩ := h.keeping
  have hnext : s.next = source.tokenAt n := hkeeping.ahead 0
  obtain ⟨pairs', opens', hadvance⟩ := hkeeping.advance
  have hreports := s.reports_advance
  cases hobjection : s.objection? s.next with
  | none =>
    rw [hobjection] at hreports
    exact h.same n.le_succ (Nat.le_refl c) ⟨_, _, hadvance⟩ (hreports.trans (List.append_nil _))
  | some problem =>
    rw [hobjection] at hreports
    rw [hnext] at hreports hobjection
    obtain ⟨hfile, hclashes⟩ := Scanner.clashes_of_objection? hobjection
    refine h.append n.le_succ (Nat.le_refl c) ⟨_, _, hadvance⟩ hreports (fun _ => ?_) ?_
    · rcases Scanner.objection?_cases hobjection with ⟨error, hkind, rfl⟩ | ⟨b, hkind, rfl⟩
      · exact .lexical n error n.lt_succ_self hkind rfl
      · exact .unopened n b n.lt_succ_self hkind rfl
    · intro r' _ hknown hplace
      exact .inr (.inr (hclashes _ (hknown.of_next hfile hplace).2))

theorem isBracket_of_isScanned (h : problem.isScanned = false) : problem.isBracket = false := by
  cases problem <;> first | rfl | contradiction

/-- Two complaints where the file ends. -/
theorem tells_of_endsAt {r' : Report} (hknown : Known source n c r') (hend : source.EndsAt r.location)
    (hplace : r'.location = r.location) (hr : r.problem.isScanned = false) :
    source.Tells r' r := by
  rw [← hplace] at hend
  exact .inl ⟨hend, hknown.isScanned_of_endsAt hend, hr⟩

theorem complain (h : Untangled source n c s) (hfresh : c ≤ k)
    (hconcerns : problem.concerns (source.tokenAt k) = true) :
    Untangled source n (k + 1) (s.error (source.place k) problem) := by
  obtain ⟨pairs, opens, hkeeping⟩ := h.keeping
  have hscanned := Problem.isScanned_of_concerns hconcerns
  refine h.append (Nat.le_refl n) (Nat.le_succ_of_le hfresh)
    ⟨pairs, opens, hkeeping.report (isBracket_of_isScanned hscanned)⟩ rfl
    (fun _ => .complaint k (.inl k.lt_succ_self) hconcerns rfl) ?_
  intro r' _ hknown hplace
  cases hfile : (source.tokenAt k).isEndOfFile with
  | true => exact tells_of_endsAt hknown ⟨k, hfile, rfl⟩ hplace hscanned
  | false => exact .inr (.inl (hknown.clashes_of_fresh hfresh hfile hplace hconcerns))

theorem complainAtEnd (h : Untangled source n c s) (hend : (source.tokenAt k).isEndOfFile = true)
    (hconcerns : problem.concerns (source.tokenAt k) = true) :
    Untangled source n c (s.error (source.place k) problem) := by
  obtain ⟨pairs, opens, hkeeping⟩ := h.keeping
  have hscanned := Problem.isScanned_of_concerns hconcerns
  refine h.append (Nat.le_refl n) (Nat.le_refl c)
    ⟨pairs, opens, hkeeping.report (isBracket_of_isScanned hscanned)⟩ rfl
    (fun _ => .complaint k (.inr hend) hconcerns rfl) ?_
  intro r' _ hknown hplace
  exact tells_of_endsAt hknown ⟨k, hend, rfl⟩ hplace hscanned

theorem reject (h : Untangled source n n s) (hobjection : s.objection? s.next = none)
    (hrejects : problem.rejects (source.tokenAt n) = true) :
    Untangled source (n + 1) (n + 1) (s.advance.error (source.place n) problem) := by
  obtain ⟨pairs, opens, hkeeping⟩ := h.keeping
  obtain ⟨pairs', opens', hadvance⟩ := hkeeping.advance
  have hscanned := Problem.isScanned_of_rejects hrejects
  have hreports : s.advance.reports = s.reports := by
    rw [s.reports_advance, hobjection]
    exact List.append_nil _
  refine h.append n.le_succ n.le_succ
    ⟨pairs', opens', hadvance.report (isBracket_of_isScanned hscanned)⟩
    (congrArg (· ++ [({ location := source.place n, problem } : Report)]) hreports)
    (fun _ => .rejection n n.lt_succ_self n.lt_succ_self hrejects rfl) ?_
  intro r' _ hknown hplace
  cases hfile : (source.tokenAt n).isEndOfFile with
  | true => exact tells_of_endsAt hknown ⟨n, hfile, rfl⟩ hplace hscanned
  | false => exact absurd (hknown.of_next hfile hplace).1 (Nat.lt_irrefl n)

theorem remind (h : Untangled source n c s) (l : Location) (name : String) :
    Untangled source n c
      (s.report { severity := .inform, location := l, problem := .previousDefinition name }) where
  keeping := by
    obtain ⟨pairs, opens, hkeeping⟩ := h.keeping
    exact ⟨pairs, opens, hkeeping.report rfl⟩
  known := List.forall_mem_append.2 ⟨h.known, by simp [Severity.isError]⟩
  tells := by
    refine List.pairwise_append.2 ⟨h.tells, List.pairwise_singleton _ _, ?_⟩
    simp [Severity.isError]

theorem giveUp (h : Untangled source n c s) {o : Opening} {os : List Opening}
    (hpending : s.pending = o :: os) :
    Untangled source n c ({ s with pending := os }.report (Scanner.unclosedReport o)) := by
  obtain ⟨pairs, opens, hkeeping⟩ := h.keeping
  obtain ⟨opens', hgiven⟩ := hkeeping.giveUp hpending
  rw [hkeeping.pending] at hpending
  cases opens with
  | nil => contradiction
  | cons x opens =>
    obtain ⟨rfl, -⟩ := List.cons.inj hpending
    obtain ⟨hlt, hopens⟩ := hkeeping.ledger.waiting x List.mem_cons_self
    have hopened := hkeeping.ledger.opened x.1 hlt x.2 hopens
    have hfresh : Scanner.unclosedReport ⟨x.2, source.place x.1⟩ ∉ s.reports := by
      rw [List.countP_cons_of_pos (by simp)] at hopened
      exact List.count_eq_zero.1 (by omega)
    refine h.append (Nat.le_refl n) (Nat.le_refl c) ⟨pairs, opens', hgiven⟩ rfl
      (fun _ => .unclosed x.1 x.2 hlt hopens rfl) ?_
    intro r' hr' hknown hplace
    exact .inr (.inr (hknown.clashes_of_opens hopens hplace fun heq => hfresh (heq ▸ hr')))

end Untangled

/-- Whatever a parser does, it is known how two errors at one place come about. -/
theorem repetitions_discipline (source : Source) :
    Scanner.Discipline source (Untangled source) where
  ahead h k := by
    obtain ⟨pairs, opens, hkeeping⟩ := h.keeping
    exact hkeeping.ahead k
  mono h hc := ⟨h.keeping, fun r hr herror => (h.known r hr herror).mono (Nat.le_refl _) hc, h.tells⟩
  fill {n c s} h m := by
    refine h.same (Nat.le_refl n) (Nat.le_refl c) ?_ (s.reports_fill m)
    obtain ⟨pairs, opens, hkeeping⟩ := h.keeping
    refine ⟨pairs, opens, ?_, (s.pending_fill m).trans hkeeping.pending, ?_⟩
    · rw [s.ahead_fill_eq m]
      exact hkeeping.ahead
    · rw [s.reports_fill m]
      exact hkeeping.ledger
  advance := Untangled.advance
  complain := Untangled.complain
  complainAtEnd := Untangled.complainAtEnd
  reject := Untangled.reject
  remind l name h _ := h.remind l name
  giveUp h hpending := h.giveUp hpending

/-! ### Programs -/

namespace Parser

theorem untangled_start (source : Source) : Untangled source 0 0 (ofSource source).scanner where
  keeping := ⟨[], [], stands_ofSource source, rfl, .start source⟩
  known := by simp [ofSource]
  tells := .nil

/-- Of any two errors of a program at one place it is known how they come about: either both are
complaints of readers where the file ends, or the scanner has reported a token and a reader has
complained about it, in one of the ways that clash. So no two errors are at one place if and only if
neither happens. -/
theorem errors_apart (file : Path) (bytes : ByteArray) :
    ∃ p, (ofSource (.ofBytes file bytes)).program = .ok p ∧
      let errors := p.scanner.reports.filter (·.severity.isError)
      (errors.Pairwise fun r r' => r.location = r'.location →
        (Source.ofBytes file bytes).Tells r r') ∧
      ((errors.map Report.location).Nodup ↔ errors.Pairwise fun r r' =>
        ¬ (r.location = r'.location ∧ (Source.ofBytes file bytes).Tells r r')) := by
  generalize Source.ofBytes file bytes = source
  obtain ⟨-, p, hp, -⟩ := (ofSource source).body_ok true
  refine ⟨p, hp, ?_⟩
  obtain ⟨n, hclear⟩ := ((repetitions_discipline source).within _).2 true
    (.inl ⟨0, untangled_start source⟩) hp
  have htells : (p.scanner.reports.filter (·.severity.isError)).Pairwise fun r r' =>
      r.location = r'.location → source.Tells r r' := by
    refine List.pairwise_filter.2 (hclear.tells.imp fun htells herror herror' => ?_)
    exact htells herror herror'
  refine ⟨htells, ?_⟩
  rw [List.Nodup, List.pairwise_map]
  constructor
  · exact List.Pairwise.imp fun hne htwice => hne htwice.1
  · intro hapart
    exact htells.imp₂ (fun _ _ htells hapart hplace => hapart ⟨hplace, htells hplace⟩) hapart

/-- Where a name is missing, a reader complains about what is there instead, and the scanner reports
it as well if it cannot read it. -/
theorem error_reported_twice :
    ∃ p, (ofSource (.ofBytes ⟨"main.rin"⟩ "float $".toUTF8)).program = .ok p ∧
      ¬ ((p.scanner.reports.filter (·.severity.isError)).map Report.location).Nodup := by
  obtain ⟨-, p, hp, -⟩ := (ofSource (.ofBytes ⟨"main.rin"⟩ "float $".toUTF8)).body_ok true
  have hp' : (ofSource (.ofBytes ⟨"main.rin"⟩ "float $".toUTF8)).program = .ok p := hp
  have hfacts : ((ofSource (.ofBytes ⟨"main.rin"⟩ "float $".toUTF8)).program.toOption.map fun p =>
      decide ((p.scanner.reports.filter (·.severity.isError)).map Report.location).Nodup) =
        some false := by
    decide +kernel
  rw [hp'] at hfacts
  exact ⟨p, hp', of_decide_eq_false (Option.some.inj hfacts)⟩

end Parser

end FloatLang
