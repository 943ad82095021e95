import FloatLang.Proofs.Parser.Invariants
import FloatLang.Proofs.Scanner.BracketTokens
import FloatLang.Proofs.Tree.Blocks

/-!
# Every bracket is accounted for

While a scanner hands out tokens, every opening bracket so far is in one of three places: in a pair
with the bracket that has closed it, among the brackets still open, or in a report. A closing bracket
is in a pair or in a report. Handing out a token, giving up on the innermost open bracket and
reporting anything else move brackets from one place to another and lose none. At the end of a program
no bracket is open.

## Main definitions

* `Matching` — pairs that do not cross, and open brackets outside of them
* `Ledger` — where the brackets handed out so far are
* `Accounted` — where all brackets of a source are

## Main results

* `Keeping.advance` — handing out a token keeps the ledger
* `ledger_invariant` — so does everything that a parser does
* `Parser.brackets_accounted` — every bracket of a program is in one pair or in one report
-/

namespace FloatLang

/-! ### Pairs of brackets -/

variable {source : Source} {n : Nat} {pairs : List (Nat × Nat)} {opens : List (Nat × Bracket)}

/-- Pairs of brackets among the first `n` tokens, an opening one and a later closing one of its kind
by their numbers, and the brackets still open, the innermost first. -/
structure Matching (source : Source) (n : Nat) (pairs : List (Nat × Nat))
    (opens : List (Nat × Bracket)) : Prop where
  paired : ∀ x ∈ pairs, x.1 < x.2 ∧ x.2 < n ∧ ∃ b, source.Opens x.1 b ∧ source.Closes x.2 b
  /-- A pair that begins inside another ends inside it. -/
  nested : ∀ x ∈ pairs, ∀ y ∈ pairs, x.1 < y.1 → y.1 < x.2 → y.2 < x.2
  waiting : ∀ o ∈ opens, o.1 < n ∧ source.Opens o.1 o.2
  innermost : opens.Pairwise (·.1 > ·.1)
  /-- An open bracket is inside no pair. -/
  outside : ∀ o ∈ opens, ∀ x ∈ pairs, x.1 < o.1 → x.2 < o.1

namespace Matching

theorem start (source : Source) : Matching source 0 [] [] where
  paired := by simp
  nested := by simp
  waiting := by simp
  innermost := .nil
  outside := by simp

variable {o : Nat × Bracket} {b : Bracket}

theorem succ (h : Matching source n pairs opens) : Matching source (n + 1) pairs opens where
  paired x hx := by
    obtain ⟨hlt, hn, hkind⟩ := h.paired x hx
    exact ⟨hlt, Nat.lt_succ_of_lt hn, hkind⟩
  nested := h.nested
  waiting o ho := ⟨Nat.lt_succ_of_lt (h.waiting o ho).1, (h.waiting o ho).2⟩
  innermost := h.innermost
  outside := h.outside

/-- The next bracket is open. -/
theorem opening (h : Matching source n pairs opens) (hopens : source.Opens n b) :
    Matching source (n + 1) pairs ((n, b) :: opens) where
  paired := h.succ.paired
  nested := h.nested
  waiting := List.forall_mem_cons.2 ⟨⟨Nat.lt_succ_self n, hopens⟩, h.succ.waiting⟩
  innermost := List.pairwise_cons.2 ⟨fun o ho => (h.waiting o ho).1, h.innermost⟩
  outside := List.forall_mem_cons.2 ⟨fun x hx _ => (h.paired x hx).2.1, h.outside⟩

/-- The next bracket closes the innermost open one. -/
theorem closing (h : Matching source n pairs (o :: opens)) (hcloses : source.Closes n o.2) :
    Matching source (n + 1) ((o.1, n) :: pairs) opens := by
  obtain ⟨⟨hlt, hopens⟩, hwaiting⟩ := List.forall_mem_cons.1 h.waiting
  obtain ⟨hinner, hinnermost⟩ := List.pairwise_cons.1 h.innermost
  obtain ⟨hfirst, houtside⟩ := List.forall_mem_cons.1 h.outside
  refine ⟨?_, ?_, fun o ho => ?_, hinnermost, fun o' ho' => ?_⟩
  · exact List.forall_mem_cons.2 ⟨⟨hlt, Nat.lt_succ_self n, o.2, hopens, hcloses⟩, h.succ.paired⟩
  · -- no other pair begins before the bracket that is closed and ends after it
    refine List.forall_mem_cons.2 ⟨?_, fun x hx => ?_⟩
    · exact List.forall_mem_cons.2
        ⟨fun hlt _ => absurd hlt (Nat.lt_irrefl _), fun y hy _ _ => (h.paired y hy).2.1⟩
    · refine List.forall_mem_cons.2 ⟨fun hbefore hinside => ?_, h.nested x hx⟩
      exact absurd (hfirst x hx hbefore) (Nat.lt_asymm hinside)
  · exact ⟨Nat.lt_succ_of_lt (hwaiting o ho).1, (hwaiting o ho).2⟩
  · refine List.forall_mem_cons.2 ⟨fun hbefore => ?_, houtside o' ho'⟩
    exact absurd hbefore (Nat.lt_asymm (hinner o' ho'))

/-- The innermost open bracket is given up. -/
theorem drop (h : Matching source n pairs (o :: opens)) : Matching source n pairs opens where
  paired := h.paired
  nested := h.nested
  waiting := (List.forall_mem_cons.1 h.waiting).2
  innermost := (List.pairwise_cons.1 h.innermost).2
  outside := (List.forall_mem_cons.1 h.outside).2

end Matching

/-! ### The ledger -/

open Scanner (unclosedReport unopenedReport)

/-- The reports about brackets are about brackets among the first `n` tokens, each at its own
place. -/
structure BracketReports (source : Source) (n : Nat) (reports : List Report) : Prop where
  unclosed : ∀ r ∈ reports, ∀ b, r.problem = .unclosed b →
    ∃ k < n, source.Opens k b ∧ r = unclosedReport ⟨b, source.place k⟩
  unopened : ∀ r ∈ reports, ∀ op, r.problem = .unopened op →
    ∃ k < n, ∃ b, source.Closes k b ∧ r = unopenedReport b (source.place k)

/-- Where the brackets among the first `n` tokens are: each opening one is in one pair, or open, or in
one report, and each closing one is in one pair or in one report. -/
structure Ledger (source : Source) (n : Nat) (pairs : List (Nat × Nat))
    (opens : List (Nat × Bracket)) (reports : List Report) : Prop
    extends Matching source n pairs opens, BracketReports source n reports where
  opened : ∀ k < n, ∀ b, source.Opens k b →
    pairs.countP (·.1 == k) + opens.countP (·.1 == k) +
      reports.count (unclosedReport ⟨b, source.place k⟩) = 1
  closed : ∀ k < n, ∀ b, source.Closes k b →
    pairs.countP (·.2 == k) + reports.count (unopenedReport b (source.place k)) = 1

namespace BracketReports

variable {reports rs : List Report} {b : Bracket}

theorem succ (h : BracketReports source n reports) : BracketReports source (n + 1) reports where
  unclosed r hr b hb := by
    obtain ⟨k, hk, hopens, heq⟩ := h.unclosed r hr b hb
    exact ⟨k, Nat.lt_succ_of_lt hk, hopens, heq⟩
  unopened r hr op hop := by
    obtain ⟨k, hk, b, hcloses, heq⟩ := h.unopened r hr op hop
    exact ⟨k, Nat.lt_succ_of_lt hk, b, hcloses, heq⟩

theorem append (h : BracketReports source n reports) (h' : BracketReports source n rs) :
    BracketReports source n (reports ++ rs) where
  unclosed r hr := (List.mem_append.1 hr).elim (h.unclosed r) (h'.unclosed r)
  unopened r hr := (List.mem_append.1 hr).elim (h.unopened r) (h'.unopened r)

/-- What is not about brackets is about no bracket. -/
theorem of_others (h : ∀ r ∈ rs, r.problem.isBracket = false) : BracketReports source n rs where
  unclosed r hr b hb := by
    have hother := h r hr
    simp [Problem.isBracket, hb] at hother
  unopened r hr op hop := by
    have hother := h r hr
    simp [Problem.isBracket, hop] at hother

/-- An opening bracket that comes next has not been reported. -/
theorem count_unclosed (h : BracketReports source n reports) (hopens : source.Opens n b) :
    reports.count (unclosedReport ⟨b, source.place n⟩) = 0 := by
  rw [List.count_eq_zero]
  intro hmem
  obtain ⟨k, hk, hopens', heq⟩ := h.unclosed _ hmem b rfl
  have hplace : source.place n = source.place k := congrArg Report.location heq
  exact absurd (hopens.eq_of_place_eq hopens' hplace) (Nat.ne_of_gt hk)

/-- A closing bracket that comes next has not been reported. -/
theorem count_unopened (h : BracketReports source n reports) (hcloses : source.Closes n b) :
    reports.count (unopenedReport b (source.place n)) = 0 := by
  rw [List.count_eq_zero]
  intro hmem
  obtain ⟨k, hk, b', hcloses', heq⟩ := h.unopened _ hmem _ rfl
  have hplace : source.place n = source.place k := congrArg Report.location heq
  exact absurd (hcloses.eq_of_place_eq hcloses' hplace) (Nat.ne_of_gt hk)

end BracketReports

theorem count_of_others {rs : List Report} {r : Report} (h : ∀ r ∈ rs, r.problem.isBracket = false)
    (hr : r.problem.isBracket = true) : rs.count r = 0 := by
  rw [List.count_eq_zero]
  intro hmem
  rw [h r hmem] at hr
  contradiction

namespace Ledger

variable {reports rs : List Report} {o : Nat × Bracket} {b : Bracket}

theorem start (source : Source) : Ledger source 0 [] [] [] where
  toMatching := .start source
  unclosed := by simp
  unopened := by simp
  opened := by simp
  closed := by simp

/-- A bracket that comes next is in no pair and not open. -/
theorem countP_eq_zero (h : Matching source n pairs opens) :
    pairs.countP (·.1 == n) = 0 ∧ pairs.countP (·.2 == n) = 0 ∧ opens.countP (·.1 == n) = 0 := by
  simp only [List.countP_eq_zero, beq_iff_eq]
  refine ⟨fun x hx => ?_, fun x hx => ?_, fun o ho => ?_⟩
  · obtain ⟨hlt, hn, -⟩ := h.paired x hx
    exact Nat.ne_of_lt (Nat.lt_trans hlt hn)
  · exact Nat.ne_of_lt (h.paired x hx).2.1
  · exact Nat.ne_of_lt (h.waiting o ho).1

/-- An opening bracket is open. -/
theorem opening (h : Ledger source n pairs opens reports) (hopens : source.Opens n b) :
    Ledger source (n + 1) pairs ((n, b) :: opens) reports where
  toMatching := h.toMatching.opening hopens
  toBracketReports := h.toBracketReports.succ
  opened k hk b' hb' := by
    rw [List.countP_cons]
    rcases Nat.lt_succ_iff_lt_or_eq.1 hk with hlt | rfl
    · have hopened := h.opened k hlt b' hb'
      have hne : ¬ (n == k) = true := by simpa using Nat.ne_of_gt hlt
      rwa [if_neg hne]
    · obtain rfl := hopens.unique hb'
      obtain ⟨hpairs, -, hopen⟩ := countP_eq_zero h.toMatching
      simp [hpairs, hopen, h.count_unclosed hopens]
  closed k hk b' hb' := by
    rcases Nat.lt_succ_iff_lt_or_eq.1 hk with hlt | rfl
    · exact h.closed k hlt b' hb'
    · exact absurd hb' hopens.not_closes

/-- A closing bracket that closes the innermost open one makes a pair with it. -/
theorem closing (h : Ledger source n pairs (o :: opens) reports) (hcloses : source.Closes n o.2) :
    Ledger source (n + 1) ((o.1, n) :: pairs) opens reports where
  toMatching := h.toMatching.closing hcloses
  toBracketReports := h.toBracketReports.succ
  opened k hk b hb := by
    rcases Nat.lt_succ_iff_lt_or_eq.1 hk with hlt | rfl
    · -- the bracket moves from the open ones to the pairs
      have hopened := h.opened k hlt b hb
      rw [List.countP_cons] at hopened ⊢
      dsimp only
      omega
    · exact absurd hcloses hb.not_closes
  closed k hk b hb := by
    rw [List.countP_cons]
    rcases Nat.lt_succ_iff_lt_or_eq.1 hk with hlt | rfl
    · have hclosed := h.closed k hlt b hb
      have hne : ¬ (n == k) = true := by simpa using Nat.ne_of_gt hlt
      rwa [if_neg hne]
    · obtain ⟨-, hpairs, -⟩ := countP_eq_zero h.toMatching
      simp [hpairs, h.count_unopened hb]

/-- Any other closing bracket is in a report. -/
theorem reject (h : Ledger source n pairs opens reports) (hcloses : source.Closes n b) :
    Ledger source (n + 1) pairs opens (reports ++ [unopenedReport b (source.place n)]) where
  toMatching := h.toMatching.succ
  toBracketReports := by
    refine h.toBracketReports.succ.append ⟨fun r hr b' hb' => ?_, fun r hr op hop => ?_⟩
    · rw [List.mem_singleton.1 hr] at hb'
      contradiction
    · exact ⟨n, Nat.lt_succ_self n, b, hcloses, List.mem_singleton.1 hr⟩
  opened k hk b' hb' := by
    rcases Nat.lt_succ_iff_lt_or_eq.1 hk with hlt | rfl
    · have hopened := h.opened k hlt b' hb'
      simpa [List.count_append, List.count_singleton, unopenedReport, unclosedReport] using hopened
    · exact absurd hcloses hb'.not_closes
  closed k hk b' hb' := by
    rw [List.count_append]
    rcases Nat.lt_succ_iff_lt_or_eq.1 hk with hlt | rfl
    · have hclosed := h.closed k hlt b' hb'
      have hne : source.place n ≠ source.place k :=
        fun heq => absurd (hcloses.eq_of_place_eq hb' heq) (Nat.ne_of_gt hlt)
      simpa [List.count_singleton, unopenedReport, hne] using hclosed
    · obtain rfl := hcloses.unique hb'
      obtain ⟨-, hpairs, -⟩ := countP_eq_zero h.toMatching
      simp [hpairs, h.count_unopened hcloses]

/-- Reports that are not about brackets move no bracket. -/
theorem report (h : Ledger source n pairs opens reports)
    (hrs : ∀ r ∈ rs, r.problem.isBracket = false) : Ledger source n pairs opens (reports ++ rs) where
  toMatching := h.toMatching
  toBracketReports := h.toBracketReports.append (.of_others hrs)
  opened k hk b hb := by
    rw [List.count_append, count_of_others hrs rfl]
    exact h.opened k hk b hb
  closed k hk b hb := by
    rw [List.count_append, count_of_others hrs rfl]
    exact h.closed k hk b hb

/-- A token that is no bracket. -/
theorem succ (h : Ledger source n pairs opens reports) (hopening : ∀ b, ¬ source.Opens n b)
    (hclosing : ∀ b, ¬ source.Closes n b) : Ledger source (n + 1) pairs opens reports where
  toMatching := h.toMatching.succ
  toBracketReports := h.toBracketReports.succ
  opened k hk b hb := by
    rcases Nat.lt_succ_iff_lt_or_eq.1 hk with hlt | rfl
    · exact h.opened k hlt b hb
    · exact absurd hb (hopening b)
  closed k hk b hb := by
    rcases Nat.lt_succ_iff_lt_or_eq.1 hk with hlt | rfl
    · exact h.closed k hlt b hb
    · exact absurd hb (hclosing b)

/-- The innermost open bracket is given up, and in a report from then on. -/
theorem giveUp (h : Ledger source n pairs (o :: opens) reports) :
    Ledger source n pairs opens (reports ++ [unclosedReport ⟨o.2, source.place o.1⟩]) := by
  obtain ⟨hn, hopens⟩ := h.waiting o List.mem_cons_self
  refine ⟨h.toMatching.drop, h.toBracketReports.append ⟨fun r hr b hb => ?_, fun r hr op hop => ?_⟩,
    fun k hk b hb => ?_, fun k hk b hb => ?_⟩
  · rw [List.mem_singleton.1 hr] at hb
    obtain rfl := Problem.unclosed.inj hb
    exact ⟨o.1, hn, hopens, List.mem_singleton.1 hr⟩
  · rw [List.mem_singleton.1 hr] at hop
    contradiction
  · have hopened := h.opened k hk b hb
    rw [List.countP_cons] at hopened
    rw [List.count_append, List.count_singleton]
    by_cases heq : o.1 = k
    · subst heq
      obtain rfl := hopens.unique hb
      simpa [Nat.add_assoc, Nat.add_comm 1] using hopened
    · have hne : source.place o.1 ≠ source.place k :=
        fun hplace => heq (hopens.eq_of_place_eq hb hplace)
      simpa [unclosedReport, heq, hne] using hopened
  · have hclosed := h.closed k hk b hb
    simpa [List.count_append, List.count_singleton, unopenedReport, unclosedReport] using hclosed

end Ledger

/-! ### Keeping the ledger -/

/-- The scanner has come to the `n`-th token of the source, and the ledger tells which brackets it
waits for and what it has reported about brackets. -/
structure Keeping (source : Source) (n : Nat) (pairs : List (Nat × Nat))
    (opens : List (Nat × Bracket)) (s : Scanner) : Prop where
  ahead : ∀ k, s.ahead k = source.tokenAt (n + k)
  pending : s.pending = opens.map fun o => ⟨o.2, source.place o.1⟩
  ledger : Ledger source n pairs opens s.reports

namespace Keeping

variable {s : Scanner}

theorem report (h : Keeping source n pairs opens s) {r : Report}
    (hr : r.problem.isBracket = false) : Keeping source n pairs opens (s.report r) where
  ahead := by
    rw [Scanner.ahead_report]
    exact h.ahead
  pending := h.pending
  ledger := h.ledger.report (by simpa using hr)

/-- Handing out a token keeps the ledger. -/
theorem advance (h : Keeping source n pairs opens s) :
    ∃ pairs' opens', Keeping source (n + 1) pairs' opens' s.advance := by
  have hnext : s.next = source.tokenAt n := h.ahead 0
  have hplace : s.next.location = source.place n := congrArg Token.location hnext
  have hahead : ∀ k, s.advance.ahead k = source.tokenAt (n + 1 + k) := by
    intro k
    rw [Scanner.ahead_advance, h.ahead, Nat.add_right_comm, Nat.add_assoc]
  by_cases hopening : ∃ b, source.Opens n b
  · obtain ⟨b, hopens⟩ := hopening
    have hkind : s.next.kind = .operator (.opening b) := by rw [hnext]; exact hopens
    obtain ⟨hpending, hreports⟩ := Scanner.advance_of_opening hkind
    refine ⟨pairs, (n, b) :: opens, hahead, ?_, hreports ▸ h.ledger.opening hopens⟩
    rw [hpending, hplace, h.pending, List.map_cons]
  · by_cases hclosing : ∃ b, source.Closes n b
    · obtain ⟨b, hcloses⟩ := hclosing
      have hkind : s.next.kind = .operator (.closing b) := by rw [hnext]; exact hcloses
      by_cases hhead : s.pending.head?.map Opening.bracket = some b
      · obtain ⟨hpending, hreports⟩ := Scanner.advance_of_closing hkind hhead
        cases opens with
        | nil => simp [h.pending] at hhead
        | cons o opens =>
          have hbracket : o.2 = b := by simpa [h.pending] using hhead
          refine ⟨(o.1, n) :: pairs, opens, hahead, ?_,
            hreports ▸ h.ledger.closing (hbracket ▸ hcloses)⟩
          rw [hpending, h.pending, List.map_cons, List.tail_cons]
      · obtain ⟨hpending, hreports⟩ := Scanner.advance_of_unopened hkind hhead
        refine ⟨pairs, opens, hahead, hpending.trans h.pending, ?_⟩
        rw [hreports, hplace]
        exact h.ledger.reject hcloses
    · rw [not_exists] at hopening hclosing
      have hopen (b : Bracket) : s.next.kind ≠ .operator (.opening b) := hnext ▸ hopening b
      have hclose (b : Bracket) : s.next.kind ≠ .operator (.closing b) := hnext ▸ hclosing b
      obtain ⟨hpending, rs, hreports, hrs⟩ := Scanner.advance_of_other hopen hclose
      refine ⟨pairs, opens, hahead, hpending.trans h.pending, ?_⟩
      rw [hreports]
      exact (h.ledger.succ hopening hclosing).report hrs

/-- The innermost open bracket is given up. -/
theorem giveUp (h : Keeping source n pairs opens s) {o : Opening} {os : List Opening}
    (hpending : s.pending = o :: os) :
    ∃ opens', Keeping source n pairs opens'
      ({ s with pending := os }.report (Scanner.unclosedReport o)) := by
  have hahead : ∀ k, ({ s with pending := os }.report (Scanner.unclosedReport o)).ahead k =
      source.tokenAt (n + k) := by
    have hcongr : ({ s with pending := os } : Scanner).ahead = s.ahead := Scanner.ahead_congr rfl rfl
    rw [Scanner.ahead_report, hcongr]
    exact h.ahead
  rw [h.pending] at hpending
  cases opens with
  | nil => contradiction
  | cons x opens =>
    obtain ⟨rfl, rfl⟩ := List.cons.inj hpending
    exact ⟨opens, hahead, rfl, h.ledger.giveUp⟩

end Keeping

/-- Whatever a parser does, its scanner has a ledger. -/
theorem ledger_invariant (source : Source) :
    Scanner.Invariant (fun _ => True) fun s => ∃ n pairs opens, Keeping source n pairs opens s where
  ahead _ _ := trivial
  fill := by
    rintro s ⟨n, pairs, opens, h⟩ m
    refine ⟨n, pairs, opens, ?_, (s.pending_fill m).trans h.pending, ?_⟩
    · rw [s.ahead_fill_eq m]
      exact h.ahead
    · rw [s.reports_fill m]
      exact h.ledger
  advance := by
    rintro s ⟨n, pairs, opens, h⟩
    obtain ⟨pairs', opens', hadvance⟩ := h.advance
    exact ⟨n + 1, pairs', opens', hadvance⟩
  error := by
    rintro s l problem ⟨n, pairs, opens, h⟩ - hproblem
    exact ⟨n, pairs, opens, h.report hproblem⟩
  remind := by
    rintro s l name ⟨n, pairs, opens, h⟩
    exact ⟨n, pairs, opens, h.report rfl⟩
  giveUp := by
    rintro s o os ⟨n, pairs, opens, h⟩ hpending
    obtain ⟨opens', hgiven⟩ := h.giveUp hpending
    exact ⟨n, pairs, opens', hgiven⟩

/-! ### Programs -/

/-- Where all brackets of a source are, by the numbers of their tokens: each opening one is in one of
the pairs, with a later closing one of its kind, or it is the place of one report; each closing one is
in one of the pairs or the place of one report; and the pairs do not cross. There are no other reports
about brackets. -/
structure Accounted (source : Source) (pairs : List (Nat × Nat)) (reports : List Report) : Prop where
  paired : ∀ x ∈ pairs, x.1 < x.2 ∧ ∃ b, source.Opens x.1 b ∧ source.Closes x.2 b
  nested : ∀ x ∈ pairs, ∀ y ∈ pairs, x.1 < y.1 → y.1 < x.2 → y.2 < x.2
  opened : ∀ k b, source.Opens k b →
    pairs.countP (·.1 == k) + reports.count (unclosedReport ⟨b, source.place k⟩) = 1
  closed : ∀ k b, source.Closes k b →
    pairs.countP (·.2 == k) + reports.count (unopenedReport b (source.place k)) = 1
  unclosed : ∀ r ∈ reports, ∀ b, r.problem = .unclosed b →
    ∃ k, source.Opens k b ∧ r = unclosedReport ⟨b, source.place k⟩
  unopened : ∀ r ∈ reports, ∀ op, r.problem = .unopened op →
    ∃ k b, source.Closes k b ∧ r = unopenedReport b (source.place k)

/-- With the file at its end and no bracket open, the ledger tells where all brackets are. -/
theorem Ledger.accounted {reports : List Report} (h : Ledger source n pairs [] reports)
    (hend : ∀ k, n ≤ k → (source.tokenAt k).isEndOfFile = true) : Accounted source pairs reports where
  paired x hx := ⟨(h.paired x hx).1, (h.paired x hx).2.2⟩
  nested := h.nested
  opened k b hb := by
    have hk : k < n := Nat.lt_of_not_le fun hle => by simpa [hend k hle] using hb.isEndOfFile
    simpa using h.opened k hk b hb
  closed k b hb := by
    have hk : k < n := Nat.lt_of_not_le fun hle => by simpa [hend k hle] using hb.isEndOfFile
    exact h.closed k hk b hb
  unclosed r hr b hb := by
    obtain ⟨k, -, hopens, heq⟩ := h.unclosed r hr b hb
    exact ⟨k, hopens, heq⟩
  unopened r hr op hop := by
    obtain ⟨k, -, b, hcloses, heq⟩ := h.unopened r hr op hop
    exact ⟨k, b, hcloses, heq⟩

namespace Parser

/-- Bracket accounting over a whole program, whatever its source is: every opening bracket is closed
by exactly one later closing bracket of its kind or is the place of exactly one report, every closing
bracket closes exactly one earlier opening bracket or is the place of exactly one report, and the
pairs do not cross. -/
theorem brackets_accounted (file : Path) (bytes : ByteArray) :
    ∃ p pairs, (ofSource (.ofBytes file bytes)).program = .ok p ∧
      Accounted (.ofBytes file bytes) pairs p.scanner.reports := by
  generalize Source.ofBytes file bytes = source
  obtain ⟨q, p, hp, hreaches, hends⟩ := (ofSource source).body_ok true
  have hstart : Keeping source 0 [] [] (ofSource source).scanner :=
    ⟨stands_ofSource source, rfl, .start source⟩
  obtain ⟨n, pairs, opens, h⟩ := ((ledger_invariant source).within _).2 true
    ⟨0, [], [], hstart⟩ hp
  -- the program has ended with the file, and given up every bracket that was open
  obtain ⟨ts, hts⟩ := hreaches.trans hends.reaches
  have honce := hts.handsOut.endsOnce (.ofSource source)
  cases hends with
  | program hnext =>
    have hnone : opens = [] := List.map_eq_nil_iff.1 h.pending.symm
    subst hnone
    refine ⟨_, pairs, hp, h.ledger.accounted fun k hk => ?_⟩
    obtain ⟨m, rfl⟩ := Nat.exists_eq_add_of_le hk
    rw [← h.ahead m]
    refine honce.ahead ?_ m
    change (((q.fill 1).scanner.flush).ahead 0).isEndOfFile = true
    rw [Scanner.ahead_flush]
    exact (congrArg Token.isEndOfFile (q.next_fill 1)).trans hnext

end Parser

end FloatLang
