import FloatLang.Proofs.Parser.Invariants
import FloatLang.Proofs.Scanner.Lines

/-!
# Where reports point to

Whatever a parser reports about a source, it reports at the place of one of its tokens: errors at
tokens that it has seen, brackets that are never closed where they were opened, and reminders where a
variable was declared. A token that is missing at the end of the file is missed there.

## Main definitions

* `Source.HasPlace` — a place at which a token of a source stands
* `Scanner.Pointing` — a scanner whose tokens, open brackets and reports are at such places

## Main results

* `Source.hasPlace_iff` — the places of tokens, by their numbers
* `Scanner.pointing_invariant` — whatever a parser does, its scanner points to tokens
* `Parser.exists_token_of_report` — so do all reports about a program
-/

namespace FloatLang

/-- A token of the source stands there, perhaps the end of the file. -/
def Source.HasPlace (source : Source) (l : Location) : Prop :=
  ∃ t ∈ (Scanner.tokens { source }).1, l = t.location

/-- Behind the last token of a source there is only its end, again and again. -/
theorem Source.hasPlace_iff {source : Source} {l : Location} :
    source.HasPlace l ↔ ∃ k, l = (source.tokenAt k).location := by
  obtain ⟨m, hbefore, hend⟩ := source.exists_endOfFile
  rw [HasPlace, tokens_eq_map hbefore hend]
  constructor
  · rintro ⟨t, ht, rfl⟩
    obtain ⟨k, -, rfl⟩ := List.mem_map.1 ht
    exact ⟨k, rfl⟩
  · rintro ⟨k, rfl⟩
    have hmem {i : Nat} (hi : i ≤ m) : source.tokenAt i ∈ (List.range (m + 1)).map source.tokenAt :=
      List.mem_map_of_mem (List.mem_range.2 (Nat.lt_succ_of_le hi))
    rcases Nat.le_total k m with hk | hk
    · exact ⟨_, hmem hk, rfl⟩
    · have hagain := source.isEndOfFile_of_le hend hk
      refine ⟨_, hmem (Nat.le_refl m), ?_⟩
      rw [location_of_isEndOfFile hagain, location_of_isEndOfFile hend]

namespace Scanner

variable {source : Source} {s : Scanner}

/-- The tokens ahead, the open brackets and the reports are at places of tokens. -/
structure Pointing (source : Source) (s : Scanner) : Prop where
  ahead : ∀ n, source.HasPlace (s.ahead n).location
  pending : ∀ o ∈ s.pending, source.HasPlace o.location
  reports : ∀ r ∈ s.reports, source.HasPlace r.location

theorem Pointing.report {r : Report} (h : s.Pointing source) (hr : source.HasPlace r.location) :
    (s.report r).Pointing source where
  ahead := by
    rw [ahead_report]
    exact h.ahead
  pending := h.pending
  reports := List.forall_mem_append.2 ⟨h.reports, by simpa using hr⟩

/-- Whatever a parser does, its scanner points to tokens, if the variables in sight do. -/
theorem pointing_invariant (source : Source) :
    SightedInvariant source.HasPlace source.HasPlace (Pointing source) where
  ahead h := h.ahead
  fill h n := by
    refine ⟨?_, ?_, ?_⟩
    · rw [ahead_fill_eq]
      exact h.ahead
    · rw [pending_fill]
      exact h.pending
    · rw [reports_fill]
      exact h.reports
  advance := by
    intro s h
    refine ⟨fun n => ?_, fun o ho => ?_, fun r hr => ?_⟩
    · rw [ahead_advance]
      exact h.ahead (n + 1)
    · rcases mem_pending_advance ho with hold | hnew
      · exact h.pending o hold
      · rw [hnew]
        exact h.ahead 0
    · rcases mem_reports_advance hr with hold | hnew
      · exact h.reports r hold
      · rw [hnew]
        exact h.ahead 0
  error h hl _ := h.report hl
  giveUp := by
    intro s o os h hpending
    have hall := h.pending
    rw [hpending, List.forall_mem_cons] at hall
    have hgiven : ({ s with pending := os } : Scanner).Pointing source :=
      ⟨(ahead_congr rfl rfl : ({ s with pending := os } : Scanner).ahead = s.ahead) ▸ h.ahead,
        hall.2, h.reports⟩
    exact hgiven.report hall.1
  sight hl := hl
  remind _ h hl := h.report hl

end Scanner

namespace Parser

variable {source : Source} {p : Parser}

/-- Everything that is reported about a program is reported at a token of its source. -/
theorem exists_token_of_report (h : (ofSource source).program = .ok p) :
    ∀ r ∈ p.scanner.reports, source.HasPlace r.location := by
  have hahead (n : Nat) : source.HasPlace ((ofSource source).scanner.ahead n).location := by
    have hn : (ofSource source).scanner.ahead n = source.tokenAt (0 + n) := stands_ofSource source n
    rw [hn]
    exact Source.hasPlace_iff.2 ⟨_, rfl⟩
  -- nothing was read, reported or declared yet
  have hstart : (ofSource source).Upholds source.HasPlace (Scanner.Pointing source) :=
    ⟨⟨hahead, by simp [ofSource], by simp [ofSource]⟩, fun v hv => absurd hv List.not_mem_nil⟩
  exact (((Scanner.pointing_invariant source).within _).2 true hstart h).scanner.reports

end Parser

end FloatLang
