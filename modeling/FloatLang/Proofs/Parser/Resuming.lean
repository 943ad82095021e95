import FloatLang.Proofs.Parser.Abreast

/-!
# Programs that go on after a line break

A program that is read without an error has no effect on how text on later lines is read, other than
through the variables it declares, and that text has none on the program: its statements and variables
are read first, as if it ended there, and errors are found after it only.

## Main definitions

* `Scanner.Beyond` — a scanner that has come to a place in its file, and found no error before it

## Main results

* `Parser.resumes` — what comes after a program and a line break is read from there on
* `Parser.program_goOn` — a program is read in the same way whatever follows on later lines
-/

namespace FloatLang

namespace Scanner

/-- No token ahead, no open bracket and no error is at an offset below `m`. -/
structure Beyond (m : Nat) (s : Scanner) : Prop where
  ahead : ∀ n, m ≤ (s.ahead n).location.offset
  pending : ∀ o ∈ s.pending, m ≤ o.location.offset
  reports : ∀ r ∈ s.reports, r.severity.isError = true → m ≤ r.location.offset

theorem Beyond.report {m : Nat} {s : Scanner} {r : Report} (h : s.Beyond m)
    (hr : r.severity.isError = true → m ≤ r.location.offset) : (s.report r).Beyond m where
  ahead := by
    rw [ahead_report]
    exact h.ahead
  pending := h.pending
  reports r' hr' herror := by
    rcases List.mem_append.1 hr' with hold | hnew
    · exact h.reports r' hold herror
    · obtain rfl := List.mem_singleton.1 hnew
      exact hr herror

/-- Whatever a parser does, it finds no error before the place to which it has come. -/
theorem beyond_invariant (m : Nat) : Invariant (fun l => m ≤ l.offset) (Beyond m) where
  ahead h := h.ahead
  fill h n := by
    refine ⟨?_, ?_, ?_⟩
    · rw [ahead_fill_eq]
      exact h.ahead
    · rw [pending_fill]
      exact h.pending
    · rw [reports_fill]
      exact h.reports
  advance := by
    intro s h
    refine ⟨fun n => ?_, fun o ho => ?_, fun r hr herror => ?_⟩
    · rw [ahead_advance]
      exact h.ahead _
    · rcases mem_pending_advance ho with hold | hnew
      · exact h.pending o hold
      · rw [hnew]
        exact h.ahead 0
    · rcases mem_reports_advance hr with hold | hnew
      · exact h.reports r hold herror
      · rw [hnew]
        exact h.ahead 0
  error h hl _ := h.report fun _ => hl
  remind l name h := h.report (by simp [Severity.isError])
  giveUp := by
    intro s o os h hpending
    have hall := h.pending
    rw [hpending, List.forall_mem_cons] at hall
    have hsame : ({ s with pending := os } : Scanner).ahead = s.ahead := ahead_congr rfl rfl
    have hrest : ({ s with pending := os } : Scanner).Beyond m := by
      refine ⟨?_, hall.2, h.reports⟩
      rw [hsame]
      exact h.ahead
    exact hrest.report fun _ => hall.1

end Scanner

namespace Parser

variable {source : Source} {p : Parser}

/-- What comes after a program without errors and a line break is read from there on: a parser stands
there that has read the program, and what it reads is what is read of the whole. -/
theorem resumes (h : (ofSource source).program = .ok p) (herrors : p.errorCount = 0)
    (text : List Char) :
    ∃ r : Parser, r.Stands ⟨source.file, source.position.after (source.rest ++ ['\n']), text⟩ 0 ∧
      r.scopes = p.scopes ∧ r.scanner.pending = [] ∧ r.scanner.reports = p.scanner.reports ∧
      ∀ u, r.body true = .ok u → (ofSource (source.goOn text)).program = .ok u := by
  obtain ⟨n, hsource⟩ := sound_of_program h herrors
  have hclosed : ∀ k < n, (source.tokenAt k).kind ≠ .invalid .unterminatedComment :=
    fun k hk => hsource.ne_invalid hk _
  have hc := Source.continues_goOn hclosed hsource.before hsource.end_of_file text
  have hstart : Abreast source (source.goOn text) n 0 (ofSource source)
      (ofSource (source.goOn text)) :=
    ⟨stands_ofSource _, stands_ofSource _, Nat.zero_le _, rfl, rfl, rfl,
      ⟨0, stands_ofSource source, fun _ => rfl⟩⟩
  obtain ⟨r, hr, hscopes, hpending, hreports, hresume⟩ :=
    Abreast.program hc hsource hstart h herrors
  refine ⟨r, fun k => ?_, hscopes, hpending, hreports, fun u hu => ?_⟩
  · rw [← Source.skip_succ_goOn hclosed hsource.before hsource.end_of_file text,
      Source.tokenAt_skip, Nat.zero_add]
    exact hr k
  · obtain ⟨k, hk⟩ := hresume r.bound u hu
    exact body_of_bodyWithin hk

theorem Stands.beyond {m : Nat} (hp : p.Stands source 0) (hm : m ≤ source.position.offset)
    (hpending : p.scanner.pending = []) (herrors : p.errorCount = 0) : p.scanner.Beyond m where
  ahead k := by
    have hahead : p.scanner.ahead k = source.tokenAt k := (hp k).trans (by rw [Nat.zero_add])
    rw [hahead]
    exact Nat.le_trans hm (source.offset_le_tokenAt k)
  pending := by simp [hpending]
  reports r hr herror := by
    have hnone := List.countP_eq_zero.1 herrors r hr
    contradiction

/-- A program that is read without an error is read in the same way whatever follows on later lines: its
statements and variables come first, with their places, and no error is found before the line break
at its end, nor there. -/
theorem program_goOn (file : Path) (a b : ByteArray)
    (h : (ofSource (.ofBytes file a)).program = .ok p) (herrors : p.errorCount = 0) :
    ∃ q, (ofSource (.ofBytes file (a ++ "\n".toUTF8 ++ b))).program = .ok q ∧
      p.scopes.outermost.statements <+: q.scopes.outermost.statements ∧
      p.scopes.outermost.declared <+: q.scopes.outermost.declared ∧
      ∀ r ∈ q.scanner.reports, r.severity.isError = true → a.size < r.location.offset := by
  obtain ⟨r, hr, hscopes, hpending, hreports, hresume⟩ := resumes h herrors (Source.charactersOf b)
  obtain ⟨-, q, hq, -⟩ := r.body_ok true
  -- the program has left the outermost scope only, and what follows adds to it
  obtain ⟨-, hinner, -⟩ := program_ends h
  obtain ⟨ss, hss⟩ := (makes_within _ _).2 true hr hq
  obtain ⟨k, hgrow⟩ := hss.scopes
  rw [hscopes] at hgrow
  have houtermost : q.scopes.outermost = { p.scopes.outermost with
      declared := p.scopes.outermost.declared ++ ss.flatMap Statement.declared
      statements := p.scopes.outermost.statements ++ ss } := by
    rw [hgrow, ScopeChain.grow, ScopeChain.modifyCurrent, hinner]
  have hoffset : a.size + 1 ≤ ((Source.ofBytes file a).position.after
      ((Source.ofBytes file a).rest ++ ['\n'])).offset := by
    have hlength : (Source.ofBytes file a).rest.length = a.size := Source.length_charactersOf a
    rw [Position.offset_after, List.length_append, List.length_singleton, hlength]
    exact Nat.le_add_left _ _
  have hr' : r.errorCount = 0 := by
    rw [errorCount, Scanner.errorCount, hreports]
    exact herrors
  have hbeyond := ((Scanner.beyond_invariant (a.size + 1)).within _).2 true
    (hr.beyond hoffset hpending hr') hq
  rw [Source.ofBytes_goOn]
  refine ⟨q, hresume q hq, ?_, ?_, hbeyond.reports⟩
  · rw [houtermost]
    exact List.prefix_append _ _
  · rw [houtermost]
    exact List.prefix_append _ _

/-- A program that ends in a comment, and goes on with a line that has errors. -/
theorem program_goOn_of_comment :
    ∃ p q, (ofSource (.ofBytes ⟨"main.rin"⟩ "if 1 \x7b float x \x7d // end".toUTF8)).program = .ok p ∧
      p.errorCount = 0 ∧
      (ofSource (.ofBytes ⟨"main.rin"⟩
        ("if 1 \x7b float x \x7d // end".toUTF8 ++ "\n".toUTF8 ++ "x = 1 \x7d".toUTF8))).program = .ok q ∧
      p.scopes.outermost.statements <+: q.scopes.outermost.statements := by
  obtain ⟨-, p, hp, -⟩ :=
    (ofSource (.ofBytes ⟨"main.rin"⟩ "if 1 \x7b float x \x7d // end".toUTF8)).body_ok true
  have hfacts : ((ofSource (.ofBytes ⟨"main.rin"⟩ "if 1 \x7b float x \x7d // end".toUTF8)).program
      |>.toOption.map errorCount) = some 0 := by
    decide +kernel
  have hp' : (ofSource (.ofBytes ⟨"main.rin"⟩ "if 1 \x7b float x \x7d // end".toUTF8)).program =
      .ok p := hp
  rw [hp'] at hfacts
  have herrors : p.errorCount = 0 := Option.some.inj hfacts
  obtain ⟨q, hq, hstatements, -⟩ := program_goOn ⟨"main.rin"⟩ _ "x = 1 \x7d".toUTF8 hp' herrors
  exact ⟨p, q, hp', herrors, hq, hstatements⟩

end Parser

end FloatLang
