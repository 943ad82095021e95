import FloatLang.Compilation
import FloatLang.Proofs.Parser.Line
import FloatLang.Proofs.Parser.Relocation
import FloatLang.Proofs.Parser.Resuming

/-!
# Recovery from errors

A line without brackets and reserved words, whatever is on it, is read for itself: what comes before it
and after it is read as if the line were empty. So errors on the line neither hide nor alter nor add
anything on any other line.

## Main definitions

* `Location.isWithin` — a place on a line or at its end
* `Parser.ComesPast` — a parser has read a line and comes to the text after it

## Main results

* `Parser.comesPast_line`, `Parser.comesPast_lineBreak` — what is left of a line, and of an empty one
* `Parser.ComesPast.moved` — after the line everything is the same, at other places
* `Parser.program_line` — recovery from errors is local to a line
-/

namespace FloatLang

/-- Whether a place is on the line of that length that starts at that offset, or at its end. -/
def Location.isWithin (l : Location) (start length : Nat) : Bool :=
  start ≤ l.offset && l.offset ≤ start + length

theorem Location.isWithin_iff {l : Location} {start length : Nat} :
    l.isWithin start length = true ↔ start ≤ l.offset ∧ l.offset ≤ start + length := by
  simp [isWithin]

/-- What does not stand at the end of an empty line is not moved to the line that takes its place. -/
theorem Relocation.isWithin_shift {start length : Nat} {l : Location} (h : l.offset ≠ start) :
    ((shift (start + 1) length).place l).isWithin start length = false := by
  rw [Bool.eq_false_iff, Ne, Location.isWithin_iff]
  rcases Nat.lt_or_ge l.offset (start + 1) with hlt | hge
  · rw [shift_of_lt hlt]
    omega
  · rw [shift_of_le hge, Location.shift]
    simp only
    omega

namespace Parser

/-- The parser `q` stands at the start of `source`, right after a line break. What `p`, from which it
comes, reads is what `q` reads, with the statements `ss` and the reports `rs` before. -/
structure ComesPast (source : Source) (p q : Parser) (ss : List Statement) (rs : List Report) :
    Prop where
  stands : q.Stands source 0
  last : q.scanner.last?.map Token.endsLine = some true
  scopes : q.scopes = p.scopes.grow [] ss p.scopes.nextId
  pending : q.scanner.pending = []
  reports : q.scanner.reports = p.scanner.reports ++ rs
  resumes : ∀ r, q.body true = .ok r → p.body true = .ok r

variable {s source source' : Source} {p p' q q' : Parser}

/-- A line is read for itself, and leaves statements and reports that are located on it. -/
theorem comesPast_line (hs : s.IsSimpleLine) (more : List Char) (hp : p.Stands (s.goOn more) 0)
    (hpending : p.scanner.pending = []) :
    ∃ (q : Parser) (ss : List Statement) (rs : List Report),
      ComesPast ⟨s.file, s.position.after (s.rest ++ ['\n']), more⟩ p q ss rs ∧
      (∀ t ∈ ss, t.location.isWithin s.position.offset s.rest.length = true) ∧
      ∀ r ∈ rs, r.location.isWithin s.position.offset s.rest.length = true := by
  obtain ⟨m, hline, hskip, hplace⟩ := hs.goOn more
  have hstart : Along (s.goOn more) m p.scopes p.scanner.reports 0 p :=
    ⟨hp, Nat.zero_le _, fun k hk => by contradiction, rfl, hpending, [], (List.append_nil _).symm,
      by simp⟩
  obtain ⟨q, ss, hq, hss, hresume⟩ := hstart.body hline
  obtain ⟨rs, hreports, hrs⟩ := hq.reports
  have hwithin : ∀ l, (s.goOn more).OnLine m l →
      l.isWithin s.position.offset s.rest.length = true := by
    rintro l ⟨k, hk, rfl⟩
    obtain ⟨passed, hpassed, hlocation⟩ := hplace k hk
    rw [hlocation, Location.isWithin_iff, Position.offset_after]
    have hlength := hpassed.length_le
    exact ⟨Nat.le_add_right _ _, Nat.add_le_add_left hlength _⟩
  refine ⟨q, ss, rs, ⟨fun k => ?_, ?_, hq.scopes, hq.pending, hreports, fun r hr => ?_⟩,
    fun t ht => hwithin _ (hss t ht), fun r hr => hwithin _ (hrs r hr)⟩
  · rw [← hskip, Source.tokenAt_skip, Nat.zero_add]
    exact hq.stands k
  · rw [hq.last? m rfl]
    simp [Token.endsLine, hline.end_of_line]
  · obtain ⟨k, hk⟩ := hresume _ r hr
    exact body_of_bodyWithin hk

/-- An empty line leaves nothing. -/
theorem comesPast_lineBreak (file : Path) (position : Position) (more : List Char)
    (hp : p.Stands ⟨file, position, '\n' :: more⟩ 0) (hpending : p.scanner.pending = []) :
    ∃ q, ComesPast ⟨file, position.after ['\n'], more⟩ p q [] [] := by
  have hp' : p.Stands ((⟨file, position, []⟩ : Source).goOn more) 0 := hp
  have hend : ((⟨file, position, []⟩ : Source).tokenAt 0).isEndOfFile = true := by
    simp [Source.tokenAt, Source.skip, Source.scan, Lexeme.ofText, Gap.ofText, Token.isEndOfFile]
  have hc := Source.continues_goOn (s := ⟨file, position, []⟩) (n := 0) (by simp) (by simp) hend more
  have hskip := Source.skip_succ_goOn (s := ⟨file, position, []⟩) (n := 0) (by simp) (by simp) hend more
  have hline : p.next.isEndOfLine = true := by
    rw [hp'.next]
    exact hc.end_of_line
  have hquiet : p.Quiet (p.fill 1).advance :=
    quiet_fill_advance (Token.isPlain_of_endsLine (by simp [Token.endsLine, hline]))
  refine ⟨(p.fill 1).advance, fun k => ?_, ?_, ?_, hquiet.pending.trans hpending,
    hquiet.reports.trans (List.append_nil _).symm, fun r hr => ?_⟩
  · have hstands := (hp'.fill 1).advance k
    rw [hstands, Nat.zero_add, ← Source.tokenAt_skip, hskip, Nat.zero_add]
    rfl
  · change (p.fill 1).scanner.advance.last?.map _ = _
    rw [Scanner.last?_advance]
    change some (p.fill 1).next.endsLine = _
    simp [Token.endsLine, hline]
  · rw [ScopeChain.grow_nil]
    rfl
  · exact body_of_bodyWithin (bodyWithin_succ.2 (.blank (by simp [hline]) hr))

/-- What the parser has read into the outermost scope and what it has reported stands before the offset
`n`: nothing of it is moved unless that is. -/
def KeptBefore (n : Nat) (p : Parser) : Prop :=
  ∀ f : Relocation, (∀ l : Location, l.offset < n → f.place l = l) →
    p.scopes.outermost.move f = p.scopes.outermost ∧
      p.scanner.reports.map (Report.move f) = p.scanner.reports

/-- What is read of a source stands before its end. -/
theorem keptBefore_of_program (h : (ofSource source).program = .ok p) :
    p.KeptBefore (source.position.offset + source.rest.length + 1) := fun _ hf =>
  move_program (fun k => hf _ (Nat.lt_succ_of_le (source.offset_tokenAt_le_length k))) h

/-! ### After the line -/

section After

variable {f : Relocation} {ss ss' : List Statement} {rs rs' : List Report} {n k length : Nat}

/-- After a line everything is as after another one, at other places, and what was there before stays
in its place. -/
theorem ComesPast.moved (h : ComesPast source p q [] []) (h' : ComesPast source' p' q' ss rs)
    (htokens : ∀ k, source'.tokenAt k = (source.tokenAt k).move f)
    (hscopes : p'.scopes = p.scopes) (hinner : p.scopes.inner = [])
    (hfixed : p.scopes.outermost.move f = p.scopes.outermost) :
    Moved ⟨f, p.scopes.outermost.statements, p.scopes.outermost.statements ++ ss,
      p.scanner.reports, p'.scanner.reports ++ rs⟩ q q' where
  ahead n := by
    rw [h.stands n, h'.stands n]
    exact htokens _
  last := h'.last.trans h.last.symm
  pending := by
    rw [h.pending, h'.pending]
    rfl
  scopes := by
    rw [h.scopes, h'.scopes, ScopeChain.grow_nil, hscopes]
    exact .grow_self hinner hfixed ss
  reports := ⟨[], by rw [h.reports], by rw [h'.reports]; simp⟩

/-- What two parsers have read and reported in the end, apart from what they had at first. -/
theorem Moved.results (h : Moved ⟨f, ss, ss', rs, rs'⟩ q q') :
    ∃ (more : List Statement) (news : List Report),
      q.scopes.outermost.statements = ss ++ more ∧
      q'.scopes.outermost.statements = ss' ++ more.map (Statement.move f) ∧
      q'.scopes.outermost.declared = q.scopes.outermost.declared.map (Variable.move f) ∧
      q.scanner.reports = rs ++ news ∧
      q'.scanner.reports = rs' ++ news.map (Report.move f) := by
  obtain ⟨more, hmore, hscope⟩ := h.scopes.outermost
  obtain ⟨news, hnews, hnews'⟩ := h.reports
  refine ⟨more, news, hmore, ?_, ?_, hnews, hnews'⟩
  · rw [hscope]
  · rw [hscope]
    rfl

/-- Nothing is located at the end of the empty line: it was there before, or comes after it. -/
theorem ComesPast.offset_ne {r : Parser} (h : ComesPast source p q [] [])
    (hafter : ∀ k, n < (source.tokenAt k).location.offset) (hinner : p.scopes.inner = [])
    (hkept : p.KeptBefore n) (hr : q.body true = .ok r) :
    (∀ t ∈ r.scopes.outermost.statements, t.location.offset ≠ n) ∧
      ∀ report ∈ r.scanner.reports, report.location.offset ≠ n := by
  have hstay (k : Nat) : source.tokenAt k = (source.tokenAt k).move (.displace n) := by
    rw [Token.move, Relocation.displace_eq_self.2 (Nat.ne_of_gt (hafter k))]
  obtain ⟨hscope, hreports⟩ := hkept (.displace n)
    fun l hl => Relocation.displace_eq_self.2 (Nat.ne_of_lt hl)
  obtain ⟨r', hr', hmoved⟩ := (h.moved h hstay rfl hinner hscope).body hr
  obtain rfl : r = r' := Except.ok.inj (hr.symm.trans hr')
  -- what does not change when that place is moved away is not located there
  obtain ⟨more, news, hmore, hmore', -, hnews, hnews'⟩ := hmoved.results
  simp only [List.append_nil] at hmore' hnews'
  have hstatements : r.scopes.outermost.statements.map (Statement.move (.displace n)) =
      r.scopes.outermost.statements := by
    have hold : p.scopes.outermost.statements.map (Statement.move (.displace n)) =
        p.scopes.outermost.statements := congrArg Scope.statements hscope
    conv => lhs; rw [hmore, List.map_append, hold]
    exact hmore'.symm
  have hall : r.scanner.reports.map (Report.move (.displace n)) = r.scanner.reports := by
    conv => lhs; rw [hnews, List.map_append, hreports]
    exact hnews'.symm
  refine ⟨fun t ht => ?_, fun report hreport => ?_⟩
  · have hmove := List.map_inj_left.1 (hstatements.trans (List.map_id _).symm) t ht
    exact Relocation.displace_eq_self.1 ((t.location_move _).symm.trans (congrArg _ hmove))
  · have hmove := List.map_inj_left.1 (hall.trans (List.map_id _).symm) report hreport
    exact Relocation.displace_eq_self.1 (congrArg Report.location hmove)

/-- Of a list that got new entries in between, those that are kept are the old ones. -/
theorem filter_of_inserted {α : Type} {g : α → α} {keep : α → Bool} {xs ys zs : List α}
    (hkept : ∀ x ∈ xs ++ ys, keep (g x) = true) (hnew : ∀ z ∈ zs, keep z = false) :
    (xs.map g ++ zs ++ ys.map g).filter keep = (xs ++ ys).map g := by
  have hdropped : zs.filter keep = [] := List.filter_eq_nil_iff.2 (by simpa using hnew)
  rw [List.filter_append, List.filter_append, hdropped, List.append_nil, ← List.filter_append,
    ← List.map_append, List.filter_eq_self]
  intro y hy
  obtain ⟨x, hx, rfl⟩ := List.mem_map.1 hy
  exact hkept x hx

/-- What is read after a line and after an empty one differs by what is located on the line only. -/
theorem ComesPast.body {r : Parser} (h : ComesPast source p q [] [])
    (h' : ComesPast source' p' q' ss rs)
    (hss : ∀ t ∈ ss, t.location.isWithin n length = true)
    (hrs : ∀ report ∈ rs, report.location.isWithin n length = true)
    (htokens : ∀ k, source'.tokenAt k = (source.tokenAt k).move (.shift (n + 1) length))
    (hafter : ∀ k, n < (source.tokenAt k).location.offset) (hscopes : p'.scopes = p.scopes)
    (hreports : p'.scanner.reports = p.scanner.reports) (hinner : p.scopes.inner = [])
    (hkept : p.KeptBefore n) (hr : q.body true = .ok r) :
    ∃ r', q'.body true = .ok r' ∧
      (r'.scopes.outermost.statements.filter fun t => !t.location.isWithin n length) =
        r.scopes.outermost.statements.map (Statement.move (.shift (n + 1) length)) ∧
      r'.scopes.outermost.declared =
        r.scopes.outermost.declared.map (Variable.move (.shift (n + 1) length)) ∧
      (r'.scanner.reports.filter fun report => !report.location.isWithin n length) =
        r.scanner.reports.map (Report.move (.shift (n + 1) length)) := by
  obtain ⟨hscope, hold⟩ := hkept (.shift (n + 1) length)
    fun l hl => Relocation.shift_of_lt (Nat.lt_succ_of_lt hl)
  have hstatements : p.scopes.outermost.statements =
      p.scopes.outermost.statements.map (Statement.move (.shift (n + 1) length)) :=
    (congrArg Scope.statements hscope).symm
  obtain ⟨hne, hne'⟩ := h.offset_ne hafter hinner hkept hr
  obtain ⟨r', hr', hmoved⟩ := (h.moved h' htokens hscopes hinner hscope).body hr
  obtain ⟨more, news, hmore, hmore', hdeclared, hnews, hnews'⟩ := hmoved.results
  refine ⟨r', hr', ?_, hdeclared, ?_⟩
  · rw [hmore', hmore]
    conv => lhs; rw [hstatements]
    apply filter_of_inserted
    · intro t ht
      rw [Statement.location_move, Relocation.isWithin_shift (hne t (hmore ▸ ht))]
      rfl
    · intro t ht
      rw [hss t ht]
      rfl
  · rw [hnews', hnews, hreports]
    conv => lhs; rw [← hold]
    apply filter_of_inserted
    · intro report hreport
      rw [Report.move, Relocation.isWithin_shift (hne' report (hnews ▸ hreport))]
      rfl
    · intro report hreport
      rw [hrs report hreport]
      rfl

end After

/-- The text after a line has the same tokens as after an empty line, further on by the length of the
line. -/
theorem tokenAt_after_line (file : Path) {position : Position} {line : List Char} {n : Nat}
    (hline : '\n' ∉ line) (hposition : position.offset = n) (more : List Char) (k : Nat) :
    n < ((⟨file, position.after ['\n'], more⟩ : Source).tokenAt k).location.offset ∧
      (⟨file, position.after (line ++ ['\n']), more⟩ : Source).tokenAt k =
        ((⟨file, position.after ['\n'], more⟩ : Source).tokenAt k).move
          (.shift (n + 1) line.length) := by
  have hafter : n + 1 ≤
      ((⟨file, position.after ['\n'], more⟩ : Source).tokenAt k).location.offset := by
    have hle := (⟨file, position.after ['\n'], more⟩ : Source).offset_le_tokenAt k
    rw [Position.offset_after, hposition] at hle
    exact hle
  refine ⟨hafter, ?_⟩
  rw [Position.after_line _ hline, Token.move, Relocation.shift_of_le hafter]
  exact Source.tokenAt_shift ⟨file, position.after ['\n'], more⟩ line.length k

/-- Recovery from errors is local to a line: in a program that is read without an error up to a line
without brackets and reserved words, the line makes no difference but by the statements and diagnostics
that are located on it. All others are those that there are with an empty line, further on in the file
by the length of the line if they come after it. -/
theorem program_line (file : Path) (a line b : ByteArray)
    (ha : (ofSource (.ofBytes file a)).program = .ok p) (herrors : p.errorCount = 0)
    (hline : (Source.ofBytes file line).IsSimpleLine) :
    ∃ q q' : Parser,
      (ofSource (.ofBytes file (a ++ "\n".toUTF8 ++ line ++ "\n".toUTF8 ++ b))).program = .ok q ∧
      (ofSource (.ofBytes file (a ++ "\n".toUTF8 ++ "\n".toUTF8 ++ b))).program = .ok q' ∧
      (q.scopes.outermost.statements.filter fun s => !s.location.isWithin (a.size + 1) line.size) =
        q'.scopes.outermost.statements.map (Statement.move (.shift (a.size + 2) line.size)) ∧
      q.scopes.outermost.declared =
        q'.scopes.outermost.declared.map (Variable.move (.shift (a.size + 2) line.size)) ∧
      ∀ quotes,
        ((q.diagnostics quotes).filter fun d => !d.location.isWithin (a.size + 1) line.size) =
          (q'.diagnostics quotes).map (Diagnostic.move (.shift (a.size + 2) line.size)) := by
  -- both texts go on after the program, one with the line and the other with an empty one
  have htext : a ++ "\n".toUTF8 ++ line ++ "\n".toUTF8 ++ b =
      a ++ "\n".toUTF8 ++ (line ++ "\n".toUTF8 ++ b) := by
    simp only [ByteArray.append_assoc]
  have htext' : a ++ "\n".toUTF8 ++ "\n".toUTF8 ++ b = a ++ "\n".toUTF8 ++ ("\n".toUTF8 ++ b) := by
    simp only [ByteArray.append_assoc]
  have hbreak : Source.charactersOf "\n".toUTF8 = ['\n'] := by decide
  have hlength : (Source.ofBytes file a).rest.length = a.size := Source.length_charactersOf a
  have hlength' : (Source.charactersOf line).length = line.size := Source.length_charactersOf line
  have hkept : p.KeptBefore (a.size + 1) := by
    have hbefore := keptBefore_of_program ha
    rw [hlength] at hbefore
    exact (Nat.zero_add a.size) ▸ hbefore
  generalize hposition : (Source.ofBytes file a).position.after
    ((Source.ofBytes file a).rest ++ ['\n']) = position
  have hoffset : position.offset = a.size + 1 := by
    rw [← hposition, Position.offset_after, List.length_append, hlength]
    exact Nat.zero_add _
  obtain ⟨r, hr, hscopes, hpending, hreports, hresume⟩ :=
    resumes ha herrors (Source.charactersOf line ++ '\n' :: Source.charactersOf b)
  obtain ⟨r', hr', hscopes', hpending', hreports', hresume'⟩ :=
    resumes ha herrors ('\n' :: Source.charactersOf b)
  rw [hposition] at hr hr'
  have hs : (⟨file, position, Source.charactersOf line⟩ : Source).IsSimpleLine := hline.congr rfl
  obtain ⟨u, ss, rs, hu, hss, hrs⟩ := comesPast_line hs (Source.charactersOf b) hr hpending
  obtain ⟨w, hw⟩ := comesPast_lineBreak file position (Source.charactersOf b) hr' hpending'
  simp only [hoffset, hlength'] at hss hrs
  have hafter := tokenAt_after_line file hs.ne_lineBreak hoffset (Source.charactersOf b)
  rw [hlength'] at hafter
  have hinner : r'.scopes.inner = [] := by
    rw [hscopes']
    exact (program_ends ha).2.1
  have hkept' : r'.KeptBefore (a.size + 1) := by
    unfold KeptBefore
    rw [hscopes', hreports']
    exact hkept
  obtain ⟨-, q', hq', -⟩ := w.body_ok true
  obtain ⟨q, hq, hstatements, hdeclared, hall⟩ := hw.body hu hss hrs (fun k => (hafter k).2)
    (fun k => (hafter k).1) (hscopes.trans hscopes'.symm) (hreports.trans hreports'.symm) hinner
    hkept' hq'
  refine ⟨q, q', ?_, ?_, hstatements, hdeclared, fun quotes => ?_⟩
  · rw [htext, Source.ofBytes_goOn, Source.charactersOf_append, Source.charactersOf_append, hbreak,
      List.append_assoc]
    exact hresume q (hu.resumes q hq)
  · rw [htext', Source.ofBytes_goOn, Source.charactersOf_append, hbreak]
    exact hresume' q' (hw.resumes q' hq')
  · unfold diagnostics
    rw [List.filter_map, List.map_map]
    have hlocation : ((fun d : Diagnostic => !d.location.isWithin (a.size + 1) line.size) ∘
        Report.diagnostic quotes) = fun report => !report.location.isWithin (a.size + 1) line.size := rfl
    rw [hlocation, hall, List.map_map]
    exact List.map_congr_left fun report _ => report.diagnostic_move _ quotes

/-- A line with several errors between a declaration and a statement that lacks an operand. -/
theorem program_line_of_errors :
    ∃ p q q', (ofSource (.ofBytes ⟨"main.rin"⟩ "float x".toUTF8)).program = .ok p ∧
      p.errorCount = 0 ∧ (Source.ofBytes ⟨"main.rin"⟩ "x = 1 y; @ z++".toUTF8).IsSimpleLine ∧
      (ofSource (.ofBytes ⟨"main.rin"⟩ ("float x".toUTF8 ++ "\n".toUTF8 ++ "x = 1 y; @ z++".toUTF8 ++
        "\n".toUTF8 ++ "x = 2; x = 3 *".toUTF8))).program = .ok q ∧
      (ofSource (.ofBytes ⟨"main.rin"⟩ ("float x".toUTF8 ++ "\n".toUTF8 ++ "\n".toUTF8 ++
        "x = 2; x = 3 *".toUTF8))).program = .ok q' ∧
      q.scopes.outermost.declared = q'.scopes.outermost.declared.map (Variable.move (.shift 9 14)) ∧
      ((q.diagnostics {}).filter fun d => !d.location.isWithin 8 14) =
        (q'.diagnostics {}).map (Diagnostic.move (.shift 9 14)) := by
  obtain ⟨-, p, hp, -⟩ := (ofSource (.ofBytes ⟨"main.rin"⟩ "float x".toUTF8)).body_ok true
  have hp' : (ofSource (.ofBytes ⟨"main.rin"⟩ "float x".toUTF8)).program = .ok p := hp
  have hfacts : ((ofSource (.ofBytes ⟨"main.rin"⟩ "float x".toUTF8)).program
      |>.toOption.map errorCount) = some 0 := by
    decide +kernel
  rw [hp'] at hfacts
  have herrors : p.errorCount = 0 := Option.some.inj hfacts
  have hline : (Source.ofBytes ⟨"main.rin"⟩ "x = 1 y; @ z++".toUTF8).IsSimpleLine := by
    apply Source.isSimpleLine_of_end (n := 8) <;> decide +kernel
  obtain ⟨q, q', hq, hq', -, hdeclared, hdiagnostics⟩ :=
    program_line ⟨"main.rin"⟩ _ _ "x = 2; x = 3 *".toUTF8 hp' herrors hline
  exact ⟨p, q, q', hp', herrors, hline, hq, hq', hdeclared, hdiagnostics {}⟩

end Parser

end FloatLang
