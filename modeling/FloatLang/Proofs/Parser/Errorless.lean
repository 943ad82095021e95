import FloatLang.Proofs.Parser.Invariants
import FloatLang.Proofs.Parser.Quiet
import Mathlib.Data.Nat.Find

/-!
# Programs without errors

As long as nothing has been reported, there was no objection to any token handed out, and the open
brackets are those that the tokens leave open. So in a program that is read without an error every
token is valid and every bracket is closed, and no reader comes to the end of the file with a bracket
open.

## Main definitions

* `Source.Sound` — up to the end of the file there is nothing to object to
* `Scanner.Follows` — without errors, the open brackets are those of the tokens handed out

## Main results

* `Scanner.follows_invariant` — whatever a parser does, its scanner follows the tokens
* `Parser.sound_of_program` — a program without errors has a sound source
* `Scanner.Follows.pending_eq_nil` — no bracket is open at the end of a sound source
-/

namespace FloatLang

namespace Source

/-- The first `n` tokens of a source are all it has, there is no objection to any of them, and they
leave no bracket open. -/
structure Sound (source : Source) (n : Nat) : Prop where
  before : ∀ k < n, (source.tokenAt k).isEndOfFile = false
  end_of_file : (source.tokenAt n).isEndOfFile = true
  followed : followAll? [] ((List.range n).map source.tokenAt) = some []

variable {source : Source} {n k : Nat}

theorem Sound.lt (h : source.Sound n) (hk : (source.tokenAt k).isEndOfFile = false) : k < n := by
  apply Nat.lt_of_not_le
  intro hnk
  rw [isEndOfFile_of_le h.end_of_file hnk] at hk
  contradiction

theorem error?_of_followAll? {pending pending' : List Opening} {ts : List Token}
    (h : followAll? pending ts = some pending') : ∀ t ∈ ts, t.error? = none := by
  induction ts generalizing pending with
  | nil => simp
  | cons t ts ih =>
    rw [followAll?_cons] at h
    obtain ⟨middle, hfirst, hrest⟩ := Option.bind_eq_some_iff.1 h
    refine List.forall_mem_cons.2 ⟨?_, ih hrest⟩
    cases hkind : t.kind with
    | invalid error => simp [follow?, hkind] at hfirst
    | _ => simp [Token.error?, hkind]

/-- Every token of a sound source is valid. -/
theorem Sound.ne_invalid (h : source.Sound n) (hk : k < n) (error : LexError) :
    (source.tokenAt k).kind ≠ .invalid error := by
  intro hkind
  have hvalid := error?_of_followAll? h.followed (source.tokenAt k)
    (List.mem_map.2 ⟨k, List.mem_range.2 hk, rfl⟩)
  simp [Token.error?, hkind] at hvalid

/-- The end of the file opens and closes nothing, however often it is handed out. -/
theorem followAll?_of_le (hn : (source.tokenAt n).isEndOfFile = true) (hnk : n ≤ k) :
    followAll? [] ((List.range k).map source.tokenAt) =
      followAll? [] ((List.range n).map source.tokenAt) := by
  induction hnk with
  | refl => rfl
  | @step k hnk ih =>
    have hplain : (source.tokenAt k).isPlain = true :=
      Token.isPlain_of_endsLine (by simp [Token.endsLine, isEndOfFile_of_le hn hnk])
    rw [List.range_succ, List.map_append, followAll?_append, ih]
    cases followAll? [] ((List.range n).map source.tokenAt) <;> simp [follow?_of_isPlain hplain]

end Source

namespace Scanner

/-- The scanner has come to some token of the source, and if it has reported no error, the open brackets
are those that the tokens before leave open. -/
def Follows (source : Source) (s : Scanner) : Prop :=
  ∃ n, (∀ k, s.ahead k = source.tokenAt (n + k)) ∧
    (s.errorCount = 0 → followAll? [] ((List.range n).map source.tokenAt) = some s.pending)

variable {source : Source} {s : Scanner} {n : Nat}

theorem errorCount_report_le (s : Scanner) (r : Report) :
    s.errorCount ≤ (s.report r).errorCount := by
  simp [report, errorCount, List.countP_append]

/-- Without an error, the next token was handed out without objection. -/
theorem follow?_of_errorCount (h : s.advance.errorCount = 0) :
    s.errorCount = 0 ∧ follow? s.pending s.next = some s.advance.pending := by
  have hcount : s.advance.errorCount = s.errorCount + ((s.objection? s.next).toList.map fun problem =>
      ({ location := s.next.location, problem } : Report)).countP (·.severity.isError) := by
    rw [errorCount, reports_advance, List.countP_append]
    rfl
  rw [h] at hcount
  cases hobjection : s.objection? s.next with
  | some problem => simp [hobjection, Severity.isError] at hcount
  | none =>
    refine ⟨by omega, ?_⟩
    rw [pending_advance]
    exact follow?_of_objection? hobjection

/-- Whatever a parser does, its scanner follows the tokens. -/
theorem follows_invariant (source : Source) : Invariant (fun _ => True) (Follows source) where
  ahead _ _ := trivial
  fill := by
    rintro s ⟨n, hahead, hpending⟩ m
    refine ⟨n, ?_, ?_⟩
    · rwa [ahead_fill_eq]
    · rwa [errorCount, reports_fill, pending_fill]
  advance := by
    rintro s ⟨n, hahead, hpending⟩
    refine ⟨n + 1, fun k => ?_, fun herrors => ?_⟩
    · rw [ahead_advance, hahead, Nat.add_assoc, Nat.add_comm 1]
    · obtain ⟨herrors, hfollow⟩ := follow?_of_errorCount herrors
      have hnext : s.next = source.tokenAt n := hahead 0
      rw [List.range_succ, List.map_append, followAll?_append, hpending herrors]
      simpa [← hnext] using hfollow
  error := by
    rintro s l problem ⟨n, hahead, -⟩ - -
    refine ⟨n, ?_, fun herrors => ?_⟩
    · rwa [error, ahead_report]
    · rw [errorCount_error] at herrors
      contradiction
  remind := by
    rintro s l name ⟨n, hahead, hpending⟩
    refine ⟨n, ?_, fun herrors => hpending ?_⟩
    · rwa [ahead_report]
    · exact Nat.le_zero.1 (herrors ▸ s.errorCount_report_le _)
  giveUp := by
    rintro s o os ⟨n, hahead, -⟩ -
    refine ⟨n, ?_, fun herrors => ?_⟩
    · have hsame : ({ s with pending := os } : Scanner).ahead = s.ahead := ahead_congr rfl rfl
      rwa [ahead_report, hsame]
    · simp [unclosedReport, report, errorCount, Severity.isError] at herrors

/-- No bracket is open at the end of a sound source. -/
theorem Follows.pending_eq_nil (h : s.Follows source) (hsource : source.Sound n)
    (herrors : s.errorCount = 0) (hend : s.next.isEndOfFile = true) : s.pending = [] := by
  obtain ⟨k, hahead, hpending⟩ := h
  have hnext : s.next = source.tokenAt k := hahead 0
  have hnk : n ≤ k := Nat.le_of_not_lt fun hlt => by
    rw [hnext, hsource.before k hlt] at hend
    contradiction
  have hfollowed := hpending herrors
  rw [Source.followAll?_of_le hsource.end_of_file hnk, hsource.followed] at hfollowed
  exact (Option.some.inj hfollowed).symm

end Scanner

namespace Parser

variable {source : Source} {p q : Parser}

/-- A program ends with its source, and no scope and no bracket is open then. -/
theorem program_ends (h : (ofSource source).program = .ok p) :
    p.next.isEndOfFile = true ∧ p.scopes.inner = [] ∧ p.scanner.pending = [] := by
  obtain ⟨q, p', hp', hreaches, hends⟩ := (ofSource source).body_ok true
  obtain rfl : p' = p := Except.ok.inj (hp'.symm.trans h)
  have hdepth := (hreaches.trans hends.reaches).depth
  cases hends with
  | program hnext =>
    refine ⟨?_, List.eq_nil_of_length_eq_zero hdepth, rfl⟩
    change ((q.fill 1).scanner.flush.ahead 0).isEndOfFile = true
    rw [Scanner.ahead_flush]
    exact (congrArg Token.isEndOfFile (q.next_fill 1)).trans hnext

/-- A program that was read without an error has a sound source. -/
theorem sound_of_program (h : (ofSource source).program = .ok p) (herrors : p.errorCount = 0) :
    ∃ n, source.Sound n := by
  obtain ⟨hnext, -, hclosed⟩ := program_ends h
  have hstart : (ofSource source).scanner.Follows source :=
    ⟨0, stands_ofSource source, fun _ => rfl⟩
  obtain ⟨k, hahead, hpending⟩ :=
    ((Scanner.follows_invariant source).within _).2 true hstart h
  have hend : (source.tokenAt k).isEndOfFile = true := by
    rw [← Nat.add_zero k, ← hahead]
    exact hnext
  -- the file may have ended before, as often as its end was taken
  have hsome : ∃ n, (source.tokenAt n).isEndOfFile = true := ⟨k, hend⟩
  refine ⟨Nat.find hsome, fun n hn => ?_, Nat.find_spec hsome, ?_⟩
  · exact Bool.eq_false_iff.2 (Nat.find_min hsome hn)
  · rw [← Source.followAll?_of_le (Nat.find_spec hsome) (Nat.find_min' hsome hend),
      hpending herrors, hclosed]

end Parser

end FloatLang
