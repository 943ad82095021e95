import FloatLang.Compilation
import FloatLang.Proofs.Lowering.Texts
import FloatLang.Proofs.Parser.Disciplined
import FloatLang.Proofs.Tree.Blocks

/-!
# When a compilation succeeds

A parser reports errors, and remarks only after an error. There are no warnings, so it makes no
difference whether these count as errors: a file that can be read is compiled if and only if nothing
at all is reported, and then the texts of its statements are what its tree is lowered to.

## Main definitions

* `Graded` — errors, and remarks that come after one
* `Emit.texts` — what is emitted of statements

## Main results

* `severities_discipline` — every step of a parser keeps its reports so
* `Compiler.compile_eq` — the outcome of a compilation
-/

namespace FloatLang

/-! ### What a parser reports -/

/-- Errors, and remarks that come after one. -/
structure Graded (rs : List Report) : Prop where
  head : ∀ r ∈ rs.head?, r.severity = .error
  severe : ∀ r ∈ rs, r.severity = .error ∨ r.severity = .inform

namespace Graded

variable {rs : List Report} {r : Report}

theorem nil : Graded [] := ⟨by simp, by simp⟩

theorem append_error (h : Graded rs) (hr : r.severity = .error) : Graded (rs ++ [r]) where
  head := by
    cases rs with
    | nil => simpa using hr
    | cons r' rs => exact h.head
  severe := List.forall_mem_append.2 ⟨h.severe, by simp [hr]⟩

theorem append_inform (h : Graded rs) (hrs : rs ≠ []) (hr : r.severity = .inform) :
    Graded (rs ++ [r]) where
  head := by
    cases rs with
    | nil => contradiction
    | cons r' rs => exact h.head
  severe := List.forall_mem_append.2 ⟨h.severe, by simp [hr]⟩

/-- Nothing is reported if there is no error. -/
theorem eq_nil (h : Graded rs) (herrors : rs.countP (·.severity.isError) = 0) : rs = [] := by
  cases rs with
  | nil => rfl
  | cons r rs =>
    have herror : r.severity = .error := h.head r rfl
    rw [List.countP_cons_of_pos (by simp [herror, Severity.isError])] at herrors
    contradiction

theorem warnings (h : Graded rs) : rs.countP (·.severity == .warning) = 0 := by
  rw [List.countP_eq_zero]
  intro r hr
  rcases h.severe r hr with herror | hinform
  · simp [herror]
  · simp [hinform]

end Graded

/-- The scanner has come to the `n`-th token, and has reported errors, and remarks only after one. -/
structure Grading (source : Source) (n : Nat) (s : Scanner) : Prop where
  ahead : ∀ k, s.ahead k = source.tokenAt (n + k)
  graded : Graded s.reports

namespace Grading

variable {source : Source} {n : Nat} {s : Scanner}

theorem error (h : Grading source n s) (l : Location) (problem : Problem) :
    Grading source n (s.error l problem) where
  ahead := by
    rw [Scanner.error, Scanner.ahead_report]
    exact h.ahead
  graded := h.graded.append_error rfl

theorem advance (h : Grading source n s) : Grading source (n + 1) s.advance where
  ahead k := by rw [s.ahead_advance, h.ahead, Nat.add_right_comm, Nat.add_assoc]
  graded := by
    rw [s.reports_advance]
    cases s.objection? s.next with
    | none => simpa using h.graded
    | some problem => exact h.graded.append_error rfl

theorem remind (h : Grading source n s) (l : Location) (name : String) (hpos : 0 < s.errorCount) :
    Grading source n
      (s.report { severity := .inform, location := l, problem := .previousDefinition name }) where
  ahead := by
    rw [Scanner.ahead_report]
    exact h.ahead
  graded := by
    refine h.graded.append_inform (fun hnil => ?_) rfl
    rw [Scanner.errorCount, hnil] at hpos
    contradiction

theorem giveUp (h : Grading source n s) (o : Opening) (os : List Opening) :
    Grading source n ({ s with pending := os }.report (Scanner.unclosedReport o)) where
  ahead := by
    have hpending : ({ s with pending := os } : Scanner).ahead = s.ahead := Scanner.ahead_congr rfl rfl
    rw [Scanner.ahead_report, hpending]
    exact h.ahead
  graded := h.graded.append_error rfl

end Grading

/-- Whatever a parser does, it reports errors, and remarks only after one. -/
theorem severities_discipline (source : Source) :
    Scanner.Discipline source fun n _ s => Grading source n s where
  ahead h := h.ahead
  mono h _ := h
  fill {_ _ s} h m := ⟨s.ahead_fill_eq m ▸ h.ahead, s.reports_fill m ▸ h.graded⟩
  advance h := h.advance
  complain h _ _ := h.error _ _
  complainAtEnd h _ _ := h.error _ _
  reject h _ _ := h.advance.error _ _
  remind l name h hpos := h.remind l name hpos
  giveUp h _ := h.giveUp _ _

/-- What is reported while a program is read. -/
theorem Parser.graded_of_program {source : Source} {p : Parser}
    (h : (ofSource source).program = .ok p) : Graded p.scanner.reports := by
  have hstart : Grading source 0 (ofSource source).scanner := ⟨stands_ofSource source, .nil⟩
  obtain ⟨n, hp⟩ := ((severities_discipline source).within _).2 true (.inl ⟨0, hstart⟩) h
  exact hp.graded

/-! ### Compilations -/

/-- The texts of a program whose statements are made of tokens without failures. -/
theorem Parser.texts_eq {source : Source} {xs : List Variable} {i j : Nat} (p : Parser)
    (h : MadeAll source xs i j p.scopes.outermost.statements)
    (hfailures : Statement.failuresAll p.scopes.outermost.statements = 0) :
    p.texts = p.scopes.outermost.statements.map Statement.text :=
  congrArg Prod.fst (h.run_lowerAll hfailures 0)

/-- What is emitted of statements. -/
def Emit.texts : Emit → List Statement → List String
  | .tree, ss => ss.map Statement.text
  | .none, _ => []

namespace Parser

variable {p : Parser} (quotes : Quotes)

theorem errorCount_diagnostics (p : Parser) :
    FloatLang.errorCount (p.diagnostics quotes) = p.errorCount := by
  rw [FloatLang.errorCount, diagnostics, List.countP_map]
  rfl

theorem warningCount_diagnostics (h : Graded p.scanner.reports) :
    FloatLang.warningCount (p.diagnostics quotes) = 0 := by
  rw [FloatLang.warningCount, diagnostics, List.countP_map]
  exact h.warnings

end Parser

namespace Compiler

variable (c : Compiler)

theorem failureCount_diagnostics {p : Parser} (h : Graded p.scanner.reports) :
    c.failureCount (p.diagnostics c.quotes) = p.errorCount := by
  rw [failureCount, p.errorCount_diagnostics, Parser.warningCount_diagnostics c.quotes h, ite_self,
    Nat.add_zero]

/-- A file that can be read is compiled if and only if no error is reported while its program is
read, whether warnings count as errors or not. If so there are no diagnostics, and the statements are
the texts of those of the outermost scope, if they are asked for; otherwise all diagnostics are handed
back, with the number of the errors among them. Lowering, to whatever, adds none. -/
theorem compile_eq (storage : Storage) (file : Path) (bytes : ByteArray)
    (h : storage.read file = .ok bytes) :
    ∃ p, (Parser.ofSource (.ofBytes file bytes)).program = .ok p ∧
      (c.compile storage file =
        if errorCount (p.diagnostics c.quotes) = 0 then
          .ok ⟨file, c.emit.texts p.scopes.outermost.statements, []⟩
        else
          .error ⟨.rejected file (errorCount (p.diagnostics c.quotes)), p.diagnostics c.quotes⟩) ∧
      ∀ (σ V E S : Type) (b : Backend σ V E S) (state : σ),
        ((p.lowerProgram b).run state).1.2.diagnostics c.quotes = p.diagnostics c.quotes := by
  obtain ⟨p, j, hp, -, hmade, hfailures⟩ := Parser.program_made (.ofBytes file bytes)
  have hgraded := Parser.graded_of_program hp
  refine ⟨p, hp, ?_, fun σ V E S b state => rfl⟩
  rw [compile, h]
  dsimp only
  rw [compileBytes, hp]
  dsimp only
  rw [c.failureCount_diagnostics hgraded, p.errorCount_diagnostics]
  by_cases herrors : p.errorCount = 0
  · have hreports : p.scanner.reports = [] := hgraded.eq_nil herrors
    have hdiagnostics : p.diagnostics c.quotes = [] := by rw [Parser.diagnostics, hreports]; rfl
    rw [if_neg (by omega), if_pos herrors, hdiagnostics]
    rw [p.texts_eq hmade (Nat.le_zero.1 (herrors ▸ hfailures))]
    cases c.emit <;> rfl
  · rw [if_pos (Nat.pos_of_ne_zero herrors), if_neg herrors]

/-- Warnings count as errors, but there are none. -/
theorem compile_eq_of_declaration :
    let file : Path := ⟨"main.rin"⟩
    let storage : Storage := ⟨fun _ => .ok "float x = 1".toUTF8⟩
    let c : Compiler := { warningsAsErrors := true }
    ∃ p, (Parser.ofSource (.ofBytes file "float x = 1".toUTF8)).program = .ok p ∧
      errorCount (p.diagnostics c.quotes) = 0 ∧ c.compile storage file =
        .ok ⟨file, p.scopes.outermost.statements.map Statement.text, []⟩ := by
  intro file storage c
  obtain ⟨p, hp, hcompile, -⟩ := c.compile_eq storage file "float x = 1".toUTF8 rfl
  have hfacts : ((Parser.ofSource (.ofBytes file "float x = 1".toUTF8)).program.toOption.map
      fun p => errorCount (p.diagnostics c.quotes)) = some 0 := by
    decide +kernel
  rw [hp] at hfacts
  have herrors : errorCount (p.diagnostics c.quotes) = 0 := Option.some.inj hfacts
  exact ⟨p, hp, herrors, hcompile.trans (if_pos herrors)⟩

end Compiler

end FloatLang
