import FloatLang.Compilation
import FloatLang.Excerpt
import FloatLang.Proofs.Parser.Places
import FloatLang.Proofs.Scanner.Encoding

/-!
# Excerpts of what diagnostics are about

A source counts lines and columns of its bytes while they are taken, and an excerpt splits the text of a
file at its line breaks. Both agree on what a line is: whatever a parser reports about an encoded text
is in one of the lines of the text, and no further in it than the line is long. So there is an excerpt
for every diagnostic, and its middle is the line that the diagnostic is about.

## Main definitions

* `Window.around` — the lines of a text around a place
* `Window.Shows` — which lines these have to be
* `Diagnostic.PointsInto` — a diagnostic about a token of a text, with lines around it

## Main results

* `Position.exists_part` — a position that is kept is in a line of the text
* `Window.linesIn_shows` — the lines around a place whose line is there
* `Parser.diagnostics_point_into_text` — the diagnostics of a program
-/

namespace FloatLang

/-! ### Lines of positions -/

namespace Position

/-- With every character a position moves on by a line or by a column. -/
theorem line_add_column_after_le (p : Position) (text : List Char) :
    (p.after text).line + (p.after text).column ≤ p.line + p.column + text.length := by
  induction text generalizing p with
  | nil => exact Nat.le_refl _
  | cons c text ih =>
    have hrest := ih (p.next c)
    have hstep : (p.next c).line + (p.next c).column ≤ p.line + p.column + 1 := by
      unfold next
      split <;> (dsimp only; omega)
    rw [after_cons, List.length_cons]
    omega

/-- A position that is kept while characters are taken is in a part of the text between line breaks: in
the one with as many line breaks in front as were taken, and not behind its end. -/
theorem exists_part (p : Position) (passed rest : List Char) :
    ∃ part, ((passed ++ rest).splitOn '\n')[passed.count '\n']? = some part ∧
      (p.after passed).column ≤ (if '\n' ∈ passed then 0 else p.column) + part.length := by
  induction passed generalizing p with
  | nil =>
    obtain ⟨part, parts, hparts⟩ := List.exists_cons_of_ne_nil (List.splitOn_ne_nil '\n' rest)
    exact ⟨part, by simp [hparts], by simp⟩
  | cons c passed ih =>
    obtain ⟨part, hpart, hcolumn⟩ := ih (p.next c)
    rw [after_cons, List.cons_append, List.splitOn_cons_eq_if_modifyHead]
    by_cases hc : c = '\n'
    · -- behind a line break comes the next part
      have hnext : (p.next c).column = 0 := by simp [next, hc]
      rw [hnext, ite_self] at hcolumn
      refine ⟨part, ?_, by simpa [hc] using hcolumn⟩
      rw [hc, List.count_cons_self, if_pos (beq_self_eq_true _), List.getElem?_cons_succ]
      exact hpart
    · have hnext : (p.next c).column = p.column + 1 := by simp [next, hc]
      rw [hnext] at hcolumn
      rw [List.count_cons_of_ne hc, if_neg (by simpa using hc)]
      obtain ⟨first, others, hparts⟩ :=
        List.exists_cons_of_ne_nil (List.splitOn_ne_nil '\n' (passed ++ rest))
      rw [hparts] at hpart ⊢
      by_cases hmem : '\n' ∈ passed
      · obtain ⟨k, hk⟩ := Nat.exists_eq_succ_of_ne_zero (List.count_pos_iff.2 hmem).ne'
        rw [hk] at hpart ⊢
        exact ⟨part, hpart, by simpa [hmem] using hcolumn⟩
      · -- the character is the first of its part
        rw [List.count_eq_zero.2 hmem] at hpart ⊢
        obtain rfl := Option.some.inj hpart
        refine ⟨c :: first, rfl, ?_⟩
        rw [if_neg hmem] at hcolumn
        rw [if_neg (by simp [hmem, Ne.symm hc]), List.length_cons]
        omega

end Position

/-! ### Windows -/

namespace Text

/-- What is removed from the end of a text is of the kind that is to be removed, and nothing more of
it is left at the end. -/
theorem exists_trimEnd (drop : Char → Bool) (text : List Char) :
    ∃ tail, text = trimEnd drop text ++ tail ∧ (∀ c ∈ tail, drop c = true) ∧
      ∀ c ∈ (trimEnd drop text).getLast?, drop c = false := by
  refine ⟨(text.reverse.takeWhile drop).reverse, ?_, ?_, ?_⟩
  · rw [trimEnd, ← List.reverse_append, List.takeWhile_append_dropWhile, List.reverse_reverse]
  · intro c hc
    exact List.mem_takeWhile_imp (List.mem_reverse.1 hc)
  · intro c hc
    rw [trimEnd, List.getLast?_reverse] at hc
    have hhead := List.head?_dropWhile_not drop text.reverse
    rw [Option.mem_def.1 hc] at hhead
    exact hhead

end Text

namespace Window

variable {w : Window} {text : String} {l : Location}

/-- The lines of a text around a place. -/
def around (w : Window) (text : String) (l : Location) : List NumberedLine :=
  ((numbered text.toList l.line).drop (l.line - w.before)).take
    (l.line + w.after + 1 - (l.line - w.before))

/-- Which lines of a text a window shows around a place: numbered from one, they are those from so many
before the place to so many after it, as far as there are any; they are what stands between line breaks
but for the carriage returns at its end; and one of them is that of the place. -/
structure Shows (w : Window) (text : String) (l : Location) (lines : List NumberedLine) : Prop where
  numbers : lines.map (·.number) = List.range' (l.line - w.before + 1)
    (min (l.line + w.after) (text.toList.count '\n') + 1 - (l.line - w.before))
  texts : ∀ x ∈ lines, ∃ returns,
    (text.toList.splitOn '\n')[x.number - 1]? = some (x.text.toList ++ returns) ∧
      (∀ c ∈ returns, c = '\r') ∧ x.text.toList.getLast? ≠ some '\r'
  base : ∀ x ∈ lines, x.isBase = true ↔ x.number = l.line + 1
  once : lines.countP (·.isBase) = 1

theorem numbers_numbered (text : List Char) (base : Nat) :
    (numbered text base).map (·.number) = List.range' 1 (text.count '\n' + 1) := by
  have hcomp : (NumberedLine.number ∘ fun x : List Char × Nat =>
      (⟨x.2 + 1, x.2 == base, String.ofList (Text.trimEnd (· == '\r') x.1)⟩ : NumberedLine)) =
      (· + 1) ∘ Prod.snd := rfl
  rw [numbered, List.map_map, hcomp, ← List.map_map, List.zipIdx_map_snd, length_splitOn,
    ← List.range'_succ_left]

theorem numbers_around (hline : l.line ≤ text.toList.count '\n') :
    (w.around text l).map (·.number) = List.range' (l.line - w.before + 1)
      (min (l.line + w.after) (text.toList.count '\n') + 1 - (l.line - w.before)) := by
  rw [around, List.map_take, List.map_drop, numbers_numbered, List.drop_range', Nat.mul_one,
    Nat.add_comm 1]
  generalize text.toList.count '\n' = last at hline ⊢
  rcases Nat.le_total (l.line + w.after) last with hlast | hlast
  · rw [List.take_range'_of_length_ge (by omega), Nat.min_eq_left hlast]
  · rw [List.take_range'_of_length_le (by omega), Nat.min_eq_right hlast]

theorem mem_numbered {text : List Char} {base : Nat} {x : NumberedLine}
    (h : x ∈ numbered text base) :
    ∃ part, (text.splitOn '\n')[x.number - 1]? = some part ∧
      x = ⟨x.number - 1 + 1, x.number - 1 == base, String.ofList (Text.trimEnd (· == '\r') part)⟩ := by
  obtain ⟨⟨part, index⟩, hmem, rfl⟩ := List.mem_map.1 h
  exact ⟨part, List.mem_zipIdx_iff_getElem?.1 hmem, rfl⟩

/-- A window shows what is around a place whose line is there. -/
theorem shows_around (hline : l.line ≤ text.toList.count '\n') :
    w.Shows text l (w.around text l) := by
  have hnumbers := numbers_around (w := w) hline
  have hmem : ∀ x ∈ w.around text l, x ∈ numbered text.toList l.line := fun x hx =>
    List.mem_of_mem_drop (List.mem_of_mem_take hx)
  have hbase : ∀ x ∈ w.around text l, x.isBase = true ↔ x.number = l.line + 1 := by
    intro x hx
    obtain ⟨part, -, hpart⟩ := mem_numbered (hmem x hx)
    rw [hpart]
    simp
  refine ⟨hnumbers, fun x hx => ?_, hbase, ?_⟩
  · obtain ⟨part, hpart, hx⟩ := mem_numbered (hmem x hx)
    obtain ⟨tail, htail, hdropped, hend⟩ := Text.exists_trimEnd (· == '\r') part
    have htext : x.text.toList = Text.trimEnd (· == '\r') part := by rw [hx, String.toList_ofList]
    refine ⟨tail, ?_, fun c hc => eq_of_beq (hdropped c hc), fun hlast => ?_⟩
    · rw [htext, ← htail]
      exact hpart
    · rw [htext] at hlast
      simpa using hend '\r' hlast
  · -- no number comes twice
    have hcount : (w.around text l).countP (·.isBase) =
        ((w.around text l).map (·.number)).count (l.line + 1) := by
      rw [List.count, List.countP_map]
      refine List.countP_congr fun x hx => ?_
      rw [hbase x hx]
      simp
    rw [hcount, hnumbers, List.count_range_1', if_pos]
    omega

/-- There are lines around every place whose line is there. -/
theorem linesIn_shows (hknown : l.isUnknown = false) (hline : l.line ≤ text.toList.count '\n') :
    ∃ lines, w.linesIn text l = .ok lines ∧ w.Shows text l lines := by
  have hshows := shows_around (w := w) hline
  refine ⟨_, ?_, hshows⟩
  have hbase : (w.around text l).any (·.isBase) = true := by
    rw [List.any_eq_true]
    exact List.countP_pos_iff.1 (hshows.once ▸ Nat.one_pos)
  unfold linesIn
  rw [hknown]
  exact if_pos hbase

/-- A window is clipped where the text starts and where it ends. -/
example : ({ before := 2, after := 2 } : Window).linesIn "float x\r\nx++" ⟨⟨9, 1, 0⟩, ⟨"main.rin"⟩⟩ =
    .ok [⟨1, false, "float x"⟩, ⟨2, true, "x++"⟩] := by
  rfl

end Window

/-! ### Diagnostics -/

/-- A diagnostic about a token of a text, with lines around it. The place of the token is not behind the
end of its line, of which nothing is removed. -/
structure Diagnostic.PointsInto (d : Diagnostic) (file : Path) (text : String) : Prop where
  token : (Source.ofText file text).HasPlace d.location
  excerpt : ∀ w : Window, ∃ lines,
    w.linesIn text d.location = .ok lines ∧ w.Shows text d.location lines
  column : ∃ part, (text.toList.splitOn '\n')[d.location.line]? = some part ∧
    d.location.column ≤ (String.ofList part).utf8ByteSize

/-- The places of the tokens of an encoded text are in its lines. -/
theorem Source.HasPlace.exists_part {file : Path} {text : String} {l : Location}
    (h : (ofText file text).HasPlace l) :
    (∃ part, (text.toList.splitOn '\n')[l.line]? = some part ∧
      l.column ≤ (String.ofList part).utf8ByteSize) ∧
      l.line + l.column ≤ text.utf8ByteSize := by
  obtain ⟨k, rfl⟩ := hasPlace_iff.1 h
  obtain ⟨passed, ⟨rest, hrest⟩, hplace⟩ := (ofText file text).exists_place k
  have hcharacters : passed ++ rest = charactersOf text.toUTF8 := hrest
  have hposition : (ofText file text).position = {} := rfl
  rw [hplace, hposition]
  constructor
  · -- the parts of the source are those of the text
    obtain ⟨part, hpart, hcolumn⟩ := ({} : Position).exists_part passed rest
    have hline := ({} : Position).line_after passed
    rw [Nat.zero_add] at hline
    rw [hcharacters, splitOn_charactersOf, List.getElem?_map, ← hline] at hpart
    obtain ⟨written, hwritten, rfl⟩ := Option.map_eq_some_iff.1 hpart
    rw [ite_self, Nat.zero_add, length_flatMap_encode] at hcolumn
    exact ⟨written, hwritten, hcolumn⟩
  · have hsum := ({} : Position).line_add_column_after_le passed
    have hlength := congrArg List.length hcharacters
    rw [charactersOf_toUTF8, length_flatMap_encode, String.ofList_toList, List.length_append]
      at hlength
    simp only [Nat.zero_add] at hsum
    dsimp only
    omega

namespace Parser

/-- Everything that is reported about an encoded text, if its bytes can be counted, is about one of its
tokens, and every window shows the lines around it. -/
theorem diagnostics_point_into_text (file : Path) (text : String) (quotes : Quotes)
    (hsize : text.utf8ByteSize < UInt64.size) :
    ∃ p, (ofSource (.ofText file text)).program = .ok p ∧
      ∀ d ∈ p.diagnostics quotes, d.PointsInto file text := by
  obtain ⟨-, p, hp, -⟩ := (ofSource (.ofText file text)).body_ok true
  refine ⟨p, hp, fun d hd => ?_⟩
  obtain ⟨r, hr, rfl⟩ := List.mem_map.1 hd
  have hplace : (Source.ofText file text).HasPlace r.location := exists_token_of_report hp r hr
  obtain ⟨⟨part, hpart, hcolumn⟩, hsum⟩ := hplace.exists_part
  have hline : r.location.line ≤ text.toList.count '\n' := by
    have hlt := (List.getElem?_eq_some_iff.1 hpart).1
    rw [length_splitOn] at hlt
    exact Nat.le_of_lt_succ hlt
  have hknown : r.location.isUnknown = false := by
    rw [← Bool.not_eq_true, Location.isUnknown, Bool.and_eq_true, beq_iff_eq, beq_iff_eq,
      Location.nowhere]
    rintro ⟨hline, hcolumn⟩
    have hlarge : 1 < UInt64.size := by decide
    omega
  exact ⟨hplace, fun w => Window.linesIn_shows hknown hline, part, hpart, hcolumn⟩

/-- A second declaration of a name is pointed to, and so is the first one, the line of which has a
carriage return at its end. -/
theorem declarations_pointed_into :
    let text := "float x // é\r\nfloat x;\n"
    text.utf8ByteSize < UInt64.size ∧
      ∃ p, (ofSource (.ofText ⟨"main.rin"⟩ text)).program = .ok p ∧
        (p.diagnostics {}).map (·.location.line) = [1, 0] ∧
        ∀ d ∈ p.diagnostics {}, d.PointsInto ⟨"main.rin"⟩ text := by
  intro text
  have hsize : text.utf8ByteSize < UInt64.size := by decide
  have hlines : ((ofSource (.ofText ⟨"main.rin"⟩ text)).program.toOption.map fun p =>
      (p.diagnostics {}).map (·.location.line)) = some [1, 0] := by
    decide +kernel
  obtain ⟨p, hp, hpoints⟩ := diagnostics_point_into_text ⟨"main.rin"⟩ text {} hsize
  rw [hp] at hlines
  exact ⟨hsize, p, hp, Option.some.inj hlines, hpoints⟩

end Parser

end FloatLang
