import FloatLang.Proofs.Excerpt

/-!
# Alignment of excerpts

An excerpt has the line before a place, if there is one, the line of the place, and a mark. Line numbers
stand in a field that is wide enough for the largest of them, so that all texts start in the same
column, and the mark stands as far to the right of that column as the place is in its line. If only
characters of one byte are in front of the place, then the mark is under the character there.

The field becomes a column wider every ten lines, until there are more columns than a field may have:
diagnostics about line 655350, or a line further down, can not be rendered.

## Main definitions

* `Renderer.shownText` — the text that an excerpt shows of a line
* `Renderer.Row` — a line of an excerpt whose text starts in a column
* `Renderer.rowText` — a numbered line in a field that is not too wide

## Main results

* `Renderer.length_toDigits_le` — the field is wide enough for every number
* `Renderer.row_rowText` — every numbered line has its text in the same column
* `Renderer.gutter_le_iff` — the lines with a field that is not too wide
* `Renderer.excerpt_aligned` — the lines of an excerpt
* `Renderer.no_excerpt_of_distant_line` — a line without one
-/

namespace FloatLang

namespace Text

variable {drop : Char → Bool} {text front rest : List Char}

/-- A text that ends in nothing to be removed stays as it is. -/
theorem trimEnd_eq_self (h : ∀ c ∈ text.getLast?, drop c = false) : trimEnd drop text = text := by
  rcases List.eq_nil_or_concat text with rfl | ⟨init, last, rfl⟩
  · rfl
  · have hlast : ¬ drop last = true := by simp [h last (by simp)]
    rw [trimEnd, List.concat_eq_append, List.reverse_append, List.reverse_singleton,
      List.singleton_append, List.dropWhile_cons_of_neg hlast, List.reverse_cons,
      List.reverse_reverse]

theorem length_trimEnd_le (drop : Char → Bool) (text : List Char) :
    (trimEnd drop text).length ≤ text.length := by
  obtain ⟨tail, htext, -, -⟩ := exists_trimEnd drop text
  have hlength := congrArg List.length htext
  rw [List.length_append] at hlength
  omega

/-- Behind the front of a text stands what is left of its rest. -/
theorem getElem?_trimEnd_append (drop : Char → Bool) (front rest : List Char) :
    (trimEnd drop (front ++ rest))[front.length]? = (trimEnd drop rest).head? := by
  obtain ⟨tail, hrest, htail, hlast⟩ := exists_trimEnd drop rest
  by_cases hkept : trimEnd drop rest = []
  · -- if all of the rest is removed, so may be some of the front
    rw [hkept, List.nil_append] at hrest
    rw [hkept, hrest, trimEnd_append_of_all htail, List.head?_nil, List.getElem?_eq_none_iff]
    exact length_trimEnd_le drop front
  · have hends : ∀ c ∈ (front ++ trimEnd drop rest).getLast?, drop c = false := by
      rw [List.getLast?_append_of_ne_nil _ hkept]
      exact hlast
    conv_lhs => rw [hrest]
    rw [← List.append_assoc, trimEnd_append_of_all htail, trimEnd_eq_self hends,
      List.getElem?_append_right (Nat.le_refl _), Nat.sub_self, List.head?_eq_getElem?]

theorem isWhiteSpace_return : isWhiteSpace '\r' = true := by decide

end Text

/-! ### Storages -/

/-- The bytes of an encoded text are read as the text. -/
theorem Storage.readText_eq_ok {storage : Storage} {file : Path} {text : String}
    (h : storage.read file = .ok text.toUTF8) : storage.readText file = .ok text := by
  have hdecode : String.fromUTF8? text.toUTF8 = some text := dif_pos text.isValidUTF8
  unfold readText
  rw [h]
  simp only [bind, Except.bind, hdecode]
  rfl

namespace Renderer

/-! ### Rows -/

/-- The text that an excerpt shows of a line, which is counted from zero: what stands between two line
breaks, without white space at its end. -/
def shownText (text : String) (line : Nat) : List Char :=
  Text.trimEnd Text.isWhiteSpace ((text.toList.splitOn '\n')[line]?.getD [])

/-- A line of an excerpt whose text starts in a column: the number of the line and a bar are in front of
it, the number with nothing but blanks to its left. -/
def Row (column number : Nat) (content row : List Char) : Prop :=
  ∃ blanks, blanks + (Nat.toDigits 10 number).length + 3 = column ∧
    row = List.replicate blanks ' ' ++ Nat.toDigits 10 number ++ [' ', '|', ' '] ++ content

/-- A mark so many columns to the right of the one where texts start. -/
def mark (start column : Nat) : List Char :=
  List.replicate start ' ' ++ List.replicate column '-' ++ ['^']

variable {start number width : Nat} {content row : List Char} {x : NumberedLine} {text : String}

/-- The text is what the row has from its column on. -/
theorem Row.drop_eq (h : Row start number content row) : row.drop start = content := by
  obtain ⟨blanks, hstart, rfl⟩ := h
  exact List.drop_left' (by simp [← hstart, Nat.add_assoc])

/-- A tenth of a number and one more are enough columns for its digits, and so for those of all smaller
numbers. -/
theorem length_toDigits_le {n largest : Nat} (h : n ≤ largest) :
    (Nat.toDigits 10 n).length ≤ largest / 10 + 1 := by
  rw [Nat.length_toDigits_le_iff (by decide) (Nat.succ_pos _)]
  have hpower : largest / 10 + 1 ≤ 10 ^ (largest / 10) := Nat.lt_pow_self (by decide)
  calc
    n ≤ largest := h
    _ < 10 * (largest / 10 + 1) := Nat.lt_mul_div_succ largest (by decide)
    _ ≤ 10 * 10 ^ (largest / 10) := Nat.mul_le_mul_left 10 hpower
    _ = 10 ^ (largest / 10 + 1) := (Nat.pow_succ' ..).symm

/-- Nothing but a digit is in the decimal form of a number. -/
theorem notMem_toDigits {c : Char} (hc : c.isDigit = false) (n : Nat) : c ∉ Nat.toDigits 10 n := by
  intro hmem
  have hdigit := Nat.isDigit_of_mem_toDigits (by decide) (by decide) hmem
  exact absurd hdigit (by simp [hc])

/-- A line behind its number, in a field of whatever width. -/
def rowText (width : Nat) (x : NumberedLine) : String :=
  String.ofList ((Nat.toDigits 10 x.number).leftpad width ' ') ++ " | " ++
    String.ofList (Text.trimEnd Text.isWhiteSpace x.text.toList)

/-- A number is written if and only if its field is not too wide. -/
theorem numberedText_eq (width : Nat) (x : NumberedLine) :
    numberedText width x =
      if width ≤ widestField then .ok (rowText width x) else .error .fieldTooWide := by
  unfold numberedText padded
  split <;> rfl

/-- The rows of a line, with the mark if it is the one a diagnostic is about. -/
def rowTexts (width column : Nat) (x : NumberedLine) : List String :=
  if x.isBase then [rowText width x, caret width column] else [rowText width x]

theorem rowsOf_eq (width column : Nat) (x : NumberedLine) :
    rowsOf width column x =
      if width ≤ widestField then .ok (rowTexts width column x) else .error .fieldTooWide := by
  rw [rowsOf, numberedText_eq]
  split <;> rfl

theorem toList_rowText (width : Nat) (x : NumberedLine) :
    (rowText width x).toList = List.replicate (width - (Nat.toDigits 10 x.number).length) ' ' ++
      Nat.toDigits 10 x.number ++ [' ', '|', ' '] ++
      Text.trimEnd Text.isWhiteSpace x.text.toList := by
  unfold rowText List.leftpad
  simp only [String.toList_append, String.toList_ofList]
  rfl

/-- A numbered line has its text behind a field that is wide enough and a bar. -/
theorem row_rowText (h : (Nat.toDigits 10 x.number).length ≤ width) :
    Row (width + 3) x.number (Text.trimEnd Text.isWhiteSpace x.text.toList)
      (rowText width x).toList :=
  ⟨_, by rw [Nat.sub_add_cancel h], toList_rowText width x⟩

theorem length_toDigits_le_gutter {lines : List NumberedLine} (hx : x ∈ lines) :
    (Nat.toDigits 10 x.number).length ≤ gutter lines :=
  length_toDigits_le (List.le_max?_getD_of_mem (List.mem_map_of_mem hx))

/-! ### Rows are lines -/

theorem lineBreak_notMem_shownText (text : String) (line : Nat) : '\n' ∉ shownText text line := by
  obtain ⟨tail, htext, -, -⟩ :=
    Text.exists_trimEnd Text.isWhiteSpace ((text.toList.splitOn '\n')[line]?.getD [])
  have hpart : '\n' ∉ (text.toList.splitOn '\n')[line]?.getD [] := by
    cases hline : (text.toList.splitOn '\n')[line]? with
    | none => exact List.not_mem_nil
    | some part => exact notMem_of_mem_splitOn (List.mem_of_getElem? hline)
  intro hmem
  rw [htext] at hpart
  exact hpart (List.mem_append_left _ hmem)

theorem lineBreak_notMem_mark (start column : Nat) : '\n' ∉ mark start column := by
  simp [mark]

theorem Row.lineBreak_notMem (h : Row start number content row) (hcontent : '\n' ∉ content) :
    '\n' ∉ row := by
  obtain ⟨blanks, -, rfl⟩ := h
  simp [notMem_toDigits, hcontent]

/-! ### Excerpts -/

section Excerpts

variable {w : Window} {l : Location} {lines before : List NumberedLine} {base : NumberedLine}

/-- What is shown of a line in a window is its text without white space at the end. -/
theorem trimEnd_of_shows (h : w.Shows text l lines) (hx : x ∈ lines) :
    Text.trimEnd Text.isWhiteSpace x.text.toList = shownText text (x.number - 1) := by
  obtain ⟨returns, hpart, hreturns, -⟩ := h.texts x hx
  rw [shownText, hpart, Option.getD_some, Text.trimEnd_append_of_all]
  intro c hc
  rw [hreturns c hc]
  exact Text.isWhiteSpace_return

/-- The lines of a window are rows with their texts in one column. -/
theorem row_of_shows (h : w.Shows text l lines) (hx : x ∈ lines) :
    Row (gutter lines + 3) x.number (shownText text (x.number - 1))
      (rowText (gutter lines) x).toList := by
  rw [← trimEnd_of_shows h hx]
  exact row_rowText (length_toDigits_le_gutter hx)

/-- The window of an excerpt ends with the line of the place, and has the line before it, if any. -/
theorem exists_lines_of_shows (h : ({ before := 1 } : Window).Shows text l lines)
    (hline : l.line ≤ text.toList.count '\n') :
    ∃ before base, lines = before ++ [base] ∧ base.number = l.line + 1 ∧
      (l.line = 0 ∧ before = [] ∨ ∃ line x, l.line = line + 1 ∧ before = [x] ∧ x.number = line + 1) := by
  have hnumbers := h.numbers
  have hmin : min (l.line + 0) (text.toList.count '\n') = l.line := Nat.min_eq_left hline
  dsimp only at hnumbers
  rw [hmin] at hnumbers
  cases hl : l.line with
  | zero =>
    rw [hl] at hnumbers
    obtain ⟨base, rfl, hbase⟩ := List.map_eq_singleton_iff.1 hnumbers
    exact ⟨[], base, rfl, hbase, .inl ⟨rfl, rfl⟩⟩
  | succ line =>
    rw [hl, Nat.add_sub_cancel, show line + 1 + 1 - line = 2 by omega] at hnumbers
    obtain ⟨x, lines', rfl, hx, hrest⟩ := List.map_eq_cons_iff.1 hnumbers
    obtain ⟨base, rfl, hbase⟩ := List.map_eq_singleton_iff.1 hrest
    exact ⟨[x], base, rfl, hbase, .inr ⟨line, x, rfl, rfl, hx⟩⟩

/-- If the last line of a window is that of the place, then no other one is. -/
theorem isBase_of_shows (h : w.Shows text l (before ++ [base])) (hbase : base.number = l.line + 1) :
    base.isBase = true ∧ ∀ x ∈ before, x.isBase = false := by
  have hlast : base.isBase = true := (h.base base (by simp)).2 hbase
  have honce := h.once
  rw [List.countP_append, List.countP_singleton, if_pos hlast] at honce
  have hnone : before.countP (·.isBase) = 0 := by omega
  exact ⟨hlast, fun x hx => eq_false_of_ne_true (List.countP_eq_zero.1 hnone x hx)⟩

/-- The numbers of the lines in the excerpt for a line, which is counted from zero. -/
def shownNumbers : Nat → List Nat
  | 0 => [1]
  | line + 1 => [line + 1, line + 2]

/-- The largest number is that of the line itself. -/
theorem max?_shownNumbers (line : Nat) : (shownNumbers line).max? = some (line + 1) := by
  cases line with
  | zero => rfl
  | succ line => simp [shownNumbers, List.max?_cons]

/-- An excerpt has the numbers of the line before a place, if there is one, and of the line. -/
theorem numbers_of_shows (h : ({ before := 1 } : Window).Shows text l lines)
    (hline : l.line ≤ text.toList.count '\n') :
    lines.map (·.number) = shownNumbers l.line := by
  obtain ⟨before, base, rfl, hbase, hbefore⟩ := exists_lines_of_shows h hline
  obtain ⟨hfirst, rfl⟩ | ⟨line, x, hnext, rfl, hx⟩ := hbefore
  · simp [hfirst, hbase, shownNumbers]
  · simp [hnext, hbase, hx, shownNumbers]

theorem gutter_of_shows (h : ({ before := 1 } : Window).Shows text l lines)
    (hline : l.line ≤ text.toList.count '\n') : gutter lines = (l.line + 1) / 10 + 1 := by
  rw [gutter, numbers_of_shows h hline, max?_shownNumbers, Option.getD_some]

/-- The field for the numbers of an excerpt is not too wide up to line 655349. -/
theorem gutter_le_iff (h : ({ before := 1 } : Window).Shows text l lines)
    (hline : l.line ≤ text.toList.count '\n') :
    gutter lines ≤ widestField ↔ l.line + 1 < 655350 := by
  have hwidest : widestField = 65535 := rfl
  rw [gutter_of_shows h hline, hwidest]
  omega

/-- If the field is not too wide, then every line has its rows. -/
theorem excerptLines_of_le (h : gutter lines ≤ widestField) (column : Nat) :
    excerptLines lines column = .ok (lines.flatMap (rowTexts (gutter lines) column)) := by
  have hrows : rowsOf (gutter lines) column = fun x => pure (rowTexts (gutter lines) column x) := by
    funext x
    rw [rowsOf_eq, if_pos h]
    rfl
  rw [excerptLines, hrows, List.mapM_pure, List.flatMap_def]
  rfl

/-- If the field is too wide, then not even the first line has its rows. -/
theorem excerptLines_of_lt (hne : lines ≠ []) (h : widestField < gutter lines) (column : Nat) :
    excerptLines lines column = .error .fieldTooWide := by
  obtain ⟨x, rest, hlines⟩ := List.exists_cons_of_ne_nil hne
  have hrow : rowsOf (gutter lines) column x = .error .fieldTooWide := by
    rw [rowsOf_eq, if_neg (Nat.not_le_of_gt h)]
  -- all lines have a part in the width of the field, but it takes only the first one to fail
  rw [excerptLines]
  generalize gutter lines = width at hrow
  rw [hlines, List.mapM_cons, hrow]
  rfl

/-- The rows of an excerpt: the numbered lines, and the mark behind the last one. -/
theorem excerptLines_append (hbefore : ∀ x ∈ before, x.isBase = false) (hbase : base.isBase = true)
    (hwidth : gutter (before ++ [base]) ≤ widestField) (column : Nat) :
    excerptLines (before ++ [base]) column =
      .ok ((before ++ [base]).map (rowText (gutter (before ++ [base]))) ++
        [caret (gutter (before ++ [base])) column]) := by
  rw [excerptLines_of_le hwidth]
  generalize gutter (before ++ [base]) = width
  have hrows : before.flatMap (rowTexts width column) = before.map (rowText width) := by
    rw [List.map_eq_flatMap]
    exact List.flatMap_congr fun x hx => by rw [rowTexts, hbefore x hx]; rfl
  rw [List.flatMap_append, hrows, List.flatMap_singleton, rowTexts, if_pos hbase, List.map_append,
    List.append_assoc]
  rfl

/-- An excerpt consists of its rows. -/
theorem splitOn_intercalate_rows {rows : List String} (hne : rows ≠ [])
    (hrows : ∀ row ∈ rows, '\n' ∉ row.toList) :
    ("\n".intercalate rows).toList.splitOn '\n' = rows.map String.toList := by
  rw [String.toList_intercalate]
  refine List.splitOn_intercalate '\n' ?_ (by simpa using hne)
  intro row hrow
  obtain ⟨row, hmem, rfl⟩ := List.mem_map.1 hrow
  exact hrows row hmem

/-- The excerpt of a window that ends with the line of the place: the lines, and the mark. -/
theorem exists_rows_of_shows (h : w.Shows text l (before ++ [base])) (hbase : base.number = l.line + 1)
    (hwidth : gutter (before ++ [base]) ≤ widestField) (column : Nat) :
    ∃ rows, excerptLines (before ++ [base]) column = .ok rows ∧
      ("\n".intercalate rows).toList.splitOn '\n' =
        (before ++ [base]).map (fun x => (rowText (gutter (before ++ [base])) x).toList) ++
          [mark (gutter (before ++ [base]) + 3) column] := by
  obtain ⟨hisBase, hbefore⟩ := isBase_of_shows h hbase
  have hcaret (width : Nat) : (caret width column).toList = mark (width + 3) column :=
    String.toList_ofList
  have hrows : ∀ row ∈ (before ++ [base]).map (rowText (gutter (before ++ [base]))) ++
      [caret (gutter (before ++ [base])) column], '\n' ∉ row.toList := by
    intro row hrow
    rcases List.mem_append.1 hrow with hrow | hrow
    · obtain ⟨x, hx, rfl⟩ := List.mem_map.1 hrow
      exact (row_of_shows h hx).lineBreak_notMem (lineBreak_notMem_shownText text _)
    · rw [List.mem_singleton.1 hrow, hcaret]
      exact lineBreak_notMem_mark _ column
  refine ⟨_, excerptLines_append hbefore hisBase hwidth column, ?_⟩
  rw [splitOn_intercalate_rows (by simp) hrows, List.map_append, List.map_map, List.map_singleton,
    hcaret]
  rfl

/-- The place behind characters of one byte each is as many columns to the right as there are bytes. -/
theorem utf8ByteSize_of_ascii {front : List Char} (h : ∀ c ∈ front, c.toNat < 128) :
    (String.ofList front).utf8ByteSize = front.length := by
  induction front with
  | nil => rfl
  | cons c front ih =>
    obtain ⟨hc, hfront⟩ := List.forall_mem_cons.1 h
    have hsize : c.utf8Size = 1 := Char.utf8Size_eq_one_iff.2 (Nat.le_of_lt_succ hc)
    rw [String.ofList_cons, String.utf8ByteSize_append, String.utf8ByteSize_singleton, hsize,
      ih hfront, List.length_cons, Nat.add_comm]

/-- A diagnostic is followed by the lines of its excerpt, if these can be written. -/
theorem rendered_of_linesIn {r : Renderer} {d : Diagnostic} {file : String}
    (hexcerpts : r.excerpts = true) (hread : r.storage.read d.location.file = .ok file.toUTF8)
    (hlines : ({ before := 1 } : Window).linesIn file d.location = .ok lines) :
    r.rendered d = (excerptLines lines d.location.column).map
      fun rows => r.header d ++ "\n" ++ "\n".intercalate rows := by
  unfold rendered excerpt? Window.lines
  rw [Storage.readText_eq_ok hread, if_pos hexcerpts]
  dsimp only
  rw [hlines]
  dsimp only
  cases excerptLines lines d.location.column <;> rfl

section Lines

variable {r : Renderer} {d : Diagnostic} (hexcerpts : r.excerpts = true)
  (hread : r.storage.read d.location.file = .ok text.toUTF8) (hknown : d.location.isUnknown = false)
  (hline : d.location.line < (text.toList.splitOn '\n').length)

include hexcerpts hread hknown hline

/-- Of a text that is stored encoded, a diagnostic about one of the first 655349 lines is followed by an
excerpt. -/
theorem rendered_of_near (hnear : d.location.line + 1 < 655350) :
    ∃ lines excerpt, ({ before := 1 } : Window).Shows text d.location lines ∧
      r.rendered d = .ok (r.header d ++ "\n" ++ excerpt) ∧
      excerpt.toList.splitOn '\n' = lines.map (fun x => (rowText (gutter lines) x).toList) ++
        [mark (gutter lines + 3) d.location.column] := by
  rw [length_splitOn, Nat.lt_succ_iff] at hline
  obtain ⟨lines, hlines, hshows⟩ := Window.linesIn_shows (w := { before := 1 }) hknown hline
  have hwidth := (gutter_le_iff hshows hline).2 hnear
  have hrendered := rendered_of_linesIn hexcerpts hread hlines
  obtain ⟨before, base, rfl, hbase, -⟩ := exists_lines_of_shows hshows hline
  obtain ⟨rows, hrows, hsplit⟩ := exists_rows_of_shows hshows hbase hwidth d.location.column
  rw [hrows] at hrendered
  exact ⟨_, _, hshows, hrendered, hsplit⟩

/-- A diagnostic about a line that is further down a stored text can not be rendered. -/
theorem rendered_of_distant (hdistant : 655350 ≤ d.location.line + 1) :
    r.rendered d = .error .fieldTooWide := by
  rw [length_splitOn, Nat.lt_succ_iff] at hline
  obtain ⟨lines, hlines, hshows⟩ := Window.linesIn_shows (w := { before := 1 }) hknown hline
  have hwidth : widestField < gutter lines := by
    rw [← Nat.not_le, gutter_le_iff hshows hline]
    exact Nat.not_lt_of_le hdistant
  obtain ⟨before, base, rfl, -, -⟩ := exists_lines_of_shows hshows hline
  rw [rendered_of_linesIn hexcerpts hread hlines, excerptLines_of_lt (by simp) hwidth]
  rfl

end Lines

/-- The excerpt of a diagnostic about a line of a text that is stored encoded. It consists of the line
before, if there is one, the line of the diagnostic, and the mark. Every number is written in full, and
all texts start in one column. The mark is as many columns to the right of it as the place is in its
line; so if only characters of one byte are in front of the place, then the mark stands under what the
excerpt shows from the byte of the place on. There is such an excerpt if the line is one of the first
655349; otherwise the diagnostic can not be rendered at all. -/
theorem excerpt_aligned (r : Renderer) (d : Diagnostic) (text : String)
    (hexcerpts : r.excerpts = true) (hread : r.storage.read d.location.file = .ok text.toUTF8)
    (hknown : d.location.isUnknown = false)
    (hline : d.location.line < (text.toList.splitOn '\n').length) :
    (d.location.line + 1 < 655350 → ∃ excerpt start preceding row,
      r.rendered d = .ok (r.header d ++ "\n" ++ excerpt) ∧
      excerpt.toList.splitOn '\n' = preceding ++ [row, mark start d.location.column] ∧
      (d.location.line = 0 ∧ preceding = [] ∨ ∃ line row', d.location.line = line + 1 ∧
        preceding = [row'] ∧ Row start (line + 1) (shownText text line) row') ∧
      Row start (d.location.line + 1) (shownText text d.location.line) row ∧
      ∀ front rest, (text.toList.splitOn '\n')[d.location.line]? = some (front ++ rest) →
        (∀ c ∈ front, c.toNat < 128) → (String.ofList front).utf8ByteSize = d.location.column →
        row[start + d.location.column]? = (Text.trimEnd Text.isWhiteSpace rest).head?) ∧
    (655350 ≤ d.location.line + 1 → r.rendered d = .error .fieldTooWide) := by
  refine ⟨fun hnear => ?_, rendered_of_distant hexcerpts hread hknown hline⟩
  obtain ⟨lines, excerpt, hshows, hrendered, hsplit⟩ :=
    rendered_of_near hexcerpts hread hknown hline hnear
  rw [length_splitOn, Nat.lt_succ_iff] at hline
  obtain ⟨before, base, rfl, hbase, hbefore⟩ := exists_lines_of_shows hshows hline
  have hrow := row_of_shows hshows (List.mem_append_right before (List.mem_singleton_self base))
  rw [hbase, Nat.add_sub_cancel] at hrow
  rw [List.map_append, List.append_assoc] at hsplit
  refine ⟨excerpt, _, _, _, hrendered, hsplit, ?_, hrow, ?_⟩
  · obtain ⟨hfirst, rfl⟩ | ⟨line, x, hnext, rfl, hx⟩ := hbefore
    · exact .inl ⟨hfirst, rfl⟩
    · -- the line before has its text in the same column
      have hrow' := row_of_shows hshows (List.mem_append_left [base] (List.mem_singleton_self x))
      rw [hx, Nat.add_sub_cancel] at hrow'
      exact .inr ⟨line, _, hnext, rfl, hrow'⟩
  · intro front rest hpart hascii hcolumn
    rw [utf8ByteSize_of_ascii hascii] at hcolumn
    rw [← List.getElem?_drop, hrow.drop_eq, shownText, hpart, Option.getD_some, ← hcolumn,
      Text.getElem?_trimEnd_append]

/-- The number of the ninth line is shorter than that of the tenth, and yet both texts start in the same
column. The mark is under the semicolon where an operand is missing. -/
theorem excerpt_of_tenth_line :
    let text := "\n\n\n\n\n\n\n\nfloat x\nx = 1 +;\n"
    let r : Renderer := { storage := { read := fun _ => .ok text.toUTF8 } }
    let d : Diagnostic := ⟨.error, ⟨⟨23, 9, 7⟩, ⟨"main.rin"⟩⟩, "expected expression after '+'"⟩
    r.excerpts = true ∧ r.storage.read d.location.file = .ok text.toUTF8 ∧
      d.location.isUnknown = false ∧ d.location.line < (text.toList.splitOn '\n').length ∧
      ∃ excerpt start ninth tenth, r.rendered d = .ok (r.header d ++ "\n" ++ excerpt) ∧
        excerpt.toList.splitOn '\n' = [ninth, tenth, mark start 7] ∧
        Row start 9 "float x".toList ninth ∧ Row start 10 "x = 1 +;".toList tenth ∧
        tenth[start + 7]? = some ';' := by
  intro text r d
  have hknown : d.location.isUnknown = false := by decide
  have hline : d.location.line < (text.toList.splitOn '\n').length := by decide
  refine ⟨rfl, rfl, hknown, hline, ?_⟩
  obtain ⟨excerpt, start, preceding, tenth, hrendered, hsplit, hpreceding, htenth, hmark⟩ :=
    (excerpt_aligned r d text rfl rfl hknown hline).1 (by decide)
  obtain ⟨hfirst, -⟩ | ⟨line, ninth, hnext, rfl, hninth⟩ := hpreceding
  · exact absurd hfirst (by decide)
  · obtain rfl : 8 = line := Nat.succ.inj hnext
    have hsemicolon := hmark "x = 1 +".toList [';'] (by decide) (by simp) (by decide)
    have hshown : shownText text 8 = "float x".toList := by decide
    have hshown' : shownText text 9 = "x = 1 +;".toList := by decide
    exact ⟨excerpt, start, ninth, tenth, hrendered, hsplit, hshown ▸ hninth, hshown' ▸ htenth,
      hsemicolon⟩

/-- The first line whose number stands in a field of 65536 columns can not be shown, although it is there
and can be read. -/
theorem no_excerpt_of_distant_line :
    let text := String.ofList (List.replicate 655349 '\n') ++ "x = 1"
    let r : Renderer := { storage := { read := fun _ => .ok text.toUTF8 } }
    let d : Diagnostic := ⟨.error, ⟨⟨655349, 655349, 0⟩, ⟨"main.rin"⟩⟩, "'x' is undefined"⟩
    r.excerpts = true ∧ r.storage.read d.location.file = .ok text.toUTF8 ∧
      d.location.isUnknown = false ∧ d.location.line < (text.toList.splitOn '\n').length ∧
      r.rendered d = .error .fieldTooWide := by
  intro text r d
  have hknown : d.location.isUnknown = false := by decide
  have hline : d.location.line < (text.toList.splitOn '\n').length := by
    rw [length_splitOn, String.toList_append, String.toList_ofList, List.count_append,
      List.count_replicate_self]
    exact Nat.lt_succ_of_le (Nat.le_add_right 655349 _)
  exact ⟨rfl, rfl, hknown, hline, rendered_of_distant rfl rfl hknown hline (Nat.le_refl _)⟩

end Excerpts

end Renderer

end FloatLang
