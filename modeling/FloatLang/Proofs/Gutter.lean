import FloatLang.Proofs.Alignment
import Mathlib.Data.List.Forall2

/-!
# Widths of line numbers

The field for line numbers in an excerpt has a tenth of the largest of them and one more as its width.
Up to the nineteenth line these are just as many columns as the number has digits. From the twentieth on
there are too many: every ten lines further down a file the texts of its excerpts start a column further
to the right, but it is only at a power of ten that a number has a digit more. From line 655350 on there
are no excerpts at all, as the field would be wider than a field may be.

## Main definitions

* `Renderer.field` — what stands in a row where its number is
* `Renderer.FieldFits` — the field for numbers is as wide as a number

## Main results

* `Renderer.length_toDigits_eq_iff` — when a tenth of a number and one more are its digits
* `Renderer.excerpt_fits_iff` — the excerpts in which the field fits the largest number
* `Renderer.twentieth_line_padded` — one in which it does not
-/

namespace FloatLang

namespace Renderer

/-! ### Widths -/

/-- From twenty on a tenth of a number is already enough for its digits. -/
theorem length_toDigits_le_tenth {n : Nat} (h : 20 ≤ n) : (Nat.toDigits 10 n).length ≤ n / 10 := by
  have htwo : 2 ≤ n / 10 := by omega
  obtain ⟨k, hk⟩ := Nat.exists_eq_add_of_le' htwo
  -- two columns are enough for a hundred numbers, and each one more for ten times as many
  have hpower : k + 1 ≤ 10 ^ k := Nat.lt_pow_self (by decide)
  rw [Nat.length_toDigits_le_iff (by decide) (by omega), hk]
  calc
    n < 10 * (n / 10 + 1) := Nat.lt_mul_div_succ n (by decide)
    _ = 10 * (k + 3) := by rw [hk]
    _ ≤ 10 ^ 2 * (k + 1) := by omega
    _ ≤ 10 ^ 2 * 10 ^ k := Nat.mul_le_mul_left _ hpower
    _ = 10 ^ (k + 2) := by rw [← Nat.pow_add, Nat.add_comm]

/-- A tenth of a number and one more are its digits if and only if it is less than twenty. -/
theorem length_toDigits_eq_iff {n : Nat} : (Nat.toDigits 10 n).length = n / 10 + 1 ↔ n < 20 := by
  constructor
  · intro heq
    by_contra hlarge
    have hle := length_toDigits_le_tenth (Nat.le_of_not_lt hlarge)
    omega
  · intro hsmall
    have hall : ∀ n < 20, (Nat.toDigits 10 n).length = n / 10 + 1 := by decide
    exact hall n hsmall

/-! ### Fields of rows -/

/-- The field for the number of a row: what stands in front of the bar, but for the blank before it. -/
def field (row : List Char) : List Char := (row.takeWhile (· != '|')).dropLast

variable {width number line : Nat} {content row : List Char} {rows : List (List Char)}
  {text : String} {l : Location} {lines : List NumberedLine}

/-- The number of a row is at the right end of its field. -/
theorem Row.field_eq (h : Row (width + 3) number content row) :
    field row = (Nat.toDigits 10 number).leftpad width ' ' := by
  obtain ⟨blanks, hwidth, rfl⟩ := h
  have hblanks : width - (Nat.toDigits 10 number).length = blanks := by omega
  -- neither blanks nor digits are bars, so the first bar is the one behind the number
  have hbar : '|' ∉ List.replicate blanks ' ' ++ Nat.toDigits 10 number ++ [' '] := by
    simp [notMem_toDigits]
  have hfront : ∀ c ∈ List.replicate blanks ' ' ++ Nat.toDigits 10 number ++ [' '],
      (c != '|') = true := fun c hc => bne_iff_ne.2 (ne_of_mem_of_not_mem hc hbar)
  have hsplit : List.replicate blanks ' ' ++ Nat.toDigits 10 number ++ [' ', '|', ' '] ++ content =
      (List.replicate blanks ' ' ++ Nat.toDigits 10 number ++ [' ']) ++ '|' :: ' ' :: content := by
    simp
  rw [field, hsplit, (span_append hfront (by simp)).1, List.dropLast_concat, List.leftpad, hblanks]

/-- The fields of rows whose texts start in one column. -/
theorem map_field_of_rows {numbers : List Nat} {contents : Nat → List Char}
    (h : List.Forall₂ (fun number row => Row (width + 3) number (contents number) row) numbers rows) :
    rows.map field = numbers.map fun number => (Nat.toDigits 10 number).leftpad width ' ' := by
  symm
  rw [← List.forall₂_eq_eq_eq, List.forall₂_map_left_iff, List.forall₂_map_right_iff]
  exact h.imp fun number row hrow => hrow.field_eq.symm

/-! ### Fields of excerpts -/

/-- The field for numbers in some rows fits a number: it is as wide as the number, which stands in one of
them without blanks. -/
structure FieldFits (number : Nat) (rows : List (List Char)) : Prop where
  width : ∀ row ∈ rows, (field row).length = (Nat.toDigits 10 number).length
  unpadded : ∃ row ∈ rows, field row = Nat.toDigits 10 number

/-- The rows of an excerpt have the numbers of its lines, in a field whose width depends on the line. -/
theorem rows_of_shows (h : ({ before := 1 } : Window).Shows text l lines)
    (hline : l.line ≤ text.toList.count '\n') :
    List.Forall₂ (fun number row =>
        Row ((l.line + 1) / 10 + 4) number (shownText text (number - 1)) row)
      (shownNumbers l.line) (lines.map fun x => (rowText (gutter lines) x).toList) := by
  have hgutter : gutter lines + 3 = (l.line + 1) / 10 + 4 := by rw [gutter_of_shows h hline]
  rw [← numbers_of_shows h hline, ← hgutter, List.forall₂_map_left_iff, List.forall₂_map_right_iff, List.forall₂_same]
  exact fun x hx => row_of_shows h hx

/-- The field of an excerpt fits the largest number if and only if this has as many digits as the field
has columns, which is so up to nineteen. -/
theorem fieldFits_iff (h : rows.map field = (shownNumbers line).map fun number =>
      (Nat.toDigits 10 number).leftpad ((line + 1) / 10 + 1) ' ') :
    FieldFits (line + 1) rows ↔ line + 1 < 20 := by
  obtain ⟨hlast, hlargest⟩ := List.max?_eq_some_iff.1 (max?_shownNumbers line)
  -- all numbers have place in the field, so that no row makes it wider
  have hwidth : ∀ row ∈ rows, (field row).length = (line + 1) / 10 + 1 := by
    intro row hrow
    have hfield := List.mem_map_of_mem (f := field) hrow
    rw [h] at hfield
    obtain ⟨number, hnumber, hrow⟩ := List.mem_map.1 hfield
    have hplace := length_toDigits_le (hlargest number hnumber)
    rw [← hrow, List.length_leftpad, Nat.max_eq_left hplace]
  have hrow := List.mem_map_of_mem
    (f := fun number => (Nat.toDigits 10 number).leftpad ((line + 1) / 10 + 1) ' ') hlast
  rw [← h] at hrow
  obtain ⟨row, hmem, hrow⟩ := List.mem_map.1 hrow
  rw [← length_toDigits_eq_iff]
  constructor
  · intro hfits
    rw [← hfits.width row hmem, hwidth row hmem]
  · intro hdigits
    refine ⟨fun row hrow => (hwidth row hrow).trans hdigits.symm, row, hmem, ?_⟩
    rw [hrow, List.leftpad, hdigits, Nat.sub_self, List.replicate_zero, List.nil_append]

/-- The excerpt of a diagnostic about a line of a text that is stored encoded. In front of the texts
there is a field for numbers that is a column wider for every ten lines. It is just as wide as the
largest number in it, which then has no blanks to its left, if and only if the line is one of the first
nineteen. There is such an excerpt if the line is one of the first 655349; otherwise the diagnostic can
not be rendered at all. -/
theorem excerpt_fits_iff (r : Renderer) (d : Diagnostic) (text : String)
    (hexcerpts : r.excerpts = true) (hread : r.storage.read d.location.file = .ok text.toUTF8)
    (hknown : d.location.isUnknown = false)
    (hline : d.location.line < (text.toList.splitOn '\n').length) :
    (d.location.line + 1 < 655350 → ∃ excerpt rows,
      r.rendered d = .ok (r.header d ++ "\n" ++ excerpt) ∧
      excerpt.toList.splitOn '\n' =
        rows ++ [mark ((d.location.line + 1) / 10 + 4) d.location.column] ∧
      List.Forall₂ (fun number row =>
          Row ((d.location.line + 1) / 10 + 4) number (shownText text (number - 1)) row)
        (shownNumbers d.location.line) rows ∧
      (FieldFits (d.location.line + 1) rows ↔ d.location.line + 1 < 20)) ∧
    (655350 ≤ d.location.line + 1 → r.rendered d = .error .fieldTooWide) := by
  refine ⟨fun hnear => ?_, rendered_of_distant hexcerpts hread hknown hline⟩
  obtain ⟨lines, excerpt, hshows, hrendered, hsplit⟩ :=
    rendered_of_near hexcerpts hread hknown hline hnear
  rw [length_splitOn, Nat.lt_succ_iff] at hline
  have hrows := rows_of_shows hshows hline
  rw [gutter_of_shows hshows hline] at hsplit hrows
  exact ⟨excerpt, _, hrendered, hsplit, hrows, fieldFits_iff (map_field_of_rows hrows)⟩

/-- The number of the nineteenth line stands without blanks in its field. -/
theorem nineteenth_line_unpadded :
    let text := String.ofList (List.replicate 18 '\n') ++ "x = 1"
    let r : Renderer := { storage := { read := fun _ => .ok text.toUTF8 } }
    let d : Diagnostic := ⟨.error, ⟨⟨18, 18, 0⟩, ⟨"main.rin"⟩⟩, "'x' is undefined"⟩
    r.excerpts = true ∧ r.storage.read d.location.file = .ok text.toUTF8 ∧
      d.location.isUnknown = false ∧ d.location.line < (text.toList.splitOn '\n').length ∧
      ∃ excerpt rows, r.rendered d = .ok (r.header d ++ "\n" ++ excerpt) ∧
        excerpt.toList.splitOn '\n' = rows ++ [mark 5 0] ∧
        rows.map field = ["18".toList, "19".toList] ∧ FieldFits 19 rows := by
  intro text r d
  have hknown : d.location.isUnknown = false := by decide
  have hline : d.location.line < (text.toList.splitOn '\n').length := by decide
  obtain ⟨excerpt, rows, hrendered, hsplit, hrows, hfits⟩ :=
    (excerpt_fits_iff r d text rfl rfl hknown hline).1 (by decide)
  have hfields : rows.map field = ["18".toList, "19".toList] :=
    (map_field_of_rows hrows).trans (by decide)
  have hstart : (d.location.line + 1) / 10 + 4 = 5 := by decide
  rw [hstart] at hsplit
  exact ⟨rfl, rfl, hknown, hline, excerpt, rows, hrendered, hsplit, hfields, hfits.2 (by decide)⟩

/-- The number of the twentieth line has a blank in front, and so has that of the line before: the field
for them is three columns wide. -/
theorem twentieth_line_padded :
    let text := String.ofList (List.replicate 19 '\n') ++ "x = 1"
    let r : Renderer := { storage := { read := fun _ => .ok text.toUTF8 } }
    let d : Diagnostic := ⟨.error, ⟨⟨19, 19, 0⟩, ⟨"main.rin"⟩⟩, "'x' is undefined"⟩
    r.excerpts = true ∧ r.storage.read d.location.file = .ok text.toUTF8 ∧
      d.location.isUnknown = false ∧ d.location.line < (text.toList.splitOn '\n').length ∧
      ∃ excerpt rows, r.rendered d = .ok (r.header d ++ "\n" ++ excerpt) ∧
        excerpt.toList.splitOn '\n' = rows ++ [mark 6 0] ∧
        rows.map field = [" 19".toList, " 20".toList] ∧ ¬FieldFits 20 rows := by
  intro text r d
  have hlines : ({ before := 1 } : Window).linesIn text d.location =
      .ok [⟨19, false, ""⟩, ⟨20, true, "x = 1"⟩] := by
    decide
  have hfields : [" 19 | ".toList, " 20 | x = 1".toList].map field = [" 19".toList, " 20".toList] := by
    decide
  refine ⟨rfl, rfl, by decide, by decide, " 19 | \n 20 | x = 1\n      ^",
    [" 19 | ".toList, " 20 | x = 1".toList], ?_, by decide, hfields, ?_⟩
  · rw [rendered_of_linesIn rfl rfl hlines]
    decide
  · intro hfits
    have hwidth := hfits.width " 20 | x = 1".toList (by simp)
    exact absurd hwidth (by decide)

end Renderer

end FloatLang
