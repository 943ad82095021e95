import FloatLang.Numeral.Spelling
import FloatLang.Proofs.Rendering.Scanning
import FloatLang.Proofs.Scanner.Patterns
import Mathlib.Data.Nat.Digits.Defs
import Mathlib.Data.Rat.Cast.Defs
import Mathlib.Data.Set.List
import Mathlib.Tactic.NormNum

/-!
# Reading numerals

A text is read as a number when it spells a decimal, and the number that is read is exactly the one
that the decimal writes. There are two recognisers of such texts: the one of the scanner follows the
pattern from the left, the one that reads the number takes the suffix off first and divides the rest at
its first point. Both accept the same texts.

## Main definitions

* `Numeral.Spells` — a text that writes a decimal, with or without an `f` behind it

## Main results

* `Numeral.mem_numeral_iff_spells` — the pattern of numeric literals, by decimals
* `Numeral.parse?_eq_some_iff` — what is read, and as which number
* `Numeral.literal_read_exactly` — reading and scanning of literals
-/

namespace FloatLang.Numeral

open Rendering (Decimal digit naturalOf)

/-! ### Numbers of digits -/

theorem naturalOf_concat (digits : List (Fin 10)) (d : Fin 10) :
    naturalOf (digits ++ [d]) = 10 * naturalOf digits + d := by
  rw [naturalOf, List.foldl_append]
  rfl

/-- The last digit of a number counts ones, and each digit in front of another ten times as much. -/
theorem naturalOf_eq_ofDigits (digits : List (Fin 10)) :
    naturalOf digits = Nat.ofDigits 10 (digits.reverse.map Fin.val) := by
  induction digits using List.reverseRecOn with
  | nil => rfl
  | append_singleton digits d ih =>
    rw [naturalOf_concat, ih, List.reverse_append, List.reverse_singleton, List.singleton_append,
      List.map_cons, Nat.ofDigits_cons, Nat.add_comm]

/-- The number of a decimal is that of all its digits, over ten for each digit behind the point. -/
theorem value_eq_div (d : Decimal) :
    d.value = (naturalOf (d.whole ++ d.fraction) : Rat) / 10 ^ d.fraction.length := by
  rw [Decimal.value, Rat.mkRat_eq_div, Nat.pow_eq]
  push_cast
  rfl

/-! ### Characters of digits -/

theorem exists_digit {c : Char} (h : c.isDigit = true) : ∃ d, digit d = c := by
  obtain ⟨hlow, hhigh⟩ := toNat_of_isDigit h
  refine ⟨⟨c.toNat - 48, by omega⟩, Char.toNat_inj.1 ?_⟩
  rw [digit, Nat.toNat_digitChar_of_lt_ten (by dsimp only; omega)]
  exact Nat.add_sub_cancel' hlow

theorem exists_map_digit {text : List Char} (h : ∀ c ∈ text, c.isDigit = true) :
    ∃ digits : List (Fin 10), digits.map digit = text := by
  have hrange : text ∈ Set.range (List.map digit) := by
    rw [Set.range_list_map]
    exact fun c hc => exists_digit (h c hc)
  exact hrange

/-- A run of digits, as the pattern has it. -/
theorem exists_map_digit_of_mem {text : List Char} (h : text ∈ Pattern.digits) :
    ∃ digits : List (Fin 10), digits ≠ [] ∧ digits.map digit = text := by
  obtain ⟨digits, rfl⟩ := exists_map_digit (Pattern.isDigit_of_mem_digits h)
  refine ⟨digits, ?_, rfl⟩
  rintro rfl
  exact Pattern.ne_nil_of_mem_digits h rfl

theorem map_digit_mem {digits : List (Fin 10)} (h : digits ≠ []) :
    digits.map digit ∈ Pattern.digits :=
  Pattern.mem_digits.2 (Rendering.isDigits_map h)

/-! ### Spellings -/

/-- The text writes a decimal, perhaps with an `f` behind it. -/
def Spells (text : List Char) (d : Decimal) : Prop := text = d.letters ∨ text = d.letters ++ ['f']

variable {text : List Char} {d : Decimal}

/-- Literals are what decimals are written as, with or without the suffix. -/
theorem mem_numeral_iff_spells : text ∈ Pattern.numeral ↔ ∃ d, Spells text d := by
  rw [Pattern.mem_numeral_iff]
  constructor
  · rintro ⟨whole, fraction, suffix, rfl, hwhole, hfraction, hsuffix⟩
    obtain ⟨ws, hws, rfl⟩ := exists_map_digit_of_mem hwhole
    -- without a point there are no digits behind it, and with one there are some
    obtain ⟨fs, rfl⟩ : ∃ fs : List (Fin 10),
        fraction = if fs.isEmpty then [] else '.' :: fs.map digit := by
      rcases hfraction with rfl | ⟨more, hmore, rfl⟩
      · exact ⟨[], rfl⟩
      · obtain ⟨fs, hfs, rfl⟩ := exists_map_digit_of_mem hmore
        exact ⟨fs, by simp [hfs]⟩
    refine ⟨⟨ws, fs, hws⟩, ?_⟩
    rw [← List.append_assoc]
    rcases hsuffix with rfl | rfl
    · exact .inl (List.append_nil _)
    · exact .inr rfl
  · rintro ⟨d, hd⟩
    have hfraction : Rendering.fractionLetters d = [] ∨
        ∃ more ∈ Pattern.digits, Rendering.fractionLetters d = '.' :: more := by
      by_cases hempty : d.fraction = []
      · exact .inl (by simp [Rendering.fractionLetters, hempty])
      · exact .inr ⟨_, map_digit_mem hempty, by simp [Rendering.fractionLetters, hempty]⟩
    rcases hd with rfl | rfl
    · exact ⟨_, _, [], by rw [List.append_nil, Rendering.letters_eq], map_digit_mem d.nonempty,
        hfraction, .inl rfl⟩
    · exact ⟨_, _, ['f'], by rw [Rendering.letters_eq, List.append_assoc], map_digit_mem d.nonempty,
        hfraction, .inr rfl⟩

/-- The suffix is no part of the digits and the point that it comes behind. -/
theorem suffix_notMem_letters (d : Decimal) : 'f' ∉ d.letters := by
  intro hmem
  rcases Rendering.digit_or_point hmem with hdigit | hpoint
  · exact absurd hdigit (by decide)
  · exact absurd hpoint (by decide)

theorem parse?_of_spells (h : Spells text d) : parse? text = some { value := d.value } := by
  have hnone : dropSuffix d.letters = d.letters := Rendering.dropSuffix_letters d
  rcases h with rfl | rfl
  · exact Rendering.parse?_letters d
  · have hsuffix : dropSuffix (d.letters ++ ['f']) = d.letters :=
      Pattern.dropSuffix_append (suffix_notMem_letters d) (.inr rfl)
    rw [← Rendering.parse?_letters d, parse?, parse?, hsuffix, hnone]

/-- What is taken off the end of a text is a suffix or nothing. -/
theorem exists_suffix (text : List Char) :
    ∃ suffix, text = dropSuffix text ++ suffix ∧ (suffix = [] ∨ suffix = ['f']) := by
  unfold dropSuffix
  split
  next hlast =>
    refine ⟨['f'], ?_, .inr rfl⟩
    exact (List.dropLast_append_getLast? 'f' (eq_of_beq hlast)).symm
  next => exact ⟨[], (List.append_nil _).symm, .inl rfl⟩

/-- Nothing is read but what follows the pattern. -/
theorem mem_numeral_of_parse? {x : Numeral} (h : parse? text = some x) : text ∈ Pattern.numeral := by
  obtain ⟨suffix, htext, hsuffix⟩ := exists_suffix text
  have hdigits := List.takeWhile_append_dropWhile (p := (· != '.')) (l := dropSuffix text)
  have hpoint := List.head?_dropWhile_not (· != '.') (dropSuffix text)
  rw [Pattern.mem_numeral_iff]
  unfold parse? at h
  dsimp only at h
  split at h
  next hnil =>
    -- no point
    split at h
    next hwhole =>
      refine ⟨_, [], suffix, ?_, Pattern.mem_digits.2 hwhole, .inl rfl, hsuffix⟩
      rw [hnil, List.append_nil] at hdigits
      rw [hdigits]
      exact htext
    next => contradiction
  next c fraction hcons =>
    split at h
    next hboth =>
      obtain ⟨hwhole, hfraction⟩ := Bool.and_eq_true_iff.1 hboth
      rw [hcons] at hpoint hdigits
      obtain rfl : c = '.' := by simpa using hpoint
      refine ⟨_, '.' :: fraction, suffix, ?_, Pattern.mem_digits.2 hwhole,
        .inr ⟨fraction, Pattern.mem_digits.2 hfraction, rfl⟩, hsuffix⟩
      rw [← List.append_assoc, hdigits]
      exact htext
    next => contradiction

/-- A number with the usual precision is known by its value. -/
theorem eq_ofValue_iff {x : Numeral} {v : Rat} :
    x = { value := v } ↔ x.precision = 256 ∧ x.value = v := by
  constructor
  · rintro rfl
    exact ⟨rfl, rfl⟩
  · rintro ⟨hprecision, hvalue⟩
    cases x
    cases hprecision
    cases hvalue
    rfl

/-- What is read, and as which number. -/
theorem parse?_eq_some_iff {x : Numeral} :
    parse? text = some x ↔ ∃ d, Spells text d ∧ x = { value := d.value } := by
  constructor
  · intro h
    obtain ⟨d, hd⟩ := mem_numeral_iff_spells.1 (mem_numeral_of_parse? h)
    exact ⟨d, hd, Option.some.inj (h.symm.trans (parse?_of_spells hd))⟩
  · rintro ⟨d, hd, rfl⟩
    exact parse?_of_spells hd

theorem exists_parse?_iff : (∃ x, parse? text = some x) ↔ text ∈ Pattern.numeral := by
  rw [mem_numeral_iff_spells]
  constructor
  · rintro ⟨x, hx⟩
    obtain ⟨d, hd, -⟩ := parse?_eq_some_iff.1 hx
    exact ⟨d, hd⟩
  · rintro ⟨d, hd⟩
    exact ⟨_, parse?_of_spells hd⟩

theorem ofString_eq_ok_iff {text : String} {x : Numeral} :
    ofString text = .ok x ↔ parse? text.toList = some x := by
  unfold ofString
  split <;> simp_all

/-! ### Words -/

/-- The kind of a word that starts with a digit hangs on whether it is read. -/
theorem classifyWord_of_startsWithDigit {text : String}
    (h : Pattern.StartsWithDigit text.toList) :
    classifyWord text.toList = match ofString text with
      | .ok x => .numeral x
      | .error e => .invalid (.invalidNumeral e.spelling) := by
  unfold classifyWord ofString
  rw [if_pos (Pattern.startsWithDigit_iff.1 h)]
  by_cases hmem : text.toList ∈ Pattern.numeral
  · obtain ⟨x, hx⟩ := exists_parse?_iff.2 hmem
    rw [if_pos (Pattern.mem_numeral.1 hmem), hx]
  · have hnone : parse? text.toList = none :=
      Option.eq_none_iff_forall_ne_some.2 fun x hx => hmem (mem_numeral_of_parse? hx)
    rw [if_neg fun hspelling => hmem (Pattern.mem_numeral.2 hspelling), hnone, String.ofList_toList]

/-- A text is read if and only if it follows the pattern of numeric literals, as the number of its
digits over ten for each of them behind the point, and with 256 bits. A word that starts with a digit
is recognised by the scanner if and only if it is read, and is then a numeral with the value that is
read; otherwise it is an invalid numeral. -/
theorem literal_read_exactly (text : String) :
    ((∃ x, ofString text = .ok x) ↔ text.toList ∈ Pattern.numeral) ∧
    (∀ x, ofString text = .ok x ↔ ∃ d, Spells text.toList d ∧ x.precision = 256 ∧
      x.value = ((Nat.ofDigits 10 ((d.whole ++ d.fraction).reverse.map Fin.val) : Nat) : Rat) /
        10 ^ d.fraction.length) ∧
    (Pattern.StartsWithDigit text.toList →
      (isSpelling text.toList = true ↔ ∃ x, ofString text = .ok x) ∧
      classifyWord text.toList = match ofString text with
        | .ok x => .numeral x
        | .error e => .invalid (.invalidNumeral e.spelling)) := by
  have hread : (∃ x, ofString text = .ok x) ↔ text.toList ∈ Pattern.numeral := by
    simp only [ofString_eq_ok_iff]
    exact exists_parse?_iff
  refine ⟨hread, fun x => ?_, fun hdigit => ⟨?_, classifyWord_of_startsWithDigit hdigit⟩⟩
  · rw [ofString_eq_ok_iff, parse?_eq_some_iff]
    refine exists_congr fun d => and_congr_right fun _ => ?_
    have hvalue := value_eq_div d
    rw [naturalOf_eq_ofDigits] at hvalue
    rw [← hvalue]
    exact eq_ofValue_iff
  · rw [hread, Pattern.mem_numeral]

/-- A literal with digits behind the point and a suffix. -/
theorem suffixed_literal_read_exactly :
    Pattern.StartsWithDigit "1.50f".toList ∧ isSpelling "1.50f".toList = true ∧
      ofString "1.50f" = .ok { value := 3 / 2 } ∧
      classifyWord "1.50f".toList = .numeral { value := 3 / 2 } := by
  have hstart : Pattern.StartsWithDigit "1.50f".toList := ⟨'1', rfl, rfl⟩
  obtain ⟨-, hread, hword⟩ := literal_read_exactly "1.50f"
  obtain ⟨hspelling, hclass⟩ := hword hstart
  have hok : ofString "1.50f" = .ok { value := 3 / 2 } := by
    refine (hread _).2 ⟨⟨[1], [5, 0], by decide⟩, .inr rfl, rfl, ?_⟩
    have hdigits : Nat.ofDigits 10 (([1] ++ [5, 0] : List (Fin 10)).reverse.map Fin.val) = 150 := rfl
    rw [hdigits]
    norm_num
  rw [hok] at hclass
  exact ⟨hstart, hspelling.2 ⟨_, hok⟩, hok, hclass⟩

end FloatLang.Numeral
