import FloatLang.Lexeme
import FloatLang.Proofs.Lists
import Mathlib.Computability.Language

/-!
# The patterns of words

What identifiers and numeric literals look like, as regular expressions that say so without the
functions that recognise them. What is no identifier has a first character at which it stops to be
one.

## Main definitions

* `Pattern.identifier`, `Pattern.numeral` — the patterns
* `Pattern.Breaks` — the first character that an identifier can not have in its place
* `Pattern.StartsWithDigit` — what tells numeric literals from other words

## Main results

* `Pattern.mem_identifier`, `Pattern.mem_numeral` — what is recognised
* `Pattern.isSome_parse?` — every numeric literal has a value
* `Pattern.firstUnknown?_eq_some` — the character that is found is the one that breaks the pattern
-/

namespace FloatLang

namespace Pattern

open scoped Computability

/-! ### Patterns -/

/-- This character. -/
def exactly (c : Char) : Language Char := {[c]}

/-- Any of the characters from `first` to `last`. -/
def range (first last : Char) : Language Char := {w | ∃ c, first ≤ c ∧ c ≤ last ∧ w = [c]}

/-- `[A-Za-z]` -/
def letter : Language Char := range 'A' 'Z' + range 'a' 'z'

/-- `[0-9]` -/
def digit : Language Char := range '0' '9'

/-- `[A-Za-z0-9_]` -/
def continuation : Language Char := letter + digit + exactly '_'

/-- `[A-Za-z][A-Za-z0-9_]*` -/
def identifier : Language Char := letter * continuation∗

/-- `[0-9]+` -/
def digits : Language Char := digit * digit∗

/-- `[0-9]+(\.[0-9]+)?f?` -/
def numeral : Language Char := digits * (1 + exactly '.' * digits) * (1 + exactly 'f')

/-- The first character at which a text can not go on as an identifier. -/
def Breaks (word : List Char) (c : Char) : Prop :=
  ∃ front back, word = front ++ c :: back ∧ (front = [] ∨ front ∈ identifier) ∧
    front ++ [c] ∉ identifier

/-! ### Classes of characters -/

/-- The pattern of one character that passes the test. -/
def Tests (l : Language Char) (test : Char → Bool) : Prop :=
  ∀ w, w ∈ l ↔ ∃ c, test c = true ∧ w = [c]

variable {l m : Language Char} {test test' : Char → Bool} {w word : List Char} {c : Char}

theorem tests_exactly (c : Char) : Tests (exactly c) (· == c) := by
  intro w
  change w = [c] ↔ _
  simp

theorem tests_range (first last : Char) :
    Tests (range first last) fun c => decide (first ≤ c) && decide (c ≤ last) := by
  intro w
  change (∃ c, first ≤ c ∧ c ≤ last ∧ w = [c]) ↔ _
  simp [and_assoc]

theorem Tests.add (hl : Tests l test) (hm : Tests m test') :
    Tests (l + m) fun c => test c || test' c := by
  intro w
  rw [Language.mem_add, hl, hm]
  simp only [Bool.or_eq_true, or_and_right, exists_or]

theorem tests_letter : Tests letter Char.isAlpha := by
  have hupper : Tests (range 'A' 'Z') Char.isUpper := by
    intro w
    rw [tests_range 'A' 'Z' w]
    simp only [← Bool.decide_and]
    rfl
  exact hupper.add (tests_range 'a' 'z')

theorem tests_digit : Tests digit Char.isDigit := tests_range '0' '9'

theorem tests_continuation : Tests continuation continuesIdentifier :=
  (tests_letter.add tests_digit).add (tests_exactly '_')

theorem Tests.mem_mul (h : Tests l test) :
    w ∈ l * m ↔ ∃ c rest, w = c :: rest ∧ test c = true ∧ rest ∈ m := by
  rw [Language.mem_mul]
  constructor
  · rintro ⟨a, ha, b, hb, rfl⟩
    obtain ⟨c, hc, rfl⟩ := (h a).1 ha
    exact ⟨c, b, rfl, hc, hb⟩
  · rintro ⟨c, rest, rfl, hc, hrest⟩
    exact ⟨[c], (h _).2 ⟨c, hc, rfl⟩, rest, hrest, rfl⟩

theorem Tests.mem_kstar (h : Tests l test) : w ∈ l∗ ↔ ∀ c ∈ w, test c = true := by
  induction w with
  | nil => simp [Language.nil_mem_kstar]
  | cons c w ih =>
    rw [← Language.one_add_self_mul_kstar_eq_kstar, Language.mem_add, h.mem_mul,
      List.forall_mem_cons, ← ih, Language.mem_one]
    simp

/-! ### Identifiers -/

theorem mem_identifier : word ∈ identifier ↔ isIdentifier word = true := by
  rw [identifier, tests_letter.mem_mul]
  cases word with
  | nil => simp [isIdentifier]
  | cons c rest => simp [isIdentifier, tests_continuation.mem_kstar]

theorem singleton_mem_identifier : [c] ∈ identifier ↔ c.isAlpha = true := by
  simp [mem_identifier, isIdentifier]

/-- An identifier with one more character is one if the character may come after the first. -/
theorem append_mem_identifier (hword : word ∈ identifier) :
    word ++ [c] ∈ identifier ↔ continuesIdentifier c = true := by
  rw [mem_identifier] at *
  cases word with
  | nil => contradiction
  | cons first rest =>
    obtain ⟨hfirst, hrest⟩ := Bool.and_eq_true_iff.1 hword
    rw [List.cons_append, isIdentifier, hfirst, List.all_append, hrest]
    simp

/-- After a letter, the pattern is broken by the first character that may not come after it. -/
theorem breaks_of_letter {first : Char} {rest : List Char} (hfirst : first.isAlpha = true) :
    Breaks (first :: rest) c ↔ rest.find? (!continuesIdentifier ·) = some c := by
  rw [List.find?_eq_some_iff_append]
  constructor
  · rintro ⟨front, back, hword, hfront, hc⟩
    cases front with
    | nil =>
      obtain ⟨rfl, -⟩ := List.cons.inj hword
      exact absurd (singleton_mem_identifier.2 hfirst) hc
    | cons first' front =>
      obtain ⟨rfl, rfl⟩ := List.cons.inj hword
      have hmem := hfront.resolve_left (List.cons_ne_nil _ _)
      rw [append_mem_identifier hmem] at hc
      have hall := List.all_eq_true.1 (Bool.and_eq_true_iff.1 (mem_identifier.1 hmem)).2
      exact ⟨by simpa using hc, front, back, rfl, fun d hd => by simpa using hall d hd⟩
  · rintro ⟨hc, front, back, rfl, hfront⟩
    have hmem : first :: front ∈ identifier := by
      rw [mem_identifier, isIdentifier, hfirst]
      simpa using hfront
    refine ⟨first :: front, back, rfl, .inr hmem, ?_⟩
    rw [append_mem_identifier hmem]
    simpa using hc

/-- What is no letter breaks the pattern at once. -/
theorem breaks_of_not_letter {first : Char} {rest : List Char} (hfirst : ¬ first.isAlpha = true) :
    Breaks (first :: rest) c ↔ first = c := by
  constructor
  · rintro ⟨front, back, hword, hfront, hc⟩
    cases front with
    | nil => exact (List.cons.inj hword).1
    | cons first' front =>
      obtain ⟨rfl, rfl⟩ := List.cons.inj hword
      have hmem := mem_identifier.1 (hfront.resolve_left (List.cons_ne_nil _ _))
      exact absurd (Bool.and_eq_true_iff.1 hmem).1 hfirst
  · rintro rfl
    exact ⟨[], rest, rfl, .inl rfl, fun hmem => hfirst (singleton_mem_identifier.1 hmem)⟩

/-- What is found is the character that breaks the pattern. -/
theorem firstUnknown?_eq_some : firstUnknown? word = some c ↔ Breaks word c := by
  cases word with
  | nil => simp [firstUnknown?, Breaks]
  | cons first rest =>
    by_cases hfirst : first.isAlpha = true
    · rw [firstUnknown?, if_pos hfirst, breaks_of_letter hfirst]
    · rw [firstUnknown?, if_neg hfirst, breaks_of_not_letter hfirst, Option.some_inj]

/-- What is no identifier has a character that breaks the pattern. -/
theorem exists_breaks (hne : word ≠ []) (h : word ∉ identifier) : ∃ c, Breaks word c := by
  cases word with
  | nil => contradiction
  | cons first rest =>
    rw [mem_identifier, isIdentifier, Bool.and_eq_true, not_and] at h
    by_cases hfirst : first.isAlpha = true
    · simp only [breaks_of_letter hfirst]
      rw [← Option.isSome_iff_exists, List.find?_isSome]
      simpa using h hfirst
    · exact ⟨first, (breaks_of_not_letter hfirst).2 rfl⟩

/-! ### Numeric literals -/

theorem mem_digits : word ∈ digits ↔ Numeral.isDigits word = true := by
  rw [digits, tests_digit.mem_mul]
  cases word with
  | nil => simp [Numeral.isDigits]
  | cons c rest => simp [Numeral.isDigits, tests_digit.mem_kstar]

/-- Digits, perhaps a point and more digits, perhaps an `f`. -/
theorem mem_numeral_iff :
    word ∈ numeral ↔ ∃ whole fraction suffix, word = whole ++ (fraction ++ suffix) ∧
      whole ∈ digits ∧ (fraction = [] ∨ ∃ more ∈ digits, fraction = '.' :: more) ∧
      (suffix = [] ∨ suffix = ['f']) := by
  have hfraction (w : List Char) : w ∈ 1 + exactly '.' * digits ↔
      w = [] ∨ ∃ more ∈ digits, w = '.' :: more := by
    rw [Language.mem_add, Language.mem_one, (tests_exactly '.').mem_mul]
    simp [and_comm]
  have hsuffix (w : List Char) : w ∈ 1 + exactly 'f' ↔ w = [] ∨ w = ['f'] := by
    rw [Language.mem_add, Language.mem_one]
    rfl
  simp only [numeral, Language.mem_mul, hfraction, hsuffix]
  constructor
  · rintro ⟨_, ⟨whole, hwhole, fraction, hfraction, rfl⟩, suffix, hsuffix, rfl⟩
    exact ⟨whole, fraction, suffix, List.append_assoc .., hwhole, hfraction, hsuffix⟩
  · rintro ⟨whole, fraction, suffix, rfl, hwhole, hfraction, hsuffix⟩
    exact ⟨_, ⟨whole, hwhole, fraction, hfraction, rfl⟩, suffix, hsuffix, List.append_assoc ..⟩

theorem isDigit_of_mem_digits (h : word ∈ digits) : ∀ c ∈ word, c.isDigit = true :=
  List.all_eq_true.1 (Bool.and_eq_true_iff.1 (mem_digits.1 h)).2

theorem ne_nil_of_mem_digits (h : word ∈ digits) : word ≠ [] := by
  simpa using (Bool.and_eq_true_iff.1 (mem_digits.1 h)).1

theorem takeWhile_mem_digits (hne : word.takeWhile Char.isDigit ≠ []) :
    word.takeWhile Char.isDigit ∈ digits := by
  rw [mem_digits, Numeral.isDigits, List.all_takeWhile, Bool.and_true]
  simpa using hne

theorem isSuffix_iff : Numeral.isSuffix word = true ↔ word = [] ∨ word = ['f'] := by
  simp [Numeral.isSuffix]

theorem mem_numeral : word ∈ numeral ↔ Numeral.isSpelling word = true := by
  rw [mem_numeral_iff]
  constructor
  · rintro ⟨whole, fraction, suffix, rfl, hwhole, hfraction, hsuffix⟩
    have hsuffix' := isSuffix_iff.2 hsuffix
    have hne := ne_nil_of_mem_digits hwhole
    have hback : ∀ c ∈ suffix.head?, c.isDigit = false := by
      rcases hsuffix with rfl | rfl <;> simp
    unfold Numeral.isSpelling
    dsimp only
    rcases hfraction with rfl | ⟨more, hmore, rfl⟩
    · obtain ⟨htake, hdrop⟩ := span_append (isDigit_of_mem_digits hwhole) hback
      rw [List.nil_append, htake, hdrop]
      rcases hsuffix with rfl | rfl <;> simp [hne, Numeral.isSuffix]
    · have hpoint : ∀ c ∈ ('.' :: (more ++ suffix)).head?, c.isDigit = false := by simp
      obtain ⟨htake, hdrop⟩ := span_append (isDigit_of_mem_digits hwhole) hpoint
      obtain ⟨htake', hdrop'⟩ := span_append (isDigit_of_mem_digits hmore) hback
      rw [List.cons_append, htake, hdrop]
      change (!whole.isEmpty && (!((more ++ suffix).takeWhile Char.isDigit).isEmpty &&
        Numeral.isSuffix ((more ++ suffix).dropWhile Char.isDigit))) = true
      rw [htake', hdrop', hsuffix']
      simp [hne, ne_nil_of_mem_digits hmore]
  · intro h
    have hword := List.takeWhile_append_dropWhile (p := Char.isDigit) (l := word)
    obtain ⟨hne, hrest⟩ := Bool.and_eq_true_iff.1 h
    have hwhole := takeWhile_mem_digits (by simpa using hne)
    split at hrest
    next tail htail =>
      obtain ⟨hne', hsuffix⟩ := Bool.and_eq_true_iff.1 hrest
      refine ⟨_, '.' :: tail.takeWhile Char.isDigit, _, ?_, hwhole,
        .inr ⟨_, takeWhile_mem_digits (by simpa using hne'), rfl⟩, isSuffix_iff.1 hsuffix⟩
      rw [List.cons_append, List.takeWhile_append_dropWhile, ← htail, hword]
    next => exact ⟨_, [], _, hword.symm, hwhole, .inl rfl, isSuffix_iff.1 hrest⟩

/-- The suffix of a numeric literal is dropped, and nothing else. -/
theorem dropSuffix_append {suffix : List Char} (hword : 'f' ∉ word)
    (hsuffix : suffix = [] ∨ suffix = ['f']) : Numeral.dropSuffix (word ++ suffix) = word := by
  rcases hsuffix with rfl | rfl
  · have hlast : ¬ (word.getLast? == some 'f') = true := fun hlast =>
      hword (List.mem_of_getLast? (eq_of_beq hlast))
    rw [List.append_nil, Numeral.dropSuffix, if_neg hlast]
  · simp [Numeral.dropSuffix]

theorem isSome_parse? (h : word ∈ numeral) : (Numeral.parse? word).isSome = true := by
  obtain ⟨whole, fraction, suffix, rfl, hwhole, hfraction, hsuffix⟩ := mem_numeral_iff.1 h
  have hne {c x : Char} {ds : List Char} (hds : ds ∈ digits) (hc : c ∈ ds)
      (hx : x.isDigit = false) : c ≠ x := by
    rintro rfl
    rw [isDigit_of_mem_digits hds c hc] at hx
    contradiction
  have hletter : 'f' ∉ whole ++ fraction := by
    rw [List.mem_append]
    rintro (hmem | hmem)
    · exact hne hwhole hmem (by decide) rfl
    · rcases hfraction with rfl | ⟨more, hmore, rfl⟩
      · contradiction
      · exact (List.mem_cons.1 hmem).elim (by decide) fun hmem => hne hmore hmem (by decide) rfl
  obtain ⟨htake, hdrop⟩ : (whole ++ fraction).takeWhile (· != '.') = whole ∧
      (whole ++ fraction).dropWhile (· != '.') = fraction := by
    refine span_append (fun c hc => bne_iff_ne.2 (hne hwhole hc (by decide))) ?_
    rcases hfraction with rfl | ⟨more, -, rfl⟩ <;> simp
  unfold Numeral.parse?
  dsimp only
  rw [← List.append_assoc, dropSuffix_append hletter hsuffix, htake, hdrop]
  rcases hfraction with rfl | ⟨more, hmore, rfl⟩
  · simp [mem_digits.1 hwhole]
  · simp [mem_digits.1 hwhole, mem_digits.1 hmore]

/-! ### What words start with -/

/-- Whether a word starts with a digit. -/
def StartsWithDigit (word : List Char) : Prop := ∃ c ∈ word.head?, c.isDigit = true

theorem startsWithDigit_iff :
    StartsWithDigit word ↔ (word.head?.map Char.isDigit).getD false = true := by
  cases word <;> simp [StartsWithDigit]

theorem startsWithDigit_of_mem_numeral (h : word ∈ numeral) : StartsWithDigit word := by
  obtain ⟨whole, fraction, suffix, rfl, hwhole, -, -⟩ := mem_numeral_iff.1 h
  cases whole with
  | nil => exact absurd rfl (ne_nil_of_mem_digits hwhole)
  | cons c whole => exact ⟨c, rfl, isDigit_of_mem_digits hwhole c List.mem_cons_self⟩

theorem not_startsWithDigit_of_mem_identifier (h : word ∈ identifier) : ¬ StartsWithDigit word := by
  rintro ⟨c, hc, hdigit⟩
  cases word with
  | nil => contradiction
  | cons first rest =>
    obtain rfl := Option.some.inj hc
    have halpha := (Bool.and_eq_true_iff.1 (mem_identifier.1 h)).1
    rw [isDigit_of_isAlpha halpha] at hdigit
    contradiction

theorem notMem_identifier (h : word ∈ numeral) : word ∉ identifier := fun hmem =>
  not_startsWithDigit_of_mem_identifier hmem (startsWithDigit_of_mem_numeral h)

theorem notMem_numeral (h : word ∈ identifier) : word ∉ numeral := fun hmem =>
  notMem_identifier hmem h

end Pattern

end FloatLang
