import FloatLang.Numeral.Decimal
import FloatLang.Proofs.Numeral.Reading
import Mathlib.Algebra.Order.Floor.Semifield
import Mathlib.Data.Nat.Digits.Lemmas
import Mathlib.Data.Int.ModEq
import Mathlib.Data.Rat.Floor
import Mathlib.Tactic.Linarith
import Mathlib.Tactic.FieldSimp

/-!
# The decimal expansion of numerals

A numeral is shown as the whole part of its magnitude and the first digits of the decimal expansion
behind the point: as many of them as the precision affords, or all of them if the expansion ends before.
What is shown is less than the magnitude by less than one in the last place, and it is the magnitude if
the expansion ends within what is affordable. Then, and only then, is the text of a numeral without sign
read as that numeral.

## Main definitions

* `Numeral.place` — the digits of the decimal expansion of a number
* `Numeral.EndsWithin` — the expansion has ended after so many places
* `Numeral.Prefix`, `Numeral.Cuts` — the longest affordable prefix of an expansion
* `Numeral.affordable` — how many places the precision affords

## Main results

* `Numeral.prefix_fractionDigits` — long division yields a prefix of the expansion
* `Numeral.Cuts.value_eq_floor` — the number that a cut expansion writes
* `Numeral.text_cuts_expansion` — what is shown of a numeral, and when it is read back
-/

namespace FloatLang.Numeral

open Rendering (Decimal digit naturalOf)

/-! ### Expansions -/

/-- The digit of a number in a place behind the point. The place of tenths is the first one. -/
def place (v : Rat) (i : Nat) : Nat := ⌊v * 10 ^ (i + 1)⌋₊ % 10

/-- No digit but zeros comes behind so many places. -/
def EndsWithin (v : Rat) (n : Nat) : Prop := ∃ m : Int, v * 10 ^ n = m

/-- The first digits of an expansion: no more than are affordable, fewer only if the expansion has ended,
and none behind its end. -/
structure Prefix (v : Rat) (budget : Nat) (digits : List (Fin 10)) : Prop where
  places : ∀ i d, digits[i]? = some d → d.val = place v i
  affordable : digits.length ≤ budget
  longest : digits.length < budget → EndsWithin v digits.length
  needed : ∀ k < digits.length, ¬ EndsWithin v k

/-- The decimal is the number, cut off behind its first places. -/
structure Cuts (v : Rat) (budget : Nat) (d : Decimal) : Prop where
  whole : d.whole.map digit = Nat.toDigits 10 ⌊v⌋₊
  fraction : Prefix v budget d.fraction

/-- The places behind the point that the precision affords beside the whole digits, at least one. No
digit of a whole part that is zero counts. -/
def affordable (x : Numeral) : Nat :=
  max 1 (x.significantDigits - (Nat.digits 10 ⌊|x.value|⌋₊).length)

variable {v : Rat} {n k budget : Nat} {digits : List (Fin 10)} {d : Decimal}

theorem EndsWithin.mono (h : EndsWithin v k) (hk : k ≤ n) : EndsWithin v n := by
  obtain ⟨m, hm⟩ := h
  refine ⟨m * 10 ^ (n - k), ?_⟩
  rw [← Nat.add_sub_cancel' hk, pow_add, ← mul_assoc, hm, Nat.add_sub_cancel_left]
  push_cast
  rfl

theorem endsWithin_succ : EndsWithin v (n + 1) ↔ EndsWithin (v * 10) n := by
  rw [EndsWithin, EndsWithin, pow_succ', mul_assoc]

/-- What is in front of the point does not matter. -/
theorem endsWithin_natCast_add (m : Nat) : EndsWithin (m + v) n ↔ EndsWithin v n := by
  constructor
  · rintro ⟨k, hk⟩
    refine ⟨k - m * 10 ^ n, ?_⟩
    push_cast
    linarith
  · rintro ⟨k, hk⟩
    refine ⟨m * 10 ^ n + k, ?_⟩
    push_cast
    linarith

/-- A number behind the point has no places only if it is zero. -/
theorem endsWithin_zero_iff (h0 : 0 ≤ v) (h1 : v < 1) : EndsWithin v 0 ↔ v = 0 := by
  constructor
  · rintro ⟨m, hm⟩
    rw [pow_zero, mul_one] at hm
    subst hm
    have hlow : 0 ≤ m := by exact_mod_cast h0
    have hhigh : m < 1 := by exact_mod_cast h1
    have hzero : m = 0 := by omega
    rw [hzero, Int.cast_zero]
  · rintro rfl
    exact ⟨0, by simp⟩

theorem place_succ (v : Rat) (i : Nat) : place v (i + 1) = place (v * 10) i := by
  rw [place, place, pow_succ' 10 (i + 1), mul_assoc]

theorem place_natCast_add (m : Nat) (h0 : 0 ≤ v) (i : Nat) : place (m + v) i = place v i := by
  have hsplit : (m + v) * 10 ^ (i + 1) = v * 10 ^ (i + 1) + ((m * 10 ^ i * 10 : Nat) : Rat) := by
    push_cast
    ring
  rw [place, place, hsplit, Nat.floor_add_natCast (by positivity), Nat.add_mul_mod_self_right]

/-- One more place makes ten times as much and the digit in it. -/
theorem floor_succ (v : Rat) (k : Nat) :
    ⌊v * 10 ^ (k + 1)⌋₊ = 10 * ⌊v * 10 ^ k⌋₊ + place v k := by
  have htenth : v * 10 ^ k = v * 10 ^ (k + 1) / (10 : Nat) := by
    push_cast
    ring
  rw [htenth, Nat.floor_div_natCast, place, Nat.div_add_mod]

/-- A quotient is its whole part and what the rest makes of it. -/
theorem natCast_div_eq_add (m : Nat) {den : Nat} (hden : 0 < den) :
    (m : Rat) / den = ((m / den : Nat) : Rat) + ((m % den : Nat) : Rat) / den := by
  have hne : (den : Rat) ≠ 0 := by exact_mod_cast hden.ne'
  have hdivision : (m : Rat) = ((den * (m / den) + m % den : Nat) : Rat) := by
    rw [Nat.div_add_mod]
  rw [eq_comm, eq_div_iff hne, add_mul, div_mul_cancel₀ _ hne, hdivision]
  push_cast
  ring

/-! ### Prefixes -/

namespace Prefix

theorem nil (h : EndsWithin v 0 ∨ budget = 0) : Prefix v budget [] where
  places := by simp
  affordable := Nat.zero_le _
  longest := fun hlt => h.resolve_right (Nat.ne_of_gt hlt)
  needed := by simp

/-- The digit of a first place, and behind it those of ten times the number. -/
theorem cons {first : Fin 10} (h : Prefix (v * 10) budget digits) (hfirst : first.val = place v 0)
    (hv : ¬ EndsWithin v 0) : Prefix v (budget + 1) (first :: digits) where
  places := by
    intro i d hd
    cases i with
    | zero =>
      obtain rfl := Option.some.inj hd
      exact hfirst
    | succ i =>
      rw [place_succ]
      exact h.places i d hd
  affordable := Nat.succ_le_succ h.affordable
  longest := fun hlt => endsWithin_succ.2 (h.longest (Nat.lt_of_succ_lt_succ hlt))
  needed := by
    intro k hk
    cases k with
    | zero => exact hv
    | succ k =>
      rw [endsWithin_succ]
      exact h.needed k (Nat.lt_of_succ_lt_succ hk)

/-- What is in front of the point does not matter. -/
theorem natCast_add (h : Prefix v budget digits) (m : Nat) (h0 : 0 ≤ v) :
    Prefix (m + v) budget digits where
  places := by
    intro i d hd
    rw [place_natCast_add m h0]
    exact h.places i d hd
  affordable := h.affordable
  longest := fun hlt => (endsWithin_natCast_add m).2 (h.longest hlt)
  needed := by
    intro k hk
    rw [endsWithin_natCast_add]
    exact h.needed k hk

/-- The prefix is all of the expansion if the expansion ends within what is affordable. -/
theorem endsWithin_length_iff (h : Prefix v budget digits) :
    EndsWithin v digits.length ↔ EndsWithin v budget := by
  refine ⟨fun hends => hends.mono h.affordable, fun hends => ?_⟩
  rcases Nat.lt_or_eq_of_le h.affordable with hlt | heq
  · exact h.longest hlt
  · rw [heq]
    exact hends

end Prefix

/-- Long division, one place after the other, until nothing is left or no more is affordable. -/
theorem prefix_fractionDigits {den rest : Nat} (hrest : rest < den) (budget : Nat) :
    ∃ digits : List (Fin 10), digits.map digit = fractionDigits den budget rest ∧
      Prefix ((rest : Rat) / den) budget digits := by
  have hden : (0 : Rat) < den := by exact_mod_cast Nat.zero_lt_of_lt hrest
  induction budget generalizing rest with
  | zero => exact ⟨[], rfl, .nil (.inr rfl)⟩
  | succ budget ih =>
    have hnonneg : (0 : Rat) ≤ (rest : Rat) / den := by positivity
    have hlt : (rest : Rat) / den < 1 := (div_lt_one hden).2 (by exact_mod_cast hrest)
    by_cases hzero : rest = 0
    · refine ⟨[], by simp [fractionDigits, hzero], .nil (.inl ?_)⟩
      rw [endsWithin_zero_iff hnonneg hlt, hzero, Nat.cast_zero, zero_div]
    · have hfirst : rest * 10 / den < 10 := Nat.div_lt_of_lt_mul (by omega)
      obtain ⟨digits, hdigits, hprefix⟩ := ih (Nat.mod_lt (rest * 10) (Nat.zero_lt_of_lt hrest))
      -- ten times the rest is the next digit and the next rest
      have htimes : (rest : Rat) / den * 10 = ((rest * 10 : Nat) : Rat) / den := by
        push_cast
        rw [div_mul_eq_mul_div]
      refine ⟨⟨rest * 10 / den, hfirst⟩ :: digits, ?_, ?_⟩
      · rw [List.map_cons, hdigits, fractionDigits, if_neg hzero]
        rfl
      · refine .cons ?_ ?_ ?_
        · rw [htimes, natCast_div_eq_add _ (Nat.zero_lt_of_lt hrest)]
          exact hprefix.natCast_add _ (by positivity)
        · rw [place, zero_add, pow_one, htimes, Nat.floor_div_eq_div, Nat.mod_eq_of_lt hfirst]
        · rw [endsWithin_zero_iff hnonneg hlt, div_eq_zero_iff]
          simp [hzero, hden.ne']

/-! ### Cut expansions -/

/-- The number that whole digits and the first places make. -/
theorem naturalOf_append_places {whole : List (Fin 10)} (hwhole : naturalOf whole = ⌊v⌋₊)
    (hplaces : ∀ i d, digits[i]? = some d → d.val = place v i) :
    naturalOf (whole ++ digits) = ⌊v * 10 ^ digits.length⌋₊ := by
  induction digits using List.reverseRecOn with
  | nil => simpa using hwhole
  | append_singleton digits last ih =>
    have hlast : last.val = place v digits.length := hplaces _ _ (by simp)
    have hbefore := ih fun i d hd => hplaces i d (by
      rw [List.getElem?_append_left (List.getElem?_eq_some_iff.1 hd).1, hd])
    rw [← List.append_assoc, naturalOf_concat, hbefore, hlast, List.length_append,
      List.length_singleton, floor_succ]

namespace Cuts

/-- What a cut expansion writes is the number, rounded down to its last place. -/
theorem value_eq_floor (h : Cuts v budget d) :
    d.value = (⌊v * 10 ^ d.fraction.length⌋₊ : Rat) / 10 ^ d.fraction.length := by
  have hwhole : naturalOf d.whole = ⌊v⌋₊ := by
    have hdigits := Rendering.ofDigitChars_digits d.whole 0
    rw [h.whole, Nat.ofDigitChars_toDigits (by decide) (by decide)] at hdigits
    exact hdigits.symm
  rw [value_eq_div, naturalOf_append_places hwhole h.fraction.places]

theorem value_le (h : Cuts v budget d) (h0 : 0 ≤ v) : d.value ≤ v := by
  rw [h.value_eq_floor, div_le_iff₀ (by positivity)]
  exact Nat.floor_le (by positivity)

theorem sub_value_lt (h : Cuts v budget d) : v - d.value < 1 / 10 ^ d.fraction.length := by
  have hfloor := Nat.lt_floor_add_one (v * 10 ^ d.fraction.length)
  rw [h.value_eq_floor, sub_lt_iff_lt_add, ← add_div, lt_div_iff₀ (by positivity), add_comm]
  exact hfloor

/-- Nothing is cut off where the expansion has ended. -/
theorem value_eq_iff (h : Cuts v budget d) (h0 : 0 ≤ v) :
    d.value = v ↔ EndsWithin v d.fraction.length := by
  rw [h.value_eq_floor, div_eq_iff (by positivity)]
  constructor
  · intro hfloor
    exact ⟨_, hfloor.symm.trans (Int.cast_natCast _).symm⟩
  · rintro ⟨m, hm⟩
    have hnonneg : (0 : Rat) ≤ m := by
      rw [← hm]
      exact mul_nonneg h0 (by positivity)
    obtain ⟨m, rfl⟩ := Int.eq_ofNat_of_zero_le (by exact_mod_cast hnonneg : 0 ≤ m)
    rw [hm]
    simp

/-- A number that is shown as it is ends in no zero behind the point. -/
theorem last_ne_zero (h : Cuts v budget d) (hvalue : d.value = v) :
    ∀ last ∈ d.fraction.getLast?, last ≠ 0 := by
  rintro last hlast rfl
  have hpos : d.fraction ≠ [] := by
    rintro hnil
    rw [hnil] at hlast
    contradiction
  obtain ⟨k, hk⟩ := Nat.exists_eq_succ_of_ne_zero (List.length_pos_iff.2 hpos).ne'
  -- with a zero in its last place, the number would have ended in the place before
  have hplace : 0 = place v k := by
    refine h.fraction.places k 0 ?_
    rw [Option.mem_def, List.getLast?_eq_getElem?, hk] at hlast
    exact hlast
  refine h.fraction.needed k (by omega) ⟨⌊v * 10 ^ k⌋₊, ?_⟩
  have hfloor : (⌊v * 10 ^ (k + 1)⌋₊ : Rat) = v * 10 ^ (k + 1) := by
    have hquotient := h.value_eq_floor.symm.trans hvalue
    rwa [hk, div_eq_iff (by positivity)] at hquotient
  rw [floor_succ, ← hplace] at hfloor
  push_cast at hfloor ⊢
  rw [pow_succ] at hfloor
  linarith

end Cuts

/-! ### Texts of numerals -/

theorem abs_eq_div (v : Rat) : |v| = (v.num.natAbs : Rat) / v.den := by
  rw [Rat.abs_def, Rat.divInt_eq_div, Int.cast_natCast, Int.cast_natCast]

theorem floor_abs (v : Rat) : ⌊|v|⌋₊ = v.num.natAbs / v.den := by
  rw [abs_eq_div, Nat.floor_div_eq_div]

/-- Both ways of writing a number other than zero take the same digits. -/
theorem length_wholeDigits (hn : n ≠ 0) : (wholeDigits n).length = (Nat.digits 10 n).length := by
  have hpos : 0 < (Nat.digits 10 n).length :=
    List.length_pos_iff.2 (Nat.digits_ne_nil_iff_ne_zero.2 hn)
  apply Nat.le_antisymm
  · exact (Nat.length_toDigits_le_iff (by decide) hpos).2
      ((Nat.digits_length_le_iff (by decide) n).1 (Nat.le_refl _))
  · exact (Nat.digits_length_le_iff (by decide) n).2
      ((Nat.length_toDigits_le_iff (by decide) Nat.length_toDigits_pos).1 (Nat.le_refl _))

theorem affordable_pos (x : Numeral) : 0 < affordable x :=
  Nat.lt_of_lt_of_le Nat.one_pos (Nat.le_max_left ..)

theorem fractionBudget_eq (x : Numeral) : x.fractionBudget ⌊|x.value|⌋₊ = affordable x := by
  unfold fractionBudget affordable
  by_cases hzero : ⌊|x.value|⌋₊ = 0
  · simp [hzero]
  · simp only [if_neg hzero, length_wholeDigits hzero]

theorem fractionDigits_eq_nil_iff {den rest : Nat} (hbudget : 0 < budget) :
    fractionDigits den budget rest = [] ↔ rest = 0 := by
  obtain ⟨budget, rfl⟩ := Nat.exists_eq_succ_of_ne_zero hbudget.ne'
  by_cases hrest : rest = 0 <;> simp [fractionDigits, hrest]

/-- The digits of a magnitude are those of its cut expansion. -/
theorem exists_cuts (x : Numeral) :
    ∃ d : Decimal, x.magnitudeDigits = d.letters ∧ Cuts |x.value| (affordable x) d := by
  have hwhole : ∀ c ∈ Nat.toDigits 10 ⌊|x.value|⌋₊, c.isDigit = true := fun c hc =>
    Nat.isDigit_of_mem_toDigits (by decide) (by decide) hc
  obtain ⟨whole, hdigits⟩ := exists_map_digit hwhole
  have hne : whole ≠ [] := by
    rintro rfl
    exact Nat.toDigits_ne_nil hdigits.symm
  have hrest := Nat.mod_lt x.value.num.natAbs x.value.den_pos
  obtain ⟨fraction, hfraction, hprefix⟩ := prefix_fractionDigits hrest (affordable x)
  refine ⟨⟨whole, fraction, hne⟩, ?_, hdigits, ?_⟩
  · -- without a rest there is no point
    have hnil : fraction = [] ↔ x.value.num.natAbs % x.value.den = 0 := by
      rw [← fractionDigits_eq_nil_iff (affordable_pos x), ← hfraction, List.map_eq_nil_iff]
    unfold magnitudeDigits Decimal.letters
    dsimp only
    rw [← floor_abs, fractionBudget_eq, hdigits, ← hfraction]
    simp only [List.isEmpty_iff, hnil]
    rfl
  · rw [abs_eq_div, natCast_div_eq_add _ x.value.den_pos]
    exact hprefix.natCast_add _ (by positivity)

/-- A numeral is shown as a sign if it is negative, and the expansion of its magnitude, cut behind the
affordable places. What is cut off is less than one in the last place, and it is nothing if and only if
the expansion ends within them; then the last digit behind the point is not zero. A numeral without
sign that has the usual precision is read back from its text if and only if its expansion ends within
the affordable places. -/
theorem text_cuts_expansion (x : Numeral) :
    ∃ d : Decimal, x.text = String.ofList ((if x.value < 0 then ['-'] else []) ++ d.letters) ∧
      Cuts |x.value| (affordable x) d ∧
      0 ≤ |x.value| - d.value ∧ |x.value| - d.value < 1 / 10 ^ d.fraction.length ∧
      (d.value = |x.value| ↔ EndsWithin |x.value| (affordable x)) ∧
      (d.value = |x.value| → ∀ last ∈ d.fraction.getLast?, last ≠ 0) ∧
      (0 ≤ x.value → x.precision = 256 →
        (ofString x.text = .ok x ↔ EndsWithin |x.value| (affordable x))) := by
  obtain ⟨d, hletters, hcuts⟩ := exists_cuts x
  have hnonneg := abs_nonneg x.value
  have hexact : d.value = |x.value| ↔ EndsWithin |x.value| (affordable x) := by
    rw [hcuts.value_eq_iff hnonneg, hcuts.fraction.endsWithin_length_iff]
  have htext : x.text = String.ofList ((if x.value < 0 then ['-'] else []) ++ d.letters) := by
    rw [text, hletters]
    split <;> rfl
  refine ⟨d, htext, hcuts, sub_nonneg.2 (hcuts.value_le hnonneg), hcuts.sub_value_lt, hexact,
    hcuts.last_ne_zero, fun hsign hprecision => ?_⟩
  rw [htext, if_neg (not_lt.2 hsign), List.nil_append, ofString_eq_ok_iff, String.toList_ofList,
    parse?_of_spells (.inl rfl), ← hexact, abs_of_nonneg hsign, Option.some_inj, eq_comm,
    eq_ofValue_iff, and_iff_right hprecision, eq_comm]

/-- The digits of an eighth are read back, those of a third are not. -/
theorem eighth_read_back :
    let eighth : Numeral := { value := 1 / 8 }
    let third : Numeral := { value := 1 / 3 }
    (0 ≤ eighth.value ∧ eighth.precision = 256 ∧ ofString eighth.text = .ok eighth) ∧
      (0 ≤ third.value ∧ third.precision = 256 ∧ ofString third.text ≠ .ok third) := by
  intro eighth third
  have heighth : (0 : Rat) ≤ 1 / 8 := by norm_num
  have hthird : (0 : Rat) ≤ 1 / 3 := by norm_num
  obtain ⟨-, -, -, -, -, -, -, hback⟩ := text_cuts_expansion eighth
  obtain ⟨-, -, -, -, -, -, -, hback'⟩ := text_cuts_expansion third
  refine ⟨⟨heighth, rfl, (hback heighth rfl).2 ?_⟩, hthird, rfl, fun hread => ?_⟩
  · -- three places of the 77 that are affordable
    have hplaces : EndsWithin |1 / 8| 3 := ⟨125, by rw [abs_of_nonneg heighth]; norm_num⟩
    have hfloor : ⌊|(1 / 8 : Rat)|⌋₊ = 0 := by
      rw [abs_of_nonneg heighth, Nat.floor_eq_zero]
      norm_num
    refine hplaces.mono ?_
    rw [affordable, hfloor]
    decide
  · -- no power of ten is a multiple of three
    obtain ⟨m, hm⟩ := (hback' hthird rfl).1 hread
    rw [show third.value = 1 / 3 from rfl, abs_of_nonneg hthird, div_mul_eq_mul_div, one_mul,
      div_eq_iff (by norm_num)] at hm
    have hpower : (10 : Int) ^ affordable third = m * 3 := by exact_mod_cast hm
    have hmod : (10 : Int) ^ affordable third ≡ 1 [ZMOD 3] := by
      simpa using (show (10 : Int) ≡ 1 [ZMOD 3] by decide).pow (affordable third)
    rw [hpower, Int.ModEq] at hmod
    omega

end FloatLang.Numeral
