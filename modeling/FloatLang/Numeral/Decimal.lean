import FloatLang.Numeral

/-!
# Decimal text of numerals

A numeral is written with its whole part in full and as many digits of its fraction as its
precision affords. The expansion is cut off, never rounded.

## Main definitions

* `Numeral.fractionDigits` — the first digits of a proper fraction
* `Numeral.text` — the decimal text of a numeral
* `Numeral.exactText` — the value as a fraction in lowest terms
-/

namespace FloatLang.Numeral

/-- At most `budget` digits of the fraction `rest / den`; none after the expansion ends. -/
def fractionDigits (den : Nat) : Nat → Nat → List Char
  | 0, _ => []
  | budget + 1, rest =>
    if rest = 0 then []
    else Nat.digitChar (rest * 10 / den) :: fractionDigits den budget (rest * 10 % den)

/-- The decimal digits of a number. -/
def wholeDigits (n : Nat) : List Char := Nat.toDigits 10 n

/-- The digits the precision leaves to the fraction beside a given whole part. -/
def fractionBudget (x : Numeral) (whole : Nat) : Nat :=
  let spent := if whole = 0 then 0 else (wholeDigits whole).length
  max 1 (x.significantDigits - spent)

/-- The magnitude of a numeral, in decimal digits. -/
def magnitudeDigits (x : Numeral) : List Char :=
  let num := x.value.num.natAbs
  let den := x.value.den
  let whole := num / den
  let rest := num % den
  wholeDigits whole ++
    if rest = 0 then [] else '.' :: fractionDigits den (x.fractionBudget whole) rest

/-- The decimal text of a numeral. -/
def text (x : Numeral) : String :=
  String.ofList (if x.value < 0 then '-' :: x.magnitudeDigits else x.magnitudeDigits)

instance : ToString Numeral := ⟨text⟩

/-- The exact value: a fraction in lowest terms, or its numerator alone if it is whole. -/
def exactText (x : Numeral) : String :=
  let num := toString x.value.num
  if x.value.den = 1 then num else num ++ "/" ++ toString x.value.den

end FloatLang.Numeral
