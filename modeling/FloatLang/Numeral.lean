/-!
# Numerals

A numeric literal keeps its value as an exact fraction, together with the number of bits that
whoever consumes it may rely on.

## Main definitions

* `Numeral` — an exact value and its precision
* `Numeral.isSpelling` — recognises `digits(.digits)?f?`
* `Numeral.parse?` — reads a spelling
* `Numeral.significantDigits` — the decimal digits that a precision holds
-/

namespace FloatLang

/-- An exact number and its precision in bits. -/
structure Numeral where
  value : Rat
  precision : Nat := 256
  deriving DecidableEq, Repr, Inhabited

namespace Numeral

/-- At the end of a literal: nothing, or the suffix `f`. -/
def isSuffix (text : List Char) : Bool := text == [] || text == ['f']

/-- Recognises a numeric literal: digits, then perhaps a point and more digits, then perhaps
an `f`. -/
def isSpelling (text : List Char) : Bool :=
  let whole := text.takeWhile Char.isDigit
  let rest := text.dropWhile Char.isDigit
  !whole.isEmpty &&
    match rest with
    | '.' :: tail =>
      !(tail.takeWhile Char.isDigit).isEmpty && isSuffix (tail.dropWhile Char.isDigit)
    | _ => isSuffix rest

/-- A nonempty run of decimal digits. -/
def isDigits (text : List Char) : Bool := !text.isEmpty && text.all Char.isDigit

/-- The spelling without its suffix `f`. -/
def dropSuffix (text : List Char) : List Char :=
  if text.getLast? == some 'f' then text.dropLast else text

/-- The number written by digits, the last `places` of them after the point. -/
def ofDigits (digits : List Char) (places : Nat) : Numeral :=
  { value := mkRat (Nat.ofDigitChars 10 digits 0) (Nat.pow 10 places) }

/-- Reads a numeric literal. -/
def parse? (text : List Char) : Option Numeral :=
  let digits := dropSuffix text
  let whole := digits.takeWhile (· != '.')
  match digits.dropWhile (· != '.') with
  | [] => if isDigits whole then some (ofDigits whole 0) else none
  | _ :: fraction =>
    if isDigits whole && isDigits fraction then
      some (ofDigits (whole ++ fraction) fraction.length)
    else none

/-- Whether the value is zero. -/
def isZero (x : Numeral) : Bool := x.value == 0

/-- The decimal digits that fit the precision, at least one. The factor is the decimal logarithm
of two, in units of `10⁻⁵`. -/
def significantDigits (x : Numeral) : Nat := max 1 (x.precision * 30103 / 100000)

end Numeral

end FloatLang
