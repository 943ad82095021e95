import FloatLang.Numeral

/-!
# Numerals as double-precision numbers

The double nearest to an exact fraction. A tie goes to the even significand, what is too large
becomes infinite, and what is too small becomes a zero that keeps its sign.

## Main definitions

* `Numeral.roundDiv` — the whole number nearest to a quotient, ties to even
* `Numeral.binary64Magnitude` — the bits of the double nearest to a positive fraction
* `Numeral.toBinary64` — the bits of the double nearest to a numeral
-/

namespace FloatLang.Numeral

/-- The whole number nearest to `num / den`, the even one of two that are equally near. -/
def roundDiv (num den : Nat) : Nat :=
  let quotient := num / den
  let twice := 2 * (num % den)
  if twice < den then quotient
  else if den < twice then quotient + 1
  else quotient + quotient % 2

/-- The bits of positive infinity. -/
def binary64Infinity : Nat := 2047 <<< 52

/-- The numerator and denominator of `(num / den) / 2 ^ unit`. -/
def scaled (num den : Nat) (unit : Int) : Nat × Nat :=
  if unit < 0 then (num <<< unit.natAbs, den) else (num, den <<< unit.natAbs)

/-- The exponent of the last significand bit that a double spends on a positive fraction: it
leaves 53 bits, or as many as reach down to the smallest subnormal. -/
def binary64Unit (num den : Nat) : Int :=
  let guess : Int := (num.log2 : Int) - den.log2 - 52
  let (n, d) := scaled num den guess
  max (-1074) (if n < d <<< 52 then guess - 1 else guess)

/-- The bits of the double nearest to the positive fraction `num / den`. A significand that
rounds up to the next power of two carries into the exponent. -/
def binary64Magnitude (num den : Nat) : Nat :=
  if num = 0 then 0 else
    let unit := binary64Unit num den
    let (n, d) := scaled num den unit
    min binary64Infinity ((unit + 1074).toNat <<< 52 + roundDiv n d)

/-- The bits of the double nearest to a numeral. -/
def toBinary64 (x : Numeral) : Nat :=
  (if x.value < 0 then 1 <<< 63 else 0) + binary64Magnitude x.value.num.natAbs x.value.den

end FloatLang.Numeral
