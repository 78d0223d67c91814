import Lox.Number
/-!
# Rounding to the nearest number

Every finite value is a whole number of *units*, a unit being the least
positive value, 2^-1074. `nearest num den` is the magnitude of the value
nearest to `num / den` units: the quotient is divided by the spacing of the
values around it and rounded, a tie going to the even neighbour. Since
magnitudes count the values in order, a quotient that rounds up to the next
binade needs no separate treatment, and one beyond the greatest finite value
becomes infinity.
-/


namespace Lox

namespace Number

/-- The number of units in one: 1 is 2^1074 times the least positive value. -/
def unitsPerOne : Nat := Nat.pow 2 1074

/-- `num / den` rounded to a whole number, a tie to the even one. -/
def roundToEven (num den : Nat) : Nat :=
  let q := num / den
  let twice := 2 * (num % den)
  if twice < den then q
  else if den < twice then q + 1
  else q + q % 2

/-- The base-two logarithm of the spacing, in units, of the values around `num / den` units. -/
def spacingLog (num den : Nat) : Nat := (num / den).log2 - 52

/-- The magnitude of the value nearest to `num / den` units. -/
def nearest (num den : Nat) : Nat :=
  let s := spacingLog num den
  min infinity (s * binade + roundToEven num (den * Nat.pow 2 s))

/-- The value nearest to `num / den`, which is the value of a decimal numeral with digits `num`
if `den` is a power of ten. -/
def ofQuotient (num den : Nat) : Number := unsigned (nearest (num * unitsPerOne) den)

end Number

end Lox
