import Lox.Text
import Lox.Number.Nearest
/-!
# Decimal numerals

A numeral is a run of digits, or two runs with a point between them. There is
no sign and no exponent. `Numeral.ahead` takes the longest numeral at the
front of a text, where a point counts only if a digit follows it, and
`Number.ofNumeral?` reads a text that is a numeral as a whole.
-/


namespace Lox

/-- A decimal numeral. An empty fraction stands for a numeral without a point. -/
structure Numeral where
  /-- The digits before the point. -/
  whole : Text
  /-- The digits after the point. -/
  fraction : Text
deriving DecidableEq

namespace Numeral

/-- How the numeral is written. -/
def text (n : Numeral) : Text :=
  if n.fraction.isEmpty then n.whole else n.whole ++ '.' :: n.fraction

/-- The natural number that all the digits spell, the point left out. -/
def digits (n : Numeral) : Nat := Nat.ofDigitChars 10 (n.whole ++ n.fraction) 0

/-- The number nearest to what the numeral says. -/
def value (n : Numeral) : Number := Number.ofQuotient n.digits (Nat.pow 10 n.fraction.length)

/-- The fraction at the front of a text that follows the whole part: the run of digits after a
point. -/
def fractionAhead : Text → Text
  | '.' :: t => t.takeWhile Char.isDigit
  | _ => []

/-- The longest numeral at the front of `t`. -/
def ahead (t : Text) : Numeral where
  whole := t.takeWhile Char.isDigit
  fraction := fractionAhead (t.dropWhile Char.isDigit)

end Numeral

/-- The value of a text that is a numeral. -/
def Number.ofNumeral? (t : Text) : Option Number :=
  let n := Numeral.ahead t
  if n.whole ≠ [] ∧ n.text = t then some n.value else none

end Lox
