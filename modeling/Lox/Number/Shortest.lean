import Lox.Number.Numeral
/-!
# The text of a number

A finite value is written with the fewest significant digits that read back
as the same value; of several such decimals the nearest is taken, and the
greater one of two equally near. The digits are always written out in full:
there is no exponent, and no point after a whole number.

Every finite value is a decimal fraction, `expansion`. The candidates with fewer
digits are its two neighbours on a coarser grid, and `nearest` itself decides
whether a candidate reads back, so what is written reads back by
construction; the last grid is the exact value's own.
-/


namespace Lox

namespace Number

/-- The exact decimal expansion of the value of magnitude `m`: its digits and how many of them
stand behind the point. -/
def expansion (m : Nat) : Nat × Nat :=
  let significand := if m < binade then m else binade + m % binade
  let scale := m / binade - 1
  if scale < 1074 then
    (significand * Nat.pow 5 (1074 - scale), 1074 - scale)
  else
    (significand * Nat.pow 2 (scale - 1074), 0)

/-- Whether the decimal with these digits, `places` of them behind the point, reads back as the
value of magnitude `m`. -/
def readsBack (m digits places : Nat) : Bool :=
  nearest (digits * unitsPerOne) (Nat.pow 10 places) = m

/-- The digits `d`, if the decimal with them reads back. -/
def candidate? (m places d : Nat) : Option Nat := if readsBack m d places then some d else none

/-- Of the two multiples of `step` around `digits`, the one that reads back; if both do, the
nearer, and the greater at equal distance. -/
def onGrid? (m digits places step : Nat) : Option Nat :=
  let lower := digits / step * step
  let upper := lower + step
  if digits - lower < upper - digits then
    candidate? m places lower <|> candidate? m places upper
  else
    candidate? m places upper <|> candidate? m places lower

/-- The digits to write for an exact expansion, when at most `spare` of its digits may be
replaced by zeros: the coarsest grid with a candidate wins. -/
def shortestDigits (m digits places : Nat) : Nat → Nat
  | 0 => digits
  | spare + 1 =>
    (onGrid? m digits places (Nat.pow 10 (spare + 1))).getD (shortestDigits m digits places spare)

/-- `digits` written with `places` of them behind the point; zeros at the end of the fraction are
left out. -/
def layOut (digits places : Nat) : Numeral where
  whole := Nat.toDigits 10 (digits / Nat.pow 10 places)
  fraction :=
    let behind := Nat.toDigits 10 (digits % Nat.pow 10 places)
    let padded := List.replicate (places - behind.length) '0' ++ behind
    if digits % Nat.pow 10 places = 0 then [] else (padded.reverse.dropWhile (· == '0')).reverse

/-- **The shortest numeral** of the value of magnitude `m`. -/
def shortest (m : Nat) : Numeral :=
  let (digits, places) := expansion m
  layOut (shortestDigits m digits places ((Nat.toDigits 10 digits).length - 1)) places

/-- The text of a number. -/
def text (n : Number) : Text :=
  if n.isNaN then
    "NaN".toList
  else
    let unsigned := if n.isFinite then (shortest n.magnitude).text else "inf".toList
    if n.negative then '-' :: unsigned else unsigned

end Number

end Lox
