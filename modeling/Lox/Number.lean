/-!
# Numbers

A number is a binary64 floating-point value. The values without a sign are
counted in ascending order by their *magnitude*: zero has magnitude 0, every
further finite value one more than the value below it, then comes infinity,
and the magnitudes above infinity are the values that are no number. Read in
binary the magnitude is the exponent followed by the fraction, so the sign
and the magnitude together are the 64 bits of the interchange format.

Two notions of sameness are kept apart. Identity (`=`) is that of sign and
magnitude; `equal` is the arithmetic comparison.
-/


namespace Lox

/-- A binary64 floating-point value. -/
structure Number where
  negative : Bool
  magnitude : Nat
  magnitude_lt : magnitude < Nat.pow 2 63 := by decide
deriving DecidableEq

namespace Number

/-- The number of values in one binade: those that share an exponent. -/
def binade : Nat := Nat.pow 2 52

/-- The magnitude of infinity. -/
def infinity : Nat := 2047 * binade

/-- Whether `n` is a finite value. -/
def isFinite (n : Number) : Bool := n.magnitude < infinity

/-- Whether `n` is not a number. -/
def isNaN (n : Number) : Bool := infinity < n.magnitude

/-- The value with sign bit and magnitude as in the low 64 bits of `bits`. -/
def ofBits (bits : Nat) : Number where
  negative := bits / Nat.pow 2 63 % 2 = 1
  magnitude := bits % Nat.pow 2 63
  magnitude_lt := Nat.mod_lt _ (by decide)

/-- The 64 bits of `n`, as a natural number. -/
def bits (n : Number) : Nat := (if n.negative then Nat.pow 2 63 else 0) + n.magnitude

/-- The value without a sign of magnitude `m`, or infinity if `m` is beyond it. -/
def unsigned (m : Nat) : Number where
  negative := false
  magnitude := min infinity m
  magnitude_lt := Nat.lt_of_le_of_lt (Nat.min_le_left _ _) (by decide)

/-- **Arithmetic equality.** What is not a number equals nothing, the two zeros are equal, and
else a value equals only itself. -/
def equal (m n : Number) : Bool :=
  !m.isNaN && !n.isNaN &&
    (m.magnitude == 0 && n.magnitude == 0 || m == n)

/-- A value is determined by its bits. -/
theorem ofBits_bits (n : Number) : ofBits n.bits = n := by
  obtain ⟨s, m, h⟩ := n
  rw [Nat.pow_eq] at h
  cases s <;> simp [bits, ofBits] <;> omega

end Number

end Lox
