/-!
# Double-precision magnitudes as natural numbers

A double without its sign bit is a *code* below `2 ^ 63`: eleven bits of exponent above
fifty-two bits of fraction.  Every finite magnitude is a whole number of *units*, one unit being
the smallest positive double, `2 ^ (-1074)`.  So decoding needs natural numbers only, and rounding
a fraction is one division with a half-to-even correction.

Main definitions:
* `infinity`: the code of the infinite magnitude, the first code that is not finite;
* `units`: the magnitude of a finite code, counted in units;
* `divideToEven`: a quotient rounded to nearest, a half going to the even neighbour;
* `nearest`: the code of the double nearest to a fraction, infinity when that is too large.
-/

namespace Lox.Binary64

-- Powers are those of `Nat` itself, whatever other powers are in sight.
attribute [local instance (high)] instPowNat

/-- One unit is `2 ^ (-unitExponent)`, the smallest positive double. -/
def unitExponent : Nat := 1074

/-- How many codes share one exponent. -/
def fractions : Nat := 2 ^ (52 : Nat)

/-- The code of the infinite magnitude.  Smaller codes are finite, larger ones are no numbers. -/
def infinity : Nat := 2047 * fractions

/-- How many codes there are, and so the weight of the sign bit above them. -/
def codes : Nat := 2048 * fractions

/-- The magnitude of a finite code in units.  The codes of exponents 0 and 1 count units one by
one, and from there on every exponent doubles the step. -/
def units (code : Nat) : Nat :=
  if code < fractions then code
  else (fractions + code % fractions) * 2 ^ (code / fractions - 1)

/-- The quotient rounded to the nearest whole number, a half going to the even one. -/
def divideToEven (numerator denominator : Nat) : Nat :=
  let quotient := numerator / denominator
  let twice := 2 * (numerator % denominator)
  if denominator < twice || (twice == denominator && quotient % 2 == 1) then quotient + 1
  else quotient

/-- The code of the double nearest to `numerator / denominator`, a half going to the even code.
The step is the power of two that leaves fifty-three significant bits, and at least one unit.
A significand that rounds up to fifty-four bits carries into the exponent by itself, because the
next code after the last of one exponent is the first of the next. -/
def nearest (numerator denominator : Nat) : Nat :=
  let inUnits := numerator * 2 ^ unitExponent
  let step := (inUnits / denominator).log2 + 1 - 53
  let significand := divideToEven inUnits (denominator * 2 ^ step)
  min (step * fractions + significand) infinity

end Lox.Binary64
