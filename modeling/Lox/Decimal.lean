import Lox.Binary64

/-!
# Decimal numerals and the doubles they stand for

A decimal is a whole number of digits over a power of ten.  The same reading, `Decimal.nearest`,
serves number literals and the search for the shortest text of a number, so a number's text
reads back as the number by the way it was found.

Main definitions:
* `Decimal`: digits and the number of places after the point;
* `Decimal.ofText` and `Decimal.text`: positional notation, in both directions;
* `Decimal.nearest`: the code of the double nearest to a decimal;
* `Decimal.shortest`: the decimal with the fewest digits that reads back as a given double;
* `number` and `numberText`: the literal's value and the number's text, for all doubles.
-/

namespace Lox

-- Powers are those of `Nat` itself, whatever other powers are in sight.
attribute [local instance (high)] instPowNat

/-- The decimal `digits / 10 ^ places`. -/
structure Decimal where
  digits : Nat
  places : Nat
  deriving DecidableEq, Repr

namespace Decimal

/-! ### Positional notation -/

/-- The value of a decimal digit. -/
def digitValue (c : Char) : Nat := c.toNat - '0'.toNat

/-- The digits in front of the point. -/
def addWhole (digits : Nat) (text : List Char) : Nat :=
  text.foldl (fun total c => total * 10 + digitValue c) digits

/-- Reads digits, perhaps with a point and more digits. -/
def ofText (text : List Char) : Decimal :=
  let whole := text.takeWhile (· != '.')
  let fraction := (text.dropWhile (· != '.')).drop 1
  ⟨addWhole (addWhole 0 whole) fraction, fraction.length⟩

/-- The last `count` decimal digits of a number, zeros in front included. -/
def lastDigits : Nat → Nat → List Char
  | 0, _ => []
  | count + 1, n => lastDigits count (n / 10) ++ [Nat.digitChar (n % 10)]

/-- Positional notation: the whole part, and after a point what remains of the fraction when the
zeros at its end are dropped. -/
def text (d : Decimal) : List Char :=
  let whole := Nat.toDigits 10 (d.digits / 10 ^ d.places)
  let fraction := (lastDigits d.places (d.digits % 10 ^ d.places)).reverse.dropWhile (· == '0')
  if fraction.isEmpty then whole else whole ++ '.' :: fraction.reverse

/-! ### The decimals of a double -/

/-- How many decimal digits a positive number has.  The fraction 1233 / 4096 is so close below the
decimal logarithm of two that, up to a hundred thousand binary digits, the estimate is the answer
less one or less two. -/
def length (n : Nat) : Nat :=
  let estimate := n.log2 * 1233 / 4096
  if n < 10 ^ (estimate + 1) then estimate + 1 else estimate + 2

/-- The code of the double nearest to a decimal. -/
def nearest (d : Decimal) : Nat := Binary64.nearest d.digits (10 ^ d.places)

/-- The decimal `count * 10 ^ zeros` units of the last place that any double has. -/
def ofGrid (count zeros : Nat) : Decimal :=
  let places := Binary64.unitExponent
  if places ≤ zeros then ⟨count * 10 ^ (zeros - places), 0⟩ else ⟨count, places - zeros⟩

/-- The exact value of a finite code.  A unit, `2 ^ (-1074)`, is `5 ^ 1074` in the last place. -/
def exactly (code : Nat) : Nat := Binary64.units code * 5 ^ Binary64.unitExponent

/-- Of the two neighbours of a double on the grid of decimals that end in `zeros` zeros, the one
that reads back as the double.  If both do it is the nearer, and the upper one when the double is
halfway between. -/
def onGrid? (code zeros : Nat) : Option Decimal :=
  let step := 10 ^ zeros
  let below := ofGrid (exactly code / step) zeros
  let above := ofGrid (exactly code / step + 1) zeros
  let readsBelow := below.nearest == code
  let readsAbove := above.nearest == code
  if readsAbove && (!readsBelow || step ≤ 2 * (exactly code % step)) then some above
  else if readsBelow then some below
  else none

/-- The decimal with the fewest digits, at most seventeen, that reads back as the double; of those
the nearest to it. -/
def shortest? (code : Nat) : Option Decimal :=
  let size := length (exactly code)
  (List.range 17).findSome? fun count => onGrid? code (size - (count + 1))

/-- The decimal that a double is shown as.  Seventeen digits are enough for every double, so the
exact value stands in for none. -/
def shortest (code : Nat) : Decimal := (shortest? code).getD (ofGrid (exactly code) 0)

end Decimal

/-! ### Numbers and their texts -/

/-- The number a literal stands for: the double nearest to it. -/
def number (literal : List Char) : Float :=
  Float.ofBits (UInt64.ofNat (Decimal.ofText literal).nearest)

/-- The text of the double with a given code, its sign left out. -/
def magnitudeText (code : Nat) : List Char :=
  if code < Binary64.infinity then (Decimal.shortest code).text else ['i', 'n', 'f']

/-- The text of a number: always positional, with the fewest digits that read back, and with a
minus sign when the sign bit is set.  What is no number has no sign. -/
def numberText (x : Float) : List Char :=
  let code := x.toBits.toNat % Binary64.codes
  if Binary64.infinity < code then ['N', 'a', 'N']
  else if Binary64.codes ≤ x.toBits.toNat then '-' :: magnitudeText code
  else magnitudeText code

end Lox
