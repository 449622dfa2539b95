import Lox.Decimal

/-!
# Values

What a Lox expression evaluates to, and what a literal token carries.

Main definitions:
* `Value`: nil, the two truth values, double-precision numbers and strings;
* `Value.isTruthy`: what counts as true in a condition;
* `Value.equals`: the language's `==`, which compares numbers as IEEE 754 does;
* `Value.display`: the text that `print` shows.
-/

namespace Lox

/-- A value of the language.  The derived equality is identity, bit for bit on numbers; the
equality that programs see is `Value.equals`. -/
inductive Value where
  | nil
  | bool (truth : Bool)
  | number (x : Float)
  | string (text : String)
  deriving DecidableEq

namespace Value

/-- Only `nil` and `false` count as false. -/
def isTruthy : Value → Bool
  | .nil => false
  | .bool truth => truth
  | .number _ => true
  | .string _ => true

/-- Values of different types are unequal.  Numbers compare as in IEEE 754: what is no number
differs from itself, and the two zeros are equal. -/
def equals : Value → Value → Bool
  | .nil, .nil => true
  | .bool a, .bool b => a == b
  | .number a, .number b => a == b
  | .string a, .string b => a == b
  | _, _ => false

/-- The text of a value.  A string shows itself, without quotes. -/
def display : Value → String
  | .nil => "nil"
  | .bool true => "true"
  | .bool false => "false"
  | .number x => String.ofList (numberText x)
  | .string text => text

end Value

end Lox
