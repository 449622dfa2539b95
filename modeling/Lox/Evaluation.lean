import Lox.Environment
import Lox.Expr

/-!
# Evaluation of expressions

An expression has a value or an error, and its assignments change the environment also when a later
part of it fails.  Every expression has finitely many steps, so evaluation needs no bound.

Main definitions:
* `applyUnary` and `applyBinary`: what operators make of values;
* `decidesEarly`: when a logical operator leaves out its right operand;
* `evaluate`: the value of an expression.
-/

namespace Lox

/-- Something that reads and changes the environment and may fail. -/
abbrev Evaluation (α : Type) : Type := ExceptT RuntimeError (StateM Environment) α

/-! ### Operators -/

/-- What a sign makes of its operand. -/
def applyUnary (operator : Token) (operand : Value) : Except RuntimeError Value :=
  match operator.kind with
  | .symbol .bang => .ok (.bool (!operand.isTruthy))
  | .symbol .minus =>
    match operand with
    | .number x => .ok (.number (-x))
    | _ => .error ⟨operator, .operandNotNumber⟩
  | _ => .error ⟨operator, .noUnaryOperator⟩

/-- An operation on two numbers. -/
def onNumbers (operator : Token) (left right : Value) (operation : Float → Float → Value) :
    Except RuntimeError Value :=
  match left, right with
  | .number a, .number b => .ok (operation a b)
  | _, _ => .error ⟨operator, .operandsNotNumbers⟩

/-- The sum of two numbers.  If one side is a string, the other a string or a number, their texts
are joined. -/
def applyPlus (operator : Token) (left right : Value) : Except RuntimeError Value :=
  match left, right with
  | .number a, .number b => .ok (.number (a + b))
  | .number _, .string _ => .ok (.string (left.display ++ right.display))
  | .string _, .number _ => .ok (.string (left.display ++ right.display))
  | .string _, .string _ => .ok (.string (left.display ++ right.display))
  | _, _ => .error ⟨operator, .operandsNotAddable⟩

/-- What an operator makes of its two operands.  Comparisons with what is no number do not hold. -/
def applyBinary (operator : Token) (left right : Value) : Except RuntimeError Value :=
  match operator.kind with
  | .symbol .plus => applyPlus operator left right
  | .symbol .minus => onNumbers operator left right fun a b => .number (a - b)
  | .symbol .star => onNumbers operator left right fun a b => .number (a * b)
  | .symbol .slash => onNumbers operator left right fun a b => .number (a / b)
  | .symbol .greater => onNumbers operator left right fun a b => .bool (b < a)
  | .symbol .greaterEqual => onNumbers operator left right fun a b => .bool (b ≤ a)
  | .symbol .less => onNumbers operator left right fun a b => .bool (a < b)
  | .symbol .lessEqual => onNumbers operator left right fun a b => .bool (a ≤ b)
  | .symbol .equalEqual => .ok (.bool (left.equals right))
  | .symbol .bangEqual => .ok (.bool (!left.equals right))
  | _ => .error ⟨operator, .noBinaryOperator⟩

/-- Whether the left operand of a logical operator is already the answer: for `or` if it is true,
for any other operator if it is false. -/
def decidesEarly (operator : Token) (left : Value) : Bool :=
  if operator.kind = .keyword .or then left.isTruthy else !left.isTruthy

/-! ### Expressions -/

/-- Gives the nearest binding of a name a value, which is also the answer. -/
def assignTo (name : Token) (value : Value) : Evaluation Value := do
  set (← (← get).assign name value)
  return value

/-- The value of an expression.  The right operand of a binary operator comes before the left. -/
def evaluate : Expr → Evaluation Value
  | .literal value => return value
  | .variable name => do (← get).read name
  | .grouping inner => evaluate inner
  | .assign name value => do
    let value ← evaluate value
    assignTo name value
  | .unary operator operand => do
    let operand ← evaluate operand
    applyUnary operator operand
  | .binary operator left right => do
    let right ← evaluate right
    let left ← evaluate left
    applyBinary operator left right
  | .logical operator left right => do
    let left ← evaluate left
    if decidesEarly operator left then return left else evaluate right

end Lox
