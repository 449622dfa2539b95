import Lox.Token

/-!
# Runtime errors

What can go wrong while a program runs.  An error is a cause and the operator or name at which it
arose; the wording of every message is in `RuntimeError.message`.
-/

namespace Lox

/-- What went wrong. -/
inductive RuntimeError.Cause where
  /-- A minus sign before something that is no number. -/
  | operandNotNumber
  /-- An operator on numbers between operands that are not both numbers. -/
  | operandsNotNumbers
  /-- A plus sign between operands of which one is neither a number nor a string. -/
  | operandsNotAddable
  /-- A name that no frame binds. -/
  | undefinedVariable
  /-- A token that is no unary operator in the place of one. -/
  | noUnaryOperator
  /-- A token that is no binary operator in the place of one. -/
  | noBinaryOperator
  /-- A fault in its own words. -/
  | other (message : String)
  deriving DecidableEq, Repr

/-- An error that ends a statement while it runs, at the operator or name that it arose from. -/
structure RuntimeError where
  token : Token
  cause : RuntimeError.Cause
  deriving DecidableEq

namespace RuntimeError

/-- The wording of the error.  An undefined variable is called by its name. -/
def message (e : RuntimeError) : String :=
  match e.cause with
  | .operandNotNumber => "Operand must be a number."
  | .operandsNotNumbers => "Operands must be numbers."
  | .operandsNotAddable => "Operands must be two numbers or two strings."
  | .undefinedVariable => "Undefined variable '" ++ e.token.lexeme ++ "'."
  | .noUnaryOperator => "Expected a unary operator."
  | .noBinaryOperator => "Expected a binary operator."
  | .other message => message

/-- The error as two lines, the line number on the second. -/
def display (e : RuntimeError) : String :=
  e.message ++ "\n[line " ++ toString e.token.line ++ "]"

end RuntimeError

end Lox
