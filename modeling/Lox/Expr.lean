import Lox.Token

/-!
# Expressions

The trees of expressions.  Operators and names are kept as tokens, so that an error at run time can
say on which line it arose.
-/

namespace Lox

/-- An expression.  A tree that was not parsed may hold any token as operator or name. -/
inductive Expr where
  | assign (name : Token) (value : Expr)
  | binary (operator : Token) (left right : Expr)
  | grouping (inner : Expr)
  | literal (value : Value)
  | logical (operator : Token) (left right : Expr)
  | unary (operator : Token) (operand : Expr)
  | variable (name : Token)
  deriving DecidableEq

namespace Expr

/-- The fully bracketed form of an expression, operators in front. -/
def display : Expr → String
  | .assign name value => "(= " ++ name.display ++ " " ++ value.display ++ ")"
  | .binary operator left right =>
    "(" ++ operator.display ++ " " ++ left.display ++ " " ++ right.display ++ ")"
  | .grouping inner => "(group " ++ inner.display ++ ")"
  | .literal value => value.display
  | .logical operator left right =>
    "(" ++ operator.display ++ " " ++ left.display ++ " " ++ right.display ++ ")"
  | .unary operator operand => "(" ++ operator.display ++ " " ++ operand.display ++ ")"
  | .variable name => name.display

end Expr

end Lox
