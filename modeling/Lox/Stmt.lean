import Lox.Expr

/-!
# Statements

The trees of statements.  There is no tree for a `for` loop: `Stmt.forLoop` builds it from a block
and a `while` loop.
-/

namespace Lox

/-- A statement. -/
inductive Stmt where
  | block (body : List Stmt)
  | expression (expr : Expr)
  | «if» (condition : Expr) (thenBranch : Stmt) (elseBranch : Option Stmt)
  | print (expr : Expr)
  | var (name : Token) (value : Option Expr)
  | «while» (condition : Expr) (body : Stmt)

namespace Stmt

/-- A loop body that is followed by a step, if there is one. -/
def withStep (body : Stmt) : Option Expr → Stmt
  | none => body
  | some step => .block [body, .expression step]

/-- The loop that runs its first clause once, in a scope of its own, and its step after each run of
the body.  A condition that is absent holds always. -/
def forLoop (start : Option Stmt) (condition step : Option Expr) (body : Stmt) : Stmt :=
  let loop := .while (condition.getD (.literal (.bool true))) (body.withStep step)
  match start with
  | none => loop
  | some start => .block [start, loop]

end Stmt

end Lox
