import Lox.Grammar.Expression

/-!
# The grammar of statements

One parser for each rule, as for expressions, and the knot that ties all rules together: `nested`
counts down the levels that are left, so the whole grammar is defined by recursion on a number.
-/

namespace Lox.Grammar

open Lox.Parser

/-- What follows the word `var`: a name, perhaps with a value. -/
def varDeclaration (deeper : Nested) : Parser Stmt := do
  let name ← require .variableName
  match ← take? [.symbol .equal] with
  | none =>
    let _ ← require .semicolonAfterDeclaration
    return .var name none
  | some _ =>
    let value ← expression deeper
    let _ ← require .semicolonAfterDeclaration
    return .var name (some value)

/-- A declaration, or a statement one level further in. -/
def declaration (deeper : Nested) : Parser Stmt := do
  match ← take? [.keyword .var] with
  | some _ => varDeclaration deeper
  | none => deeper.statement

/-- An expression that is evaluated for its effect. -/
def expressionStatement (deeper : Nested) : Parser Stmt := do
  let expr ← expression deeper
  let _ ← require .semicolonAfterExpression
  return .expression expr

/-- What follows the word `print`. -/
def printStatement (deeper : Nested) : Parser Stmt := do
  let expr ← expression deeper
  let _ ← require .semicolonAfterValue
  return .print expr

/-- What follows the word `if`.  An `else` belongs to the nearest `if` that can take it. -/
def ifStatement (deeper : Nested) : Parser Stmt := do
  let _ ← require .parenAfterIf
  let condition ← expression deeper
  let _ ← require .parenAfterIfCondition
  let thenBranch ← deeper.statement
  match ← take? [.keyword .else] with
  | none => return .if condition thenBranch none
  | some _ =>
    let elseBranch ← deeper.statement
    return .if condition thenBranch (some elseBranch)

/-- What follows the word `while`. -/
def whileStatement (deeper : Nested) : Parser Stmt := do
  let _ ← require .parenAfterWhile
  let condition ← expression deeper
  let _ ← require .parenAfterWhileCondition
  let body ← deeper.statement
  return .while condition body

/-- The first clause of a `for` loop, with the semicolon that ends it. -/
def startClause (deeper : Nested) : Parser (Option Stmt) := do
  match (← next).kind with
  | .symbol .semicolon =>
    skip
    return none
  | .keyword .var =>
    skip
    return some (← varDeclaration deeper)
  | _ => return some (← expressionStatement deeper)

/-- An expression, unless the token that ends the clause comes at once. -/
def clauseBefore (closing : TokenKind) (deeper : Nested) : Parser (Option Expr) := do
  if (← next).kind = closing then return none
  else return some (← expression deeper)

/-- What follows the word `for`. -/
def forStatement (deeper : Nested) : Parser Stmt := do
  let _ ← require .parenAfterFor
  let start ← startClause deeper
  let condition ← clauseBefore (.symbol .semicolon) deeper
  let _ ← require .semicolonAfterLoopCondition
  let step ← clauseBefore (.symbol .rightParen) deeper
  let _ ← require .parenAfterForClauses
  let body ← deeper.statement
  return .forLoop start condition step body

/-- The declarations up to a closing brace or the end.  The list bounds the rounds as in `chain`. -/
def declarations (deeper : Nested) : List Token → Parser (List Stmt)
  | [] => return []
  | _ :: rounds => do
    let token ← next
    if token.kind = .symbol .rightBrace ∨ token.kind = .eof then return []
    else
      let first ← declaration deeper
      return first :: (← declarations deeper rounds)

/-- What follows an opening brace. -/
def block (deeper : Nested) : Parser Stmt := do
  let rounds ← inHand
  let body ← declarations deeper rounds
  let _ ← require .braceAfterBlock
  return .block body

/-- A statement, told by its first token. -/
def statement (deeper : Nested) : Parser Stmt := do
  match (← next).kind with
  | .keyword .for => skip; forStatement deeper
  | .keyword .if => skip; ifStatement deeper
  | .keyword .while => skip; whileStatement deeper
  | .keyword .print => skip; printStatement deeper
  | .symbol .leftBrace => skip; block deeper
  | _ => expressionStatement deeper

/-! ### Levels of nesting -/

/-- The parsers one level further in, when a number of levels is left. -/
def nested : Nat → Nested
  | 0 => ⟨fail .tooMuchNesting, fail .tooMuchNesting, fail .tooMuchNesting⟩
  | levels + 1 =>
    let deeper := nested levels
    ⟨unary deeper, expression deeper, statement deeper⟩

/-- How many levels a program can have. -/
def maxNesting : Nat := 128

end Lox.Grammar
