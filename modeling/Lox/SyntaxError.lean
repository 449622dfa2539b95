import Lox.Token

/-!
# Syntax errors

What can be wrong with the text of a program.  An error is a cause and a place; the wording of
every message is in `SyntaxError.Cause.message` and nowhere else.

Main definitions:
* `Expectation`: the points of the grammar where exactly one kind of token can follow;
* `SyntaxError.Cause` and `SyntaxError.Place`: what is wrong, and what the message points at;
* `SyntaxError` and `SyntaxError.display`: the error and its one-line form.
-/

namespace Lox

/-- The points of the grammar where exactly one kind of token can follow. -/
inductive Expectation where
  | variableName
  | semicolonAfterDeclaration
  | semicolonAfterValue
  | semicolonAfterExpression
  | semicolonAfterLoopCondition
  | parenAfterFor
  | parenAfterForClauses
  | parenAfterIf
  | parenAfterIfCondition
  | parenAfterWhile
  | parenAfterWhileCondition
  | parenAfterExpression
  | braceAfterBlock
  deriving DecidableEq, Repr

namespace Expectation

/-- The kind of token that has to follow. -/
def kind : Expectation → TokenKind
  | .variableName => .identifier
  | .semicolonAfterDeclaration => .symbol .semicolon
  | .semicolonAfterValue => .symbol .semicolon
  | .semicolonAfterExpression => .symbol .semicolon
  | .semicolonAfterLoopCondition => .symbol .semicolon
  | .parenAfterFor => .symbol .leftParen
  | .parenAfterForClauses => .symbol .rightParen
  | .parenAfterIf => .symbol .leftParen
  | .parenAfterIfCondition => .symbol .rightParen
  | .parenAfterWhile => .symbol .leftParen
  | .parenAfterWhileCondition => .symbol .rightParen
  | .parenAfterExpression => .symbol .rightParen
  | .braceAfterBlock => .symbol .rightBrace

/-- What a message says is missing. -/
def phrase : Expectation → String
  | .variableName => "variable name"
  | .semicolonAfterDeclaration => "';' after variable declaration"
  | .semicolonAfterValue => "';' after value"
  | .semicolonAfterExpression => "';' after expression"
  | .semicolonAfterLoopCondition => "';' after loop condition"
  | .parenAfterFor => "'(' after 'for'"
  | .parenAfterForClauses => "')' after for clauses"
  | .parenAfterIf => "'(' after 'if'"
  | .parenAfterIfCondition => "')' after if condition"
  | .parenAfterWhile => "'(' after 'while'"
  | .parenAfterWhileCondition => "')' after while condition"
  | .parenAfterExpression => "')' after expression"
  | .braceAfterBlock => "'\x7d' after block"

end Expectation

namespace SyntaxError

/-- What is wrong. -/
inductive Cause where
  /-- A character that begins no word. -/
  | unexpectedCharacter
  /-- A string without its closing quote. -/
  | unterminatedString
  /-- Another token stands where only one kind can follow. -/
  | expected (expectation : Expectation)
  /-- No expression begins here. -/
  | expectedExpression
  /-- What stands left of an equals sign is no variable. -/
  | invalidAssignmentTarget
  /-- The program is nested more deeply than is supported. -/
  | tooMuchNesting
  /-- A fault in its own words. -/
  | other (message : String)
  deriving DecidableEq, Repr

/-- The wording of a cause. -/
def Cause.message : Cause → String
  | .unexpectedCharacter => "Unexpected character."
  | .unterminatedString => "Unterminated string."
  | .expected expectation => "Expect " ++ expectation.phrase ++ "."
  | .expectedExpression => "Expect expression."
  | .invalidAssignmentTarget => "Invalid assignment target."
  | .tooMuchNesting => "Too much nesting."
  | .other message => message

/-- What a message points at, the line apart. -/
inductive Place where
  | nowhere
  | theEnd
  | lexeme (text : String)
  deriving DecidableEq, Repr

namespace Place

/-- A token is pointed at by its lexeme, and the token that ends the program as the end. -/
def ofToken (token : Token) : Place :=
  if token.kind = .eof then .theEnd else .lexeme token.lexeme

/-- The words for a place. -/
def phrase : Place → String
  | .nowhere => ""
  | .theEnd => "at the end"
  | .lexeme text => "at '" ++ text ++ "'"

end Place

end SyntaxError

/-- An error in the text of a program.  A program that has one is never run. -/
structure SyntaxError where
  line : Nat
  place : SyntaxError.Place
  cause : SyntaxError.Cause
  deriving DecidableEq, Repr

namespace SyntaxError

/-- An error that is known by its line only. -/
def onLine (line : Nat) (cause : Cause) : SyntaxError := ⟨line, .nowhere, cause⟩

/-- An error that points at a token. -/
def atToken (token : Token) (cause : Cause) : SyntaxError := ⟨token.line, .ofToken token, cause⟩

/-- The wording of the error. -/
def message (e : SyntaxError) : String := e.cause.message

/-- The error as one line.  A space stands before the colon also when there is no place. -/
def display (e : SyntaxError) : String :=
  "[line " ++ toString e.line ++ "] Error " ++ e.place.phrase ++ ": " ++ e.message

end SyntaxError

end Lox
