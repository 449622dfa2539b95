import Lox.Grammar.Statement

/-!
# Programs

A program is a sequence of declarations.  A declaration with an error is given up, and reading goes
on where the next statement may begin, so that one pass finds the errors of the whole program.

Main definitions:
* `beforeEnd` and `endToken`: the tokens that count, and the token that ends them;
* `recover`: where reading goes on after an error;
* `program`: the statements and the errors of a whole program;
* `parse`: the statements of a program without errors, or else its errors.
-/

namespace Lox.Grammar

/-! ### The tokens that count -/

/-- Whether a token ends a program. -/
def isEnd (token : Token) : Bool := token.kind == .eof

/-- The tokens before the first end token.  What follows that token is not part of the program. -/
def beforeEnd (tokens : List Token) : List Token := tokens.takeWhile fun token => !isEnd token

/-- The first end token.  Where there is none, the program ends on the line of its last token, and
an empty one on line 1. -/
def endToken (tokens : List Token) : Token :=
  match tokens.find? isEnd with
  | some token => token
  | none => .endOf ((tokens.getLast?.map Token.line).getD 1)

/-! ### Recovery -/

/-- The words that begin a statement. -/
def beginsStatement : TokenKind → Bool
  | .keyword .class => true
  | .keyword .fun => true
  | .keyword .var => true
  | .keyword .for => true
  | .keyword .if => true
  | .keyword .while => true
  | .keyword .print => true
  | .keyword .return => true
  | _ => false

/-- The tokens from the first place on where a statement may begin: behind a semicolon, or before a
word that begins one. -/
def restart (previous : Token) : List Token → List Token
  | [] => []
  | token :: rest =>
    if previous.kind == .symbol .semicolon || beginsStatement token.kind then token :: rest
    else restart token rest

/-- The tokens from where reading goes on when the first token has been blamed.  That token is
always given up. -/
def recover : List Token → List Token
  | [] => []
  | blamed :: rest => restart blamed rest

/-! ### The whole program -/

/-- What reading a program finds: the statements that were understood, and the errors in order. -/
structure Findings where
  statements : List Stmt
  errors : List SyntaxError

/-- Reads declarations to the end.  The list bounds the rounds; it is as long as the tokens in
hand, and every round takes at least one of them. -/
def program (deeper : Nested) (theEnd : Token) : List Token → List Token → Findings
  | [], _ => ⟨[], []⟩
  | _ :: _, [] => ⟨[], []⟩
  | _ :: rounds, token :: rest =>
    let reply := declaration deeper theEnd (token :: rest)
    match reply.result with
    | .ok statement =>
      let later := program deeper theEnd rounds reply.rest
      ⟨statement :: later.statements, reply.reports ++ later.errors⟩
    | .error e =>
      let later := program deeper theEnd rounds (recover reply.rest)
      ⟨later.statements, reply.reports ++ e :: later.errors⟩

/-- What reading a sequence of tokens finds. -/
def findings (tokens : List Token) : Findings :=
  let inHand := beforeEnd tokens
  program (nested maxNesting) (endToken tokens) inHand inHand

/-- The statements of a program, or all its errors if it has any. -/
def parse (tokens : List Token) : Except (List SyntaxError) (List Stmt) :=
  let found := findings tokens
  if found.errors.isEmpty then .ok found.statements else .error found.errors

end Lox.Grammar
