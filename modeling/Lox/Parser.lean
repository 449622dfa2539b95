import Lox.SyntaxError

/-!
# Parsers

A parser reads from the tokens in hand, those that remain before the end token.  It answers with a
result or the error that stopped it, with the tokens it left, and with reports: errors that did
not stop it.

Main definitions:
* `Reply` and `Parser`: what a parser answers, and the parsers themselves, which form a monad;
* `Parser.next`, `Parser.skip`, `Parser.take?`, `Parser.require`: looking at tokens and taking them;
* `Parser.fail` and `Parser.report`: the two ways to find fault.
-/

namespace Lox

/-- What a parser answers.  When it failed, the token it blames is the first of the rest, or the
end token if the rest is empty. -/
structure Reply (α : Type) where
  result : Except SyntaxError α
  rest : List Token
  reports : List SyntaxError

/-- A parser: given the end token and the tokens in hand, it replies. -/
def Parser (α : Type) : Type := Token → List Token → Reply α

namespace Parser

variable {α β : Type}

/-- Takes nothing and answers with a value. -/
def succeed (a : α) : Parser α := fun _ tokens => ⟨.ok a, tokens, []⟩

/-- Goes on where a parser stopped, unless it failed. -/
def andThen (first : Parser α) (second : α → Parser β) : Parser β := fun theEnd tokens =>
  let reply := first theEnd tokens
  match reply.result with
  | .error e => ⟨.error e, reply.rest, reply.reports⟩
  | .ok a =>
    let later := second a theEnd reply.rest
    ⟨later.result, later.rest, reply.reports ++ later.reports⟩

instance : Monad Parser where
  pure := succeed
  bind := andThen

/-- The next token, which is not taken. -/
def next : Parser Token := fun theEnd tokens => ⟨.ok (tokens.headD theEnd), tokens, []⟩

/-- All tokens in hand, none of which is taken. -/
def inHand : Parser (List Token) := fun _ tokens => ⟨.ok tokens, tokens, []⟩

/-- Takes the next token, unless it is the end token, which stays. -/
def skip : Parser Unit := fun _ tokens => ⟨.ok (), tokens.tail, []⟩

/-- Takes the next token if it is of one of the given kinds. -/
def take? (kinds : List TokenKind) : Parser (Option Token) := fun _ tokens =>
  match tokens with
  | token :: rest =>
    if token.kind ∈ kinds then ⟨.ok (some token), rest, []⟩ else ⟨.ok none, tokens, []⟩
  | [] => ⟨.ok none, [], []⟩

/-- Fails, blaming the next token. -/
def fail (cause : SyntaxError.Cause) : Parser α := fun theEnd tokens =>
  ⟨.error (.atToken (tokens.headD theEnd) cause), tokens, []⟩

/-- Blames a token and goes on. -/
def report (token : Token) (cause : SyntaxError.Cause) : Parser Unit := fun _ tokens =>
  ⟨.ok (), tokens, [.atToken token cause]⟩

/-- Takes the token that has to follow here. -/
def require (expectation : Expectation) : Parser Token := fun theEnd tokens =>
  match tokens with
  | token :: rest =>
    if token.kind = expectation.kind then ⟨.ok token, rest, []⟩
    else fail (.expected expectation) theEnd tokens
  | [] => fail (.expected expectation) theEnd []

end Parser

end Lox
