import Lox.Proofs.Parsing.Accepted

/-!
# Outlines of programs

What a parser answers is some tokens of its text in a certain arrangement.  An outline is the
arrangement alone: a syntax tree, or an error, with positions in place of the tokens.  Filled in
with the tokens of a text it becomes the tree, or the error, again.

* `ExprOutline`, `StmtOutline` and `Mark`: the outlines of expressions, statements and errors;
* `ExprOutline.fill`, `StmtOutline.fill` and `Mark.error`: outlines filled in;
* `Outcome`: the outline of what parsing a program gives;
* `Text`: the tokens of a program, of which only the kinds are fixed.
-/

namespace Lox.Outline

open Lox.Grammar

/-! ### Trees and errors -/

/-- An expression with positions in place of tokens.  A literal is a constant if its value is that
of its kind, and otherwise it is what the token at a position carries. -/
inductive ExprOutline where
  | assign (name : Nat) (value : ExprOutline)
  | binary (operator : Nat) (left right : ExprOutline)
  | grouping (inner : ExprOutline)
  | constant (value : Value)
  | literal (position : Nat)
  | logical (operator : Nat) (left right : ExprOutline)
  | unary (operator : Nat) (operand : ExprOutline)
  | variable (name : Nat)

/-- A statement with positions in place of tokens. -/
inductive StmtOutline where
  | block (body : List StmtOutline)
  | expression (expr : ExprOutline)
  | «if» (condition : ExprOutline) (thenBranch : StmtOutline) (elseBranch : Option StmtOutline)
  | print (expr : ExprOutline)
  | var (name : Nat) (value : Option ExprOutline)
  | «while» (condition : ExprOutline) (body : StmtOutline)

/-- An error by the position of the token that it points at. -/
structure Mark where
  position : Nat
  cause : SyntaxError.Cause

/-- The outline of what parsing a program gives: its errors, or else its statements. -/
abbrev Outcome := Except (List Mark) (List StmtOutline)

/-! ### Filling in tokens -/

section

variable (tokenAt : Nat → Token)

/-- The expression with the tokens that stand at the positions.  A literal token that carries no
value stands for `nil`. -/
def ExprOutline.fill : ExprOutline → Expr
  | .assign name value => .assign (tokenAt name) value.fill
  | .binary operator left right => .binary (tokenAt operator) left.fill right.fill
  | .grouping inner => .grouping inner.fill
  | .constant value => .literal value
  | .literal position => .literal ((tokenAt position).literal.getD .nil)
  | .logical operator left right => .logical (tokenAt operator) left.fill right.fill
  | .unary operator operand => .unary (tokenAt operator) operand.fill
  | .variable name => .variable (tokenAt name)

mutual

/-- The statement with the tokens that stand at the positions. -/
def StmtOutline.fill : StmtOutline → Stmt
  | .block body => .block (fillAll body)
  | .expression expr => .expression (expr.fill tokenAt)
  | .if condition thenBranch none => .if (condition.fill tokenAt) thenBranch.fill none
  | .if condition thenBranch (some elseBranch) =>
    .if (condition.fill tokenAt) thenBranch.fill (some elseBranch.fill)
  | .print expr => .print (expr.fill tokenAt)
  | .var name value => .var (tokenAt name) (value.map (ExprOutline.fill tokenAt))
  | .while condition body => .while (condition.fill tokenAt) body.fill

/-- The same for each of several statements. -/
def fillAll : List StmtOutline → List Stmt
  | [] => []
  | statement :: rest => statement.fill :: fillAll rest

end

/-- The error that points at the token at the position. -/
def Mark.error (mark : Mark) : SyntaxError := .atToken (tokenAt mark.position) mark.cause

/-- What parsing gives, with the tokens that stand at the positions. -/
def Outcome.fill : Outcome → Except (List SyntaxError) (List Stmt)
  | .error marks => .error (marks.map (Mark.error tokenAt))
  | .ok statements => .ok (fillAll tokenAt statements)

/-- A loop as a parser builds it. -/
def StmtOutline.forLoop (start : Option StmtOutline) (condition step : Option ExprOutline)
    (body : StmtOutline) : StmtOutline :=
  let body := match step with
    | none => body
    | some step => .block [body, .expression step]
  let loop := .while (condition.getD (.constant (.bool true))) body
  match start with
  | none => loop
  | some start => .block [start, loop]

theorem fill_forLoop (start : Option StmtOutline) (condition step : Option ExprOutline)
    (body : StmtOutline) :
    (StmtOutline.forLoop start condition step body).fill tokenAt =
      Stmt.forLoop (start.map (StmtOutline.fill tokenAt))
        (condition.map (ExprOutline.fill tokenAt)) (step.map (ExprOutline.fill tokenAt))
        (body.fill tokenAt) := by
  cases start <;> cases condition <;> cases step <;> rfl

end

/-! ### The tokens of a program -/

/-- The tokens of a program, of given kinds, and the token that ends it. -/
structure Text (kinds : List TokenKind) where
  tokens : List Token
  theEnd : Token
  map_kind : tokens.map Token.kind = kinds
  kind_theEnd : theEnd.kind = .eof

namespace Text

variable {kinds : List TokenKind} (text : Text kinds)

/-- The token at a position.  Behind all others stands the one that ends the program. -/
def token (position : Nat) : Token := text.tokens.getD position text.theEnd

theorem length_tokens : text.tokens.length = kinds.length := by
  simpa using congrArg List.length text.map_kind

/-- Which kind of token stands at a position is the same for all texts of the kinds. -/
theorem kind_token (position : Nat) : (text.token position).kind = kinds.getD position .eof :=
  calc (text.token position).kind
    _ = (text.tokens.map Token.kind).getD position text.theEnd.kind := by
      rw [token, List.getD_eq_getElem?_getD, List.getD_eq_getElem?_getD, List.getElem?_map,
        Option.getD_map]
    _ = kinds.getD position .eof := by rw [text.map_kind, text.kind_theEnd]

theorem headD_drop (position : Nat) :
    (text.tokens.drop position).headD text.theEnd = text.token position := by
  rw [token, List.getD_eq_getElem?_getD, List.headD_eq_head?_getD, List.head?_drop]

theorem drop_eq_cons {position : Nat} (h : position < kinds.length) :
    text.tokens.drop position = text.token position :: text.tokens.drop (position + 1) := by
  have hlt : position < text.tokens.length := by rwa [text.length_tokens]
  rw [List.drop_eq_getElem_cons hlt, token, List.getD_eq_getElem?_getD,
    List.getElem?_eq_getElem hlt, Option.getD_some]

theorem drop_eq_nil {position : Nat} (h : kinds.length ≤ position) :
    text.tokens.drop position = [] :=
  List.drop_eq_nil_of_le (by rwa [text.length_tokens])

end Text

end Lox.Outline
