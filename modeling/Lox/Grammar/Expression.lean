import Lox.Parser
import Lox.Stmt

/-!
# The grammar of expressions

One parser for each rule.  The rules that contain themselves are tied together from outside: each
takes the parsers for what stands one level further in, so no rule here is recursive.

Main definitions:
* `Nested`: the parsers for what stands one level further in;
* `Tier` and `tiers`: the left-associative operators, from the loosest to the tightest;
* `primary`, `unary`, `tiered` and `expression`: the rules, from the inside out.
-/

namespace Lox.Grammar

open Lox.Parser

/-- The parsers for what stands one level further in: the operand of a sign, an expression in
parentheses or one that is assigned, and a statement. -/
structure Nested where
  operand : Parser Expr
  expression : Parser Expr
  statement : Parser Stmt

/-- The expression that a token is on its own: a literal or a name.  A literal token that carries no
value stands for `nil`. -/
def atom? (token : Token) : Option Expr :=
  match token.kind with
  | .keyword .false => some (.literal (.bool false))
  | .keyword .true => some (.literal (.bool true))
  | .keyword .nil => some (.literal .nil)
  | .number => some (.literal (token.literal.getD .nil))
  | .string => some (.literal (token.literal.getD .nil))
  | .identifier => some (.variable token)
  | _ => none

/-- An expression in parentheses. -/
def grouping (deeper : Nested) : Parser Expr := do
  match ← take? [.symbol .leftParen] with
  | none => fail .expectedExpression
  | some _ =>
    let inner ← deeper.expression
    let _ ← require .parenAfterExpression
    return .grouping inner

/-- A literal, a name, or an expression in parentheses. -/
def primary (deeper : Nested) : Parser Expr := do
  match atom? (← next) with
  | some expr =>
    skip
    return expr
  | none => grouping deeper

/-- The signs that stand before an operand. -/
def signs : List TokenKind := [.symbol .bang, .symbol .minus]

/-- An operand with any number of signs before it. -/
def unary (deeper : Nested) : Parser Expr := do
  match ← take? signs with
  | none => primary deeper
  | some operator =>
    let operand ← deeper.operand
    return .unary operator operand

/-! ### Operators between operands -/

/-- Operators of one precedence and the trees they build. -/
structure Tier where
  operators : List TokenKind
  build : Token → Expr → Expr → Expr

/-- The precedences, from the loosest to the tightest. -/
def tiers : List Tier :=
  [⟨[.keyword .or], .logical⟩,
   ⟨[.keyword .and], .logical⟩,
   ⟨[.symbol .bangEqual, .symbol .equalEqual], .binary⟩,
   ⟨[.symbol .greater, .symbol .greaterEqual, .symbol .less, .symbol .lessEqual], .binary⟩,
   ⟨[.symbol .minus, .symbol .plus], .binary⟩,
   ⟨[.symbol .slash, .symbol .star], .binary⟩]

/-- Goes on after a left operand as long as operators of the tier follow.  The list bounds the
rounds; it is as long as the tokens in hand, and every round takes at least one of them. -/
def chain (tier : Tier) (operand : Parser Expr) : List Token → Expr → Parser Expr
  | [], left => return left
  | _ :: rounds, left => do
    match ← take? tier.operators with
    | none => return left
    | some operator =>
      let right ← operand
      chain tier operand rounds (tier.build operator left right)

/-- Operands of the innermost kind, joined by the operators of some tiers. -/
def tiered (innermost : Parser Expr) : List Tier → Parser Expr
  | [] => innermost
  | tier :: tighter => do
    let left ← tiered innermost tighter
    let rounds ← inHand
    chain tier (tiered innermost tighter) rounds left

/-- An expression: operands and operators, or an assignment.  Only a name can be assigned to; any
other target is reported at the equals sign, and what was assigned is dropped. -/
def expression (deeper : Nested) : Parser Expr := do
  let target ← tiered (unary deeper) tiers
  match ← take? [.symbol .equal] with
  | none => return target
  | some equals =>
    let value ← deeper.expression
    match target with
    | .variable name => return .assign name value
    | _ =>
      report equals .invalidAssignmentTarget
      return target

end Lox.Grammar
