import Lox.Expr

/-!
# Derivation trees of expressions

The grammar of expressions, said without a parser: a tree for every way in which its rules can be
applied.  An assignment is a name, an equals sign and another assignment; below it stand the six
precedences of operators, each of which joins operands to the left; below these the signs, and
innermost a literal, a name, or an expression in parentheses.

* `Word` and `OneOf`: tokens that a rule asks for, with the proof that they are what it asks for;
* `Precedence` and `Rule`: the operators from the loosest to the tightest, and the rules;
* `Phrase`: the derivation trees of one rule, all built from tokens;
* `Phrase.tokens`, `Phrase.levels` and `Phrase.expr`: how a tree is written, how many levels of
  nesting it has on its deepest path, and which expression it stands for;
* `Phrase.begins`: a phrase is not empty, and its first token begins an expression;
* `Phrase.kind_mem`: the kinds of all tokens of a phrase.
-/

namespace Lox.Derivation

/-- A token of one kind. -/
abbrev Word (kind : TokenKind) := { token : Token // token.kind = kind }

/-- A token of one of several kinds. -/
abbrev OneOf (kinds : List TokenKind) := { token : Token // token.kind ∈ kinds }

/-- The kinds of tokens that are literals. -/
def literals : List TokenKind :=
  [.keyword .false, .keyword .true, .keyword .nil, .number, .string]

/-- The kinds of tokens that are signs before an operand. -/
def signs : List TokenKind := [.symbol .bang, .symbol .minus]

/-- The value of a literal token.  A number or a string that carries no value stands for `nil`. -/
def literalValue (token : Token) : Value :=
  match token.kind with
  | .keyword .false => .bool false
  | .keyword .true => .bool true
  | .number => token.literal.getD .nil
  | .string => token.literal.getD .nil
  | _ => .nil

/-! ### Operators between operands -/

/-- The precedences of operators, from the loosest to the tightest. -/
inductive Precedence where
  | or | and | equality | comparison | term | factor
  deriving DecidableEq, Repr

/-- The rules of the grammar of expressions. -/
inductive Rule where
  /-- An assignment or an operation. -/
  | expression
  /-- Operands joined by operators of a precedence or of tighter ones. -/
  | operation (precedence : Precedence)
  /-- An operand with its signs. -/
  | unary
  /-- A literal, a name, or an expression in parentheses. -/
  | primary

namespace Precedence

/-- The operators of a precedence. -/
def operators : Precedence → List TokenKind
  | .or => [.keyword .or]
  | .and => [.keyword .and]
  | .equality => [.symbol .bangEqual, .symbol .equalEqual]
  | .comparison => [.symbol .greater, .symbol .greaterEqual, .symbol .less, .symbol .lessEqual]
  | .term => [.symbol .minus, .symbol .plus]
  | .factor => [.symbol .slash, .symbol .star]

/-- The rule for the operands of a precedence. -/
def tighter : Precedence → Rule
  | .or => .operation .and
  | .and => .operation .equality
  | .equality => .operation .comparison
  | .comparison => .operation .term
  | .term => .operation .factor
  | .factor => .unary

/-- The expression of two operands that an operator joins. -/
def build : Precedence → Token → Expr → Expr → Expr
  | .or => .logical
  | .and => .logical
  | _ => .binary

end Precedence

/-! ### The trees -/

/-- The derivation trees of a rule. -/
inductive Phrase : Rule → Type where
  | assignment (name : Word .identifier) (equals : Word (.symbol .equal))
      (value : Phrase .expression) : Phrase .expression
  | operation (operands : Phrase (.operation .or)) : Phrase .expression
  | single {precedence : Precedence} (operand : Phrase precedence.tighter) :
      Phrase (.operation precedence)
  | join {precedence : Precedence} (left : Phrase (.operation precedence))
      (operator : OneOf precedence.operators) (right : Phrase precedence.tighter) :
      Phrase (.operation precedence)
  | signed (sign : OneOf signs) (operand : Phrase .unary) : Phrase .unary
  | unsigned (operand : Phrase .primary) : Phrase .unary
  | literal (token : OneOf literals) : Phrase .primary
  | identifier (token : Word .identifier) : Phrase .primary
  | group (opening : Word (.symbol .leftParen)) (inner : Phrase .expression)
      (closing : Word (.symbol .rightParen)) : Phrase .primary

namespace Phrase

/-- A phrase written out. -/
def tokens : {rule : Rule} → Phrase rule → List Token
  | _, .assignment name equals value => name.val :: equals.val :: value.tokens
  | _, .operation operands => operands.tokens
  | _, .single operand => operand.tokens
  | _, .join left operator right => left.tokens ++ operator.val :: right.tokens
  | _, .signed sign operand => sign.val :: operand.tokens
  | _, .unsigned operand => operand.tokens
  | _, .literal token => [token.val]
  | _, .identifier token => [token.val]
  | _, .group opening inner closing => opening.val :: inner.tokens ++ [closing.val]

/-- The levels of nesting on the deepest path: one for each value that is assigned, operand of a
sign, and expression in parentheses. -/
def levels : {rule : Rule} → Phrase rule → Nat
  | _, .assignment _ _ value => value.levels + 1
  | _, .operation operands => operands.levels
  | _, .single operand => operand.levels
  | _, .join left _ right => max left.levels right.levels
  | _, .signed _ operand => operand.levels + 1
  | _, .unsigned operand => operand.levels
  | _, .literal _ => 0
  | _, .identifier _ => 0
  | _, .group _ inner _ => inner.levels + 1

/-- The expression that a phrase stands for. -/
def expr : {rule : Rule} → Phrase rule → Expr
  | _, .assignment name _ value => .assign name.val value.expr
  | _, .operation operands => operands.expr
  | _, .single operand => operand.expr
  | .operation precedence, .join left operator right =>
    precedence.build operator.val left.expr right.expr
  | _, .signed sign operand => .unary sign.val operand.expr
  | _, .unsigned operand => operand.expr
  | _, .literal token => .literal (literalValue token.val)
  | _, .identifier token => .variable token.val
  | _, .group _ inner _ => .grouping inner.expr

end Phrase

/-! ### How phrases begin -/

/-- The kinds of tokens that begin an expression. -/
def openers : List TokenKind := .identifier :: .symbol .leftParen :: (signs ++ literals)

/-- A phrase is not empty, and its first token begins an expression. -/
theorem Phrase.begins {rule : Rule} (phrase : Phrase rule) :
    ∃ first more, phrase.tokens = first :: more ∧ first.kind ∈ openers := by
  induction phrase with
  | assignment name equals value _ =>
    exact ⟨name.val, _, rfl, by rw [name.property]; decide⟩
  | operation _ ih => exact ih
  | single _ ih => exact ih
  | join left operator right ihl _ =>
    obtain ⟨first, more, htokens, hfirst⟩ := ihl
    exact ⟨first, more ++ operator.val :: right.tokens, by rw [tokens, htokens]; rfl, hfirst⟩
  | signed sign operand _ =>
    exact ⟨sign.val, _, rfl, by
      have := sign.property
      simp only [openers, List.mem_cons, List.mem_append]
      exact .inr (.inr (.inl this))⟩
  | unsigned _ ih => exact ih
  | literal token =>
    exact ⟨token.val, _, rfl, by
      have := token.property
      simp only [openers, List.mem_cons, List.mem_append]
      exact .inr (.inr (.inr this))⟩
  | identifier token => exact ⟨token.val, _, rfl, by rw [token.property]; decide⟩
  | group opening inner closing _ =>
    exact ⟨opening.val, _, rfl, by rw [opening.property]; decide⟩

/-- The kinds of tokens in expressions. -/
def expressionKinds : List TokenKind :=
  [.identifier, .symbol .equal, .symbol .leftParen, .symbol .rightParen] ++ signs ++ literals ++
    Precedence.operators .or ++ Precedence.operators .and ++ Precedence.operators .equality ++
    Precedence.operators .comparison ++ Precedence.operators .term ++ Precedence.operators .factor

theorem Precedence.operators_subset_expressionKinds (precedence : Precedence) :
    precedence.operators ⊆ expressionKinds := by
  cases precedence <;> decide

theorem Phrase.kind_mem {rule : Rule} (phrase : Phrase rule) :
    ∀ token ∈ phrase.tokens, token.kind ∈ expressionKinds := by
  have hidentifier : TokenKind.identifier ∈ expressionKinds := by decide
  have hequal : TokenKind.symbol .equal ∈ expressionKinds := by decide
  have hopening : TokenKind.symbol .leftParen ∈ expressionKinds := by decide
  have hclosing : TokenKind.symbol .rightParen ∈ expressionKinds := by decide
  have hsigns : signs ⊆ expressionKinds := by decide
  have hliterals : literals ⊆ expressionKinds := by decide
  induction phrase with
  | assignment name equals value ih =>
    simpa [tokens, name.property, equals.property, hidentifier, hequal] using ih
  | operation _ ih => exact ih
  | single _ ih => exact ih
  | @join precedence left operator right ihl ihr =>
    have hoperator := precedence.operators_subset_expressionKinds operator.property
    have := And.intro ihl (And.intro hoperator ihr)
    simpa [tokens, or_imp, forall_and] using this
  | signed sign operand ih =>
    have := And.intro (hsigns sign.property) ih
    simpa [tokens, or_imp, forall_and] using this
  | unsigned _ ih => exact ih
  | literal token => simpa [tokens] using hliterals token.property
  | identifier token => simp [tokens, token.property, hidentifier]
  | group opening inner closing ih =>
    simpa [tokens, opening.property, closing.property, hopening, hclosing, or_imp, forall_and]
      using ih

/-- No phrase contains the token that ends a program. -/
theorem Phrase.kind_ne_eof {rule : Rule} (phrase : Phrase rule) :
    ∀ token ∈ phrase.tokens, token.kind ≠ .eof :=
  fun token htoken => ne_of_mem_of_not_mem (phrase.kind_mem token htoken) (by decide)

end Lox.Derivation
