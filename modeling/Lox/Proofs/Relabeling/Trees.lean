import Lox.Proofs.Derivation.Statement

/-!
# Trees with other tokens

Tokens of a tree are replaced by others, each wherever it stands.

* `Expr.relabel` and `Stmt.relabel`: syntax trees with other names and operators;
* `Relabeling`: a replacement that leaves kinds and the values of literals as they are;
* `Phrase.relabel` up to `Body.relabel`: derivation trees under such a replacement.  They are
  written with the other tokens (`tokens_relabel`), are nested as deep (`levels_relabel`), and
  stand for the trees with other tokens (`expr_relabel`, `stmts_relabel`).
-/

namespace Lox

/-- A token on a line so many lines further down. -/
def Token.later (lines : Nat) (token : Token) : Token := { token with line := token.line + lines }

/-! ### Syntax trees -/

section

variable (names operators : Token → Token)

/-- An expression with other names and operators. -/
def Expr.relabel : Expr → Expr
  | .assign name value => .assign (names name) value.relabel
  | .binary operator left right => .binary (operators operator) left.relabel right.relabel
  | .grouping inner => .grouping inner.relabel
  | .literal value => .literal value
  | .logical operator left right => .logical (operators operator) left.relabel right.relabel
  | .unary operator operand => .unary (operators operator) operand.relabel
  | .variable name => .variable (names name)

mutual

/-- A statement with other names and operators. -/
def Stmt.relabel : Stmt → Stmt
  | .block body => .block (relabelAll body)
  | .expression expr => .expression (expr.relabel names operators)
  | .if condition thenBranch none =>
    .if (condition.relabel names operators) thenBranch.relabel none
  | .if condition thenBranch (some elseBranch) =>
    .if (condition.relabel names operators) thenBranch.relabel (some elseBranch.relabel)
  | .print expr => .print (expr.relabel names operators)
  | .var name none => .var (names name) none
  | .var name (some value) => .var (names name) (some (value.relabel names operators))
  | .while condition body => .while (condition.relabel names operators) body.relabel

/-- The same for each of several statements. -/
def relabelAll : List Stmt → List Stmt
  | [] => []
  | statement :: rest => statement.relabel :: relabelAll rest

end

theorem relabel_forLoop (start : Option Stmt) (condition step : Option Expr) (body : Stmt) :
    (Stmt.forLoop start condition step body).relabel names operators =
      Stmt.forLoop (start.map (Stmt.relabel names operators))
        (condition.map (Expr.relabel names operators)) (step.map (Expr.relabel names operators))
        (body.relabel names operators) := by
  cases start <;> cases condition <;> cases step <;> rfl

end

/-! ### Derivation trees -/

namespace Derivation

/-- A replacement of tokens that leaves kinds and the values of literals as they are. -/
structure Relabeling where
  apply : Token → Token
  kind_apply : ∀ token, (apply token).kind = token.kind
  literalValue_apply : ∀ token, literalValue (apply token) = literalValue token

/-- Tokens so many lines further down. -/
def Relabeling.later (lines : Nat) : Relabeling where
  apply := Token.later lines
  kind_apply _ := rfl
  literalValue_apply _ := rfl

variable (f : Relabeling)

/-- The word in the place of another. -/
def Relabeling.word {kind : TokenKind} (word : Word kind) : Word kind :=
  ⟨f.apply word.val, (f.kind_apply word.val).trans word.property⟩

/-- The same for a word of one of several kinds. -/
def Relabeling.oneOf {kinds : List TokenKind} (token : OneOf kinds) : OneOf kinds :=
  ⟨f.apply token.val, by rw [f.kind_apply]; exact token.property⟩

namespace Phrase

/-- A phrase with other tokens. -/
def relabel : {rule : Rule} → Phrase rule → Phrase rule
  | _, .assignment name equals value => .assignment (f.word name) (f.word equals) value.relabel
  | _, .operation operands => .operation operands.relabel
  | _, .single operand => .single operand.relabel
  | _, .join left operator right => .join left.relabel (f.oneOf operator) right.relabel
  | _, .signed sign operand => .signed (f.oneOf sign) operand.relabel
  | _, .unsigned operand => .unsigned operand.relabel
  | _, .literal token => .literal (f.oneOf token)
  | _, .identifier token => .identifier (f.word token)
  | _, .group opening inner closing => .group (f.word opening) inner.relabel (f.word closing)

variable {rule : Rule} (phrase : Phrase rule)

@[simp] theorem tokens_relabel : (phrase.relabel f).tokens = phrase.tokens.map f.apply := by
  induction phrase <;> simp_all [relabel, tokens, Relabeling.word, Relabeling.oneOf]

@[simp] theorem levels_relabel : (phrase.relabel f).levels = phrase.levels := by
  induction phrase <;> simp_all [relabel, levels]

@[simp] theorem expr_relabel : (phrase.relabel f).expr = phrase.expr.relabel f.apply f.apply := by
  induction phrase with
  | @join precedence left operator right ihl ihr =>
    simp only [relabel, expr, ihl, ihr]
    cases precedence <;> rfl
  | literal token => exact congrArg Expr.literal (f.literalValue_apply token.val)
  | _ => simp_all [relabel, expr, Expr.relabel, Relabeling.word, Relabeling.oneOf]

end Phrase

namespace VarDeclaration

/-- A declaration with other tokens. -/
def relabel : VarDeclaration → VarDeclaration
  | .plain var name semicolon => .plain (f.word var) (f.word name) (f.word semicolon)
  | .valued var name equals value semicolon =>
    .valued (f.word var) (f.word name) (f.word equals) (value.relabel f) (f.word semicolon)

variable (declaration : VarDeclaration)

@[simp] theorem tokens_relabel :
    (declaration.relabel f).tokens = declaration.tokens.map f.apply := by
  cases declaration <;> simp [relabel, tokens, Relabeling.word]

@[simp] theorem levels_relabel : (declaration.relabel f).levels = declaration.levels := by
  cases declaration <;> simp [relabel, levels]

@[simp] theorem stmt_relabel :
    (declaration.relabel f).stmt = declaration.stmt.relabel f.apply f.apply := by
  cases declaration <;> simp [relabel, stmt, Stmt.relabel, Relabeling.word]

end VarDeclaration

namespace StartClause

/-- A clause with other tokens. -/
def relabel : StartClause → StartClause
  | .absent semicolon => .absent (f.word semicolon)
  | .var declaration => .var (declaration.relabel f)
  | .expression expr semicolon => .expression (expr.relabel f) (f.word semicolon)

variable (start : StartClause)

@[simp] theorem tokens_relabel : (start.relabel f).tokens = start.tokens.map f.apply := by
  cases start <;> simp [relabel, tokens, Relabeling.word]

@[simp] theorem levels_relabel : (start.relabel f).levels = start.levels := by
  cases start <;> simp [relabel, levels]

@[simp] theorem stmt?_relabel :
    (start.relabel f).stmt? = start.stmt?.map (Stmt.relabel f.apply f.apply) := by
  cases start <;> simp [relabel, stmt?, Stmt.relabel]

end StartClause

namespace Clause

/-- A clause with other tokens. -/
def relabel : Clause → Clause := Option.map (Phrase.relabel f)

variable (clause : Clause)

@[simp] theorem tokens_relabel : (relabel f clause).tokens = clause.tokens.map f.apply := by
  cases clause <;> simp [relabel, tokens]

@[simp] theorem levels_relabel : (relabel f clause).levels = clause.levels := by
  cases clause <;> simp [relabel, levels]

@[simp] theorem expr?_relabel :
    (relabel f clause).expr? = clause.expr?.map (Expr.relabel f.apply f.apply) := by
  cases clause <;> simp [relabel, expr?]

end Clause

mutual

/-- A statement with other tokens. -/
def Statement.relabel : {takesElse : Bool} → Statement takesElse → Statement takesElse
  | _, .expression expr semicolon => .expression (expr.relabel f) (f.word semicolon)
  | _, .print word expr semicolon => .print (f.word word) (expr.relabel f) (f.word semicolon)
  | _, .block opening body closing => .block (f.word opening) body.relabel (f.word closing)
  | _, .loop word opening condition closing body =>
    .loop (f.word word) (f.word opening) (condition.relabel f) (f.word closing) body.relabel
  | _, .ifThen word opening condition closing thenBranch =>
    .ifThen (f.word word) (f.word opening) (condition.relabel f) (f.word closing)
      thenBranch.relabel
  | _, .ifElse word opening condition closing thenBranch otherwise elseBranch =>
    .ifElse (f.word word) (f.word opening) (condition.relabel f) (f.word closing)
      thenBranch.relabel (f.word otherwise) elseBranch.relabel
  | _, .forLoop word opening start condition semicolon step closing body =>
    .forLoop (f.word word) (f.word opening) (start.relabel f) (Clause.relabel f condition)
      (f.word semicolon) (Clause.relabel f step) (f.word closing) body.relabel

/-- A declaration with other tokens. -/
def Declaration.relabel : Declaration → Declaration
  | .var declaration => .var (declaration.relabel f)
  | .statement statement => .statement statement.relabel

/-- Declarations with other tokens. -/
def Body.relabel : Body → Body
  | .nil => .nil
  | .cons first rest => .cons first.relabel rest.relabel

end

mutual

theorem Statement.tokens_relabel : ∀ {takesElse : Bool} (statement : Statement takesElse),
    (statement.relabel f).tokens = statement.tokens.map f.apply
  | _, .expression expr semicolon => by simp [Statement.relabel, Statement.tokens, Relabeling.word]
  | _, .print word expr semicolon => by simp [Statement.relabel, Statement.tokens, Relabeling.word]
  | _, .block opening body closing => by
    simp [Statement.relabel, Statement.tokens, Relabeling.word, body.tokens_relabel]
  | _, .loop word opening condition closing body => by
    simp [Statement.relabel, Statement.tokens, Relabeling.word, body.tokens_relabel]
  | _, .ifThen word opening condition closing thenBranch => by
    simp [Statement.relabel, Statement.tokens, Relabeling.word, thenBranch.tokens_relabel]
  | _, .ifElse word opening condition closing thenBranch otherwise elseBranch => by
    simp [Statement.relabel, Statement.tokens, Relabeling.word, thenBranch.tokens_relabel,
      elseBranch.tokens_relabel]
  | _, .forLoop word opening start condition semicolon step closing body => by
    simp [Statement.relabel, Statement.tokens, Relabeling.word, body.tokens_relabel]

theorem Declaration.tokens_relabel : ∀ declaration : Declaration,
    (declaration.relabel f).tokens = declaration.tokens.map f.apply
  | .var declaration => declaration.tokens_relabel f
  | .statement statement => statement.tokens_relabel

theorem Body.tokens_relabel : ∀ body : Body, (body.relabel f).tokens = body.tokens.map f.apply
  | .nil => rfl
  | .cons first rest => by
    simp [Body.relabel, Body.tokens, first.tokens_relabel, rest.tokens_relabel]

end

mutual

theorem Statement.levels_relabel : ∀ {takesElse : Bool} (statement : Statement takesElse),
    (statement.relabel f).levels = statement.levels
  | _, .expression expr semicolon => by simp [Statement.relabel, Statement.levels]
  | _, .print word expr semicolon => by simp [Statement.relabel, Statement.levels]
  | _, .block opening body closing => by
    simp [Statement.relabel, Statement.levels, body.levels_relabel]
  | _, .loop word opening condition closing body => by
    simp [Statement.relabel, Statement.levels, body.levels_relabel]
  | _, .ifThen word opening condition closing thenBranch => by
    simp [Statement.relabel, Statement.levels, thenBranch.levels_relabel]
  | _, .ifElse word opening condition closing thenBranch otherwise elseBranch => by
    simp [Statement.relabel, Statement.levels, thenBranch.levels_relabel,
      elseBranch.levels_relabel]
  | _, .forLoop word opening start condition semicolon step closing body => by
    simp [Statement.relabel, Statement.levels, body.levels_relabel]

theorem Declaration.levels_relabel : ∀ declaration : Declaration,
    (declaration.relabel f).levels = declaration.levels
  | .var declaration => declaration.levels_relabel f
  | .statement statement => statement.levels_relabel

theorem Body.levels_relabel : ∀ body : Body, (body.relabel f).levels = body.levels
  | .nil => rfl
  | .cons first rest => by
    simp [Body.relabel, Body.levels, first.levels_relabel, rest.levels_relabel]

end

mutual

theorem Statement.stmt_relabel : ∀ {takesElse : Bool} (statement : Statement takesElse),
    (statement.relabel f).stmt = statement.stmt.relabel f.apply f.apply
  | _, .expression expr semicolon => by simp [Statement.relabel, Statement.stmt, Stmt.relabel]
  | _, .print word expr semicolon => by simp [Statement.relabel, Statement.stmt, Stmt.relabel]
  | _, .block opening body closing => by
    simp [Statement.relabel, Statement.stmt, Stmt.relabel, body.stmts_relabel]
  | _, .loop word opening condition closing body => by
    simp [Statement.relabel, Statement.stmt, Stmt.relabel, body.stmt_relabel]
  | _, .ifThen word opening condition closing thenBranch => by
    simp [Statement.relabel, Statement.stmt, Stmt.relabel, thenBranch.stmt_relabel]
  | _, .ifElse word opening condition closing thenBranch otherwise elseBranch => by
    simp [Statement.relabel, Statement.stmt, Stmt.relabel, thenBranch.stmt_relabel,
      elseBranch.stmt_relabel]
  | _, .forLoop word opening start condition semicolon step closing body => by
    rw [Statement.relabel, stmt_forLoop, stmt_forLoop, relabel_forLoop, body.stmt_relabel,
      StartClause.stmt?_relabel, Clause.expr?_relabel, Clause.expr?_relabel]

theorem Declaration.stmt_relabel : ∀ declaration : Declaration,
    (declaration.relabel f).stmt = declaration.stmt.relabel f.apply f.apply
  | .var declaration => declaration.stmt_relabel f
  | .statement statement => statement.stmt_relabel

theorem Body.stmts_relabel : ∀ body : Body,
    (body.relabel f).stmts = relabelAll f.apply f.apply body.stmts
  | .nil => rfl
  | .cons first rest => by
    simp [Body.relabel, Body.stmts, relabelAll, first.stmt_relabel, rest.stmts_relabel]

end

end Derivation

end Lox
