import Lox.Proofs.Derivation.Expression
import Lox.Stmt

/-!
# Derivation trees of statements

The grammar of statements and programs, said without a parser.  An `else` goes with the nearest
`if` that can take it, so a statement that ends with an `if` without `else` cannot stand between
another `if` and its `else`.  The type `Statement` says by its index which statements these are.

* `VarDeclaration`, `StartClause` and `Clause`: the parts of declarations and of `for` loops;
* `Statement`, `Declaration` and `Body`: the derivation trees, a body being also a whole program;
* `tokens`, `levels` and `stmt`: how a tree is written, how many levels of nesting it has on its
  deepest path, and which syntax tree it stands for, a `for` loop standing for a `while` loop;
* `Declaration.begins`: a declaration is not empty, and its first token begins one.
-/

namespace Lox.Derivation

/-! ### The parts of declarations and loops -/

/-- A declaration of a variable, perhaps with a value. -/
inductive VarDeclaration where
  | plain (var : Word (.keyword .var)) (name : Word .identifier)
      (semicolon : Word (.symbol .semicolon))
  | valued (var : Word (.keyword .var)) (name : Word .identifier)
      (equals : Word (.symbol .equal)) (value : Phrase .expression)
      (semicolon : Word (.symbol .semicolon))

namespace VarDeclaration

/-- A declaration written out. -/
def tokens : VarDeclaration → List Token
  | .plain var name semicolon => [var.val, name.val, semicolon.val]
  | .valued var name equals value semicolon =>
    var.val :: name.val :: equals.val :: value.tokens ++ [semicolon.val]

/-- The levels of nesting in the value. -/
def levels : VarDeclaration → Nat
  | .plain _ _ _ => 0
  | .valued _ _ _ value _ => value.levels

/-- The statement that a declaration stands for. -/
def stmt : VarDeclaration → Stmt
  | .plain _ name _ => .var name.val none
  | .valued _ name _ value _ => .var name.val (some value.expr)

end VarDeclaration

/-- The first clause of a `for` loop, with the semicolon that ends it. -/
inductive StartClause where
  | absent (semicolon : Word (.symbol .semicolon))
  | var (declaration : VarDeclaration)
  | expression (expr : Phrase .expression) (semicolon : Word (.symbol .semicolon))

namespace StartClause

/-- A clause written out. -/
def tokens : StartClause → List Token
  | .absent semicolon => [semicolon.val]
  | .var declaration => declaration.tokens
  | .expression expr semicolon => expr.tokens ++ [semicolon.val]

/-- The levels of nesting in a clause, which is itself none. -/
def levels : StartClause → Nat
  | .absent _ => 0
  | .var declaration => declaration.levels
  | .expression expr _ => expr.levels

/-- The statement that a clause stands for, if there is one. -/
def stmt? : StartClause → Option Stmt
  | .absent _ => none
  | .var declaration => some declaration.stmt
  | .expression expr _ => some (.expression expr.expr)

end StartClause

/-- The second or third clause of a `for` loop, which may be absent. -/
abbrev Clause := Option (Phrase .expression)

namespace Clause

/-- A clause written out. -/
def tokens : Clause → List Token
  | none => []
  | some expr => expr.tokens

/-- The levels of nesting in a clause. -/
def levels : Clause → Nat
  | none => 0
  | some expr => expr.levels

/-- The expression that a clause stands for, if there is one. -/
def expr? : Clause → Option Expr
  | none => none
  | some expr => some expr.expr

end Clause

/-! ### The trees -/

mutual

/-- The derivation trees of statements.  The index says whether an `else` directly behind the
statement would go with an `if` in it. -/
inductive Statement : Bool → Type where
  | expression (expr : Phrase .expression) (semicolon : Word (.symbol .semicolon)) :
      Statement false
  | print (word : Word (.keyword .print)) (expr : Phrase .expression)
      (semicolon : Word (.symbol .semicolon)) : Statement false
  | block (opening : Word (.symbol .leftBrace)) (body : Body)
      (closing : Word (.symbol .rightBrace)) : Statement false
  | loop {takesElse : Bool} (word : Word (.keyword .while))
      (opening : Word (.symbol .leftParen)) (condition : Phrase .expression)
      (closing : Word (.symbol .rightParen)) (body : Statement takesElse) : Statement takesElse
  | ifThen {takesElse : Bool} (word : Word (.keyword .if)) (opening : Word (.symbol .leftParen))
      (condition : Phrase .expression) (closing : Word (.symbol .rightParen))
      (thenBranch : Statement takesElse) : Statement true
  | ifElse {takesElse : Bool} (word : Word (.keyword .if)) (opening : Word (.symbol .leftParen))
      (condition : Phrase .expression) (closing : Word (.symbol .rightParen))
      (thenBranch : Statement false) (otherwise : Word (.keyword .else))
      (elseBranch : Statement takesElse) : Statement takesElse
  | forLoop {takesElse : Bool} (word : Word (.keyword .for)) (opening : Word (.symbol .leftParen))
      (start : StartClause) (condition : Clause) (semicolon : Word (.symbol .semicolon))
      (step : Clause) (closing : Word (.symbol .rightParen)) (body : Statement takesElse) :
      Statement takesElse

/-- The derivation trees of declarations. -/
inductive Declaration : Type where
  | var (declaration : VarDeclaration)
  | statement {takesElse : Bool} (statement : Statement takesElse)

/-- The derivation trees of declarations in order: of what a block holds, or of a program. -/
inductive Body : Type where
  | nil
  | cons (first : Declaration) (rest : Body)

end

mutual

/-- A statement written out. -/
def Statement.tokens : {takesElse : Bool} → Statement takesElse → List Token
  | _, .expression expr semicolon => expr.tokens ++ [semicolon.val]
  | _, .print word expr semicolon => word.val :: expr.tokens ++ [semicolon.val]
  | _, .block opening body closing => opening.val :: body.tokens ++ [closing.val]
  | _, .loop word opening condition closing body =>
    word.val :: opening.val :: condition.tokens ++ closing.val :: body.tokens
  | _, .ifThen word opening condition closing thenBranch =>
    word.val :: opening.val :: condition.tokens ++ closing.val :: thenBranch.tokens
  | _, .ifElse word opening condition closing thenBranch otherwise elseBranch =>
    word.val :: opening.val :: condition.tokens ++ closing.val :: thenBranch.tokens ++
      otherwise.val :: elseBranch.tokens
  | _, .forLoop word opening start condition semicolon step closing body =>
    word.val :: opening.val :: start.tokens ++ condition.tokens ++
      semicolon.val :: step.tokens ++ closing.val :: body.tokens

/-- A declaration written out. -/
def Declaration.tokens : Declaration → List Token
  | .var declaration => declaration.tokens
  | .statement statement => statement.tokens

/-- Declarations written out one after another. -/
def Body.tokens : Body → List Token
  | .nil => []
  | .cons first rest => first.tokens ++ rest.tokens

end

mutual

/-- The levels of nesting on the deepest path.  A statement is a level around its parts. -/
def Statement.levels : {takesElse : Bool} → Statement takesElse → Nat
  | _, .expression expr _ => expr.levels + 1
  | _, .print _ expr _ => expr.levels + 1
  | _, .block _ body _ => body.levels + 1
  | _, .loop _ _ condition _ body => max condition.levels body.levels + 1
  | _, .ifThen _ _ condition _ thenBranch => max condition.levels thenBranch.levels + 1
  | _, .ifElse _ _ condition _ thenBranch _ elseBranch =>
    max condition.levels (max thenBranch.levels elseBranch.levels) + 1
  | _, .forLoop _ _ start condition _ step _ body =>
    max start.levels (max condition.levels (max step.levels body.levels)) + 1

/-- The levels of nesting of a declaration.  Only if it is a statement is it itself a level. -/
def Declaration.levels : Declaration → Nat
  | .var declaration => declaration.levels
  | .statement statement => statement.levels

/-- The levels of nesting on the deepest path through any of the declarations. -/
def Body.levels : Body → Nat
  | .nil => 0
  | .cons first rest => max first.levels rest.levels

end

mutual

/-- The syntax tree of a statement.  A `for` loop is a `while` loop whose body is followed by the
step, in a block behind the first clause.  What is absent leaves no trace, but a condition that is
absent is `true`. -/
def Statement.stmt : {takesElse : Bool} → Statement takesElse → Stmt
  | _, .expression expr _ => .expression expr.expr
  | _, .print _ expr _ => .print expr.expr
  | _, .block _ body _ => .block body.stmts
  | _, .loop _ _ condition _ body => .while condition.expr body.stmt
  | _, .ifThen _ _ condition _ thenBranch => .if condition.expr thenBranch.stmt none
  | _, .ifElse _ _ condition _ thenBranch _ elseBranch =>
    .if condition.expr thenBranch.stmt (some elseBranch.stmt)
  | _, .forLoop _ _ start condition _ step _ body =>
    let condition := match condition.expr? with
      | none => .literal (.bool true)
      | some condition => condition
    let body := match step.expr? with
      | none => body.stmt
      | some step => .block [body.stmt, .expression step]
    match start.stmt? with
    | none => .while condition body
    | some start => .block [start, .while condition body]

/-- The syntax tree of a declaration. -/
def Declaration.stmt : Declaration → Stmt
  | .var declaration => declaration.stmt
  | .statement statement => statement.stmt

/-- The syntax trees of declarations in order. -/
def Body.stmts : Body → List Stmt
  | .nil => []
  | .cons first rest => first.stmt :: rest.stmts

end

/-- The tree of a loop, built as a parser builds it. -/
theorem stmt_forLoop {takesElse : Bool} (word : Word (.keyword .for))
    (opening : Word (.symbol .leftParen)) (start : StartClause) (condition : Clause)
    (semicolon : Word (.symbol .semicolon)) (step : Clause) (closing : Word (.symbol .rightParen))
    (body : Statement takesElse) :
    (Statement.forLoop word opening start condition semicolon step closing body).stmt =
      Stmt.forLoop start.stmt? (Clause.expr? condition) (Clause.expr? step) body.stmt := by
  cases start <;> cases condition <;> cases step <;> rfl

namespace Body

/-- Declarations followed by more declarations. -/
def append : Body → Body → Body
  | .nil, later => later
  | .cons first rest, later => .cons first (rest.append later)

end Body

/-! ### No end token -/

theorem VarDeclaration.kind_ne_eof (declaration : VarDeclaration) :
    ∀ token ∈ declaration.tokens, token.kind ≠ .eof := by
  cases declaration with
  | plain var name semicolon =>
    simp [tokens, var.property, name.property, semicolon.property]
  | valued var name equals value semicolon =>
    have := value.kind_ne_eof
    simpa [tokens, var.property, name.property, equals.property, semicolon.property, or_imp,
      forall_and] using this

theorem StartClause.kind_ne_eof (start : StartClause) :
    ∀ token ∈ start.tokens, token.kind ≠ .eof := by
  cases start with
  | absent semicolon => simp [tokens, semicolon.property]
  | var declaration => exact declaration.kind_ne_eof
  | expression expr semicolon =>
    have := expr.kind_ne_eof
    simpa [tokens, semicolon.property, or_imp, forall_and] using this

theorem Clause.kind_ne_eof (clause : Clause) :
    ∀ token ∈ Clause.tokens clause, token.kind ≠ .eof := by
  cases clause with
  | none => simp [tokens]
  | some expr => exact expr.kind_ne_eof

mutual

theorem Statement.kind_ne_eof : ∀ {takesElse : Bool} (statement : Statement takesElse),
    ∀ token ∈ statement.tokens, token.kind ≠ .eof
  | _, .expression expr semicolon => by
    have := expr.kind_ne_eof
    simpa [Statement.tokens, semicolon.property, or_imp, forall_and] using this
  | _, .print word expr semicolon => by
    have := expr.kind_ne_eof
    simpa [Statement.tokens, word.property, semicolon.property, or_imp, forall_and] using this
  | _, .block opening body closing => by
    have := Body.kind_ne_eof body
    simpa [Statement.tokens, opening.property, closing.property, or_imp, forall_and] using this
  | _, .loop word opening condition closing body => by
    have := And.intro condition.kind_ne_eof (Statement.kind_ne_eof body)
    simpa [Statement.tokens, word.property, opening.property, closing.property, or_imp,
      forall_and] using this
  | _, .ifThen word opening condition closing thenBranch => by
    have := And.intro condition.kind_ne_eof (Statement.kind_ne_eof thenBranch)
    simpa [Statement.tokens, word.property, opening.property, closing.property, or_imp,
      forall_and] using this
  | _, .ifElse word opening condition closing thenBranch otherwise elseBranch => by
    have := And.intro condition.kind_ne_eof
      (And.intro (Statement.kind_ne_eof thenBranch) (Statement.kind_ne_eof elseBranch))
    simpa [Statement.tokens, word.property, opening.property, closing.property,
      otherwise.property, or_imp, forall_and] using this
  | _, .forLoop word opening start condition semicolon step closing body => by
    have := And.intro start.kind_ne_eof (And.intro (Clause.kind_ne_eof condition)
      (And.intro (Clause.kind_ne_eof step) (Statement.kind_ne_eof body)))
    simpa [Statement.tokens, word.property, opening.property, semicolon.property,
      closing.property, or_imp, forall_and] using this

theorem Declaration.kind_ne_eof : ∀ (declaration : Declaration),
    ∀ token ∈ declaration.tokens, token.kind ≠ .eof
  | .var declaration => declaration.kind_ne_eof
  | .statement statement => Statement.kind_ne_eof statement

/-- An end token ends a program and is never part of one. -/
theorem Body.kind_ne_eof : ∀ (body : Body), ∀ token ∈ body.tokens, token.kind ≠ .eof
  | .nil => by simp [Body.tokens]
  | .cons first rest => by
    have := And.intro (Declaration.kind_ne_eof first) (Body.kind_ne_eof rest)
    simpa [Body.tokens, or_imp, forall_and] using this

end

/-! ### How declarations begin -/

/-- The kinds of tokens that begin a statement but no expression. -/
def statementWords : List TokenKind :=
  [.keyword .for, .keyword .if, .keyword .while, .keyword .print, .symbol .leftBrace]

/-- A statement is not empty, and its first token begins a statement or an expression. -/
theorem Statement.begins {takesElse : Bool} (statement : Statement takesElse) :
    ∃ first more, statement.tokens = first :: more ∧ first.kind ∈ statementWords ++ openers := by
  cases statement with
  | expression expr semicolon =>
    obtain ⟨first, more, htokens, hfirst⟩ := expr.begins
    refine ⟨first, more ++ [semicolon.val], ?_, List.mem_append_right _ hfirst⟩
    rw [tokens, htokens]; rfl
  | print word _ _ | block word _ _ | loop word _ _ _ _ | ifThen word _ _ _ _
  | ifElse word _ _ _ _ _ _ | forLoop word _ _ _ _ _ _ _ =>
    refine ⟨word.val, _, by rw [tokens]; rfl, ?_⟩
    rw [word.property]
    decide

theorem VarDeclaration.begins (declaration : VarDeclaration) :
    ∃ first more, declaration.tokens = first :: more ∧ first.kind = .keyword .var := by
  cases declaration with
  | plain var _ _ => exact ⟨var.val, _, rfl, var.property⟩
  | valued var _ _ _ _ => exact ⟨var.val, _, rfl, var.property⟩

/-- A declaration is not empty, and its first token is `var` or begins a statement. -/
theorem Declaration.begins (declaration : Declaration) :
    ∃ first more, declaration.tokens = first :: more ∧
      first.kind ∈ .keyword .var :: (statementWords ++ openers) := by
  cases declaration with
  | var declaration =>
    obtain ⟨first, more, htokens, hfirst⟩ := declaration.begins
    exact ⟨first, more, by rw [tokens, htokens], by rw [hfirst]; exact List.mem_cons_self⟩
  | statement statement =>
    obtain ⟨first, more, htokens, hfirst⟩ := statement.begins
    exact ⟨first, more, by rw [tokens, htokens], List.mem_cons_of_mem _ hfirst⟩

end Lox.Derivation
