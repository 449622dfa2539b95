import Lox.Stmt

/-!
# Tokens in trees

A syntax tree holds tokens at some of its nodes, and each is there for something: it is an operator
of some sort, or a name that is read, assigned or declared.

* `Role` and `Occurrence`: what a token in a tree is there for, and a token with its role;
* `Expr.occurrences` and `Stmt.occurrences`: all tokens of a tree, from every depth;
* `lexemes`: how the tokens in some roles are written, and with it `targets`, the names that are
  assigned, and `names`, all names;
* `occurrences_forLoop`: the tokens of a loop are those of its parts.
-/

namespace Lox

/-- What a token in a tree is there for. -/
inductive Role where
  /-- It is a name whose value is read. -/
  | variable
  /-- It is a name to which a value is assigned. -/
  | target
  /-- It is a name that is declared. -/
  | declared
  /-- It is an operator before its operand. -/
  | sign
  /-- It is an operator between two operands that are both evaluated. -/
  | operator
  /-- It is an operator between two operands of which the right may be left out. -/
  | connective
  deriving DecidableEq, Repr

namespace Role

/-- The roles of names. -/
def ofNames : List Role := [.variable, .target, .declared]

end Role

/-- A token at some node of a tree. -/
structure Occurrence where
  role : Role
  token : Token

/-- The tokens of an expression. -/
def Expr.occurrences : Expr → List Occurrence
  | .assign name value => ⟨.target, name⟩ :: value.occurrences
  | .binary operator left right =>
    ⟨.operator, operator⟩ :: (left.occurrences ++ right.occurrences)
  | .grouping inner => inner.occurrences
  | .literal _ => []
  | .logical operator left right =>
    ⟨.connective, operator⟩ :: (left.occurrences ++ right.occurrences)
  | .unary operator operand => ⟨.sign, operator⟩ :: operand.occurrences
  | .variable name => [⟨.variable, name⟩]

mutual

/-- The tokens of a statement, those of its expressions included. -/
def Stmt.occurrences : Stmt → List Occurrence
  | .block body => occurrencesAll body
  | .expression expr => expr.occurrences
  | .if condition thenBranch none => condition.occurrences ++ thenBranch.occurrences
  | .if condition thenBranch (some elseBranch) =>
    condition.occurrences ++ (thenBranch.occurrences ++ elseBranch.occurrences)
  | .print expr => expr.occurrences
  | .var name none => [⟨.declared, name⟩]
  | .var name (some value) => ⟨.declared, name⟩ :: value.occurrences
  | .while condition body => condition.occurrences ++ body.occurrences

/-- The tokens of several statements. -/
def occurrencesAll : List Stmt → List Occurrence
  | [] => []
  | statement :: rest => statement.occurrences ++ occurrencesAll rest

end

/-- How the tokens in some roles are written. -/
def lexemes (roles : List Role) (occurrences : List Occurrence) : List String :=
  (occurrences.filter (·.role ∈ roles)).map (·.token.lexeme)

/-- The names that are assigned in a statement. -/
def Stmt.targets (statement : Stmt) : List String := lexemes [.target] statement.occurrences

/-- The names that occur in several statements. -/
def names (statements : List Stmt) : List String :=
  lexemes Role.ofNames (occurrencesAll statements)

/-- The tokens of a loop are those of its parts, the step behind the body. -/
theorem occurrences_forLoop (start : Option Stmt) (condition step : Option Expr) (body : Stmt) :
    (Stmt.forLoop start condition step body).occurrences =
      start.elim [] Stmt.occurrences ++ (condition.elim [] Expr.occurrences ++
        (body.occurrences ++ step.elim [] Expr.occurrences)) := by
  cases start <;> cases condition <;> cases step <;>
    simp [Stmt.forLoop, Stmt.withStep, Stmt.occurrences, occurrencesAll, Expr.occurrences]

theorem mem_lexemes {roles : List Role} {occurrences : List Occurrence} {occurrence : Occurrence}
    (h : occurrence ∈ occurrences) (hrole : occurrence.role ∈ roles) :
    occurrence.token.lexeme ∈ lexemes roles occurrences :=
  List.mem_map_of_mem (List.mem_filter.2 ⟨h, decide_eq_true hrole⟩)

end Lox
