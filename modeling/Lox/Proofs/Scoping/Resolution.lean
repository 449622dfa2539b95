import Lox.Environment
import Lox.Stmt

/-!
# Static resolution of names

Which variable a name means can be told from the text alone.  It is the one of the innermost block
around the name that has declared it, in its own list of statements and before the statement in
which the name stands; if there is none, it is a global variable.

* `Binding` and `Scopes`: where a variable lives, and the names that the blocks around a place have
  declared before it;
* `ResolvedExpr`, `ResolvedStmt` and `resolveProgram`: syntax trees in which every name that is read
  or assigned carries its binding, and how they are made before anything runs;
* `Environment.valueAt?` and `Environment.replaceAt?`: access to the frame that a binding tells,
  without a search;
* `Environment.holder?` and `get?_eq_valueAt?`: the frame that a search picks.
-/

namespace Lox

/-! ### Bindings -/

/-- Where a variable lives: in the frame of a block, so many blocks out, or in the global frame. -/
inductive Binding where
  | block (distance : Nat)
  | global
  deriving DecidableEq, Repr

/-- The same place, seen from one block further in. -/
def Binding.further : Binding → Binding
  | .block distance => .block (distance + 1)
  | .global => .global

/-- The names that the blocks around a place have declared before it, the innermost block first. -/
abbrev Scopes := List (List String)

/-- What a name means at a place. -/
def Scopes.binding : Scopes → String → Binding
  | [], _ => .global
  | declared :: outer, name =>
    if name ∈ declared then .block 0 else (Scopes.binding outer name).further

/-! ### Resolved trees -/

/-- An expression in which every name carries its binding. -/
inductive ResolvedExpr where
  | assign (name : Token) (binding : Binding) (value : ResolvedExpr)
  | binary (operator : Token) (left right : ResolvedExpr)
  | grouping (inner : ResolvedExpr)
  | literal (value : Value)
  | logical (operator : Token) (left right : ResolvedExpr)
  | unary (operator : Token) (operand : ResolvedExpr)
  | variable (name : Token) (binding : Binding)

/-- A statement made of such expressions. -/
inductive ResolvedStmt where
  | block (body : List ResolvedStmt)
  | expression (expr : ResolvedExpr)
  | «if» (condition : ResolvedExpr) (thenBranch : ResolvedStmt) (elseBranch : Option ResolvedStmt)
  | print (expr : ResolvedExpr)
  | var (name : Token) (value : Option ResolvedExpr)
  | «while» (condition : ResolvedExpr) (body : ResolvedStmt)

/-- Gives every name in an expression its binding. -/
def Expr.resolve (scopes : Scopes) : Expr → ResolvedExpr
  | .assign name value => .assign name (scopes.binding name.lexeme) (value.resolve scopes)
  | .binary operator left right => .binary operator (left.resolve scopes) (right.resolve scopes)
  | .grouping inner => .grouping (inner.resolve scopes)
  | .literal value => .literal value
  | .logical operator left right => .logical operator (left.resolve scopes) (right.resolve scopes)
  | .unary operator operand => .unary operator (operand.resolve scopes)
  | .variable name => .variable name (scopes.binding name.lexeme)

/-- The name that a statement declares in the block whose list it stands in. -/
def Stmt.declares : Stmt → List String
  | .var name _ => [name.lexeme]
  | _ => []

mutual

/-- Gives every name in a statement its binding.  The value of a variable that is declared does not
see the variable. -/
def Stmt.resolve (scopes : Scopes) : Stmt → ResolvedStmt
  | .block body => .block (resolveAll [] scopes body)
  | .expression expr => .expression (expr.resolve scopes)
  | .if condition thenBranch none =>
    .if (condition.resolve scopes) (thenBranch.resolve scopes) none
  | .if condition thenBranch (some elseBranch) =>
    .if (condition.resolve scopes) (thenBranch.resolve scopes) (some (elseBranch.resolve scopes))
  | .print expr => .print (expr.resolve scopes)
  | .var name none => .var name none
  | .var name (some value) => .var name (some (value.resolve scopes))
  | .while condition body => .while (condition.resolve scopes) (body.resolve scopes)

/-- The same in the list of a block, given the names that the block has declared so far. -/
def resolveAll (declared : List String) (outer : Scopes) : List Stmt → List ResolvedStmt
  | [] => []
  | statement :: rest =>
    statement.resolve (declared :: outer) :: resolveAll (statement.declares ++ declared) outer rest

end

/-- Gives every name in a program its binding.  Outside of blocks all names are global. -/
def resolveProgram (statements : List Stmt) : List ResolvedStmt :=
  statements.map (Stmt.resolve [])

/-! ### Frames -/

namespace Environment

/-- The value of a name in the frame that a binding tells. -/
def valueAt? : Environment → Binding → String → Option Value
  | .globals frame, .global, name => frame.get? name
  | .globals _, .block _, _ => none
  | .scope frame _, .block 0, name => frame.get? name
  | .scope _ outer, .block (distance + 1), name => outer.valueAt? (.block distance) name
  | .scope _ outer, .global, name => outer.valueAt? .global name

/-- Gives a name another value in the frame that a binding tells. -/
def replaceAt? : Environment → Binding → String → Value → Option Environment
  | .globals frame, .global, name, value => (frame.replace? name value).map .globals
  | .globals _, .block _, _, _ => none
  | .scope frame outer, .block 0, name, value =>
    (frame.replace? name value).map fun frame => .scope frame outer
  | .scope frame outer, .block (distance + 1), name, value =>
    (outer.replaceAt? (.block distance) name value).map (.scope frame)
  | .scope frame outer, .global, name, value =>
    (outer.replaceAt? .global name value).map (.scope frame)

/-- The frame that holds a name and that a search from the innermost frame outwards comes to
first. -/
def holder? : Environment → String → Option Binding
  | .globals frame, name => if (frame.get? name).isSome then some .global else none
  | .scope frame outer, name =>
    if (frame.get? name).isSome then some (.block 0)
    else (outer.holder? name).map Binding.further

theorem valueAt?_further (frame : Frame) (outer : Environment) (binding : Binding) (name : String) :
    (scope frame outer).valueAt? binding.further name = outer.valueAt? binding name := by
  cases binding <;> rfl

theorem replaceAt?_further (frame : Frame) (outer : Environment) (binding : Binding)
    (name : String) (value : Value) :
    (scope frame outer).replaceAt? binding.further name value =
      (outer.replaceAt? binding name value).map (.scope frame) := by
  cases binding <;> rfl

/-- Looking a name up is reading it in the frame that the search picks. -/
theorem get?_eq_valueAt? (environment : Environment) (name : String) :
    environment.get? name =
      (environment.holder? name).bind fun binding => environment.valueAt? binding name := by
  induction environment with
  | globals frame =>
    cases h : frame.get? name <;> simp [get?, holder?, valueAt?, h]
  | scope frame outer ih =>
    cases h : frame.get? name with
    | some value => simp [get?, holder?, valueAt?, h]
    | none =>
      simp only [get?, holder?, h, ih, Option.isSome_none, Bool.false_eq_true, if_false,
        Option.bind_map, Function.comp_def, valueAt?_further]

/-- Giving a name another value is doing so in the frame that the search picks. -/
theorem replace?_eq_replaceAt? (environment : Environment) (name : String) (value : Value) :
    environment.replace? name value =
      (environment.holder? name).bind fun binding => environment.replaceAt? binding name value := by
  induction environment with
  | globals frame =>
    cases h : frame.get? name with
    | none => simp [replace?, holder?, h, Frame.replace?_eq_none.2 h]
    | some old => simp [replace?, holder?, replaceAt?, h]
  | scope frame outer ih =>
    cases h : frame.get? name with
    | none =>
      simp only [replace?, holder?, h, Frame.replace?_eq_none.2 h, ih, Option.isSome_none,
        Bool.false_eq_true, if_false, Option.bind_map, Function.comp_def, replaceAt?_further]
      cases outer.holder? name <;> rfl
    | some old =>
      cases hr : frame.replace? name value with
      | none => rw [Frame.replace?_eq_none.1 hr] at h; cases h
      | some after => simp [replace?, holder?, replaceAt?, h, hr]

end Environment

end Lox
