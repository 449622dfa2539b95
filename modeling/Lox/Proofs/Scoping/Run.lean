import Lox.Proofs.Execution.SideBySide
import Lox.Proofs.Scoping.Resolution

/-!
# Running resolved programs

There is one evaluator of resolved programs, `Setting.evaluate` and `Setting.execute`, for several
ways to get at a variable.  `Setting.direct` goes to the frame that the binding of a name tells.
`Setting.searching` searches the frames and does not heed bindings, as programs do that are not
resolved.  `Setting.watching` searches as well, and notes each time what the tree says of the name
and which variables there were.

* `Setting.interpret`: a resolved program, and `interpret_searching`: with searches it runs as the
  program that it was made from;
* `Access` and `Watched`: an access to a variable, and a machine with the accesses so far;
* `watch`: a program with its accesses, also those of a run that does not come to its end.
-/

namespace Lox

/-! ### Access without a search -/

namespace Environment

/-- The value of a variable in the frame that a binding tells. -/
def readAt (environment : Environment) (binding : Binding) (name : Token) :
    Except RuntimeError Value :=
  match environment.valueAt? binding name.lexeme with
  | some value => .ok value
  | none => .error ⟨name, .undefinedVariable⟩

/-- The environment after an assignment to a variable in the frame that a binding tells. -/
def assignAt (environment : Environment) (binding : Binding) (name : Token) (value : Value) :
    Except RuntimeError Environment :=
  match environment.replaceAt? binding name.lexeme value with
  | some environment => .ok environment
  | none => .error ⟨name, .undefinedVariable⟩

end Environment

/-! ### Resolved programs -/

/-- How a resolved program acts on states of some type. -/
structure Setting (ε σ : Type) where
  read : Token → Binding → Action ε σ Value
  assign : Token → Binding → Value → Action ε σ Value
  answer : Except RuntimeError Value → Action ε σ Value
  change : (Machine → Machine) → σ → σ
  exhausted : Action ε σ Unit

namespace Setting

variable {ε σ : Type}

/-- The value of an expression.  The right operand of a binary operator comes before the left. -/
def evaluate (setting : Setting ε σ) : ResolvedExpr → Action ε σ Value
  | .literal value => return value
  | .variable name binding => setting.read name binding
  | .grouping inner => setting.evaluate inner
  | .assign name binding value => do
    let value ← setting.evaluate value
    setting.assign name binding value
  | .unary operator operand => do
    let operand ← setting.evaluate operand
    setting.answer (applyUnary operator operand)
  | .binary operator left right => do
    let right ← setting.evaluate right
    let left ← setting.evaluate left
    setting.answer (applyBinary operator left right)
  | .logical operator left right => do
    let left ← setting.evaluate left
    if decidesEarly operator left then return left else setting.evaluate right

/-- The truth of a condition. -/
def holds (setting : Setting ε σ) (condition : ResolvedExpr) : Action ε σ Bool := do
  let value ← setting.evaluate condition
  return value.isTruthy

mutual

/-- Runs a statement.  Each loop in it can take the given number of rounds whenever it is run. -/
def execute (setting : Setting ε σ) (rounds : Nat) : ResolvedStmt → Action ε σ Unit
  | .block body =>
    within (setting.change Machine.entering) (setting.change Machine.leaving)
      (setting.executeAll rounds body)
  | .expression expr => do
    let _ ← setting.evaluate expr
  | .if condition thenBranch none => do
    if ← setting.holds condition then setting.execute rounds thenBranch
  | .if condition thenBranch (some elseBranch) => do
    if ← setting.holds condition then setting.execute rounds thenBranch
    else setting.execute rounds elseBranch
  | .print expr => do
    let value ← setting.evaluate expr
    modify (setting.change (Machine.printing value))
  | .var name none => modify (setting.change (Machine.defining name .nil))
  | .var name (some expr) => do
    let value ← setting.evaluate expr
    modify (setting.change (Machine.defining name value))
  | .while condition body =>
    loop setting.exhausted (setting.holds condition) (setting.execute rounds body) rounds

/-- Runs statements in order, up to the first that fails. -/
def executeAll (setting : Setting ε σ) (rounds : Nat) : List ResolvedStmt → Action ε σ Unit
  | [] => return
  | statement :: rest => do
    setting.execute rounds statement
    setting.executeAll rounds rest

end

end Setting

/-! ### Runs on a machine -/

namespace Setting

/-- Runs on a machine, where `look` and `give` get at a variable. -/
def plain (look : Binding → Token → Environment → Except RuntimeError Value)
    (give : Binding → Token → Value → Environment → Except RuntimeError Environment) :
    Setting RuntimeError Machine where
  read name binding := reading (look binding name)
  assign name binding value := assigning (give binding name value) value
  answer := settled
  change step := step
  exhausted := fun _ => none

/-- Searches the frames for every name and does not heed its binding. -/
def searching : Setting RuntimeError Machine :=
  plain (fun _ name environment => environment.read name)
    (fun _ name value environment => environment.assign name value)

/-- Goes to the frame that the binding of a name tells. -/
def direct : Setting RuntimeError Machine :=
  plain (fun binding name environment => environment.readAt binding name)
    (fun binding name value environment => environment.assignAt binding name value)

/-- The errors of a resolved program's statements, in order, and the machine after the last. -/
def interpret (setting : Setting RuntimeError Machine) (rounds : Nat) :
    List ResolvedStmt → Machine → Option (List RuntimeError × Machine)
  | [], machine => some ([], machine.flushing)
  | statement :: rest, machine =>
    match setting.execute rounds statement machine with
    | none => none
    | some (.ok (), after) => setting.interpret rounds rest after
    | some (.error e, after) =>
      (setting.interpret rounds rest after).map fun (errors, last) => (e :: errors, last)

/-! ### Searching is what programs do -/

theorem evaluate_searching (scopes : Scopes) (expr : Expr) :
    searching.evaluate (expr.resolve scopes) = evaluating (Lox.evaluate expr) := by
  induction expr with
  | literal value => rfl
  | «variable» name => rw [evaluating_variable]; rfl
  | grouping inner ih => exact ih
  | assign name value ih =>
    simp only [Expr.resolve, evaluate, Lox.evaluate, evaluating_bind, evaluating_assignTo, ih]
    rfl
  | unary operator operand ih =>
    simp only [Expr.resolve, evaluate, Lox.evaluate, evaluating_bind, evaluating_lift, ih]
    rfl
  | binary operator left right ihl ihr =>
    simp only [Expr.resolve, evaluate, Lox.evaluate, evaluating_bind, evaluating_lift, ihl, ihr]
    rfl
  | logical operator left right ihl ihr =>
    simp only [Expr.resolve, evaluate, Lox.evaluate, evaluating_bind, ihl, ihr]
    congr
    funext left
    split <;> rfl

theorem holds_searching (scopes : Scopes) (condition : Expr) :
    searching.holds (condition.resolve scopes) = Lox.holds condition := by
  rw [holds, evaluate_searching]
  rfl

mutual

theorem execute_searching (rounds : Nat) :
    ∀ (statement : Stmt) (scopes : Scopes),
      searching.execute rounds (statement.resolve scopes) = Lox.execute rounds statement
  | .block body, scopes => by
    rw [Stmt.resolve, execute, executeAll_searching rounds body, Lox.execute, inScope_eq_within]
    rfl
  | .expression expr, scopes => by
    rw [Stmt.resolve, execute, evaluate_searching, Lox.execute]
  | .if condition thenBranch none, scopes => by
    rw [Stmt.resolve, execute, holds_searching, execute_searching rounds thenBranch, Lox.execute]
  | .if condition thenBranch (some elseBranch), scopes => by
    rw [Stmt.resolve, execute, holds_searching, execute_searching rounds thenBranch,
      execute_searching rounds elseBranch, Lox.execute]
  | .print expr, scopes => by
    rw [Stmt.resolve, execute, evaluate_searching, Lox.execute]
    rfl
  | .var name none, scopes => rfl
  | .var name (some value), scopes => by
    rw [Stmt.resolve, execute, evaluate_searching, Lox.execute]
    rfl
  | .while condition body, scopes => by
    rw [Stmt.resolve, execute, holds_searching, execute_searching rounds body, Lox.execute,
      iterate_eq_loop]
    rfl

theorem executeAll_searching (rounds : Nat) :
    ∀ (statements : List Stmt) (declared : List String) (outer : Scopes),
      searching.executeAll rounds (resolveAll declared outer statements) =
        Lox.executeAll rounds statements
  | [], declared, outer => rfl
  | statement :: rest, declared, outer => by
    rw [resolveAll, executeAll, execute_searching rounds statement,
      executeAll_searching rounds rest, Lox.executeAll]

end

theorem interpret_searching (rounds : Nat) (statements : List Stmt) (machine : Machine) :
    searching.interpret rounds (resolveProgram statements) machine =
      Lox.interpret rounds statements machine := by
  induction statements generalizing machine with
  | nil => rfl
  | cons statement rest ih =>
    show searching.interpret rounds (statement.resolve [] :: resolveProgram rest) machine = _
    rw [interpret, Lox.interpret, execute_searching]
    cases Lox.execute rounds statement machine with
    | none => rfl
    | some answer =>
      rcases answer with ⟨e | done, after⟩
      · show Option.map _ (searching.interpret rounds (resolveProgram rest) after) =
          Option.map _ (Lox.interpret rounds rest after)
        rw [ih]
      · exact ih after

end Setting

/-! ### Runs that are watched -/

/-- An access to a variable by its name: what the name means by the text, and the variables at the
time of the access. -/
structure Access where
  name : Token
  binding : Binding
  environment : Environment

/-- A machine, and the accesses that were made on it, the last one first. -/
structure Watched where
  machine : Machine
  accesses : List Access := []

/-- Why a watched step comes to no value. -/
inductive Interruption where
  | failure (error : RuntimeError)
  | exhausted

/-- An access, which is noted whether it fails or not. -/
def noting (name : Token) (binding : Binding) (access : Execution Value) :
    Action Interruption Watched Value := fun watched =>
  (access watched.machine).map fun (answer, machine) =>
    (answer.mapError .failure, ⟨machine, ⟨name, binding, watched.machine.environment⟩ ::
      watched.accesses⟩)

/-- Searches for every name, and notes the accesses.  They are still there when a loop has used up
its rounds. -/
def Setting.watching : Setting Interruption Watched where
  read name binding := noting name binding (reading (·.read name))
  assign name binding value := noting name binding (assigning (·.assign name value) value)
  answer result := settled (result.mapError .failure)
  change step watched := { watched with machine := step watched.machine }
  exhausted := settled (.error .exhausted)

/-- The errors of a watched program's statements, if it comes to its end, and its last machine with
all accesses up to there. -/
def watch (rounds : Nat) : List ResolvedStmt → Watched → Option (List RuntimeError) × Watched
  | [], watched => (some [], { watched with machine := watched.machine.flushing })
  | statement :: rest, watched =>
    match Setting.watching.execute rounds statement watched with
    | none => (none, watched)
    | some (.ok (), after) => watch rounds rest after
    | some (.error .exhausted, after) => (none, after)
    | some (.error (.failure e), after) =>
      let (errors, last) := watch rounds rest after
      (errors.map (e :: ·), last)

end Lox
