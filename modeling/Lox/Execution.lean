import Lox.Evaluation
import Lox.Sink
import Lox.Stmt

/-!
# Execution of statements

A statement changes the environment, writes output, and may fail.  It may also run forever, so
execution is given a number of rounds that each loop can take, and has no result when a loop needs
more.  With more rounds a result that was there stays the same.

Main definitions:
* `Machine`: what a running program acts on, its variables and its output;
* `Execution`: a step of a program, without a result if some loop took too many rounds;
* `iterate`: a loop;
* `execute` and `executeAll`: one statement, and statements in order;
* `interpret`: the statements of a program, each of which may fail without harm to the next.
-/

namespace Lox

/-- What a running program acts on. -/
structure Machine where
  environment : Environment := .empty
  out : Sink := {}

/-- A step of a running program: no result at all, or a failure or a value and the machine
afterwards. -/
abbrev Execution (α : Type) : Type := ExceptT RuntimeError (StateT Machine Option) α

/-- An evaluation acts on the environment only. -/
def evaluating {α : Type} (evaluation : Evaluation α) : Execution α := fun machine =>
  let (result, environment) := evaluation machine.environment
  some (result, { machine with environment })

/-- The truth of a condition. -/
def holds (condition : Expr) : Execution Bool := do
  let value ← evaluating (evaluate condition)
  return value.isTruthy

/-- Writes the text of a value and ends the line.  Whether the sink took it makes no difference. -/
def printLine (value : Value) : Execution Unit := modify fun machine =>
  { machine with out := (machine.out.write (value.display ++ "\n").toUTF8).2 }

/-- Binds a name in the innermost frame. -/
def defineVariable (name : Token) (value : Value) : Execution Unit := modify fun machine =>
  { machine with environment := machine.environment.define name.lexeme value }

/-- Runs something in a scope of its own, which is closed whether it fails or not. -/
def inScope (action : Execution Unit) : Execution Unit := fun machine =>
  match action { machine with environment := machine.environment.push } with
  | none => none
  | some (result, after) => some (result, { after with environment := after.environment.pop })

/-- A loop that can take a number of rounds: as long as the condition holds, the body is run. -/
def iterate (condition : Execution Bool) (body : Execution Unit) :
    Nat → Machine → Option (Except RuntimeError Unit × Machine)
  | 0, _ => none
  | rounds + 1, machine =>
    match condition machine with
    | none => none
    | some (.error e, after) => some (.error e, after)
    | some (.ok false, after) => some (.ok (), after)
    | some (.ok true, before) =>
      match body before with
      | none => none
      | some (.error e, after) => some (.error e, after)
      | some (.ok (), after) => iterate condition body rounds after

mutual

/-- Runs a statement.  Each loop in it can take the given number of rounds whenever it is run. -/
def execute (rounds : Nat) : Stmt → Execution Unit
  | .block body => inScope (executeAll rounds body)
  | .expression expr => do
    let _ ← evaluating (evaluate expr)
  | .if condition thenBranch none => do
    if ← holds condition then execute rounds thenBranch
  | .if condition thenBranch (some elseBranch) => do
    if ← holds condition then execute rounds thenBranch else execute rounds elseBranch
  | .print expr => do
    let value ← evaluating (evaluate expr)
    printLine value
  | .var name none => defineVariable name .nil
  | .var name (some expr) => do
    let value ← evaluating (evaluate expr)
    defineVariable name value
  | .while condition body => iterate (holds condition) (execute rounds body) rounds

/-- Runs statements in order, up to the first that fails. -/
def executeAll (rounds : Nat) : List Stmt → Execution Unit
  | [] => return
  | statement :: rest => do
    execute rounds statement
    executeAll rounds rest

end

/-! ### Programs -/

/-- The errors of a program's statements, in order, and the machine after the last.  A statement
that fails does not keep the next from being run.  At the end the output is flushed, and whether
that succeeds makes no difference. -/
def interpret (rounds : Nat) : List Stmt → Machine → Option (List RuntimeError × Machine)
  | [], machine => some ([], { machine with out := machine.out.flush.2 })
  | statement :: rest, machine =>
    match execute rounds statement machine with
    | none => none
    | some (.ok (), after) => interpret rounds rest after
    | some (.error e, after) =>
      (interpret rounds rest after).map fun (errors, last) => (e :: errors, last)

end Lox
