import Lox.Execution
import Lox.Grammar.Program
import Lox.Scan

/-!
# Running sources

A source is scanned, parsed and, when it has no error, run.  Sources of one session are run one
after another on one machine, so that later ones see the variables of the earlier.

Main definitions:
* `Report`: the errors found in a source or while it ran;
* `run`: one source;
* `session`: several, each with the output that is its own.
-/

namespace Lox

/-- The errors of one source.  It has errors of at most one of the two sorts. -/
structure Report where
  syntaxErrors : List SyntaxError := []
  runtimeErrors : List RuntimeError := []

/-- The statements of a source, or its errors, those of scanning before those of parsing. -/
def statementsOf (source : String) : Except (List SyntaxError) (List Stmt) :=
  let found := scan source
  match Grammar.parse found.tokens with
  | .ok statements => if found.errors.isEmpty then .ok statements else .error found.errors
  | .error errors => .error (found.errors ++ errors)

/-- Runs a source, unless it has a syntax error. -/
def run (rounds : Nat) (source : String) (machine : Machine) : Option (Report × Machine) :=
  match statementsOf source with
  | .error errors => some ({ syntaxErrors := errors }, machine)
  | .ok statements =>
    (interpret rounds statements machine).map fun (errors, after) =>
      ({ runtimeErrors := errors }, after)

/-- What running one source of a session brought forth. -/
structure Answer where
  report : Report
  output : ByteArray

/-- What was written between two states of a sink. -/
def writtenSince (before after : Sink) : ByteArray := after.written.extract before.size after.size

/-- Runs sources one after another. -/
def session (rounds : Nat) : List String → Machine → Option (List Answer × Machine)
  | [], machine => some ([], machine)
  | source :: rest, machine =>
    match run rounds source machine with
    | none => none
    | some (report, after) =>
      (session rounds rest after).map fun (answers, last) =>
        (⟨report, writtenSince machine.out after.out⟩ :: answers, last)

end Lox
