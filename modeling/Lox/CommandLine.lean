import Lox.Lines
import Lox.Session

/-!
# The command line

With one argument the program runs the script of that name, with none it converses: it reads lines
and runs each as a source of one session.  What it does to the world is a value here, the console,
so that it can be stated and tested without any input or output.

Main definitions:
* `ReadFailure`: why a file could not be read as text, with its wording;
* `Exit`: how the program ends, and the status it leaves;
* `Console`: the machine, whose output is standard output, and the text of standard error;
* `Console.turn` and `converse`: one line of a conversation, and all of it;
* `runScript` and `commandLine`: a script, and the program as a whole.
-/

namespace Lox

/-- Why a file could not be read as text. -/
inductive ReadFailure where
  /-- A step of the path leads nowhere. -/
  | notFound
  /-- The path goes on behind a file. -/
  | notDirectory
  /-- The path ends at a directory. -/
  | isDirectory
  /-- The contents are no text. -/
  | notUtf8
  /-- A failure in its own words. -/
  | other (message : String)
  deriving DecidableEq, Repr

/-- The wording of a failure. -/
def ReadFailure.message : ReadFailure → String
  | .notFound => "No such file or directory (os error 2)"
  | .notDirectory => "Not a directory (os error 20)"
  | .isDirectory => "Is a directory (os error 21)"
  | .notUtf8 => "stream did not contain valid UTF-8"
  | .other message => message

/-- How the program ends. -/
inductive Exit where
  | success
  | usage
  | syntaxError
  | unreadableScript
  | runtimeError
  | unreadableInput
  deriving DecidableEq, Repr

/-- The status that the program leaves to its caller. -/
def Exit.code : Exit → UInt8
  | .success => 0
  | .usage => 64
  | .syntaxError => 65
  | .unreadableScript => 66
  | .runtimeError => 70
  | .unreadableInput => 74

/-- What the program acts on: a machine, whose sink is standard output, and the text written to
standard error. -/
structure Console where
  machine : Machine := {}
  errors : String := ""

namespace Console

/-- Writes a line to standard error. -/
def complain (console : Console) (message : String) : Console :=
  { console with errors := console.errors ++ message ++ "\n" }

/-- Writes the errors of a source to standard error, each on lines of its own. -/
def tell (console : Console) (report : Report) : Console :=
  let messages := report.syntaxErrors.map SyntaxError.display ++
    report.runtimeErrors.map RuntimeError.display
  messages.foldl complain console

/-- Invites a line of input. -/
def prompt (console : Console) : Console :=
  { console with machine :=
      { console.machine with out := (console.machine.out.write "> ".toUTF8).2 } }

/-- Runs a source and tells its errors. -/
def answer (rounds : Nat) (source : String) (console : Console) : Option (Report × Console) :=
  (run rounds source console.machine).map fun (report, machine) =>
    (report, { console with machine }.tell report)

end Console

/-! ### Conversations -/

/-- What a line leads to in a conversation. -/
inductive Turn where
  /-- The next line is invited. -/
  | next (console : Console)
  /-- There is no next line. -/
  | last (exit : Exit) (console : Console)

/-- Takes a line of input: runs it and tells its errors.  A line that is no text is complained about
and ends the conversation. -/
def Console.turn (rounds : Nat) (line : List UInt8) (console : Console) : Option Turn :=
  match decodeLine line with
  | none =>
    some (.last .unreadableInput
      (console.complain ("Error reading input: " ++ ReadFailure.notUtf8.message)))
  | some source => (console.answer rounds source).map fun (_, after) => .next after

/-- Takes lines of input one after another, with an invitation before each and one more before the
end. -/
def converse (rounds : Nat) : List (List UInt8) → Console → Option (Exit × Console)
  | [], console => some (.success, console.prompt)
  | line :: rest, console =>
    match console.prompt.turn rounds line with
    | none => none
    | some (.last exit after) => some (exit, after)
    | some (.next after) => converse rounds rest after

/-! ### Scripts -/

/-- How a script ends, by its errors. -/
def Report.exit (report : Report) : Exit :=
  if !report.syntaxErrors.isEmpty then .syntaxError
  else if !report.runtimeErrors.isEmpty then .runtimeError
  else .success

/-- The text of a file, if it could be read and is UTF-8. -/
def scriptText (content : Except ReadFailure ByteArray) : Except ReadFailure String :=
  match content with
  | .error failure => .error failure
  | .ok bytes =>
    match String.fromUTF8? bytes with
    | some text => .ok text
    | none => .error .notUtf8

/-- Runs a script, given its name and what reading the file of that name brought. -/
def runScript (rounds : Nat) (name : String) (content : Except ReadFailure ByteArray)
    (console : Console) : Option (Exit × Console) :=
  match scriptText content with
  | .error failure =>
    some (.unreadableScript,
      console.complain ("Error reading file '" ++ name ++ "': " ++ failure.message))
  | .ok source => (console.answer rounds source).map fun (report, after) => (report.exit, after)

/-- The program, given its arguments, the files it can read and its whole input. -/
def commandLine (rounds : Nat) (arguments : List String)
    (files : String → Except ReadFailure ByteArray) (input : List UInt8) :
    Option (Exit × Console) :=
  match arguments with
  | [] => converse rounds (inputLines input) {}
  | [name] => runScript rounds name (files name) {}
  | _ => some (.usage, { : Console }.complain "Usage: tlox [script]")

end Lox
