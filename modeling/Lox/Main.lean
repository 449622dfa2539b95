import Lox.CommandLine

/-!
# The program

Reads files and standard input, and passes on what the console holds.  All that is decided is
decided in `Lox.CommandLine`.
-/

namespace Lox

-- Powers are those of `Nat` itself, whatever other powers are in sight.
attribute [local instance (high)] instPowNat

/-- More rounds than any loop can take in practice. -/
def patience : Nat := 2 ^ (62 : Nat)

/-- Passes on what a console holds, and empties it. -/
def deliver (console : Console) : IO Console := do
  let stdout ← IO.getStdout
  stdout.write console.machine.out.written
  stdout.flush
  (← IO.getStderr).putStr console.errors
  return { machine := { console.machine with out := {} } }

/-- Reads bytes up to a line feed or the end of the input, one by one, so as to take no byte of the
next line. -/
partial def readPiece (input : IO.FS.Stream) (taken : List UInt8) : IO (List UInt8) := do
  let bytes ← input.read 1
  match bytes.toList with
  | [] => return taken.reverse
  | byte :: _ =>
    if byte = lineFeed then return (byte :: taken).reverse else readPiece input (byte :: taken)

/-- Converses with whoever is at the other end, as `converse` does with lines that are all there,
and passes on what each line brought before it reads the next. -/
partial def converseWith (input : IO.FS.Stream) (console : Console) : IO Exit := do
  let invited ← deliver console.prompt
  let piece ← readPiece input []
  if piece.isEmpty then return .success
  match invited.turn patience (lineOf piece) with
  | none => return .success
  | some (.last exit after) =>
    let _ ← deliver after
    return exit
  | some (.next after) => converseWith input (← deliver after)

/-- Why the system refused to read a file.  The system speaks of one wrong type of file for both a
directory at the end of a path and something else on the way; status 21 is the former. -/
def readFailure : IO.Error → ReadFailure
  | .noFileOrDirectory .. => .notFound
  | .inappropriateType _ status _ => if status = 21 then .isDirectory else .notDirectory
  | .permissionDenied .. => .other "Permission denied (os error 13)"
  | failure => .other (toString failure)

/-- What reading a file brings. -/
def readFile (name : String) : IO (Except ReadFailure ByteArray) := do
  try
    return .ok (← IO.FS.readBinFile name)
  catch failure =>
    return .error (readFailure failure)

/-- Runs the program and answers with its status. -/
def runProgram (arguments : List String) : IO UInt8 := do
  match arguments with
  | [] => return (← converseWith (← IO.getStdin) {}).code
  | _ =>
    let content ← match arguments with
      | [name] => readFile name
      | _ => pure (.error .notFound)
    match commandLine patience arguments (fun _ => content) [] with
    | none => return Exit.success.code
    | some (exit, console) =>
      let _ ← deliver console
      return exit.code

end Lox

/-- Runs the program and leaves its status to the caller. -/
def main (arguments : List String) : IO UInt32 := return (← Lox.runProgram arguments).toUInt32
