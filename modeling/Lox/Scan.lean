import Lox.Segment
import Lox.SyntaxError

/-!
# From source to tokens

Of the segments of a source the words become tokens and the faulty pieces become errors.  Both are
on the line on which their segment ends.

Main definitions:
* `Segment.token?` and `Segment.error?`: what one segment contributes;
* `withLines`: the segments, each with the line on which it ends;
* `scan`: the tokens of a source, the end token included, and its errors.
-/

namespace Lox

namespace Segment

/-- The value that a word carries: strings their contents, numerals their number. -/
def literal? (kind : TokenKind) (word : List Char) : Option Value :=
  match kind with
  | .string => some (.string (String.ofList word.tail.dropLast))
  | .number => some (.number (number word))
  | _ => none

/-- The token that a segment is, when it ends on a given line. -/
def token? (line : Nat) : Segment → Option Token
  | .lexeme kind word => some ⟨kind, String.ofList word, literal? kind word, line⟩
  | _ => none

/-- The error that a segment is, when it ends on a given line. -/
def error? (line : Nat) : Segment → Option SyntaxError
  | .unexpected _ => some (.onLine line .unexpectedCharacter)
  | .unterminated _ => some (.onLine line .unterminatedString)
  | _ => none

end Segment

/-- How many lines end in a text. -/
def lineEnds (text : List Char) : Nat := text.count '\n'

/-- The segments, each with the line on which it ends, when the first begins on a given line. -/
def withLines (line : Nat) : List Segment → List (Nat × Segment)
  | [] => []
  | segment :: rest =>
    let line := line + lineEnds segment.text
    (line, segment) :: withLines line rest

/-- What scanning finds in a source. -/
structure Scan where
  tokens : List Token
  errors : List SyntaxError
  deriving DecidableEq

/-- The tokens of a source in order, with the end token on the last line, and its errors in order.
An error hides no token. -/
def scan (source : String) : Scan :=
  let placed := withLines 1 (segments source.toList)
  { tokens := placed.filterMap (fun (line, segment) => segment.token? line) ++
      [.endOf (1 + lineEnds source.toList)]
    errors := placed.filterMap fun (line, segment) => segment.error? line }

end Lox
