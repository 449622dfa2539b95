/-!
# Lines of input

How bytes that are typed or piped in make lines.  A line ends at a line feed, which is not part of
it; a carriage return directly before the line feed is not either.  What follows the last line feed
is a line of its own if there is anything.

Main definitions:
* `pieces`: the bytes cut behind each line feed;
* `lineOf`: the line that such a piece holds;
* `inputLines`: the lines of an input;
* `decodeLine`: the text of a line, if its bytes are UTF-8.
-/

namespace Lox

/-- The byte that ends a line. -/
def lineFeed : UInt8 := 10

/-- The byte that is dropped directly before the end of a line. -/
def carriageReturn : UInt8 := 13

/-- The bytes cut behind each line feed.  Joined together the pieces are the input. -/
def pieces : List UInt8 → List (List UInt8)
  | [] => []
  | byte :: rest =>
    if byte = lineFeed then [byte] :: pieces rest
    else
      match pieces rest with
      | [] => [[byte]]
      | piece :: others => (byte :: piece) :: others

/-- The line in a piece: the piece without its line end. -/
def lineOf (piece : List UInt8) : List UInt8 :=
  match piece.reverse with
  | [] => []
  | last :: before =>
    if last = lineFeed then
      match before with
      | [] => []
      | c :: body => if c = carriageReturn then body.reverse else before.reverse
    else piece

/-- The lines of an input, in order. -/
def inputLines (input : List UInt8) : List (List UInt8) := (pieces input).map lineOf

/-- The text of a line, if its bytes are UTF-8. -/
def decodeLine (line : List UInt8) : Option String := String.fromUTF8? (ByteArray.mk line.toArray)

end Lox
