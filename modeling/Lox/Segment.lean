import Lox.Token

/-!
# The segments of a source

A source is cut, from left to right and without a gap, into segments: words, blanks, comments and
faulty pieces.  Each segment is as long as it can be.

Main definitions:
* `Segment`: a piece of source with what it is, and `Segment.text`, the piece itself;
* `Segment.first`: the segment at the start of a source that is not empty;
* `segments`: all segments of a source, in order.
-/

namespace Lox

/-- A piece of source. -/
inductive Segment where
  /-- A space, a tab, or one half of a line end. -/
  | blank (c : Char)
  /-- A comment, without the two slashes that begin it and without the line end after it. -/
  | comment (body : List Char)
  /-- A word of the language. -/
  | lexeme (kind : TokenKind) (word : List Char)
  /-- A character that is no blank and begins no word. -/
  | unexpected (c : Char)
  /-- What follows an opening quote that no other quote follows. -/
  | unterminated (body : List Char)
  deriving DecidableEq

/-- The characters that separate words and mean nothing else. -/
def isBlank (c : Char) : Bool := c == ' ' || c == '\r' || c == '\t' || c == '\n'

/-- The characters that a name can begin with: the ASCII letters and the underscore. -/
def isNameStart (c : Char) : Bool := c.isAlpha || c == '_'

/-- The characters that a name can go on with. -/
def isNamePart (c : Char) : Bool := isNameStart c || c.isDigit

namespace Segment

/-- The piece of source that a segment is. -/
def text : Segment → List Char
  | .blank c => [c]
  | .comment body => '/' :: '/' :: body
  | .lexeme _ word => word
  | .unexpected c => [c]
  | .unterminated body => '"' :: body

/-- The numeral at the start of a source that begins with a digit.  A point belongs to it only if
a digit follows the point. -/
def numeral (source : List Char) : List Char :=
  let whole := source.takeWhile Char.isDigit
  match source.dropWhile Char.isDigit with
  | '.' :: rest =>
    match rest.takeWhile Char.isDigit with
    | [] => whole
    | fraction => whole ++ '.' :: fraction
  | _ => whole

/-- The string at the start of a source whose first character, a quote, has been taken off. -/
def quoted (rest : List Char) : Segment :=
  let body := rest.takeWhile (· != '"')
  if body.length < rest.length then .lexeme .string ('"' :: body ++ ['"']) else .unterminated rest

/-- A name, unless its spelling is reserved. -/
def word (spelling : List Char) : Segment :=
  match Keyword.ofText? spelling with
  | some keyword => .lexeme (.keyword keyword) spelling
  | none => .lexeme .identifier spelling

/-- The longest symbol that begins with a character and goes on in the rest. -/
def symbol? (c : Char) (rest : List Char) : Option Symbol :=
  (Symbol.ofChar? c).map fun narrow =>
    match narrow.withEqual?, rest with
    | some wide, '=' :: _ => wide
    | _, _ => narrow

/-- The first segment of a source, given its first character and the rest. -/
def first (c : Char) (rest : List Char) : Segment :=
  if isBlank c then .blank c
  else if c == '"' then quoted rest
  else if c == '/' && rest.head? == some '/' then .comment (rest.tail.takeWhile (· != '\n'))
  else if c.isDigit then .lexeme .number (numeral (c :: rest))
  else if isNameStart c then word (c :: rest.takeWhile isNamePart)
  else
    match symbol? c rest with
    | some symbol => .lexeme (.symbol symbol) symbol.text
    | none => .unexpected c

end Segment

/-- The segments of a source of which a number of characters is still to be skipped, because they
belong to the segment before. -/
def segmentsAfter : Nat → List Char → List Segment
  | _, [] => []
  | skip + 1, _ :: rest => segmentsAfter skip rest
  | 0, c :: rest =>
    let segment := Segment.first c rest
    segment :: segmentsAfter (segment.text.length - 1) rest

/-- The segments of a source, in order. -/
def segments (source : List Char) : List Segment := segmentsAfter 0 source

end Lox
