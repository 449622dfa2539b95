import Lox.Value

/-!
# Tokens

The words of a Lox program.  A kind says what the grammar needs to know of a token; the lexeme is
its spelling in the source, and the line is where its lexeme ends.

Main definitions:
* `Symbol` and `Keyword`: the fixed words of the language, each with its one spelling;
* `Keyword.ofText?`: the reserved word with a given spelling, if there is one;
* `TokenKind` and `Token`: a fixed word, or a word of an open class, and where it stands.
-/

namespace Lox

/-- Punctuation and operators. -/
inductive Symbol where
  | leftParen | rightParen | leftBrace | rightBrace
  | comma | dot | minus | plus | semicolon | slash | star
  | bang | bangEqual | equal | equalEqual | greater | greaterEqual | less | lessEqual
  deriving DecidableEq, Repr

/-- How a symbol is written. -/
def Symbol.text : Symbol → List Char
  | .leftParen => ['(']
  | .rightParen => [')']
  | .leftBrace => ['\x7b']
  | .rightBrace => ['\x7d']
  | .comma => [',']
  | .dot => ['.']
  | .minus => ['-']
  | .plus => ['+']
  | .semicolon => [';']
  | .slash => ['/']
  | .star => ['*']
  | .bang => ['!']
  | .bangEqual => ['!', '=']
  | .equal => ['=']
  | .equalEqual => ['=', '=']
  | .greater => ['>']
  | .greaterEqual => ['>', '=']
  | .less => ['<']
  | .lessEqual => ['<', '=']

/-- The symbol that is one character. -/
def Symbol.ofChar? : Char → Option Symbol
  | '(' => some .leftParen
  | ')' => some .rightParen
  | '\x7b' => some .leftBrace
  | '\x7d' => some .rightBrace
  | ',' => some .comma
  | '.' => some .dot
  | '-' => some .minus
  | '+' => some .plus
  | ';' => some .semicolon
  | '/' => some .slash
  | '*' => some .star
  | '!' => some .bang
  | '=' => some .equal
  | '>' => some .greater
  | '<' => some .less
  | _ => none

/-- The symbol that a symbol becomes when an equals sign follows it. -/
def Symbol.withEqual? : Symbol → Option Symbol
  | .bang => some .bangEqual
  | .equal => some .equalEqual
  | .greater => some .greaterEqual
  | .less => some .lessEqual
  | _ => none

/-- Reserved words.  Some of them are in no rule of the grammar. -/
inductive Keyword where
  | «and» | «class» | «else» | «false» | «for» | «fun» | «if» | «nil»
  | «or» | «print» | «return» | «super» | «this» | «true» | «var» | «while»
  deriving DecidableEq, Repr

/-- How a keyword is written. -/
def Keyword.text : Keyword → List Char
  | .and => "and".toList
  | .class => "class".toList
  | .else => "else".toList
  | .false => "false".toList
  | .for => "for".toList
  | .fun => "fun".toList
  | .if => "if".toList
  | .nil => "nil".toList
  | .or => "or".toList
  | .print => "print".toList
  | .return => "return".toList
  | .super => "super".toList
  | .this => "this".toList
  | .true => "true".toList
  | .var => "var".toList
  | .while => "while".toList

/-- All reserved words. -/
def Keyword.all : List Keyword :=
  [.and, .class, .else, .false, .for, .fun, .if, .nil,
   .or, .print, .return, .super, .this, .true, .var, .while]

/-- The keyword with a given spelling. -/
def Keyword.ofText? (text : List Char) : Option Keyword :=
  Keyword.all.find? fun keyword => keyword.text == text

/-- What the grammar distinguishes.  The kind `eof` ends a sequence of tokens. -/
inductive TokenKind where
  | symbol (symbol : Symbol)
  | keyword (keyword : Keyword)
  | identifier
  | string
  | number
  | eof
  deriving DecidableEq, Repr

/-- A word of a program.  String and number tokens carry their value. -/
structure Token where
  kind : TokenKind
  lexeme : String
  literal : Option Value
  line : Nat
  deriving DecidableEq

namespace Token

/-- The token that ends a sequence, on a given line. -/
def endOf (line : Nat) : Token := ⟨.eof, "", none, line⟩

/-- A token shows its lexeme. -/
def display (token : Token) : String := token.lexeme

end Token

end Lox
