/-!
# Tokens

The words of the text format: identifiers, integers and punctuation, each with the bytes it occupies
and the line it starts on.
-/

namespace PointsTo.Text

inductive Punct where
  | lparen
  | rparen
  | lbrace
  | rbrace
  | lbracket
  | rbracket
  | comma
  | semicolon
  | equal
  | dot
  | colons
deriving DecidableEq

def Punct.text : Punct → String
  | .lparen => "("
  | .rparen => ")"
  | .lbrace => "\x7b"
  | .rbrace => "\x7d"
  | .lbracket => "["
  | .rbracket => "]"
  | .comma => ","
  | .semicolon => ";"
  | .equal => "="
  | .dot => "."
  | .colons => "::"

inductive Token where
  | ident (text : String)
  | int (text : String)
  | punct (p : Punct)
deriving DecidableEq

def Token.text : Token → String
  | .ident text => text
  | .int text => text
  | .punct p => p.text

/-- A place in a text: the number of bytes before it, and its line, counted from one. -/
structure Position where
  offset : Nat := 0
  line : Nat := 1
deriving DecidableEq

/-- The place after one more character. Only a newline starts a line. -/
def Position.step (p : Position) (c : Char) : Position :=
  { offset := p.offset + c.utf8Size
    line := if c = '\n' then p.line + 1 else p.line }

/-- The place after some characters. -/
def Position.advance (p : Position) (cs : List Char) : Position := cs.foldl Position.step p

/-- A token where it stands: from byte `start` up to byte `stop`. -/
structure Lexeme where
  token : Token
  start : Nat
  stop : Nat
  line : Nat
deriving DecidableEq

/-! ## Characters -/

def isBlank (c : Char) : Bool := c = ' ' || c = '\t' || c = '\r' || c = '\n' || c = '\x0c'

def isDigit (c : Char) : Bool := '0' ≤ c && c ≤ '9'

/-- A letter of the Latin alphabet without accents, an underscore or a dollar sign. -/
def isIdentStart (c : Char) : Bool :=
  ('A' ≤ c && c ≤ 'Z') || ('a' ≤ c && c ≤ 'z') || c = '_' || c = '$'

def isIdentChar (c : Char) : Bool := isIdentStart c || isDigit c

/-- A line comment runs up to the end of its line. -/
def isLineEnd (c : Char) : Bool := c = '\n' || c = '\r'

end PointsTo.Text
