import PointsTo.Text.Token

/-!
# From text to tokens

At each place the lexer skips blanks and comments and takes the longest token. `scan` looks at one
place only and says how the text goes on there; `lex` cuts a whole text into lexemes.
-/

namespace PointsTo.Text

/-- How a text goes on at one place. -/
inductive Scan where
  | done
  /-- blanks or a comment -/
  | skip (text rest : List Char)
  | token (token : Token) (text rest : List Char)
  /-- characters that belong to no token and no comment -/
  | stuck (text : List Char)
deriving DecidableEq

/-- The body of a block comment, up to and including the first `*/`, and what follows it. -/
def closeComment : List Char → Option (List Char × List Char)
  | '*' :: '/' :: rest => some (['*', '/'], rest)
  | c :: rest => (closeComment rest).map fun (body, rest) => (c :: body, rest)
  | [] => none

/-- The punctuation mark of one character. -/
def punct? : Char → Option Punct
  | '(' => some .lparen
  | ')' => some .rparen
  | '\x7b' => some .lbrace
  | '\x7d' => some .rbrace
  | '[' => some .lbracket
  | ']' => some .rbracket
  | ',' => some .comma
  | ';' => some .semicolon
  | '=' => some .equal
  | '.' => some .dot
  | _ => none

/-- The first character and the run of characters of a class that follows it. -/
def takeRun (p : Char → Bool) (c : Char) (rest : List Char) : List Char × List Char :=
  (c :: rest.takeWhile p, rest.dropWhile p)

def scanComment : List Char → Scan
  | '/' :: rest =>
    .skip ('/' :: '/' :: rest.takeWhile (!isLineEnd ·)) (rest.dropWhile (!isLineEnd ·))
  | '*' :: rest =>
    match closeComment rest with
    | some (body, rest) => .skip ('/' :: '*' :: body) rest
    | none => .stuck ('/' :: '*' :: rest)
  | _ => .stuck ['/']

def scanSign : List Char → Scan
  | c :: rest =>
    if isDigit c then
      let (digits, rest) := takeRun isDigit c rest
      .token (.int (String.ofList ('-' :: digits))) ('-' :: digits) rest
    else .stuck ['-']
  | [] => .stuck ['-']

def scanColon : List Char → Scan
  | ':' :: rest => .token (.punct .colons) [':', ':'] rest
  | _ => .stuck [':']

def scan : List Char → Scan
  | [] => .done
  | c :: rest =>
    if isBlank c then
      let (text, rest) := takeRun isBlank c rest
      .skip text rest
    else if isIdentStart c then
      let (text, rest) := takeRun isIdentChar c rest
      .token (.ident (String.ofList text)) text rest
    else if isDigit c then
      let (text, rest) := takeRun isDigit c rest
      .token (.int (String.ofList text)) text rest
    else if c = '/' then scanComment rest
    else if c = '-' then scanSign rest
    else if c = ':' then scanColon rest
    else
      match punct? c with
      | some p => .token (.punct p) [c] rest
      | none => .stuck [c]

/-- Text that is neither a token nor skipped, and its line. -/
structure LexError where
  line : Nat
  text : String
deriving DecidableEq

/-- Cuts a text into lexemes, in `n` scans at most. -/
def lexFrom : Nat → Position → List Char → Except LexError (List Lexeme)
  | 0, _, _ => .ok []
  | n + 1, pos, cs =>
    match scan cs with
    | .done => .ok []
    | .skip text rest => lexFrom n (pos.advance text) rest
    | .token token text rest => do
      let after := pos.advance text
      let lexemes ← lexFrom n after rest
      return { token, start := pos.offset, stop := after.offset, line := pos.line } :: lexemes
    | .stuck text => .error ⟨pos.line, String.ofList text⟩

/-- The lexemes of a text. Each scan takes a character or more, so that the scans suffice. -/
def lexChars (cs : List Char) : Except LexError (List Lexeme) := lexFrom (cs.length + 1) {} cs

def lex (text : String) : Except LexError (List Lexeme) := lexChars text.toList

end PointsTo.Text
