import Mila.Input
import Mila.Span
import Mila.Word

/-! # Tokens

The vocabulary of Mila: names, numbers, symbols and keywords. A stretch of source that spells none of
these is a token too, one that carries the reason.
-/

namespace Mila

/-- The symbols of the language. -/
inductive Operator where
  | dot
  | range
  | plus
  | minus
  | star
  | slash
  | percent
  | eq
  | notEq
  | less
  | lessEq
  | greater
  | greaterEq
  | assign
  | colon
  | semicolon
  | comma
  | lparen
  | rparen
  | lbracket
  | rbracket
  | quote
  deriving DecidableEq, Repr

namespace Operator

/-- How the symbol is written in source text. -/
def text : Operator → String
  | dot => "."
  | range => ".."
  | plus => "+"
  | minus => "-"
  | star => "*"
  | slash => "/"
  | percent => "%"
  | eq => "="
  | notEq => "<>"
  | less => "<"
  | lessEq => "<="
  | greater => ">"
  | greaterEq => ">="
  | assign => ":="
  | colon => ":"
  | semicolon => ";"
  | comma => ","
  | lparen => "("
  | rparen => ")"
  | lbracket => "["
  | rbracket => "]"
  | quote => "'"

/-- The symbol's name in token dumps. -/
def label : Operator → String
  | dot => "Dot"
  | range => "Range"
  | plus => "Plus"
  | minus => "Minus"
  | star => "Star"
  | slash => "Slash"
  | percent => "Percent"
  | eq => "Eq"
  | notEq => "NotEq"
  | less => "Less"
  | lessEq => "LessEq"
  | greater => "Greater"
  | greaterEq => "GreaterEq"
  | assign => "Assign"
  | colon => "Colon"
  | semicolon => "Semicolon"
  | comma => "Comma"
  | lparen => "LParen"
  | rparen => "RParen"
  | lbracket => "LBracket"
  | rbracket => "RBracket"
  | quote => "Quote"

end Operator

/-- The reserved words. They are written in lower case only. -/
inductive Keyword where
  | program
  | var
  | const
  | function
  | procedure
  | begin
  | end
  | forward
  | if
  | then
  | else
  | while
  | for
  | do
  | to
  | downto
  | read
  | write
  | readln
  | writeln
  | exit
  | dec
  | inc
  | div
  | mod
  | not
  | and
  | or
  | array
  | of
  | integer
  deriving DecidableEq, Repr

namespace Keyword

/-- How the keyword is written in source text. -/
def text : Keyword → String
  | .program => "program"
  | .var => "var"
  | .const => "const"
  | .function => "function"
  | .procedure => "procedure"
  | .begin => "begin"
  | .end => "end"
  | .forward => "forward"
  | .if => "if"
  | .then => "then"
  | .else => "else"
  | .while => "while"
  | .for => "for"
  | .do => "do"
  | .to => "to"
  | .downto => "downto"
  | .read => "read"
  | .write => "write"
  | .readln => "readln"
  | .writeln => "writeln"
  | .exit => "exit"
  | .dec => "dec"
  | .inc => "inc"
  | .div => "div"
  | .mod => "mod"
  | .not => "not"
  | .and => "and"
  | .or => "or"
  | .array => "array"
  | .of => "of"
  | .integer => "integer"

/-- The keyword's name in token dumps: its text with a capital letter. -/
def label (k : Keyword) : String := k.text.capitalize

def all : List Keyword :=
  [.program, .var, .const, .function, .procedure, .begin, .end, .forward, .if, .then, .else, .while,
    .for, .do, .to, .downto, .read, .write, .readln, .writeln, .exit, .dec, .inc, .div, .mod, .not,
    .and, .or, .array, .of, .integer]

/-- The keyword spelled by a text. -/
def ofText? (s : String) : Option Keyword := all.find? (fun k => k.text == s)

end Keyword

/-- Why a stretch of source is no token. -/
inductive LexicalError where
  | unrecognizedOperator (symbol : Char)
  | unrecognizedCharacter (character : Char)
  | invalidByte (byte : UInt8)
  | invalidDigit (radix : Nat) (digit : Char)
  | identifierStartsWithNumber
  | emptyHexLiteral
  | overflow
  | read (reason : ReadFailure)
  deriving DecidableEq, Repr

namespace LexicalError

/-- Two upper-case hexadecimal digits. -/
def hexByte (b : UInt8) : String :=
  String.ofList ((Nat.toDigits 16 (b.toNat + 0x100)).drop 1 |>.map Char.toUpper)

def message : LexicalError → String
  | unrecognizedOperator symbol => "unrecognized operator `" ++ symbol.toString ++ "`"
  | unrecognizedCharacter character => "unrecognized character `" ++ character.toString ++ "`"
  | invalidByte byte => "invalid UTF-8 byte `\\x" ++ hexByte byte ++ "`"
  | invalidDigit radix digit =>
    "number in base " ++ toString radix ++ " cannot contain character `" ++ digit.toString ++ "`"
  | identifierStartsWithNumber => "identifier cannot start with a number"
  | emptyHexLiteral => "symbol `0x` is invalid"
  | overflow => "integer literal does not fit in 32 bits"
  | read reason => "failed to read input: " ++ reason.message

/-- The error's name in token dumps. -/
def label : LexicalError → String
  | unrecognizedOperator _ => "UnrecognizedOperator"
  | unrecognizedCharacter _ => "UnrecognizedCharacter"
  | invalidByte _ => "InvalidByte"
  | invalidDigit _ _ => "InvalidDigit"
  | identifierStartsWithNumber => "IdentifierStartsWithNumber"
  | emptyHexLiteral => "EmptyHexLiteral"
  | overflow => "Overflow"
  | read _ => "Read"

end LexicalError

/-- What a token is, wherever it stands. -/
inductive Kind where
  | identifier (name : String)
  | integer (value : Word)
  | operator (symbol : Operator)
  | keyword (word : Keyword)
  | eof
  | error (reason : LexicalError)
  deriving DecidableEq, Repr

/-- How a kind of token is named in messages. -/
def Kind.describe : Kind → String
  | .identifier name => "identifier `" ++ name ++ "`"
  | .integer value => "number `" ++ toString value.toInt ++ "`"
  | .operator symbol => "`" ++ symbol.text ++ "`"
  | .keyword word => "`" ++ word.text ++ "`"
  | .eof => "end of input"
  | .error reason => "invalid token (" ++ reason.message ++ ")"

/-- A token and its place in the source. -/
structure Token where
  kind : Kind
  span : Span
  deriving DecidableEq, Repr

/-- Two tokens spell the same symbol, regardless of where they stand. -/
def Token.sameAs (a b : Token) : Bool := a.kind == b.kind

end Mila
