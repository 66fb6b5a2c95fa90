import Mila.Text.Quoted
import Mila.Token

/-! # Token dumps

The long form in which single tokens are listed: it names the kind, the value and the place.
-/

namespace Mila

def LexicalError.dump : LexicalError → String
  | unrecognizedOperator symbol => "UnrecognizedOperator(" ++ Quoted.char symbol ++ ")"
  | unrecognizedCharacter character => "UnrecognizedCharacter(" ++ Quoted.char character ++ ")"
  | invalidByte byte => "InvalidByte(" ++ toString byte.toNat ++ ")"
  | invalidDigit radix digit =>
    "InvalidDigit \x7b radix: " ++ toString radix ++ ", digit: " ++ Quoted.char digit ++ " \x7d"
  | identifierStartsWithNumber => "IdentifierStartsWithNumber"
  | emptyHexLiteral => "EmptyHexLiteral"
  | overflow => "Overflow"
  | read reason => "Read(" ++ reason.label ++ ")"

def Kind.dump : Kind → String
  | identifier name => "Identifier(\"" ++ name ++ "\")"
  | integer value => "Integer(" ++ toString value.toInt ++ ")"
  | operator symbol => "Operator(" ++ symbol.label ++ ")"
  | keyword word => "Keyword(" ++ word.label ++ ")"
  | eof => "Eof"
  | error reason => "Error(" ++ reason.dump ++ ")"

/-- The token's kind and span on one line. -/
def Token.dump (t : Token) : String := "Token(" ++ t.kind.dump ++ ", " ++ t.span.text ++ ")"

end Mila
