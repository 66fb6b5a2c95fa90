import Mila.Text.Hidden

/-! # Quoted characters

A character between single quotes, with an escape in place of anything that would not show.
-/

namespace Mila.Quoted

/-- The form `\u{...}` around the code point in lower-case hexadecimal digits. -/
def codePoint (c : Char) : String :=
  "\\u\x7b" ++ String.ofList (Nat.toDigits 16 c.toNat) ++ "\x7d"

/-- What stands between the quotes for a character. -/
def escape (c : Char) : String :=
  match c with
  | '\x00' => "\\0"
  | '\t' => "\\t"
  | '\n' => "\\n"
  | '\r' => "\\r"
  | '\'' => "\\'"
  | '\\' => "\\\\"
  | _ => if isHidden c then codePoint c else c.toString

/-- The quoted form of a character. -/
def char (c : Char) : String := "'" ++ escape c ++ "'"

end Mila.Quoted
