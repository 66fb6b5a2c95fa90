import Mila.Text.Ascii
import Mila.Token

/-! # Scanning

Reading one token off the front of an input. Every rule takes the longest stretch it can: a name goes on
for as long as name bytes follow, a number for as long as letters or digits follow, a symbol is read
with two bytes where two bytes spell one.
-/

namespace Mila

/-- A token cut off the front of an input: its kind, how many bytes it covers, what follows it. -/
structure Lexeme where
  kind : Kind
  size : Nat
  rest : Input

namespace Scan

/-- The keyword or name spelled by a run of name bytes. -/
def wordKind (bytes : List UInt8) : Kind :=
  match Keyword.ofText? (Ascii.text bytes) with
  | some word => .keyword word
  | none => .identifier (Ascii.text bytes)

/-- A name or keyword that starts with the letter `first`. -/
def word (first : UInt8) (input : Input) : Lexeme :=
  let (run, rest) := input.takeWhile Ascii.isNameByte
  ⟨wordKind (first :: run), 1 + run.length, rest⟩

/-- The least value that is too large for a number. -/
def numberLimit : Nat := 0x80000000

/-- The number whose digits so far have the value `value` and go on with `run`. The value is held at
`numberLimit` once it gets there, so it stays small however long the run is. -/
def numberKind (radix : Nat) (value : Nat) : List UInt8 → Kind
  | [] => if value < numberLimit then .integer (Int32.ofNat value) else .error .overflow
  | byte :: run =>
    match Ascii.digit? radix byte with
    | some digit => numberKind radix (min (value * radix + digit) numberLimit) run
    | none => .error (.invalidDigit radix (Char.ofUInt8 byte))

/-- The digits of a number after `lead` bytes that already have the value `value`. Any letter or digit
continues the number, so `018` is one bad octal number and not `01` followed by `8`. -/
def number (radix value lead : Nat) (input : Input) : Lexeme :=
  let (run, rest) := input.takeWhile Ascii.isAlphanumeric
  ⟨numberKind radix value run, lead + run.length, rest⟩

/-- What follows a leading `0`: `0x1F` is hexadecimal, `017` is octal and a lone `0` is zero. -/
def leadingZero (input : Input) : Lexeme :=
  match input.next with
  | .byte byte rest =>
    if byte == 'x'.toUInt8 || byte == 'X'.toUInt8 then
      if rest.startsWith Ascii.isAlphanumeric then number 16 0 2 rest
      else ⟨.error .emptyHexLiteral, 2, rest⟩
    else if Ascii.isDigit byte then number 8 0 1 input
    else if Ascii.isLetter byte then
      let (run, rest) := input.takeWhile Ascii.isNameByte
      ⟨.error .identifierStartsWithNumber, 1 + run.length, rest⟩
    else ⟨.integer 0, 1, input⟩
  | _ => ⟨.integer 0, 1, input⟩

/-- The symbol that two bytes spell together. -/
def pair? (first second : Char) : Option Operator :=
  match first, second with
  | '.', '.' => some .range
  | '<', '>' => some .notEq
  | '<', '=' => some .lessEq
  | '>', '=' => some .greaterEq
  | ':', '=' => some .assign
  | _, _ => none

/-- The symbol that one byte spells alone. -/
def single? : Char → Option Operator
  | '.' => some .dot
  | '<' => some .less
  | '>' => some .greater
  | ':' => some .colon
  | '+' => some .plus
  | '-' => some .minus
  | '*' => some .star
  | '/' => some .slash
  | '%' => some .percent
  | '=' => some .eq
  | '(' => some .lparen
  | ')' => some .rparen
  | '[' => some .lbracket
  | ']' => some .rbracket
  | ',' => some .comma
  | ';' => some .semicolon
  | '\'' => some .quote
  | _ => none

/-- A symbol of one byte, or the complaint that there is none. -/
def singleKind (first : UInt8) : Kind :=
  match single? (Char.ofUInt8 first) with
  | some symbol => .operator symbol
  | none => .error (.unrecognizedOperator (Char.ofUInt8 first))

/-- A symbol that starts with the byte `first`. -/
def symbol (first : UInt8) (input : Input) : Lexeme :=
  match input.next with
  | .byte second rest =>
    match pair? (Char.ofUInt8 first) (Char.ofUInt8 second) with
    | some symbol => ⟨.operator symbol, 2, rest⟩
    | none => ⟨singleKind first, 1, input⟩
  | _ => ⟨singleKind first, 1, input⟩

/-- How many bytes follow the first byte of a UTF-8 sequence. -/
def sequenceTail (first : UInt8) : Nat :=
  if first < 0xC0 then 0
  else if first < 0xE0 then 1
  else if first < 0xF0 then 2
  else if first < 0xF8 then 3
  else 0

/-- The bytes that go on with a UTF-8 sequence. -/
def isContinuation (b : UInt8) : Bool := b &&& 0xC0 == 0x80

/-- A character outside ASCII, taken whole so that it is reported as one. -/
def foreign (first : UInt8) (input : Input) : Lexeme :=
  let (run, rest) := input.takeUpTo isContinuation (sequenceTail first)
  let kind :=
    match (first :: run).toByteArray.utf8DecodeChar? 0 with
    | some character => .error (.unrecognizedCharacter character)
    | none => .error (.invalidByte first)
  ⟨kind, 1 + run.length, rest⟩

/-- The token that starts with the byte `first`. -/
def startingWith (first : UInt8) (input : Input) : Lexeme :=
  if Ascii.isLetter first then word first input
  else if first == '0'.toUInt8 then leadingZero input
  else if Ascii.isDigit first then number 10 (Ascii.digitValue first) 1 input
  else if first == '$'.toUInt8 && input.startsWith (fun b => (Ascii.digit? 16 b).isSome) then
    number 16 0 1 input
  else if first == '&'.toUInt8 && input.startsWith Ascii.isDigit then number 8 0 1 input
  else if first ≥ 0x80 then foreign first input
  else symbol first input

end Scan

/-- The token at the front of an input that does not start with a blank. A failed read is a token of no
bytes, and nothing is left after it. -/
def scan (input : Input) : Lexeme :=
  match input.next with
  | .byte first rest => Scan.startingWith first rest
  | .failure reason => ⟨.error (.read reason), 0, []⟩
  | .finished => ⟨.eof, 0, input⟩

/-! ## A token is taken off the input -/

namespace Scan

theorem length_rest_leadingZero (input : Input) : (leadingZero input).rest.length ≤ input.length := by
  unfold leadingZero number
  have hname := input.length_takeWhile_le Ascii.isNameByte
  have hnumber := input.length_takeWhile_le Ascii.isAlphanumeric
  split
  · next byte rest h =>
    have hrest := Input.length_lt_of_next_eq_byte h
    have hhex := rest.length_takeWhile_le Ascii.isAlphanumeric
    grind
  · exact Nat.le_refl _

theorem length_rest_symbol (first : UInt8) (input : Input) :
    (symbol first input).rest.length ≤ input.length := by
  unfold symbol
  split
  · next second rest h =>
    have hrest := Input.length_lt_of_next_eq_byte h
    grind
  · exact Nat.le_refl _

theorem length_rest_startingWith (first : UInt8) (input : Input) :
    (startingWith first input).rest.length ≤ input.length := by
  have hname := input.length_takeWhile_le Ascii.isNameByte
  have hnumber := input.length_takeWhile_le Ascii.isAlphanumeric
  have hzero := length_rest_leadingZero input
  have hsymbol := length_rest_symbol first input
  have hforeign := input.length_takeUpTo_le isContinuation (sequenceTail first)
  unfold startingWith word number foreign
  grind

end Scan

/-- Whatever is not the end of input leaves less input behind. -/
theorem scan_shortens {input : Input} (h : (scan input).kind ≠ .eof) :
    (scan input).rest.length < input.length := by
  unfold scan at h ⊢
  cases hnext : input.next with
  | byte first rest =>
    have hrest := Input.length_lt_of_next_eq_byte hnext
    have htoken := Scan.length_rest_startingWith first rest
    exact Nat.lt_of_le_of_lt htoken hrest
  | failure reason => simpa using Input.length_pos_of_next_eq_failure hnext
  | finished => simp [hnext] at h

end Mila
