/-! # ASCII bytes

Classes of single bytes. Every byte above 127 is outside all of them.
-/

namespace Mila.Ascii

/-- Space, tab, line feed, form feed and carriage return separate tokens; the vertical tab does not. -/
def isBlank (b : UInt8) : Bool :=
  b == 0x20 || b == 0x09 || b == 0x0A || b == 0x0C || b == 0x0D

def isLetter (b : UInt8) : Bool := (Char.ofUInt8 b).isAlpha

def isDigit (b : UInt8) : Bool := (Char.ofUInt8 b).isDigit

def isAlphanumeric (b : UInt8) : Bool := (Char.ofUInt8 b).isAlphanum

/-- The bytes that may follow the first letter of a name. -/
def isNameByte (b : UInt8) : Bool := isAlphanumeric b || Char.ofUInt8 b == '_'

/-- The value of a digit or letter in positional notation: letters of either case go on after nine. -/
def digitValue (b : UInt8) : Nat :=
  if isDigit b then b.toNat - '0'.toNat
  else if (Char.ofUInt8 b).isLower then b.toNat - 'a'.toNat + 10
  else b.toNat - 'A'.toNat + 10

/-- The value of a byte as a digit of the given radix. -/
def digit? (radix : Nat) (b : UInt8) : Option Nat :=
  if isAlphanumeric b && digitValue b < radix then some (digitValue b) else none

/-- The text spelled by a run of ASCII bytes. -/
def text (bytes : List UInt8) : String := String.ofList (bytes.map Char.ofUInt8)

end Mila.Ascii
