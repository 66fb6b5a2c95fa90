/-! # Words

The one data type of a Mila program is the signed 32-bit integer. Arithmetic wraps around; division
truncates towards zero and is undefined for a zero divisor.
-/

namespace Mila

/-- A signed 32-bit integer. -/
abbrev Word := Int32

namespace Word

/-- The word that stands for a truth value. -/
def ofBool (b : Bool) : Word := if b then 1 else 0

/-- A word counts as true unless it is zero. -/
def isTrue (w : Word) : Bool := w != 0

end Word

/-- The two-operand instructions on words; `and` and `or` work bit by bit. -/
inductive Arithmetic where
  | add
  | sub
  | mul
  | div
  | rem
  | and
  | or
  deriving DecidableEq, Repr

namespace Arithmetic

def mnemonic : Arithmetic → String
  | add => "add"
  | sub => "sub"
  | mul => "mul"
  | div => "div"
  | rem => "rem"
  | and => "and"
  | or => "or"

/-- The result of an operation, which only a zero divisor leaves undefined. -/
def eval? : Arithmetic → Word → Word → Option Word
  | add, a, b => some (a + b)
  | sub, a, b => some (a - b)
  | mul, a, b => some (a * b)
  | div, a, b => if b = 0 then none else some (a / b)
  | rem, a, b => if b = 0 then none else some (a % b)
  | and, a, b => some (a &&& b)
  | or, a, b => some (a ||| b)

end Arithmetic

/-- The six comparisons of words. -/
inductive Comparison where
  | lt
  | le
  | gt
  | ge
  | eq
  | ne
  deriving DecidableEq, Repr

namespace Comparison

def mnemonic : Comparison → String
  | lt => "lt"
  | le => "le"
  | gt => "gt"
  | ge => "ge"
  | eq => "eq"
  | ne => "ne"

def holds : Comparison → Word → Word → Bool
  | lt, a, b => decide (a < b)
  | le, a, b => decide (a ≤ b)
  | gt, a, b => decide (b < a)
  | ge, a, b => decide (b ≤ a)
  | eq, a, b => a == b
  | ne, a, b => a != b

end Comparison

end Mila
