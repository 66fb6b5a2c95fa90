import Mila.Word

/-! # Program trees

The shape of a Mila program. One type of node serves declarations, statements and expressions alike:
each of them stands for a piece of code that may yield a value.
-/

namespace Mila

/-- The operators that join two operands; assignment is one of them. -/
inductive BinaryOperator where
  | assign
  | add
  | sub
  | mul
  | div
  | mod
  | lt
  | le
  | gt
  | ge
  | eq
  | ne
  | and
  | or
  deriving DecidableEq, Repr

def BinaryOperator.label : BinaryOperator → String
  | assign => "Assign"
  | add => "Add"
  | sub => "Sub"
  | mul => "Mul"
  | div => "Div"
  | mod => "Mod"
  | lt => "Lt"
  | le => "Le"
  | gt => "Gt"
  | ge => "Ge"
  | eq => "Eq"
  | ne => "Ne"
  | and => "And"
  | or => "Or"

/-- Which way a `for` loop counts. -/
inductive Direction where
  | up
  | down
  deriving DecidableEq, Repr

namespace Direction

def text : Direction → String
  | up => "to"
  | down => "downto"

/-- What is added to the loop variable after each round. -/
def step : Direction → Word
  | up => 1
  | down => -1

end Direction

/-- The statements that work on a variable directly. -/
inductive Intrinsic where
  | readln
  | inc
  | dec
  deriving DecidableEq, Repr

def Intrinsic.text : Intrinsic → String
  | readln => "readln"
  | inc => "inc"
  | dec => "dec"

/-- A function yields a value; a procedure does not. -/
inductive SubprogramKind where
  | function
  | procedure
  deriving DecidableEq, Repr

def SubprogramKind.text : SubprogramKind → String
  | function => "function"
  | procedure => "procedure"

/-- The heading of a function or procedure. -/
structure Prototype where
  kind : SubprogramKind
  name : String
  params : List String
  deriving DecidableEq, Repr

/-- Storage under a name: `length` cells for an array, whose element `i` is cell `i + offset`, or one
cell for a plain variable, which has length zero. -/
structure VariableDecl where
  name : String
  offset : Word
  length : Nat
  deriving DecidableEq, Repr

namespace VariableDecl

def scalar (name : String) : VariableDecl := ⟨name, 0, 0⟩

/-- The array with the indices `low` to `high`. There is none if the range is empty, or if it starts at
the least word, which has no opposite to serve as the offset. -/
def array? (name : String) (low high : Word) : Option VariableDecl :=
  if low ≤ high ∧ low ≠ Int32.minValue then
    some ⟨name, -low, (high.toInt - low.toInt + 1).toNat⟩
  else none

def isArray (d : VariableDecl) : Bool := d.length != 0

/-- The first and the last index. A last index beyond the greatest word is cut down to it. -/
def bounds (d : VariableDecl) : Word × Word :=
  let low := -d.offset
  let high := low.toInt + d.length - 1
  (low, if Int32.minValue.toInt ≤ high ∧ high ≤ Int32.maxValue.toInt then Int32.ofInt high
    else Int32.maxValue)

/-- The first and the last index, if the offset has an opposite to be the first one. -/
def bounds? (d : VariableDecl) : Option (Word × Word) :=
  if d.offset = Int32.minValue then none else some d.bounds

end VariableDecl

/-- A node of a program tree. -/
inductive Node where
  | number (value : Word)
  | constantDecl (name : String) (value : Word)
  | variableDecl (decl : VariableDecl)
  | ident (name : String)
  | element (name : String) (index : Node)
  | binary (op : BinaryOperator) (lhs rhs : Node)
  | conditional (condition thenArm elseArm : Node)
  | whileLoop (condition body : Node)
  | forLoop (name : String) (direction : Direction) (start stop body : Node)
  | call (callee : String) (args : List Node)
  | intrinsic (which : Intrinsic) (name : String)
  | exit
  | forward (prototype : Prototype)
  | subprogram (prototype : Prototype) (body : List Node)
  | block (nodes : List Node)
  deriving Repr

/-- A whole program: its declarations in order, and the block that runs. -/
structure Program where
  name : String
  declarations : List Node
  body : Node
  deriving Repr

end Mila
