import Mila.Code

/-! # Listings

Code as text. A block is written as its label and its number, and a routine that is called as its name.
Where a block is named, only its number counts: the block meant is that of the routine at hand.
-/

namespace Mila

namespace Routine

/-- How a block of the routine is written where it is named. -/
def blockText (r : Routine) (place : BlockRef) : String :=
  match r.blocks[place.block]? with
  | some b => b.label ++ "." ++ toString place.block
  | none => "." ++ toString place.block

end Routine

namespace Code

/-- How a routine is written where it is called. -/
def routineText (c : Code) (routine : Nat) : String :=
  match c.routines[routine]? with
  | some r => r.name
  | none => ""

/-- The text of an operation in the routine `r`. -/
def operationText (c : Code) (r : Routine) : Operation → String
  | .const value => "const " ++ toString value.toInt
  | .param index => "param " ++ toString index
  | .alloca count => "alloca " ++ toString count
  | .offset base distance => "offset " ++ base.text ++ ", " ++ distance.text
  | .load address => "load " ++ address.text
  | .arith op lhs rhs => op.mnemonic ++ " " ++ lhs.text ++ ", " ++ rhs.text
  | .compare op lhs rhs => "cmp " ++ op.mnemonic ++ " " ++ lhs.text ++ ", " ++ rhs.text
  | .call callee args =>
    "call " ++ c.routineText callee ++ "(" ++ ", ".intercalate (args.map Register.text) ++ ")"
  | .intrinsic which address => "intrinsic " ++ which.text ++ "(" ++ address.text ++ ")"
  | .phi incoming =>
    "phi " ++ ", ".intercalate
      (incoming.map fun (value, origin) => "[" ++ value.text ++ ", " ++ r.blockText origin ++ "]")

def instructionText (c : Code) (r : Routine) : Instruction → String
  | .define target op => target.text ++ " = " ++ c.operationText r op
  | .store value address => "store " ++ value.text ++ ", " ++ address.text

end Code

namespace Routine

def exitText (r : Routine) : Option Exit → String
  | some (.jump target) => "jump " ++ r.blockText target
  | some (.branch condition thenBlock elseBlock) =>
    "branch " ++ condition.text ++ ", " ++ r.blockText thenBlock ++ ", " ++ r.blockText elseBlock
  | some (.ret value) => "ret " ++ value.text
  | none => "<unterminated>"

end Routine

namespace Code

/-- The lines of the block with the given number. -/
def blockLines (c : Code) (r : Routine) (block : Block × Nat) : List String :=
  (block.1.label ++ "." ++ toString block.2 ++ ":") ::
    (block.1.body.toList.map fun i => "  " ++ c.instructionText r i) ++
    ["  " ++ r.exitText block.1.exit]

/-- The lines of a routine. -/
def routineLines (c : Code) (r : Routine) : List String :=
  let heading := r.name ++ "(" ++ ", ".intercalate r.params ++ ")"
  if r.isExternal then ["declare " ++ heading]
  else
    ("define " ++ heading ++ " \x7b") :: (r.blocks.toList.zipIdx.map (c.blockLines r)).flatten ++
      ["\x7d"]

/-- The lines of all routines, with an empty one between neighbours. -/
def lines (c : Code) : List String :=
  [""].intercalate (c.routines.toList.map c.routineLines)

/-- The text of the code. -/
def listing (c : Code) : String := String.join (c.lines.map (· ++ "\n"))

/-! ## Code that can be listed

The listing of code that names a block or a routine it does not have is of no use. -/

/-- The routines that an operation calls. -/
def callees : Operation → List Nat
  | .call callee _ => [callee]
  | _ => []

/-- The blocks that an operation names. -/
def sources : Operation → List BlockRef
  | .phi incoming => incoming.map Prod.snd
  | _ => []

/-- The blocks that an exit leads to. -/
def targets : Option Exit → List BlockRef
  | some (.jump target) => [target]
  | some (.branch _ thenBlock elseBlock) => [thenBlock, elseBlock]
  | _ => []

/-- Whether the block names only blocks of its routine and routines of the code. -/
def isClosedBlock (c : Code) (r : Routine) (b : Block) : Bool :=
  (b.body.all fun
    | .define _ op =>
      (callees op).all (· < c.routines.size) && (sources op).all (·.block < r.blocks.size)
    | .store _ _ => true) &&
  (targets b.exit).all (·.block < r.blocks.size)

/-- Whether the code names only blocks and routines that it has. -/
def isClosed (c : Code) : Bool := c.routines.all fun r => r.blocks.all (c.isClosedBlock r)

/-- The text of code that names only what it has. -/
def listing? (c : Code) : Option String := if c.isClosed then some c.listing else none

end Code

end Mila
