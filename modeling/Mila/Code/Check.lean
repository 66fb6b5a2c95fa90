import Mila.Code

/-! # Checking code

Code is complete when every block has an exit and makes its merges of values before anything else.
-/

namespace Mila

/-- What is wrong with a block; blocks are reported by their labels. -/
inductive CodeError where
  | unterminated (routine label : String)
  | misplacedPhi (routine label : String)
  deriving DecidableEq, Repr

def CodeError.message : CodeError → String
  | unterminated routine label => "block `" ++ label ++ "` in `" ++ routine ++ "` has no terminator"
  | misplacedPhi routine label =>
    "phi in block `" ++ label ++ "` of `" ++ routine ++ "` follows another instruction"

/-- Whether no merge of values follows another instruction. -/
def Block.phisLead (b : Block) : Bool :=
  (b.body.toList.dropWhile Instruction.isPhi).all (fun i => !i.isPhi)

def Block.check (b : Block) (routine : String) : Except CodeError Unit :=
  if b.exit.isNone then .error (.unterminated routine b.label)
  else if !b.phisLead then .error (.misplacedPhi routine b.label)
  else .ok ()

def Routine.check (r : Routine) : Except CodeError Unit := r.blocks.toList.forM (·.check r.name)

/-- Reports the first faulty block, routine by routine. -/
def Code.check (c : Code) : Except CodeError Unit := c.routines.toList.forM Routine.check

end Mila
