import Mila.Code
import Mila.Machine.Memory

/-! # The machine

Running code. Every call has an activation of its own, with registers that hold a word or the address of
a cell, and whatever an activation allocates is released when it ends. `readln` takes words off the
input; the routines `writeln` and `printi`, which code only declares, append to the output. A call never
leaves its routine: of a block that an exit or a merge names, only the number counts.

Each instruction and each exit of a block takes one step, and a run has a limited number of steps. So a
bound on the steps that are left also bounds the recursion of `Machine.execute`, which gives up where
the bound is used up.
-/

namespace Mila

/-- How far a run may go. -/
structure Limits where
  steps : Nat := 10000000
  depth : Nat := 1024
  deriving DecidableEq, Repr

/-- What running code relies on and checked code may lack. -/
inductive Defect where
  | missingRoutine
  | missingBlock
  | missingExit
  | phiAtEntry
  | phiWithoutSource
  | notAWord
  | notAnAddress
  | missingRegister
  | missingArgument
  | releasedAllocation
  deriving DecidableEq, Repr

def Defect.message : Defect → String
  | missingRoutine => "call to a missing function"
  | missingBlock => "branch to a missing block"
  | missingExit => "block without terminator"
  | phiAtEntry => "phi in the entry block"
  | phiWithoutSource => "phi has no value for its predecessor"
  | notAWord => "expected an integer register"
  | notAnAddress => "expected an address register"
  | missingRegister => "register out of range"
  | missingArgument => "parameter out of range"
  | releasedAllocation => "address of a released stack slot"

/-- Why a run ended early. -/
inductive Fault where
  | missingEntryPoint
  | divisionByZero
  | outOfBounds
  | inputExhausted
  | unknownExternal (name : String)
  | callDepthExceeded (limit : Nat)
  | stepLimitExceeded (limit : Nat)
  | malformed (defect : Defect)
  deriving DecidableEq, Repr

def Fault.message : Fault → String
  | missingEntryPoint => "module has no `main` function"
  | divisionByZero => "division by zero"
  | outOfBounds => "memory access out of bounds"
  | inputExhausted => "`readln` ran out of input"
  | unknownExternal name => "call to undefined function `" ++ name ++ "`"
  | callDepthExceeded limit => "call depth exceeded " ++ toString limit
  | stepLimitExceeded limit => "step limit of " ++ toString limit ++ " exceeded"
  | malformed defect => "malformed module: " ++ defect.message

/-- What all activations of a run share. -/
structure Machine where
  /-- The words still to be read. -/
  input : List Word
  /-- The words written so far. -/
  output : Array Word
  /-- The allocations of all activations, the oldest first. -/
  memory : Array Cells
  /-- How many steps are left. -/
  steps : Nat

/-- A piece of a run, which leaves the machine behind also when it ends early. -/
abbrev Run := EStateM Fault Machine

/-- What a register holds. -/
inductive Content where
  | undefined
  | word (value : Word)
  | address (place : Address)
  deriving DecidableEq, Repr

/-- One call of a routine, at some place in its code. -/
structure Activation where
  routine : Routine
  args : List Word
  registers : Array Content
  /-- How many calls this one stands inside. -/
  depth : Nat
  /-- The block at hand. -/
  block : Nat
  /-- How many instructions of the block are done. -/
  done : Nat

namespace Activation

/-- A call that has not entered any block yet. -/
def start (routine : Routine) (args : List Word) (depth : Nat) : Activation :=
  ⟨routine, args, Array.replicate routine.registers .undefined, depth, 0, 0⟩

/-- The next instruction of the block at hand. -/
def instruction? (a : Activation) : Option Instruction := do
  (← a.routine.blocks[a.block]?).body[a.done]?

/-- The exit of the block at hand. -/
def exit? (a : Activation) : Option Exit := do (← a.routine.blocks[a.block]?).exit

/-- The word that a register holds. -/
def word (a : Activation) (r : Register) : Run Word :=
  match a.registers[r]? with
  | some (.word value) => pure value
  | _ => throw (.malformed .notAWord)

/-- The address that a register holds. -/
def address (a : Activation) (r : Register) : Run Address :=
  match a.registers[r]? with
  | some (.address place) => pure place
  | _ => throw (.malformed .notAnAddress)

/-- Sets a register. -/
def set (a : Activation) (r : Register) (content : Content) : Run Activation :=
  if r < a.registers.size then
    pure { a with registers := a.registers.setIfInBounds r content }
  else throw (.malformed .missingRegister)

/-- Sets several registers to words. -/
def setWords (a : Activation) : List (Register × Word) → Run Activation
  | [] => pure a
  | (r, value) :: rest => do
    let a ← a.set r (.word value)
    a.setWords rest

/-- The word that a merge takes when its block is entered from the block `origin`. -/
def merged (a : Activation) (origin : Option Nat) (incoming : List (Register × BlockRef)) :
    Run Word :=
  match origin with
  | none => throw (.malformed .phiAtEntry)
  | some origin =>
    match incoming.find? (fun entry => entry.2.block == origin) with
    | some (value, _) => a.word value
    | none => throw (.malformed .phiWithoutSource)

/-- Enters a block. Its merges all read the registers as they were before any of them was set. -/
def enter (a : Activation) (origin : Option Nat) (block : Nat) : Run Activation :=
  match a.routine.blocks[block]? with
  | none => throw (.malformed .missingBlock)
  | some b => do
    let values ← b.leadingPhis.mapM fun (target, incoming) => do
      return (target, ← a.merged origin incoming)
    let a ← a.setWords values
    return { a with block, done := 0 }

end Activation

namespace Machine

/-- Takes one step. -/
def tick (limits : Limits) : Run Unit := fun m =>
  match m.steps with
  | 0 => .error (.stepLimitExceeded limits.steps) m
  | steps + 1 => .ok () { m with steps }

/-- Makes fresh cells, and gives the address of the first one. -/
def allocate (count : Nat) : Run Address :=
  modifyGet fun m => (⟨m.memory.size, 0⟩, { m with memory := m.memory.push (.zeros count) })

/-- The cell at an address. -/
def read (place : Address) : Run Word := fun m =>
  match m.memory[place.allocation]? with
  | none => .error (.malformed .releasedAllocation) m
  | some cells =>
    match cells.get? place.index with
    | none => .error .outOfBounds m
    | some value => .ok value m

/-- Writes to the cell at an address. -/
def write (place : Address) (value : Word) : Run Unit := fun m =>
  match m.memory[place.allocation]? with
  | none => .error (.malformed .releasedAllocation) m
  | some cells =>
    match cells.set? place.index value with
    | none => .error .outOfBounds m
    | some cells => .ok () { m with memory := m.memory.setIfInBounds place.allocation cells }

/-- Takes a word off the input. -/
def readInput : Run Word := fun m =>
  match m.input with
  | [] => .error .inputExhausted m
  | value :: input => .ok value { m with input }

/-- Appends a word to the output. -/
def writeOutput (value : Word) : Run Unit :=
  modify fun m => { m with output := m.output.push value }

/-- Releases, at the end of a run, what was allocated during it. -/
def releasing {α : Type} (body : Run α) : Run α := fun m =>
  let mark := m.memory.size
  match body m with
  | .ok a after => .ok a { after with memory := after.memory.shrink mark }
  | .error fault after => .error fault { after with memory := after.memory.shrink mark }

/-- Calls a routine that is only declared. -/
def external (name : String) (args : List Word) : Run Word :=
  match name, args with
  | "writeln", [value] | "printi", [value] => do
    writeOutput value
    return 0
  | _, _ => throw (.unknownExternal name)

/-- Calls a routine, given how to execute an activation. -/
def invoke (code : Code) (limits : Limits) (execute : Activation → Run Word) (callee : Nat)
    (args : List Word) (depth : Nat) : Run Word :=
  match code.routines[callee]? with
  | none => throw (.malformed .missingRoutine)
  | some routine =>
    if routine.isExternal then external routine.name args
    else if limits.depth ≤ depth then throw (.callDepthExceeded limits.depth)
    else releasing do
      let a ← (Activation.start routine args depth).enter none 0
      execute a

/-- The word that an intrinsic leaves in the cell it works on. -/
def intrinsicValue (a : Activation) (address : Register) : Intrinsic → Run Word
  | .readln => readInput
  | .inc => do return (← read (← a.address address)) + 1
  | .dec => do return (← read (← a.address address)) - 1

/-- Does an intrinsic, which yields the word it leaves behind. -/
def intrinsic (a : Activation) (address : Register) (which : Intrinsic) : Run Word := do
  let value ← intrinsicValue a address which
  write (← a.address address) value
  return value

/-- What an operation yields, given how to call a routine. A merge yields nothing any more: it was made
when its block was entered. -/
def evaluate (call : Nat → List Word → Run Word) (a : Activation) : Operation → Run (Option Content)
  | .const value => return some (.word value)
  | .param index =>
    match a.args[index]? with
    | some value => return some (.word value)
    | none => throw (.malformed .missingArgument)
  | .alloca count => do return some (.address (← allocate count))
  | .offset base distance => do
    let place ← a.address base
    let distance ← a.word distance
    return some (.address { place with index := place.index + distance.toInt })
  | .load address => do return some (.word (← read (← a.address address)))
  | .arith op lhs rhs => do
    let lhs ← a.word lhs
    let rhs ← a.word rhs
    match op.eval? lhs rhs with
    | some value => return some (.word value)
    | none => throw .divisionByZero
  | .compare op lhs rhs => do
    let lhs ← a.word lhs
    let rhs ← a.word rhs
    return some (.word (.ofBool (op.holds lhs rhs)))
  | .call callee args => do
    let args ← args.mapM a.word
    return some (.word (← call callee args))
  | .intrinsic which address => do return some (.word (← intrinsic a address which))
  | .phi _ => return none

/-- Does one instruction, given how to call a routine. -/
def perform (call : Nat → List Word → Run Word) (a : Activation) : Instruction → Run Activation
  | .define target op => do
    match ← evaluate call a op with
    | some content => a.set target content
    | none => return a
  | .store value address => do
    let value ← a.word value
    write (← a.address address) value
    return a

/-- Executes an activation to its end, in at most `n` steps. -/
def execute (code : Code) (limits : Limits) : Nat → Activation → Run Word
  | 0, _ => throw (.stepLimitExceeded limits.steps)
  | n + 1, a => do
    tick limits
    match a.instruction? with
    | some instruction =>
      let call callee args := invoke code limits (execute code limits n) callee args (a.depth + 1)
      let a ← perform call a instruction
      execute code limits n { a with done := a.done + 1 }
    | none =>
      match a.exit? with
      | some (.jump target) =>
        let a ← a.enter (some a.block) target.block
        execute code limits n a
      | some (.branch condition thenBlock elseBlock) =>
        let condition ← a.word condition
        let target := if condition.isTrue then thenBlock else elseBlock
        let a ← a.enter (some a.block) target.block
        execute code limits n a
      | some (.ret value) => a.word value
      | none => throw (.malformed .missingExit)

end Machine

/-- How a run ended: what the entry point returned, and what was written. -/
structure Outcome where
  exitCode : Word
  output : List Word
  deriving DecidableEq, Repr

namespace Code

/-- The routine that a run starts with. -/
def entryPoint : String := "main"

/-- Runs code from its entry point on. -/
def run (code : Code) (input : List Word) (limits : Limits) : Except Fault Outcome :=
  match code.find? entryPoint with
  | none => .error .missingEntryPoint
  | some main =>
    let machine : Machine := ⟨input, #[], #[], limits.steps⟩
    match Machine.invoke code limits (Machine.execute code limits limits.steps) main [] 0 machine with
    | .ok exitCode after => .ok ⟨exitCode, after.output.toList⟩
    | .error fault _ => .error fault

end Code

end Mila
