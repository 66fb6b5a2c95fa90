import Mila.Tree
import Mila.Word

/-! # Code

What programs are turned into: routines made of labelled blocks. Inside a routine every instruction that
yields something defines a register of its own, and registers are numbered in the order in which they
are defined. Blocks are numbered in the order in which they are added, and the first one is where a
call begins. A routine without blocks is only declared; what it does is up to the machine.
-/

namespace Mila

/-- The number of a register within its routine. -/
abbrev Register := Nat

/-- How a register is written. -/
def Register.text (r : Register) : String := "%" ++ toString r

/-- The name of a block: the number of its routine, and its own number in there. -/
structure BlockRef where
  routine : Nat
  block : Nat
  deriving DecidableEq, Repr

/-- What yields the content of a register. Routines are named by their numbers. -/
inductive Operation where
  | const (value : Word)
  | param (index : Nat)
  | alloca (count : Nat)
  | offset (base distance : Register)
  | load (address : Register)
  | arith (op : Arithmetic) (lhs rhs : Register)
  | compare (op : Comparison) (lhs rhs : Register)
  | call (callee : Nat) (args : List Register)
  | intrinsic (which : Intrinsic) (address : Register)
  | phi (incoming : List (Register × BlockRef))
  deriving DecidableEq, Repr

/-- One step of a block. -/
inductive Instruction where
  | define (target : Register) (operation : Operation)
  | store (value address : Register)
  deriving DecidableEq, Repr

/-- The register that an instruction defines. -/
def Instruction.target? : Instruction → Option Register
  | define target _ => some target
  | store _ _ => none

/-- The merge of values that an instruction makes, with the register it defines. -/
def Instruction.phi? : Instruction → Option (Register × List (Register × BlockRef))
  | define target (.phi incoming) => some (target, incoming)
  | _ => none

def Instruction.isPhi (i : Instruction) : Bool := i.phi?.isSome

/-- How a block is left. -/
inductive Exit where
  | jump (target : BlockRef)
  | branch (condition : Register) (thenBlock elseBlock : BlockRef)
  | ret (value : Register)
  deriving DecidableEq, Repr

/-- A straight run of instructions. A block still under construction has no exit. -/
structure Block where
  label : String
  body : Array Instruction
  exit : Option Exit
  deriving DecidableEq, Repr

namespace Block

def empty (label : String) : Block := ⟨label, #[], none⟩

def push (b : Block) (i : Instruction) : Block := { b with body := b.body.push i }

def terminate (b : Block) (e : Exit) : Block := { b with exit := some e }

/-- The merges of values that the block starts with. -/
def leadingPhis (b : Block) : List (Register × List (Register × BlockRef)) :=
  (b.body.takeWhile Instruction.isPhi).toList.filterMap Instruction.phi?

end Block

/-- A callable piece of code. -/
structure Routine where
  name : String
  params : List String
  blocks : Array Block
  /-- How many registers are defined so far. -/
  registers : Nat
  deriving DecidableEq, Repr

namespace Routine

def empty (name : String) (params : List String) : Routine := ⟨name, params, #[], 0⟩

/-- A routine without blocks is only declared. -/
def isExternal (r : Routine) : Bool := r.blocks.isEmpty

def addBlock (r : Routine) (label : String) : Routine :=
  { r with blocks := r.blocks.push (.empty label) }

/-- Adds an instruction at the end of a block. -/
def push (r : Routine) (block : Nat) (i : Instruction) : Routine :=
  { r with blocks := r.blocks.modify block (·.push i) }

/-- Defines the next register at the end of a block. -/
def define (r : Routine) (block : Nat) (op : Operation) : Routine :=
  { r.push block (.define r.registers op) with registers := r.registers + 1 }

/-- Sets the exit of a block. -/
def terminate (r : Routine) (block : Nat) (e : Exit) : Routine :=
  { r with blocks := r.blocks.modify block (·.terminate e) }

end Routine

/-- A collection of routines that call one another. -/
structure Code where
  routines : Array Routine
  deriving DecidableEq, Repr

namespace Code

def empty : Code := ⟨#[]⟩

/-- The number of the first routine with the given name. -/
def find? (c : Code) (name : String) : Option Nat := c.routines.findIdx? (fun r => r.name == name)

def modify (c : Code) (routine : Nat) (f : Routine → Routine) : Code :=
  ⟨c.routines.modify routine f⟩

/-- How many registers a routine has. -/
def registersOf (c : Code) (routine : Nat) : Nat :=
  match c.routines[routine]? with
  | some r => r.registers
  | none => 0

/-- How many blocks a routine has. -/
def blocksOf (c : Code) (routine : Nat) : Nat :=
  match c.routines[routine]? with
  | some r => r.blocks.size
  | none => 0

/-- Adds a routine without blocks, and gives its number. -/
def addRoutine (c : Code) (name : String) (params : List String) : Nat × Code :=
  (c.routines.size, ⟨c.routines.push (.empty name params)⟩)

/-- Adds an empty block to a routine, and gives its name. -/
def addBlock (c : Code) (routine : Nat) (label : String) : BlockRef × Code :=
  (⟨routine, c.blocksOf routine⟩, c.modify routine (·.addBlock label))

/-- Adds an operation at the end of a block, and gives the register it defines. -/
def define (c : Code) (place : BlockRef) (op : Operation) : Register × Code :=
  (c.registersOf place.routine, c.modify place.routine (·.define place.block op))

/-- Adds a store at the end of a block. -/
def store (c : Code) (place : BlockRef) (value address : Register) : Code :=
  c.modify place.routine (·.push place.block (.store value address))

/-- Sets the exit of a block. -/
def terminate (c : Code) (place : BlockRef) (e : Exit) : Code :=
  c.modify place.routine (·.terminate place.block e)

end Code

end Mila
