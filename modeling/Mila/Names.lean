import Mila.Code
import Std.Data.TreeMap

/-! # Names

Names live on two levels: constants and subprograms belong to the whole program, variables and
parameters to one subprogram. There is no scope smaller than a subprogram, except that a `for` loop
holds on to its variable while its body is compiled.
-/

namespace Mila

/-- A finite map from names. -/
abbrev NameTable (α : Type) := Std.TreeMap String α

/-- Whether a variable is one cell or an array of cells. -/
inductive Shape where
  | scalar
  | array
  deriving DecidableEq, Repr

/-- Where a variable is kept. The slot of an array is the address of the cell with index zero, which
need not be one of its cells. -/
structure Binding where
  slot : Register
  shape : Shape
  deriving DecidableEq, Repr

/-- What is known of a function or procedure. -/
structure Subprogram where
  routine : Nat
  arity : Nat
  /-- Whether the body has been seen, and not only a `forward` declaration. -/
  isDefined : Bool
  deriving DecidableEq, Repr

/-- The names of the whole program. -/
structure Globals where
  constants : NameTable Word
  subprograms : NameTable Subprogram

namespace Globals

def empty : Globals := ⟨∅, ∅⟩

/-- The greatest number of names for which room can be asked ahead: a table for more of them could not be
addressed. -/
def maxCapacity : Nat := 0x380000000000000

/-- No names yet, but room for some. The room shows in nothing, except that it may be too large. -/
def withCapacity? (capacity : Nat) : Option Globals :=
  if capacity ≤ maxCapacity then some empty else none

def constant? (g : Globals) (name : String) : Option Word := g.constants[name]?

def subprogram? (g : Globals) (name : String) : Option Subprogram := g.subprograms[name]?

/-- Defines a constant, unless there is one of that name. -/
def defineConstant? (g : Globals) (name : String) (value : Word) : Option Globals :=
  match g.constant? name with
  | some _ => none
  | none => some { g with constants := g.constants.insert name value }

/-- Enters a subprogram, in place of what was known of it before. -/
def register (g : Globals) (name : String) (entry : Subprogram) : Globals :=
  { g with subprograms := g.subprograms.insert name entry }

end Globals

/-- The variables of one subprogram. -/
structure Locals where
  bindings : NameTable Binding

namespace Locals

def empty : Locals := ⟨∅⟩

def get? (l : Locals) (name : String) : Option Binding := l.bindings[name]?

/-- Declares a variable, unless there is one of that name. -/
def declare? (l : Locals) (name : String) (binding : Binding) : Option Locals :=
  match l.get? name with
  | some _ => none
  | none => some ⟨l.bindings.insert name binding⟩

/-- Binds a name for a while, and gives the binding that it had. -/
def shadow (l : Locals) (name : String) (binding : Binding) : Option Binding × Locals :=
  (l.get? name, ⟨l.bindings.insert name binding⟩)

/-- Gives a name back the binding it had, or none. -/
def restore (l : Locals) (name : String) : Option Binding → Locals
  | some binding => ⟨l.bindings.insert name binding⟩
  | none => ⟨l.bindings.erase name⟩

end Locals

end Mila
