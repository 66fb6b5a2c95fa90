import Mila.Code

/-! # Building code by hand

A builder holds code and the place where instructions go. As long as no such place has been chosen,
nothing can be emitted.
-/

namespace Mila

/-- Code under construction. -/
structure Builder where
  code : Code
  /-- The block that instructions are added to. -/
  cursor : Option BlockRef
  deriving DecidableEq, Repr

namespace Builder

def empty : Builder := ⟨.empty, none⟩

def addRoutine (b : Builder) (name : String) (params : List String) : Nat × Builder :=
  let (routine, code) := b.code.addRoutine name params
  (routine, { b with code })

def addBlock (b : Builder) (routine : Nat) (label : String) : BlockRef × Builder :=
  let (place, code) := b.code.addBlock routine label
  (place, { b with code })

/-- Chooses the block that instructions are added to from now on. -/
def moveTo (b : Builder) (place : BlockRef) : Builder := { b with cursor := some place }

/-- Emits an operation, and gives the register it defines. -/
def define? (b : Builder) (op : Operation) : Option (Register × Builder) := do
  let place ← b.cursor
  let (register, code) := b.code.define place op
  return (register, { b with code })

def store? (b : Builder) (value address : Register) : Option Builder := do
  let place ← b.cursor
  return { b with code := b.code.store place value address }

/-- Sets the exit of the block at hand, in place of the one it may have. -/
def terminate? (b : Builder) (e : Exit) : Option Builder := do
  let place ← b.cursor
  return { b with code := b.code.terminate place e }

end Builder

end Mila
