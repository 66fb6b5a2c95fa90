import Mila.Code

/-! # Targets

Code is emitted through five operations, and whatever offers them can be compiled into. Code itself is
such a target.
-/

namespace Mila

/-- Something that code can be emitted into. -/
class Target (κ : Type) where
  /-- Adds a routine without blocks, and gives its number. -/
  addRoutine : κ → String → List String → Nat × κ
  /-- Adds an empty block to a routine, and gives its name. -/
  addBlock : κ → Nat → String → BlockRef × κ
  /-- Adds an operation at the end of a block, and gives the register it defines. -/
  define : κ → BlockRef → Operation → Register × κ
  /-- Adds a store at the end of a block. -/
  store : κ → BlockRef → Register → Register → κ
  /-- Sets the exit of a block. -/
  terminate : κ → BlockRef → Exit → κ

instance : Target Code where
  addRoutine := Code.addRoutine
  addBlock := Code.addBlock
  define := Code.define
  store := Code.store
  terminate := Code.terminate

end Mila
