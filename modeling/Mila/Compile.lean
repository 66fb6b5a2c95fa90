import Mila.Code.Target
import Mila.Machine
import Mila.Names
import Mila.Tree.Parse

/-! # Compiling

Turning program trees into code. Every routine has an `entry` block, where a call begins, and a `return`
block, which is the only one that returns. The program itself becomes the routine `main`.

Compiling stops at the first rule on names that is broken; the code emitted up to there is kept.
-/

namespace Mila

/-- What a name that is declared twice was meant to be. -/
inductive SymbolKind where
  | constant
  | variable
  | parameter
  deriving DecidableEq, Repr

def SymbolKind.text : SymbolKind → String
  | .constant => "constant"
  | .variable => "variable"
  | .parameter => "parameter"

/-- A broken rule on names. -/
inductive ScopeError where
  | redeclaration (kind : SymbolKind) (name : String)
  | unknownIdentifier (name : String)
  | unknownFunction (name : String)
  | argumentCountMismatch (name : String) (expected actual : Nat)
  | invalidAssignmentTarget
  | assignToConstant (name : String)
  | invalidLoopVariable (name : String)
  | notAnArray (name : String)
  | missingIndex (name : String)
  | functionRedefinition (name : String)
  | signatureMismatch (name : String) (declared actual : Nat)
  deriving DecidableEq, Repr

def ScopeError.message : ScopeError → String
  | redeclaration kind name => kind.text ++ " `" ++ name ++ "` is already declared"
  | unknownIdentifier name => "unknown identifier `" ++ name ++ "`"
  | unknownFunction name => "unknown function `" ++ name ++ "`"
  | argumentCountMismatch name expected actual =>
    "`" ++ name ++ "` takes " ++ toString expected ++ " argument(s) but " ++ toString actual ++
      " were supplied"
  | invalidAssignmentTarget => "invalid assignment target"
  | assignToConstant name => "cannot assign to constant `" ++ name ++ "`"
  | invalidLoopVariable name => "loop variable `" ++ name ++ "` must be an integer variable"
  | notAnArray name => "`" ++ name ++ "` is not an array"
  | missingIndex name => "array `" ++ name ++ "` used without an index"
  | functionRedefinition name => "function `" ++ name ++ "` is already defined"
  | signatureMismatch name declared actual =>
    "`" ++ name ++ "` was declared with " ++ toString declared ++ " parameter(s) but has " ++
      toString actual

namespace Direction

/-- The test of a loop before its first round, on the variable and the bound. -/
def entryTest : Direction → Comparison
  | up => .le
  | down => .ge

/-- The test of a loop after a round, on the value that the variable stepped from and the bound. -/
def repeatTest : Direction → Comparison
  | up => .lt
  | down => .gt

end Direction

/-- The routine being compiled. -/
structure Frame where
  routine : Nat
  /-- The block that instructions are added to. -/
  block : BlockRef
  returnBlock : BlockRef
  /-- The name of the variable that holds the result, for a function. -/
  resultName : Option String
  locals : Locals
  /-- The values carried to the return block and the blocks they come from, in order. -/
  returns : List (Register × BlockRef)

/-- A compilation under way, into a target of type `κ`. -/
structure Compilation (κ : Type) where
  code : κ
  globals : Globals
  frame : Frame

/-- A step of a compilation, which leaves behind what was emitted also when it fails. -/
abbrev Emit (κ : Type) := EStateM ScopeError (Compilation κ)

namespace Emit

variable {κ : Type} [Target κ]

/-! ## Emitting code -/

/-- Adds an operation to the block at hand, and gives the register it defines. -/
def define (op : Operation) : Emit κ Register := modifyGet fun s =>
  let (register, code) := Target.define s.code s.frame.block op
  (register, { s with code })

def const (value : Word) : Emit κ Register := define (.const value)

def store (value slot : Register) : Emit κ Unit := modify fun s =>
  { s with code := Target.store s.code s.frame.block value slot }

/-- Ends the block at hand. -/
def terminate (e : Exit) : Emit κ Unit := modify fun s =>
  { s with code := Target.terminate s.code s.frame.block e }

/-- Adds an empty block to the routine at hand. -/
def addBlock (label : String) : Emit κ BlockRef := modifyGet fun s =>
  let (block, code) := Target.addBlock s.code s.frame.routine label
  (block, { s with code })

/-- Goes on in the given block. -/
def moveTo (block : BlockRef) : Emit κ Unit := modify fun s => { s with frame := { s.frame with block } }

/-- The block at hand. -/
def currentBlock : Emit κ BlockRef := do return (← get).frame.block

/-- The value of a piece of code, which is zero if it yields none. -/
def valueOf (node : Emit κ (Option Register)) : Emit κ Register := do
  match ← node with
  | some value => return value
  | none => const 0

/-- One if the value is not zero, and zero otherwise. -/
def booleanize (value : Register) : Emit κ Register := do
  let nought ← const 0
  define (.compare .ne value nought)

/-! ## Names -/

/-- What an identifier stands for. -/
inductive Meaning where
  | variable (binding : Binding)
  | constant (value : Word)

/-- A name means a variable of the subprogram at hand, or else a constant. -/
def resolve (name : String) : Emit κ Meaning := do
  let s ← get
  match s.frame.locals.get? name with
  | some binding => return .variable binding
  | none =>
    match s.globals.constant? name with
    | some value => return .constant value
    | none => throw (.unknownIdentifier name)

/-- The slot of a plain variable that may be written to. -/
def scalarSlot (name : String) : Emit κ Register := do
  match ← resolve name with
  | .variable ⟨slot, .scalar⟩ => return slot
  | .variable ⟨_, .array⟩ => throw (.missingIndex name)
  | .constant _ => throw (.assignToConstant name)

/-- The slot of an array element. -/
def elementSlot (name : String) (index : Emit κ Register) : Emit κ Register := do
  match ← resolve name with
  | .variable ⟨slot, .array⟩ =>
    let index ← index
    define (.offset slot index)
  | _ => throw (.notAnArray name)

/-- The value of a name that stands for itself. -/
def readName (name : String) : Emit κ Register := do
  match ← resolve name with
  | .variable ⟨slot, .scalar⟩ => define (.load slot)
  | .variable ⟨_, .array⟩ => throw (.missingIndex name)
  | .constant value => const value

def declareConstant (name : String) (value : Word) : Emit κ Unit := do
  match (← get).globals.defineConstant? name value with
  | some globals => modify fun s => { s with globals }
  | none => throw (.redeclaration .constant name)

/-- Enters a variable of the subprogram at hand. -/
def declare (kind : SymbolKind) (name : String) (binding : Binding) : Emit κ Unit := do
  match (← get).frame.locals.declare? name binding with
  | some locals => modify fun s => { s with frame := { s.frame with locals } }
  | none => throw (.redeclaration kind name)

/-- Makes room for a variable, and enters it. -/
def declareVariable (d : VariableDecl) : Emit κ Unit := do
  if d.isArray then
    let cells ← define (.alloca d.length)
    let bias ← const d.offset
    let slot ← define (.offset cells bias)
    declare .variable d.name ⟨slot, .array⟩
  else
    let slot ← define (.alloca 1)
    declare .variable d.name ⟨slot, .scalar⟩

/-! ## Expressions and statements

Each construct is given the compilation of its parts. -/

/-- An assignment: the value comes before the place it goes to, and is what the assignment yields. -/
def assignment (value slot : Emit κ Register) : Emit κ Register := do
  let value ← value
  let slot ← slot
  store value slot
  return value

/-- The operation of an operator on two values; the logical ones work on truth values. -/
def combine (op : BinaryOperator) (lhs rhs : Register) : Emit κ Register :=
  match op with
  | .add => define (.arith .add lhs rhs)
  | .sub => define (.arith .sub lhs rhs)
  | .mul => define (.arith .mul lhs rhs)
  | .div => define (.arith .div lhs rhs)
  | .mod => define (.arith .rem lhs rhs)
  | .lt => define (.compare .lt lhs rhs)
  | .le => define (.compare .le lhs rhs)
  | .gt => define (.compare .gt lhs rhs)
  | .ge => define (.compare .ge lhs rhs)
  | .eq => define (.compare .eq lhs rhs)
  | .ne => define (.compare .ne lhs rhs)
  | .and => logical .and
  | .or => logical .or
  | .assign => throw .invalidAssignmentTarget
where
  logical (op : Arithmetic) : Emit κ Register := do
    let lhs ← booleanize lhs
    let rhs ← booleanize rhs
    define (.arith op lhs rhs)

/-- An operator other than assignment on two operands, of which the left one comes first. -/
def binary (op : BinaryOperator) (lhs rhs : Emit κ Register) : Emit κ Register := do
  let lhs ← lhs
  let rhs ← rhs
  combine op lhs rhs

/-- A conditional, which yields the value of the arm that is taken. -/
def conditional (condition thenArm elseArm : Emit κ Register) : Emit κ Register := do
  let condition ← booleanize (← condition)
  let thenBlock ← addBlock "then"
  let elseBlock ← addBlock "else"
  let mergeBlock ← addBlock "ifcont"
  terminate (.branch condition thenBlock elseBlock)
  moveTo thenBlock
  let thenValue ← thenArm
  let thenEnd ← currentBlock
  terminate (.jump mergeBlock)
  moveTo elseBlock
  let elseValue ← elseArm
  let elseEnd ← currentBlock
  terminate (.jump mergeBlock)
  moveTo mergeBlock
  define (.phi [(thenValue, thenEnd), (elseValue, elseEnd)])

/-- A loop that tests its condition before each round. -/
def whileLoop (condition : Emit κ Register) (body : Emit κ (Option Register)) : Emit κ Register := do
  let testBlock ← addBlock "cond"
  let bodyBlock ← addBlock "loop"
  let exitBlock ← addBlock "afterloop"
  terminate (.jump testBlock)
  moveTo testBlock
  let condition ← booleanize (← condition)
  terminate (.branch condition bodyBlock exitBlock)
  moveTo bodyBlock
  let _ ← body
  terminate (.jump testBlock)
  moveTo exitBlock
  const 0

/-- The slot of a loop variable. -/
def loopVariable (name : String) : Emit κ Binding := do
  match ← resolve name with
  | .variable ⟨slot, .scalar⟩ => return ⟨slot, .scalar⟩
  | _ => throw (.invalidLoopVariable name)

/-- Compiles a loop body while the loop variable is held. -/
def holding (name : String) (binding : Binding) (body : Emit κ (Option Register)) : Emit κ Unit := do
  let saved ← modifyGet fun s =>
    let (saved, locals) := s.frame.locals.shadow name binding
    (saved, { s with frame := { s.frame with locals } })
  let _ ← body
  modify fun s => { s with frame := { s.frame with locals := s.frame.locals.restore name saved } }

/-- A counting loop. The bound is evaluated once. After a round the decision to go on is made on the
value before the step, because the step may wrap around. -/
def forLoop (name : String) (direction : Direction) (start stop : Emit κ Register)
    (body : Emit κ (Option Register)) : Emit κ Register := do
  let binding ← loopVariable name
  let start ← start
  store start binding.slot
  let stop ← stop
  let step ← const direction.step
  let testBlock ← addBlock "for.cond"
  let bodyBlock ← addBlock "for.body"
  let exitBlock ← addBlock "for.end"
  terminate (.jump testBlock)
  moveTo testBlock
  let current ← define (.load binding.slot)
  let condition ← define (.compare direction.entryTest current stop)
  terminate (.branch condition bodyBlock exitBlock)
  moveTo bodyBlock
  holding name binding body
  let current ← define (.load binding.slot)
  let next ← define (.arith .add current step)
  store next binding.slot
  let condition ← define (.compare direction.repeatTest current stop)
  terminate (.branch condition bodyBlock exitBlock)
  moveTo exitBlock
  const 0

/-- A call. The callee and the number of arguments are checked before the arguments are compiled. -/
def call (callee : String) (arity : Nat) (args : Emit κ (List Register)) : Emit κ Register := do
  match (← get).globals.subprogram? callee with
  | none => throw (.unknownFunction callee)
  | some entry =>
    if entry.arity ≠ arity then throw (.argumentCountMismatch callee entry.arity arity)
    let args ← args
    define (.call entry.routine args)

def intrinsic (which : Intrinsic) (name : String) : Emit κ Register := do
  let slot ← scalarSlot name
  define (.intrinsic which slot)

/-- The value that `exit` leaves a subprogram with. -/
def resultValue : Emit κ Register := do
  let frame := (← get).frame
  match frame.resultName.bind frame.locals.get? with
  | some binding => define (.load binding.slot)
  | none => const 0

/-- Leaves the routine at hand with a value, by way of its return block. -/
def leave (value : Register) : Emit κ Unit := do
  let frame := (← get).frame
  modify fun s =>
    { s with frame := { s.frame with returns := s.frame.returns ++ [(value, s.frame.block)] } }
  terminate (.jump frame.returnBlock)

/-- Leaves the subprogram, and goes on in a block that nothing leads to, so that what follows still has
a place. -/
def exit : Emit κ Register := do
  leave (← resultValue)
  let after ← addBlock "afterexit"
  moveTo after
  const 0

/-! ## Subprograms -/

/-- Adds the first blocks of a routine, and starts a frame for it. -/
def openRoutine (code : κ) (routine : Nat) (resultName : Option String) : Frame × κ :=
  let (entry, code) := Target.addBlock code routine "entry"
  let (returnBlock, code) := Target.addBlock code routine "return"
  (⟨routine, entry, returnBlock, resultName, .empty, []⟩, code)

/-- Completes the routine at hand, given the value at the end of its body. -/
def finish (result : Register) : Emit κ Unit := do
  leave result
  let frame := (← get).frame
  moveTo frame.returnBlock
  match frame.returns with
  | [(value, _)] => terminate (.ret value)
  | returns =>
    let value ← define (.phi returns)
    terminate (.ret value)

/-- Enters a subprogram under its name. -/
def register (name : String) (entry : Subprogram) : Emit κ Unit := modify fun s =>
  { s with globals := s.globals.register name entry }

/-- Adds a routine for a subprogram. -/
def addRoutine (p : Prototype) : Emit κ Nat := modifyGet fun s =>
  let (routine, code) := Target.addRoutine s.code p.name p.params
  (routine, { s with code })

/-- A `forward` declaration. It may be repeated, and may also follow the definition. -/
def forward (p : Prototype) : Emit κ Unit := do
  let arity := p.params.length
  match (← get).globals.subprogram? p.name with
  | some entry =>
    if entry.arity ≠ arity then throw (.signatureMismatch p.name entry.arity arity)
  | none =>
    let routine ← addRoutine p
    register p.name ⟨routine, arity, false⟩

/-- The routine for a subprogram that is about to be defined. -/
def claimRoutine (p : Prototype) : Emit κ Nat := do
  let arity := p.params.length
  match (← get).globals.subprogram? p.name with
  | none => addRoutine p
  | some entry =>
    if entry.isDefined then throw (.functionRedefinition p.name)
    if entry.arity ≠ arity then throw (.signatureMismatch p.name entry.arity arity)
    return entry.routine

/-- Puts the arguments of a call, from the one with the given number on, into variables. -/
def parameters (index : Nat) : List String → Emit κ Unit
  | [] => pure ()
  | name :: names => do
    let slot ← define (.alloca 1)
    let value ← define (.param index)
    store value slot
    declare .parameter name ⟨slot, .scalar⟩
    parameters (index + 1) names

/-- The name of the result variable of a subprogram. -/
def resultNameOf (p : Prototype) : Option String :=
  match p.kind with
  | .function => some p.name
  | .procedure => none

/-- Compiles a routine, and comes back to the one at hand. -/
def within (routine : Nat) (resultName : Option String) (body : Emit κ Unit) : Emit κ Unit := do
  let outer := (← get).frame
  modify fun s =>
    let (frame, code) := openRoutine s.code routine resultName
    { s with frame, code }
  body
  modify fun s => { s with frame := outer }

/-- The definition of a subprogram. It is entered before its body, so that it may call itself. -/
def subprogram (p : Prototype) (body : Emit κ (Option Register)) : Emit κ Unit := do
  let routine ← claimRoutine p
  register p.name ⟨routine, p.params.length, true⟩
  within routine (resultNameOf p) do
    parameters 0 p.params
    finish (← valueOf body)

/-! ## Trees -/

mutual

/-- Compiles a node, and gives the value it yields. Declarations yield none. -/
def node : Node → Emit κ (Option Register)
  | .number value => some <$> const value
  | .constantDecl name value => do
    declareConstant name value
    return none
  | .variableDecl decl => do
    declareVariable decl
    return none
  | .ident name => some <$> readName name
  | .element name index => do
    let slot ← elementSlot name (valueOf (node index))
    some <$> define (.load slot)
  | .binary op lhs rhs =>
    match op with
    | .assign => some <$> assignment (valueOf (node rhs)) (target lhs)
    | op => some <$> binary op (valueOf (node lhs)) (valueOf (node rhs))
  | .conditional condition thenArm elseArm =>
    some <$> conditional (valueOf (node condition)) (valueOf (node thenArm)) (valueOf (node elseArm))
  | .whileLoop condition body => some <$> whileLoop (valueOf (node condition)) (node body)
  | .forLoop name direction start stop body =>
    some <$> forLoop name direction (valueOf (node start)) (valueOf (node stop)) (node body)
  | .call callee args => some <$> call callee args.length (arguments args)
  | .intrinsic which name => some <$> intrinsic which name
  | .exit => some <$> exit
  | .forward prototype => do
    forward prototype
    return none
  | .subprogram prototype body => do
    subprogram prototype (sequence none body)
    return none
  | .block nodes => sequence none nodes

/-- The slot that a node names as the target of an assignment. -/
def target : Node → Emit κ Register
  | .ident name => scalarSlot name
  | .element name index => elementSlot name (valueOf (node index))
  | _ => throw .invalidAssignmentTarget

/-- Compiles nodes in order, and gives the value of the last one, or `last` if there is none. -/
def sequence (last : Option Register) : List Node → Emit κ (Option Register)
  | [] => pure last
  | first :: rest => do
    let value ← node first
    sequence value rest

/-- Compiles nodes in order, and gives all their values. -/
def arguments : List Node → Emit κ (List Register)
  | [] => pure []
  | first :: rest => do
    let value ← valueOf (node first)
    let values ← arguments rest
    return value :: values

end

/-- Compiles the declarations and the block of a program, which returns zero. -/
def program (p : Program) : Emit κ Unit := do
  let _ ← sequence none p.declarations
  let _ ← node p.body
  finish (← const 0)

end Emit

namespace Compilation

variable {κ : Type} [Target κ]

/-- The routines that every program may call, each with one parameter. -/
def libraryRoutines : List String := ["writeln", "printi"]

/-- Declares a routine of the library. -/
def addLibraryRoutine (state : Globals × κ) (name : String) : Globals × κ :=
  let (routine, code) := Target.addRoutine state.2 name ["x"]
  (state.1.register name ⟨routine, 1, true⟩, code)

/-- The start of a compilation that adds to the given code. -/
def start (code : κ) : Compilation κ :=
  let (main, code) := Target.addRoutine code Code.entryPoint []
  let (frame, code) := Emit.openRoutine code main none
  let globals := Globals.empty.register Code.entryPoint ⟨main, 0, true⟩
  let (globals, code) := libraryRoutines.foldl addLibraryRoutine (globals, code)
  ⟨code, globals, frame⟩

end Compilation

/-- Adds the code of a program to the given code. What was emitted before an error is kept. -/
def Program.compileInto {κ : Type} [Target κ] (p : Program) (code : κ) : Except ScopeError Unit × κ :=
  match (Emit.program p).run (Compilation.start code) with
  | .ok () s => (.ok (), s.code)
  | .error e s => (.error e, s.code)

/-- Why a source text has no code. -/
inductive CompileError where
  | parse (error : ParseError)
  | scope (error : ScopeError)
  deriving DecidableEq, Repr

def CompileError.message : CompileError → String
  | parse error => error.message
  | scope error => error.message

/-- The code of a source text. -/
def compile (source : String) : Except CompileError Code :=
  match parseProgram source with
  | .error e => .error (.parse e)
  | .ok p =>
    match p.compileInto Code.empty with
    | (.ok (), code) => .ok code
    | (.error e, _) => .error (.scope e)

end Mila
