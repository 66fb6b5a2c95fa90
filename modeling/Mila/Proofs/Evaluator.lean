import Mathlib
import Mila.Machine
import Mila.Tree

/-! # What programs mean

An evaluator of program trees. It knows nothing of code, registers or memory: an activation of a subprogram
has variables with values, and all activations share the input and the output. Arithmetic is that of the
integers, brought back into the range of words. The evaluator takes a bound on how many rounds a loop may
make and how deep calls may nest, and a tree means what it evaluates to under some bound.
-/

namespace Mila

/-- Why a program fails. -/
inductive Failure where
  | divisionByZero
  | outOfBounds
  | inputExhausted
  | unknownExternal (name : String)
  deriving DecidableEq, Repr

def Failure.fault : Failure → Fault
  | divisionByZero => .divisionByZero
  | outOfBounds => .outOfBounds
  | inputExhausted => .inputExhausted
  | unknownExternal name => .unknownExternal name

/-- A variable of an activation. An array has one cell for each index from `low` to `high`. -/
inductive Variable where
  | scalar (value : Word)
  | array (low high : Int) (cells : Int → Word)

/-- What an evaluation works on: the variables of the activation at hand, and what all activations
share. -/
structure World where
  vars : String → Option Variable
  /-- The words still to be read. -/
  input : List Word
  /-- The words written so far. -/
  output : List Word

/-- Why an evaluation does not go on. -/
inductive Stop where
  | failure (f : Failure)
  /-- The subprogram at hand is left with a value. -/
  | exit (value : Word)
  /-- The bound on rounds and calls is used up. -/
  | timeout
  /-- A rule on names is broken. -/
  | senseless
  deriving DecidableEq, Repr

/-- A piece of an evaluation. -/
abbrev Eval := EStateM Stop World

/-- What the meaning of a node depends on. -/
structure Surroundings where
  constants : String → Option Word
  /-- The name of the variable that holds the result, in a function. -/
  resultName : Option String
  /-- How many rounds a loop may make. -/
  rounds : Nat
  /-- What a call does. -/
  call : String → List Word → Eval Word

/-! ## 1. Operators -/

/-- The integer that an operator on numbers gives, or nothing for a division by zero. The logical operators
work on truth values. -/
def BinaryOperator.result? : BinaryOperator → Word → Word → Option Word
  | add, a, b => some (.ofInt (a.toInt + b.toInt))
  | sub, a, b => some (.ofInt (a.toInt - b.toInt))
  | mul, a, b => some (.ofInt (a.toInt * b.toInt))
  | div, a, b => if b.toInt = 0 then none else some (.ofInt (a.toInt.tdiv b.toInt))
  | mod, a, b => if b.toInt = 0 then none else some (.ofInt (a.toInt.tmod b.toInt))
  | lt, a, b => some (.ofBool (a.toInt < b.toInt))
  | le, a, b => some (.ofBool (a.toInt ≤ b.toInt))
  | gt, a, b => some (.ofBool (b.toInt < a.toInt))
  | ge, a, b => some (.ofBool (b.toInt ≤ a.toInt))
  | eq, a, b => some (.ofBool (a.toInt = b.toInt))
  | ne, a, b => some (.ofBool (a.toInt ≠ b.toInt))
  | and, a, b => some (.ofBool (a.isTrue && b.isTrue))
  | or, a, b => some (.ofBool (a.isTrue || b.isTrue))
  | assign, _, _ => none

namespace Direction

/-- Whether a counting loop starts at all. -/
def starts : Direction → Word → Word → Bool
  | up, current, last => current.toInt ≤ last.toInt
  | down, current, last => last.toInt ≤ current.toInt

/-- Whether a counting loop goes on from a value. -/
def goesOn : Direction → Word → Word → Bool
  | up, current, last => current.toInt < last.toInt
  | down, current, last => last.toInt < current.toInt

/-- The value after a value. -/
def next : Direction → Word → Word
  | up, current => .ofInt (current.toInt + 1)
  | down, current => .ofInt (current.toInt - 1)

end Direction

/-! ## 2. Variables -/

/-- The place that an assignment may go to. -/
inductive Destination where
  | scalar (name : String)
  | element (name : String) (index : Int)
  deriving DecidableEq, Repr

namespace Eval

def fail {α : Type} (f : Failure) : Eval α := throw (.failure f)

/-- Sets a variable of the activation at hand. -/
def setVariable (name : String) (x : Variable) : Eval Unit :=
  modify fun w => { w with vars := Function.update w.vars name (some x) }

/-- The word at a place. -/
def fetch : Destination → Eval Word
  | .scalar name => do
    match (← get).vars name with
    | some (.scalar value) => return value
    | _ => throw .senseless
  | .element name i => do
    match (← get).vars name with
    | some (.array low high cells) => if low ≤ i ∧ i ≤ high then return cells i else fail .outOfBounds
    | _ => throw .senseless

/-- Puts a word at a place. -/
def put : Destination → Word → Eval Unit
  | .scalar name, value => do
    match (← get).vars name with
    | some (.scalar _) => setVariable name (.scalar value)
    | _ => throw .senseless
  | .element name i, value => do
    match (← get).vars name with
    | some (.array low high cells) =>
      if low ≤ i ∧ i ≤ high then setVariable name (.array low high (Function.update cells i value))
      else fail .outOfBounds
    | _ => throw .senseless

/-- The word that a name stands for: that of a variable of the activation at hand, or else a constant. -/
def read (ctx : Surroundings) (name : String) : Eval Word := do
  match (← get).vars name with
  | some _ => fetch (.scalar name)
  | none =>
    match ctx.constants name with
    | some value => return value
    | none => throw .senseless

/-- Gives the activation at hand a variable, whose cells are zero. -/
def declare (d : VariableDecl) : Eval Unit :=
  if d.isArray then
    setVariable d.name (.array (-d.offset.toInt) (-d.offset.toInt + d.length - 1) fun _ => 0)
  else setVariable d.name (.scalar 0)

/-- Takes a word off the input. -/
def input : Eval Word := do
  match (← get).input with
  | [] => fail .inputExhausted
  | value :: rest =>
    modify fun w => { w with input := rest }
    return value

/-- Appends a word to the output. -/
def write (value : Word) : Eval Unit := modify fun w => { w with output := w.output ++ [value] }

/-! ## 3. Nodes -/

/-- An operator on two words. -/
def combine (op : BinaryOperator) (a b : Word) : Eval Word :=
  match op.result? a b with
  | some value => return value
  | none => fail .divisionByZero

/-- Repeats a round as long as it asks for it. -/
def loop (round : Eval Bool) : Nat → Eval Unit
  | 0 => throw .timeout
  | n + 1 => do if ← round then loop round n

/-- A loop that tests its condition before each round. -/
def whileLoop (rounds : Nat) (condition body : Eval Word) : Eval Word := do
  loop (do
    if (← condition).isTrue then
      let _ ← body
      return true
    else return false) rounds
  return 0

/-- A counting loop. The start is stored before the bound is evaluated, which happens once. The decision
to go on is made on the value that the variable steps from. -/
def forLoop (rounds : Nat) (name : String) (direction : Direction) (start stop body : Eval Word) :
    Eval Word := do
  put (.scalar name) (← start)
  let last ← stop
  if direction.starts (← fetch (.scalar name)) last then
    loop (do
      let _ ← body
      let current ← fetch (.scalar name)
      put (.scalar name) (direction.next current)
      return direction.goesOn current last) rounds
  return 0

/-- A statement that works on a variable directly, and yields the word it leaves there. -/
def intrinsic (name : String) : Intrinsic → Eval Word
  | .readln => do
    let value ← input
    put (.scalar name) value
    return value
  | .inc => do
    let value := Int32.ofInt ((← fetch (.scalar name)).toInt + 1)
    put (.scalar name) value
    return value
  | .dec => do
    let value := Int32.ofInt ((← fetch (.scalar name)).toInt - 1)
    put (.scalar name) value
    return value

/-- Leaves the subprogram at hand with the value of its result variable, or zero if it has none. -/
def exit (ctx : Surroundings) : Eval Word :=
  match ctx.resultName with
  | some name => do throw (.exit (← fetch (.scalar name)))
  | none => throw (.exit 0)

mutual

/-- The word that a node yields. Declarations yield zero. -/
def node (ctx : Surroundings) : Node → Eval Word
  | .number value => return value
  | .constantDecl _ _ => return 0
  | .variableDecl d => do
    declare d
    return 0
  | .ident name => read ctx name
  | .element name index => do
    let i ← node ctx index
    fetch (.element name i.toInt)
  | .binary op lhs rhs =>
    match op with
    | .assign => do
      let value ← node ctx rhs
      let place ← target ctx lhs
      put place value
      return value
    | op => do
      let a ← node ctx lhs
      let b ← node ctx rhs
      combine op a b
  | .conditional condition thenArm elseArm => do
    if (← node ctx condition).isTrue then node ctx thenArm else node ctx elseArm
  | .whileLoop condition body => whileLoop ctx.rounds (node ctx condition) (node ctx body)
  | .forLoop name direction start stop body =>
    forLoop ctx.rounds name direction (node ctx start) (node ctx stop) (node ctx body)
  | .call callee args => do
    let values ← arguments ctx args
    ctx.call callee values
  | .intrinsic which name => intrinsic name which
  | .exit => exit ctx
  | .forward _ => return 0
  | .subprogram _ _ => return 0
  | .block nodes => sequence ctx 0 nodes

/-- The place that a node names as the target of an assignment. -/
def target (ctx : Surroundings) : Node → Eval Destination
  | .ident name => return .scalar name
  | .element name index => do
    let i ← node ctx index
    return .element name i.toInt
  | _ => throw .senseless

/-- Evaluates nodes in order, and gives the word of the last one, or `last` if there is none. -/
def sequence (ctx : Surroundings) (last : Word) : List Node → Eval Word
  | [] => return last
  | first :: rest => do
    let value ← node ctx first
    sequence ctx value rest

/-- Evaluates nodes in order, and gives all their words. -/
def arguments (ctx : Surroundings) : List Node → Eval (List Word)
  | [] => return []
  | first :: rest => do
    let value ← node ctx first
    let values ← arguments ctx rest
    return value :: values

end

/-- Evaluates the body of a subprogram in an activation of its own. -/
def activation (vars : String → Option Variable) (body : Eval Word) : Eval Word := fun w =>
  match body { w with vars } with
  | .ok value after => .ok value { after with vars := w.vars }
  | .error (.exit value) after => .ok value { after with vars := w.vars }
  | .error stop after => .error stop after

end Eval

/-! ## 4. Programs -/

/-- The name of the variable that holds the result, in a function. -/
def Prototype.resultName (heading : Prototype) : Option String :=
  match heading.kind with
  | .function => some heading.name
  | .procedure => none

/-- The value that a node gives to a constant. -/
def Node.constant? (name : String) : Node → Option Word
  | .constantDecl other value => if other = name then some value else none
  | _ => none

/-- The heading and the body that a node gives to a subprogram. -/
def Node.definition? (name : String) : Node → Option (Prototype × List Node)
  | .subprogram heading body => if heading.name = name then some (heading, body) else none
  | _ => none

namespace Program

/-- The value of a constant. -/
def constant? (p : Program) (name : String) : Option Word :=
  p.declarations.findSome? (·.constant? name)

/-- The heading and the body of a subprogram. -/
def definition? (p : Program) (name : String) : Option (Prototype × List Node) :=
  p.declarations.findSome? (·.definition? name)

/-- Gives parameters the values that are passed for them. -/
def pass (vars : String → Option Variable) : List String → List Word → String → Option Variable
  | name :: names, value :: values =>
    pass (Function.update vars name (some (.scalar value))) names values
  | _, _ => vars

/-- Calls a subprogram by its name, with a bound on rounds and calls. The program itself is called by the
name of the entry point. -/
def invoke (p : Program) : Nat → String → List Word → Eval Word
  | 0, _, _ => throw .timeout
  | n + 1, name, args =>
    if name = Code.entryPoint then
      let ctx : Surroundings := ⟨p.constant?, none, n, p.invoke n⟩
      Eval.activation (fun _ => none) do
        let _ ← Eval.sequence ctx 0 p.declarations
        let _ ← Eval.node ctx p.body
        return 0
    else if name = "writeln" ∨ name = "printi" then
      match args with
      | [value] => do
        Eval.write value
        return 0
      | _ => throw .senseless
    else
      match p.definition? name with
      | some (heading, body) =>
        let ctx : Surroundings := ⟨p.constant?, heading.resultName, n, p.invoke n⟩
        Eval.activation (pass (fun _ => none) heading.params args) (Eval.sequence ctx 0 body)
      | none => Eval.fail (.unknownExternal name)

/-- Evaluates a program, with a bound on rounds and calls. There is no answer if the bound is too low. -/
def evaluate (p : Program) (n : Nat) (input : List Word) : Option (Except Failure Outcome) :=
  match p.invoke n Code.entryPoint [] ⟨fun _ => none, input, []⟩ with
  | .ok value w => some (.ok ⟨value, w.output⟩)
  | .error (.failure f) _ => some (.error f)
  | .error _ _ => none

/-- A program answers an input. -/
def Evaluates (p : Program) (input : List Word) (answer : Except Failure Outcome) : Prop :=
  ∃ n, p.evaluate n input = some answer

end Program

end Mila
