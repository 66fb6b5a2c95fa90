import Mila.Tree

/-! # Outlines

A tree written out with one line for each node, each line indented under that of its parent.
-/

namespace Mila

/-- A line of an outline. -/
structure OutlineLine where
  depth : Nat
  text : String
  deriving DecidableEq, Repr

namespace OutlineLine

/-- Each level is indented by two spaces more. -/
def indentWidth : Nat := 2

def render (line : OutlineLine) : String :=
  String.ofList (List.replicate (line.depth * indentWidth) ' ') ++ line.text ++ "\n"

/-- The text of a sequence of lines. -/
def renderAll (lines : List OutlineLine) : String := String.join (lines.map render)

/-- The widest indentation that can be written. -/
def maxIndent : Nat := 0xFFFF

def fits (line : OutlineLine) : Bool := line.depth * indentWidth ≤ maxIndent

end OutlineLine

def Prototype.heading (p : Prototype) : String :=
  p.kind.text ++ " " ++ p.name ++ "(" ++ ", ".intercalate p.params ++ ")"

def VariableDecl.heading (d : VariableDecl) : String :=
  if d.isArray then
    "var " ++ d.name ++ "[" ++ toString d.bounds.1.toInt ++ ".." ++ toString d.bounds.2.toInt ++ "]"
  else "var " ++ d.name

namespace Node

/-- The line of the node itself. -/
def heading : Node → String
  | number value => "int " ++ toString value.toInt
  | constantDecl name value => "const " ++ name ++ " = " ++ toString value.toInt
  | variableDecl decl => decl.heading
  | ident name => "ident " ++ name
  | element name _ => "index " ++ name
  | binary op _ _ => "binary " ++ op.label
  | conditional _ _ _ => "if"
  | whileLoop _ _ => "while"
  | forLoop name direction _ _ _ => "for " ++ name ++ " " ++ direction.text
  | call callee _ => "call " ++ callee
  | intrinsic which name => "intrinsic " ++ which.text ++ "(" ++ name ++ ")"
  | exit => "exit"
  | forward prototype => "forward " ++ prototype.heading
  | subprogram prototype _ => prototype.heading
  | block _ => "block"

/-- Whether the line of the node itself can be written: the line of an array needs its bounds. -/
def hasHeading : Node → Bool
  | variableDecl decl => !decl.isArray || decl.bounds?.isSome
  | _ => true

mutual

/-- A node and all nodes under it, parents first, each with its depth. -/
def walk (depth : Nat) (node : Node) : List (Nat × Node) :=
  (depth, node) ::
    match node with
    | element _ index => walk (depth + 1) index
    | binary _ lhs rhs => walk (depth + 1) lhs ++ walk (depth + 1) rhs
    | conditional condition thenArm elseArm =>
      walk (depth + 1) condition ++ walk (depth + 1) thenArm ++ walk (depth + 1) elseArm
    | whileLoop condition body => walk (depth + 1) condition ++ walk (depth + 1) body
    | forLoop _ _ start stop body =>
      walk (depth + 1) start ++ walk (depth + 1) stop ++ walk (depth + 1) body
    | call _ args => walkAll (depth + 1) args
    | subprogram _ body => walkAll (depth + 1) body
    | block nodes => walkAll (depth + 1) nodes
    | _ => []

/-- The nodes of several trees, one tree after the other. -/
def walkAll (depth : Nat) : List Node → List (Nat × Node)
  | [] => []
  | node :: nodes => walk depth node ++ walkAll depth nodes

end

end Node

namespace OutlineLine

/-- The line of a node at its depth. -/
def ofNode (entry : Nat × Node) : OutlineLine := ⟨entry.1, entry.2.heading⟩

/-- Whether the line of a node can be written at its depth. -/
def isWritable (entry : Nat × Node) : Bool := (ofNode entry).fits && entry.2.hasHeading

end OutlineLine

namespace Node

/-- The outline of a node at the given depth. -/
def outline (depth : Nat) (node : Node) : List OutlineLine := (node.walk depth).map OutlineLine.ofNode

/-- The text of a node's outline. -/
def outlineText (depth : Nat) (node : Node) : String := OutlineLine.renderAll (node.outline depth)

/-- The text of a node's outline, if all of its lines can be written. -/
def outlineText? (depth : Nat) (node : Node) : Option String :=
  if (node.walk depth).all OutlineLine.isWritable then some (node.outlineText depth) else none

end Node

namespace Program

/-- The nodes of a program. -/
def walk (p : Program) : List (Nat × Node) := Node.walkAll 1 p.declarations ++ p.body.walk 1

def outline (p : Program) : List OutlineLine :=
  ⟨0, "program " ++ p.name⟩ :: p.walk.map OutlineLine.ofNode

/-- The text of a program's outline. -/
def outlineText (p : Program) : String := OutlineLine.renderAll p.outline

/-- The text of a program's outline, if all of its lines can be written. -/
def outlineText? (p : Program) : Option String :=
  if p.walk.all OutlineLine.isWritable then some p.outlineText else none

end Program

end Mila
