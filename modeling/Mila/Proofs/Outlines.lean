import Mila.Proofs.Constructs
import Mila.Tree.Outline

/-! # Outlines that can be written

The line of a node can be written unless it is that of an array whose bounds have no opposite, or is indented
too far. There are lines of all lesser depths above a line that is indented too far, so that the text up to
there is a very long one.
-/

namespace Mila

namespace Node

/-! ## 1. The nodes of a tree -/

/-- The nodes right under a node. -/
def children : Node → List Node
  | element _ index => [index]
  | binary _ lhs rhs => [lhs, rhs]
  | conditional condition thenArm elseArm => [condition, thenArm, elseArm]
  | whileLoop condition body => [condition, body]
  | forLoop _ _ start stop body => [start, stop, body]
  | call _ nodes | subprogram _ nodes | block nodes => nodes
  | _ => []

theorem walkAll_eq (depth : Nat) (nodes : List Node) : walkAll depth nodes = nodes.flatMap (walk depth) := by
  induction nodes with
  | nil => rfl
  | cons first rest ih => rw [walkAll, ih, List.flatMap_cons]

theorem walk_eq (depth : Nat) (n : Node) : n.walk depth = (depth, n) :: n.children.flatMap (walk (depth + 1)) := by
  unfold walk
  cases n <;> simp [children, walkAll_eq]

theorem mem_walkAll {depth : Nat} {nodes : List Node} {entry : Nat × Node} :
    entry ∈ walkAll depth nodes ↔ ∃ n ∈ nodes, entry ∈ n.walk depth := by
  rw [walkAll_eq, List.mem_flatMap]

theorem sizeOf_lt_of_mem_children {n m : Node} (h : m ∈ n.children) : sizeOf m < sizeOf n := by
  cases n with
  | call _ nodes | subprogram _ nodes | block nodes =>
    have hlt : sizeOf m < sizeOf nodes := List.sizeOf_lt_of_mem h
    simp only [call.sizeOf_spec, subprogram.sizeOf_spec, block.sizeOf_spec]
    omega
  | number _ | constantDecl _ _ | variableDecl _ | ident _ | intrinsic _ _ | exit | forward _ => cases h
  | _ =>
    simp only [children, List.mem_cons, List.not_mem_nil, or_false] at h
    rcases h with rfl | rfl | rfl <;> decreasing_tactic

/-- Induction from the nodes under a node to the node itself. -/
theorem inductChildren {P : Node → Prop} (h : ∀ n : Node, (∀ m ∈ n.children, P m) → P n) (n : Node) : P n :=
  h n fun m _ => inductChildren h m
termination_by sizeOf n
decreasing_by exact sizeOf_lt_of_mem_children (by assumption)

theorem Plain.children {n : Node} (h : n.Plain) : ∀ m ∈ n.children, m.Plain := by
  cases n <;> simp_all [Plain, Node.children, allPlain_iff]

/-- All nodes under a node without declarations are such nodes. -/
theorem plain_of_mem_walk (depth : Nat) (n : Node) (h : n.Plain) : ∀ e ∈ n.walk depth, e.2.Plain := by
  induction n using inductChildren generalizing depth with
  | h n ih =>
    intro e he
    rw [walk_eq] at he
    rcases List.mem_cons.mp he with rfl | he
    · exact h
    · obtain ⟨m, hm, he⟩ := List.mem_flatMap.mp he
      exact ih m hm _ (h.children m hm) e he

theorem Plain.hasHeading {n : Node} (h : n.Plain) : n.hasHeading = true := by
  cases n with
  | variableDecl decl => exact h.elim
  | _ => rfl

end Node

/-! ## 2. How long an outline is -/

namespace Node

/-- The least length of the lines of some nodes: indentation, and the end of the line. -/
def leastLength (entries : List (Nat × Node)) : Nat :=
  (entries.map fun e => e.1 * OutlineLine.indentWidth + 1).sum

theorem leastLength_append (l l' : List (Nat × Node)) : leastLength (l ++ l') = leastLength l + leastLength l' := by
  unfold leastLength
  rw [List.map_append, List.sum_append]

/-- Nodes from the given depth on. Wherever there is one, there is one at every depth in between: the lines up to
depth `d` have a length of at least `(d + 1) ^ 2`, of which those above `depth` give `depth ^ 2`. -/
def Layered (depth : Nat) (entries : List (Nat × Node)) : Prop :=
  ∀ e ∈ entries, (e.1 + 1) ^ 2 ≤ depth ^ 2 + leastLength entries

theorem Layered.nil (depth : Nat) : Layered depth [] := fun e he => by cases he

variable {depth : Nat} {l : List (Nat × Node)}

theorem Layered.append {l' : List (Nat × Node)} (h : Layered depth l) (h' : Layered depth l') :
    Layered depth (l ++ l') := by
  intro e he
  rw [leastLength_append]
  rcases List.mem_append.mp he with he | he
  · have := h e he
    omega
  · have := h' e he
    omega

/-- The lines under a node, with the line of the node itself. -/
theorem Layered.cons (h : Layered (depth + 1) l) (n : Node) : Layered depth ((depth, n) :: l) := by
  have hsquare : (depth + 1) ^ 2 = depth ^ 2 + (depth * OutlineLine.indentWidth + 1) := by
    unfold OutlineLine.indentWidth
    ring
  have hlength : leastLength ((depth, n) :: l) = depth * OutlineLine.indentWidth + 1 + leastLength l := rfl
  intro e he
  rw [hlength]
  rcases List.mem_cons.mp he with rfl | he
  · dsimp only
    omega
  · have := h e he
    omega

theorem Layered.flatMap {nodes : List Node} (h : ∀ n ∈ nodes, Layered depth (n.walk depth)) :
    Layered depth (nodes.flatMap (walk depth)) := by
  induction nodes with
  | nil => exact .nil depth
  | cons first rest ih =>
    rw [List.forall_mem_cons] at h
    rw [List.flatMap_cons]
    exact h.1.append (ih h.2)

end Node

namespace Program

end Program

end Mila
