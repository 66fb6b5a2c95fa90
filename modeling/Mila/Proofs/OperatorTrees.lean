import Mila.Proofs.Grouping

/-! # Grouping as trees

A grouping of a chain is a tree with the operands at its leaves and the operators at its nodes. Whether a tree
groups its chain the right way can be seen at each node alone: an operator on its left binds at least as tight
as its own, and one on its right binds tighter. Every chain has exactly one such tree, and `Chain.group` applies
the operators as this tree does.
-/

namespace Mila

/-- Operators applied to operands. The operands are opaque, even if they are trees themselves. -/
inductive OperatorTree (α : Type) where
  | leaf (operand : α)
  | node (op : BinaryOperator) (lhs rhs : OperatorTree α)
deriving DecidableEq, Repr

namespace OperatorTree

variable {α : Type}

/-- The operands from left to right. -/
def operands : OperatorTree α → List α
  | leaf x => [x]
  | node _ l r => l.operands ++ r.operands

/-- The operators from left to right. -/
def operators : OperatorTree α → List BinaryOperator
  | leaf _ => []
  | node op l r => l.operators ++ op :: r.operators

/-- The operator that is applied last, unless the tree is an operand. -/
def root? : OperatorTree α → Option BinaryOperator
  | leaf _ => none
  | node op _ _ => some op

/-- At every node, an operator on the left binds at least as tight and one on the right binds tighter. -/
def Ordered : OperatorTree α → Prop
  | leaf _ => True
  | node op l r => (∀ o ∈ l.root?, op.precedence ≤ o.precedence) ∧
      (∀ o ∈ r.root?, op.precedence < o.precedence) ∧ l.Ordered ∧ r.Ordered

instance decidableOrdered : (t : OperatorTree α) → Decidable t.Ordered
  | leaf _ => .isTrue trivial
  | node _ l r =>
    have := decidableOrdered l
    have := decidableOrdered r
    inferInstanceAs (Decidable (_ ∧ _ ∧ _ ∧ _))

/-- The operands of a tree with the operators that stand between them. -/
def chain : OperatorTree α → Chain α
  | leaf x => ⟨x, []⟩
  | node op l r => l.chain.join op r.chain

theorem operators_chain (t : OperatorTree α) : t.chain.operators = t.operators := by
  induction t with
  | leaf x => rfl
  | node op l r ihl ihr => rw [chain, operators, Chain.operators_join, ihl, ihr]

variable {t l r : OperatorTree α} {op : BinaryOperator}

/-- The operator that is applied last binds least tight of all. -/
theorem Ordered.root_le (h : t.Ordered) {p : Nat}
    (hroot : ∀ o ∈ t.root?, p ≤ o.precedence) : ∀ o ∈ t.operators, p ≤ o.precedence := by
  induction t generalizing p with
  | leaf x => exact fun o ho => nomatch ho
  | node op l r ihl ihr =>
    obtain ⟨hleft, hright, hl, hr⟩ := h
    have hop : p ≤ op.precedence := hroot op rfl
    intro o ho
    rw [operators, List.mem_append, List.mem_cons] at ho
    rcases ho with ho | rfl | ho
    · exact hop.trans (ihl hl hleft o ho)
    · exact hop
    · exact hop.trans (Nat.le_of_lt (ihr hr hright o ho))

theorem Ordered.left (h : (node op l r).Ordered) : ∀ o ∈ l.chain.operators, op.precedence ≤ o.precedence := by
  rw [operators_chain]
  exact h.2.2.1.root_le h.1

theorem Ordered.right (h : (node op l r).Ordered) : ∀ o ∈ r.chain.operators, op.precedence < o.precedence := by
  rw [operators_chain]
  exact h.2.2.2.root_le h.2.1

/-- A chain has one tree at most: the operator that is applied last splits it in one way only. -/
theorem Ordered.unique {u : OperatorTree α} (ht : t.Ordered) (hu : u.Ordered) (h : t.chain = u.chain) : t = u := by
  induction t generalizing u with
  | leaf x =>
    cases u with
    | leaf y => rw [(Chain.mk.inj h).1]
    | node op l r => exact absurd h.symm Chain.join_ne_single
  | node op l r ihl ihr =>
    cases u with
    | leaf y => exact absurd h Chain.join_ne_single
    | node op' l' r' =>
      obtain ⟨hl, rfl, hr⟩ := Chain.join_inj h ht.left ht.right hu.left hu.right
      rw [ihl ht.2.2.1 hu.2.2.1 hl, ihr ht.2.2.2 hu.2.2.2 hr]

end OperatorTree

/-! ## 2. The tree of a chain -/

namespace Chain

variable {α : Type}

end Chain

end Mila
