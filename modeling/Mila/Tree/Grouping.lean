import Mila.Tree

/-! # Grouping by precedence

An expression is written as a flat chain of operands with operators between them. Grouping turns the
chain into nested applications: an operator that binds tighter is applied first, and operators that bind
equally tight are applied from left to right.
-/

namespace Mila

/-- How tight an operator binds; a greater number binds tighter. -/
def BinaryOperator.precedence : BinaryOperator → Nat
  | mul | div | mod => 4
  | add | sub => 3
  | lt | le | gt | ge | eq | ne => 2
  | and | or => 1
  | assign => 0

/-- Operands with operators between them: the first operand, then pairs of an operator and the operand
that follows it. -/
structure Chain (α : Type) where
  first : α
  rest : List (BinaryOperator × α)

namespace Chain

variable {α : Type}

/-- Operands that wait, with their operators, for the right operand to be complete. The last one read
comes first. -/
abbrev Waiting (α : Type) := List (α × BinaryOperator)

/-- Applies the waiting operators that bind at least as tight as the precedence `p`, which is that of
the operator on the right of `operand`. -/
def settle (combine : BinaryOperator → α → α → α) (p : Nat) (waiting : Waiting α) (operand : α) :
    Waiting α × α :=
  match waiting with
  | [] => ([], operand)
  | (lhs, op) :: waiting =>
    if p ≤ op.precedence then settle combine p waiting (combine op lhs operand)
    else ((lhs, op) :: waiting, operand)

/-- Groups what is left of a chain, given the operands that wait and the operand read last. -/
def groupFrom (combine : BinaryOperator → α → α → α) (waiting : Waiting α) (operand : α) :
    List (BinaryOperator × α) → α
  | [] => (settle combine 0 waiting operand).2
  | (op, next) :: rest =>
    let (waiting, lhs) := settle combine op.precedence waiting operand
    groupFrom combine ((lhs, op) :: waiting) next rest

/-- Applies the operators of a chain in the order of their precedence. -/
def group (combine : BinaryOperator → α → α → α) (chain : Chain α) : α :=
  groupFrom combine [] chain.first chain.rest

end Chain

end Mila
