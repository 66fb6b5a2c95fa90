import Mathlib
import Mila.Tree.Grouping

/-! # What grouping means

The operator of a chain that is applied last is one that binds least tight, and of those the last one. This
describes the grouping of a chain in full, and it is how `Chain.group` groups.
-/

namespace Mila.Chain

variable {α : Type}

/-- One chain behind another, with an operator between them. -/
def join (l : Chain α) (op : BinaryOperator) (r : Chain α) : Chain α :=
  ⟨l.first, l.rest ++ (op, r.first) :: r.rest⟩

def operators (c : Chain α) : List BinaryOperator := c.rest.map Prod.fst

@[simp] theorem operators_join (l r : Chain α) (op : BinaryOperator) :
    (l.join op r).operators = l.operators ++ op :: r.operators := by
  simp [operators, join]

theorem join_assoc (a b c : Chain α) (o p : BinaryOperator) : (a.join o b).join p c = a.join o (b.join p c) := by
  simp [join]

variable {l r : Chain α} {op op' : BinaryOperator} {x y : α} {waiting : Waiting α}
  {pieces : List (Chain α × BinaryOperator)}

theorem join_ne_single : l.join op r ≠ ⟨x, []⟩ := by
  simp [join]

/-- The grouping of a chain: what stands to the left of the operator that is applied last binds at least as
tight, and what stands to its right binds tighter. -/
inductive Grouped (combine : BinaryOperator → α → α → α) : Chain α → α → Prop where
  | single (x : α) : Grouped combine ⟨x, []⟩ x
  | join {l r : Chain α} {op : BinaryOperator} {x y : α} (hl : Grouped combine l x)
      (hr : Grouped combine r y) (hleft : ∀ o ∈ l.operators, op.precedence ≤ o.precedence)
      (hright : ∀ o ∈ r.operators, op.precedence < o.precedence) :
      Grouped combine (l.join op r) (combine op x y)

variable {combine : BinaryOperator → α → α → α}

/-! ## 1. There is one grouping at most -/

/-- Of two operators of a chain, only one can be the one that is applied last. -/
theorem not_both_last {y' : α} {L M R' : List (BinaryOperator × α)}
    (hright : ∀ o ∈ operators ⟨y, M ++ (op', y') :: R'⟩, op.precedence < o.precedence)
    (hleft : ∀ o ∈ operators ⟨x, L ++ (op, y) :: M⟩, op'.precedence ≤ o.precedence) : False := by
  have h₁ := hright op' (List.mem_map.mpr ⟨(op', y'), by simp, rfl⟩)
  have h₂ := hleft op (List.mem_map.mpr ⟨(op, y), by simp, rfl⟩)
  omega

theorem join_inj {l' r' : Chain α} (h : l.join op r = l'.join op' r')
    (hleft : ∀ o ∈ l.operators, op.precedence ≤ o.precedence)
    (hright : ∀ o ∈ r.operators, op.precedence < o.precedence)
    (hleft' : ∀ o ∈ l'.operators, op'.precedence ≤ o.precedence)
    (hright' : ∀ o ∈ r'.operators, op'.precedence < o.precedence) : l = l' ∧ op = op' ∧ r = r' := by
  obtain ⟨x, L⟩ := l
  obtain ⟨x', L'⟩ := l'
  obtain ⟨y, R⟩ := r
  obtain ⟨y', R'⟩ := r'
  obtain ⟨rfl, hrest⟩ := Chain.mk.inj h
  change L ++ (op, y) :: R = L' ++ (op', y') :: R' at hrest
  rcases List.append_eq_append_iff.mp hrest with ⟨M, rfl, hR⟩ | ⟨M, rfl, hR⟩ <;> cases M with
  | nil =>
    obtain ⟨hop, rfl⟩ := List.cons.inj hR
    obtain ⟨rfl, rfl⟩ := Prod.mk.inj hop
    rw [List.append_nil]
    exact ⟨rfl, rfl, rfl⟩
  | cons m M =>
    obtain ⟨rfl, rfl⟩ := List.cons.inj hR
    first
    | exact (not_both_last hright hleft').elim
    | exact (not_both_last hright' hleft).elim

theorem Grouped.unique {c : Chain α} (hx : Grouped combine c x) (hy : Grouped combine c y) : x = y := by
  induction hx generalizing y with
  | single x =>
    generalize hc : (⟨x, []⟩ : Chain α) = c at hy
    cases hy with
    | single _ => exact (Chain.mk.inj hc).1
    | join _ _ _ _ => exact absurd hc.symm join_ne_single
  | @join l r op x z _ _ hleft hright ih₁ ih₂ =>
    generalize hc : l.join op r = c at hy
    cases hy with
    | single _ => exact absurd hc join_ne_single
    | join hl hr hleft' hright' =>
      obtain ⟨rfl, rfl, rfl⟩ := join_inj hc hleft hright hleft' hright'
      rw [ih₁ hl, ih₂ hr]

/-! ## 2. Grouping finds it -/

/-- The chain that waiting pieces and the piece behind them make up. -/
def spread : List (Chain α × BinaryOperator) → Chain α → Chain α
  | [], d => d
  | (c, op) :: pieces, d => spread pieces (c.join op d)

theorem spread_join (pieces : List (Chain α × BinaryOperator)) (d e : Chain α) (op : BinaryOperator) :
    (spread pieces d).join op e = spread pieces (d.join op e) := by
  induction pieces generalizing d with
  | nil => rfl
  | cons piece pieces ih => rw [spread, spread, ih, join_assoc]

/-- Operators that bind tighter than the one that waits last. -/
def Above (waiting : Waiting α) (ops : List BinaryOperator) : Prop :=
  ∀ lhs op rest, waiting = (lhs, op) :: rest → ∀ o ∈ ops, op.precedence < o.precedence

/-- The operands that wait are groupings of pieces of the chain, and an operator that waits longer binds less
tight. -/
inductive Stacked (combine : BinaryOperator → α → α → α) :
    Waiting α → List (Chain α × BinaryOperator) → Prop where
  | nil : Stacked combine [] []
  | cons {waiting : Waiting α} {pieces : List (Chain α × BinaryOperator)} {c : Chain α} {x : α}
      {op : BinaryOperator} (h : Stacked combine waiting pieces) (hc : Grouped combine c x)
      (hleft : ∀ o ∈ c.operators, op.precedence ≤ o.precedence)
      (habove : Above waiting (op :: c.operators)) :
      Stacked combine ((x, op) :: waiting) ((c, op) :: pieces)

/-- Settling puts pieces together until the operator that waits last binds less tight. -/
theorem Stacked.settle {d : Chain α} {p : Nat} (h : Stacked combine waiting pieces) (hd : Grouped combine d x)
    (habove : Above waiting d.operators) (hp : ∀ o ∈ d.operators, p ≤ o.precedence) :
    ∃ waiting' y pieces' d', Chain.settle combine p waiting x = (waiting', y) ∧
      Stacked combine waiting' pieces' ∧ Grouped combine d' y ∧ spread pieces' d' = spread pieces d ∧
      Above waiting' d'.operators ∧ (∀ o ∈ d'.operators, p ≤ o.precedence) ∧
      ∀ lhs op rest, waiting' = (lhs, op) :: rest → op.precedence < p := by
  induction h generalizing d x with
  | nil => exact ⟨[], x, [], d, rfl, .nil, hd, rfl, habove, hp, fun _ _ _ h => nomatch h⟩
  | @cons waiting pieces c y op h hc hleft hbelow ih =>
    unfold Chain.settle
    by_cases hle : p ≤ op.precedence
    · rw [if_pos hle]
      -- the piece on top, its operator and the last piece become one piece
      have hright := habove y op waiting rfl
      refine ih (hc.join hd hleft hright) ?_ ?_
      · intro lhs op' rest hw o ho
        rw [operators_join, List.mem_append, List.mem_cons] at ho
        have hop := hbelow lhs op' rest hw op List.mem_cons_self
        rcases ho with ho | rfl | ho
        · exact hbelow lhs op' rest hw o (List.mem_cons_of_mem _ ho)
        · exact hop
        · exact hop.trans (hright o ho)
      · intro o ho
        rw [operators_join, List.mem_append, List.mem_cons] at ho
        rcases ho with ho | rfl | ho
        · exact hle.trans (hleft o ho)
        · exact hle
        · exact hp o ho
    · rw [if_neg hle]
      refine ⟨_, x, _, d, rfl, .cons h hc hleft hbelow, hd, rfl, habove, hp, ?_⟩
      rintro lhs op' rest ⟨⟩
      omega

theorem Stacked.groupFrom (h : Stacked combine waiting pieces) (operand : α) (rest : List (BinaryOperator × α)) :
    Grouped combine (spread pieces ⟨operand, rest⟩) (Chain.groupFrom combine waiting operand rest) := by
  induction rest generalizing waiting pieces operand with
  | nil =>
    obtain ⟨waiting', y, pieces', d', hsettle, hstack, hd', hspread, -, -, htop⟩ := h.settle (p := 0)
      (.single operand) (fun _ _ _ _ o ho => nomatch ho) fun o ho => nomatch ho
    rw [Chain.groupFrom, hsettle, ← hspread]
    cases hstack with
    | nil => exact hd'
    | cons _ _ _ _ => exact absurd (htop _ _ _ rfl) (Nat.not_lt_zero _)
  | cons first rest ih =>
    obtain ⟨op, next⟩ := first
    obtain ⟨waiting', y, pieces', d', hsettle, hstack, hd', hspread, habove, hp, htop⟩ :=
      h.settle (p := op.precedence) (.single operand) (fun _ _ _ _ o ho => nomatch ho) fun o ho => nomatch ho
    -- What is left waiting binds less tightly than `op`, so that `op` may wait on top of it.
    have hnext : Stacked combine ((y, op) :: waiting') ((d', op) :: pieces') := by
      refine .cons hstack hd' hp fun lhs op' rest' hw o ho => ?_
      rcases List.mem_cons.mp ho with rfl | ho
      · exact htop lhs op' rest' hw
      · exact habove lhs op' rest' hw o ho
    rw [Chain.groupFrom, hsettle]
    have hgrouped := ih hnext next
    rw [spread, ← spread_join, hspread, spread_join] at hgrouped
    exact hgrouped

theorem grouped_iff (c : Chain α) (x : α) : Grouped combine c x ↔ x = c.group combine := by
  have hgroup : Grouped combine c (c.group combine) := Stacked.nil.groupFrom c.first c.rest
  constructor
  · exact fun h => h.unique hgroup
  · rintro rfl
    exact hgroup

end Mila.Chain
