import Mila.Word
import Std.Data.TreeMap

/-! # Memory

Memory is a stack of allocations, each of a fixed number of cells that start out as zero. Only the cells
that were written are kept, so the room an allocation takes depends on its use and not on its size.
-/

namespace Mila

/-- The cells of one allocation. -/
structure Cells where
  size : Nat
  written : Std.TreeMap Nat Word

namespace Cells

/-- Fresh cells. -/
def zeros (size : Nat) : Cells := ⟨size, ∅⟩

/-- The cell at a place counted from zero. -/
def get? (c : Cells) : Int → Option Word
  | .ofNat i => if i < c.size then some (c.written.getD i 0) else none
  | .negSucc _ => none

/-- Writes to the cell at a place counted from zero. -/
def set? (c : Cells) (i : Int) (w : Word) : Option Cells :=
  match i with
  | .ofNat i => if i < c.size then some { c with written := c.written.insert i w } else none
  | .negSucc _ => none

@[simp] theorem size_zeros (size : Nat) : (zeros size).size = size := rfl

theorem get?_zeros (size : Nat) (i : Int) :
    (zeros size).get? i = if 0 ≤ i ∧ i < size then some 0 else none := by
  cases i with
  | ofNat i => simp [get?, zeros]
  | negSucc i => simp [get?]

theorem get?_isSome_iff (c : Cells) (i : Int) : (c.get? i).isSome ↔ 0 ≤ i ∧ i < c.size := by
  cases i with
  | ofNat i => simp [get?]
  | negSucc i => simp [get?]

theorem set?_isSome_iff (c : Cells) (i : Int) (w : Word) :
    (c.set? i w).isSome ↔ 0 ≤ i ∧ i < c.size := by
  cases i with
  | ofNat i => simp [set?]
  | negSucc i => simp [set?]

theorem size_of_set? {c d : Cells} {i : Int} {w : Word} (h : c.set? i w = some d) :
    d.size = c.size := by
  cases i with
  | ofNat i =>
    simp only [set?, Option.ite_none_right_eq_some] at h
    rw [← Option.some.inj h.2]
  | negSucc i => simp [set?] at h

/-- Writing a cell changes that cell and no other. -/
theorem get?_of_set? {c d : Cells} {i : Int} {w : Word} (h : c.set? i w = some d) (j : Int) :
    d.get? j = if j = i then some w else c.get? j := by
  cases i with
  | negSucc i => simp [set?] at h
  | ofNat i =>
    simp only [set?, Option.ite_none_right_eq_some] at h
    obtain ⟨hi, hd⟩ := h
    rw [← Option.some.inj hd]
    cases j with
    | negSucc j => simp [get?]
    | ofNat j =>
      by_cases hij : j = i
      · subst hij
        simp [get?, hi]
      · rw [if_neg fun h => hij (Int.ofNat.inj h)]
        simp [get?, Std.TreeMap.getD_insert, Ne.symm hij]

end Cells

/-- The place of a cell: an allocation and an index into it, which may lie outside its cells. -/
structure Address where
  allocation : Nat
  index : Int
  deriving DecidableEq, Repr

end Mila
