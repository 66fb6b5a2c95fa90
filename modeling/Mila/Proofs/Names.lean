import Mathlib
import Mila.Names

/-! # Names, looked up

What looking a name up gives after each change to the tables of names.
-/

namespace Mila

namespace NameTable

variable {α : Type}

theorem ite_compare (name other : String) (x y : α) :
    (if compare name other = .eq then x else y) = if other = name then x else y := by
  by_cases h : other = name
  · rw [if_pos h, if_pos (by rw [h]; exact Std.ReflCmp.compare_self)]
  · rw [if_neg h, if_neg (fun he => h (Std.LawfulEqCmp.eq_of_compare he).symm)]

theorem getElem?_insert (t : NameTable α) (name other : String) (x : α) :
    (t.insert name x)[other]? = if other = name then some x else t[other]? :=
  Std.TreeMap.getElem?_insert.trans (ite_compare name other _ _)

theorem getElem?_erase (t : NameTable α) (name other : String) :
    (t.erase name)[other]? = if other = name then none else t[other]? :=
  Std.TreeMap.getElem?_erase.trans (ite_compare name other _ _)

end NameTable

namespace Globals

theorem subprogram?_register (g : Globals) (name other : String) (entry : Subprogram) :
    (g.register name entry).subprogram? other =
      if other = name then some entry else g.subprogram? other :=
  NameTable.getElem?_insert _ _ _ _

variable {g g' : Globals} {name : String} {w : Word}

theorem subprogram?_defineConstant? (h : g.defineConstant? name w = some g') (other : String) :
    g'.subprogram? other = g.subprogram? other := by
  unfold defineConstant? at h
  split at h
  · cases h
  · rw [← Option.some.inj h]
    rfl

theorem constant?_of_defineConstant? (h : g.defineConstant? name w = some g') : g.constant? name = none := by
  unfold defineConstant? at h
  split at h
  · cases h
  · next hnone => exact hnone

theorem constant?_defineConstant? (h : g.defineConstant? name w = some g') (other : String) :
    g'.constant? other = if other = name then some w else g.constant? other := by
  unfold defineConstant? at h
  split at h
  · cases h
  · rw [← Option.some.inj h]
    exact NameTable.getElem?_insert _ _ _ _

end Globals

namespace Locals

variable {l l' : Locals} {name : String} {b : Binding}

theorem get?_declare? (h : l.declare? name b = some l')
    (other : String) : l'.get? other = if other = name then some b else l.get? other := by
  unfold declare? at h
  split at h
  · cases h
  · rw [← Option.some.inj h]
    exact NameTable.getElem?_insert _ _ _ _

theorem get?_of_declare? (h : l.declare? name b = some l') : l.get? name = none := by
  unfold declare? at h
  split at h
  · cases h
  · next hnone => exact hnone

theorem get?_shadow (l : Locals) (name : String) (b : Binding) (other : String) :
    (l.shadow name b).2.get? other = if other = name then some b else l.get? other :=
  NameTable.getElem?_insert _ _ _ _

theorem get?_restore (l : Locals) (name : String) (saved : Option Binding) (other : String) :
    (l.restore name saved).get? other = if other = name then saved else l.get? other := by
  cases saved with
  | some b => exact NameTable.getElem?_insert _ _ _ _
  | none => exact NameTable.getElem?_erase _ _ _

/-- Giving a name the binding that it has changes nothing. -/
theorem ite_get? (h : l.get? name = some b) (other : String) :
    (if other = name then some b else l.get? other) = l.get? other := by
  split
  · next he => rw [he, h]
  · rfl

end Locals

end Mila
