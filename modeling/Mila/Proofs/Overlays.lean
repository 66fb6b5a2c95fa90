import Mila.Proofs.Names

/-! # Bindings laid over one another

A table of variables is one flat map, and whoever binds a name for a while keeps the binding that it had. As long as
each of these bindings is given back before those that were kept earlier, this comes to a base of declarations, which
only grows, and a stack of bindings laid over it.
-/

namespace Mila

/-! ## 1. Requests -/

namespace Locals

inductive Request where
  | declare (name : String) (binding : Binding)
  | get (name : String)
  | shadow (name : String) (binding : Binding)
  | restore (name : String) (saved : Option Binding)
  deriving DecidableEq, Repr

inductive Answer where
  | declared (success : Bool)
  | found (binding : Option Binding)
  | replaced (binding : Option Binding)
  | restored
  deriving DecidableEq, Repr

def serve (l : Locals) : Request → Answer × Locals
  | .declare name b =>
    match l.declare? name b with
    | some l' => (.declared true, l')
    | none => (.declared false, l)
  | .get name => (.found (l.get? name), l)
  | .shadow name b => (.replaced (l.shadow name b).1, (l.shadow name b).2)
  | .restore name saved => (.restored, l.restore name saved)

theorem serve_declare (l : Locals) (name : String) (b : Binding) : l.serve (.declare name b) =
    if (l.get? name).isSome then (.declared false, l) else (.declared true, ⟨l.bindings.insert name b⟩) := by
  simp only [serve, declare?]
  cases l.get? name <;> rfl

end Locals

/-- A base of declarations, and bindings of single names laid over it, the topmost first. -/
structure Overlays where
  base : NameTable Binding
  layers : List (String × Binding)

namespace Overlays

/-- The topmost binding of a name, or else that of the base. -/
def get? (o : Overlays) (name : String) : Option Binding := (o.layers.lookup name).or o.base[name]?

def serve (o : Overlays) : Locals.Request → Locals.Answer × Overlays
  | .declare name b =>
    if (o.get? name).isSome then (.declared false, o)
    else (.declared true, { o with base := o.base.insert name b })
  | .get name => (.found (o.get? name), o)
  | .shadow name b => (.replaced (o.get? name), { o with layers := (name, b) :: o.layers })
  | .restore _ _ => (.restored, { o with layers := o.layers.tail })

end Overlays

/-! ## 2. Histories -/

namespace Locals

section

variable {σ : Type} (serve : σ → Request → Answer × σ)

/-- Requests one after the other, each with its answer. -/
def history (s : σ) : List Request → List (Request × Answer)
  | [] => []
  | r :: rs => (r, (serve s r).1) :: history (serve s r).2 rs

/-- What is left after all requests. -/
def settled (s : σ) (rs : List Request) : σ := rs.foldl (fun s r => (serve s r).2) s

end

/-- The shadows that are not undone yet, the latest first: each with its name and the binding that it gave back.
There is no such list if something else than the latest of them is to be undone. -/
def pending? (saved : List (String × Option Binding)) :
    List (Request × Answer) → Option (List (String × Option Binding))
  | [] => some saved
  | (.shadow name _, .replaced old) :: rest => pending? ((name, old) :: saved) rest
  | (.restore name old, _) :: rest => if saved.head? = some (name, old) then pending? saved.tail rest else none
  | _ :: rest => pending? saved rest

/-- The binding that a request declared. -/
def declaration? : Request × Answer → Option (String × Binding)
  | (.declare name b, .declared true) => some (name, b)
  | _ => none

/-- The declarations that succeeded, in order. -/
def declarations (h : List (Request × Answer)) : List (String × Binding) := h.filterMap declaration?

end Locals

/-! ## 3. The base -/

namespace Overlays

open Locals

variable {o : Overlays} {name : String}

theorem get?_eq_none_iff : o.get? name = none ↔ o.layers.lookup name = none ∧ o.base[name]? = none :=
  Option.or_eq_none_iff

/-- What is declared stays declared as it was at first, whatever is laid over it. -/
theorem base_settled (o : Overlays) (rs : List Locals.Request) : (∀ name, (settled serve o rs).base[name]? =
      o.base[name]?.or ((declarations (history serve o rs)).lookup name)) ∧
    ((declarations (history serve o rs)).map Prod.fst).Nodup ∧
    ∀ d ∈ declarations (history serve o rs), o.base[d.1]? = none := by
  induction rs generalizing o with
  | nil => exact ⟨fun name => Option.or_none.symm, .nil, fun d hd => nomatch hd⟩
  | cons r rs ih =>
    cases r with
    | get | shadow | restore => exact ih _
    | declare name b =>
      by_cases hfound : (o.get? name).isSome
      · have hserve : o.serve (.declare name b) = (.declared false, o) := if_pos hfound
        rw [settled, List.foldl_cons, ← settled, history, hserve]
        exact ih o
      · have hserve : o.serve (.declare name b) = (.declared true, { o with base := o.base.insert name b }) :=
          if_neg hfound
        have hdeclared : declarations (history serve o (.declare name b :: rs)) =
            (name, b) :: declarations (history serve { o with base := o.base.insert name b } rs) := by
          rw [history, hserve]
          rfl
        rw [settled, List.foldl_cons, ← settled, hserve, hdeclared]
        have hnew := (get?_eq_none_iff.mp (Option.not_isSome_iff_eq_none.mp hfound)).2
        obtain ⟨hbase, hnodup, hfresh⟩ := ih { o with base := o.base.insert name b }
        -- later declarations are of other names, since this one is in the base from now on
        have hlater : ∀ d ∈ declarations (history serve { o with base := o.base.insert name b } rs),
            d.1 ≠ name ∧ o.base[d.1]? = none := by
          intro d hd
          have hd := (NameTable.getElem?_insert _ _ _ _).symm.trans (hfresh d hd)
          split at hd
          · cases hd
          · next hne => exact ⟨hne, hd⟩
        refine ⟨fun other => ?_, List.nodup_cons.mpr ⟨fun hmem => ?_, hnodup⟩,
          List.forall_mem_cons.mpr ⟨hnew, fun d hd => (hlater d hd).2⟩⟩
        · rw [hbase, NameTable.getElem?_insert, List.lookup_cons]
          by_cases hname : other = name
          · rw [if_pos hname, hname, beq_self_eq_true, hnew]
            rfl
          · rw [if_neg hname, beq_false_of_ne hname]
        · obtain ⟨d, hd, hname⟩ := List.mem_map.mp hmem
          exact (hlater d hd).1 hname

/-! ## 4. Bindings that are kept -/

/-- What each layer hides, with its name. -/
def hidden (base : NameTable Binding) : List (String × Binding) → List (String × Option Binding)
  | [] => []
  | (name, _) :: layers => (name, get? ⟨base, layers⟩ name) :: hidden base layers

/-- A new declaration is not hidden by anything. -/
theorem hidden_insert {layers : List (String × Binding)} (h : layers.lookup name = none) (base : NameTable Binding)
    (b : Binding) : hidden (base.insert name b) layers = hidden base layers := by
  induction layers with
  | nil => rfl
  | cons layer layers ih =>
    obtain ⟨other, c⟩ := layer
    rw [List.lookup_cons] at h
    split at h
    · cases h
    · next hne =>
      rw [hidden, hidden, ih h, get?, get?, NameTable.getElem?_insert, if_neg]
      rintro rfl
      rw [beq_self_eq_true] at hne
      cases hne

end Overlays

namespace Locals

/-- A table where the topmost bindings are found, while `saved` has the bindings beneath them. -/
structure Represents (l : Locals) (saved : List (String × Option Binding)) (o : Overlays) : Prop where
  get : ∀ name, l.get? name = o.get? name
  saved : saved = Overlays.hidden o.base o.layers

namespace Represents

variable {l : Locals} {saved : List (String × Option Binding)} {o : Overlays} (h : l.Represents saved o)

include h

theorem declare (name : String) (b : Binding) : (o.serve (.declare name b)).1 = (l.serve (.declare name b)).1 ∧
    (l.serve (.declare name b)).2.Represents saved (o.serve (.declare name b)).2 := by
  rw [serve_declare, Overlays.serve, h.get name]
  split
  · exact ⟨rfl, h⟩
  · next hfound =>
    have hfree := (Overlays.get?_eq_none_iff.mp (Option.not_isSome_iff_eq_none.mp hfound)).1
    refine ⟨rfl, fun other => ?_, h.saved.trans (Overlays.hidden_insert hfree o.base b).symm⟩
    rw [Overlays.get?, NameTable.getElem?_insert]
    refine (NameTable.getElem?_insert _ _ _ _).trans ?_
    split
    · next hname => rw [hname, hfree, Option.none_or]
    · exact h.get other

theorem shadow (name : String) (b : Binding) : (o.serve (.shadow name b)).1 = (l.serve (.shadow name b)).1 ∧
    (l.shadow name b).2.Represents ((name, (l.shadow name b).1) :: saved) (o.serve (.shadow name b)).2 := by
  refine ⟨congrArg Answer.replaced (h.get name).symm, fun other => ?_, ?_⟩
  · rw [get?_shadow, Overlays.serve, Overlays.get?, List.lookup_cons]
    by_cases hname : other = name
    · rw [if_pos hname, hname, beq_self_eq_true]
      rfl
    · rw [if_neg hname, beq_false_of_ne hname]
      exact h.get other
  · rw [h.saved, show (l.shadow name b).1 = o.get? name from h.get name]
    rfl

theorem restore {name : String} {old : Option Binding} (hlatest : saved.head? = some (name, old)) :
    (l.restore name old).Represents saved.tail (o.serve (.restore name old)).2 := by
  obtain ⟨base, layers⟩ := o
  cases layers with
  | nil =>
    rw [h.saved] at hlatest
    cases hlatest
  | cons layer layers =>
    obtain ⟨top, b⟩ := layer
    rw [h.saved] at hlatest ⊢
    obtain ⟨rfl, rfl⟩ := Prod.mk.inj (Option.some.inj hlatest)
    refine ⟨fun other => ?_, rfl⟩
    rw [get?_restore, h.get]
    split
    · next hname =>
      rw [hname]
      rfl
    · next hname =>
      rw [Overlays.get?, List.lookup_cons, beq_false_of_ne hname]
      rfl

/-- All requests one after the other, as long as bindings are given back in order. -/
theorem history (rs : List Request) {saved' : List (String × Option Binding)}
    (hpending : pending? saved (history serve l rs) = some saved') :
    Locals.history serve l rs = Locals.history Overlays.serve o rs ∧
    (settled serve l rs).Represents saved' (settled Overlays.serve o rs) := by
  induction rs generalizing l saved o with
  | nil => exact ⟨rfl, Option.some.inj hpending ▸ h⟩
  | cons r rs ih =>
    have hstep : ∃ saved₁, pending? saved₁ (Locals.history serve (l.serve r).2 rs) = some saved' ∧
        (o.serve r).1 = (l.serve r).1 ∧ (l.serve r).2.Represents saved₁ (o.serve r).2 := by
      cases r with
      | declare name b => exact ⟨saved, hpending, h.declare name b⟩
      | get name => exact ⟨saved, hpending, congrArg Answer.found (h.get name).symm, h⟩
      | shadow name b => exact ⟨_, hpending, h.shadow name b⟩
      | restore name old =>
        rw [Locals.history, pending?] at hpending
        split at hpending
        · next hlatest => exact ⟨saved.tail, hpending, rfl, h.restore hlatest⟩
        · cases hpending
    obtain ⟨saved₁, hrest, hanswer, hafter⟩ := hstep
    obtain ⟨hhistory, hend⟩ := ih hafter hrest
    exact ⟨by rw [Locals.history, Locals.history, hanswer, hhistory], hend⟩

end Represents

/-- Whatever is asked of a table of variables, if each `restore` undoes the latest `shadow` that is not undone yet,
then the answers are those of a base with layers on it. In the base there is what the table had at first and, as they
were declared, the names whose declaration succeeded, each of which succeeded once and was not there before. And once
all shadows are undone, the base is all there is. -/
theorem history_eq_overlays (l : Locals) (rs : List Request) {saved : List (String × Option Binding)}
    (hpending : pending? [] (history serve l rs) = some saved) : let o := settled Overlays.serve ⟨l.bindings, []⟩ rs
    let declared := declarations (history serve l rs)
    history serve l rs = history Overlays.serve ⟨l.bindings, []⟩ rs ∧
    (∀ name, (settled serve l rs).get? name = o.get? name) ∧
    saved = Overlays.hidden o.base o.layers ∧
    (∀ name, o.base[name]? = (l.get? name).or (declared.lookup name)) ∧
    (declared.map Prod.fst).Nodup ∧ (∀ d ∈ declared, l.get? d.1 = none) ∧
    (saved = [] → ∀ name, (settled serve l rs).get? name = (l.get? name).or (declared.lookup name)) := by
  intro o declared
  have hstart : l.Represents [] ⟨l.bindings, []⟩ := ⟨fun name => rfl, rfl⟩
  obtain ⟨hhistory, hget, hsaved⟩ := hstart.history rs hpending
  obtain ⟨hbase, hnodup, hnew⟩ := Overlays.base_settled ⟨l.bindings, []⟩ rs
  rw [← hhistory] at hbase hnodup hnew
  refine ⟨hhistory, hget, hsaved, hbase, hnodup, hnew, fun hdone name => ?_⟩
  -- a layer would leave something to give back
  have hlayers : o.layers = [] := by
    rw [hdone] at hsaved
    cases hlayers : o.layers with
    | nil => rfl
    | cons layer layers =>
      rw [hlayers] at hsaved
      cases hsaved
  rw [hget name, Overlays.get?, hlayers]
  exact hbase name

/-- Two loops over one variable with a loop over an undeclared one between them, and declarations inside of them. -/
theorem history_eq_overlays_nested : let i : Nat → Binding := (⟨·, .scalar⟩)
    let l : Locals := ⟨(∅ : NameTable Binding).insert "i" (i 0)⟩
    let rs : List Request := [.shadow "i" (i 1), .shadow "j" (i 2), .declare "k" (i 3), .shadow "i" (i 4), .get "i",
      .declare "j" (i 5), .restore "i" (some (i 1)), .get "i", .restore "j" none, .declare "j" (i 6),
      .restore "i" (some (i 0)), .declare "i" (i 7)]
    history serve l rs = history Overlays.serve ⟨l.bindings, []⟩ rs ∧
    declarations (history serve l rs) = [("k", i 3), ("j", i 6)] ∧
    ∀ name, (settled serve l rs).get? name = (l.get? name).or (List.lookup name [("k", i 3), ("j", i 6)]) := by
  intro i l rs
  have hpending : pending? [] (history serve l rs) = some [] := by decide +kernel
  have hdeclared : declarations (history serve l rs) = [("k", i 3), ("j", i 6)] := by decide +kernel
  obtain ⟨hhistory, -, -, -, -, -, hdone⟩ := history_eq_overlays l rs hpending
  rw [hdeclared] at hdone
  exact ⟨hhistory, hdeclared, hdone rfl⟩

end Locals

end Mila
