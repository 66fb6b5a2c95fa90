import Mila.Proofs.Compiled
import Mila.Proofs.Renumbering

/-! # Recording what is terminated

A target that keeps code, and besides notes every block that it was asked to terminate, together with the
exit that the block had before. What a compilation does to it tells in which order blocks were terminated,
and whether any was terminated twice. Apart from the notes, compiling into it is the same as compiling into
code.
-/

namespace Mila

/-- Code, and a note for each block that was terminated, with the exit that it had before. -/
structure Recording where
  code : Code
  notes : List (BlockRef × Option Exit)

def Recording.empty : Recording := ⟨.empty, []⟩

instance : Target Recording where
  addRoutine k name params :=
    ((k.code.addRoutine name params).1, { k with code := (k.code.addRoutine name params).2 })
  addBlock k g label := ((k.code.addBlock g label).1, { k with code := (k.code.addBlock g label).2 })
  define k place op := ((k.code.define place op).1, { k with code := (k.code.define place op).2 })
  store k place value address := { k with code := k.code.store place value address }
  terminate k place e :=
    ⟨k.code.terminate place e, k.notes ++ [(place, k.code.exit? place)]⟩

/-! ## 1. Notes -/

/-- There is one note for each block that has an exit, and the block had none before. -/
structure Recording.Intact (k : Recording) : Prop where
  once : (k.notes.map Prod.fst).Nodup
  before : ∀ note ∈ k.notes, note.2 = none
  closed : ∀ place, place ∈ k.notes.map Prod.fst ↔ (k.code.exit? place).isSome

theorem Recording.Intact.empty : Recording.empty.Intact where
  once := List.nodup_nil
  before _ h := by cases h
  closed place := by
    have hnone : Recording.empty.code.exit? place = none := by
      unfold Code.exit? Code.block?
      rw [show Recording.empty.code.routines[place.routine]? = none from Array.getElem?_empty]
      rfl
    rw [hnone]
    constructor
    · intro h
      cases h
    · intro h
      cases h

/-- The notes stay right when no block gets or loses its exit. -/
theorem Recording.Intact.keep {k : Recording} (h : k.Intact) {c : Code}
    (hsame : ∀ place, c.exit? place = k.code.exit? place) : Recording.Intact { k with code := c } :=
  ⟨h.once, h.before, fun place => by rw [hsame]; exact h.closed place⟩

/-- A block without exit that gets one is noted for the first time. -/
theorem Recording.Intact.terminate {k : Recording} (h : k.Intact) {place : BlockRef} {b : Block}
    (hb : k.code.block? place = some b) (hopen : b.exit = none) (e : Exit) :
    Recording.Intact ⟨k.code.terminate place e, k.notes ++ [(place, k.code.exit? place)]⟩ := by
  have hexit : k.code.exit? place = none := by
    unfold Code.exit?
    rw [hb, Option.bind_some, hopen]
  have hnew : place ∉ k.notes.map Prod.fst := by
    rw [h.closed, hexit]
    exact Bool.false_ne_true
  refine ⟨?_, ?_, fun other => ?_⟩
  · rw [List.map_append]
    refine h.once.append (List.nodup_singleton _) fun z hz hz' => ?_
    rw [List.mem_singleton.mp hz'] at hz
    exact hnew hz
  · intro note hnote
    rcases List.mem_append.mp hnote with hnote | hnote
    · exact h.before note hnote
    · rw [List.mem_singleton.mp hnote]
      exact hexit
  · rw [List.map_append, List.mem_append, h.closed, Code.exit?_terminate hb]
    by_cases ho : other = place
    · rw [if_pos ho]
      simp [ho]
    · rw [if_neg ho]
      simp [ho]

instance : Target.Faithful Recording where
  code k := k.code
  Intact := Recording.Intact
  addRoutine_fst _ _ _ := rfl
  code_addRoutine _ _ _ := rfl
  intact_addRoutine k name params h := h.keep (k.code.exit?_addRoutine name params)
  addBlock_fst _ _ _ := rfl
  code_addBlock _ _ _ := rfl
  intact_addBlock k g label h := h.keep (k.code.exit?_addBlock g label)
  define_fst _ _ _ := rfl
  code_define _ _ _ := rfl
  intact_define k place op h := h.keep fun other => k.code.exit?_define place other op
  code_store _ _ _ _ := rfl
  intact_store k place v a h := h.keep fun other => k.code.exit?_store place other v a
  code_terminate _ _ _ _ _ _ := rfl
  intact_terminate _ _ _ e hb hopen h := h.terminate hb hopen e

/-! ## 2. Forgetting the notes -/

/-- The code of a recording goes along with it. -/
def Recording.forgetful : Renumbering Recording Code where
  code := Recording.code
  routine := id
  addRoutine _ _ _ := rfl
  addBlock _ _ _ := rfl
  define k place op := by
    rw [op.renumber_id]
    rfl
  store _ _ _ _ := rfl
  terminate k place e := by
    rw [e.renumber_id]
    rfl

/-- Compiling into a recording gives the same code as compiling into code. -/
theorem Program.compileInto_forget (p : Program) (k : Recording) :
    p.compileInto k.code = ((p.compileInto k).1, (p.compileInto k).2.code) :=
  Recording.forgetful.compileInto p k

end Mila
