import Mila.Proofs.Evaluator
import Mila.Proofs.Names
import Mila.Proofs.Regions
import Mila.Proofs.Steps

/-! # States of machines and of evaluations

How an activation of a routine and the machine it runs on correspond to the world of an evaluation: each
variable has an allocation of its own, whose cells hold what the variable holds, and the slot of the variable
is a register with the address of its index zero.
-/

namespace Mila

/-! ## 1. Variables and their cells -/

namespace Variable

def shape : Variable → Shape
  | scalar _ => .scalar
  | array _ _ _ => .array

/-- The index of the first cell. A plain variable has the one cell zero. -/
def low : Variable → Int
  | scalar _ => 0
  | array low _ _ => low

/-- The cell with an index. -/
def cell? : Variable → Int → Option Word
  | scalar v, i => if i = 0 then some v else none
  | array low high cells, i => if low ≤ i ∧ i ≤ high then some (cells i) else none

/-- The variable with one cell changed. -/
def set : Variable → Int → Word → Variable
  | scalar _, _, v => scalar v
  | array low high cells, i, v => array low high (Function.update cells i v)

/-- The variable that a declaration makes. -/
def ofDecl (d : VariableDecl) : Variable :=
  if d.isArray then array (-d.offset.toInt) (-d.offset.toInt + d.length - 1) fun _ => 0 else scalar 0

@[simp] theorem shape_set (x : Variable) (i : Int) (v : Word) : (x.set i v).shape = x.shape := by
  cases x <;> rfl

@[simp] theorem low_set (x : Variable) (i : Int) (v : Word) : (x.set i v).low = x.low := by
  cases x <;> rfl

/-- Changing a cell changes no other one. -/
theorem cell?_set {x : Variable} {i : Int} (hi : (x.cell? i).isSome) (v : Word) (j : Int) :
    (x.set i v).cell? j = if j = i then some v else x.cell? j := by
  cases x with
  | scalar u =>
    have hzero : i = 0 := by
      by_contra hne
      rw [cell?, if_neg hne] at hi
      cases hi
    subst hzero
    simp only [set, cell?]
    by_cases hj : j = 0
    · rw [if_pos hj, if_pos hj]
    · rw [if_neg hj, if_neg hj, if_neg hj]
  | array low high cells =>
    have hrange : low ≤ i ∧ i ≤ high := by
      by_contra hne
      rw [cell?, if_neg hne] at hi
      cases hi
    simp only [set, cell?]
    by_cases hj : j = i
    · rw [hj, if_pos hrange, if_pos rfl, Function.update_self]
    · rw [if_neg hj, Function.update_of_ne hj]

end Variable

/-- The cells of a variable hold what the variable holds. -/
def Cells.Store (c : Cells) (x : Variable) : Prop := ∀ i, c.get? (i - x.low) = x.cell? i

namespace Cells.Store

variable {c c' : Cells} {x : Variable}

theorem scalar : Cells.Store (.zeros 1) (.scalar 0) := by
  intro i
  rw [get?_zeros]
  simp only [Variable.low, Variable.cell?]
  congr 1
  exact propext ⟨fun h => by omega, fun h => by omega⟩

theorem array (low : Int) (length : Nat) :
    Cells.Store (.zeros length) (.array low (low + length - 1) fun _ => 0) := by
  intro i
  rw [get?_zeros]
  simp only [Variable.low, Variable.cell?]
  congr 1
  exact propext ⟨fun h => by omega, fun h => by omega⟩

theorem set {i : Int} {v : Word} (h : c.Store x) (hset : c.set? (i - x.low) v = some c') : c'.Store (x.set i v) := by
  have hi : (x.cell? i).isSome := by
    rw [← h i, get?_isSome_iff, ← set?_isSome_iff c (i - x.low) v, hset]
    rfl
  intro j
  rw [Variable.low_set, get?_of_set? hset, Variable.cell?_set hi, h j]
  congr 1
  exact propext ⟨fun h => by omega, fun h => by omega⟩

end Cells.Store

/-! ## 2. Places in the world -/

namespace Destination

def name : Destination → String
  | scalar name => name
  | element name _ => name

def shape : Destination → Shape
  | scalar _ => .scalar
  | element _ _ => .array

/-- The index of the cell. -/
def index : Destination → Int
  | scalar _ => 0
  | element _ i => i

end Destination

namespace World

/-- The world with a variable set. -/
def setVar (w : World) (name : String) (x : Variable) : World :=
  { w with vars := Function.update w.vars name (some x) }

end World

namespace Eval

section

variable {α β : Type} {e : Eval α} {f : α → Eval β} {w w' : World}

theorem bind_ok {v : α} (h : e w = .ok v w') : (e >>= f) w = f v w' := by
  change EStateM.bind e f w = _
  rw [EStateM.bind, h]

theorem bind_error {stop : Stop} (h : e w = .error stop w') : (e >>= f) w = .error stop w' := by
  change EStateM.bind e f w = _
  rw [EStateM.bind, h]

theorem get_bind (f : World → Eval β) (w : World) : (get >>= f) w = f w w := rfl

end

open Destination

variable {d : Destination} {x : Variable} {w : World}

/-- Looking at a place is looking at the cell of its variable. -/
theorem fetch_eq (hx : w.vars d.name = some x) (hshape : x.shape = d.shape) : fetch d w = match x.cell? d.index with
      | some v => .ok v w
      | none => .error (.failure .outOfBounds) w := by
  cases d with
  | scalar name =>
    cases x with
    | array low high cells => cases hshape
    | scalar v =>
      rw [fetch, get_bind, show w.vars name = _ from hx]
      rfl
  | element name i =>
    cases x with
    | scalar v => cases hshape
    | array low high cells =>
      rw [fetch, get_bind, show w.vars name = _ from hx, Variable.cell?, Destination.index]
      dsimp only
      split <;> rfl

/-- Writing to a place is changing the cell of its variable. -/
theorem put_eq (hx : w.vars d.name = some x) (hshape : x.shape = d.shape) (v : Word) :
    put d v w = match x.cell? d.index with
      | some _ => .ok () (w.setVar d.name (x.set d.index v))
      | none => .error (.failure .outOfBounds) w := by
  cases d with
  | scalar name =>
    cases x with
    | array low high cells => cases hshape
    | scalar u =>
      rw [put, get_bind, show w.vars name = _ from hx]
      rfl
  | element name i =>
    cases x with
    | scalar u => cases hshape
    | array low high cells =>
      rw [put, get_bind, show w.vars name = _ from hx, Variable.cell?, Destination.index]
      dsimp only
      split <;> rfl

theorem declare_eq (d : VariableDecl) (w : World) : declare d w = .ok () (w.setVar d.name (.ofDecl d)) := by
  unfold declare Variable.ofDecl
  split <;> rfl

end Eval

/-! ## 3. Variables in memory -/

/-- The variables lie in memory, each in an allocation of its own that is not below `base`, and the registers
that are their slots know where. -/
structure Laid (loc : String → Nat) (base : Nat) (names : String → Option Binding)
    (registers : Array Content) (memory : Array Cells) (vars : String → Option Variable) : Prop where
  absent : ∀ name, names name = none → vars name = none
  present : ∀ name b, names name = some b → ∃ x c, vars name = some x ∧ x.shape = b.shape ∧
    registers[b.slot]? = some (.address ⟨loc name, -x.low⟩) ∧ base ≤ loc name ∧
    memory[loc name]? = some c ∧ c.Store x
  apart : ∀ name other, (names name).isSome → (names other).isSome → loc name = loc other →
    name = other

namespace Laid

variable {loc : String → Nat} {base : Nat} {names names' : String → Option Binding}
  {registers registers' : Array Content} {memory : Array Cells} {vars : String → Option Variable}

theorem slots (h : Laid loc base names registers memory vars)
    (hslots : ∀ name b, names name = some b → registers'[b.slot]? = registers[b.slot]?) :
    Laid loc base names registers' memory vars := by
  refine ⟨h.absent, fun name b hb => ?_, h.apart⟩
  rw [hslots name b hb]
  exact h.present name b hb

theorem extend (h : Laid loc base names registers memory vars) {memory' : Array Cells}
    (hextends : ∀ k < memory.size, memory'[k]? = memory[k]?) : Laid loc base names registers memory' vars := by
  refine ⟨h.absent, fun name b hb => ?_, h.apart⟩
  obtain ⟨x, c, hx, hshape, hslot, hbase, hc, hstore⟩ := h.present name b hb
  obtain ⟨hlt, -⟩ := Array.getElem?_eq_some_iff.mp hc
  exact ⟨x, c, hx, hshape, hslot, hbase, (hextends _ hlt).trans hc, hstore⟩

variable {name : String} {b : Binding} {x : Variable} {c : Cells}

theorem loc_lt (h : Laid loc base names registers memory vars)
    (hname : (names name).isSome) : loc name < memory.size := by
  obtain ⟨b, hb⟩ := Option.isSome_iff_exists.mp hname
  obtain ⟨x, c, -, -, -, -, hc, -⟩ := h.present name b hb
  exact (Array.getElem?_eq_some_iff.mp hc).1

/-- A variable changes, and its allocation with it. -/
theorem put (h : Laid loc base names registers memory vars)
    (hb : names name = some b) {x' : Variable} (hx : vars name = some x)
    (hshape : x'.shape = x.shape) (hlow : x'.low = x.low) (hstore : c.Store x') :
    Laid loc base names registers (memory.setIfInBounds (loc name) c)
      (Function.update vars name (some x')) := by
  refine ⟨fun other hother => ?_, fun other b' hb' => ?_, h.apart⟩
  · rw [Function.update_of_ne fun he => ?_]
    · exact h.absent other hother
    · rw [he, hb] at hother
      cases hother
  · obtain ⟨y, cells, hy, hyshape, hslot, hbase, hcells, hystore⟩ := h.present other b' hb'
    -- the variable that changes, or one that lies elsewhere
    by_cases he : other = name
    · subst he
      obtain rfl : x = y := Option.some.inj (hx.symm.trans hy)
      obtain ⟨hlt, -⟩ := Array.getElem?_eq_some_iff.mp hcells
      refine ⟨x', c, Function.update_self .., hshape.trans hyshape, by rw [hlow]; exact hslot, hbase,
        ?_, hstore⟩
      rw [Array.getElem?_setIfInBounds_self_of_lt hlt]
    · have hne : loc name ≠ loc other := fun hloc =>
        he (h.apart other name (by rw [hb']; rfl) (by rw [hb]; rfl) hloc.symm)
      refine ⟨y, cells, by rw [Function.update_of_ne he]; exact hy, hyshape, hslot, hbase, ?_, hystore⟩
      rw [Array.getElem?_setIfInBounds_ne hne]
      exact hcells

/-- A new variable in an allocation that no other variable has. -/
theorem declare (h : Laid loc base names registers memory vars) {k : Nat} (hnone : names name = none)
    (hnames : ∀ other, names' other = if other = name then some b else names other)
    (hfresh : ∀ other, (names other).isSome → loc other ≠ k) (hshape : x.shape = b.shape)
    (hslot : registers[b.slot]? = some (.address ⟨k, -x.low⟩)) (hbase : base ≤ k)
    (hc : memory[k]? = some c) (hstore : c.Store x) : Laid (Function.update loc name k) base names' registers memory
      (Function.update vars name (some x)) := by
  have hself : names' name = some b := by rw [hnames, if_pos rfl]
  have hother : ∀ other, other ≠ name → names' other = names other ∧
      Function.update loc name k other = loc other := fun other hne =>
    ⟨by rw [hnames, if_neg hne], Function.update_of_ne hne ..⟩
  -- The new name lies in cells of its own; for every other name nothing has moved.
  refine ⟨fun other hnot => ?_, fun other b' hb' => ?_, fun o₁ o₂ h₁ h₂ hloc => ?_⟩
  · by_cases he : other = name
    · rw [he, hself] at hnot
      cases hnot
    · rw [Function.update_of_ne he]
      exact h.absent other ((hother other he).1 ▸ hnot)
  · by_cases he : other = name
    · subst he
      obtain rfl : b = b' := Option.some.inj (hself.symm.trans hb')
      rw [Function.update_self, Function.update_self]
      exact ⟨x, c, rfl, hshape, hslot, hbase, hc, hstore⟩
    · rw [(hother other he).1] at hb'
      rw [(hother other he).2, Function.update_of_ne he]
      exact h.present other b' hb'
  · by_cases he₁ : o₁ = name <;> by_cases he₂ : o₂ = name
    · rw [he₁, he₂]
    · rw [he₁, Function.update_self, (hother o₂ he₂).2] at hloc
      exact absurd hloc.symm (hfresh o₂ ((hother o₂ he₂).1 ▸ h₂))
    · rw [he₂, Function.update_self, (hother o₁ he₁).2] at hloc
      exact absurd hloc (hfresh o₁ ((hother o₁ he₁).1 ▸ h₁))
    · rw [(hother o₁ he₁).2, (hother o₂ he₂).2] at hloc
      exact h.apart o₁ o₂ ((hother o₁ he₁).1 ▸ h₁) ((hother o₂ he₂).1 ▸ h₂) hloc

end Laid

/-! ## 4. Activations and worlds -/

/-- A later site of the same routine, with the same names in force. -/
structure Site.Follows (S S' : Site) : Prop where
  routine : S'.routine = S.routine
  resultName : S'.resultName = S.resultName
  globals : S'.globals = S.globals
  locals : S'.locals.get? = S.locals.get?
  registers : S.registers ≤ S'.registers

namespace Site.Follows

variable {S S₁ S₂ : Site}

@[simp] theorem refl (S : Site) : S.Follows S := ⟨rfl, rfl, rfl, rfl, Nat.le_refl _⟩

theorem ref (h : S.Follows S₁) (x : Nat) : S₁.ref x = S.ref x := by
  unfold Site.ref
  rw [h.routine]

theorem trans (h : S.Follows S₁) (h' : S₁.Follows S₂) : S.Follows S₂ :=
  ⟨h'.routine.trans h.routine, h'.resultName.trans h.resultName, h'.globals.trans h.globals,
    h'.locals.trans h.locals, h.registers.trans h'.registers⟩

variable {x k : Nat} {name : String} {b : Binding}

/-- Which block is at hand, how many there are and how the routine is left does not matter. -/
@[simp] theorem move_left : (S.move x).Follows S₁ ↔ S.Follows S₁ := by
  constructor <;> rintro ⟨h₁, h₂, h₃, h₄, h₅⟩ <;> exact ⟨h₁, h₂, h₃, h₄, h₅⟩

@[simp] theorem move_right : S.Follows (S₁.move x) ↔ S.Follows S₁ := by
  constructor <;> rintro ⟨h₁, h₂, h₃, h₄, h₅⟩ <;> exact ⟨h₁, h₂, h₃, h₄, h₅⟩

@[simp] theorem grow_left : (S.grow k).Follows S₁ ↔ S.Follows S₁ := by
  constructor <;> rintro ⟨h₁, h₂, h₃, h₄, h₅⟩ <;> exact ⟨h₁, h₂, h₃, h₄, h₅⟩

@[simp] theorem grow_right : S.Follows (S₁.grow k) ↔ S.Follows S₁ := by
  constructor <;> rintro ⟨h₁, h₂, h₃, h₄, h₅⟩ <;> exact ⟨h₁, h₂, h₃, h₄, h₅⟩

@[simp] theorem leave_left {v : Register} : (S.leave v).Follows S₁ ↔ S.Follows S₁ := by
  constructor <;> rintro ⟨h₁, h₂, h₃, h₄, h₅⟩ <;> exact ⟨h₁, h₂, h₃, h₄, h₅⟩

theorem next (S : Site) : S.Follows S.next := ⟨rfl, rfl, rfl, rfl, Nat.le_succ _⟩

/-- Holding on to a variable changes no name. -/
theorem shadow (hb : S.locals.get? name = some b) : S.Follows { S with locals := (S.locals.shadow name b).2 } :=
  ⟨rfl, rfl, rfl, funext fun other => (Locals.get?_shadow ..).trans (Locals.ite_get? hb other), Nat.le_refl _⟩

/-- Letting go of it changes no name. -/
theorem restore (hb : S.locals.get? name = some b) (h : S₁.locals.get? = S.locals.get?) :
    S₁.Follows { S₁ with locals := S₁.locals.restore name (S.locals.shadow name b).1 } := by
  refine ⟨rfl, rfl, rfl, funext fun other => ?_, Nat.le_refl _⟩
  rw [show (S.locals.shadow name b).1 = some b from hb]
  exact (Locals.get?_restore ..).trans (Locals.ite_get? (by rw [h]; exact hb) other)

end Site.Follows

/-- The slots of variables are registers that there are. -/
def Site.Slotted (S : Site) : Prop :=
  ∀ name (b : Binding), S.locals.get? name = some b → b.slot < S.registers

theorem Site.Slotted.follow {S S' : Site} (h : S.Slotted) (hf : S.Follows S') : S'.Slotted :=
  fun name b hb => (h name b (hf.locals ▸ hb)).trans_le hf.registers

/-- What stays the same throughout a call. -/
structure Scene where
  code : Code
  /-- The memory before the call. -/
  base : Array Cells
  args : List Word

namespace Scene

/-- A machine shows what a world shows, and has left the memory before the call alone. -/
structure Shared (E : Scene) (m : Machine) (w : World) : Prop where
  input : m.input = w.input
  output : m.output.toList = w.output
  memory : ∀ k < E.base.size, m.memory[k]? = E.base[k]?

/-- An activation stands at a site, and together with the machine shows what a world shows. -/
structure Related (E : Scene) (S : Site) (a : Activation) (m : Machine) (w : World) : Prop where
  routine : E.code.routines[S.routine]? = some a.routine
  block : a.block = S.block
  done : a.done = S.index
  size : a.registers.size = a.routine.registers
  args : a.args = E.args
  slots : S.Slotted
  shared : E.Shared m w
  laid : ∃ loc, Laid loc E.base.size S.locals.get? a.registers m.memory w.vars

theorem Shared.size_le {E : Scene} {m : Machine} {w : World} (h : E.Shared m w) :
    E.base.size ≤ m.memory.size := Machine.Extends.size_le h.memory

/-- What a call allocated is all that its end releases. -/
theorem Shared.shrink {E : Scene} {m : Machine} {w : World} (h : E.Shared m w) :
    m.memory.shrink E.base.size = E.base := Machine.Extends.shrink h.memory

namespace Related

variable {E : Scene} {S T : Site} {a : Activation} {m : Machine} {w : World}

/-- Two sites that an activation stands at alike. -/
theorem congr (h : E.Related S a m w) (hroutine : T.routine = S.routine)
    (hlocals : T.locals.get? = S.locals.get?) (hblock : T.block = S.block)
    (hindex : T.index = S.index) (hslots : T.Slotted) : E.Related T a m w where
  routine := hroutine ▸ h.routine
  block := hblock ▸ h.block
  done := hindex ▸ h.done
  size := h.size
  args := h.args
  slots := hslots
  shared := h.shared
  laid := hlocals ▸ h.laid

theorem forward (h : E.Related S a m w) (hf : S.Follows T) (hblock : T.block = S.block)
    (hindex : T.index = S.index) : E.Related T a m w :=
  h.congr hf.routine hf.locals hblock hindex (h.slots.follow hf)

/-- Back at a site where code is executed again. -/
theorem back (h : E.Related S a m w) (hf : T.Follows S) (hblock : T.block = S.block)
    (hindex : T.index = S.index) (hslots : T.Slotted) : E.Related T a m w :=
  h.congr hf.routine.symm hf.locals.symm hblock hindex hslots

end Related

end Scene

/-! ## 5. Entering blocks -/

namespace Block

variable {b : Block}

theorem leadingPhis_nil (h : ∀ r L, b.body[0]? ≠ some (.define r (.phi L))) : b.leadingPhis = [] := by
  unfold leadingPhis
  rw [Array.toList_takeWhile]
  rw [← Array.getElem?_toList] at h
  cases hl : b.body.toList with
  | nil => rfl
  | cons first rest =>
    have hfirst : first.isPhi = false := by
      by_contra hphi
      obtain ⟨r, L, rfl⟩ := Instruction.isPhi_iff.mp (Bool.eq_true_of_not_eq_false hphi)
      rw [hl] at h
      exact h r L rfl
    rw [List.takeWhile_cons_of_neg (by rw [hfirst]; exact Bool.false_ne_true)]
    rfl

theorem leadingPhis_single {r : Register} {L : List (Register × BlockRef)}
    (h : b.body[0]? = some (.define r (.phi L)))
    (hrest : ∀ r' L', b.body[1]? ≠ some (.define r' (.phi L'))) : b.leadingPhis = [(r, L)] := by
  unfold leadingPhis
  rw [Array.toList_takeWhile]
  rw [← Array.getElem?_toList] at h hrest
  cases hl : b.body.toList with
  | nil =>
    rw [hl] at h
    cases h
  | cons first rest =>
    rw [hl] at h hrest
    obtain rfl : first = .define r (.phi L) := Option.some.inj h
    rw [List.takeWhile_cons_of_pos rfl]
    cases rest with
    | nil => rfl
    | cons second rest =>
      have hsecond : second.isPhi = false := by
        by_contra hphi
        obtain ⟨r', L', rfl⟩ := Instruction.isPhi_iff.mp (Bool.eq_true_of_not_eq_false hphi)
        exact hrest r' L' rfl
      rw [List.takeWhile_cons_of_neg (by rw [hsecond]; exact Bool.false_ne_true)]
      rfl

end Block

namespace Activation

variable {a : Activation} {b : Block} {x : Nat}

/-- At the start of a block that has made a merge. -/
def gotoWith (a : Activation) (x : Nat) (r : Register) (v : Word) : Activation :=
  { a with registers := a.registers.setIfInBounds r (.word v), block := x, done := 0 }

theorem enter_merge {r v : Register} {L : List (Register × BlockRef)} {y : Nat} {z : BlockRef}
    {value : Word} (hb : a.routine.blocks[x]? = some b) (hphi : b.leadingPhis = [(r, L)])
    (hfind : L.find? (fun entry => entry.2.block == y) = some (v, z))
    (hv : a.registers[v]? = some (.word value)) (hr : r < a.registers.size) (m : Machine) :
    a.enter (some y) x m = .ok (a.gotoWith x r value) m := by
  have hmerged : ∀ m, a.merged (some y) L m = .ok value m := by
    intro m
    simp only [merged, hfind]
    exact word_ok hv m
  simp only [enter, hb, hphi, List.mapM_cons, List.mapM_nil, bind_assoc, pure_bind]
  rw [Run.bind_ok (hmerged m)]
  simp only [setWords, bind_assoc, pure_bind]
  rw [Run.bind_ok (set_ok hr _ m)]
  rfl

theorem instruction?_eq (hb : a.routine.blocks[a.block]? = some b) : a.instruction? = b.body[a.done]? := by
  unfold instruction?
  rw [hb]
  rfl

theorem exit?_eq (hb : a.routine.blocks[a.block]? = some b) : a.exit? = b.exit := by
  unfold exit?
  rw [hb]
  rfl

end Activation

/-- No block merges values behind its start. -/
def Code.PhisFirst (C : Code) : Prop :=
  ∀ b i r L, C.instruction? b i = some (.define r (.phi L)) → i = 0

/-- From the given block and with the given register, the return block is reached and returns what the
register holds. -/
def Code.Leaves (C : Code) (g : Nat) (entry : Register × BlockRef) : Prop :=
  ∀ (a : Activation) (v : Word), C.routines[g]? = some a.routine → a.block = entry.2.block →
    a.registers.size = a.routine.registers → a.registers[entry.1]? = some (.word v) →
    ∃ a', (∀ m, a.enter (some a.block) 1 m = .ok a' m) ∧
      ∀ m, Behaviour.Leads 0 (a'.behaviour C m) (.returned v m)

variable {C : Code} {g : Nat} {entry : Register × BlockRef}

theorem Code.block?_of_routine {R : Routine} (h : C.routines[g]? = some R)
    (x : Nat) : C.block? ⟨g, x⟩ = R.blocks[x]? := by
  unfold Code.block?
  rw [h]
  rfl

/-- The entry of a merge is found by its block. -/
theorem Code.find_origin {L : List (Register × BlockRef)}
    (hnodup : (L.map fun entry => entry.2.block).Nodup) (hentry : entry ∈ L) :
    L.find? (fun e => e.2.block == entry.2.block) = some entry := by
  induction L with
  | nil => cases hentry
  | cons first rest ih =>
    obtain ⟨hnot, hrest⟩ := List.nodup_cons.mp hnodup
    rw [List.find?_cons]
    rcases List.mem_cons.mp hentry with rfl | hmem
    · rw [beq_self_eq_true]
    · have hne : (first.2.block == entry.2.block) = false :=
        beq_false_of_ne fun he => hnot (List.mem_map.mpr ⟨entry, hmem, he.symm⟩)
      rw [hne]
      exact ih hrest hmem

/-- Each way to leave a routine leads to what it carries. -/
theorem Code.Returns.leaves {registers : Nat} {returns : List (Register × BlockRef)}
    (h : C.Returns g registers returns) (hnodup : (returns.map fun entry => entry.2.block).Nodup)
    (hentry : entry ∈ returns) : C.Leaves g entry := by
  intro a v hroutine hblock hsize hv
  unfold Code.Returns at h
  split at h
  · next value place =>
    -- One way to leave: its jump leads to a block that returns the value at once.
    obtain rfl := List.mem_singleton.mp hentry
    obtain ⟨-, b, hb, hbody, hexit⟩ := h
    rw [Code.block?_of_routine hroutine] at hb
    refine ⟨a.goto 1, a.enter_direct hb (Block.leadingPhis_nil ?_) _, fun m => ?_⟩
    · intro r L hins
      rw [hbody] at hins
      cases hins
    · have hself : (a.goto 1).registers[value]? = some (.word v) := hv
      have hnone : (a.goto 1).instruction? = none := by
        rw [Activation.instruction?_eq hb, hbody]
        rfl
      exact (Activation.leads_ret hnone ((Activation.exit?_eq hb).trans hexit) hself).mono (Nat.zero_le 1)
  · -- Otherwise the values meet in a merge, which picks the one of the block that was left.
    obtain ⟨hregisters, b, hb, hbody, hexit⟩ := h
    rw [Code.block?_of_routine hroutine] at hb
    rw [Code.registersOf_of_routine hroutine] at hregisters
    have hphi : b.leadingPhis = [(registers, returns)] := by
      refine Block.leadingPhis_single (by rw [hbody]; rfl) fun r L hins => ?_
      rw [hbody] at hins
      cases hins
    have hfind := Code.find_origin hnodup hentry
    rw [← hblock] at hfind
    have hr : registers < a.registers.size := by omega
    refine ⟨a.gotoWith 1 registers v, a.enter_merge hb hphi hfind hv hr, fun m => ?_⟩
    have hself : (a.gotoWith 1 registers v).registers[registers]? = some (.word v) :=
      Array.getElem?_setIfInBounds_self_of_lt hr
    have hmerge : (a.gotoWith 1 registers v).instruction? = some (.define registers (.phi returns)) := by
      rw [Activation.instruction?_eq hb, hbody]
      rfl
    have hnone : (a.gotoWith 1 registers v).advance.instruction? = none := by
      rw [Activation.instruction?_eq hb, hbody]
      rfl
    have hret := Activation.leads_ret (C := C) (m := m) hnone ((Activation.exit?_eq hb).trans hexit) hself
    exact ((Activation.leads_phi hmerge).trans hret).mono (Nat.zero_le 2)

/-! ## 6. Steps from site to site -/

/-- Registers below a bound are left alone. -/
def Activation.Keeps (a : Activation) (k : Nat) (a' : Activation) : Prop :=
  ∀ r : Nat, r < k → a'.registers[r]? = a.registers[r]?

namespace Activation.Keeps

variable {a a₁ a₂ : Activation} {k k' : Nat}

theorem refl (a : Activation) (k : Nat) : a.Keeps k a := fun _ _ => rfl

theorem trans (h : a.Keeps k a₁) (h' : a₁.Keeps k' a₂) (hk : k ≤ k') : a.Keeps k a₂ := fun r hr => by
  rw [h' r (by omega), h r hr]

theorem defined (a : Activation) (k : Nat) (content : Content) : a.Keeps k (a.defined k content) :=
  fun r hr => Array.getElem?_setIfInBounds_ne (by omega)

theorem gotoWith (a : Activation) (x k : Nat) (v : Word) : a.Keeps k (a.gotoWith x k v) :=
  fun r hr => Array.getElem?_setIfInBounds_ne (by omega)

end Activation.Keeps

namespace Scene

/-- The routine at hand has room for all that a site counts, and can be left in all the ways that are known
there. -/
structure Room (E : Scene) (S : Site) : Prop where
  blocks : S.blocks ≤ E.code.blocksOf S.routine
  registers : S.registers ≤ E.code.registersOf S.routine
  returns : ∀ entry ∈ S.returns, E.code.Leaves S.routine entry

/-- A block of the routine at hand that merges nothing when it is entered. -/
structure Enterable (E : Scene) (S : Site) (x : Nat) : Prop where
  lt : x < E.code.blocksOf S.routine
  direct : E.code.Direct (S.ref x)

theorem Enterable.of_routine {E : Scene} {S T : Site} {x : Nat} (h : E.Enterable S x)
    (hroutine : T.routine = S.routine) : E.Enterable T x := by
  obtain ⟨hlt, hdirect⟩ := h
  unfold Site.ref at hdirect
  rw [← hroutine] at hlt hdirect
  exact ⟨hlt, hdirect⟩

/-- What there is room for at the end of a region, there is room for before. -/
theorem Room.back {E : Scene} {S S' : Site} {P : List Nat} (h : E.Room S')
    (hregion : Region E.code S P S') : E.Room S := by
  obtain ⟨hblocks, hregisters, hreturns⟩ := h
  rw [hregion.routine] at hblocks hregisters hreturns
  obtain ⟨R, hR, -⟩ := hregion.returns
  refine ⟨hregion.blocks.trans hblocks, hregion.registers.trans hregisters, fun entry hmem => ?_⟩
  exact hreturns entry (by rw [hR]; exact List.mem_append_left R hmem)

namespace Related

variable {E : Scene} {S T : Site} {a : Activation} {m m' : Machine} {w w' : World}

theorem block? (h : E.Related S a m w) (x : Nat) :
    E.code.block? ⟨S.routine, x⟩ = a.routine.blocks[x]? := Code.block?_of_routine h.routine x

theorem instruction (h : E.Related S a m w) {i : Instruction} (hhas : E.code.Has S i) : a.instruction? = some i := by
  obtain ⟨b, hb, hi⟩ := hhas
  unfold Site.place at hb
  rw [h.block?] at hb
  unfold Activation.instruction?
  rw [h.block, hb, h.done]
  exact hi

theorem exit (h : E.Related S a m w) {e : Exit} (hends : E.code.Ends S e) :
    a.instruction? = none ∧ a.exit? = some e := by
  obtain ⟨b, hb, hsize, hexit⟩ := hends
  unfold Site.place at hb
  rw [h.block?] at hb
  unfold Activation.instruction? Activation.exit?
  rw [h.block, hb, h.done]
  exact ⟨Array.getElem?_eq_none hsize.le, hexit⟩

theorem size_eq (h : E.Related S a m w) : a.registers.size = E.code.registersOf S.routine := by
  rw [h.size, Code.registersOf_of_routine h.routine]

theorem define (h : E.Related S a m w) (content : Content) (hshared : E.Shared m' w')
    (hlaid : ∃ loc, Laid loc E.base.size S.locals.get? a.registers m'.memory w'.vars) :
    E.Related S.next (a.defined S.registers content) m' w' where
  routine := h.routine
  block := h.block
  done := congrArg (· + 1) h.done
  size := (Array.size_setIfInBounds ..).trans h.size
  args := h.args
  slots name b hb := (h.slots name b hb).trans (Nat.lt_succ_self _)
  shared := hshared
  laid := by
    obtain ⟨loc, hloc⟩ := hlaid
    refine ⟨loc, hloc.slots fun name b hb => ?_⟩
    exact Activation.Keeps.defined a S.registers content b.slot (h.slots name b hb)

theorem skip (h : E.Related S a m w) (hshared : E.Shared m' w')
    (hlaid : ∃ loc, Laid loc E.base.size S.locals.get? a.registers m'.memory w'.vars) :
    E.Related S.skip a.advance m' w' where
  routine := h.routine
  block := h.block
  done := congrArg (· + 1) h.done
  size := h.size
  args := h.args
  slots := h.slots
  shared := hshared
  laid := hlaid

theorem goto (h : E.Related S a m w) (x : Nat) : E.Related (S.move x) (a.goto x) m w where
  routine := h.routine
  block := rfl
  done := rfl
  size := h.size
  args := h.args
  slots := h.slots
  shared := h.shared
  laid := h.laid

theorem gotoWith (h : E.Related S a m w) (x : Nat) (v : Word) :
    E.Related (S.move x) (a.gotoWith x S.registers v) m w where
  routine := h.routine
  block := rfl
  done := rfl
  size := (Array.size_setIfInBounds ..).trans h.size
  args := h.args
  slots := h.slots
  shared := h.shared
  laid := by
    obtain ⟨loc, hloc⟩ := h.laid
    refine ⟨loc, hloc.slots fun name b hb => ?_⟩
    exact Activation.Keeps.gotoWith a x S.registers v b.slot (h.slots name b hb)

theorem enter (h : E.Related S a m w) {x : Nat} (hx : E.Enterable S x) (origin : Option Nat) (m' : Machine) :
    a.enter origin x m' = .ok (a.goto x) m' := by
  obtain ⟨b, hb⟩ := Code.block_of_lt_blocksOf hx.lt
  have hblock := hb
  rw [h.block?] at hblock
  refine Activation.enter_direct hblock (Block.leadingPhis_nil fun r L hins => ?_) origin m'
  refine hx.direct r L ?_
  unfold Code.instruction? Site.ref
  rw [hb]
  exact hins

end Related

end Scene

end Mila
