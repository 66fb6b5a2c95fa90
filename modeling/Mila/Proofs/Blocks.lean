import Mathlib
import Mila.Code.Listing
import Mila.Code.Target

/-! # Blocks of code

Code seen as a table of blocks: what each of the operations that emit code does to the block with a given
name, to the number of blocks and registers of a routine, and to its heading. From this follows in which
way code may grow: an open block only gets longer, and a block that is closed stays as it is.
-/

namespace Mila

namespace Code

/-- The block of a given name. -/
def block? (c : Code) (place : BlockRef) : Option Block :=
  c.routines[place.routine]?.bind (·.blocks[place.block]?)

/-- The exit of a block. -/
def exit? (c : Code) (place : BlockRef) : Option Exit := (c.block? place).bind (·.exit)

/-- The instruction at a place in a block. -/
def instruction? (c : Code) (place : BlockRef) (i : Nat) : Option Instruction :=
  (c.block? place).bind (·.body[i]?)

/-- The name and the parameters of a routine. -/
def heading? (c : Code) (routine : Nat) : Option (String × List String) :=
  c.routines[routine]?.map fun r => (r.name, r.params)

end Code

/-- An operation of a routine that has the number `g` and so many blocks, in code of so many routines: the routines
that it calls are there, and the blocks that it names are those of the routine. -/
structure Operation.Refers (routines g blocks : Nat) (op : Operation) : Prop where
  callees : ∀ callee ∈ Code.callees op, callee < routines
  sources : ∀ place ∈ Code.sources op, place.routine = g ∧ place.block < blocks

/-- A block whose operations and whose exit name only what is there. -/
structure Block.Refers (routines g blocks : Nat) (b : Block) : Prop where
  operations : ∀ target op, .define target op ∈ b.body → op.Refers routines g blocks
  targets : ∀ place ∈ Code.targets b.exit, place.routine = g ∧ place.block < blocks

namespace Code

/-! ## 1. What each operation changes -/

theorem routines_modify (c : Code) (g i : Nat) (f : Routine → Routine) :
    (c.modify g f).routines[i]? = if g = i then c.routines[i]?.map f else c.routines[i]? := by
  unfold modify
  rw [Array.getElem?_modify]

theorem routines_addRoutine (c : Code) (name : String) (params : List String) (i : Nat) :
    (c.addRoutine name params).2.routines[i]? =
      if i = c.routines.size then some (.empty name params) else c.routines[i]? := by
  unfold addRoutine
  exact Array.getElem?_push

theorem heading?_modify (c : Code) (g i : Nat) (f : Routine → Routine)
    (hname : ∀ r, (f r).name = r.name) (hparams : ∀ r, (f r).params = r.params) :
    (c.modify g f).heading? i = c.heading? i := by
  unfold heading?
  rw [routines_modify]
  split
  · rw [Option.map_map]
    congr 1
    funext r
    simp only [Function.comp_apply, hname, hparams]
  · rfl

@[simp] theorem heading?_define (c : Code) (place : BlockRef) (op : Operation) (i : Nat) :
    (c.define place op).2.heading? i = c.heading? i :=
  heading?_modify c _ i _ (fun _ => rfl) (fun _ => rfl)

@[simp] theorem heading?_store (c : Code) (place : BlockRef) (v a : Register) (i : Nat) :
    (c.store place v a).heading? i = c.heading? i :=
  heading?_modify c _ i _ (fun _ => rfl) (fun _ => rfl)

@[simp] theorem heading?_terminate (c : Code) (place : BlockRef) (e : Exit) (i : Nat) :
    (c.terminate place e).heading? i = c.heading? i :=
  heading?_modify c _ i _ (fun _ => rfl) (fun _ => rfl)

@[simp] theorem heading?_addBlock (c : Code) (g : Nat) (label : String) (i : Nat) :
    (c.addBlock g label).2.heading? i = c.heading? i :=
  heading?_modify c _ i _ (fun _ => rfl) (fun _ => rfl)

theorem heading?_addRoutine (c : Code) (name : String) (params : List String) (i : Nat) :
    (c.addRoutine name params).2.heading? i =
      if i = c.routines.size then some (name, params) else c.heading? i := by
  unfold heading?
  rw [routines_addRoutine]
  split <;> rfl

theorem block?_modify (c : Code) (g : Nat) (f : Routine → Routine) (place : BlockRef) : (c.modify g f).block? place =
      if g = place.routine then c.routines[place.routine]?.bind fun r => (f r).blocks[place.block]?
      else c.block? place := by
  unfold block?
  rw [routines_modify]
  split
  · rw [Option.bind_map]
    rfl
  · rfl

/-- An operation on one block of a routine changes that block and no other. -/
theorem block?_modify_block (c : Code) (place other : BlockRef) (f : Routine → Routine) (t : Routine → Block → Block)
    (hf : ∀ r, (f r).blocks = r.blocks.modify place.block (t r)) : (c.modify place.routine f).block? other =
      if other = place then
        c.routines[place.routine]?.bind fun r => (r.blocks[place.block]?).map (t r)
      else c.block? other := by
  rw [block?_modify]
  obtain ⟨g, x⟩ := place
  obtain ⟨g', x'⟩ := other
  dsimp only at hf ⊢
  by_cases hg : g = g'
  · subst hg
    rw [if_pos rfl]
    by_cases hx : x = x'
    · subst hx
      simp only [hf, Array.getElem?_modify, if_true]
    · have hne : (⟨g, x'⟩ : BlockRef) ≠ ⟨g, x⟩ := by
        intro h
        exact hx (BlockRef.mk.inj h).2.symm
      simp only [hf, Array.getElem?_modify, if_neg hx, if_neg hne, block?]
  · have hne : (⟨g', x'⟩ : BlockRef) ≠ ⟨g, x⟩ := by
      intro h
      exact hg (BlockRef.mk.inj h).1.symm
    rw [if_neg hg, if_neg hne]

theorem registersOf_eq (c : Code) (g : Nat) : c.registersOf g = (c.routines[g]?.map Routine.registers).getD 0 := by
  unfold registersOf
  cases c.routines[g]? <;> rfl

theorem blocksOf_eq (c : Code) (g : Nat) : c.blocksOf g = (c.routines[g]?.map (·.blocks.size)).getD 0 := by
  unfold blocksOf
  cases c.routines[g]? <;> rfl

variable {c c' : Code} {g x : Nat} {r : Routine} {place : BlockRef} {b : Block}

/-- The routine in which a block stands has as many registers as the code says. -/
theorem registersOf_of_routine (h : c.routines[g]? = some r) : c.registersOf g = r.registers := by
  rw [registersOf_eq, h]
  rfl

theorem blocksOf_of_routine (h : c.routines[g]? = some r) : c.blocksOf g = r.blocks.size := by
  rw [blocksOf_eq, h]
  rfl

theorem routine_of_block (h : c.block? place = some b) : ∃ r, c.routines[place.routine]? = some r := by
  unfold block? at h
  cases hr : c.routines[place.routine]? with
  | none => simp [hr] at h
  | some r => exact ⟨r, rfl⟩

theorem block_lt_blocksOf (h : c.block? ⟨g, x⟩ = some b) : x < c.blocksOf g := by
  obtain ⟨r, hr⟩ := routine_of_block h
  rw [blocksOf_of_routine hr]
  simp only [block?, hr, Option.bind_some] at h
  exact (Array.getElem?_eq_some_iff.mp h).1

theorem block_of_lt_blocksOf (h : x < c.blocksOf g) : ∃ b, c.block? ⟨g, x⟩ = some b := by
  cases hr : c.routines[g]? with
  | none =>
    rw [blocksOf_eq, hr] at h
    exact absurd h (Nat.not_lt_zero x)
  | some r =>
    rw [blocksOf_of_routine hr] at h
    unfold block?
    rw [hr, Option.bind_some]
    exact ⟨_, Array.getElem?_eq_getElem h⟩

theorem blocksOf_congr (h : c'.routines[g]? = c.routines[g]?) : c'.blocksOf g = c.blocksOf g := by
  rw [blocksOf_eq, blocksOf_eq, h]

theorem block?_congr (h : c'.routines[place.routine]? = c.routines[place.routine]?) :
    c'.block? place = c.block? place := by
  unfold block?
  rw [h]

theorem block?_define (c : Code) (place other : BlockRef) (op : Operation) : (c.define place op).2.block? other =
      if other = place then
        (c.block? place).map (·.push (.define (c.registersOf place.routine) op))
      else c.block? other := by
  unfold define
  rw [block?_modify_block c place other _ (fun r b => b.push (.define r.registers op))
    (fun _ => rfl)]
  split
  · unfold block?
    cases h : c.routines[place.routine]? with
    | none => rfl
    | some r => rw [registersOf_of_routine h]; rfl
  · rfl

theorem block?_store (c : Code) (place other : BlockRef) (v a : Register) : (c.store place v a).block? other =
      if other = place then (c.block? place).map (·.push (.store v a)) else c.block? other := by
  unfold store
  rw [block?_modify_block c place other _ (fun _ b => b.push (.store v a)) (fun _ => rfl)]
  split
  · unfold block?
    cases c.routines[place.routine]? <;> rfl
  · rfl

theorem block?_terminate (c : Code) (place other : BlockRef) (e : Exit) : (c.terminate place e).block? other =
      if other = place then (c.block? place).map (·.terminate e) else c.block? other := by
  unfold terminate
  rw [block?_modify_block c place other _ (fun _ b => b.terminate e) (fun _ => rfl)]
  split
  · unfold block?
    cases c.routines[place.routine]? <;> rfl
  · rfl

/-- A new block stands behind those that the routine already has. -/
theorem block?_addBlock (h : c.routines[g]? = some r) (label : String) (other : BlockRef) :
    (c.addBlock g label).2.block? other =
      if other = ⟨g, c.blocksOf g⟩ then some (.empty label) else c.block? other := by
  unfold addBlock
  rw [block?_modify, blocksOf_of_routine h]
  obtain ⟨g', x⟩ := other
  dsimp only
  by_cases hg : g = g'
  · subst hg
    rw [if_pos rfl, h, Option.bind_some]
    simp only [Routine.addBlock, Array.getElem?_push, BlockRef.mk.injEq, true_and, block?, h,
      Option.bind_some]
  · rw [if_neg hg, if_neg]
    intro he
    exact hg (BlockRef.mk.inj he).1.symm

@[simp] theorem block?_addRoutine (c : Code) (name : String) (params : List String)
    (other : BlockRef) : (c.addRoutine name params).2.block? other = c.block? other := by
  unfold block?
  rw [routines_addRoutine]
  split
  · next h =>
    rw [h, Array.getElem?_eq_none (Nat.le_refl _)]
    simp [Routine.empty]
  · rfl

@[simp] theorem exit?_define (c : Code) (place other : BlockRef) (op : Operation) :
    (c.define place op).2.exit? other = c.exit? other := by
  unfold exit?
  rw [block?_define]
  split
  · next h =>
    rw [h]
    cases c.block? place <;> rfl
  · rfl

@[simp] theorem exit?_store (c : Code) (place other : BlockRef) (v a : Register) :
    (c.store place v a).exit? other = c.exit? other := by
  unfold exit?
  rw [block?_store]
  split
  · next h =>
    rw [h]
    cases c.block? place <;> rfl
  · rfl

@[simp] theorem exit?_addRoutine (c : Code) (name : String) (params : List String)
    (other : BlockRef) : (c.addRoutine name params).2.exit? other = c.exit? other := by
  unfold exit?
  rw [block?_addRoutine]

theorem exit?_terminate (h : c.block? place = some b) (other : BlockRef) (e : Exit) :
    (c.terminate place e).exit? other = if other = place then some e else c.exit? other := by
  unfold exit?
  rw [block?_terminate]
  split
  · rw [h]
    rfl
  · rfl

@[simp] theorem exit?_addBlock (c : Code) (g : Nat) (label : String) (other : BlockRef) :
    (c.addBlock g label).2.exit? other = c.exit? other := by
  unfold exit?
  cases h : c.routines[g]? with
  | some r =>
    rw [block?_addBlock h]
    split
    · next he =>
      rw [he]
      simp [block?, h, blocksOf_of_routine h, Block.empty]
    · rfl
  | none =>
    unfold addBlock
    rw [block?_modify]
    split
    · next he =>
      unfold block?
      rw [← he, h]
      rfl
    · rfl

theorem blocksOf_modify_size (c : Code) (g i : Nat) (f : Routine → Routine)
    (hf : ∀ r, (f r).blocks.size = r.blocks.size) : (c.modify g f).blocksOf i = c.blocksOf i := by
  rw [blocksOf_eq, blocksOf_eq, routines_modify]
  split
  · rw [Option.map_map]
    congr 2
    funext r
    exact hf r
  · rfl

@[simp] theorem blocksOf_define (c : Code) (place : BlockRef) (op : Operation) (i : Nat) :
    (c.define place op).2.blocksOf i = c.blocksOf i :=
  blocksOf_modify_size c _ i _ fun _ => Array.size_modify

@[simp] theorem blocksOf_store (c : Code) (place : BlockRef) (v a : Register) (i : Nat) :
    (c.store place v a).blocksOf i = c.blocksOf i :=
  blocksOf_modify_size c _ i _ fun _ => Array.size_modify

@[simp] theorem blocksOf_terminate (c : Code) (place : BlockRef) (e : Exit) (i : Nat) :
    (c.terminate place e).blocksOf i = c.blocksOf i :=
  blocksOf_modify_size c _ i _ fun _ => Array.size_modify

theorem blocksOf_addBlock (h : c.routines[g]? = some r) (label : String) (i : Nat) :
    (c.addBlock g label).2.blocksOf i = if g = i then c.blocksOf i + 1 else c.blocksOf i := by
  unfold addBlock
  rw [blocksOf_eq, routines_modify]
  split
  · next hg =>
    subst hg
    rw [blocksOf_of_routine h, h]
    simp [Routine.addBlock]
  · rw [blocksOf_eq]

theorem registersOf_define (h : c.routines[place.routine]? = some r) (op : Operation) (i : Nat) :
    (c.define place op).2.registersOf i =
      if place.routine = i then c.registersOf i + 1 else c.registersOf i := by
  unfold define
  rw [registersOf_eq, routines_modify]
  split
  · next hg =>
    subst hg
    rw [registersOf_of_routine h, h]
    rfl
  · rw [registersOf_eq]

theorem registersOf_modify (c : Code) (g i : Nat) (f : Routine → Routine) (hf : ∀ r, (f r).registers = r.registers) :
    (c.modify g f).registersOf i = c.registersOf i := by
  rw [registersOf_eq, registersOf_eq, routines_modify]
  split
  · rw [Option.map_map]
    congr 2
    funext r
    exact hf r
  · rfl

@[simp] theorem registersOf_store (c : Code) (place : BlockRef) (v a : Register) (i : Nat) :
    (c.store place v a).registersOf i = c.registersOf i :=
  registersOf_modify c _ i _ fun _ => rfl

@[simp] theorem registersOf_terminate (c : Code) (place : BlockRef) (e : Exit) (i : Nat) :
    (c.terminate place e).registersOf i = c.registersOf i :=
  registersOf_modify c _ i _ fun _ => rfl

@[simp] theorem registersOf_addBlock (c : Code) (g : Nat) (label : String) (i : Nat) :
    (c.addBlock g label).2.registersOf i = c.registersOf i :=
  registersOf_modify c _ i _ fun _ => rfl

end Code

/-! ## 2. Growth -/

/-- A block that is still open may get longer, and may be closed. -/
structure Block.Grows (b b' : Block) : Prop where
  body : b.body.toList <+: b'.body.toList
  closed : b.exit.isSome → b' = b

namespace Block.Grows

theorem refl (b : Block) : b.Grows b := ⟨List.prefix_refl _, fun _ => rfl⟩

theorem trans {a b c : Block} (hab : a.Grows b) (hbc : b.Grows c) : a.Grows c where
  body := hab.body.trans hbc.body
  closed h := by
    have hb := hab.closed h
    rw [hbc.closed (by rw [hb]; exact h), hb]

theorem push {b : Block} (h : b.exit = none) (i : Instruction) : b.Grows (b.push i) where
  body := by simp [Block.push]
  closed hc := by simp [h] at hc

theorem terminate {b : Block} (h : b.exit = none) (e : Exit) : b.Grows (b.terminate e) where
  body := List.prefix_refl _
  closed hc := by simp [h] at hc

theorem getElem? {b b' : Block} (h : b.Grows b') {i : Nat} {ins : Instruction}
    (hi : b.body[i]? = some ins) : b'.body[i]? = some ins := by
  rw [← Array.getElem?_toList] at hi ⊢
  obtain ⟨hlt, hget⟩ := List.getElem?_eq_some_iff.mp hi
  rw [List.prefix_iff_getElem?.mp h.body i hlt, hget]

end Block.Grows

/-- Code that is added to keeps its headings; its blocks grow; and a routine whose return block is closed
is complete. -/
structure Code.Grows (c c' : Code) : Prop where
  heading : ∀ g h, c.heading? g = some h → c'.heading? g = some h
  block : ∀ place b, c.block? place = some b → ∃ b', c'.block? place = some b' ∧ b.Grows b'
  complete : ∀ g b, c.block? ⟨g, 1⟩ = some b → b.exit.isSome → c'.routines[g]? = c.routines[g]?

namespace Code.Grows

theorem refl (c : Code) : c.Grows c where
  heading _ _ h := h
  block _ b h := ⟨b, h, .refl b⟩
  complete _ _ _ _ := rfl

theorem trans {a b c : Code} (hab : a.Grows b) (hbc : b.Grows c) : a.Grows c where
  heading g h ha := hbc.heading g h (hab.heading g h ha)
  block place x hx := by
    obtain ⟨y, hy, hxy⟩ := hab.block place x hx
    obtain ⟨z, hz, hyz⟩ := hbc.block place y hy
    exact ⟨z, hz, hxy.trans hyz⟩
  complete g x hx he := by
    have hab' := hab.complete g x hx he
    have hx' : b.block? ⟨g, 1⟩ = some x := by
      rw [← hx]
      unfold Code.block?
      rw [hab']
    rw [hbc.complete g x hx' he, hab']

end Code.Grows

namespace Code

variable {c : Code} {g : Nat} {place : BlockRef} {b : Block}

/-- A step that changes one open block of an incomplete routine, and nothing else that is there. -/
theorem grows_of_block {c' : Code} (place : BlockRef) (hheading : ∀ g, c'.heading? g = c.heading? g)
    (hother : ∀ other, other ≠ place → c'.block? other = c.block? other)
    (hplace : ∀ b, c.block? place = some b → ∃ b', c'.block? place = some b' ∧ b.Grows b')
    (hroutine : ∀ g, g ≠ place.routine → c'.routines[g]? = c.routines[g]?)
    (hopen : ∀ b, c.block? ⟨place.routine, 1⟩ = some b → b.exit = none) : c.Grows c' where
  heading g h hg := by rw [hheading, hg]
  block other b hb := by
    by_cases h : other = place
    · subst h
      exact hplace b hb
    · exact ⟨b, by rw [hother other h, hb], .refl b⟩
  complete g b hb he := by
    by_cases h : g = place.routine
    · subst h
      simp [hopen b hb] at he
    · exact hroutine g h

theorem routines_modify_of_ne (c : Code) {i : Nat} (f : Routine → Routine) (h : i ≠ g) :
    (c.modify g f).routines[i]? = c.routines[i]? := by
  rw [routines_modify, if_neg (Ne.symm h)]

theorem grows_change {f : Block → Block} {g : Routine → Routine}
    (hheading : ∀ i, (c.modify place.routine g).heading? i = c.heading? i)
    (hblock : ∀ other, (c.modify place.routine g).block? other =
      if other = place then (c.block? place).map f else c.block? other)
    (hb : c.block? place = some b) (hopen : ∀ b, c.block? ⟨place.routine, 1⟩ = some b → b.exit = none)
    (hf : b.Grows (f b)) : c.Grows (c.modify place.routine g) := by
  refine grows_of_block place hheading (fun other h => (hblock other).trans (if_neg h)) ?_
    (fun i hi => routines_modify_of_ne c _ hi) hopen
  intro b' hb'
  rw [hb] at hb'
  obtain rfl := Option.some.inj hb'
  exact ⟨f b, by rw [hblock, if_pos rfl, hb, Option.map_some], hf⟩

section

variable (hb : c.block? place = some b) (he : b.exit = none)
  (hopen : ∀ b, c.block? ⟨place.routine, 1⟩ = some b → b.exit = none)

include hb he hopen

theorem grows_define (op : Operation) : c.Grows (c.define place op).2 :=
  grows_change (heading?_define c place op) (fun other => block?_define c place other op) hb hopen (.push he _)

theorem grows_store (v a : Register) : c.Grows (c.store place v a) :=
  grows_change (heading?_store c place v a) (fun other => block?_store c place other v a) hb hopen (.push he _)

theorem grows_terminate (e : Exit) : c.Grows (c.terminate place e) :=
  grows_change (heading?_terminate c place e) (fun other => block?_terminate c place other e) hb hopen (.terminate he _)

end

theorem block?_blocksOf (c : Code) (g : Nat) : c.block? ⟨g, c.blocksOf g⟩ = none := by
  unfold block?
  cases h : c.routines[g]? with
  | none => rfl
  | some r =>
    rw [blocksOf_of_routine h]
    exact Array.getElem?_eq_none (Nat.le_refl _)

theorem grows_addBlock {r : Routine} (h : c.routines[g]? = some r)
    (hopen : ∀ b, c.block? ⟨g, 1⟩ = some b → b.exit = none) (label : String) : c.Grows (c.addBlock g label).2 := by
  refine grows_of_block ⟨g, c.blocksOf g⟩ (fun i => heading?_addBlock c g label i) ?_ ?_
    (fun i hi => routines_modify_of_ne c _ hi) hopen
  · intro other hne
    rw [block?_addBlock h, if_neg hne]
  · intro b hb
    rw [block?_blocksOf] at hb
    cases hb

theorem grows_addRoutine (c : Code) (name : String) (params : List String) :
    c.Grows (c.addRoutine name params).2 where
  heading g h hg := by
    rw [heading?_addRoutine, if_neg, hg]
    intro he
    simp [heading?, he] at hg
  block place b hb := ⟨b, by rw [block?_addRoutine, hb], .refl b⟩
  complete g b hb _ := by
    rw [routines_addRoutine, if_neg]
    intro he
    simp [block?, he] at hb

end Code

end Mila
