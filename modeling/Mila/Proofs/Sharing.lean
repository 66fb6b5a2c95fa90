import Mila.Proofs.Namesakes
import Mila.Proofs.Structure

/-! # Programs that share code

Several programs can be compiled into the same code, one after the other. Each leaves alone what is there,
and adds what it would put into empty code, with the numbers of its routines moved up. The code is then
entered at the first program, and as that one calls none of the routines of the others, these do not show.
-/

namespace Mila

/-! ## 1. Code after code -/

/-- The routines of one code, followed by those of another. -/
def Code.append (A B : Code) : Code := ⟨A.routines ++ B.routines⟩

def Code.renumber (ρ : Nat → Nat) (c : Code) : Code := ⟨c.routines.map (Routine.renumber ρ)⟩

section

variable (ρ : Nat → Nat)

theorem Block.renumber_empty (label : String) : (Block.empty label).renumber ρ = .empty label :=
  congrArg (Block.mk label · none) Array.map_empty

theorem Routine.renumber_empty (name : String) (params : List String) :
    (Routine.empty name params).renumber ρ = .empty name params :=
  congrArg (Routine.mk name params · 0) Array.map_empty

theorem Routine.renumber_addBlock (r : Routine) (label : String) :
    (r.addBlock label).renumber ρ = (r.renumber ρ).addBlock label := by
  have hblocks : (r.blocks.push (.empty label)).map (Block.renumber ρ) =
      (r.blocks.map (Block.renumber ρ)).push (.empty label) := by
    rw [Array.map_push, Block.renumber_empty]
  exact congrArg (Routine.mk r.name r.params · r.registers) hblocks

/-- A change of one block, under other numbers. -/
theorem renumber_modify (f f' : Block → Block) (h : ∀ b, (f b).renumber ρ = f' (b.renumber ρ))
    (blocks : Array Block) (x : Nat) :
    (blocks.modify x f).map (Block.renumber ρ) = (blocks.map (Block.renumber ρ)).modify x f' := by
  refine Array.ext_getElem? fun y => ?_
  rw [Array.getElem?_map, Array.getElem?_modify, Array.getElem?_modify, Array.getElem?_map]
  split
  · cases blocks[y]? with
    | none => rfl
    | some b => exact congrArg some (h b)
  · rfl

theorem Block.renumber_push (b : Block) (i : Instruction) :
    (b.push i).renumber ρ = (b.renumber ρ).push (i.renumber ρ) := by
  unfold Block.push Block.renumber
  rw [Array.map_push]

theorem Routine.renumber_push (r : Routine) (x : Nat) (i : Instruction) :
    (r.push x i).renumber ρ = (r.renumber ρ).push x (i.renumber ρ) := by
  refine congrArg (Routine.mk r.name r.params · r.registers) ?_
  exact renumber_modify ρ (·.push i) (·.push (i.renumber ρ)) (fun b => b.renumber_push ρ i) r.blocks x

theorem Routine.renumber_define (r : Routine) (x : Nat) (op : Operation) :
    (r.define x op).renumber ρ = (r.renumber ρ).define x (op.renumber ρ) := by
  have hpush := r.renumber_push ρ x (.define r.registers op)
  unfold Routine.define
  exact congrArg (fun q : Routine => { q with registers := r.registers + 1 }) hpush

theorem Routine.renumber_terminate (r : Routine) (x : Nat) (e : Exit) :
    (r.terminate x e).renumber ρ = (r.renumber ρ).terminate x (e.renumber ρ) := by
  refine congrArg (Routine.mk r.name r.params · r.registers) ?_
  exact renumber_modify ρ (·.terminate e) (·.terminate (e.renumber ρ)) (fun _ => rfl) r.blocks x

end

namespace Code

variable (A : Code)

/-- Code that is put after the given one, with the numbers that it gets there. -/
def following (c : Code) : Code := A.append (c.renumber (· + A.routines.size))

theorem routines_following (c : Code) (g : Nat) : (A.following c).routines[g + A.routines.size]? =
    c.routines[g]?.map (Routine.renumber (· + A.routines.size)) := by
  unfold following append renumber
  rw [Array.getElem?_append_right (Nat.le_add_left _ _), Nat.add_sub_cancel, Array.getElem?_map]

theorem routines_following_of_lt (c : Code) {g : Nat} (hg : g < A.routines.size) :
    (A.following c).routines[g]? = A.routines[g]? := Array.getElem?_append_left hg

theorem size_following (c : Code) : (A.following c).routines.size = c.routines.size + A.routines.size := by
  unfold following append renumber
  rw [Array.size_append, Array.size_map, Nat.add_comm]

theorem registersOf_following (c : Code) (g : Nat) :
    (A.following c).registersOf (g + A.routines.size) = c.registersOf g := by
  unfold registersOf
  rw [routines_following]
  cases c.routines[g]? <;> rfl

theorem blocksOf_following (c : Code) (g : Nat) : (A.following c).blocksOf (g + A.routines.size) = c.blocksOf g := by
  unfold blocksOf
  rw [routines_following]
  cases c.routines[g]? with
  | none => rfl
  | some r => exact Array.size_map

/-- A change of one routine, under its other number. -/
theorem following_modify {f f' : Routine → Routine}
    (h : ∀ r, f' (r.renumber (· + A.routines.size)) = (f r).renumber (· + A.routines.size)) (c : Code)
    (g : Nat) : (A.following c).modify (g + A.routines.size) f' = A.following (c.modify g f) := by
  refine congrArg Code.mk (Array.ext_getElem? fun i => ?_)
  rw [Array.getElem?_modify]
  by_cases hi : i < A.routines.size
  · rw [if_neg (by omega)]
    exact (A.routines_following_of_lt c hi).trans (A.routines_following_of_lt _ hi).symm
  · obtain ⟨j, rfl⟩ := Nat.exists_eq_add_of_le' (Nat.le_of_not_lt hi)
    refine Eq.trans ?_ (A.routines_following (c.modify g f) j).symm
    rw [routines_following, routines_modify]
    by_cases hj : g = j
    · rw [if_pos hj, if_pos (by omega)]
      cases c.routines[j]? with
      | none => rfl
      | some r => exact congrArg some (h r)
    · rw [if_neg hj, if_neg (by omega)]

/-- Code that is put after other code goes along with the same code on its own. -/
def shared : Renumbering Code Code where
  code := A.following
  routine := (· + A.routines.size)
  addRoutine c name params := by
    refine Prod.ext (A.size_following c) (congrArg Code.mk ?_)
    change (A.following c).routines.push _ = A.routines ++ (c.routines.push _).map _
    rw [Array.map_push, Routine.renumber_empty, ← Array.push_append]
    rfl
  addBlock c g label := by
    refine Prod.ext ?_ (A.following_modify (fun r => (r.renumber_addBlock _ label).symm) c g)
    exact congrArg (BlockRef.mk _) (A.blocksOf_following c g)
  define c place op := Prod.ext (A.registersOf_following c place.routine)
    (A.following_modify (fun r => (r.renumber_define _ place.block op).symm) c place.routine)
  store c place v a :=
    A.following_modify (fun r => (r.renumber_push _ place.block (.store v a)).symm) c place.routine
  terminate c place e :=
    A.following_modify (fun r => (r.renumber_terminate _ place.block e).symm) c place.routine

theorem following_empty : A.following .empty = A := by
  unfold following append renumber empty
  rw [Array.map_empty, Array.append_empty]

end Code

/-- A program adds the same to every code, up to the numbers of routines. -/
theorem Program.compileInto_following (p : Program) (A : Code) :
    p.compileInto A = ((p.compileInto Code.empty).1, A.following (p.compileInto Code.empty).2) := by
  have h := A.shared.compileInto p Code.empty
  rw [show A.shared.code Code.empty = A from A.following_empty] at h
  exact h

/-! ## 2. Code that more was added to -/

/-- The second code has all routines of the first one, under the same numbers. -/
def Code.Begins (C C' : Code) : Prop :=
  ∀ (g : Nat) (R : Routine), C.routines[g]? = some R → C'.routines[g]? = some R

theorem Code.Begins.trans {A B C : Code} (h : A.Begins B) (h' : B.Begins C) : A.Begins C :=
  fun g R hR => h' g R (h g R hR)

theorem Code.begins_following (A c : Code) : A.Begins (A.following c) := by
  intro g R hR
  rw [A.routines_following_of_lt c (Array.getElem?_eq_some_iff.mp hR).1]
  exact hR

/-- The code of several programs, from the code of the earlier ones on. What the programs come to does not
count. -/
def Code.extend (C : Code) (later : List Program) : Code :=
  later.foldl (fun c p => (p.compileInto c).2) C

theorem Code.begins_extend (C : Code) (later : List Program) : C.Begins (C.extend later) := by
  induction later generalizing C with
  | nil => exact fun _ _ h => h
  | cons p later ih =>
    refine Begins.trans ?_ (ih (p.compileInto C).2)
    rw [p.compileInto_following C]
    exact C.begins_following _

/-- Code that calls only routines of its own. -/
def Code.Closed (C : Code) : Prop :=
  ∀ a i r g args, C.instruction? a i = some (.define r (.call g args)) → (C.routines[g]?).isSome

/-- A call of a routine that the code has. -/
def Activation.Of (C : Code) (a : Activation) : Prop := ∃ g : Nat, C.routines[g]? = some a.routine

theorem Activation.Of.continues {C : Code} {a b : Activation} (h : a.Of C) (hab : a.Continues b) : b.Of C := by
  obtain ⟨g, hg⟩ := h
  exact ⟨g, hab.routine ▸ hg⟩

/-- What is added to code that has an entry point and calls only itself does not show. -/
theorem Code.Begins.run {C C' : Code} (hC : C.Begins C') (hclosed : C.Closed)
    (hmain : C.heading? 0 = some (Code.entryPoint, [])) (input : List Word) (L : Limits) :
    C'.run input L = C.run input L := by
  obtain ⟨R, hR, hheading⟩ := Option.map_eq_some_iff.mp hmain
  have hmain' : C'.heading? 0 = some (Code.entryPoint, []) := by
    unfold Code.heading?
    rw [hC 0 R hR, Option.map_some, hheading]
  refine Machine.run_matches (N := fun g g' => g = g' ∧ (C.routines[g]?).isSome) ?_ hmain hmain' ⟨rfl, hR ▸ rfl⟩ input L
  rintro g _ ⟨rfl, hg⟩
  obtain ⟨r, hr⟩ := Option.isSome_iff_exists.mp hg
  refine ⟨r, r, hr, hC g r hr, .refl fun b hb t callee args hi => ⟨rfl, ?_⟩⟩
  -- the call stands in the code, so that what it calls does so too
  obtain ⟨x, hx⟩ := List.mem_iff_getElem?.mp hb
  obtain ⟨k, hk⟩ := List.mem_iff_getElem?.mp hi
  refine hclosed ⟨g, x⟩ k t callee args ?_
  unfold Code.instruction? Code.block?
  rw [hr, Option.bind_some, ← Array.getElem?_toList, hx, Option.bind_some, ← Array.getElem?_toList, hk]

theorem Program.Compiled.closed {p : Program} {C : Code} {v : Register} {S : Site}
    (h : p.Compiled C v S) : C.Closed := by
  intro a i r g args hi
  obtain ⟨R, hR, -⟩ := h.wellStructured.calls a i r g args hi
  rw [hR]
  rfl

/-! ## 3. One program after another -/

/-- What compiling a program does to code that is there already: it leaves its routines as they are, has the
same result as with empty code, and adds, complete or not, what it would put there, with the numbers of all
routines moved up. So when programs are compiled one after the other and the first of them succeeds, the
code runs like the code of the first one, whatever becomes of the others. -/
theorem Program.compileInto_shared (p : Program) (A : Code) :
    (∀ g < A.routines.size, (p.compileInto A).2.routines[g]? = A.routines[g]?) ∧
    (p.compileInto A).1 = (p.compileInto Code.empty).1 ∧
    (p.compileInto A).2 = A.append ((p.compileInto Code.empty).2.renumber (· + A.routines.size)) ∧
    ∀ C, p.compileInto Code.empty = (.ok (), C) →
      ∀ later input L, (C.extend later).run input L = C.run input L := by
  rw [p.compileInto_following A]
  refine ⟨fun g hg => A.routines_following_of_lt _ hg, rfl, rfl, fun C h later input L => ?_⟩
  obtain ⟨-, v, S, hcompiled⟩ := Program.compileInto_spec rfl trivial h
  exact (C.begins_extend later).run hcompiled.closed hcompiled.main input L

/-- A program that assigns to a name it does not declare. -/
def Program.undeclared : Program where
  name := "undeclared"
  declarations := []
  body := .block [.binary .assign (.ident "x") (.number 1)]

/-- The code of a program with a call in it runs alike with what a failed program left after it. -/
theorem Program.earlyExit_shared : ∃ C, Program.earlyExit.compileInto Code.empty = (.ok (), C) ∧
    (Program.undeclared.compileInto C).1 = .error (.unknownIdentifier "x") ∧
    C.routines.size < (C.extend [.undeclared]).routines.size ∧
    ∀ input L, (C.extend [.undeclared]).run input L = C.run input L := by
  have hok : (Program.earlyExit.compileInto Code.empty).1 = .ok () := by decide +kernel
  have h : Program.earlyExit.compileInto Code.empty =
      (.ok (), (Program.earlyExit.compileInto Code.empty).2) := by rw [← hok]
  refine ⟨_, h, by decide +kernel, by decide +kernel, fun input L => ?_⟩
  exact (Program.compileInto_shared Program.earlyExit Code.empty).2.2.2 _ h [.undeclared] input L

end Mila
