import Mila.Code.Builder
import Mila.Code.Check
import Mila.Proofs.Sharing
import Mila.Proofs.Watching

/-! # Sessions with a builder

A builder serves demands, and some of its replies are handles: the numbers of routines and the names of blocks
that later demands may use, in whatever order and in whatever routine. This module says what holds of the code
however it was built in this way: its registers are numbered without a gap, a handle goes on to stand for the same
routine or block, and there is no demand that the builder can not serve.
-/

namespace Mila

/-! ## 1. Registers without a gap -/

/-- The registers that a block defines, in order. -/
def Block.defined (b : Block) : List Register := b.body.toList.filterMap Instruction.target?

/-- The registers that a routine defines, block by block. -/
def Routine.defined (r : Routine) : List Register := r.blocks.toList.flatMap Block.defined

/-- Every register is defined by one instruction, and in a block the registers increase. -/
structure Routine.Numbered (r : Routine) : Prop where
  once : r.defined.Perm (List.range r.registers)
  increasing : ∀ b ∈ r.blocks, b.defined.Pairwise (· < ·)

@[simp] theorem Block.defined_empty (label : String) : (Block.empty label).defined = [] := rfl

@[simp] theorem Block.defined_push (b : Block) (i : Instruction) :
    (b.push i).defined = b.defined ++ i.target?.toList := by
  unfold defined push
  rw [Array.toList_push, List.filterMap_append]
  cases h : i.target? <;> simp [h]

namespace Routine

theorem Numbered.empty (name : String) (params : List String) : (Routine.empty name params).Numbered :=
  ⟨.refl _, fun _ hb => absurd hb (Array.not_mem_empty _)⟩

variable {r r' : Routine} {x : Nat} {f : Block → Block}

theorem Numbered.lt (h : r.Numbered) {b : Block} (hb : b ∈ r.blocks) {x : Register}
    (hx : x ∈ b.defined) : x < r.registers :=
  List.mem_range.mp (h.once.subset (List.mem_flatMap.mpr ⟨b, Array.mem_toList_iff.mpr hb, hx⟩))

/-- Another routine that differs from a numbered one in a single block, which defines more registers: all that are
new in the routine. -/
theorem Numbered.modify (h : r.Numbered) (hx : x < r.blocks.size)
    (hblocks : r'.blocks = r.blocks.modify x f) (new : List Register) (hf : ∀ b, (f b).defined = b.defined ++ new)
    (hnew : (List.range r.registers ++ new).Perm (List.range r'.registers))
    (habove : ∀ y ∈ new, r.registers ≤ y) (hincreasing : new.Pairwise (· < ·)) : r'.Numbered := by
  obtain ⟨before, b, after, hold, -, hmodify⟩ := List.exists_of_modify f (l := r.blocks.toList) hx
  have hlist : r'.blocks.toList = before ++ f b :: after := by
    rw [hblocks, Array.toList_modify, hmodify]
  constructor
  · -- the new registers may stand at the end as well
    have hperm : r'.defined.Perm (r.defined ++ new) := by
      unfold defined
      rw [hlist, hold]
      simp only [List.flatMap_append, List.flatMap_cons, hf, List.append_assoc]
      exact .append_left _ (.append_left _ List.perm_append_comm)
    exact hperm.trans ((h.once.append_right new).trans hnew)
  · intro c hc
    rw [← Array.mem_toList_iff, hlist, List.mem_append, List.mem_cons] at hc
    have hmem : ∀ {d}, d ∈ before ∨ d = b ∨ d ∈ after → d ∈ r.blocks := by
      intro d hd
      rw [← Array.mem_toList_iff, hold, List.mem_append, List.mem_cons]
      exact hd
    rcases hc with hc | rfl | hc
    · exact h.increasing c (hmem (.inl hc))
    · have hb := hmem (.inr (.inl rfl))
      rw [hf, List.pairwise_append]
      exact ⟨h.increasing b hb, hincreasing, fun y hy z hz => (h.lt hb hy).trans_le (habove z hz)⟩
    · exact h.increasing c (hmem (.inr (.inr hc)))

theorem Numbered.define (h : r.Numbered) (hx : x < r.blocks.size) (op : Operation) : (r.define x op).Numbered := by
  refine h.modify (f := (·.push (.define r.registers op))) hx rfl [r.registers]
    (fun b => b.defined_push _) ?_ ?_ (List.pairwise_singleton _ _)
  · exact (List.range_succ ▸ .refl _)
  · exact fun y hy => (List.mem_singleton.mp hy).ge

/-- A change of a block that defines no register. -/
theorem Numbered.touch (h : r.Numbered) (hx : x < r.blocks.size)
    (hblocks : r'.blocks = r.blocks.modify x f) (hf : ∀ b, (f b).defined = b.defined)
    (hregisters : r'.registers = r.registers) : r'.Numbered := by
  refine h.modify hx hblocks [] (fun b => ?_) ?_ (fun y hy => nomatch hy) .nil
  · rw [hf, List.append_nil]
  · rw [hregisters, List.append_nil]

theorem Numbered.addBlock (h : r.Numbered) (label : String) : (r.addBlock label).Numbered := by
  constructor
  · have hsame : (r.addBlock label).defined = r.defined := by
      unfold defined Routine.addBlock
      rw [Array.toList_push, List.flatMap_append, List.flatMap_singleton, Block.defined_empty, List.append_nil]
    rw [hsame]
    exact h.once
  · intro b hb
    rcases Array.mem_push.mp hb with hb | rfl
    · exact h.increasing b hb
    · exact .nil

end Routine

namespace Code

/-- The registers of all routines are numbered without a gap. -/
def Numbered (c : Code) : Prop := ∀ r ∈ c.routines, r.Numbered

theorem Numbered.modify {c : Code} (h : c.Numbered) {g : Nat} {f : Routine → Routine}
    (hf : ∀ r, c.routines[g]? = some r → r.Numbered → (f r).Numbered) : (c.modify g f).Numbered := by
  intro r hr
  obtain ⟨i, hi⟩ := Array.mem_iff_getElem?.mp hr
  rw [routines_modify] at hi
  split at hi
  · next he =>
    subst he
    obtain ⟨r₀, hr₀, rfl⟩ := Option.map_eq_some_iff.mp hi
    exact hf r₀ hr₀ (h r₀ (Array.mem_of_getElem? hr₀))
  · exact h r (Array.mem_of_getElem? hi)

theorem Numbered.addRoutine {c : Code} (h : c.Numbered) (name : String) (params : List String) :
    (c.addRoutine name params).2.Numbered := by
  intro r hr
  rcases Array.mem_push.mp hr with hr | rfl
  · exact h r hr
  · exact .empty name params

theorem Numbered.addBlock {c : Code} (h : c.Numbered) (g : Nat) (label : String) :
    (c.addBlock g label).2.Numbered := h.modify fun _ _ hr => hr.addBlock label

theorem lt_of_block {c : Code} {place : BlockRef} (hplace : (c.block? place).isSome) {r : Routine}
    (hr : c.routines[place.routine]? = some r) : place.block < r.blocks.size := by
  obtain ⟨b, hb⟩ := Option.isSome_iff_exists.mp hplace
  exact blocksOf_of_routine hr ▸ block_lt_blocksOf hb

variable {c : Code} {place : BlockRef}

theorem Numbered.define (h : c.Numbered) (hplace : (c.block? place).isSome) (op : Operation) :
    (c.define place op).2.Numbered := h.modify fun _ hr hn => hn.define (lt_of_block hplace hr) op

theorem Numbered.store (h : c.Numbered) (hplace : (c.block? place).isSome) (value address : Register) :
    (c.store place value address).Numbered :=
  h.modify fun _ hr hn => hn.touch (f := (·.push (.store value address))) (lt_of_block hplace hr) rfl
    (fun b => (b.defined_push _).trans (List.append_nil _)) rfl

theorem Numbered.terminate (h : c.Numbered) (hplace : (c.block? place).isSome) (e : Exit) :
    (c.terminate place e).Numbered :=
  h.modify fun _ hr hn => hn.touch (f := (·.terminate e)) (lt_of_block hplace hr) rfl (fun _ => rfl) rfl

end Code

/-! ## 2. Runs that find what they call -/

/-- Any fault but that a routine is missing. -/
def Fault.Found (f : Fault) : Prop := f ≠ .malformed .missingRoutine

theorem Fault.found_malformed {d : Defect} (h : d ≠ .missingRoutine) : (Fault.malformed d).Found :=
  fun he => h (Fault.malformed.inj he)

namespace Machine

open Run

/-- However a piece of a run ends, no routine was missing. -/
def Finds {α : Type} (x : Run α) : Prop := ∀ m, Meets x m (fun _ _ => True) (fun f _ => f.Found)

namespace Finds

variable {α β : Type} {x : Run α} {f : α → Run β}

/-- Going on only from what the first piece can yield. -/
theorem bindOn {Q : α → Prop} (hx : Finds x) (hQ : ∀ m, Meets x m (fun b _ => Q b) (fun _ _ => True))
    (hf : ∀ b, Q b → Finds (f b)) : Finds (x >>= f) :=
  fun m => ((hQ m).and (hx m)).bind fun b m' hb => hf b hb m'

theorem releasing (hx : Finds x) : Finds (Machine.releasing x) := fun m => .releasing (hx m)

theorem write (place : Address) (value : Word) : Finds (write place value) := by
  intro m
  unfold Meets Machine.write
  cases m.memory[place.allocation]? with
  | none => exact Fault.found_malformed Defect.noConfusion
  | some cells =>
    dsimp only
    cases cells.set? place.index value with
    | none => exact nofun
    | some cells => trivial

theorem threads : Threads fun x _ => Finds x where
  pure _ _ := .pure trivial
  throw _ h _ := .throw h
  bind hx hf m := (hx m).bind fun b m' _ => hf b m'
  read place m := by
    unfold Meets Machine.read
    cases m.memory[place.allocation]? with
    | none => exact Fault.found_malformed Defect.noConfusion
    | some cells =>
      dsimp only
      cases cells.get? place.index with
      | none => exact nofun
      | some value => trivial
  readInput m := by
    unfold Meets Machine.readInput
    cases m.input with
    | nil => exact nofun
    | cons value input => trivial
  writeOutput _ _ := trivial

end Finds

section

variable {C : Code} {L : Limits} {go : Activation → Run Word} (hgo : ∀ a : Activation, a.Of C → Finds (go a))

include hgo

theorem finds_invoke {g : Nat} (hg : (C.routines[g]?).isSome) (args : List Word) (depth : Nat) :
    Finds (invoke C L go g args depth) := by
  obtain ⟨R, hR⟩ := Option.isSome_iff_exists.mp hg
  unfold invoke
  rw [hR]
  dsimp only
  split
  · exact Finds.threads.external _ _
  · split
    · exact fun _ => nofun
    · refine (Finds.threads.enter _ none 0).bindOn (Q := (·.Of C)) (fun m => ?_) (fun b hb => hgo b hb) |>.releasing
      exact (Activation.meets_enter _ m none 0).mono (fun _ _ h => ⟨g, h.2.routine ▸ hR⟩) fun _ _ _ => trivial

theorem finds_afterTick (hclosed : C.Closed) {a : Activation} (ha : a.Of C) : Finds (afterTick C L go a) := by
  rw [afterTick_eq_act]
  refine Finds.bindOn ?_ (fun m => a.meets_act m) fun next hnext => ?_
  · obtain ⟨g, hg⟩ := ha
    refine Finds.threads.act ⟨fun _ _ => trivial, Finds.write⟩ (invoke C L go · · 0) fun r callee rs hi args => ?_
    -- the instruction stands in the code, so that what it calls is there
    refine finds_invoke hgo (hclosed ⟨g, a.block⟩ a.done r callee rs ?_) args _
    unfold Code.instruction? Code.block?
    rw [hg]
    exact hi
  · cases next with
    | inl v => exact Finds.threads.pure v
    | inr b => exact hgo b (ha.continues hnext)

end

theorem finds_execute {C : Code} {L : Limits} (hclosed : C.Closed) (n : Nat) {a : Activation} (ha : a.Of C) :
    Finds (execute C L n a) := by
  induction n generalizing a with
  | zero => exact fun _ => nofun
  | succ n ih =>
    refine Finds.bindOn (fun m => ?_) (fun m => .any _ m) fun _ _ => finds_afterTick (fun _ hb => ih hb) hclosed ha
    unfold Meets tick
    cases m.steps with
    | zero => exact nofun
    | succ t => trivial

end Machine

/-- Code that calls only routines of its own misses none when it runs. -/
theorem Code.Closed.run {C : Code} (h : C.Closed) (input : List Word) (L : Limits) :
    C.run input L ≠ .error (.malformed .missingRoutine) := by
  unfold Code.run
  cases hmain : C.find? Code.entryPoint with
  | none => exact fun h => Fault.noConfusion (Except.error.inj h)
  | some main =>
    have hthere : (C.routines[main]?).isSome := by
      obtain ⟨hlt, -⟩ := Array.findIdx?_eq_some_iff_getElem.mp hmain
      exact Array.getElem?_eq_getElem hlt ▸ rfl
    have hinvoke := Machine.finds_invoke (L := L) (fun a ha => Machine.finds_execute (L := L) h L.steps ha)
      hthere [] 0
    dsimp only
    cases hrun : Machine.invoke C L (Machine.execute C L L.steps) main [] 0 ⟨input, #[], #[], L.steps⟩ with
    | ok exitCode after =>
      intro he
      cases he
    | error fault after => exact fun he => (hinvoke _).error hrun (Except.error.inj he)

/-! ## 3. Handles -/

namespace Code

/-- The blocks that an instruction names. -/
def sourcesOf : Instruction → List BlockRef
  | .define _ op => sources op
  | .store _ _ => []

/-- Whether every block that a merge or an exit names has a number that exists in the routine which names it. -/
def hasNamedBlocks (c : Code) : Bool :=
  c.routines.all fun r => r.blocks.all fun b =>
    (b.body.all fun i => (sourcesOf i).all (·.block < r.blocks.size)) &&
      (targets b.exit).all (·.block < r.blocks.size)

/-- The routines that the code calls are there. -/
def CallsOwn (c : Code) : Prop :=
  ∀ place b, c.block? place = some b → ∀ target op, .define target op ∈ b.body →
    ∀ g ∈ callees op, g < c.routines.size

variable {c c' : Code} {place : BlockRef} {f : Block → Block}

theorem CallsOwn.closed (h : c.CallsOwn) : c.Closed := by
  intro place i r g args hi
  obtain ⟨b, hb, hi⟩ := Option.bind_eq_some_iff.mp hi
  have hlt := h place b hb r _ (Array.mem_of_getElem? hi) g List.mem_cons_self
  exact Array.getElem?_eq_getElem hlt ▸ rfl

/-- Code that calls its own routines can be listed once the blocks that it names are there. -/
theorem CallsOwn.isClosed (h : c.CallsOwn) (hnamed : c.hasNamedBlocks) : c.isClosed := by
  unfold hasNamedBlocks at hnamed
  unfold Code.isClosed isClosedBlock
  rw [Array.all_eq_true_iff_forall_mem] at hnamed ⊢
  intro r hr
  have hblocks := hnamed r hr
  rw [Array.all_eq_true_iff_forall_mem] at hblocks ⊢
  intro b hb
  -- calls are known by the place of their block
  obtain ⟨g, hg⟩ := Array.mem_iff_getElem?.mp hr
  obtain ⟨x, hx⟩ := Array.mem_iff_getElem?.mp hb
  have hblock : c.block? ⟨g, x⟩ = some b := by
    unfold block?
    rw [hg]
    exact hx
  obtain ⟨hbody, hexit⟩ := Bool.and_eq_true_iff.mp (hblocks b hb)
  rw [Bool.and_eq_true_iff]
  refine ⟨?_, hexit⟩
  rw [Array.all_eq_true_iff_forall_mem] at hbody ⊢
  intro i hi
  cases i with
  | store v a => rfl
  | define target op =>
    refine Bool.and_eq_true_iff.mpr ⟨?_, hbody _ hi⟩
    exact List.all_eq_true.mpr fun g hg => decide_eq_true (h _ b hblock target op hi g hg)

/-- Code that has all that was there before: its routines with their names and parameters, and its blocks with their
labels. -/
structure Preserves (c c' : Code) : Prop where
  heading : ∀ g heading, c.heading? g = some heading → c'.heading? g = some heading
  block : ∀ place b, c.block? place = some b → ∃ b', c'.block? place = some b' ∧ b'.label = b.label

theorem Preserves.refl (c : Code) : c.Preserves c := ⟨fun _ _ h => h, fun _ b h => ⟨b, h, rfl⟩⟩

theorem Preserves.isSome (h : c.Preserves c') (hplace : (c.block? place).isSome) : (c'.block? place).isSome := by
  obtain ⟨b, hb⟩ := Option.isSome_iff_exists.mp hplace
  obtain ⟨b', hb', -⟩ := h.block place b hb
  rw [hb']
  rfl

/-- A step that changes one block, but not its label. -/
theorem Preserves.change (hheading : c'.heading? = c.heading?)
    (hblock : ∀ other, c'.block? other = if other = place then (c.block? place).map f else c.block? other)
    (hlabel : ∀ b, (f b).label = b.label) : c.Preserves c' := by
  refine ⟨fun g heading h => hheading ▸ h, fun other b hb => ?_⟩
  rw [hblock]
  split
  · next he =>
    rw [← he, hb]
    exact ⟨f b, rfl, hlabel b⟩
  · exact ⟨b, hb, rfl⟩

theorem preserves_addRoutine (c : Code) (name : String) (params : List String) :
    c.Preserves (c.addRoutine name params).2 := by
  refine ⟨fun g heading h => ?_, fun place b hb => ⟨b, by rw [block?_addRoutine, hb], rfl⟩⟩
  obtain ⟨r, hr, -⟩ := Option.map_eq_some_iff.mp h
  rw [heading?_addRoutine, if_neg (Nat.ne_of_lt (Array.getElem?_eq_some_iff.mp hr).1), h]

theorem preserves_addBlock {g : Nat} (hg : g < c.routines.size) (label : String) :
    c.Preserves (c.addBlock g label).2 := by
  refine ⟨fun g' heading h => by rw [heading?_addBlock, h], fun place b hb => ⟨b, ?_, rfl⟩⟩
  rw [block?_addBlock (Array.getElem?_eq_getElem hg), if_neg, hb]
  rintro rfl
  exact absurd (block_lt_blocksOf hb) (Nat.lt_irrefl _)

/-- A step that changes one block keeps calls within the code if they are within it there. -/
theorem CallsOwn.change (h : c.CallsOwn) (hsize : c'.routines.size = c.routines.size)
    (hblock : ∀ other, c'.block? other = if other = place then (c.block? place).map f else c.block? other)
    (hf : ∀ b target op, .define target op ∈ (f b).body → .define target op ∈ b.body ∨
      ∀ g ∈ callees op, g < c.routines.size) : c'.CallsOwn := by
  intro other b hb target op hop g hg
  rw [hsize]
  rw [hblock] at hb
  split at hb
  · obtain ⟨b₀, hb₀, rfl⟩ := Option.map_eq_some_iff.mp hb
    rcases hf b₀ target op hop with hold | hnew
    · exact h place b₀ hb₀ target op hold g hg
    · exact hnew g hg
  · exact h other b hb target op hop g hg

end Code

/-! ## 4. Sessions -/

/-- What a builder can be asked for: to add something, or to do something with the code so far. -/
inductive Demand where
  | addRoutine (name : String) (params : List String)
  | addBlock (routine : Nat) (label : String)
  | moveTo (place : BlockRef)
  | define (op : Operation)
  | store (value address : Register)
  | terminate (e : Exit)
  | check
  | listing
  | run (input : List Word) (limits : Limits)

inductive Reply where
  | routine (number : Nat)
  | block (place : BlockRef)
  | register (number : Register)
  | done
  | checked (result : Except CodeError Unit)
  | text (listing : String)
  | outcome (result : Except Fault Outcome)

namespace Reply

/-- The routine that a reply hands out. -/
def routine? : Reply → Option Nat
  | routine number => some number
  | _ => none

/-- The block that a reply hands out. -/
def block? : Reply → Option BlockRef
  | block place => some place
  | _ => none

end Reply

namespace Builder

/-- Whether there is a block that instructions are added to. -/
def isPlaced (b : Builder) : Bool := b.cursor.any fun place => (b.code.block? place).isSome

/-- The reply to a demand, with the builder after it. There is none if something that the demand needs is missing:
the routine that a block is to be added to, the block at hand, a block or a routine whose name is to be written, or
a routine that a run comes to call. -/
def serve? (b : Builder) : Demand → Option (Reply × Builder)
  | .addRoutine name params => some (.routine (b.addRoutine name params).1, (b.addRoutine name params).2)
  | .addBlock g label =>
    if g < b.code.routines.size then some (.block (b.addBlock g label).1, (b.addBlock g label).2) else none
  | .moveTo place => some (.done, b.moveTo place)
  | .define op => if b.isPlaced then (b.define? op).map fun next => (.register next.1, next.2) else none
  | .store value address => if b.isPlaced then (b.store? value address).map (.done, ·) else none
  | .terminate e => if b.isPlaced then (b.terminate? e).map (.done, ·) else none
  | .check => some (.checked b.code.check, b)
  | .listing => b.code.listing?.map (.text ·, b)
  | .run input limits =>
    match b.code.run input limits with
    | .error (.malformed .missingRoutine) => none
    | result => some (.outcome result, b)

end Builder

/-- A builder, with all that it was asked for and has answered so far. -/
structure Session where
  builder : Builder
  history : List (Demand × Reply)

namespace Session

def start : Session := ⟨.empty, []⟩

/-- The routines that were handed out. -/
def routines (s : Session) : List Nat := s.history.filterMap (·.2.routine?)

/-- The blocks that were handed out. -/
def blocks (s : Session) : List BlockRef := s.history.filterMap (·.2.block?)

/-- The session after one more demand. -/
def record (s : Session) (demand : Demand) (reply : Reply) (b : Builder) : Session :=
  ⟨b, s.history ++ [(demand, reply)]⟩

theorem routines_record (s : Session) (demand : Demand) (reply : Reply) (b : Builder) :
    (s.record demand reply b).routines = s.routines ++ reply.routine?.toList := by
  unfold record routines
  rw [List.filterMap_append]
  cases h : reply.routine? <;> simp [h]

theorem blocks_record (s : Session) (demand : Demand) (reply : Reply) (b : Builder) :
    (s.record demand reply b).blocks = s.blocks ++ reply.block?.toList := by
  unfold record blocks
  rw [List.filterMap_append]
  cases h : reply.block? <;> simp [h]

/-- Whether a demand uses only routines and blocks that were handed out, and emits nothing before a block was chosen.
A block may be named in any routine, and registers may be any numbers. A listing needs the blocks that are named to
exist where they are named. -/
def permits (s : Session) : Demand → Bool
  | .addRoutine _ _ | .check | .run _ _ => true
  | .addBlock g _ => g ∈ s.routines
  | .moveTo place => place ∈ s.blocks
  | .define op => s.builder.cursor.isSome && (Code.callees op).all (· ∈ s.routines) &&
      (Code.sources op).all (· ∈ s.blocks)
  | .store _ _ => s.builder.cursor.isSome
  | .terminate e => s.builder.cursor.isSome && (Code.targets (some e)).all (· ∈ s.blocks)
  | .listing => s.builder.code.hasNamedBlocks

/-- The sessions that permitted demands lead to, in whatever order they are made. -/
inductive Reachable : Session → Prop where
  | start : Reachable start
  | step {s : Session} {demand : Demand} {reply : Reply} {b : Builder} (h : Reachable s)
      (hpermits : s.permits demand) (hserve : s.builder.serve? demand = some (reply, b)) :
      Reachable (s.record demand reply b)

/-- The session after several more demands, if all of them are permitted and served. -/
def after? (s : Session) : List Demand → Option Session
  | [] => some s
  | demand :: demands =>
    if s.permits demand then
      (s.builder.serve? demand).bind fun next => (s.record demand next.1 next.2).after? demands
    else none

theorem Reachable.after? {s s' : Session} {demands : List Demand} (h : s.Reachable)
    (hafter : s.after? demands = some s') : s'.Reachable := by
  induction demands generalizing s with
  | nil =>
    obtain rfl : s = s' := Option.some.inj hafter
    exact h
  | cons demand demands ih =>
    unfold Session.after? at hafter
    split at hafter
    · next hpermits =>
      obtain ⟨next, hserve, hnext⟩ := Option.bind_eq_some_iff.mp hafter
      exact ih (h.step hpermits hserve) hnext
    · cases hafter

/-- The code is in order, and what was handed out stands for what it stood for at first. -/
structure Sound (s : Session) : Prop where
  numbered : s.builder.code.Numbered
  calls : s.builder.code.CallsOwn
  cursor : ∀ place ∈ s.builder.cursor, (s.builder.code.block? place).isSome
  routines : s.routines = List.range s.builder.code.routines.size
  headings : ∀ name params g, (.addRoutine name params, .routine g) ∈ s.history →
    s.builder.code.heading? g = some (name, params)
  distinct : s.blocks.Nodup
  blocks : ∀ place ∈ s.blocks, (s.builder.code.block? place).isSome
  labels : ∀ g label place, (.addBlock g label, .block place) ∈ s.history →
    place.routine = g ∧ ∃ b, s.builder.code.block? place = some b ∧ b.label = label

variable {s : Session} {demand : Demand} {reply : Reply} {b : Builder}

theorem Sound.start : start.Sound where
  numbered _ hr := absurd hr (Array.not_mem_empty _)
  calls _ _ hb := nomatch hb
  cursor _ h := nomatch h
  routines := rfl
  headings _ _ _ h := nomatch h
  distinct := .nil
  blocks _ h := nomatch h
  labels _ _ _ h := nomatch h

variable {g : Nat} {place : BlockRef}

theorem Sound.lt (h : s.Sound) (hg : g ∈ s.routines) : g < s.builder.code.routines.size := by
  rw [h.routines] at hg
  exact List.mem_range.mp hg

theorem Sound.heading_record (h : s.Sound) (hcode : s.builder.code.Preserves b.code)
    (hnew : ∀ name params g, demand = .addRoutine name params → reply = .routine g →
      b.code.heading? g = some (name, params)) {name : String} {params : List String}
    (hmem : (.addRoutine name params, .routine g) ∈ (s.record demand reply b).history) :
    b.code.heading? g = some (name, params) := by
  rcases List.mem_append.mp hmem with hmem | hmem
  · exact hcode.heading g _ (h.headings name params g hmem)
  · obtain ⟨hdemand, hreply⟩ := Prod.mk.inj (List.mem_singleton.mp hmem)
    exact hnew name params g hdemand.symm hreply.symm

theorem Sound.label_record (h : s.Sound) (hcode : s.builder.code.Preserves b.code)
    (hnew : ∀ g label place, demand = .addBlock g label → reply = .block place →
      place.routine = g ∧ ∃ c, b.code.block? place = some c ∧ c.label = label) {label : String}
    (hmem : (.addBlock g label, .block place) ∈ (s.record demand reply b).history) :
    place.routine = g ∧ ∃ c, b.code.block? place = some c ∧ c.label = label := by
  rcases List.mem_append.mp hmem with hmem | hmem
  · obtain ⟨hg, c₀, hc₀, hlabel⟩ := h.labels g label place hmem
    obtain ⟨c, hc, hsame⟩ := hcode.block place c₀ hc₀
    exact ⟨hg, c, hc, hsame.trans hlabel⟩
  · obtain ⟨hdemand, hreply⟩ := Prod.mk.inj (List.mem_singleton.mp hmem)
    exact hnew g label place hdemand.symm hreply.symm

/-- A step that hands nothing out. -/
theorem Sound.keep (h : s.Sound) (hroutine : reply.routine? = none) (hblock : reply.block? = none)
    (hcode : s.builder.code.Preserves b.code) (hsize : b.code.routines.size = s.builder.code.routines.size)
    (hnumbered : b.code.Numbered) (hcalls : b.code.CallsOwn)
    (hcursor : ∀ place ∈ b.cursor, (b.code.block? place).isSome) : (s.record demand reply b).Sound where
  numbered := hnumbered
  calls := hcalls
  cursor := hcursor
  routines := by
    rw [routines_record, hroutine, h.routines, ← hsize]
    exact List.append_nil _
  headings _ _ _ := h.heading_record hcode fun _ _ _ _ he => by rw [he] at hroutine; cases hroutine
  distinct := by
    rw [blocks_record, hblock]
    exact (List.append_nil _).symm ▸ h.distinct
  blocks place hplace := by
    rw [blocks_record, hblock] at hplace
    exact hcode.isSome (h.blocks place (List.append_nil s.blocks ▸ hplace))
  labels _ _ _ := h.label_record hcode fun _ _ _ _ he => by rw [he] at hblock; cases hblock

/-- A step that leaves the builder alone. -/
theorem Sound.ask (h : s.Sound) (hroutine : reply.routine? = none) (hblock : reply.block? = none) :
    (s.record demand reply s.builder).Sound :=
  h.keep hroutine hblock (.refl _) rfl h.numbered h.calls h.cursor

theorem Sound.addRoutine (h : s.Sound) (name : String) (params : List String) :
    (s.record (.addRoutine name params) (.routine (s.builder.addRoutine name params).1)
      (s.builder.addRoutine name params).2).Sound := by
  have hcode := s.builder.code.preserves_addRoutine name params
  have hsize : (s.builder.code.addRoutine name params).2.routines.size = s.builder.code.routines.size + 1 :=
    Array.size_push _
  exact {
    numbered := h.numbered.addRoutine name params
    calls := fun place c hc target op hop g hg => by
      change g < (s.builder.code.addRoutine name params).2.routines.size
      rw [hsize]
      exact (h.calls place c (Code.block?_addRoutine _ _ _ _ ▸ hc) target op hop g hg).trans (Nat.lt_succ_self _)
    cursor := fun place hplace => hcode.isSome (h.cursor place hplace)
    routines := by
      rw [routines_record, h.routines]
      change _ = List.range (s.builder.code.addRoutine name params).2.routines.size
      rw [hsize, List.range_succ]
      rfl
    headings := fun _ _ _ => h.heading_record hcode fun name' params' g hdemand hreply => by
      cases hdemand
      cases hreply
      change (s.builder.code.addRoutine name params).2.heading? _ = _
      rw [Code.heading?_addRoutine]
      exact if_pos rfl
    distinct := by
      rw [blocks_record]
      exact (List.append_nil _).symm ▸ h.distinct
    blocks := fun place hplace => by
      rw [blocks_record] at hplace
      exact hcode.isSome (h.blocks place (List.append_nil s.blocks ▸ hplace))
    labels := fun _ _ _ => h.label_record hcode fun _ _ _ hdemand => by cases hdemand }

theorem Sound.addBlock (h : s.Sound) (hg : g < s.builder.code.routines.size) (label : String) :
    (s.record (.addBlock g label) (.block (s.builder.addBlock g label).1) (s.builder.addBlock g label).2).Sound := by
  have hcode := Code.preserves_addBlock hg label
  have hat := Code.block?_addBlock (Array.getElem?_eq_getElem hg) label
  have hnew : (s.builder.code.addBlock g label).2.block? ⟨g, s.builder.code.blocksOf g⟩ = some (.empty label) := by
    rw [hat, if_pos rfl]
  exact {
    numbered := h.numbered.addBlock g label
    calls := fun place c hc target op hop g' hg' => by
      change g' < (s.builder.code.modify g _).routines.size
      rw [Code.size_modify]
      change (s.builder.code.addBlock g label).2.block? place = some c at hc
      rw [hat] at hc
      split at hc
      · rw [← Option.some.inj hc] at hop
        exact absurd hop (Array.not_mem_empty _)
      · exact h.calls place c hc target op hop g' hg'
    cursor := fun place hplace => hcode.isSome (h.cursor place hplace)
    routines := by
      rw [routines_record, h.routines]
      change _ = List.range (s.builder.code.modify g _).routines.size
      rw [Code.size_modify]
      exact List.append_nil _
    headings := fun _ _ _ => h.heading_record hcode fun _ _ _ hdemand => by cases hdemand
    distinct := by
      rw [blocks_record]
      -- the block was not there before, as all that were handed out are
      refine h.distinct.append (List.nodup_singleton _) fun place hplace hmem => ?_
      obtain rfl : place = ⟨g, s.builder.code.blocksOf g⟩ := List.mem_singleton.mp hmem
      obtain ⟨c, hc⟩ := Option.isSome_iff_exists.mp (h.blocks _ hplace)
      exact absurd (Code.block_lt_blocksOf hc) (Nat.lt_irrefl _)
    blocks := fun place hplace => by
      rw [blocks_record, List.mem_append] at hplace
      rcases hplace with hplace | hplace
      · exact hcode.isSome (h.blocks place hplace)
      · obtain rfl : place = ⟨g, s.builder.code.blocksOf g⟩ := List.mem_singleton.mp hplace
        exact Option.isSome_iff_exists.mpr ⟨_, hnew⟩
    labels := fun _ _ _ => h.label_record hcode fun g' label' place hdemand hreply => by
      cases hdemand
      cases hreply
      exact ⟨rfl, _, hnew, rfl⟩ }

/-- A step that changes the block at hand, but not its label. -/
theorem Sound.emit (h : s.Sound) (hcursor : s.builder.cursor = some place) {code : Code}
    {f : Block → Block} (hroutine : reply.routine? = none) (hblock : reply.block? = none)
    (hheading : code.heading? = s.builder.code.heading?) (hsize : code.routines.size = s.builder.code.routines.size)
    (hchange : ∀ other, code.block? other =
      if other = place then (s.builder.code.block? place).map f else s.builder.code.block? other)
    (hlabel : ∀ c, (f c).label = c.label) (hnumbered : code.Numbered)
    (hcalls : ∀ c target op, .define target op ∈ (f c).body → .define target op ∈ c.body ∨
      ∀ g ∈ Code.callees op, g < s.builder.code.routines.size) :
    (s.record demand reply ⟨code, some place⟩).Sound := by
  have hcode : s.builder.code.Preserves code := .change hheading hchange hlabel
  refine h.keep hroutine hblock hcode hsize hnumbered (h.calls.change hsize hchange hcalls) ?_
  exact fun other hother => hcode.isSome (h.cursor other (hcursor ▸ hother))

theorem Sound.placed (h : s.Sound) (hcursor : s.builder.cursor.isSome) :
    ∃ place, s.builder.cursor = some place ∧ (s.builder.code.block? place).isSome ∧ s.builder.isPlaced := by
  obtain ⟨place, hplace⟩ := Option.isSome_iff_exists.mp hcursor
  have hblock := h.cursor place hplace
  refine ⟨place, hplace, hblock, ?_⟩
  unfold Builder.isPlaced
  rw [hplace]
  exact hblock

theorem Sound.define (h : s.Sound) {op : Operation} (hpermits : s.permits (.define op)) :
    ∃ r b, s.builder.serve? (.define op) = some (.register r, b) ∧
      (s.record (.define op) (.register r) b).Sound := by
  obtain ⟨hplaced, -⟩ := Bool.and_eq_true_iff.mp hpermits
  obtain ⟨hplaced, hcallees⟩ := Bool.and_eq_true_iff.mp hplaced
  obtain ⟨place, hcursor, hblock, hplaced⟩ := h.placed hplaced
  refine ⟨(s.builder.code.define place op).1, ⟨(s.builder.code.define place op).2, some place⟩, ?_, ?_⟩
  · rw [Builder.serve?, if_pos hplaced, Builder.define?, hcursor]
    rfl
  · refine h.emit hcursor rfl rfl (funext fun g => Code.heading?_define _ _ _ g) (Code.size_modify _ _ _)
      (fun other => Code.block?_define _ place other op) (fun _ => rfl) (h.numbered.define hblock op) ?_
    intro c target op' hmem
    rcases Array.mem_push.mp hmem with hmem | hmem
    · exact .inl hmem
    · refine .inr fun g hg => h.lt ?_
      rw [(Instruction.define.inj hmem).2] at hg
      exact of_decide_eq_true (List.all_eq_true.mp hcallees g hg)

theorem Sound.store (h : s.Sound) {value address : Register} (hpermits : s.permits (.store value address)) :
    ∃ b, s.builder.serve? (.store value address) = some (.done, b) ∧
      (s.record (.store value address) .done b).Sound := by
  obtain ⟨place, hcursor, hblock, hplaced⟩ := h.placed hpermits
  refine ⟨⟨s.builder.code.store place value address, some place⟩, ?_, ?_⟩
  · rw [Builder.serve?, if_pos hplaced, Builder.store?, hcursor]
    rfl
  · refine h.emit hcursor rfl rfl (funext fun g => Code.heading?_store _ _ _ _ g) (Code.size_modify _ _ _)
      (fun other => Code.block?_store _ place other value address) (fun _ => rfl)
      (h.numbered.store hblock value address) fun c target op hmem => .inl ?_
    exact (Array.mem_push.mp hmem).resolve_right fun h => Instruction.noConfusion h

theorem Sound.terminate (h : s.Sound) {e : Exit} (hpermits : s.permits (.terminate e)) :
    ∃ b, s.builder.serve? (.terminate e) = some (.done, b) ∧ (s.record (.terminate e) .done b).Sound := by
  obtain ⟨hplaced, -⟩ := Bool.and_eq_true_iff.mp hpermits
  obtain ⟨place, hcursor, hblock, hplaced⟩ := h.placed hplaced
  refine ⟨⟨s.builder.code.terminate place e, some place⟩, ?_, ?_⟩
  · rw [Builder.serve?, if_pos hplaced, Builder.terminate?, hcursor]
    rfl
  · exact h.emit hcursor rfl rfl (funext fun g => Code.heading?_terminate _ _ _ g) (Code.size_modify _ _ _)
      (fun other => Code.block?_terminate _ place other e) (fun _ => rfl) (h.numbered.terminate hblock e)
      fun _ _ _ hmem => .inl hmem

theorem Sound.serve (h : s.Sound) (hpermits : s.permits demand) :
    ∃ reply b, s.builder.serve? demand = some (reply, b) ∧ (s.record demand reply b).Sound := by
  cases demand with
  | addRoutine name params => exact ⟨_, _, rfl, h.addRoutine name params⟩
  | addBlock g label =>
    have hg := h.lt (of_decide_eq_true hpermits)
    exact ⟨_, _, if_pos hg, h.addBlock hg label⟩
  | moveTo place =>
    have hplace := h.blocks place (of_decide_eq_true hpermits)
    refine ⟨_, _, rfl, h.keep rfl rfl (.refl _) rfl h.numbered h.calls fun other hother => ?_⟩
    obtain rfl : place = other := Option.some.inj hother
    exact hplace
  | define op =>
    obtain ⟨r, b, hserve, hsound⟩ := h.define hpermits
    exact ⟨_, b, hserve, hsound⟩
  | store value address =>
    obtain ⟨b, hserve, hsound⟩ := h.store hpermits
    exact ⟨_, b, hserve, hsound⟩
  | terminate e =>
    obtain ⟨b, hserve, hsound⟩ := h.terminate hpermits
    exact ⟨_, b, hserve, hsound⟩
  | check => exact ⟨_, _, rfl, h.ask rfl rfl⟩
  | listing =>
    have hlisting : s.builder.code.listing? = some s.builder.code.listing := if_pos (h.calls.isClosed hpermits)
    refine ⟨.text s.builder.code.listing, s.builder, ?_, h.ask rfl rfl⟩
    rw [Builder.serve?, hlisting]
    rfl
  | run input limits =>
    refine ⟨.outcome (s.builder.code.run input limits), s.builder, ?_, h.ask rfl rfl⟩
    -- no run misses a routine, so there is an outcome to reply with
    have hfound := h.calls.closed.run input limits
    rw [Builder.serve?]
    split
    · next hmissing => exact absurd hmissing hfound
    · rfl

theorem Reachable.sound (h : s.Reachable) : s.Sound := by
  induction h with
  | start => exact .start
  | @step s demand reply b _ hpermits hserve ih =>
    obtain ⟨reply', b', hserve', hsound⟩ := ih.serve hpermits
    obtain ⟨rfl, rfl⟩ := Prod.mk.inj (Option.some.inj (hserve.symm.trans hserve'))
    exact hsound

/-- However permitted demands follow one another: the registers of every routine are numbered without a gap and
increase in every block, what was handed out stands for what it stood for at first, instructions go to a block that
is there, and every permitted demand can be served. -/
theorem Reachable.served (h : s.Reachable) :
    s.Sound ∧ ∀ demand, s.permits demand → ∃ reply b, s.builder.serve? demand = some (reply, b) := by
  refine ⟨h.sound, fun demand hpermits => ?_⟩
  obtain ⟨reply, b, hserve, -⟩ := h.sound.serve hpermits
  exact ⟨reply, b, hserve⟩

/-- Two routines that call each other. A block is left twice, at last for a block of the other routine, from which it
also merges a value, and then gets one more instruction. -/
theorem served_tangle :
    let demands : List Demand := [.addRoutine "main" [], .addRoutine "f" ["n"], .addBlock 0 "entry", .addBlock 1 "entry",
      .moveTo ⟨1, 0⟩, .define (.call 0 []), .terminate (.ret 0), .terminate (.jump ⟨0, 0⟩), .moveTo ⟨0, 0⟩,
      .define (.call 1 [7]), .define (.phi [(0, ⟨1, 0⟩)]), .terminate (.ret 9), .run [] {}, .listing, .store 3 8]
    ∃ s, start.after? demands = some s ∧ s.Sound ∧ s.builder.code.routines.toList.map (·.registers) = [2, 1] ∧
      s.permits .listing ∧ ∃ reply b, s.builder.serve? .listing = some (reply, b) := by
  intro demands
  obtain ⟨s, hs⟩ : ∃ s, start.after? demands = some s := Option.isSome_iff_exists.mp (by decide +kernel)
  have hregisters : (start.after? demands).map (·.builder.code.routines.toList.map (·.registers)) = some [2, 1] := by
    decide +kernel
  have hpermits : (start.after? demands).map (·.permits .listing) = some true := by decide +kernel
  rw [hs, Option.map_some, Option.some.injEq] at hregisters hpermits
  obtain ⟨hsound, hserved⟩ := Reachable.served (Reachable.start.after? hs)
  exact ⟨s, hs, hsound, hregisters, hpermits, hserved _ hpermits⟩

end Session

end Mila
