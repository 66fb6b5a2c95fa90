import Mila.Proofs.Constructs
import Mila.Proofs.Effects

/-! # The rounds of a counting loop

A counting loop stores its start value, evaluates its bound, and tests the variable once before the first round
and once after each. What its rounds do is left open: a round may change the variable, and all that the bound
was computed from, call routines and leave the routine. It can not touch the registers that hold the bound and
the address of the variable, so the tests always compare the variable with the same bound.
-/

namespace Mila

open Run Machine

/-! ## 1. Code of expressions -/

mutual

/-- An expression, of which no part changes a variable. -/
def Node.IsExpression : Node → Prop
  | .number _ | .ident _ => True
  | .element _ index => index.IsExpression
  | .binary op lhs rhs => op ≠ .assign ∧ lhs.IsExpression ∧ rhs.IsExpression
  | .call _ args => Node.AllExpressions args
  | _ => False

def Node.AllExpressions : List Node → Prop
  | [] => True
  | first :: rest => first.IsExpression ∧ Node.AllExpressions rest

end

def Phrase.IsExpression : Phrase → Prop
  | .op o => o.isQuiet
  | .booleanize _ | .combine _ _ _ => True
  | .node n | .value n | .target n => n.IsExpression
  | .arguments nodes => Node.AllExpressions nodes
  | _ => False

/-- From one site to the other there is one way, which changes no memory and no register that was there. -/
structure Site.Straight (C : Code) (S S' : Site) : Prop where
  routine : S'.routine = S.routine
  block : S'.block = S.block
  blocks : S'.blocks = S.blocks
  index : S.index ≤ S'.index
  registers : S.registers ≤ S'.registers
  quiet : ∀ i, S.index ≤ i → i < S'.index → ∃ r o, C.instruction? S.place i = some (.define r o) ∧
    o.isQuiet ∧ S.registers ≤ r

namespace Site.Straight

variable {C : Code} {S S₁ S₂ : Site}

theorem refl (S : Site) : S.Straight C S :=
  ⟨rfl, rfl, rfl, Nat.le_refl _, Nat.le_refl _, fun _ _ _ => by omega⟩

theorem place (h : S.Straight C S₁) : S₁.place = S.place := by
  unfold Site.place
  rw [h.routine, h.block]

theorem trans (h : S.Straight C S₁) (h' : S₁.Straight C S₂) : S.Straight C S₂ where
  routine := h'.routine.trans h.routine
  block := h'.block.trans h.block
  blocks := h'.blocks.trans h.blocks
  index := h.index.trans h'.index
  registers := h.registers.trans h'.registers
  quiet i hle hlt := by
    by_cases hi : i < S₁.index
    · exact h.quiet i hle hi
    · obtain ⟨r, o, hins, ho, hr⟩ := h'.quiet i (Nat.le_of_not_lt hi) hlt
      rw [h.place] at hins
      exact ⟨r, o, hins, ho, h.registers.trans hr⟩

theorem next {o : Operation} (hhas : C.Has S (.define S.registers o)) (ho : o.isQuiet) : S.Straight C S.next where
  routine := rfl
  block := rfl
  blocks := rfl
  index := Nat.le_succ _
  registers := Nat.le_succ _
  quiet i hle hlt := by
    obtain rfl : i = S.index := by
      change i < S.index + 1 at hlt
      omega
    exact ⟨_, o, hhas.instruction?, ho, Nat.le_refl _⟩

end Site.Straight

variable {ph : Phrase} {S' : Site} {rs : List Register}

/-- The code of an expression leads straight on. -/
theorem Lowered.straight {C : Code} {S : Site}
    (h : Lowered C ph S rs S') (hexp : ph.IsExpression) : S.Straight C S' := by
  induction h with
  | op _ hhas => exact .next hhas hexp
  | targetVariable _ | argumentsNil => exact .refl _
  | arithmetic _ _ ih | comparison _ _ ih | number _ ih | readVariable _ _ ih | readConstant _ _ _ ih =>
    exact ih rfl
  | value _ ih => exact ih hexp
  | booleanize _ _ ih₁ ih₂ => exact (ih₁ rfl).trans (ih₂ rfl)
  | logical _ _ _ _ ih₁ ih₂ ih₃ => exact (ih₁ trivial).trans ((ih₂ trivial).trans (ih₃ rfl))
  | element _ _ ih₁ ih₂ | targetElement _ _ _ ih₁ ih₂ | noValue _ _ ih₁ ih₂ | call _ _ _ _ _ ih₁ ih₂ =>
    exact (ih₁ hexp).trans (ih₂ rfl)
  | binary _ _ _ _ ih₁ ih₂ ih₃ =>
    exact (ih₁ hexp.2.1).trans ((ih₂ hexp.2.2).trans (ih₃ trivial))
  | argumentsCons _ _ ih₁ ih₂ => exact (ih₁ hexp.1).trans (ih₂ hexp.2)
  | assign _ _ _ _ _ _ => exact absurd rfl hexp.1
  | _ => exact hexp.elim

/-- A phrase that yields a word, if it is an expression. -/
def Phrase.YieldsWord : Phrase → Prop
  | .op o => o.type = .word
  | .booleanize _ | .combine _ _ _ | .node _ | .value _ => True
  | _ => False

/-- The last instruction before a site gives a word to the register that is yielded. -/
def Site.Yields (C : Code) (S : Site) (rs : List Register) (S' : Site) : Prop :=
  ∃ i r o, S.index ≤ i ∧ S'.index = i + 1 ∧ rs = [r] ∧ C.instruction? S.place i = some (.define r o) ∧
    o.type = .word ∧ o.isPhi = false

theorem Site.Yields.after {C : Code} {S S₁ S₂ : Site} (h : S₁.Yields C rs S₂)
    (hbefore : S.Straight C S₁) : S.Yields C rs S₂ := by
  obtain ⟨i, r, o, hle, hindex, hrs, hins, htype, hphi⟩ := h
  rw [hbefore.place] at hins
  exact ⟨i, r, o, hbefore.index.trans hle, hindex, hrs, hins, htype, hphi⟩

theorem Lowered.yields {C : Code} {S : Site}
    (h : Lowered C ph S rs S') (hexp : ph.IsExpression) (hword : ph.YieldsWord) : S.Yields C rs S' := by
  induction h with
  | @op o S hphi hhas =>
    exact ⟨S.index, S.registers, o, Nat.le_refl _, rfl, rfl, hhas.instruction?, hword, hphi⟩
  | arithmetic _ _ ih | comparison _ _ ih | number _ ih | readVariable _ _ ih | readConstant _ _ _ ih =>
    exact ih rfl rfl
  | value _ ih => exact ih hexp trivial
  | booleanize hzero _ _ ih => exact (ih rfl rfl).after (hzero.straight rfl)
  | logical _ hl hr _ _ _ ih =>
    exact (ih rfl rfl).after ((hl.straight trivial).trans (hr.straight trivial))
  | element hbefore _ _ ih | noValue hbefore _ _ ih | call _ _ _ hbefore _ _ ih =>
    exact (ih rfl rfl).after (hbefore.straight hexp)
  | binary _ hl hr _ _ _ ih =>
    exact (ih trivial trivial).after ((hl.straight hexp.2.1).trans (hr.straight hexp.2.2))
  | assign _ _ _ _ _ _ => exact absurd rfl hexp.1
  | targetVariable _ | targetElement _ _ _ _ _ | argumentsNil | argumentsCons _ _ _ _ => exact hword.elim
  | _ => exact hexp.elim

/-! ## 2. Counting loops in code -/

/-- A counting loop, and where its parts stand in the code of a routine. -/
structure CountingLoop where
  name : String
  direction : Direction
  first : Node
  last : Node
  round : Node
  /-- The registers with the address of the variable, the start value and the bound. -/
  slot : Register
  start : Register
  bound : Register
  results : List Register
  /-- The start value is evaluated from here on. -/
  origin : Site
  /-- The start value is stored here. -/
  entry : Site
  /-- The bound has been evaluated. -/
  ready : Site
  /-- The names that a round is compiled with. -/
  inner : Locals
  /-- A round is done. -/
  outer : Site

namespace CountingLoop

def node (F : CountingLoop) : Node := .forLoop F.name F.direction F.first F.last F.round

/-- The variable is tested before the first round. -/
def test (F : CountingLoop) : Site := (F.ready.next.grow 3).move F.ready.blocks

/-- A round starts. -/
def body (F : CountingLoop) : Site :=
  { F.test.next.next.move (F.ready.blocks + 1) with locals := F.inner }

/-- The loop has come to its end. -/
def after (F : CountingLoop) : Site := F.outer.next.next.skip.next.move (F.ready.blocks + 2)

section

variable (F : CountingLoop)

@[simp] theorem test_routine : F.test.routine = F.ready.routine := by
  simp only [test, Site.move, Site.grow, Site.next]

@[simp] theorem test_index : F.test.index = 0 := rfl

@[simp] theorem test_registers : F.test.registers = F.ready.registers + 1 := rfl

@[simp] theorem body_routine : F.body.routine = F.ready.routine := by
  simp only [body, test, Site.move, Site.grow, Site.next]

@[simp] theorem body_block : F.body.block = F.ready.blocks + 1 := rfl

@[simp] theorem body_index : F.body.index = 0 := rfl

@[simp] theorem body_blocks : F.body.blocks = F.ready.blocks + 3 := rfl

@[simp] theorem body_registers : F.body.registers = F.ready.registers + 3 := rfl

@[simp] theorem after_block : F.after.block = F.ready.blocks + 2 := rfl

end

/-- The code of the loop is part of the given code. -/
structure In (F : CountingLoop) (C : Code) : Prop where
  valid : F.origin.Valid
  named : F.origin.locals.get? F.name = some ⟨F.slot, .scalar⟩
  slot_lt : F.slot < F.origin.registers
  first_expression : F.first.IsExpression
  starts : Lowered C (.value F.first) F.origin [F.start] F.entry
  start_lt : F.start < F.entry.registers
  store : C.Has F.entry (.store F.start F.slot)
  last_expression : F.last.IsExpression
  ends : Lowered C (.value F.last) F.entry.skip [F.bound] F.ready
  bound_lt : F.bound < F.ready.registers
  stride : C.Has F.ready (.define F.ready.registers (.const F.direction.step))
  jump : C.Ends F.ready.next (.jump (F.ready.ref F.ready.blocks))
  load : C.Has F.test (.define F.test.registers (.load F.slot))
  check : C.Has F.test.next
    (.define (F.test.registers + 1) (.compare F.direction.entryTest F.test.registers F.bound))
  fork : C.Ends F.test.next.next (.branch (F.test.registers + 1) (F.ready.ref (F.ready.blocks + 1))
    (F.ready.ref (F.ready.blocks + 2)))
  rounds : Lowered C (.node F.round) F.body F.results F.outer
  reload : C.Has F.outer (.define F.outer.registers (.load F.slot))
  add : C.Has F.outer.next
    (.define (F.outer.registers + 1) (.arith .add F.outer.registers F.ready.registers))
  restore : C.Has F.outer.next.next (.store (F.outer.registers + 1) F.slot)
  recheck : C.Has F.outer.next.next.skip
    (.define (F.outer.registers + 2) (.compare F.direction.repeatTest F.outer.registers F.bound))
  back : C.Ends F.outer.next.next.skip.next (.branch (F.outer.registers + 2)
    (F.ready.ref (F.ready.blocks + 1)) (F.ready.ref (F.ready.blocks + 2)))
  rest : C.Has F.after (.define F.after.registers (.const 0))
  room : F.outer.registers + 3 ≤ C.registersOf F.outer.routine

end CountingLoop

/-- Every register that is set is one of its routine. -/
def Code.Registered (C : Code) : Prop :=
  ∀ (a : BlockRef) i ins (r : Nat), C.instruction? a i = some ins → ins.target? = some r →
    r < C.registersOf a.routine

/-- A counting loop of compiled code, taken apart. -/
theorem Lowered.countingLoop {C : Code} {name : String} {dir : Direction} {start stop body : Node}
    {r : Register} {S : Site} (h : Lowered C (.node (.forLoop name dir start stop body)) S [r] S')
    (hv : S.Valid) (hslots : S.Slotted) (hplain : (Node.forLoop name dir start stop body).Plain)
    (hfirst : start.IsExpression) (hlast : stop.IsExpression) (hregistered : C.Registered) :
    ∃ F : CountingLoop, F.In C ∧ F.node = .forLoop name dir start stop body := by
  cases h with
  | @forLoop _ _ _ _ _ slot a z _ _ _ _ _ _ _ rs _ S₁ _ S₃ _ _ S₆ S₇ _ _ _ _ _ hname hstart hset hstop hstep
      hjump hcurrent htest hfork hbody hload hnext hstore hagain hback hrest =>
    have hbegin : (a : Nat) < S₁.registers :=
      hstart.results_lt hplain.1 hslots trivial a List.mem_cons_self
    have hslots₂ := hslots.follow ((hstart.follows hplain.1).trans (hset.follows trivial))
    have hbound : (z : Nat) < S₃.registers :=
      hstop.results_lt hplain.2.1 hslots₂ trivial z List.mem_cons_self
    -- every piece of the loop itself is a single instruction
    cases hset with
    | store hset =>
    cases hstep with
    | op _ hstep =>
    cases hcurrent with
    | op _ hcurrent =>
    cases htest with
    | op _ htest =>
    cases hload with
    | op _ hload =>
    cases hnext with
    | op _ hnext =>
    cases hstore with
    | store hstore =>
    cases hagain with
    | op _ hagain =>
    cases hrest with
    | op _ hrest =>
    refine ⟨⟨name, dir, start, stop, body, slot, a, z, rs, S, S₁, S₃, _, S₇⟩, ⟨hv, hname,
      hslots _ _ hname, hfirst, hstart, hbegin, hset, hlast, hstop, hbound, hstep, hjump, hcurrent, htest,
      hfork, hbody, hload, hnext, hstore, hagain, hback, hrest, ?_⟩, rfl⟩
    exact hregistered _ _ _ _ hagain.instruction? rfl

/-! ## 3. The places of a loop -/

/-- An activation of a routine of the code. -/
structure Activation.Executes (a : Activation) (C : Code) (g : Nat) : Prop where
  routine : C.routines[g]? = some a.routine
  size : a.registers.size = a.routine.registers

/-- An activation stands at a site of its routine. -/
def Activation.At (a : Activation) (S : Site) : Prop := a.block = S.block ∧ a.done = S.index

instance (a : Activation) (S : Site) : Decidable (a.At S) := inferInstanceAs (Decidable (_ ∧ _))

theorem Activation.At.defined {a : Activation} {S : Site} (h : a.At S) (r : Register) (content : Content) :
    (a.defined r content).At S.next := ⟨h.1, congrArg (· + 1) h.2⟩

theorem Activation.At.advance {a : Activation} {S : Site} (h : a.At S) : a.advance.At S.skip :=
  ⟨h.1, congrArg (· + 1) h.2⟩

namespace Activation.Executes

variable {C : Code} {g : Nat} {a a' : Activation} {S : Site}

theorem follow (h : a.Executes C g) (ha : a.Continues a') : a'.Executes C g := by
  refine ⟨?_, ?_⟩
  · rw [ha.routine]
    exact h.routine
  · rw [ha.size, ha.routine]
    exact h.size

theorem size_eq (h : a.Executes C g) : a.registers.size = C.registersOf g := by
  rw [h.size, Code.registersOf_of_routine h.routine]

theorem block? (h : a.Executes C g) (x : Nat) : C.block? ⟨g, x⟩ = a.routine.blocks[x]? :=
  Code.block?_of_routine h.routine x

theorem instruction? (h : a.Executes C g) : C.instruction? ⟨g, a.block⟩ a.done = a.instruction? := by
  unfold Code.instruction? Activation.instruction?
  rw [h.block?]
  rfl

theorem exit? (h : a.Executes C g) : C.exit? ⟨g, a.block⟩ = a.exit? := by
  unfold Code.exit? Activation.exit?
  rw [h.block?]
  rfl

theorem has {i : Instruction} (h : a.Executes C g) (hroutine : S.routine = g) (hat : a.At S)
    (hhas : C.Has S i) : a.instruction? = some i := by
  rw [← h.instruction?, hat.1, hat.2, ← hroutine]
  exact hhas.instruction?

theorem room {i : Instruction} {r : Register} (h : a.Executes C g) (hregistered : C.Registered)
    (hi : a.instruction? = some i) (hr : i.target? = some r) : r < a.registers.size := by
  rw [h.size_eq]
  exact hregistered _ _ _ _ (h.instruction?.trans hi) hr

theorem ends {e : Exit} (h : a.Executes C g) (hroutine : S.routine = g) (hat : a.At S)
    (hends : C.Ends S e) : a.instruction? = none ∧ a.exit? = some e := by
  rw [← h.instruction?, ← h.exit?, hat.1, hat.2, ← hroutine]
  exact ⟨hends.instruction? (Nat.le_refl _), hends.exit?⟩

end Activation.Executes

namespace CountingLoop

variable {F : CountingLoop} {C : Code}

namespace In

variable (h : F.In C)
include h

theorem straight : F.entry.skip.Straight C F.ready := h.ends.straight h.last_expression

theorem yields : F.entry.skip.Yields C [F.bound] F.ready := h.ends.yields h.last_expression trivial

theorem region : Region C F.origin [] F.entry := h.starts.region h.valid trivial

theorem ready_valid : F.ready.Valid := by
  have hentry := h.region.valid h.valid
  have hblocks : F.ready.blocks = F.entry.blocks := h.straight.blocks
  have hblock : F.ready.block = F.entry.block := h.straight.block
  constructor
  · rw [hblocks]
    exact hentry.blocks
  · rw [hblocks, hblock]
    exact hentry.block
  · rw [hblock]
    exact hentry.notReturn

theorem entry_block_lt : F.entry.block < F.ready.blocks := by
  have hblock : F.ready.block = F.entry.block := h.straight.block
  rw [← hblock]
  exact h.ready_valid.block

theorem body_valid : F.body.Valid := by
  have hready := h.ready_valid.blocks
  constructor
  · rw [body_blocks]
    omega
  · rw [body_blocks, body_block]
    omega
  · rw [body_block]
    omega

theorem round_region : Region C F.body [] F.outer := h.rounds.region h.body_valid trivial

theorem entry_routine : F.entry.routine = F.origin.routine := h.region.routine

theorem ready_routine : F.ready.routine = F.origin.routine := h.straight.routine.trans h.entry_routine

theorem outer_routine : F.outer.routine = F.origin.routine := by
  rw [h.round_region.routine, body_routine, h.ready_routine]

/-- The registers that the rounds can not touch. -/
theorem slot_lt_ready : F.slot < F.ready.registers :=
  Nat.lt_of_lt_of_le h.slot_lt (Nat.le_trans h.region.registers h.straight.registers)

theorem outer_registers : F.ready.registers + 3 ≤ F.outer.registers := h.round_region.registers

/-- A round ends in the block that it starts in, or in a block that is younger than all of the loop. -/
theorem outer_block : F.outer.block = F.ready.blocks + 1 ∨ F.ready.blocks + 3 ≤ F.outer.block := by
  rcases h.round_region.place with hplace | hplace
  · exact .inl hplace.1
  · exact .inr hplace.1

/-- The blocks up to that of the test have nothing to do with rounds. -/
theorem not_at_of_le {a : Activation} (hle : a.block ≤ F.ready.blocks) : ¬ a.At F.body ∧ ¬ a.At F.outer := by
  have houter := h.outer_block
  constructor
  · rintro ⟨hblock, -⟩
    rw [body_block] at hblock
    omega
  · rintro ⟨hblock, -⟩
    omega

/-- None of the blocks of a loop merges values. -/
theorem direct {x : Nat} (hx : x = F.ready.blocks ∨ x = F.ready.blocks + 1 ∨ x = F.ready.blocks + 2) :
    C.Direct (F.ready.ref x) := by
  have hv : F.ready.next.Valid := ⟨h.ready_valid.blocks, h.ready_valid.block, h.ready_valid.notReturn⟩
  have hvt := Region.valid_first hv
  have ht : Region C ((F.ready.next.grow 3).move F.ready.next.blocks) [] F.test.next.next :=
    ((Lowered.op rfl h.load).region hvt trivial).seq hvt fun hv _ => (Lowered.op rfl h.check).region hv trivial
  have hvb := Region.valid_second hv ht
  have hheld : Region C (F.test.next.next.move (F.ready.blocks + 1)) [] F.body :=
    .still rfl rfl rfl rfl rfl rfl
  have hbody := (hheld.seq hvb fun hv _ => h.rounds.region hv trivial).seq hvb fun hv _ =>
    (Lowered.op rfl h.reload).region hv trivial
  have hround := ((hbody.seq hvb fun hv _ => (Lowered.op rfl h.add).region hv trivial).seq hvb fun hv _ =>
    (Lowered.store h.restore).region hv trivial).seq hvb fun hv _ =>
    (Lowered.op rfl h.recheck).region hv trivial
  exact Region.loop_direct (S := F.ready.next) hv ht h.fork hround h.back h.rest rfl hx

end In

/-! ## 4. A step within a round -/

/-- What a loop relies on while it runs: the registers with the address of its variable, with its bound and
with what it adds to the variable. -/
structure Held (F : CountingLoop) (C : Code) (e : Word) (place : Address) (a : Activation) : Prop where
  executes : a.Executes C F.origin.routine
  slot : a.registers[F.slot]? = some (.address place)
  bound : a.registers[F.bound]? = some (.word e)
  stride : a.registers[F.ready.registers]? = some (.word F.direction.step)

variable {e : Word} {place : Address} {a a' : Activation} {m m' : Machine} {L : Limits}

theorem Held.spares (h : F.Held C e place a) (hF : F.In C) (ha : a.Spares (F.ready.registers + 1) a') :
    F.Held C e place a' := by
  refine ⟨h.executes.follow ha.toContinues, ?_, ?_, ?_⟩
  · rw [ha.register F.slot (Nat.lt_succ_of_lt hF.slot_lt_ready)]
    exact h.slot
  · rw [ha.register F.bound (Nat.lt_succ_of_lt hF.bound_lt)]
    exact h.bound
  · rw [ha.register F.ready.registers (Nat.lt_succ_self _)]
    exact h.stride

/-- An activation stands within a round. -/
structure Inside (F : CountingLoop) (a : Activation) : Prop where
  owns : F.body.Owns F.outer a.block
  before : a.block = F.outer.block → a.done < F.outer.index

theorem Inside.holds (h : F.Inside a) : F.body.Holds [] F.outer a.block a.done :=
  ⟨h.owns, List.not_mem_nil, fun _ => Nat.zero_le _, h.before⟩

/-- A place of a round at which the round is not done. -/
theorem Inside.of_owns (howns : F.body.Owns F.outer a.block)
    (hle : a.block = F.outer.block → a.done ≤ F.outer.index) : a.At F.outer ∨ F.Inside a := by
  by_cases hat : a.At F.outer
  · exact .inl hat
  · refine .inr ⟨howns, fun hblock => ?_⟩
    have hne : a.done ≠ F.outer.index := fun hdone => hat ⟨hblock, hdone⟩
    have hle := hle hblock
    omega

end CountingLoop

/-- The values that a block merges come first in it. -/
theorem Block.exists_of_leadingPhis {b : Block} {phi : Register × List (Register × BlockRef)}
    (h : phi ∈ b.leadingPhis) : ∃ i : Nat, b.body[i]? = some (Instruction.define phi.1 (.phi phi.2)) ∧
      ∀ j : Nat, j ≤ i → ∃ r L, b.body[j]? = some (Instruction.define r (.phi L)) := by
  unfold leadingPhis at h
  rw [Array.toList_takeWhile] at h
  simp only [← Array.getElem?_toList]
  generalize b.body.toList = l at h
  induction l with
  | nil => cases h
  | cons first rest ih =>
    by_cases hfirst : first.isPhi
    · obtain ⟨r, L, rfl⟩ := Instruction.isPhi_iff.mp hfirst
      rw [List.takeWhile_cons_of_pos rfl] at h
      rcases List.mem_cons.mp h with rfl | hrest
      · refine ⟨0, rfl, fun j hj => ⟨r, L, ?_⟩⟩
        rw [Nat.le_zero.mp hj]
        rfl
      · obtain ⟨i, hi, hbefore⟩ := ih hrest
        refine ⟨i + 1, hi, fun j hj => ?_⟩
        cases j with
        | zero => exact ⟨r, L, rfl⟩
        | succ j => exact hbefore j (by omega)
    · rw [List.takeWhile_cons_of_neg hfirst] at h
      cases h

namespace CountingLoop

variable {F : CountingLoop} {C : Code} {L : Limits} {e : Word} {place : Address}
  {a a' : Activation} {m m' : Machine}

/-- What a block of a round merges goes to registers of the round. -/
theorem In.merges_fresh (hF : F.In C) (ha : a.Executes C F.origin.routine) {x : Nat}
    (hle : F.body.blocks ≤ x) (hlt : x < F.outer.blocks) {b : Block} (hb : a.routine.blocks[x]? = some b)
    {phi : Register × List (Register × BlockRef)} (hphi : phi ∈ b.leadingPhis) : F.ready.registers + 1 ≤ phi.1 := by
  obtain ⟨i, hi, hbefore⟩ := Block.exists_of_leadingPhis hphi
  have hblock : C.block? ⟨F.origin.routine, x⟩ = some b := by rw [ha.block?, hb]
  have hins : ∀ j, C.instruction? ⟨F.origin.routine, x⟩ j = b.body[j]? := fun j => by
    rw [Code.instruction?, hblock, Option.bind_some]
  have hnew := hF.body_valid.block
  have hholds : F.body.Holds [] F.outer x i := by
    refine ⟨.inr ⟨hle, hlt⟩, List.not_mem_nil, fun _ => Nat.zero_le _, fun hx => ?_⟩
    -- the load behind the round merges nothing
    by_contra hge
    obtain ⟨r, M, hmerge⟩ := hbefore F.outer.index (Nat.le_of_not_lt hge)
    have hload := hF.reload.instruction?
    rw [Site.place, hF.outer_routine, ← hx, hins, hmerge] at hload
    cases hload
  have hat : C.instruction? ⟨F.body.routine, x⟩ i = some (.define phi.1 (.phi phi.2)) := by
    rw [body_routine, hF.ready_routine, hins, hi]
  have hfresh := ((hF.round_region.sound x i _ hholds hat).target phi.1 rfl).1
  rw [body_registers] at hfresh
  exact (by omega : F.ready.registers + 1 ≤ F.ready.registers + 3).trans hfresh

/-- A step within a round leaves the routine to its return block, or leads on within the round or to its
end. -/
theorem Inside.step (hF : F.In C) (ha : a.Executes C F.origin.routine) (hin : F.Inside a)
    (h : Machine.step C L a m = .ok (.inr a') m') : a'.block = 1 ∨ (a.Spares (F.ready.registers + 1) a' ∧
      m.Persists m' ∧ ¬ a'.At F.body ∧ (a'.At F.outer ∨ F.Inside a')) := by
  have hregion := hF.round_region
  have hroutine : F.body.routine = F.origin.routine := by rw [body_routine, hF.ready_routine]
  have hblock := hF.body_valid.block
  cases moves_of_step h with
  | along hi hsame hdone hpersists _ hspares =>
    right
    rw [← ha.instruction?, ← hroutine] at hi
    have hsound := hregion.sound _ _ _ hin.holds hi
    refine ⟨hspares _ fun r hr => ?_, hpersists, fun hat => ?_, Inside.of_owns ?_ fun hlast => ?_⟩
    · have hle := (hsound.target r hr).1
      rw [body_registers] at hle
      omega
    · have hzero : a'.done = 0 := hat.2
      omega
    · rw [hsame]
      exact hin.owns
    · have hlt := hin.before (hsame ▸ hlast)
      omega
  | @across e t hi he ht hto hdone hmemory hspares =>
    -- the block in which the round ends has an instruction left
    have hne : a.block ≠ F.outer.block := by
      intro heq
      have hlt := hin.before heq
      obtain ⟨b, hb, hload⟩ := hF.reload
      rw [Site.place, hF.outer_routine, ← heq, ha.block?] at hb
      rw [Activation.instruction?_eq hb] at hi
      have hsize : F.outer.index < b.body.size := (Array.getElem?_eq_some_iff.mp hload).1
      exact absurd (Array.getElem?_eq_none_iff.mp hi) (by omega)
    obtain ⟨e', he', -, htargets⟩ := hregion.done a.block ⟨hin.owns, hne, List.not_mem_nil⟩
    rw [hroutine, ha.exit?, he] at he'
    cases he'
    obtain ⟨-, hone | ⟨hle, hlt, -⟩⟩ := htargets t ht
    · exact .inl (hto.trans hone)
    · right
      refine ⟨hspares _ fun b hb phi hphi => hF.merges_fresh ha hle hlt hb hphi, .of_memory hmemory,
        fun hat => ?_, Inside.of_owns (.inr ?_) fun _ => ?_⟩
      · have hsame : a'.block = F.body.block := hat.1
        omega
      · rw [hto]
        exact ⟨hle, hlt⟩
      · rw [hdone]
        exact Nat.zero_le _

/-! ## 5. The steps of the loop itself -/

/-- The loop goes on to a round or to its end, with a value of the variable. -/
structure Decided (F : CountingLoop) (C : Code) (e : Word) (place : Address) (go : Bool) (v : Word)
    (a : Activation) (m : Machine) : Prop where
  held : F.Held C e place a
  here : a.At (if go then F.body else F.after)
  cell : m.cell? place = some v

/-- The loop is about to go on to a round or to its end, with a value of the variable. -/
inductive Deciding (F : CountingLoop) (C : Code) (e : Word) (place : Address) :
    Bool → Word → Activation → Machine → Prop where
  | load {v : Word} {a : Activation} {m : Machine} (held : F.Held C e place a) (here : a.At F.test)
      (cell : m.cell? place = some v) : Deciding F C e place (F.direction.starts v e) v a m
  | check {v : Word} {a : Activation} {m : Machine} (held : F.Held C e place a) (here : a.At F.test.next)
      (cell : m.cell? place = some v) (current : a.registers[F.test.registers]? = some (.word v)) :
      Deciding F C e place (F.direction.starts v e) v a m
  | fork {go : Bool} {v : Word} {a : Activation} {m : Machine} (held : F.Held C e place a)
      (here : a.At F.test.next.next) (cell : m.cell? place = some v)
      (verdict : a.registers[F.test.registers + 1]? = some (.word (.ofBool go))) :
      Deciding F C e place go v a m
  | reload {w : Word} {a : Activation} {m : Machine} (held : F.Held C e place a) (here : a.At F.outer)
      (cell : m.cell? place = some w) :
      Deciding F C e place (F.direction.goesOn w e) (F.direction.next w) a m
  | add {w : Word} {a : Activation} {m : Machine} (held : F.Held C e place a) (here : a.At F.outer.next)
      (cell : m.cell? place = some w) (current : a.registers[F.outer.registers]? = some (.word w)) :
      Deciding F C e place (F.direction.goesOn w e) (F.direction.next w) a m
  | restore {w : Word} {a : Activation} {m : Machine} (held : F.Held C e place a)
      (here : a.At F.outer.next.next) (cell : m.cell? place = some w)
      (current : a.registers[F.outer.registers]? = some (.word w))
      (following : a.registers[F.outer.registers + 1]? = some (.word (F.direction.next w))) :
      Deciding F C e place (F.direction.goesOn w e) (F.direction.next w) a m
  | recheck {w : Word} {a : Activation} {m : Machine} (held : F.Held C e place a)
      (here : a.At F.outer.next.next.skip) (cell : m.cell? place = some (F.direction.next w))
      (current : a.registers[F.outer.registers]? = some (.word w)) :
      Deciding F C e place (F.direction.goesOn w e) (F.direction.next w) a m
  | back {go : Bool} {v : Word} {a : Activation} {m : Machine} (held : F.Held C e place a)
      (here : a.At F.outer.next.next.skip.next) (cell : m.cell? place = some v)
      (verdict : a.registers[F.outer.registers + 2]? = some (.word (.ofBool go))) :
      Deciding F C e place go v a m

/-- A register that the loop itself sets is there, and none of those that it relies on. -/
theorem Held.defined (h : F.Held C e place a) (hF : F.In C) {r : Nat} (hle : F.ready.registers + 1 ≤ r)
    (hlt : r < F.outer.registers + 3) (content : Content) : r < a.registers.size ∧
      F.Held C e place (a.defined r content) ∧ (a.defined r content).registers[r]? = some content := by
  have hsize : r < a.registers.size := by
    rw [h.executes.size_eq, ← hF.outer_routine]
    exact hlt.trans_le hF.room
  refine ⟨hsize, h.spares hF ((Activation.Spares.set hle content).move _ _), ?_⟩
  exact Array.getElem?_setIfInBounds_self_of_lt hsize

theorem In.exists_block (hF : F.In C) (go : Bool) :
    ∃ b, C.block? ⟨F.origin.routine, (if go then F.body else F.after).block⟩ = some b := by
  cases go with
  | false =>
    obtain ⟨b, hb, -⟩ := hF.rest
    have hroutine : F.after.routine = F.origin.routine := by
      rw [← hF.outer_routine]
      simp only [after, Site.move, Site.next, Site.skip]
    rw [Site.place, hroutine] at hb
    exact ⟨b, hb⟩
  | true =>
    by_cases hsame : F.body.block = F.outer.block
    · obtain ⟨b, hb, -⟩ := hF.reload
      rw [Site.place, hF.outer_routine, ← hsame] at hb
      exact ⟨b, hb⟩
    · obtain ⟨e, he, -⟩ := hF.round_region.done F.body.block ⟨.inl rfl, hsame, List.not_mem_nil⟩
      rw [body_routine, hF.ready_routine] at he
      obtain ⟨b, hb, -⟩ := Option.bind_eq_some_iff.mp he
      exact ⟨b, hb⟩

variable {go : Bool} {v : Word} {t : Nat}

theorem Held.branch (h : F.Held C e place a) (hF : F.In C) (hcell : m.cell? place = some v) {S : Site}
    (hroutine : S.routine = F.origin.routine) (here : a.At S) {r : Register}
    (hends : C.Ends S (.branch r (F.ready.ref (F.ready.blocks + 1)) (F.ready.ref (F.ready.blocks + 2))))
    (hr : a.registers[r]? = some (.word (.ofBool go))) (ht : m.steps = t + 1) :
    ∃ a' m', step C L a m = .ok (.inr a') m' ∧ m'.steps = t ∧ F.Decided C e place go v a' m' := by
  obtain ⟨hnone, hexit⟩ := h.executes.ends hroutine here hends
  obtain ⟨b, hb⟩ := hF.exists_block go
  -- neither block merges values, so that entering it sets no register
  have hdirect : ∀ r M, b.body[0]? ≠ some (Instruction.define r (.phi M)) := by
    intro r M hmerge
    have hx : C.Direct (F.ready.ref (if go then F.body else F.after).block) := by
      apply hF.direct
      cases go <;> simp
    refine hx r M ?_
    rw [Site.ref, hF.ready_routine, Code.instruction?, hb]
    exact hmerge
  rw [h.executes.block?] at hb
  have henter : a.enter (some a.block) (if go then F.ready.ref (F.ready.blocks + 1) else
      F.ready.ref (F.ready.blocks + 2)).block (m.withSteps t) =
        .ok (a.goto (if go then F.body else F.after).block) (m.withSteps t) := by
    have hto : (if go then F.ready.ref (F.ready.blocks + 1) else F.ready.ref (F.ready.blocks + 2)).block =
        (if go then F.body else F.after).block := by
      cases go <;> rfl
    rw [hto]
    exact Activation.enter_direct hb (Block.leadingPhis_nil hdirect) _ _
  refine ⟨_, _, step_branch hnone hexit ht hr henter, rfl, ?_, ?_, hcell⟩
  · exact h.spares hF ((Activation.Spares.refl _ a).move _ _)
  · refine ⟨rfl, ?_⟩
    cases go <;> rfl

/-- A loop that has a step left comes closer to its decision, or makes it. -/
theorem Deciding.next (h : F.Deciding C e place go v a m) (hF : F.In C) (ht : m.steps = t + 1) :
    ∃ a' m', step C L a m = .ok (.inr a') m' ∧ m'.steps = t ∧
      ((F.Deciding C e place go v a' m' ∧ a'.block = a.block ∧ a'.done = a.done + 1) ∨
        F.Decided C e place go v a' m') := by
  have hold := hF.outer_registers
  have htest : F.test.routine = F.origin.routine := by rw [test_routine, hF.ready_routine]
  have houter := hF.outer_routine
  -- one case for each instruction before the first round, and then for each one behind a round
  cases h with
  | load held here cell =>
    have hi := held.executes.has htest here hF.load
    obtain ⟨hsize, hheld, hset⟩ := held.defined hF (r := F.test.registers) (Nat.le_refl _)
      (by rw [test_registers]; omega) (.word v)
    exact ⟨_, _, step_load hi hsize ht held.slot cell, rfl,
      .inl ⟨.check hheld (here.defined _ _) cell hset, rfl, rfl⟩⟩
  | check held here cell current =>
    have hi := held.executes.has (S := F.test.next) htest here hF.check
    obtain ⟨hsize, hheld, hset⟩ := held.defined hF (r := F.test.registers + 1)
      (by rw [test_registers]; omega) (by rw [test_registers]; omega)
      (.word (.ofBool (F.direction.starts v e)))
    have hstep := step_compare (C := C) (L := L) hi hsize ht current held.bound
    rw [← Direction.starts_eq] at hstep
    exact ⟨_, _, hstep, rfl, .inl ⟨.fork hheld (here.defined _ _) cell hset, rfl, rfl⟩⟩
  | fork held here cell verdict =>
    obtain ⟨a', m', hstep, hsteps, hdecided⟩ :=
      held.branch hF cell (S := F.test.next.next) htest here hF.fork verdict ht
    exact ⟨a', m', hstep, hsteps, .inr hdecided⟩
  | @reload w _ _ held here cell =>
    have hi := held.executes.has houter here hF.reload
    obtain ⟨hsize, hheld, hset⟩ := held.defined hF (r := F.outer.registers) (by omega) (by omega) (.word w)
    exact ⟨_, _, step_load hi hsize ht held.slot cell, rfl,
      .inl ⟨.add hheld (here.defined _ _) cell hset, rfl, rfl⟩⟩
  | @add w _ _ held here cell current =>
    have hi := held.executes.has (S := F.outer.next) houter here hF.add
    obtain ⟨hsize, hheld, hset⟩ := held.defined hF (r := F.outer.registers + 1) (by omega) (by omega)
      (.word (F.direction.next w))
    have hstep := step_add (C := C) (L := L) hi hsize ht current held.stride
    rw [← Direction.next_eq] at hstep
    refine ⟨_, _, hstep, rfl, .inl ⟨.restore hheld (here.defined _ _) cell ?_ hset, rfl, rfl⟩⟩
    rw [← current]
    exact Array.getElem?_setIfInBounds_ne (Nat.succ_ne_self _)
  | @restore w _ _ held here cell current following =>
    have hi := held.executes.has (S := F.outer.next.next) houter here hF.restore
    have hcell : (m.cell? place).isSome := by rw [cell]; rfl
    obtain ⟨m', hstep, hrest, hcells⟩ := step_store (C := C) (L := L) hi ht following held.slot hcell
    have hsteps : m'.steps = t := by rw [hrest]; rfl
    have hwritten : m'.cell? place = some (F.direction.next w) := (hcells place).trans (if_pos rfl)
    have hheld : F.Held C e place a.advance := held.spares hF ((Activation.Spares.refl _ a).move _ _)
    exact ⟨_, m', hstep, hsteps, .inl ⟨.recheck hheld here.advance hwritten current, rfl, rfl⟩⟩
  | @recheck w _ _ held here cell current =>
    have hi := held.executes.has (S := F.outer.next.next.skip) houter here hF.recheck
    obtain ⟨hsize, hheld, hset⟩ := held.defined hF (r := F.outer.registers + 2) (by omega) (by omega)
      (.word (.ofBool (F.direction.goesOn w e)))
    have hstep := step_compare (C := C) (L := L) hi hsize ht current held.bound
    rw [← Direction.goesOn_eq] at hstep
    exact ⟨_, _, hstep, rfl, .inl ⟨.back hheld (here.defined _ _) cell hset, rfl, rfl⟩⟩
  | back held here cell verdict =>
    obtain ⟨a', m', hstep, hsteps, hdecided⟩ :=
      held.branch hF cell (S := F.outer.next.next.skip.next) houter here hF.back verdict ht
    exact ⟨a', m', hstep, hsteps, .inr hdecided⟩

end CountingLoop

end Mila
