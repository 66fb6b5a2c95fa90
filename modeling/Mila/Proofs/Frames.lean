import Mila.Proofs.Steps

/-! # What a call leaves alone

An activation can only reach allocations of its own: an address comes from an allocation that it made itself,
or from another such address, and a call gives back all that it allocated. So a call leaves memory as it found
it, however it ends, and no address is ever used after its allocation was released. This holds of all code, also
of code that would not pass any check.
-/

namespace Mila

open Run Machine

/-! ## 1. What an activation may reach -/

/-- The allocation of an address is there, and is not one of the given oldest ones. -/
def Address.Above (place : Address) (base : Array Cells) (m : Machine) : Prop :=
  base.size ≤ place.allocation ∧ place.allocation < m.memory.size

/-- An activation that began with the memory `base` has left it alone, and can not reach it. -/
structure Activation.Confined (base : Array Cells) (a : Activation) (m : Machine) : Prop where
  memory : m.Extends base
  address : ∀ {r : Register} {place : Address}, a.registers[r]? = some (.address place) →
    place.Above base m

/-- A fault that leaves the memory `base` alone, and does not come from an address of something that was
released. -/
def Unharmed (base : Array Cells) (f : Fault) (m : Machine) : Prop :=
  f ≠ .malformed .releasedAllocation ∧ m.Extends base

variable {base : Array Cells} {a a' : Activation} {m m' : Machine}

theorem Fault.IsFlaw.unharmed {f : Fault} (h : f.IsFlaw) (hm : m.Extends base) : Unharmed base f m := by
  obtain ⟨d, hd, rfl⟩ := h
  exact ⟨fun he => hd (Fault.malformed.inj he), hm⟩

theorem Address.Above.cells {place : Address} (h : place.Above base m) :
    ∃ cells, m.memory[place.allocation]? = some cells := ⟨_, Array.getElem?_eq_getElem h.2⟩

namespace Activation.Confined

/-- Later there may be more allocations, but none is gone. -/
theorem later (h : a.Confined base m) (hm : m'.Extends base) (hsize : m.memory.size ≤ m'.memory.size) :
    a.Confined base m' :=
  ⟨hm, fun hr => ⟨(h.address hr).1, Nat.lt_of_lt_of_le (h.address hr).2 hsize⟩⟩

theorem retains (h : a.Confined base m) (ha : a.Retains a') : a'.Confined base m :=
  ⟨h.memory, fun hr => h.address (ha.address hr)⟩

theorem set (h : a.Confined base m) (r : Register) {content : Content}
    (hcontent : ∀ place, content = .address place → place.Above base m) :
    Confined base { a with registers := a.registers.setIfInBounds r content } m := by
  refine ⟨h.memory, fun {s place} hs => ?_⟩
  rcases a.getElem?_set hs with he | hsame
  · exact hcontent place he.symm
  · exact h.address hsame

theorem start (R : Routine) (args : List Word) (depth : Nat) (m : Machine) :
    (start R args depth).Confined m.memory m := by
  refine ⟨.refl m, fun {r place} hr => ?_⟩
  change (Array.replicate R.registers Content.undefined)[r]? = _ at hr
  rw [Array.getElem?_replicate] at hr
  split at hr <;> cases hr

end Activation.Confined

/-! ## 2. Single pieces -/

namespace Machine

theorem meets_read {place : Address} (hm : m.Extends base) (hplace : place.Above base m) :
    Meets (read place) m (fun _ m' => m' = m) (Unharmed base) := by
  obtain ⟨cells, hcells⟩ := hplace.cells
  unfold Meets read
  rw [hcells]
  dsimp only
  cases cells.get? place.index with
  | none => exact ⟨Fault.noConfusion, hm⟩
  | some value => rfl

theorem meets_write {place : Address} (value : Word) (hm : m.Extends base) (hplace : place.Above base m) :
    Meets (write place value) m
      (fun _ m' => m'.Extends base ∧ m'.memory.size = m.memory.size) (Unharmed base) := by
  obtain ⟨cells, hcells⟩ := hplace.cells
  unfold Meets write
  rw [hcells]
  dsimp only
  cases cells.set? place.index value with
  | none => exact ⟨Fault.noConfusion, hm⟩
  | some cells =>
    refine ⟨fun k hk => ?_, Array.size_setIfInBounds⟩
    rw [Array.getElem?_setIfInBounds_ne (Nat.ne_of_gt (Nat.lt_of_lt_of_le hk hplace.1))]
    exact hm k hk

theorem meets_allocate (count : Nat) (hm : m.Extends base) :
    Meets (allocate count) m (fun place m' => m'.Extends base ∧ m'.memory.size = m.memory.size + 1 ∧
      place.Above base m') (Unharmed base) := by
  refine ⟨fun k hk => ?_, Array.size_push _, hm.size_le, ?_⟩
  · change (m.memory.push _)[k]? = _
    rw [Array.getElem?_push_lt (Nat.lt_of_lt_of_le hk hm.size_le)]
    exact (Array.getElem?_eq_getElem _).symm.trans (hm k hk)
  · rw [Array.size_push]
    exact Nat.lt_succ_self _

end Machine

/-- How many allocations an operation makes. -/
def Operation.allocations : Operation → Nat
  | .alloca _ => 1
  | _ => 0

/-- How many allocations an instruction makes. -/
def Instruction.allocations : Instruction → Nat
  | .define _ o => o.allocations
  | .store _ _ => 0

/-- Calls give memory back as they found it. -/
def Run.Restoring (call : Nat → List Word → Run Word) : Prop :=
  ∀ g args m, Meets (call g args) m (fun _ m' => m'.memory = m.memory)
    (fun f m' => f ≠ .malformed .releasedAllocation ∧ m'.memory = m.memory)

namespace Activation.Confined

variable {call : Nat → List Word → Run Word}

theorem word (h : a.Confined base m) (r : Register) : Meets (a.word r) m (fun _ m' => m' = m) (Unharmed base) := by
  refine (a.meets_word m r).mono (fun _ _ hv => hv.1) ?_
  rintro f _ ⟨rfl, hf⟩
  exact hf.unharmed h.memory

theorem place (h : a.Confined base m) (r : Register) :
    Meets (a.address r) m (fun place m' => m' = m ∧ place.Above base m) (Unharmed base) := by
  refine (a.meets_address m r).mono (fun _ _ hp => ⟨hp.1, h.address hp.2⟩) ?_
  rintro f _ ⟨rfl, hf⟩
  exact hf.unharmed h.memory

theorem found (h : a.Confined base m) (v : Word) : m.Extends base ∧ m.memory.size = m.memory.size + 0 ∧
    ∀ place, some (Content.word v) = some (.address place) → place.Above base m :=
  ⟨h.memory, rfl, fun _ he => nomatch he⟩

theorem intrinsic (h : a.Confined base m) (which : Intrinsic) (r : Register) : Meets (intrinsic a r which) m
      (fun _ m' => m'.Extends base ∧ m'.memory.size = m.memory.size) (Unharmed base) := by
  have hread : Meets (a.address r >>= read) m (fun _ m' => m' = m) (Unharmed base) := by
    refine (h.place r).bind fun place m₁ hp => ?_
    obtain ⟨rfl, hp⟩ := hp
    exact meets_read h.memory hp
  have hvalue : Meets (intrinsicValue a r which) m (fun _ m' => m'.memory = m.memory) (Unharmed base) := by
    cases which with
    | readln =>
      unfold Meets intrinsicValue readInput
      dsimp only
      cases m.input with
      | nil => exact ⟨Fault.noConfusion, h.memory⟩
      | cons value input => rfl
    | inc =>
      rw [intrinsicValue, ← bind_assoc]
      exact hread.bind fun _ m₁ h₁ => .pure (h₁ ▸ rfl)
    | dec =>
      rw [intrinsicValue, ← bind_assoc]
      exact hread.bind fun _ m₁ h₁ => .pure (h₁ ▸ rfl)
  refine hvalue.bind fun value m₁ h₁ => ?_
  -- the value was found without changing memory
  have ha : a.Confined base m₁ := h.later (fun k hk => by rw [h₁]; exact h.memory k hk)
    (congrArg Array.size h₁).ge
  refine (ha.place r).bind fun place m₂ hp => ?_
  obtain ⟨rfl, hp⟩ := hp
  exact (meets_write value ha.memory hp).bind fun _ m₃ h₃ => .pure ⟨h₃.1, h₃.2.trans (congrArg _ h₁)⟩

/-- An operation changes memory above the base only, and yields no address below. -/
theorem evaluate (h : a.Confined base m) (hcall : Restoring call) (o : Operation) :
    Meets (evaluate call a o) m (fun content m' => m'.Extends base ∧
      m'.memory.size = m.memory.size + o.allocations ∧
      ∀ place, content = some (.address place) → place.Above base m') (Unharmed base) := by
  cases o with
  | const value => exact .pure (h.found value)
  | param index =>
    rw [Machine.evaluate]
    split
    · exact .pure (h.found _)
    · exact .throw (Fault.IsFlaw.unharmed ⟨_, Defect.noConfusion, rfl⟩ h.memory)
  | alloca count =>
    refine (meets_allocate count h.memory).bind fun place m₁ h₁ => .pure ⟨h₁.1, h₁.2.1, ?_⟩
    intro place' he
    cases he
    exact h₁.2.2
  | offset base distance =>
    -- an address moves within its allocation, however far
    refine (h.place base).bind fun place m₁ hp => ?_
    obtain ⟨rfl, hp⟩ := hp
    refine (h.word distance).bind fun v m₂ hv => ?_
    subst hv
    refine .pure ⟨h.memory, rfl, fun place' he => ?_⟩
    cases he
    exact hp
  | load r =>
    refine (h.place r).bind fun place m₁ hp => ?_
    obtain ⟨rfl, hp⟩ := hp
    refine (meets_read h.memory hp).bind fun v m₂ hv => ?_
    subst hv
    exact .pure (h.found v)
  | arith op lhs rhs =>
    refine (h.word lhs).bind fun x m₁ hx => ?_
    subst hx
    refine (h.word rhs).bind fun y m₂ hy => ?_
    subst hy
    cases op.eval? x y with
    | none => exact .throw ⟨Fault.noConfusion, h.memory⟩
    | some value => exact .pure (h.found value)
  | compare op lhs rhs =>
    refine (h.word lhs).bind fun x m₁ hx => ?_
    subst hx
    refine (h.word rhs).bind fun y m₂ hy => ?_
    subst hy
    exact .pure (h.found _)
  | call g rs =>
    -- only here the rest of the machine is asked, and it is known to give memory back as it was
    refine (Meets.mapM fun r => h.word r).bind fun args m₁ h₁ => ?_
    subst h₁
    refine Meets.bind (Q := fun _ m' => m'.memory = m₁.memory) ?_ fun v m₂ h₂ => .pure ?_
    · refine (hcall g args m₁).mono (fun _ _ h₂ => h₂) fun f m₂ hf => ⟨hf.1, ?_⟩
      intro k hk
      rw [hf.2]
      exact h.memory k hk
    · refine ⟨fun k hk => ?_, congrArg Array.size h₂, fun _ he => ?_⟩
      · rw [h₂]
        exact h.memory k hk
      · cases he
  | intrinsic which r =>
    refine (h.intrinsic which r).bind fun v m₁ h₁ => .pure ⟨h₁.1, h₁.2, fun _ he => ?_⟩
    cases he
  | phi incoming =>
    refine .pure ⟨h.memory, rfl, fun _ he => ?_⟩
    cases he

theorem perform (h : a.Confined base m) (hcall : Restoring call) (i : Instruction) :
    Meets (perform call a i) m (fun a' m' => a'.Confined base m' ∧
      m'.memory.size = m.memory.size + i.allocations) (Unharmed base) := by
  cases i with
  | define r o =>
    refine (h.evaluate hcall o).bind fun content m₁ h₁ => ?_
    obtain ⟨hm, hsize, hplace⟩ := h₁
    -- memory may have grown, and all addresses lead where they did
    have ha := h.later hm (by omega)
    cases content with
    | none => exact .pure ⟨ha, hsize⟩
    | some content =>
      refine (a.meets_set m₁ r content).mono ?_ ?_
      · rintro a' _ ⟨rfl, rfl⟩
        exact ⟨ha.set r fun place he => hplace place (congrArg some he), hsize⟩
      · rintro f _ ⟨rfl, hf⟩
        exact hf.unharmed hm
  | store v r =>
    refine (h.word v).bind fun value m₁ h₁ => ?_
    subst h₁
    refine (h.place r).bind fun place m₂ hp => ?_
    obtain ⟨rfl, hp⟩ := hp
    exact (meets_write value h.memory hp).bind fun _ m₃ h₃ =>
      .pure ⟨h.later h₃.1 h₃.2.ge, h₃.2⟩

theorem enter (h : a.Confined base m) (origin : Option Nat) (block : Nat) :
    Meets (a.enter origin block) m (fun a' m' => m' = m ∧ a'.Confined base m) (Unharmed base) := by
  refine (a.meets_enter m origin block).mono (fun _ _ ha => ⟨ha.1, h.retains ha.2⟩) ?_
  rintro f _ ⟨rfl, hf⟩
  exact hf.unharmed h.memory

end Activation.Confined

/-! ## 3. Calls -/

namespace Activation

/-- How many allocations the next step of an activation makes. -/
def allocations (a : Activation) : Nat :=
  match a.instruction? with
  | some i => i.allocations
  | none => 0

/-- A step of an activation keeps it within what it may reach. -/
theorem Confined.act {call : Nat → List Word → Run Word} (h : a.Confined base m) (hcall : Restoring call) :
    Meets (a.act call) m (fun next m' => m'.Extends base ∧
      m'.memory.size = m.memory.size + a.allocations ∧ ∀ a', next = .inr a' → a'.Confined base m')
      (Unharmed base) := by
  -- a jump and a branch both end with entering a block
  have henter : ∀ block, Meets (a.enter (some a.block) block >>= fun b => pure (.inr b)) m
      (fun (next : Word ⊕ Activation) m' => m'.Extends base ∧ m'.memory.size = m.memory.size + 0 ∧
        ∀ a', next = .inr a' → a'.Confined base m') (Unharmed base) := by
    intro block
    refine (h.enter _ block).bind fun b m₁ hb => ?_
    obtain ⟨rfl, hb⟩ := hb
    refine .pure ⟨h.memory, rfl, fun a' he => ?_⟩
    cases he
    exact hb
  unfold Activation.act allocations
  cases a.instruction? with
  | some i =>
    refine (h.perform hcall i).bind fun b m₁ hb => .pure ⟨hb.1.memory, hb.2, fun a' he => ?_⟩
    cases he
    exact ⟨hb.1.memory, hb.1.address⟩
  | none =>
    cases a.exit? with
    | none => exact .throw (Fault.IsFlaw.unharmed ⟨_, Defect.noConfusion, rfl⟩ h.memory)
    | some e =>
      cases e with
      | jump target => exact henter _
      | branch condition thenBlock elseBlock =>
        refine (h.word condition).bind fun v m₁ hv => ?_
        subst hv
        exact henter _
      | ret value =>
        refine (h.word value).bind fun v m₁ hv => ?_
        subst hv
        refine .pure ⟨h.memory, rfl, fun a' he => ?_⟩
        cases he

end Activation

namespace Machine

variable (C : Code) (L : Limits)

theorem restoring_external (name : String) (args : List Word) (m : Machine) :
    Meets (external name args) m (fun _ m' => m'.memory = m.memory)
      (fun f m' => f ≠ .malformed .releasedAllocation ∧ m'.memory = m.memory) := by
  unfold external
  split
  · rfl
  · rfl
  · exact .throw ⟨Fault.noConfusion, rfl⟩

/-- A call whose body keeps to what it may reach restores memory. -/
theorem restoring_invoke {go : Activation → Run Word} (hgo : ∀ base a m, a.Confined base m →
    Meets (go a) m (fun _ m' => m'.Extends base) (Unharmed base)) (depth : Nat) :
    Restoring fun g args => invoke C L go g args depth := by
  intro g args m
  change Meets (invoke C L go g args depth) m _ _
  unfold invoke
  split
  · exact .throw ⟨fun he => Defect.noConfusion (Fault.malformed.inj he), rfl⟩
  · next R _ =>
    split
    · exact restoring_external _ _ m
    · split
      · exact .throw ⟨Fault.noConfusion, rfl⟩
      · -- what the call has allocated is released however it ends
        refine .releasing ?_
        have hbody : Meets ((Activation.start R args depth).enter none 0 >>= go) m
            (fun _ m' => m'.Extends m.memory) (Unharmed m.memory) := by
          refine ((Activation.Confined.start R args depth m).enter none 0).bind fun a m₁ ha => ?_
          obtain ⟨rfl, ha⟩ := ha
          exact hgo _ a m₁ ha
        exact hbody.mono (fun _ _ h => h.shrink) fun _ _ h => ⟨h.1, h.2.shrink⟩

/-- What an activation executes leaves the memory alone that it began with. -/
theorem confined_execute (n : Nat) (base : Array Cells) (a : Activation) (m : Machine) (h : a.Confined base m) :
    Meets (execute C L n a) m (fun _ m' => m'.Extends base) (Unharmed base) := by
  induction n generalizing base a m with
  | zero => exact .throw ⟨Fault.noConfusion, h.memory⟩
  | succ n ih =>
    rw [execute_succ, afterTick_eq_act]
    cases hsteps : m.steps with
    | zero =>
      unfold Meets
      rw [bind_error (tick_zero hsteps)]
      exact ⟨Fault.noConfusion, h.memory⟩
    | succ t =>
      unfold Meets
      rw [bind_ok (tick_succ hsteps)]
      have ht : a.Confined base (m.withSteps t) := ⟨h.memory, h.address⟩
      refine (ht.act (restoring_invoke C L ih _)).bind fun next m₁ h₁ => ?_
      cases next with
      | inl v => exact .pure h₁.1
      | inr b => exact ih base b m₁ (h₁.2.2 b rfl)

theorem confined_exec (base : Array Cells) (a : Activation) (m : Machine) (h : a.Confined base m) :
    Meets (exec C L a) m (fun _ m' => m'.Extends base) (Unharmed base) :=
  confined_execute C L m.steps base a m h

end Machine

/-! ## 4. The states of an execution -/

/-- The states that an execution comes through, each with the allocations that the activation has made up
to there. -/
inductive Passes (C : Code) (L : Limits) (a₀ : Activation) (m₀ : Machine) :
    List Nat → Activation → Machine → Prop where
  | start : Passes C L a₀ m₀ [] a₀ m₀
  | step {made : List Nat} {a a' : Activation} {m m' : Machine} (h : Passes C L a₀ m₀ made a m)
      (hstep : step C L a m = .ok (.inr a') m') :
      Passes C L a₀ m₀ (made ++ List.range' m.memory.size a.allocations) a' m'

namespace Passes

variable {C : Code} {L : Limits} {a₀ a : Activation} {m₀ m : Machine} {made : List Nat}

theorem exec_eq (h : Passes C L a₀ m₀ made a m) : exec C L a₀ m₀ = exec C L a m := by
  induction h with
  | start => rfl
  | step _ hstep ih =>
    rw [ih, exec_eq_step, bind_ok hstep]
    rfl

/-- An activation reaches all that it allocated, and nothing else. -/
theorem confined (h : Passes C L a₀ m₀ made a m) (h₀ : a₀.Confined m₀.memory m₀) :
    a.Confined m₀.memory m ∧ m.memory.size = m₀.memory.size + made.length ∧
      made = List.range' m₀.memory.size made.length := by
  induction h with
  | start => exact ⟨h₀, rfl, rfl⟩
  | @step made a a' m m' _ hstep ih =>
    obtain ⟨ha, hsize, hmade⟩ := ih
    cases hsteps : m.steps with
    | zero =>
      rw [Machine.step, bind_error (tick_zero hsteps)] at hstep
      cases hstep
    | succ t =>
      rw [Machine.step, bind_ok (tick_succ hsteps)] at hstep
      have ht : a.Confined m₀.memory (m.withSteps t) := ⟨ha.memory, ha.address⟩
      have hact := (ht.act (restoring_invoke C L (confined_exec C L) _)).ok hstep
      refine ⟨hact.2.2 a' rfl, ?_, ?_⟩
      · rw [hact.2.1, List.length_append, List.length_range', ← Nat.add_assoc, ← hsize]
        rfl
      · rw [List.length_append, List.length_range', List.range'_append_1 |>.symm, ← hmade, hsize]

end Passes

/-! ## 5. All calls -/

/-- A call of any routine of any code, however it ends, leaves memory exactly as it was before. Wherever its
execution stands, it has left the memory of its caller alone so far, and every address in its registers is one
of an allocation that it has made itself and that is still there. So no run ever uses an address of something
that was released. -/
theorem Machine.invoke_memory (C : Code) (L : Limits) (g : Nat) (args : List Word) (depth : Nat)
    (m : Machine) :
    (∀ v m', invoke C L (exec C L) g args depth m = .ok v m' → m'.memory = m.memory) ∧
    (∀ f m', invoke C L (exec C L) g args depth m = .error f m' →
      m'.memory = m.memory ∧ f ≠ .malformed .releasedAllocation) ∧
    (∀ R a₀ m₀ made a m', C.routines[g]? = some R →
      (Activation.start R args depth).enter none 0 m = .ok a₀ m₀ → Passes C L a₀ m₀ made a m' →
      exec C L a₀ m₀ = exec C L a m' ∧ m'.Extends m.memory ∧
      ∀ (r : Register) (place : Address), a.registers[r]? = some (.address place) →
        place.allocation ∈ made ∧ place.allocation < m'.memory.size) ∧
    ∀ input, C.run input L ≠ .error (.malformed .releasedAllocation) := by
  have hcall := restoring_invoke C L (confined_exec C L) depth g args m
  refine ⟨fun v m' h => hcall.ok h, fun f m' h => (hcall.error h).symm, ?_, ?_⟩
  · intro R a₀ m₀ made a m' _ henter hpasses
    obtain ⟨rfl, h₀⟩ := ((Activation.Confined.start R args depth m).enter none 0).ok henter
    obtain ⟨ha, hsize, hmade⟩ := hpasses.confined h₀
    refine ⟨hpasses.exec_eq, ha.memory, fun r place hr => ?_⟩
    obtain ⟨hlow, hhigh⟩ := ha.address hr
    rw [hmade, List.mem_range'_1]
    exact ⟨⟨hlow, hsize ▸ hhigh⟩, hhigh⟩
  · intro input hrun
    unfold Code.run at hrun
    split at hrun
    · cases hrun
    · next main _ =>
      have hmain := restoring_invoke C L (confined_execute C L L.steps) 0 main []
        ⟨input, #[], #[], L.steps⟩
      dsimp only at hrun
      split at hrun
      · cases hrun
      · next hinvoke => exact (hmain.error hinvoke).1 (Except.error.inj hrun)

/-- A routine that allocates a cell again and again. -/
def Routine.allocating : Routine :=
  ⟨"main", [], #[⟨"entry", #[.define 0 (.alloca 1)], some (.jump ⟨0, 0⟩)⟩], 1⟩

/-- Called with one allocation in memory, the routine holds the address of the second one after a step. -/
theorem Machine.invoke_memory_allocating : ∃ made a m',
    Passes ⟨#[.allocating]⟩ {} (.start .allocating [] 0) ⟨[], #[], #[.zeros 3], 10⟩ made a m' ∧
      a.registers[0]? = some (.address ⟨1, 0⟩) ∧ 1 ∈ made ∧ m'.Extends #[.zeros 3] := by
  have hpasses : Passes ⟨#[.allocating]⟩ {} (.start .allocating [] 0) ⟨[], #[], #[.zeros 3], 10⟩ _ _ _ :=
    .step .start rfl
  have hphis : Block.leadingPhis ⟨"entry", #[.define 0 (.alloca 1)], some (.jump ⟨0, 0⟩)⟩ = [] := by
    decide +kernel
  have henter : ∀ m, (Activation.start .allocating [] 0).enter none 0 m =
      .ok (.start .allocating [] 0) m := Activation.enter_direct rfl hphis none
  have hmain := (invoke_memory ⟨#[.allocating]⟩ {} 0 [] 0 ⟨[], #[], #[.zeros 3], 10⟩).2.2.1
    _ _ _ _ _ _ rfl (henter _) hpasses
  exact ⟨_, _, _, hpasses, rfl, (hmain.2.2 0 ⟨1, 0⟩ rfl).1, hmain.2.1⟩

end Mila
