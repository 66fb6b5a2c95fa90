import Mila.Proofs.Behaviour

/-! # Steps of an activation

What each piece of the machine does to the machine and to the activation at hand, whether it succeeds or
fails, and the execution of an activation as a sequence of single steps.
-/

namespace Mila

/-! ## 1. Results of pieces of a run -/

namespace Run

open Machine

variable {α β : Type} {x : Run α} {f : α → Run β} {m : Machine} {Q Q' : α → Machine → Prop}
  {R : β → Machine → Prop} {E E' : Fault → Machine → Prop}

/-- How a piece of a run ends: `Q` holds of what it yields, or `E` of the fault that it meets. -/
def Meets (x : Run α) (m : Machine) (Q : α → Machine → Prop) (E : Fault → Machine → Prop) : Prop :=
  match x m with
  | .ok b m' => Q b m'
  | .error f m' => E f m'

namespace Meets

variable {b : α} {m' : Machine} {fault : Fault}

theorem ok (h : Meets x m Q E) (hx : x m = .ok b m') : Q b m' := by
  unfold Meets at h
  rw [hx] at h
  exact h

theorem error (h : Meets x m Q E) (hx : x m = .error fault m') : E fault m' := by
  unfold Meets at h
  rw [hx] at h
  exact h

theorem intro (hok : ∀ b m', x m = .ok b m' → Q b m') (herror : ∀ f m', x m = .error f m' → E f m') :
    Meets x m Q E := by
  unfold Meets
  split
  · exact hok _ _ ‹_›
  · exact herror _ _ ‹_›

theorem pure (h : Q b m) : Meets (Pure.pure b) m Q E := h

theorem throw (h : E fault m) : Meets (MonadExcept.throw fault) m Q E := h

theorem mono (h : Meets x m Q E) (hQ : ∀ b m', Q b m' → Q' b m') (hE : ∀ f m', E f m' → E' f m') : Meets x m Q' E' :=
  .intro (fun b m' hx => hQ b m' (h.ok hx)) fun f m' hx => hE f m' (h.error hx)

theorem any (x : Run α) (m : Machine) : Meets x m (fun _ _ => True) fun _ _ => True :=
  intro (fun _ _ _ => trivial) fun _ _ _ => trivial

/-- What a piece yields and which faults it meets can be shown apart. -/
theorem and (hx : Meets x m Q fun _ _ => True) (hx' : Meets x m (fun _ _ => True) E) : Meets x m Q E :=
  intro (fun _ _ h => hx.ok h) fun _ _ h => hx'.error h

theorem bind (hx : Meets x m Q E) (hf : ∀ b m', Q b m' → Meets (f b) m' R E) : Meets (x >>= f) m R E := by
  unfold Meets
  cases h : x m with
  | ok b m' =>
    rw [bind_ok h]
    exact hf b m' (hx.ok h)
  | error fault m' =>
    rw [bind_error h]
    exact hx.error h

/-- Pieces that leave the machine alone, one after the other. -/
theorem mapM {l : List β} {k : β → Run α} (hk : ∀ b, Meets (k b) m (fun _ m' => m' = m) E) :
    Meets (l.mapM k) m (fun _ m' => m' = m) E := by
  induction l with
  | nil => exact pure rfl
  | cons b l ih =>
    rw [List.mapM_cons]
    refine (hk b).bind fun _ m₁ h₁ => ?_
    subst h₁
    exact ih.bind fun _ m₂ h₂ => pure h₂

/-- At the end what was allocated is released, also after a fault. -/
theorem releasing {Q E} (h : Meets x m
      (fun b m' => Q b { m' with memory := m'.memory.shrink m.memory.size })
      (fun f m' => E f { m' with memory := m'.memory.shrink m.memory.size })) :
    Meets (releasing x) m Q E := by
  unfold Meets Machine.releasing
  cases hx : x m with
  | ok b m' => exact h.ok hx
  | error f m' => exact h.error hx

end Meets

/-- A piece of a run that no limit has to do with meets only other faults. -/
theorem Idle.meets (hx : Idle x) {F : Fault → Prop} (hF : ∀ f : Fault, f.isLimit = false → F f) :
    Meets x m (fun _ _ => True) (fun f _ => F f) :=
  .intro (fun _ _ _ => trivial) fun f _ h => hF f (hx.fault h)

end Run

/-! ## 2. Registers -/

/-- A fault of the code, other than an address of something that was released. -/
def Fault.IsFlaw (f : Fault) : Prop := ∃ d, d ≠ .releasedAllocation ∧ f = .malformed d

namespace Activation

open Run Machine

/-- The same call, at another place or with other contents of its registers. -/
structure Continues (a a' : Activation) : Prop where
  routine : a'.routine = a.routine
  args : a'.args = a.args
  depth : a'.depth = a.depth
  size : a'.registers.size = a.registers.size

theorem Continues.refl (a : Activation) : a.Continues a := ⟨rfl, rfl, rfl, rfl⟩

theorem Continues.trans {a b c : Activation} (h : a.Continues b) (h' : b.Continues c) : a.Continues c :=
  ⟨h'.routine.trans h.routine, h'.args.trans h.args, h'.depth.trans h.depth, h'.size.trans h.size⟩

/-- The same call, where no register has got another address. -/
structure Retains (a a' : Activation) : Prop extends Continues a a' where
  address : ∀ {r : Register} {place : Address}, a'.registers[r]? = some (.address place) →
    a.registers[r]? = some (.address place)

theorem Retains.refl (a : Activation) : a.Retains a := ⟨.refl a, id⟩

theorem Retains.trans {a b c : Activation} (h : a.Retains b) (h' : b.Retains c) : a.Retains c :=
  ⟨h.toContinues.trans h'.toContinues, fun hr => h.address (h'.address hr)⟩

/-- The place of an activation in its code does not count. -/
theorem Retains.move {a b : Activation} (h : a.Retains b) (block done : Nat) :
    a.Retains { b with block, done } := ⟨⟨h.routine, h.args, h.depth, h.size⟩, h.address⟩

/-- At the start of a block. -/
def goto (a : Activation) (x : Nat) : Activation := { a with block := x, done := 0 }

theorem enter_direct {a : Activation} {b : Block} {x : Nat} (hb : a.routine.blocks[x]? = some b)
    (hphi : b.leadingPhis = []) (origin : Option Nat) (m : Machine) : a.enter origin x m = .ok (a.goto x) m := by
  simp only [enter, hb, hphi]
  rfl

variable (a : Activation) (m : Machine)

theorem meets_word (r : Register) : Meets (a.word r) m
    (fun v m' => m' = m ∧ a.registers[r]? = some (.word v)) (fun f m' => m' = m ∧ f.IsFlaw) := by
  unfold word
  split
  · exact .pure ⟨rfl, ‹_›⟩
  · exact .throw ⟨rfl, _, Defect.noConfusion, rfl⟩

theorem meets_address (r : Register) : Meets (a.address r) m
    (fun place m' => m' = m ∧ a.registers[r]? = some (.address place)) (fun f m' => m' = m ∧ f.IsFlaw) := by
  unfold address
  split
  · exact .pure ⟨rfl, ‹_›⟩
  · exact .throw ⟨rfl, _, Defect.noConfusion, rfl⟩

theorem meets_set (r : Register) (content : Content) : Meets (a.set r content) m
    (fun a' m' => m' = m ∧ a' = { a with registers := a.registers.setIfInBounds r content })
    (fun f m' => m' = m ∧ f.IsFlaw) := by
  unfold set
  split
  · exact .pure ⟨rfl, rfl⟩
  · exact .throw ⟨rfl, _, Defect.noConfusion, rfl⟩

theorem continues_set (r : Register) (content : Content) :
    a.Continues { a with registers := a.registers.setIfInBounds r content } :=
  ⟨rfl, rfl, rfl, Array.size_setIfInBounds⟩

theorem getElem?_set {r s : Register} {content found : Content}
    (h : (a.registers.setIfInBounds r content)[s]? = some found) :
    found = content ∨ a.registers[s]? = some found := by
  rw [Array.getElem?_setIfInBounds] at h
  split at h
  · split at h
    · exact .inl (Option.some.inj h).symm
    · cases h
  · exact .inr h

theorem retains_set (r : Register) (value : Word) :
    a.Retains { a with registers := a.registers.setIfInBounds r (.word value) } := by
  refine ⟨a.continues_set r _, fun h => ?_⟩
  rcases a.getElem?_set h with hcontent | hsame
  · cases hcontent
  · exact hsame

theorem meets_setWords (values : List (Register × Word)) : Meets (a.setWords values) m
    (fun a' m' => m' = m ∧ a.Retains a') (fun f m' => m' = m ∧ f.IsFlaw) := by
  induction values generalizing a with
  | nil => exact .pure ⟨rfl, .refl a⟩
  | cons entry values ih =>
    refine (a.meets_set m entry.1 (.word entry.2)).bind fun a' m' h => ?_
    obtain ⟨rfl, rfl⟩ := h
    exact (ih _).mono (fun _ _ h => ⟨h.1, (a.retains_set _ _).trans h.2⟩) fun _ _ h => h

theorem meets_merged (origin : Option Nat) (incoming : List (Register × BlockRef)) :
    Meets (a.merged origin incoming) m (fun _ m' => m' = m) (fun f m' => m' = m ∧ f.IsFlaw) := by
  unfold merged
  split
  · exact .throw ⟨rfl, _, Defect.noConfusion, rfl⟩
  · split
    · exact (a.meets_word m _).mono (fun _ _ h => h.1) fun _ _ h => h
    · exact .throw ⟨rfl, _, Defect.noConfusion, rfl⟩

/-- Entering a block sets registers to words only, and has nothing to do with the machine. -/
theorem meets_enter (origin : Option Nat) (block : Nat) : Meets (a.enter origin block) m
    (fun a' m' => m' = m ∧ a.Retains a') (fun f m' => m' = m ∧ f.IsFlaw) := by
  unfold enter
  split
  · exact .throw ⟨rfl, _, Defect.noConfusion, rfl⟩
  · have hmerge : ∀ entry : Register × List (Register × BlockRef), Meets
        (a.merged origin entry.2 >>= fun value => Pure.pure (entry.1, value)) m (fun _ m' => m' = m)
        (fun f m' => m' = m ∧ f.IsFlaw) := fun entry =>
      (a.meets_merged m origin entry.2).bind fun _ _ h => .pure h
    refine (Meets.mapM hmerge).bind fun values m₁ h₁ => ?_
    subst h₁
    refine (a.meets_setWords m₁ values).bind fun a' m₂ h₂ => ?_
    exact .pure ⟨h₂.1, h₂.2.move _ _⟩

/-- An instruction sets a register, if anything. -/
theorem meets_perform {call : Nat → List Word → Run Word} (i : Instruction) : Meets (perform call a i) m
    (fun a' _ => a' = a ∨ ∃ r o content, i = .define r o ∧
      a' = { a with registers := a.registers.setIfInBounds r content }) fun _ _ => True := by
  cases i with
  | define r o =>
    refine (Meets.any _ m).bind fun content m₁ _ => ?_
    cases content with
    | none => exact .pure (.inl rfl)
    | some content =>
      exact (a.meets_set m₁ r content).mono (fun _ _ h => .inr ⟨r, o, content, rfl, h.2⟩) fun _ _ _ => trivial
  | store v r =>
    exact (Meets.any _ m).bind fun _ m₁ _ => (Meets.any _ m₁).bind fun _ m₂ _ => (Meets.any _ m₂).bind fun _ _ _ =>
      .pure (.inl rfl)

end Activation

/-! ## 3. Memory -/

/-- The oldest allocations of a machine are the given ones. -/
def Machine.Extends (base : Array Cells) (m : Machine) : Prop := ∀ k < base.size, m.memory[k]? = base[k]?

namespace Machine.Extends

variable {base : Array Cells} {m : Machine}

theorem refl (m : Machine) : m.Extends m.memory := fun _ _ => rfl

theorem size_le (h : m.Extends base) : base.size ≤ m.memory.size := by
  by_contra hlt
  have hk := h m.memory.size (by omega)
  rw [Array.getElem?_eq_none (Nat.le_refl _)] at hk
  exact absurd (Array.getElem?_eq_none_iff.mp hk.symm) (by omega)

theorem shrink (h : m.Extends base) : m.memory.shrink base.size = base := by
  have hsize := h.size_le
  refine Array.ext_getElem? fun k => ?_
  rw [Array.shrink_eq_take, Array.getElem?_extract, Nat.zero_add, Nat.sub_zero, Nat.min_eq_left hsize]
  split
  · next hk => exact h k hk
  · next hk => exact (Array.getElem?_eq_none (Nat.le_of_not_lt hk)).symm

end Machine.Extends

/-! ## 4. One step after the other -/

/-- What an activation does in one step, given how to call a routine: it returns a word, or it goes on. -/
def Activation.act (call : Nat → List Word → Run Word) (a : Activation) : Run (Word ⊕ Activation) :=
  match a.instruction? with
  | some instruction => do
    let a ← Machine.perform call a instruction
    return .inr a.advance
  | none =>
    match a.exit? with
    | some (.jump target) => do return .inr (← a.enter (some a.block) target.block)
    | some (.branch condition thenBlock elseBlock) => do
      let condition ← a.word condition
      let target := if condition.isTrue then thenBlock else elseBlock
      return .inr (← a.enter (some a.block) target.block)
    | some (.ret value) => do return .inl (← a.word value)
    | none => throw (.malformed .missingExit)

/-- A step goes on with the same call, or returns where the code says so. -/
theorem Activation.meets_act (a : Activation) {call : Nat → List Word → Run Word} (m : Machine) : Run.Meets (a.act call) m
    (fun next _ => next.elim (fun _ => ∃ r, a.exit? = some (.ret r)) a.Continues) fun _ _ => True := by
  have henter : ∀ x m, Run.Meets (a.enter (some a.block) x >>= fun b => pure (.inr b)) m
      (fun (next : Word ⊕ Activation) _ => next.elim (fun _ => ∃ r, a.exit? = some (.ret r)) a.Continues)
      fun _ _ => True := by
    intro x m
    refine ((a.meets_enter m _ x).mono (fun _ _ h => h.2.toContinues) fun _ _ _ => trivial).bind fun b _ h => ?_
    exact .pure h
  unfold act
  split
  · refine (a.meets_perform m _).bind fun b _ hb => .pure ?_
    obtain rfl | ⟨r, o, content, -, rfl⟩ := hb
    · exact ⟨rfl, rfl, rfl, rfl⟩
    · exact ⟨rfl, rfl, rfl, Array.size_setIfInBounds⟩
  · split
    · exact henter _ m
    · exact (Run.Meets.any _ m).bind fun _ _ _ => henter _ _
    · next r he => exact (Run.Meets.any _ m).bind fun _ _ _ => .pure ⟨r, he⟩
    · exact .throw trivial

theorem Run.Threads.act {R : ∀ {α : Type}, Run α → Run α → Prop} (h : Threads R)
    (hmemory : (∀ count, R (Machine.allocate count) (Machine.allocate count)) ∧
      ∀ place value, R (Machine.write place value) (Machine.write place value)) {a : Activation}
    {call : Nat → List Word → Run Word} (call' : Nat → List Word → Run Word)
    (hcall : ∀ r g args, a.instruction? = some (.define r (.call g args)) → ∀ values, R (call g values) (call' g values)) :
    R (a.act call) (a.act call') := by
  unfold Activation.act
  split
  · next i hi =>
    exact h.bind (h.perform call' a (.inr hmemory) fun r g args he => hcall r g args (he ▸ hi)) fun _ => h.pure _
  · split
    · exact h.bind (h.enter a _ _) fun _ => h.pure _
    · exact h.bind (h.word a _) fun _ => h.bind (h.enter a _ _) fun _ => h.pure _
    · exact h.bind (h.word a _) fun _ => h.pure _
    · exact h.throw rfl nofun

namespace Machine

open Activation

variable {C : Code} {L : Limits}

/-- The machine goes on until a step returns. -/
theorem afterTick_eq_act (go : Activation → Run Word) (a : Activation) : afterTick C L go a =
    a.act (fun g args => invoke C L go g args (a.depth + 1)) >>= Sum.elim pure go := by
  unfold afterTick act
  cases a.instruction? with
  | some i =>
    simp only [bind_assoc, pure_bind]
    rfl
  | none =>
    cases a.exit? with
    | none => rfl
    | some e => cases e <;> simp

/-- A step of an activation, with the rest of the machine. -/
def step (C : Code) (L : Limits) (a : Activation) : Run (Word ⊕ Activation) := do
  tick L
  a.act fun g args => invoke C L (exec C L) g args (a.depth + 1)

theorem exec_eq_step (a : Activation) : exec C L a = step C L a >>= Sum.elim pure (exec C L) := by
  rw [exec_eq, step]
  simp only [afterTick_eq_act, bind_assoc]

end Machine

end Mila
