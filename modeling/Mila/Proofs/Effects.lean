import Mila.Proofs.Availability
import Mila.Proofs.Frames
import Mila.Proofs.Simulation

/-! # What a step changes

A step sets at most the registers that its code names as targets. A cell of memory never goes away while an
activation runs, and only a store, an allocation or an intrinsic changes memory at all: a call gives back what
it took.
-/

namespace Mila

open Run

/-! ## 1. Cells -/

namespace Machine

/-- The word in the cell at an address, when there is such a cell. -/
def cell? (m : Machine) (place : Address) : Option Word :=
  m.memory[place.allocation]?.bind (·.get? place.index)

/-- How many cells an allocation has, when it is there. -/
def extent? (m : Machine) (k : Nat) : Option Nat := m.memory[k]?.map Cells.size

/-- Every cell of a machine is also a cell of the other. -/
def Persists (m m' : Machine) : Prop := ∀ place, (m.cell? place).isSome → (m'.cell? place).isSome

variable {m m' m'' : Machine} {place : Address} {v : Word}

theorem Persists.of_memory (h : m'.memory = m.memory) : m.Persists m' := by
  intro place hplace
  rw [cell?, h]
  exact hplace

theorem cell?_congr (h : m'.memory = m.memory) (place : Address) : m'.cell? place = m.cell? place := by
  rw [cell?, h, cell?]

theorem read_of_cell (h : m.cell? place = some v) : read place m = .ok v m := by
  obtain ⟨cells, hcells, hv⟩ := Option.bind_eq_some_iff.mp h
  simp only [read, hcells, hv]

theorem read_outside {n : Nat} (hn : m.extent? place.allocation = some n)
    (h : ¬ (0 ≤ place.index ∧ place.index < n)) : read place m = .error .outOfBounds m := by
  obtain ⟨cells, hcells, rfl⟩ := Option.map_eq_some_iff.mp hn
  rw [← Cells.get?_isSome_iff, Option.not_isSome_iff_eq_none] at h
  simp only [read, hcells, h]

theorem write_outside {n : Nat} (hn : m.extent? place.allocation = some n)
    (h : ¬ (0 ≤ place.index ∧ place.index < n)) (value : Word) : write place value m = .error .outOfBounds m := by
  obtain ⟨cells, hcells, rfl⟩ := Option.map_eq_some_iff.mp hn
  rw [← Cells.set?_isSome_iff cells _ value, Option.not_isSome_iff_eq_none] at h
  simp only [write, hcells, h]

theorem exists_write (h : (m.cell? place).isSome) (value : Word) : ∃ m', write place value m = .ok () m' := by
  obtain ⟨v, hv⟩ := Option.isSome_iff_exists.mp h
  obtain ⟨cells, hcells, hv⟩ := Option.bind_eq_some_iff.mp hv
  have hroom : (cells.set? place.index value).isSome := by
    rw [Cells.set?_isSome_iff, ← Cells.get?_isSome_iff, hv]
    rfl
  obtain ⟨d, hd⟩ := Option.isSome_iff_exists.mp hroom
  exact ⟨_, by simp only [write, hcells, hd]; rfl⟩

/-- Every allocation of a machine is also one of the other, with as many cells. -/
def Lasts (m m' : Machine) : Prop := ∀ k n, m.extent? k = some n → m'.extent? k = some n

theorem Lasts.of_memory (h : m'.memory = m.memory) : m.Lasts m' := by
  intro k n hk
  rw [extent?, h]
  exact hk

theorem Lasts.trans (h : m.Lasts m') (h' : m'.Lasts m'') : m.Lasts m'' :=
  fun k n hk => h' k n (h k n hk)

theorem cell?_isSome_iff : (m.cell? place).isSome ↔
    ∃ n : Nat, m.extent? place.allocation = some n ∧ 0 ≤ place.index ∧ place.index < n := by
  unfold cell? extent?
  cases m.memory[place.allocation]? with
  | none => simp
  | some cells => simp [Cells.get?_isSome_iff]

theorem Lasts.persists (h : m.Lasts m') : m.Persists m' := by
  intro place hplace
  obtain ⟨n, hn, hrange⟩ := cell?_isSome_iff.mp hplace
  exact cell?_isSome_iff.mpr ⟨n, h _ n hn, hrange⟩

/-- A write changes its cell and no other, no allocation in size, and nothing but memory. -/
theorem of_write {value : Word} (h : write place value m = .ok () m') :
    (∀ other, m'.cell? other = if other = place then some value else m.cell? other) ∧ m.Lasts m' ∧
      m' = { m with memory := m'.memory } := by
  cases hcells : m.memory[place.allocation]? with
  | none => simp only [write, hcells] at h; cases h
  | some cells =>
    cases hd : cells.set? place.index value with
    | none => simp only [write, hcells, hd] at h; cases h
    | some d =>
      simp only [write, hcells, hd] at h
      cases h
      have hlt : place.allocation < m.memory.size := (Array.getElem?_eq_some_iff.mp hcells).1
      refine ⟨fun other => ?_, fun k n hk => ?_, rfl⟩
      · -- within the allocation the index decides, and all others stay as they are
        by_cases heq : place.allocation = other.allocation
        · rw [cell?, ← heq, Array.getElem?_setIfInBounds_self_of_lt hlt, Option.bind_some, Cells.get?_of_set? hd,
            cell?, ← heq, hcells, Option.bind_some]
          congr 1
          obtain ⟨k, i⟩ := place
          obtain ⟨_, j⟩ := other
          obtain rfl : k = _ := heq
          simp only [Address.mk.injEq, true_and]
        · rw [if_neg fun he => heq (congrArg Address.allocation he).symm, cell?,
            Array.getElem?_setIfInBounds_ne heq, cell?]
      · by_cases heq : place.allocation = k
        · subst heq
          rw [extent?, hcells] at hk
          rw [extent?, Array.getElem?_setIfInBounds_self_of_lt hlt, Option.map_some, Cells.size_of_set? hd]
          exact hk
        · rw [extent?, Array.getElem?_setIfInBounds_ne heq]
          exact hk

/-- A write leaves the word in its cell, and all other cells where they are. -/
theorem meets_write_cell (place : Address) (value : Word) (m : Machine) : Meets (write place value) m
    (fun _ m' => m'.cell? place = some value ∧ m.Lasts m' ∧ m'.steps = m.steps) fun _ _ => True := by
  refine .intro (fun _ m' hwrite => ?_) fun _ _ _ => trivial
  obtain ⟨hcell, hlasts, hrest⟩ := of_write hwrite
  exact ⟨(hcell place).trans (if_pos rfl), hlasts, by rw [hrest]⟩

theorem Lasts.allocate (m : Machine) (count : Nat) : m.Lasts { m with memory := m.memory.push (.zeros count) } := by
  intro k n hk
  obtain ⟨cells, hcells, hn⟩ := Option.map_eq_some_iff.mp hk
  have hlt : k < m.memory.size := (Array.getElem?_eq_some_iff.mp hcells).1
  rw [extent?, Array.getElem?_push_lt hlt, ← Array.getElem?_eq_getElem hlt, hcells, Option.map_some, hn]

end Machine

/-! ## 2. Instructions -/

/-- What leaves memory as it is when it comes to an end. -/
def Run.Quiet {α : Type} (x : Run α) : Prop :=
  ∀ m, Meets x m (fun _ m' => m'.memory = m.memory) fun _ _ => True

theorem Run.ok_of_bind {α β : Type} {x : Run α} {f : α → Run β} {m m' : Machine} {b : β}
    (h : (x >>= f) m = .ok b m') : ∃ c m₁, x m = .ok c m₁ ∧ f c m₁ = .ok b m' := by
  cases hx : x m with
  | error fault m₁ =>
    rw [bind_error hx] at h
    cases h
  | ok c m₁ =>
    rw [bind_ok hx] at h
    exact ⟨c, m₁, rfl, h⟩

theorem Run.Quiet.threads : Threads fun x _ => Quiet x where
  pure _ _ := rfl
  throw _ _ _ := trivial
  bind hx hf m := (hx m).bind fun b m₁ h₁ => (hf b m₁).mono (fun _ _ h₂ => h₂.trans h₁) fun _ _ h => h
  read place := by
    refine fun m => .intro (fun _ m' hread => ?_) fun _ _ _ => trivial
    unfold Machine.read at hread
    split at hread
    · cases hread
    · split at hread <;> cases hread
      rfl
  readInput := by
    refine fun m => .intro (fun _ m' hread => ?_) fun _ _ _ => trivial
    unfold Machine.readInput at hread
    split at hread <;> cases hread
    rfl
  writeOutput _ _ := rfl

namespace Machine

variable {call : Nat → List Word → Run Word}

theorem quiet_perform (hcall : Restoring call) (a : Activation) {i : Instruction} (hi : i.isQuiet) :
    Quiet (perform call a i) :=
  Quiet.threads.perform call a (.inl hi) fun _ g _ _ args m =>
    (hcall g args m).mono (fun _ _ h => h) fun _ _ _ => trivial

/-- No piece takes an allocation away, or changes its size. -/
theorem lasts_respects : Respects fun x _ => ∀ m, Meets x m (fun _ m' => m.Lasts m') fun _ _ => True where
  pure _ _ := .of_memory rfl
  throw _ _ := trivial
  bind hx hf m := (hx m).bind fun b m₁ h₁ => (hf b m₁).mono (fun _ _ h₂ => h₁.trans h₂) fun _ _ h => h
  allocate count m := Lasts.allocate m count
  read place m := (Quiet.threads.read place m).mono (fun _ _ h => .of_memory h) fun _ _ h => h
  write place value m := (meets_write_cell place value m).mono (fun _ _ h => h.2.1) fun _ _ h => h
  readInput m := (Quiet.threads.readInput m).mono (fun _ _ h => .of_memory h) fun _ _ h => h
  writeOutput _ _ := .of_memory rfl

theorem lasts_perform (hcall : Restoring call) (a : Activation) (i : Instruction) (m : Machine) :
    Meets (perform call a i) m (fun _ m' => m.Lasts m') fun _ _ => True :=
  lasts_respects.perform call a (fun g args m => (hcall g args m).mono (fun _ _ h => .of_memory h) fun _ _ _ => trivial)
    i m

end Machine

/-! ## 3. Registers -/

namespace Activation

/-- The same call, with the registers below `k` as they were. -/
structure Spares (k : Nat) (a a' : Activation) : Prop extends Continues a a' where
  register : ∀ r : Nat, r < k → a'.registers[r]? = a.registers[r]?

variable {k : Nat} {a b c : Activation} {m : Machine}

theorem Spares.refl (k : Nat) (a : Activation) : a.Spares k a := ⟨.refl a, fun _ _ => rfl⟩

theorem Spares.trans (h : a.Spares k b) (h' : b.Spares k c) : a.Spares k c :=
  ⟨h.toContinues.trans h'.toContinues, fun r hr => (h'.register r hr).trans (h.register r hr)⟩

theorem Spares.move (h : a.Spares k b) (block done : Nat) : a.Spares k { b with block, done } :=
  ⟨⟨h.routine, h.args, h.depth, h.size⟩, h.register⟩

theorem Spares.set {r : Nat} (hr : k ≤ r) (content : Content) :
    a.Spares k { a with registers := a.registers.setIfInBounds r content } :=
  ⟨a.continues_set r content, fun s hs => Array.getElem?_setIfInBounds_ne (by omega)⟩

theorem spares_setWords {values : List (Register × Word)} (h : ∀ entry ∈ values, k ≤ entry.1) :
    Meets (a.setWords values) m (fun a' m' => m' = m ∧ a.Spares k a') fun _ _ => True := by
  induction values generalizing a with
  | nil => exact .pure ⟨rfl, .refl k a⟩
  | cons entry rest ih =>
    obtain ⟨r, value⟩ := entry
    have hset := (a.meets_set m r (.word value)).mono (fun _ _ h => h) fun _ _ _ => trivial
    refine hset.bind fun a₁ m₁ h₁ => ?_
    obtain ⟨rfl, rfl⟩ := h₁
    refine (ih fun entry hmem => h entry (List.mem_cons_of_mem _ hmem)).mono ?_ fun _ _ h => h
    rintro a₂ m₂ ⟨hm, h₂⟩
    exact ⟨hm, (Spares.set (h (r, value) List.mem_cons_self) _).trans h₂⟩

/-- Merges give words to their own targets, unless one of them finds none. -/
theorem meets_merges (origin : Option Nat) (phis : List (Register × List (Register × BlockRef))) :
    Meets (phis.mapM fun phi => a.merged origin phi.2 >>= fun value => pure (phi.1, value)) m
      (fun values m' => m' = m ∧ values.map Prod.fst = phis.map Prod.fst ∧
        ∀ phi ∈ phis, ∃ v, a.merged origin phi.2 m = .ok v m ∧ (phi.1, v) ∈ values)
      (fun f _ => f.IsFlaw ∧ ∃ phi ∈ phis, ∀ v, a.merged origin phi.2 m ≠ .ok v m) := by
  induction phis with
  | nil => exact .pure ⟨rfl, rfl, fun _ hmem => absurd hmem List.not_mem_nil⟩
  | cons phi phis ih =>
    rw [List.mapM_cons]
    have hmerged := a.meets_merged m origin phi.2
    cases h : a.merged origin phi.2 m with
    | error f m₁ =>
      -- the first merge that fails is the one that is reported
      refine .intro (fun _ _ hok => ?_) fun f' _ herror => ?_
      · rw [bind_error (bind_error h)] at hok
        cases hok
      · rw [bind_error (bind_error h)] at herror
        obtain ⟨rfl, rfl⟩ := EStateM.Result.error.inj herror
        exact ⟨(hmerged.error h).2, phi, List.mem_cons_self, fun v hok => by rw [h] at hok; cases hok⟩
    | ok v m₁ =>
      obtain rfl := hmerged.ok h
      have hvalue : (a.merged origin phi.2 >>= fun value => pure (phi.1, value)) m₁ = .ok (phi.1, v) m₁ := bind_ok h
      unfold Meets
      rw [bind_ok hvalue]
      refine (ih.mono (fun _ _ h => h) ?_).bind fun values m₂ h₂ => .pure ?_
      · rintro f _ ⟨hflaw, p, hp, hfails⟩
        exact ⟨hflaw, p, List.mem_cons_of_mem _ hp, hfails⟩
      · obtain ⟨rfl, htargets, hwords⟩ := h₂
        refine ⟨rfl, congrArg (phi.1 :: ·) htargets, List.forall_mem_cons.mpr ⟨⟨v, h, List.mem_cons_self⟩, ?_⟩⟩
        intro p hp
        obtain ⟨w, hw, hmem⟩ := hwords p hp
        exact ⟨w, hw, List.mem_cons_of_mem _ hmem⟩

theorem spares_enter {x : Nat} (h : ∀ b, a.routine.blocks[x]? = some b → ∀ phi ∈ b.leadingPhis, k ≤ phi.1)
    (origin : Option Nat) : Meets (a.enter origin x) m
      (fun a' m' => m' = m ∧ a'.block = x ∧ a'.done = 0 ∧ a.Spares k a') fun _ _ => True := by
  unfold enter
  split
  · exact .throw trivial
  · next b hb =>
    refine ((meets_merges origin b.leadingPhis).mono (fun _ _ h => h) fun _ _ _ => trivial).bind fun values m₁ h₁ => ?_
    obtain ⟨rfl, htargets, -⟩ := h₁
    have hfresh : ∀ entry ∈ values, k ≤ entry.1 := by
      intro entry hmem
      obtain ⟨phi, hphi, heq⟩ := List.mem_map.mp (htargets ▸ List.mem_map_of_mem hmem)
      exact heq ▸ h b hb phi hphi
    refine (spares_setWords hfresh).bind fun a' m₂ h₂ => .pure ?_
    exact ⟨h₂.1, rfl, rfl, h₂.2.move _ _⟩

theorem spares_perform {call : Nat → List Word → Run Word} {i : Instruction}
    (h : ∀ r : Nat, i.target? = some r → k ≤ r) :
    Meets (Machine.perform call a i) m (fun a' _ => a'.block = a.block ∧ a'.done = a.done ∧ a.Spares k a')
      fun _ _ => True := by
  refine (a.meets_perform m i).mono ?_ fun _ _ h => h
  rintro a' - (rfl | ⟨r, o, content, rfl, rfl⟩)
  · exact ⟨rfl, rfl, .refl k _⟩
  · exact ⟨rfl, rfl, .set (h r rfl) content⟩

end Activation

/-! ## 4. Steps -/

/-- What is known of a step from one state to the next. -/
inductive Activation.Moves (a : Activation) (m : Machine) (a' : Activation) (m' : Machine) : Prop where
  | along {i : Instruction} (instruction : a.instruction? = some i) (block : a'.block = a.block)
      (done : a'.done = a.done + 1) (persists : m.Persists m') (quiet : i.isQuiet → m'.memory = m.memory)
      (spares : ∀ k : Nat, (∀ r : Nat, i.target? = some r → k ≤ r) → a.Spares k a')
  | across {e : Exit} {t : BlockRef} (instruction : a.instruction? = none) (exit : a.exit? = some e)
      (target : t ∈ e.targets) (block : a'.block = t.block) (done : a'.done = 0)
      (memory : m'.memory = m.memory)
      (spares : ∀ k : Nat, (∀ b, a.routine.blocks[t.block]? = some b → ∀ phi ∈ b.leadingPhis, k ≤ phi.1) →
        a.Spares k a')

namespace Machine

open Activation

variable {C : Code} {L : Limits} {a a' : Activation} {m m' : Machine} {t : Nat}

theorem exists_steps {y : Word ⊕ Activation} (h : step C L a m = .ok y m') : ∃ t, m.steps = t + 1 := by
  cases hsteps : m.steps with
  | zero =>
    rw [step, bind_error (tick_zero hsteps)] at h
    cases h
  | succ t => exact ⟨t, rfl⟩

theorem step_eq_act (ht : m.steps = t + 1) : step C L a m =
    a.act (fun g args => invoke C L (exec C L) g args (a.depth + 1)) (m.withSteps t) := by
  rw [step, bind_ok (tick_succ ht)]

theorem step_instruction {i : Instruction} (hi : a.instruction? = some i) (ht : m.steps = t + 1) :
    step C L a m = (perform (fun g args => invoke C L (exec C L) g args (a.depth + 1)) a i >>=
      fun a => pure (.inr a.advance)) (m.withSteps t) := by
  rw [step_eq_act ht, act, hi]

end Machine

namespace Activation

variable {call : Nat → List Word → Run Word} {a a' : Activation} {m m' : Machine}

theorem moves_of_enter {e : Exit} {target : BlockRef} (hi : a.instruction? = none) (he : a.exit? = some e)
    (ht : target ∈ e.targets) (h : a.enter (some a.block) target.block m = .ok a' m') : a.Moves m a' m' := by
  have hzero := (spares_enter (k := 0) (fun _ _ _ _ => Nat.zero_le _) _).ok h
  refine .across hi he ht hzero.2.1 hzero.2.2.1 (congrArg Machine.memory hzero.1) fun k hk => ?_
  exact ((spares_enter hk _).ok h).2.2.2

/-- All that an activation does in one step, when calls give memory back. -/
theorem moves_of_act (hcall : Restoring call) (h : a.act call m = .ok (.inr a') m') : a.Moves m a' m' := by
  unfold act at h
  cases hi : a.instruction? with
  | some i =>
    rw [hi] at h
    obtain ⟨a₁, m₁, hperform, h⟩ := ok_of_bind h
    cases h
    obtain ⟨hblock, hdone, -⟩ := (spares_perform (k := 0) fun _ _ => Nat.zero_le _).ok hperform
    refine .along hi hblock (congrArg (· + 1) hdone) ?_ (fun hquiet => ?_) fun k hk => ?_
    · exact ((Machine.lasts_perform hcall a i m).ok hperform).persists
    · exact (Machine.quiet_perform hcall a hquiet m).ok hperform
    · exact ((spares_perform hk).ok hperform).2.2.move _ _
  | none =>
    rw [hi] at h
    cases he : a.exit? with
    | none =>
      rw [he] at h
      cases h
    | some e =>
      rw [he] at h
      cases e with
      | jump target =>
        obtain ⟨a₁, m₁, henter, h⟩ := ok_of_bind h
        cases h
        exact moves_of_enter hi he (List.mem_singleton.mpr rfl) henter
      | branch c x y =>
        obtain ⟨v, m₁, hc, hrest⟩ := ok_of_bind h
        obtain ⟨rfl, -⟩ := (a.meets_word m c).ok hc
        obtain ⟨a₁, m₂, henter, hreturn⟩ := ok_of_bind hrest
        cases hreturn
        refine moves_of_enter hi he ?_ henter
        split
        · exact List.mem_cons_self
        · exact List.mem_cons_of_mem _ List.mem_cons_self
      | ret r =>
        obtain ⟨v, m₁, -, h⟩ := ok_of_bind h
        cases h

end Activation

/-- A step takes no allocation away, and changes none in size. -/
theorem Machine.lasts_of_step {C : Code} {L : Limits} {a a' : Activation} {m m' : Machine}
    (h : step C L a m = .ok (.inr a') m') : m.Lasts m' := by
  obtain ⟨t, ht⟩ := exists_steps h
  rw [step_eq_act ht] at h
  have hcall := restoring_invoke C L (confined_exec C L) (a.depth + 1)
  cases hi : a.instruction? with
  | some i =>
    unfold Activation.act at h
    rw [hi] at h
    obtain ⟨a₁, m₁, hperform, hreturn⟩ := ok_of_bind h
    cases hreturn
    have hlasts : (m.withSteps t).Lasts _ := (lasts_perform hcall a i _).ok hperform
    exact hlasts
  | none =>
    cases Activation.moves_of_act hcall h with
    | along hi' => cases hi.symm.trans hi'
    | across _ _ _ _ _ hmemory => exact .of_memory hmemory

theorem Machine.moves_of_step {C : Code} {L : Limits} {a a' : Activation} {m m' : Machine}
    (h : step C L a m = .ok (.inr a') m') : a.Moves m a' m' := by
  obtain ⟨t, ht⟩ := exists_steps h
  rw [step_eq_act ht] at h
  -- the steps that are left have nothing to do with it
  cases Activation.moves_of_act (restoring_invoke C L (confined_exec C L) _) h with
  | along hi hblock hdone hpersists hquiet hspares => exact .along hi hblock hdone hpersists hquiet hspares
  | across hi he ht hblock hdone hmemory hspares => exact .across hi he ht hblock hdone hmemory hspares

/-! ## 5. Steps that are known beforehand -/

namespace Machine

variable {C : Code} {L : Limits} {a a' : Activation} {m m' : Machine} {t : Nat} {r : Register}

variable {o : Operation} {s x y : Register} {place : Address} {v w : Word} {n : Nat}

theorem step_define {content : Content} (hi : a.instruction? = some (.define r o))
    (hr : r < a.registers.size) (ht : m.steps = t + 1)
    (h : ∀ call, evaluate call a o (m.withSteps t) = .ok (some content) (m.withSteps t)) :
    step C L a m = .ok (.inr (a.defined r content)) (m.withSteps t) := by
  have hperform : ∀ call, perform call a (.define r o) (m.withSteps t) =
      .ok { a with registers := a.registers.setIfInBounds r content } (m.withSteps t) := by
    intro call
    rw [perform, bind_ok (h call)]
    exact Activation.set_ok hr content _
  rw [step_instruction hi ht, bind_ok (hperform _)]
  rfl

theorem step_load
    (hi : a.instruction? = some (.define r (.load s))) (hr : r < a.registers.size) (ht : m.steps = t + 1)
    (hs : a.registers[s]? = some (.address place)) (hv : m.cell? place = some v) :
    step C L a m = .ok (.inr (a.defined r (.word v))) (m.withSteps t) := by
  apply step_define hi hr ht
  intro call
  have hread : read place (m.withSteps t) = .ok v (m.withSteps t) := read_of_cell hv
  rw [evaluate, bind_ok (Activation.address_ok hs _), bind_ok hread]
  rfl

theorem step_load_outside (hi : a.instruction? = some (.define r (.load s))) (ht : m.steps = t + 1)
    (hs : a.registers[s]? = some (.address place)) (hn : m.extent? place.allocation = some n)
    (hindex : ¬ (0 ≤ place.index ∧ place.index < n)) : step C L a m = .error .outOfBounds (m.withSteps t) := by
  have hlength : (m.withSteps t).extent? place.allocation = some n := hn
  rw [step_instruction hi ht, bind_error]
  rw [perform, bind_error]
  rw [evaluate, bind_ok (Activation.address_ok hs _), bind_error (read_outside hlength hindex)]

theorem step_offset
    (hi : a.instruction? = some (.define r (.offset x y))) (hr : r < a.registers.size) (ht : m.steps = t + 1)
    (hx : a.registers[x]? = some (.address place)) (hy : a.registers[y]? = some (.word v)) : step C L a m =
      .ok (.inr (a.defined r (.address { place with index := place.index + v.toInt }))) (m.withSteps t) := by
  apply step_define hi hr ht
  intro call
  rw [evaluate, bind_ok (Activation.address_ok hx _), bind_ok (Activation.word_ok hy _)]
  rfl

theorem step_add (hi : a.instruction? = some (.define r (.arith .add x y)))
    (hr : r < a.registers.size) (ht : m.steps = t + 1) (hx : a.registers[x]? = some (.word v))
    (hy : a.registers[y]? = some (.word w)) :
    step C L a m = .ok (.inr (a.defined r (.word (v + w)))) (m.withSteps t) := by
  apply step_define hi hr ht
  intro call
  rw [evaluate, bind_ok (Activation.word_ok hx _), bind_ok (Activation.word_ok hy _)]
  rfl

theorem step_compare {op : Comparison}
    (hi : a.instruction? = some (.define r (.compare op x y))) (hr : r < a.registers.size)
    (ht : m.steps = t + 1) (hx : a.registers[x]? = some (.word v)) (hy : a.registers[y]? = some (.word w)) :
    step C L a m = .ok (.inr (a.defined r (.word (.ofBool (op.holds v w))))) (m.withSteps t) := by
  apply step_define hi hr ht
  intro call
  rw [evaluate, bind_ok (Activation.word_ok hx _), bind_ok (Activation.word_ok hy _)]
  rfl

theorem word_of_evaluate {call : Nat → List Word → Run Word} {content : Option Content}
    (htype : o.type = .word) (hphi : o.isPhi = false) (h : evaluate call a o m = .ok content m') :
    ∃ v, content = some (.word v) := by
  cases o with
  | const value =>
    cases h
    exact ⟨value, rfl⟩
  | param index =>
    cases hv : a.args[index]? with
    | none =>
      simp only [evaluate, hv] at h
      cases h
    | some v =>
      simp only [evaluate, hv] at h
      cases h
      exact ⟨v, rfl⟩
  | alloca count => cases htype
  | offset base distance => cases htype
  | load address =>
    obtain ⟨place, m₁, -, hread⟩ := ok_of_bind h
    obtain ⟨v, m₂, -, hreturn⟩ := ok_of_bind hread
    cases hreturn
    exact ⟨v, rfl⟩
  | arith op lhs rhs =>
    obtain ⟨x, m₁, -, hrest⟩ := ok_of_bind h
    obtain ⟨y, m₂, -, hrest⟩ := ok_of_bind hrest
    cases hv : op.eval? x y with
    | none =>
      rw [hv] at hrest
      cases hrest
    | some v =>
      rw [hv] at hrest
      cases hrest
      exact ⟨v, rfl⟩
  | compare op lhs rhs =>
    obtain ⟨x, m₁, -, hrest⟩ := ok_of_bind h
    obtain ⟨y, m₂, -, hreturn⟩ := ok_of_bind hrest
    cases hreturn
    exact ⟨_, rfl⟩
  | call g args =>
    obtain ⟨values, m₁, -, hcall⟩ := ok_of_bind h
    obtain ⟨v, m₂, -, hreturn⟩ := ok_of_bind hcall
    cases hreturn
    exact ⟨v, rfl⟩
  | intrinsic which address =>
    obtain ⟨v, m₁, -, hreturn⟩ := ok_of_bind h
    cases hreturn
    exact ⟨v, rfl⟩
  | phi incoming => cases hphi

theorem word_of_step (hi : a.instruction? = some (.define r o)) (htype : o.type = .word)
    (hphi : o.isPhi = false) (h : step C L a m = .ok (.inr a') m') : ∃ v, a'.registers[r]? = some (.word v) := by
  obtain ⟨t, ht⟩ := exists_steps h
  rw [step_instruction hi ht] at h
  obtain ⟨a₁, m₁, hperform, hreturn⟩ := ok_of_bind h
  cases hreturn
  obtain ⟨content, m₂, hevaluate, hset⟩ := ok_of_bind hperform
  obtain ⟨v, rfl⟩ := word_of_evaluate htype hphi hevaluate
  refine ⟨v, ?_⟩
  dsimp only at hset
  unfold Activation.set at hset
  split at hset
  · next hr =>
    cases hset
    exact Array.getElem?_setIfInBounds_self_of_lt hr
  · cases hset

theorem step_store (hi : a.instruction? = some (.store x r))
    (ht : m.steps = t + 1) (hx : a.registers[x]? = some (.word v))
    (hr : a.registers[r]? = some (.address place)) (hcell : (m.cell? place).isSome) :
    ∃ m', step C L a m = .ok (.inr a.advance) m' ∧ m' = { m.withSteps t with memory := m'.memory } ∧
      ∀ other, m'.cell? other = if other = place then some v else m.cell? other := by
  have hroom : ((m.withSteps t).cell? place).isSome := hcell
  obtain ⟨m', hwrite⟩ := exists_write hroom v
  obtain ⟨hcells, -, hrest⟩ := of_write hwrite
  refine ⟨m', ?_, hrest, hcells⟩
  have hperform : ∀ call, perform call a (.store x r) (m.withSteps t) = .ok a m' := by
    intro call
    rw [Activation.perform_store hx hr, bind_ok hwrite]
    rfl
  rw [step_instruction hi ht, bind_ok (hperform _)]
  rfl

theorem step_store_outside
    (hi : a.instruction? = some (.store x r)) (ht : m.steps = t + 1) (hx : a.registers[x]? = some (.word v))
    (hr : a.registers[r]? = some (.address place)) (hn : m.extent? place.allocation = some n)
    (hindex : ¬ (0 ≤ place.index ∧ place.index < n)) : step C L a m = .error .outOfBounds (m.withSteps t) := by
  have hlength : (m.withSteps t).extent? place.allocation = some n := hn
  rw [step_instruction hi ht, bind_error]
  rw [Activation.perform_store hx hr, bind_error (write_outside hlength hindex v)]

/-- What a store has found when it was made. -/
theorem of_step_store (hi : a.instruction? = some (.store x r))
    (hx : a.registers[x]? = some (.word v)) (h : step C L a m = .ok (.inr a') m') :
    a' = a.advance ∧ ∃ place, a.registers[r]? = some (.address place) ∧ m'.cell? place = some v := by
  obtain ⟨t, ht⟩ := exists_steps h
  rw [step_instruction hi ht] at h
  obtain ⟨a₁, m₁, hperform, hreturn⟩ := ok_of_bind h
  rw [perform, bind_ok (Activation.word_ok hx _)] at hperform
  obtain ⟨place, m₂, hplace, hrest⟩ := ok_of_bind hperform
  obtain ⟨⟨⟩, m₃, hwrite, hpure⟩ := ok_of_bind hrest
  cases hpure
  cases hreturn
  exact ⟨rfl, place, ((a.meets_address _ r).ok hplace).2, ((meets_write_cell place v _).ok hwrite).1⟩

/-- A branch between blocks that merge nothing. -/
theorem step_branch {x y : BlockRef} {v : Bool} (hi : a.instruction? = none)
    (he : a.exit? = some (.branch r x y)) (ht : m.steps = t + 1) (hr : a.registers[r]? = some (.word (.ofBool v)))
    (h : a.enter (some a.block) (if v then x else y).block (m.withSteps t) = .ok a' (m.withSteps t)) :
    step C L a m = .ok (.inr a') (m.withSteps t) := by
  rw [step_eq_act ht, Activation.act, hi, he]
  dsimp only
  rw [bind_ok (Activation.word_ok hr _), Word.isTrue_ofBool, bind_ok h]
  rfl

end Machine

end Mila
