import Mathlib
import Mila.Machine

/-! # How runs go on

The machine executes an activation with a bound on its recursion. As long as the bound is no less than the
steps that are left, it does not show, and this module gets rid of it: `Machine.exec` satisfies the equation
of the machine with no bound in it. On top of that stands a way to say that one run goes on as another one,
in which the limits of a run appear only once.
-/

namespace Mila

/-- A fault that only tells of the limits of a run. -/
def Fault.isLimit : Fault → Bool
  | stepLimitExceeded _ | callDepthExceeded _ => true
  | _ => false

/-- An operation that changes no memory. -/
def Operation.isQuiet : Operation → Bool
  | .alloca _ | .intrinsic _ _ => false
  | _ => true

/-- An instruction that changes no memory. -/
def Instruction.isQuiet : Instruction → Bool
  | .define _ o => o.isQuiet
  | .store _ _ => false

/-! ## 1. Pieces of a run -/

namespace Machine

/-- The same machine with another number of steps left. -/
def withSteps (m : Machine) (t : Nat) : Machine := { m with steps := t }

@[simp] theorem withSteps_steps (m : Machine) (t : Nat) : (m.withSteps t).steps = t := rfl

@[simp] theorem withSteps_withSteps (m : Machine) (s t : Nat) : (m.withSteps s).withSteps t = m.withSteps t := rfl

theorem withSteps_self (m : Machine) : m.withSteps m.steps = m := rfl

/-- A result with another number of steps left. -/
def resultWith {α : Type} (t : Nat) : EStateM.Result Fault Machine α → EStateM.Result Fault Machine α
  | .ok b m => .ok b (m.withSteps t)
  | .error f m => .error f (m.withSteps t)

end Machine

namespace Run

open Machine

variable {α β : Type} {x y : Run α} {f g : α → Run β} {n : Nat}

theorem bind_ok {m m' : Machine} {b : α} (h : x m = .ok b m') : (x >>= f) m = f b m' := by
  change EStateM.bind x f m = _
  rw [EStateM.bind, h]

theorem bind_error {m m' : Machine} {fault : Fault} (h : x m = .error fault m') : (x >>= f) m = .error fault m' := by
  change EStateM.bind x f m = _
  rw [EStateM.bind, h]

/-- A relation between the pieces of two runs. It holds between the simplest pieces that take no step, and between
whatever is put together from pieces between which it holds. -/
structure Respects (R : ∀ {α : Type}, Run α → Run α → Prop) : Prop where
  pure : ∀ {α : Type} (b : α), R (Pure.pure b) (Pure.pure b)
  throw : ∀ {α : Type} {fault : Fault}, fault.isLimit = false →
    R (α := α) (MonadExcept.throw fault) (MonadExcept.throw fault)
  bind : ∀ {α β : Type} {x y : Run α} {f g : α → Run β}, R x y → (∀ b, R (f b) (g b)) → R (x >>= f) (y >>= g)
  allocate : ∀ count, R (allocate count) (allocate count)
  read : ∀ place, R (read place) (read place)
  write : ∀ place value, R (write place value) (write place value)
  readInput : R readInput readInput
  writeOutput : ∀ value, R (writeOutput value) (writeOutput value)

/-- The part of it that has to do neither with what pieces change in memory nor with routines that are missing. -/
structure Threads (R : ∀ {α : Type}, Run α → Run α → Prop) : Prop where
  pure : ∀ {α : Type} (b : α), R (Pure.pure b) (Pure.pure b)
  throw : ∀ {α : Type} {fault : Fault}, fault.isLimit = false → fault ≠ .malformed .missingRoutine →
    R (α := α) (MonadExcept.throw fault) (MonadExcept.throw fault)
  bind : ∀ {α β : Type} {x y : Run α} {f g : α → Run β}, R x y → (∀ b, R (f b) (g b)) → R (x >>= f) (y >>= g)
  read : ∀ place, R (read place) (read place)
  readInput : R readInput readInput
  writeOutput : ∀ value, R (writeOutput value) (writeOutput value)

section

variable {R : ∀ {α : Type}, Run α → Run α → Prop} {call : Nat → List Word → Run Word}
  (call' : Nat → List Word → Run Word)

namespace Threads

variable (h : Threads R) (a : Activation)

include h

theorem mapM {k : β → Run α} (hk : ∀ b, R (k b) (k b)) (l : List β) : R (l.mapM k) (l.mapM k) := by
  induction l with
  | nil => exact h.pure []
  | cons b l ih =>
    rw [List.mapM_cons]
    exact h.bind (hk b) fun _ => h.bind ih fun _ => h.pure _

theorem word (r : Register) : R (a.word r) (a.word r) := by
  unfold Activation.word
  split
  · exact h.pure _
  · exact h.throw rfl nofun

theorem address (r : Register) : R (a.address r) (a.address r) := by
  unfold Activation.address
  split
  · exact h.pure _
  · exact h.throw rfl nofun

theorem set (r : Register) (content : Content) : R (a.set r content) (a.set r content) := by
  unfold Activation.set
  split
  · exact h.pure _
  · exact h.throw rfl nofun

theorem setWords (values : List (Register × Word)) : R (a.setWords values) (a.setWords values) := by
  induction values generalizing a with
  | nil => exact h.pure a
  | cons entry values ih => exact h.bind (h.set a _ _) fun a' => ih a'

theorem merged (origin : Option Nat) (incoming : List (Register × BlockRef)) :
    R (a.merged origin incoming) (a.merged origin incoming) := by
  unfold Activation.merged
  split
  · exact h.throw rfl nofun
  · split
    · exact h.word a _
    · exact h.throw rfl nofun

theorem enter (origin : Option Nat) (block : Nat) : R (a.enter origin block) (a.enter origin block) := by
  unfold Activation.enter
  split
  · exact h.throw rfl nofun
  · refine h.bind (h.mapM (fun entry => ?_) _) fun values => h.bind (h.setWords a values) fun _ => h.pure _
    exact h.bind (h.merged a _ _) fun _ => h.pure _

theorem external (name : String) (args : List Word) : R (external name args) (external name args) := by
  unfold Machine.external
  split
  · exact h.bind (h.writeOutput _) fun _ => h.pure _
  · exact h.bind (h.writeOutput _) fun _ => h.pure _
  · exact h.throw rfl nofun

theorem intrinsic (hwrite : ∀ place value, R (write place value) (write place value)) (r : Register) (which : Intrinsic) :
    R (intrinsic a r which) (intrinsic a r which) := by
  have hvalue : R (intrinsicValue a r which) (intrinsicValue a r which) := by
    cases which with
    | readln => exact h.readInput
    | inc => exact h.bind (h.address a r) fun place => h.bind (h.read place) fun _ => h.pure _
    | dec => exact h.bind (h.address a r) fun place => h.bind (h.read place) fun _ => h.pure _
  exact h.bind hvalue fun value => h.bind (h.address a r) fun place => h.bind (hwrite place value) fun _ => h.pure _

/-- Operations other than calls take no steps of their own. -/
theorem evaluate {o : Operation}
    (hmemory : o.isQuiet ∨ (∀ count, R (allocate count) (allocate count)) ∧
      ∀ place value, R (write place value) (write place value))
    (hcall : ∀ g args, o = .call g args → ∀ values, R (call g values) (call' g values)) :
    R (evaluate call a o) (evaluate call' a o) := by
  cases o with
  | const value => exact h.pure _
  | param index =>
    rw [Machine.evaluate, Machine.evaluate]
    split
    · exact h.pure _
    · exact h.throw rfl nofun
  | alloca count =>
    obtain ⟨⟨⟩⟩ | ⟨hallocate, -⟩ := hmemory
    exact h.bind (hallocate count) fun _ => h.pure _
  | offset base distance => exact h.bind (h.address a _) fun _ => h.bind (h.word a _) fun _ => h.pure _
  | load address => exact h.bind (h.address a _) fun place => h.bind (h.read place) fun _ => h.pure _
  | arith op lhs rhs =>
    refine h.bind (h.word a lhs) fun x => h.bind (h.word a rhs) fun y => ?_
    cases op.eval? x y with
    | none => exact h.throw rfl nofun
    | some value => exact h.pure _
  | compare op lhs rhs => exact h.bind (h.word a _) fun _ => h.bind (h.word a _) fun _ => h.pure _
  | call g args =>
    exact h.bind (h.mapM (h.word a) args) fun values => h.bind (hcall g args rfl values) fun _ => h.pure _
  | intrinsic which address =>
    obtain ⟨⟨⟩⟩ | ⟨-, hwrite⟩ := hmemory
    exact h.bind (h.intrinsic a hwrite address which) fun _ => h.pure _
  | phi incoming => exact h.pure _

theorem perform {i : Instruction} (hmemory : i.isQuiet ∨ (∀ count, R (allocate count) (allocate count)) ∧
      ∀ place value, R (write place value) (write place value))
    (hcall : ∀ r g args, i = .define r (.call g args) → ∀ values, R (call g values) (call' g values)) :
    R (perform call a i) (perform call' a i) := by
  cases i with
  | define target o =>
    refine h.bind (h.evaluate call' a hmemory fun g args he => hcall target g args (he ▸ rfl)) fun content => ?_
    cases content with
    | none => exact h.pure a
    | some content => exact h.set a target content
  | store value address =>
    obtain ⟨⟨⟩⟩ | ⟨-, hwrite⟩ := hmemory
    exact h.bind (h.word a _) fun w => h.bind (h.address a _) fun place => h.bind (hwrite place w) fun _ => h.pure a

end Threads

namespace Respects

variable (h : Respects R) (a : Activation)

include h

theorem threads : Threads R := ⟨h.pure, fun hf _ => h.throw hf, h.bind, h.read, h.readInput, h.writeOutput⟩

theorem perform (hcall : ∀ g args, R (call g args) (call' g args)) (i : Instruction) :
    R (perform call a i) (perform call' a i) :=
  h.threads.perform call' a (.inr ⟨h.allocate, h.write⟩) fun _ g _ _ => hcall g

theorem invoke {go : Activation → Run Word} (go' : Activation → Run Word) (hgo : ∀ a, R (go a) (go' a)) (C : Code)
    (L : Limits)
    (hdepth : R (α := Word) (MonadExcept.throw (.callDepthExceeded L.depth)) (MonadExcept.throw (.callDepthExceeded L.depth)))
    (hreleasing : ∀ {x y : Run Word}, R x y → R (releasing x) (releasing y)) (g : Nat) (args : List Word) (depth : Nat) :
    R (invoke C L go g args depth) (invoke C L go' g args depth) := by
  unfold Machine.invoke
  split
  · exact h.throw rfl
  · split
    · exact h.threads.external _ _
    · split
      · exact hdepth
      · exact hreleasing (h.bind (h.threads.enter _ _ _) hgo)

end Respects

end

/-- A piece of a run that the limits have nothing to do with. -/
structure Idle (x : Run α) : Prop where
  /-- The number of steps that are left neither matters nor changes. -/
  withSteps : ∀ m t, x (m.withSteps t) = resultWith t (x m)
  /-- No limit is met. -/
  fault : ∀ {m f m'}, x m = .error f m' → f.isLimit = false

namespace Idle

theorem pure (b : α) : Idle (Pure.pure b : Run α) := ⟨fun _ _ => rfl, fun h => nomatch h⟩

theorem throw {fault : Fault} (h : fault.isLimit = false) : Idle (MonadExcept.throw fault : Run α) :=
  ⟨fun _ _ => rfl, fun hthrow => (EStateM.Result.error.inj hthrow).1 ▸ h⟩

theorem bind (hx : Idle x) (hf : ∀ b, Idle (f b)) : Idle (x >>= f) := by
  constructor
  · intro m t
    have ht := hx.withSteps m t
    cases h : x m with
    | ok b m' =>
      rw [h] at ht
      rw [bind_ok h, bind_ok ht]
      exact (hf b).withSteps m' t
    | error fault m' =>
      rw [h] at ht
      rw [bind_error h, bind_error ht]
      rfl
  · intro m fault m' hfault
    cases h : x m with
    | ok b m₁ =>
      rw [bind_ok h] at hfault
      exact (hf b).fault hfault
    | error fault' m₁ =>
      rw [bind_error h] at hfault
      exact (EStateM.Result.error.inj hfault).1 ▸ hx.fault h

theorem steps (hx : Idle x) {m m' : Machine} {b : α} (h : x m = .ok b m') : m'.steps = m.steps := by
  have hself := hx.withSteps m m.steps
  rw [withSteps_self, h] at hself
  rw [(EStateM.Result.ok.inj hself).2, withSteps_steps]

theorem read (place : Address) : Idle (read place) := by
  constructor
  · intro m t
    unfold Machine.read
    rw [show (m.withSteps t).memory = m.memory from rfl]
    cases m.memory[place.allocation]? with
    | none => rfl
    | some cells =>
      dsimp only
      cases cells.get? place.index <;> rfl
  · intro m f m' h
    unfold Machine.read at h
    split at h
    · exact (EStateM.Result.error.inj h).1 ▸ rfl
    · split at h
      · exact (EStateM.Result.error.inj h).1 ▸ rfl
      · cases h

theorem write (place : Address) (value : Word) : Idle (write place value) := by
  constructor
  · intro m t
    unfold Machine.write
    rw [show (m.withSteps t).memory = m.memory from rfl]
    cases m.memory[place.allocation]? with
    | none => rfl
    | some cells =>
      dsimp only
      cases cells.set? place.index value <;> rfl
  · intro m f m' h
    unfold Machine.write at h
    split at h
    · exact (EStateM.Result.error.inj h).1 ▸ rfl
    · split at h
      · exact (EStateM.Result.error.inj h).1 ▸ rfl
      · cases h

theorem readInput : Idle readInput := by
  constructor
  · intro m t
    unfold Machine.readInput
    rw [show (m.withSteps t).input = m.input from rfl]
    cases m.input <;> rfl
  · intro m f m' h
    unfold Machine.readInput at h
    split at h
    · exact (EStateM.Result.error.inj h).1 ▸ rfl
    · cases h

theorem respects : Respects fun x _ => Idle x where
  pure := pure
  throw := throw
  bind := bind
  allocate _ := ⟨fun _ _ => rfl, fun h => nomatch h⟩
  read := read
  write := write
  readInput := readInput
  writeOutput _ := ⟨fun _ _ => rfl, fun h => nomatch h⟩

end Idle

/-- A relation that holds between each idle piece of a run and itself. -/
theorem Respects.of_idle {R : ∀ {α : Type}, Run α → Run α → Prop} (hidle : ∀ {α : Type} {x : Run α}, Idle x → R x x)
    (hbind : ∀ {α β : Type} {x y : Run α} {f g : α → Run β}, R x y → (∀ b, R (f b) (g b)) → R (x >>= f) (y >>= g)) :
    Respects R where
  pure b := hidle (Idle.respects.pure b)
  throw h := hidle (Idle.respects.throw h)
  bind := hbind
  allocate count := hidle (Idle.respects.allocate count)
  read place := hidle (Idle.respects.read place)
  write place value := hidle (Idle.respects.write place value)
  readInput := hidle Idle.respects.readInput
  writeOutput value := hidle (Idle.respects.writeOutput value)

/-- No steps are gained. -/
def Frugal (x : Run α) : Prop := ∀ m b m', x m = .ok b m' → m'.steps ≤ m.steps

theorem Idle.frugal (h : Idle x) : Frugal x := fun _ _ _ hx => (h.steps hx).le

theorem Frugal.throw (fault : Fault) : Frugal (MonadExcept.throw fault : Run α) :=
  fun _ _ _ h => nomatch h

theorem Frugal.bind (hx : Frugal x) (hf : ∀ b, Frugal (f b)) : Frugal (x >>= f) := by
  intro m c m₂ h
  cases hxm : x m with
  | ok b m₁ =>
    rw [bind_ok hxm] at h
    exact (hf b m₁ c m₂ h).trans (hx m b m₁ hxm)
  | error fault m₁ =>
    rw [bind_error hxm] at h
    cases h

/-- Two pieces of a run do the same with at most `n` steps left. -/
def Agree (n : Nat) (x y : Run α) : Prop := ∀ m, m.steps ≤ n → x m = y m

namespace Agree

theorem refl (x : Run α) : Agree n x x := fun _ _ => rfl

theorem bind (hxy : Agree n x y) (hx : Frugal x) (hfg : ∀ b, Agree n (f b) (g b)) : Agree n (x >>= f) (y >>= g) := by
  intro m hm
  have hy := hxy m hm
  cases h : x m with
  | ok b m' =>
    rw [bind_ok h, bind_ok (hy ▸ h)]
    exact hfg b m' ((hx m b m' h).trans hm)
  | error fault m' =>
    rw [bind_error h, bind_error (hy ▸ h)]

end Agree

end Run

open Run

namespace Machine

theorem idle_perform (call : Nat → List Word → Run Word) (a : Activation) {i : Instruction}
    (hi : ∀ r g args, i ≠ .define r (.call g args)) : Idle (perform call a i) :=
  Idle.respects.threads.perform call a (.inr ⟨Idle.respects.allocate, Idle.write⟩) fun r g args he =>
    absurd he (hi r g args)

/-! ## 2. The machine without a bound -/

/-- Executes an activation with as many steps as are left. -/
def exec (C : Code) (L : Limits) (a : Activation) : Run Word := fun m => execute C L m.steps a m

/-- What the machine does with an activation once it has taken a step, given how it goes on. -/
def afterTick (C : Code) (L : Limits) (go : Activation → Run Word) (a : Activation) : Run Word :=
  match a.instruction? with
  | some instruction => do
    let call callee args := invoke C L go callee args (a.depth + 1)
    let a ← perform call a instruction
    go { a with done := a.done + 1 }
  | none =>
    match a.exit? with
    | some (.jump target) => do
      let a ← a.enter (some a.block) target.block
      go a
    | some (.branch condition thenBlock elseBlock) => do
      let condition ← a.word condition
      let target := if condition.isTrue then thenBlock else elseBlock
      let a ← a.enter (some a.block) target.block
      go a
    | some (.ret value) => a.word value
    | none => throw (.malformed .missingExit)

theorem execute_succ (C : Code) (L : Limits) (n : Nat) (a : Activation) :
    execute C L (n + 1) a = tick L >>= fun _ => afterTick C L (execute C L n) a := rfl

end Machine

theorem Run.Respects.afterTick {R : ∀ {α : Type}, Run α → Run α → Prop} (h : Respects R) {C : Code} {L : Limits}
    (L' : Limits) {go : Activation → Run Word} (go' : Activation → Run Word) (hgo : ∀ a, R (go a) (go' a))
    (a : Activation)
    (hinvoke : ∀ g args, R (Machine.invoke C L go g args (a.depth + 1)) (Machine.invoke C L' go' g args (a.depth + 1))) :
    R (Machine.afterTick C L go a) (Machine.afterTick C L' go' a) := by
  unfold Machine.afterTick
  split
  · exact h.bind (h.perform _ a hinvoke _) fun _ => hgo _
  · split
    · exact h.bind (h.threads.enter a _ _) hgo
    · exact h.bind (h.threads.word a _) fun _ => h.bind (h.threads.enter a _ _) hgo
    · exact h.threads.word a _
    · exact h.throw rfl

namespace Machine

section

variable {C : Code} {L : Limits} {n : Nat} {go go' : Activation → Run Word}

variable {m : Machine} {α : Type}

theorem tick_zero (h : m.steps = 0) : tick L m = .error (.stepLimitExceeded L.steps) m := by
  unfold tick
  rw [h]

theorem tick_succ {t : Nat} (h : m.steps = t + 1) : tick L m = .ok () (m.withSteps t) := by
  unfold tick
  rw [h]
  rfl

theorem frugal_tick : Frugal (tick L) := by
  intro m b m' h
  cases hsteps : m.steps with
  | zero =>
    rw [tick_zero hsteps] at h
    cases h
  | succ t =>
    rw [tick_succ hsteps] at h
    rw [← (EStateM.Result.ok.inj h).2]
    exact Nat.le_succ t

theorem frugal_releasing {x : Run α} (hx : Frugal x) : Frugal (releasing x) := by
  intro m b m' h
  unfold releasing at h
  cases hxm : x m with
  | ok c m₁ =>
    rw [hxm] at h
    rw [← (EStateM.Result.ok.inj h).2]
    exact hx m c m₁ hxm
  | error f m₁ =>
    rw [hxm] at h
    cases h

theorem agree_releasing {x y : Run α} (h : Agree n x y) : Agree n (releasing x) (releasing y) := by
  intro m hm
  unfold releasing
  rw [h m hm]

theorem frugal_respects : Respects fun x _ => Frugal x := .of_idle Idle.frugal Frugal.bind

theorem frugal_invoke (hgo : ∀ a, Frugal (go a)) (g : Nat) (args : List Word) (depth : Nat) :
    Frugal (invoke C L go g args depth) :=
  frugal_respects.invoke go hgo C L (.throw _) (fun h => frugal_releasing h) g args depth

/-- Pieces of a run that gain no steps, so that they agree also when others come after them. -/
theorem agree_respects (n : Nat) : Respects fun x y => Agree n x y ∧ Frugal x :=
  .of_idle (fun h => ⟨.refl _, h.frugal⟩) fun hxy hfg =>
    ⟨hxy.1.bind hxy.2 fun b => (hfg b).1, hxy.2.bind fun b => (hfg b).2⟩

theorem agree_invoke (h : ∀ a, Agree n (go a) (go' a)) (hgo : ∀ a, Frugal (go a)) (g : Nat) (args : List Word)
    (depth : Nat) : Agree n (invoke C L go g args depth) (invoke C L go' g args depth) ∧
      Frugal (invoke C L go g args depth) :=
  (agree_respects n).invoke go' (fun a => ⟨h a, hgo a⟩) C L ⟨.refl _, .throw _⟩
    (fun h => ⟨agree_releasing h.1, frugal_releasing h.2⟩) g args depth

theorem agree_afterTick (h : ∀ a, Agree n (go a) (go' a)) (hgo : ∀ a, Frugal (go a)) (a : Activation) :
    Agree n (afterTick C L go a) (afterTick C L go' a) :=
  ((agree_respects n).afterTick L go' (fun a => ⟨h a, hgo a⟩) a fun g args => agree_invoke h hgo g args _).1

end

theorem frugal_execute (C : Code) (L : Limits) (n : Nat) (a : Activation) : Frugal (execute C L n a) := by
  induction n generalizing a with
  | zero => exact .throw _
  | succ n ih =>
    exact frugal_tick.bind fun _ => frugal_respects.afterTick L (execute C L n) ih a fun g args =>
      frugal_invoke ih g args _

/-- A bound that the steps stay below does not show. -/
theorem agree_execute (C : Code) (L : Limits) {n k : Nat} (hk : n ≤ k) (a : Activation) :
    Agree n (execute C L k a) (execute C L n a) := by
  induction n generalizing k a with
  | zero =>
    intro m hm
    cases k with
    | zero => rfl
    | succ k =>
      rw [execute_succ]
      exact bind_error (tick_zero (Nat.le_zero.mp hm))
  | succ n ih =>
    obtain ⟨k, rfl⟩ : ∃ k', k = k' + 1 := ⟨k - 1, by omega⟩
    intro m hm
    rw [execute_succ, execute_succ]
    -- without a step left both stop, whatever their bounds are
    cases hsteps : m.steps with
    | zero => rw [bind_error (tick_zero hsteps), bind_error (tick_zero hsteps)]
    | succ t =>
      rw [bind_ok (tick_succ hsteps), bind_ok (tick_succ hsteps)]
      refine agree_afterTick (fun a' => ih (by omega) a') (frugal_execute C L k) a _ ?_
      rw [withSteps_steps]
      omega

/-- The equation of the machine, with no bound in it. -/
theorem exec_eq (C : Code) (L : Limits) (a : Activation) :
    exec C L a = tick L >>= fun _ => afterTick C L (exec C L) a := by
  funext m
  unfold exec
  cases hsteps : m.steps with
  | zero => exact (bind_error (tick_zero hsteps)).symm
  | succ t =>
    rw [execute_succ, bind_ok (tick_succ hsteps), bind_ok (tick_succ hsteps)]
    refine agree_afterTick (fun a' m' hm' => ?_) (frugal_execute C L t) a _ (Nat.le_refl t)
    exact agree_execute C L hm' a' m' (Nat.le_refl _)

end Machine

/-! ## 3. Behaviours -/

/-- How a run comes out under any limits and with any number of steps left: with a word and a machine, or
with a fault. -/
def Behaviour := Limits → Nat → Except Fault (Word × Machine)

namespace Behaviour

/-- A run that has returned a word. -/
def returned (v : Word) (m : Machine) : Behaviour := fun _ t => .ok (v, m.withSteps t)

/-- A run that has met a fault. -/
def faulty (f : Fault) : Behaviour := fun _ _ => .error f

/-- A run ended only because of its limits. -/
def AtLimit {α : Type} (L : Limits) (r : Except Fault α) : Prop :=
  r = .error (.stepLimitExceeded L.steps) ∨ r = .error (.callDepthExceeded L.depth)

/-- One run goes on as the other after some number of steps, which is at least `j`, unless its limits are
too low for that. -/
def Leads (j : Nat) (x y : Behaviour) : Prop :=
  ∃ k d, j ≤ k ∧ ∀ L t, if k ≤ t ∧ d ≤ L.depth then x L t = y L (t - k) else AtLimit L (x L t)

/-- A run that is not over after `n` steps. -/
def Stuck (n : Nat) (x : Behaviour) : Prop := ∀ L t, t ≤ n → AtLimit L (x L t)

variable {x y z : Behaviour} {i j n : Nat}

theorem Leads.refl (x : Behaviour) : Leads 0 x x :=
  ⟨0, 0, Nat.le_refl 0, fun L t => by
    rw [if_pos ⟨Nat.zero_le t, Nat.zero_le _⟩]
    rfl⟩

theorem Leads.mono (h : Leads j x y) (hi : i ≤ j) : Leads i x y := by
  obtain ⟨k, d, hj, hxy⟩ := h
  exact ⟨k, d, hi.trans hj, hxy⟩

theorem Leads.trans (h : Leads i x y) (h' : Leads j y z) : Leads (i + j) x z := by
  obtain ⟨k, d, hi, hxy⟩ := h
  obtain ⟨k', d', hj, hyz⟩ := h'
  refine ⟨k + k', max d d', Nat.add_le_add hi hj, fun L t => ?_⟩
  have hx := hxy L t
  have hy := hyz L (t - k)
  by_cases hlow : k ≤ t ∧ d ≤ L.depth
  · rw [if_pos hlow] at hx
    rw [hx]
    by_cases hhigh : k' ≤ t - k ∧ d' ≤ L.depth
    · rw [if_pos hhigh] at hy
      rw [if_pos ⟨by omega, Nat.max_le.mpr ⟨hlow.2, hhigh.2⟩⟩, hy, Nat.sub_sub]
    · rw [if_neg hhigh] at hy
      rw [if_neg fun h => hhigh ⟨by omega, (Nat.max_le.mp h.2).2⟩]
      exact hy
  · rw [if_neg hlow] at hx
    rw [if_neg fun h => hlow ⟨by omega, (Nat.max_le.mp h.2).1⟩]
    exact hx

theorem Stuck.mono (h : Stuck n x) (hi : i ≤ n) : Stuck i x := fun L t ht => h L t (ht.trans hi)

theorem Leads.stuck (h : Leads j x y) (hy : Stuck n y) : Stuck (j + n) x := by
  obtain ⟨k, d, hj, hxy⟩ := h
  intro L t ht
  have hx := hxy L t
  split at hx
  · rw [hx]
    exact hy L _ (by omega)
  · exact hx

/-- What is left of a result when the machine after a fault does not matter. -/
def outcome : EStateM.Result Fault Machine Word → Except Fault (Word × Machine)
  | .ok v m => .ok (v, m)
  | .error f _ => .error f

end Behaviour

open Behaviour Machine

/-- How the execution of an activation comes out. -/
def Activation.behaviour (C : Code) (a : Activation) (m : Machine) : Behaviour := fun L t =>
  outcome (exec C L a (m.withSteps t))

/-- How a call comes out. -/
def Code.calling (C : Code) (g : Nat) (args : List Word) (depth : Nat) (m : Machine) : Behaviour :=
  fun L t => outcome (invoke C L (exec C L) g args depth (m.withSteps t))

namespace Activation

variable {C : Code} {a a' : Activation} {m m' : Machine} {y : Behaviour}

theorem behaviour_zero (L : Limits) : a.behaviour C m L 0 = .error (.stepLimitExceeded L.steps) := by
  unfold behaviour
  rw [exec_eq, bind_error (tick_zero rfl)]
  rfl

theorem behaviour_succ (L : Limits) (t : Nat) :
    a.behaviour C m L (t + 1) = outcome (afterTick C L (exec C L) a (m.withSteps t)) := by
  unfold behaviour
  rw [exec_eq, bind_ok (tick_succ (withSteps_steps m (t + 1))), withSteps_withSteps]

/-- A run goes on as it does after its next step. -/
theorem leads (h : ∀ L t, outcome (afterTick C L (exec C L) a (m.withSteps t)) = y L t) :
    Leads 1 (a.behaviour C m) y := by
  refine ⟨1, 0, Nat.le_refl 1, fun L t => ?_⟩
  cases t with
  | zero =>
    rw [if_neg fun h => absurd h.1 (Nat.not_succ_le_zero 0)]
    exact .inl (behaviour_zero L)
  | succ t =>
    rw [if_pos ⟨Nat.le_add_left 1 t, Nat.zero_le _⟩, behaviour_succ]
    exact h L t

/-! ## 4. Single steps -/

/-- Behind an instruction. -/
def advance (a : Activation) : Activation := { a with done := a.done + 1 }

/-- Behind an instruction that defined a register. -/
def defined (a : Activation) (r : Register) (content : Content) : Activation :=
  { a with registers := a.registers.setIfInBounds r content, done := a.done + 1 }

theorem set_ok {r : Register} (hr : r < a.registers.size) (content : Content) (m : Machine) :
    a.set r content m = .ok { a with registers := a.registers.setIfInBounds r content } m := by
  unfold set
  rw [if_pos hr]
  rfl

theorem word_ok {r : Register} {v : Word} (h : a.registers[r]? = some (.word v)) (m : Machine) :
    a.word r m = .ok v m := by
  unfold word
  rw [h]
  rfl

variable {place : Address} {o : Operation} {value : Word}

theorem address_ok {r : Register} (h : a.registers[r]? = some (.address place))
    (m : Machine) : a.address r m = .ok place m := by
  unfold address
  rw [h]
  rfl

theorem afterTick_instruction {i : Instruction} (hi : a.instruction? = some i) (L : Limits)
    (go : Activation → Run Word) : afterTick C L go a =
      perform (fun g args => invoke C L go g args (a.depth + 1)) a i >>= fun a => go a.advance := by
  unfold afterTick
  rw [hi]
  rfl

section

variable {i : Instruction} (hi : a.instruction? = some i) (hcalls : ∀ r g args, i ≠ .define r (.call g args))

include hi hcalls

theorem leads_perform {b : Activation} (h : ∀ call, perform call a i m = .ok b m') :
    Leads 1 (a.behaviour C m) (b.advance.behaviour C m') := by
  refine leads fun L t => ?_
  have hperform := fun call => (idle_perform call a hcalls).withSteps m t
  simp only [h] at hperform
  rw [afterTick_instruction hi, bind_ok (hperform _)]
  rfl

theorem leads_perform_fault {f : Fault} (h : ∀ call, perform call a i m = .error f m') :
    Leads 1 (a.behaviour C m) (faulty f) := by
  refine leads fun L t => ?_
  have hperform := fun call => (idle_perform call a hcalls).withSteps m t
  simp only [h] at hperform
  rw [afterTick_instruction hi, bind_error (hperform _)]
  rfl

end

theorem leads_define {r : Register} {content : Content}
    (hi : a.instruction? = some (.define r o)) (ho : ∀ g args, o ≠ .call g args)
    (hr : r < a.registers.size) (h : ∀ call, evaluate call a o m = .ok (some content) m') :
    Leads 1 (a.behaviour C m) ((a.defined r content).behaviour C m') :=
  leads_perform hi (fun _ g args he => ho g args (Instruction.define.inj he).2) fun call =>
    (bind_ok (h call)).trans (set_ok hr content _)

theorem leads_fault {r : Register} {f : Fault}
    (hi : a.instruction? = some (.define r o)) (ho : ∀ g args, o ≠ .call g args)
    (h : ∀ call, evaluate call a o m = .error f m') : Leads 1 (a.behaviour C m) (faulty f) :=
  leads_perform_fault hi (fun _ g args he => ho g args (Instruction.define.inj he).2) fun call => bind_error (h call)

theorem leads_phi {r : Register} {incoming : List (Register × BlockRef)}
    (hi : a.instruction? = some (.define r (.phi incoming))) :
    Leads 1 (a.behaviour C m) (a.advance.behaviour C m) := leads_perform hi nofun fun _ => rfl

theorem perform_store {call : Nat → List Word → Run Word} {v r : Register} (hv : a.registers[v]? = some (.word value))
    (hr : a.registers[r]? = some (.address place)) :
    perform call a (.store v r) m = (write place value >>= fun _ => pure a) m := by
  rw [perform, bind_ok (word_ok hv m), bind_ok (address_ok hr m)]

section

variable {v r : Register} (hi : a.instruction? = some (.store v r)) (hv : a.registers[v]? = some (.word value))
  (hr : a.registers[r]? = some (.address place))

include hi hv hr

theorem leads_store (h : write place value m = .ok () m') : Leads 1 (a.behaviour C m) (a.advance.behaviour C m') :=
  leads_perform hi nofun fun _ => (perform_store hv hr).trans (bind_ok h)

theorem leads_store_fault {f : Fault} (h : write place value m = .error f m') :
    Leads 1 (a.behaviour C m) (faulty f) :=
  leads_perform_fault hi nofun fun _ => (perform_store hv hr).trans (bind_error h)

end

theorem leads_jump {target : BlockRef} (hi : a.instruction? = none) (he : a.exit? = some (.jump target))
    (henter : ∀ m, a.enter (some a.block) target.block m = .ok a' m) :
    Leads 1 (a.behaviour C m) (a'.behaviour C m) := by
  refine leads fun L t => ?_
  unfold afterTick
  rw [hi, he]
  change outcome ((a.enter (some a.block) target.block >>= exec C L) _) = _
  rw [bind_ok (henter _)]
  rfl

theorem leads_branch {c : Register} {v : Word} {t e : BlockRef} (hi : a.instruction? = none)
    (he : a.exit? = some (.branch c t e)) (hc : a.registers[c]? = some (.word v))
    (henter : ∀ m, a.enter (some a.block) (if v.isTrue then t else e).block m = .ok a' m) :
    Leads 1 (a.behaviour C m) (a'.behaviour C m) := by
  refine leads fun L t' => ?_
  unfold afterTick
  rw [hi, he]
  change outcome ((a.word c >>= fun v => a.enter (some a.block)
    (if v.isTrue then t else e).block >>= exec C L) _) = _
  rw [bind_ok (word_ok hc _), bind_ok (henter _)]
  rfl

theorem leads_ret {r : Register} {v : Word} (hi : a.instruction? = none)
    (he : a.exit? = some (.ret r)) (hr : a.registers[r]? = some (.word v)) :
    Leads 1 (a.behaviour C m) (returned v m) := by
  refine leads fun L t => ?_
  unfold afterTick
  rw [hi, he]
  change outcome (a.word r _) = _
  rw [word_ok hr]
  rfl

/-! ## 5. Calls -/

section

variable {r : Register} {g : Nat} {rs : List Register} {args : List Word} {j n : Nat} {v : Word}
  {f : Fault} (hi : a.instruction? = some (.define r (.call g rs))) (hr : r < a.registers.size)
  (hargs : ∀ m, rs.mapM a.word m = .ok args m)
include hi hr hargs

/-- A call comes out as its callee does, and the caller goes on from there. -/
theorem behaviour_call (L : Limits) (t : Nat) : a.behaviour C m L (t + 1) =
      match C.calling g args (a.depth + 1) m L t with
      | .ok (v, m') => (a.defined r (.word v)).behaviour C m' L m'.steps
      | .error f => .error f := by
  rw [behaviour_succ, afterTick_instruction hi]
  unfold Code.calling
  -- Reading the arguments leaves the machine alone, so the step is the call and then the definition.
  have hcall : ∀ call : Nat → List Word → Run Word,
      perform call a (.define r (.call g rs)) (m.withSteps t) =
        (call g args >>= fun v => a.set r (.word v)) (m.withSteps t) := by
    intro call
    rw [perform, evaluate]
    simp only [bind_assoc, pure_bind]
    rw [bind_ok (hargs _)]
  have hstep := hcall fun g args => invoke C L (exec C L) g args (a.depth + 1)
  cases h : invoke C L (exec C L) g args (a.depth + 1) (m.withSteps t) with
  | ok v m' =>
    rw [bind_ok h, set_ok hr] at hstep
    rw [bind_ok hstep]
    rfl
  | error f m' =>
    rw [bind_error h] at hstep
    rw [bind_error hstep]
    rfl

/-- What holds of the run of a caller one step before its callee. -/
theorem leads_of_call {x : Behaviour} (h : Leads j (C.calling g args (a.depth + 1) m) x) (hx : ∀ L t, (match x L t with
      | .ok (v, m') => (a.defined r (.word v)).behaviour C m' L m'.steps
      | .error f => .error f) = y L t) : Leads (j + 1) (a.behaviour C m) y := by
  obtain ⟨k, d, hj, hcall⟩ := h
  -- The call costs the one step that makes it, and then what the callee takes.
  refine ⟨k + 1, d, Nat.succ_le_succ hj, fun L t => ?_⟩
  cases t with
  | zero =>
    rw [if_neg fun h => absurd h.1 (Nat.not_succ_le_zero k)]
    exact .inl (behaviour_zero L)
  | succ t =>
    have hL := hcall L t
    rw [behaviour_call hi hr hargs]
    by_cases hlow : k ≤ t ∧ d ≤ L.depth
    · rw [if_pos hlow] at hL
      rw [if_pos ⟨Nat.succ_le_succ hlow.1, hlow.2⟩, hL, Nat.add_sub_add_right]
      exact hx L (t - k)
    · rw [if_neg hlow] at hL
      rw [if_neg fun h => hlow ⟨Nat.le_of_succ_le_succ h.1, h.2⟩]
      rcases hL with hL | hL <;> rw [hL]
      · exact .inl rfl
      · exact .inr rfl

theorem leads_call (h : Leads j (C.calling g args (a.depth + 1) m) (returned v m')) :
    Leads (j + 1) (a.behaviour C m) ((a.defined r (.word v)).behaviour C m') :=
  leads_of_call hi hr hargs h fun _ _ => rfl

theorem leads_call_fault (h : Leads j (C.calling g args (a.depth + 1) m) (faulty f)) :
    Leads (j + 1) (a.behaviour C m) (faulty f) :=
  leads_of_call hi hr hargs h fun _ _ => rfl

theorem stuck_call (h : ∀ k < n, Stuck k (C.calling g args (a.depth + 1) m)) : Stuck n (a.behaviour C m) := by
  intro L t ht
  cases t with
  | zero => exact .inl (behaviour_zero L)
  | succ t =>
    rw [behaviour_call hi hr hargs]
    rcases h t ht L t (Nat.le_refl t) with hL | hL <;> rw [hL]
    · exact .inl rfl
    · exact .inr rfl

end

end Activation

namespace Code

variable {C : Code} {g depth j n : Nat} {args : List Word} {R : Routine} {a : Activation}
  {m m' : Machine} {v : Word} {f : Fault}

section

variable (hR : C.routines[g]? = some R) (hblocks : R.isExternal = false)
  (henter : ∀ m, (Activation.start R args depth).enter none 0 m = .ok a m)
include hR hblocks henter

/-- A routine with blocks is executed, and what it allocated is released. -/
theorem calling_eq (L : Limits) (t : Nat) : C.calling g args depth m L t =
      if L.depth ≤ depth then .error (.callDepthExceeded L.depth) else
      match a.behaviour C m L t with
      | .ok (v, m') => .ok (v, { m' with memory := m'.memory.shrink m.memory.size })
      | .error f => .error f := by
  unfold calling invoke
  simp only [hR, hblocks, Bool.false_eq_true, if_false]
  split
  · rfl
  · unfold releasing
    simp only [bind_ok (henter _)]
    unfold Activation.behaviour
    cases exec C L a (m.withSteps t) <;> rfl

theorem leads_of_body {x y : Behaviour} (h : Leads j (a.behaviour C m) x) (hx : ∀ L t, (match x L t with
      | .ok (v, m') => .ok (v, { m' with memory := m'.memory.shrink m.memory.size })
      | .error f => .error f) = y L t) : Leads j (C.calling g args depth m) y := by
  obtain ⟨k, d, hj, hbody⟩ := h
  -- The body needs depth `d`, and its own activation stands at `depth`: whichever is more is needed.
  refine ⟨k, max d (depth + 1), hj, fun L t => ?_⟩
  have hL := hbody L t
  rw [calling_eq hR hblocks henter]
  by_cases hlow : k ≤ t ∧ d ≤ L.depth
  · rw [if_pos hlow] at hL
    by_cases hdepth : L.depth ≤ depth
    · rw [if_pos hdepth, if_neg fun h => by have := (Nat.max_le.mp h.2).2; omega]
      exact .inr rfl
    · rw [if_neg hdepth, if_pos ⟨hlow.1, Nat.max_le.mpr ⟨hlow.2, by omega⟩⟩, hL]
      exact hx L (t - k)
  · rw [if_neg hlow] at hL
    rw [if_neg fun h => hlow ⟨h.1, (Nat.max_le.mp h.2).1⟩]
    split
    · exact .inr rfl
    · rcases hL with hL | hL <;> rw [hL]
      · exact .inl rfl
      · exact .inr rfl

theorem leads_returned (h : Leads j (a.behaviour C m) (returned v m')) : Leads j (C.calling g args depth m)
      (returned v { m' with memory := m'.memory.shrink m.memory.size }) :=
  leads_of_body hR hblocks henter h fun _ _ => rfl

theorem leads_faulty (h : Leads j (a.behaviour C m) (faulty f)) : Leads j (C.calling g args depth m) (faulty f) :=
  leads_of_body hR hblocks henter h fun _ _ => rfl

theorem stuck_calling (h : Stuck n (a.behaviour C m)) : Stuck n (C.calling g args depth m) := by
  intro L t ht
  rw [calling_eq hR hblocks henter]
  split
  · exact .inr rfl
  · rcases h L t ht with hL | hL <;> rw [hL]
    · exact .inl rfl
    · exact .inr rfl

end

/-- A routine without blocks is left to the machine. -/
theorem calling_external (hR : C.routines[g]? = some R) (hblocks : R.isExternal = true) :
    C.calling g args depth m = fun _ t => outcome (external R.name args (m.withSteps t)) := by
  funext L t
  unfold calling invoke
  simp only [hR, hblocks, if_true]

end Code

end Mila
