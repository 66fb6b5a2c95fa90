import Mila.Proofs.Behaviour

/-! # Unread input

A run takes its words off the front of the input, one by one, and sees nothing of those that it does not take. Only
one of the pieces that runs are put together from reads, so there is little to show.
-/

namespace Mila

open Machine

/-! ## 1. More to read -/

namespace Machine

/-- The same machine with more words behind those still to be read. -/
def plusInput (m : Machine) (more : List Word) : Machine := { m with input := m.input ++ more }

/-- A result that leaves more words to be read. -/
def resultPlusInput {α : Type} (more : List Word) :
    EStateM.Result Fault Machine α → EStateM.Result Fault Machine α
  | .ok b m => .ok b (m.plusInput more)
  | .error f m => .error f (m.plusInput more)

end Machine

namespace Run

variable {α β : Type} {more : List Word} {x : Run α} {f : α → Run β}

/-- A piece of a run that ends early for want of a word, or else does the same with more words to be read, and
leaves those alone. -/
def Sated (more : List Word) (x : Run α) : Prop :=
  ∀ m, (∃ m', x m = .error .inputExhausted m') ∨ x (m.plusInput more) = resultPlusInput more (x m)

namespace Sated

theorem bind (hx : Sated more x) (hf : ∀ b, Sated more (f b)) : Sated more (x >>= f) := by
  intro m
  rcases hx m with ⟨m', hexhausted⟩ | hsame
  · exact .inl ⟨m', bind_error hexhausted⟩
  · cases h : x m with
    | ok b m₁ =>
      rw [h] at hsame
      rw [bind_ok h, bind_ok hsame]
      exact hf b m₁
    | error fault m₁ =>
      rw [h] at hsame
      rw [bind_error h, bind_error hsame]
      exact .inr rfl

theorem releasing (h : Sated more x) : Sated more (releasing x) := by
  intro m
  unfold Machine.releasing
  rcases h m with ⟨m', hexhausted⟩ | hsame
  · rw [hexhausted]
    exact .inl ⟨_, rfl⟩
  · rw [hsame]
    refine .inr ?_
    cases x m <;> rfl

theorem tick (L : Limits) : Sated more (tick L) := by
  intro m
  refine .inr ?_
  unfold Machine.tick
  rw [show (m.plusInput more).steps = m.steps from rfl]
  cases m.steps <;> rfl

theorem read (place : Address) : Sated more (read place) := by
  intro m
  refine .inr ?_
  unfold Machine.read
  rw [show (m.plusInput more).memory = m.memory from rfl]
  cases m.memory[place.allocation]? with
  | none => rfl
  | some cells =>
    dsimp only
    cases cells.get? place.index <;> rfl

theorem write (place : Address) (value : Word) : Sated more (write place value) := by
  intro m
  refine .inr ?_
  unfold Machine.write
  rw [show (m.plusInput more).memory = m.memory from rfl]
  cases m.memory[place.allocation]? with
  | none => rfl
  | some cells =>
    dsimp only
    cases cells.set? place.index value <;> rfl

/-- The next word is the same one if there is any, and the words behind it are left. -/
theorem readInput : Sated more readInput := by
  intro m
  unfold Machine.readInput
  cases hinput : m.input with
  | nil => exact .inl ⟨m, rfl⟩
  | cons value input =>
    refine .inr ?_
    rw [show (m.plusInput more).input = value :: (input ++ more) by
      unfold plusInput
      rw [hinput, List.cons_append]]
    rfl

theorem respects (more : List Word) : Respects fun x _ => Sated more x where
  pure _ _ := .inr rfl
  throw _ _ := .inr rfl
  bind := bind
  allocate _ _ := .inr rfl
  read := read
  write := write
  readInput := readInput
  writeOutput _ _ := .inr rfl

theorem invoke (more : List Word) {go : Activation → Run Word} (hgo : ∀ a, Sated more (go a)) (C : Code)
    (L : Limits) (g : Nat) (args : List Word) (depth : Nat) : Sated more (invoke C L go g args depth) :=
  (respects more).invoke go hgo C L (fun _ => .inr rfl) (fun h => releasing h) g args depth

/-- Whole activations, by induction on the bound of their recursion. -/
theorem execute (C : Code) (L : Limits) (n : Nat) (a : Activation) : Sated more (execute C L n a) := by
  induction n generalizing a with
  | zero => exact fun _ => .inr rfl
  | succ n ih =>
    rw [execute_succ]
    exact bind (tick L) fun _ => (respects more).afterTick L (Machine.execute C L n) ih a fun g args =>
      invoke more ih C L g args _

end Sated

end Run

/-! ## 2. Whole runs -/

namespace Code

open Run

variable (C : Code) (L : Limits)

theorem run_append (xs ys : List Word) : C.run xs L = .error .inputExhausted ∨ C.run (xs ++ ys) L = C.run xs L := by
  unfold run
  cases C.find? entryPoint with
  | none => exact .inr rfl
  | some main =>
    dsimp only
    rcases Sated.invoke ys (Sated.execute C L L.steps) C L main [] 0 ⟨xs, #[], #[], L.steps⟩ with
      ⟨m', hexhausted⟩ | hsame
    · rw [hexhausted]
      exact .inl rfl
    · change Machine.invoke C L _ main [] 0 ⟨xs ++ ys, #[], #[], L.steps⟩ = _ at hsame
      rw [hsame]
      refine .inr ?_
      cases Machine.invoke C L (Machine.execute C L L.steps) main [] 0 ⟨xs, #[], #[], L.steps⟩ <;> rfl

/-- Words that a run does not come to read have no influence on how it ends. A run that ends otherwise than for want
of a word comes out the same with any words behind its input; and one that runs out of its input also runs out of
every part that the input starts with. -/
theorem run_unread (xs : List Word) :
    (C.run xs L ≠ .error .inputExhausted → ∀ ys, C.run (xs ++ ys) L = C.run xs L) ∧
    (C.run xs L = .error .inputExhausted → ∀ zs, zs <+: xs → C.run zs L = .error .inputExhausted) := by
  refine ⟨fun hends ys => (C.run_append L xs ys).resolve_left hends, fun hexhausted zs hzs => ?_⟩
  obtain ⟨ys, rfl⟩ := hzs
  rcases C.run_append L zs ys with hshort | hsame
  · exact hshort
  · exact hsame.symm.trans hexhausted

/-- Code that writes each word it reads, up to the first zero. -/
def echo : Code := ⟨#[⟨"writeln", ["value"], #[], 0⟩, ⟨"main", [],
  #[⟨"entry", #[.define 0 (.alloca 1)], some (.jump ⟨1, 1⟩)⟩,
    ⟨"loop", #[.define 1 (.intrinsic .readln 0), .define 2 (.call 0 [1])], some (.branch 1 ⟨1, 1⟩ ⟨1, 2⟩)⟩,
    ⟨"done", #[], some (.ret 1)⟩], 3⟩]⟩

/-- The words behind the zero are not read, and without a zero there is always a word missing. -/
theorem run_unread_echo :
    (∀ ys, echo.run ([3, 0] ++ ys) ⟨20, 4⟩ = .ok ⟨0, [3, 0]⟩) ∧
    echo.run [3, 7] ⟨20, 4⟩ = .error .inputExhausted ∧ echo.run [3] ⟨20, 4⟩ = .error .inputExhausted := by
  have hzero : echo.run [3, 0] ⟨20, 4⟩ = .ok ⟨0, [3, 0]⟩ := by decide +kernel
  have hmissing : echo.run [3, 7] ⟨20, 4⟩ = .error .inputExhausted := by decide +kernel
  refine ⟨fun ys => ?_, hmissing, (run_unread echo ⟨20, 4⟩ [3, 7]).2 hmissing [3] ⟨[7], rfl⟩⟩
  rw [(run_unread echo ⟨20, 4⟩ [3, 0]).1 (by rw [hzero]; nofun) ys, hzero]

end Code

end Mila
