import Mila.Compile
import Mila.Proofs.Names
import Mila.Proofs.Pairing
import Mila.Proofs.Tandem

/-! # Compiling under other numbers

Nothing in a compilation depends on which numbers the routines get. When one target goes along with another
one, up to the numbers of routines, so does whatever is compiled into it: the same errors arise at the same
places, and the code emitted up to there is the same code under other numbers.
-/

namespace Mila

/-! ## 1. Other numbers for routines -/

section

variable (ρ : Nat → Nat)

def BlockRef.renumber (place : BlockRef) : BlockRef := { place with routine := ρ place.routine }

/-- Values carried to a block, from blocks under other numbers. -/
def renumberSources (incoming : List (Register × BlockRef)) : List (Register × BlockRef) :=
  incoming.map fun z => (z.1, z.2.renumber ρ)

/-- Calls name other routines, and merges name blocks of other routines. -/
def Operation.renumber : Operation → Operation
  | call callee args => call (ρ callee) args
  | phi incoming => phi (renumberSources ρ incoming)
  | const value => const value
  | param index => param index
  | alloca count => alloca count
  | offset base distance => offset base distance
  | load address => load address
  | arith op lhs rhs => arith op lhs rhs
  | compare op lhs rhs => compare op lhs rhs
  | intrinsic which address => intrinsic which address

def Instruction.renumber : Instruction → Instruction
  | define target op => define target (op.renumber ρ)
  | store value address => store value address

def Exit.renumber : Exit → Exit
  | jump target => jump (target.renumber ρ)
  | branch condition thenBlock elseBlock =>
    branch condition (thenBlock.renumber ρ) (elseBlock.renumber ρ)
  | ret value => ret value

def Block.renumber (b : Block) : Block :=
  { b with body := b.body.map (Instruction.renumber ρ), exit := b.exit.map (Exit.renumber ρ) }

def Routine.renumber (r : Routine) : Routine := { r with blocks := r.blocks.map (Block.renumber ρ) }

def Subprogram.renumber (entry : Subprogram) : Subprogram := { entry with routine := ρ entry.routine }

/-- A frame of the same routine under its other number. -/
def Frame.renumber (f : Frame) : Frame where
  routine := ρ f.routine
  block := f.block.renumber ρ
  returnBlock := f.returnBlock.renumber ρ
  resultName := f.resultName
  locals := f.locals
  returns := renumberSources ρ f.returns

end

theorem renumberSources_id (incoming : List (Register × BlockRef)) :
    renumberSources id incoming = incoming := List.map_id incoming

theorem Operation.renumber_id (op : Operation) : op.renumber id = op := by
  cases op with
  | phi incoming => exact congrArg phi (renumberSources_id incoming)
  | _ => rfl

theorem Operation.IsPlain.renumber {op : Operation} (h : op.IsPlain) (ρ : Nat → Nat) : op.renumber ρ = op := by
  cases op with
  | call | phi => exact h.elim
  | _ => rfl

theorem Exit.renumber_id (e : Exit) : e.renumber id = e := by cases e <;> rfl

/-! ## 2. Targets that go along -/

/-- A target of type `κ'` that goes along with one of type `κ`, where routines get other numbers. -/
structure Renumbering (κ κ' : Type) [Target κ] [Target κ'] where
  code : κ → κ'
  routine : Nat → Nat
  addRoutine : ∀ k name params, Target.addRoutine (code k) name params =
    (routine (Target.addRoutine k name params).1, code (Target.addRoutine k name params).2)
  addBlock : ∀ k g label, Target.addBlock (code k) (routine g) label =
    ((Target.addBlock k g label).1.renumber routine, code (Target.addBlock k g label).2)
  define : ∀ k place op, Target.define (code k) (place.renumber routine) (op.renumber routine) =
    ((Target.define k place op).1, code (Target.define k place op).2)
  store : ∀ k place v a, Target.store (code k) (place.renumber routine) v a =
    code (Target.store k place v a)
  terminate : ∀ k place e, Target.terminate (code k) (place.renumber routine) (e.renumber routine) =
    code (Target.terminate k place e)

namespace Renumbering

variable {κ κ' : Type} [Target κ] [Target κ'] (T : Renumbering κ κ')

/-- Two compilations at the same place. -/
structure Relates (s : Compilation κ) (s' : Compilation κ') : Prop where
  code : s'.code = T.code s.code
  constant : ∀ name, s'.globals.constant? name = s.globals.constant? name
  subprogram : ∀ name, s'.globals.subprogram? name =
    (s.globals.subprogram? name).map (·.renumber T.routine)
  frame : s'.frame = s.frame.renumber T.routine

variable {s : Compilation κ} {s' : Compilation κ'}

variable {T} in
theorem Relates.emit (h : T.Relates s s') (k : κ) : T.Relates { s with code := k } { s' with code := T.code k } :=
  ⟨rfl, h.constant, h.subprogram, h.frame⟩

variable {T} in
theorem Relates.reframe (h : T.Relates s s') (f : Frame) :
    T.Relates { s with frame := f } { s' with frame := f.renumber T.routine } :=
  ⟨h.code, h.constant, h.subprogram, rfl⟩

variable {T} in
theorem Relates.block (h : T.Relates s s') : s.frame.block.renumber T.routine = s'.frame.block := by
  rw [h.frame]
  rfl

theorem openRoutine (k : κ) (g : Nat) (resultName : Option String) :
    Emit.openRoutine (T.code k) (T.routine g) resultName =
      ((Emit.openRoutine k g resultName).1.renumber T.routine,
        T.code (Emit.openRoutine k g resultName).2) := by
  unfold Emit.openRoutine
  simp only [T.addBlock]
  rfl

/-- The second step does what the first one does, and yields the same up to `f`. -/
def Follows {α β : Type} (f : α → β) (m : Emit κ α) (m' : Emit κ' β) : Prop :=
  Paired T.Relates m m' (fun a b s s' => b = f a ∧ T.Relates s s') T.Relates

/-! ## 3. Steps -/

namespace Follows

variable {T} {α β γ δ : Type} {f : α → β} {g : γ → δ}

theorem pure (a : α) : T.Follows f (pure a) (pure (f a)) := Paired.pure fun _ _ hs => ⟨rfl, hs⟩

theorem throw (e : ScopeError) : T.Follows f (throw e) (throw e) := Paired.throw (fun _ _ hs => hs) e

theorem bind {m : Emit κ α} {m' : Emit κ' β} {k : α → Emit κ γ} {k' : β → Emit κ' δ}
    (hm : T.Follows f m m') (hk : ∀ a, T.Follows g (k a) (k' (f a))) : T.Follows g (m >>= k) (m' >>= k') := by
  refine Paired.bind hm fun a b s s' hs => ?_
  obtain ⟨rfl, hs⟩ := hs
  exact hk a s s' hs

theorem get {k : Compilation κ → Emit κ γ} {k' : Compilation κ' → Emit κ' δ}
    (hk : ∀ s s', T.Relates s s' → T.Follows g (k s) (k' s')) : T.Follows g (get >>= k) (get >>= k') := Paired.get hk

theorem update {c : Compilation κ → Compilation κ} {c' : Compilation κ' → Compilation κ'}
    (h : ∀ s s', T.Relates s s' → T.Relates (c s) (c' s')) :
    T.Follows id (modify c) (modify c') := Paired.update fun s s' hs => ⟨rfl, h s s' hs⟩

/-- A change that yields something. -/
theorem yield {c : Compilation κ → α × Compilation κ} {c' : Compilation κ' → β × Compilation κ'}
    (h : ∀ s s', T.Relates s s' → (c' s').1 = f (c s).1 ∧ T.Relates (c s).2 (c' s').2) :
    T.Follows f (modifyGet c) (modifyGet c') := fun s s' hs => .ok (h s s' hs)

theorem define (op : Operation) : T.Follows id (Emit.define op) (Emit.define (op.renumber T.routine)) :=
  yield fun s s' hs => by
    have hrun := T.define s.code s.frame.block op
    rw [← hs.code, hs.block] at hrun
    rw [hrun]
    exact ⟨rfl, hs.emit _⟩

theorem store (v a : Register) : T.Follows id (Emit.store v a) (Emit.store v a) :=
  update fun s s' hs => by
    have hrun := T.store s.code s.frame.block v a
    rw [← hs.code, hs.block] at hrun
    rw [hrun]
    exact hs.emit _

theorem terminate (e : Exit) : T.Follows id (Emit.terminate e) (Emit.terminate (e.renumber T.routine)) :=
  update fun s s' hs => by
    have hrun := T.terminate s.code s.frame.block e
    rw [← hs.code, hs.block] at hrun
    rw [hrun]
    exact hs.emit _

theorem addBlock (label : String) :
    T.Follows (BlockRef.renumber T.routine) (Emit.addBlock label) (Emit.addBlock label) :=
  yield fun s s' hs => by
    have hrun := T.addBlock s.code s.frame.routine label
    rw [← hs.code, show T.routine s.frame.routine = s'.frame.routine by rw [hs.frame]; rfl] at hrun
    rw [hrun]
    exact ⟨rfl, hs.emit _⟩

theorem moveTo (place : BlockRef) : T.Follows id (Emit.moveTo place) (Emit.moveTo (place.renumber T.routine)) :=
  update fun s s' hs => by
    rw [hs.frame]
    exact hs.reframe { s.frame with block := place }

theorem currentBlock : T.Follows (BlockRef.renumber T.routine) Emit.currentBlock Emit.currentBlock :=
  get fun s s' hs => by
    rw [← hs.block]
    exact pure _

/-! ## 4. Names -/

theorem resolve (name : String) : T.Follows id (Emit.resolve name) (Emit.resolve name) :=
  get fun s s' hs => by
    rw [hs.frame, hs.constant]
    dsimp only [Frame.renumber]
    cases s.frame.locals.get? name with
    | some b => exact pure _
    | none =>
      cases s.globals.constant? name with
      | some w => exact pure _
      | none => exact throw _

theorem declareConstant (name : String) (w : Word) :
    T.Follows id (Emit.declareConstant name w) (Emit.declareConstant name w) :=
  get fun s s' hs => by
    unfold Globals.defineConstant?
    rw [hs.constant]
    cases s.globals.constant? name with
    | some _ => exact throw _
    | none =>
      refine update fun t t' ht => ⟨ht.code, fun other => ?_, hs.subprogram, ht.frame⟩
      refine (NameTable.getElem?_insert _ _ _ _).trans ?_
      refine Eq.trans ?_ (NameTable.getElem?_insert _ _ _ _).symm
      rw [show s'.globals.constants[other]? = s.globals.constants[other]? from hs.constant other]

theorem declare (kind : SymbolKind) (name : String) (b : Binding) :
    T.Follows id (Emit.declare kind name b) (Emit.declare kind name b) :=
  get fun s s' hs => by
    rw [hs.frame]
    dsimp only [Frame.renumber]
    cases s.frame.locals.declare? name b with
    | none => exact throw _
    | some locals =>
      refine update fun t t' ht => ?_
      rw [ht.frame]
      exact ht.reframe { t.frame with locals }

/-! ## 5. Expressions and statements -/

theorem holding {body : Emit κ (Option Register)} {body' : Emit κ' (Option Register)} (name : String) (b : Binding)
    (hbody : T.Follows id body body') : T.Follows id (Emit.holding name b body) (Emit.holding name b body') := by
  have hshadow : T.Follows id
      (modifyGet fun s => ((s.frame.locals.shadow name b).1,
        { s with frame := { s.frame with locals := (s.frame.locals.shadow name b).2 } }))
      (modifyGet fun s => ((s.frame.locals.shadow name b).1,
        { s with frame := { s.frame with locals := (s.frame.locals.shadow name b).2 } })) :=
    yield fun s s' hs => by
      rw [hs.frame]
      exact ⟨rfl, hs.reframe { s.frame with locals := (s.frame.locals.shadow name b).2 }⟩
  refine bind hshadow fun saved => bind hbody fun _ => update fun s s' hs => ?_
  rw [hs.frame]
  exact hs.reframe { s.frame with locals := s.frame.locals.restore name saved }

theorem call (callee : String) (arity : Nat) {args : Emit κ (List Register)}
    {args' : Emit κ' (List Register)} (h : T.Follows id args args') :
    T.Follows id (Emit.call callee arity args) (Emit.call callee arity args') :=
  get fun s s' hs => by
    rw [hs.subprogram]
    cases s.globals.subprogram? callee with
    | none => exact throw _
    | some entry =>
      dsimp only [Option.map_some, Subprogram.renumber]
      split
      · exact bind (f := id) (throw _) fun _ => bind h fun _ => define _
      · exact bind h fun _ => define _

theorem resultValue : T.Follows id Emit.resultValue Emit.resultValue :=
  get fun s s' hs => by
    rw [hs.frame]
    dsimp only [Frame.renumber]
    cases s.frame.resultName.bind s.frame.locals.get? with
    | some b => exact define _
    | none => exact define _

theorem leave (v : Register) : T.Follows id (Emit.leave v) (Emit.leave v) :=
  get fun s s' hs => by
    have hcarry : T.Follows id
        (modify fun t => { t with frame := { t.frame with returns := t.frame.returns ++ [(v, t.frame.block)] } })
        (modify fun t => { t with frame := { t.frame with returns := t.frame.returns ++ [(v, t.frame.block)] } }) := by
      refine update fun t t' ht => ?_
      rw [ht.frame]
      have hreframe := ht.reframe { t.frame with returns := t.frame.returns ++ [(v, t.frame.block)] }
      unfold Frame.renumber renumberSources at hreframe
      rw [List.map_append] at hreframe
      exact hreframe
    rw [hs.frame]
    exact bind hcarry fun _ => terminate _

/-! ## 6. Subprograms -/

theorem finish (v : Register) : T.Follows id (Emit.finish v) (Emit.finish v) :=
  bind (leave v) fun _ => get fun s s' hs => by
    rw [hs.frame]
    refine bind (moveTo _) fun _ => ?_
    dsimp only [Frame.renumber]
    rcases s.frame.returns with _ | ⟨⟨_, _⟩, _ | ⟨_, _⟩⟩
    · exact bind (define _) fun _ => terminate _
    · exact terminate _
    · exact bind (define _) fun _ => terminate _

theorem register (name : String) (entry : Subprogram) : T.Follows id (Emit.register name entry)
    (Emit.register name (entry.renumber T.routine)) := by
  refine update fun s s' hs => ⟨hs.code, hs.constant, fun other => ?_, hs.frame⟩
  rw [Globals.subprogram?_register, Globals.subprogram?_register, hs.subprogram]
  split <;> rfl

theorem addRoutine (p : Prototype) : T.Follows T.routine (Emit.addRoutine p) (Emit.addRoutine p) :=
  yield fun s s' hs => by
    have hrun := T.addRoutine s.code p.name p.params
    rw [← hs.code] at hrun
    rw [hrun]
    exact ⟨rfl, hs.emit _⟩

theorem forward (p : Prototype) : T.Follows id (Emit.forward p) (Emit.forward p) :=
  get fun s s' hs => by
    rw [hs.subprogram]
    cases s.globals.subprogram? p.name with
    | none => exact bind (addRoutine p) fun _ => register _ _
    | some entry =>
      dsimp only [Option.map_some, Subprogram.renumber]
      split
      · exact throw _
      · exact pure _

theorem claimRoutine (p : Prototype) : T.Follows T.routine (Emit.claimRoutine p) (Emit.claimRoutine p) :=
  get fun s s' hs => by
    rw [hs.subprogram]
    cases s.globals.subprogram? p.name with
    | none => exact addRoutine p
    | some entry =>
      dsimp only [Option.map_some, Subprogram.renumber]
      split
      · refine bind (f := id) (throw _) fun _ => ?_
        split
        · exact bind (f := id) (throw _) fun _ => pure _
        · exact pure _
      · split
        · exact bind (f := id) (throw _) fun _ => pure _
        · exact pure _

theorem within (g : Nat) (resultName : Option String) {m : Emit κ Unit} {m' : Emit κ' Unit} (h : T.Follows id m m') :
    T.Follows id (Emit.within g resultName m) (Emit.within (T.routine g) resultName m') :=
  get fun s s' hs => by
    refine bind (f := id) (update fun t t' ht => ?_) fun _ => bind h fun _ => update fun t t' ht => ?_
    · rw [ht.code, T.openRoutine]
      exact ⟨rfl, ht.constant, ht.subprogram, rfl⟩
    · rw [hs.frame]
      exact ht.reframe _

/-! ## 7. Trees -/

variable (T) in
theorem tandem : Emit.Tandem (fun _ _ => True) (fun _ : Unit => .same) (fun _ => BlockRef.renumber T.routine)
    (fun _ _ m m' => T.Follows id m m') where
  pure := pure
  throw _ _ := throw _
  bind := bind
  define op hop := by
    have hdefine := define (T := T) op
    rwa [hop.renumber] at hdefine
  store := store
  jump p := terminate (.jump p)
  branch c p q := terminate (.branch c p q)
  addBlock _ hk := bind (addBlock _) hk
  here hk := bind currentBlock hk
  moveTo _ := moveTo _
  merge _ x y q r := bind (moveTo _) fun _ => define (.phi [(x, q), (y, r)])
  resolve _ := resolve _
  holding := holding
  declareConstant := declareConstant
  declare := declare
  call callee arity h := call callee arity h
  resultValue := resultValue
  leave := leave
  forward _ := forward _
  routine _ h := bind (claimRoutine _) fun _ => bind (register _ _) fun _ =>
    within _ _ (bind (h () ∅ rfl) fun _ => finish _)

theorem program (p : Program) : T.Follows id (Emit.program p) (Emit.program p) :=
  bind ((tandem T).sequence_same (Node.allFit_same _) none (w := ()) rfl ∅) fun _ =>
    bind ((tandem T).node_same (Node.fits_same _) (w := ()) rfl ∅) fun _ => bind (define _) fun _ => finish _

end Follows

theorem relates_start (k : κ) : T.Relates (Compilation.start k) (Compilation.start (T.code k)) := by
  unfold Compilation.start Compilation.libraryRoutines
  simp only [T.addRoutine, T.openRoutine, List.foldl_cons, List.foldl_nil,
    Compilation.addLibraryRoutine]
  refine ⟨rfl, fun _ => rfl, fun name => ?_, rfl⟩
  simp only [Globals.subprogram?_register]
  repeat' split
  all_goals rfl

/-- A program comes to the same result in both targets, and leaves code that corresponds. -/
theorem compileInto (p : Program) (k : κ) :
    p.compileInto (T.code k) = ((p.compileInto k).1, T.code (p.compileInto k).2) := by
  have hrun := Follows.program p _ _ (T.relates_start k)
  unfold Program.compileInto EStateM.run
  generalize Emit.program p (Compilation.start k) = r,
    Emit.program p (Compilation.start (T.code k)) = r' at hrun ⊢
  cases hrun with
  | ok h => simp only [h.2.code]
  | error e h => simp only [h.code]

end Renumbering

end Mila
