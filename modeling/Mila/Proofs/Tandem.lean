import Mathlib
import Mila.Compile

/-! # Compilations in tandem

Two compilations that follow the same tree, into targets of their own and maybe under other names for variables. A
relation between steps of the one and steps of the other that holds of the single steps, and of steps after one
another, holds of whatever is compiled from a tree.
-/

namespace Mila

/-- The labels of the blocks that a compilation adds. -/
def Emit.labels : List String := ["entry", "return", "then", "else", "ifcont", "cond", "loop", "afterloop",
  "for.cond", "for.body", "for.end", "afterexit"]

/-! ## 1. Other names -/

/-- Other names for variables, and which variables are known to be declared. -/
structure Naming where
  other : Equiv.Perm String
  bound : Set String

namespace Naming

/-- The names as they are. -/
def same : Naming := ⟨1, ∅⟩

/-- A name that is looked up may only change if there is a variable of that name: else it is a constant. -/
def Clear (N : Naming) (name : String) : Prop := N.other name = name ∨ name ∈ N.bound

theorem clear_same (name : String) : same.Clear name := .inl rfl

end Naming

mutual

/-- A tree with other names for the variables of the subprogram at hand, which are neither those of the subprograms
in it nor their names. -/
def Node.rename (f : String → String) : Node → Node
  | .number w => .number w
  | .constantDecl name w => .constantDecl name w
  | .variableDecl d => .variableDecl { d with name := f d.name }
  | .ident name => .ident (f name)
  | .element name index => .element (f name) (index.rename f)
  | .binary op lhs rhs => .binary op (lhs.rename f) (rhs.rename f)
  | .conditional condition thenArm elseArm =>
    .conditional (condition.rename f) (thenArm.rename f) (elseArm.rename f)
  | .whileLoop condition body => .whileLoop (condition.rename f) (body.rename f)
  | .forLoop name direction start stop body =>
    .forLoop (f name) direction (start.rename f) (stop.rename f) (body.rename f)
  | .call callee args => .call callee (renameAll f args)
  | .intrinsic which name => .intrinsic which (f name)
  | .exit => .exit
  | .forward prototype => .forward prototype
  | .subprogram prototype body => .subprogram prototype body
  | .block nodes => .block (renameAll f nodes)

def Node.renameAll (f : String → String) : List Node → List Node
  | [] => []
  | first :: rest => first.rename f :: renameAll f rest

end

mutual

/-- The names that a tree looks up may be exchanged for others, and its subprograms have headings that are allowed. -/
def Node.Fits (Heading : String → List String → Prop) : Naming → Node → Prop
  | N, .ident name => N.Clear name
  | N, .element name index => N.Clear name ∧ index.Fits Heading N
  | N, .binary _ lhs rhs => lhs.Fits Heading N ∧ rhs.Fits Heading N
  | N, .conditional condition thenArm elseArm =>
    condition.Fits Heading N ∧ thenArm.Fits Heading N ∧ elseArm.Fits Heading N
  | N, .whileLoop condition body => condition.Fits Heading N ∧ body.Fits Heading N
  | N, .forLoop name _ start stop body =>
    N.Clear name ∧ start.Fits Heading N ∧ stop.Fits Heading N ∧ body.Fits Heading N
  | N, .call _ args => AllFit Heading N args
  | N, .intrinsic _ name => N.Clear name
  | _, .forward prototype => Heading prototype.name prototype.params
  | _, .subprogram prototype body => Heading prototype.name prototype.params ∧ AllFit Heading .same body
  | N, .block nodes => AllFit Heading N nodes
  | _, .number _ | _, .constantDecl _ _ | _, .variableDecl _ | _, .exit => True

def Node.AllFit (Heading : String → List String → Prop) : Naming → List Node → Prop
  | _, [] => True
  | N, first :: rest => first.Fits Heading N ∧ AllFit Heading N rest

end

theorem Node.length_renameAll (f : String → String) (ns : List Node) : (Node.renameAll f ns).length = ns.length := by
  induction ns with
  | nil => rfl
  | cons first rest ih => exact congrArg (· + 1) ih

mutual

theorem Node.rename_one : ∀ n : Node, n.rename Naming.same.other = n
  | .number _ | .constantDecl _ _ | .variableDecl _ | .ident _ | .intrinsic _ _ | .exit | .forward _
  | .subprogram _ _ => rfl
  | .element name index => congrArg (Node.element name) (rename_one index)
  | .binary op lhs rhs => congrArg₂ (Node.binary op) (rename_one lhs) (rename_one rhs)
  | .conditional condition thenArm elseArm => by
    rw [Node.rename, rename_one condition, rename_one thenArm, rename_one elseArm]
  | .whileLoop condition body => congrArg₂ Node.whileLoop (rename_one condition) (rename_one body)
  | .forLoop name direction start stop body => by
    rw [Node.rename, rename_one start, rename_one stop, rename_one body]
    rfl
  | .call callee args => congrArg (Node.call callee) (renameAll_one args)
  | .block nodes => congrArg Node.block (renameAll_one nodes)

theorem Node.renameAll_one : ∀ ns : List Node, Node.renameAll Naming.same.other ns = ns
  | [] => rfl
  | first :: rest => congrArg₂ List.cons (Node.rename_one first) (renameAll_one rest)

end

mutual

/-- Where all headings are allowed, any tree fits under the names it has. -/
theorem Node.fits_same : ∀ n : Node, n.Fits (fun _ _ => True) .same
  | .number _ | .constantDecl _ _ | .variableDecl _ | .exit | .forward _ => trivial
  | .ident name | .intrinsic _ name => Naming.clear_same name
  | .element name index => ⟨Naming.clear_same name, fits_same index⟩
  | .binary _ lhs rhs => ⟨fits_same lhs, fits_same rhs⟩
  | .conditional condition thenArm elseArm => ⟨fits_same condition, fits_same thenArm, fits_same elseArm⟩
  | .whileLoop condition body => ⟨fits_same condition, fits_same body⟩
  | .forLoop name _ start stop body => ⟨Naming.clear_same name, fits_same start, fits_same stop, fits_same body⟩
  | .subprogram _ body => ⟨trivial, allFit_same body⟩
  | .call _ nodes | .block nodes => allFit_same nodes

theorem Node.allFit_same : ∀ ns : List Node, Node.AllFit (fun _ _ => True) .same ns
  | [] => trivial
  | first :: rest => ⟨Node.fits_same first, allFit_same rest⟩

end

/-! ## 2. Single steps -/

/-- An operation that names neither a routine nor a block. -/
def Operation.IsPlain : Operation → Prop
  | .call _ _ | .phi _ => False
  | _ => True

namespace Emit

/-- The definition of a subprogram, given all of its routine but the end. -/
def routine {κ : Type} [Target κ] (p : Prototype) (value : Emit κ Register) : Emit κ Unit := do
  let routine ← claimRoutine p
  register p.name ⟨routine, p.params.length, true⟩
  within routine (resultNameOf p) (value >>= finish)

theorem subprogram_eq {κ : Type} [Target κ] (p : Prototype) (body : Emit κ (Option Register)) :
    Emit.subprogram p body = Emit.routine p (Emit.parameters 0 p.params >>= fun _ => Emit.valueOf body) := by
  unfold Emit.subprogram Emit.routine
  simp only [bind_assoc]

/-- What the single steps of two compilations keep up. `Goes w held m m'` says that the step `m'` goes along with `m`
in the surroundings `w`, which `naming` gives the other names of variables for and `there` the other places of
blocks, if the blocks `held` are among those that were added. -/
structure Tandem {κ κ' W : Type} [Target κ] [Target κ'] (Heading : String → List String → Prop)
    (naming : W → Naming) (there : W → BlockRef → BlockRef)
    (Goes : ∀ {α : Type}, W → Set BlockRef → Emit κ α → Emit κ' α → Prop) : Prop where
  pure : ∀ {α : Type} {w held} (a : α), Goes w held (Pure.pure a) (Pure.pure a)
  throw : ∀ {α : Type} {w held} (e : String → ScopeError) (name : String),
    Goes w held (throw (e name) : Emit κ α) (throw (e ((naming w).other name)))
  bind : ∀ {α β : Type} {w held} {m : Emit κ α} {m' : Emit κ' α} {k : α → Emit κ β} {k' : α → Emit κ' β},
    Goes w held m m' → (∀ a, Goes w held (k a) (k' a)) → Goes w held (m >>= k) (m' >>= k')
  define : ∀ {w held} (op : Operation), op.IsPlain → Goes w held (define op) (define op)
  store : ∀ {w held} (v a : Register), Goes w held (store v a) (store v a)
  jump : ∀ {w held} (p : BlockRef), Goes w held (terminate (.jump p)) (terminate (.jump (there w p)))
  branch : ∀ {w held} (c : Register) (p q : BlockRef),
    Goes w held (terminate (.branch c p q)) (terminate (.branch c (there w p) (there w q)))
  addBlock : ∀ {α : Type} {w held} {label : String} {k : BlockRef → Emit κ α} {k' : BlockRef → Emit κ' α},
    label ∈ labels → (∀ p, Goes w (insert p held) (k p) (k' (there w p))) →
    Goes w held (addBlock label >>= k) (addBlock label >>= k')
  here : ∀ {α : Type} {w held} {k : BlockRef → Emit κ α} {k' : BlockRef → Emit κ' α},
    (∀ p, Goes w held (k p) (k' (there w p))) → Goes w held (currentBlock >>= k) (currentBlock >>= k')
  moveTo : ∀ {w held} {p : BlockRef}, p ∈ held → Goes w held (moveTo p) (moveTo (there w p))
  merge : ∀ {w held} {p : BlockRef}, p ∈ held → ∀ (x y : Register) (q r : BlockRef),
    Goes w held (Emit.moveTo p >>= fun _ => Emit.define (.phi [(x, q), (y, r)]))
      (Emit.moveTo (there w p) >>= fun _ => Emit.define (.phi [(x, there w q), (y, there w r)]))
  resolve : ∀ {w held} {name : String}, (naming w).Clear name →
    Goes w held (resolve name) (resolve ((naming w).other name))
  holding : ∀ {w held} {body : Emit κ (Option Register)} {body' : Emit κ' (Option Register)} (name : String)
    (b : Binding), Goes w held body body' →
    Goes w held (holding name b body) (holding ((naming w).other name) b body')
  declareConstant : ∀ {w held} (name : String) (v : Word),
    Goes w held (declareConstant name v) (declareConstant name v)
  declare : ∀ {w held} (kind : SymbolKind) (name : String) (b : Binding),
    Goes w held (declare kind name b) (declare kind ((naming w).other name) b)
  call : ∀ {w held} {args : Emit κ (List Register)} {args' : Emit κ' (List Register)} (callee : String)
    (arity : Nat), Goes w held args args' → Goes w held (call callee arity args) (call callee arity args')
  resultValue : ∀ {w held}, Goes w held resultValue resultValue
  leave : ∀ {w held} (v : Register), Goes w held (leave v) (leave v)
  forward : ∀ {w held} {p : Prototype}, Heading p.name p.params → Goes w held (forward p) (forward p)
  routine : ∀ {w held} {p : Prototype} {m : Emit κ Register} {m' : Emit κ' Register},
    Heading p.name p.params → (∀ w' held', naming w' = .same → Goes w' held' m m') →
    Goes w held (routine p m) (routine p m')

namespace Tandem

variable {κ κ' W : Type} [Target κ] [Target κ'] {Heading : String → List String → Prop} {naming : W → Naming}
  {there : W → BlockRef → BlockRef} {Goes : ∀ {α : Type}, W → Set BlockRef → Emit κ α → Emit κ' α → Prop}
  (T : Tandem Heading naming there Goes) {w : W} {held : Set BlockRef}

include T

theorem map {α β : Type} {m : Emit κ α} {m' : Emit κ' α} (h : Goes w held m m') (f : α → β) :
    Goes w held (f <$> m) (f <$> m') := by
  rw [← bind_pure_comp, ← bind_pure_comp]
  exact T.bind h fun a => T.pure (f a)

theorem const (v : Word) : Goes w held (Emit.const v) (Emit.const v) := T.define _ trivial

theorem load (slot : Register) : Goes w held (Emit.define (.load slot)) (Emit.define (.load slot)) :=
  T.define _ trivial

theorem valueOf {m : Emit κ (Option Register)} {m' : Emit κ' (Option Register)} (h : Goes w held m m') :
    Goes w held (Emit.valueOf m) (Emit.valueOf m') :=
  T.bind h fun x => by
    cases x with
    | some v => exact T.pure v
    | none => exact T.const 0

theorem booleanize (v : Register) : Goes w held (Emit.booleanize v) (Emit.booleanize v) :=
  T.bind (T.const 0) fun _ => T.define _ trivial

/-! ## 3. Names -/

section

variable {name : String} (hname : (naming w).Clear name)

include hname

theorem scalarSlot : Goes w held (Emit.scalarSlot name) (Emit.scalarSlot ((naming w).other name)) :=
  T.bind (T.resolve hname) fun x => by
    rcases x with ⟨_, _ | _⟩ | _
    · exact T.pure _
    · exact T.throw .missingIndex name
    · exact T.throw .assignToConstant name

theorem elementSlot {i : Emit κ Register} {i' : Emit κ' Register} (h : Goes w held i i') :
    Goes w held (Emit.elementSlot name i) (Emit.elementSlot ((naming w).other name) i') :=
  T.bind (T.resolve hname) fun x => by
    rcases x with ⟨_, _ | _⟩ | _
    · exact T.throw .notAnArray name
    · exact T.bind h fun _ => T.define _ trivial
    · exact T.throw .notAnArray name

theorem readName : Goes w held (Emit.readName name) (Emit.readName ((naming w).other name)) :=
  T.bind (T.resolve hname) fun x => by
    rcases x with ⟨_, _ | _⟩ | _
    · exact T.load _
    · exact T.throw .missingIndex name
    · exact T.const _

theorem loopVariable : Goes w held (Emit.loopVariable name) (Emit.loopVariable ((naming w).other name)) :=
  T.bind (T.resolve hname) fun x => by
    rcases x with ⟨_, _ | _⟩ | _
    · exact T.pure _
    · exact T.throw .invalidLoopVariable name
    · exact T.throw .invalidLoopVariable name

end

theorem declareVariable (d : VariableDecl) : Goes w held (Emit.declareVariable d)
    (Emit.declareVariable { d with name := (naming w).other d.name }) := by
  unfold Emit.declareVariable
  rw [show VariableDecl.isArray { d with name := (naming w).other d.name } = d.isArray from rfl]
  split
  · exact T.bind (T.define _ trivial) fun _ => T.bind (T.const _) fun _ => T.bind (T.define _ trivial) fun _ =>
      T.declare _ _ _
  · exact T.bind (T.define _ trivial) fun _ => T.declare _ _ _

/-- Parameters keep their names. -/
theorem parameters (w : W) (held : Set BlockRef) (index : Nat) {names : List String}
    (hnames : ∀ name ∈ names, (naming w).other name = name) :
    Goes w held (Emit.parameters index names) (Emit.parameters index names) := by
  induction names generalizing index with
  | nil => exact T.pure _
  | cons name names ih =>
    rw [List.forall_mem_cons] at hnames
    refine T.bind (T.define _ trivial) fun slot => T.bind (T.define _ trivial) fun _ => T.bind (T.store _ _) fun _ =>
      T.bind ?_ fun _ => ih _ hnames.2
    have hdeclare : Goes w held _ _ := T.declare .parameter name ⟨slot, .scalar⟩
    rwa [hnames.1] at hdeclare

/-! ## 4. Expressions and statements -/

theorem combine (op : BinaryOperator) (l r : Register) : Goes w held (Emit.combine op l r) (Emit.combine op l r) := by
  have hlogical : ∀ a, Goes w held (Emit.combine.logical l r a) (Emit.combine.logical l r a) :=
    fun a => T.bind (T.booleanize l) fun _ => T.bind (T.booleanize r) fun _ => T.define _ trivial
  cases op with
  | and => exact hlogical _
  | or => exact hlogical _
  | assign => exact T.throw (fun _ => .invalidAssignmentTarget) ""
  | add | sub | mul | div | mod | lt | le | gt | ge | eq | ne => exact T.define _ trivial

section

variable {m₁ m₂ m₃ : Emit κ Register} {m₁' m₂' m₃' : Emit κ' Register}
  {body : Emit κ (Option Register)} {body' : Emit κ' (Option Register)}

theorem assignment (h₁ : Goes w held m₁ m₁') (h₂ : Goes w held m₂ m₂') :
    Goes w held (Emit.assignment m₁ m₂) (Emit.assignment m₁' m₂') :=
  T.bind h₁ fun _ => T.bind h₂ fun _ => T.bind (T.store _ _) fun _ => T.pure _

theorem binary (op : BinaryOperator) (h₁ : Goes w held m₁ m₁') (h₂ : Goes w held m₂ m₂') :
    Goes w held (Emit.binary op m₁ m₂) (Emit.binary op m₁' m₂') :=
  T.bind h₁ fun _ => T.bind h₂ fun _ => T.combine _ _ _

theorem conditional (h₁ : ∀ held, Goes w held m₁ m₁') (h₂ : ∀ held, Goes w held m₂ m₂')
    (h₃ : ∀ held, Goes w held m₃ m₃') : Goes w held (Emit.conditional m₁ m₂ m₃) (Emit.conditional m₁' m₂' m₃') :=
  T.bind (h₁ _) fun _ => T.bind (T.booleanize _) fun _ => T.addBlock (by decide) fun _ =>
    T.addBlock (by decide) fun _ => T.addBlock (by decide) fun _ => T.bind (T.branch _ _ _) fun _ =>
    T.bind (T.moveTo (by simp)) fun _ => T.bind (h₂ _) fun _ => T.here fun _ => T.bind (T.jump _) fun _ =>
    T.bind (T.moveTo (by simp)) fun _ => T.bind (h₃ _) fun _ => T.here fun _ => T.bind (T.jump _) fun _ =>
    T.merge (by simp) _ _ _ _

theorem whileLoop (h₁ : ∀ held, Goes w held m₁ m₁') (hbody : ∀ held, Goes w held body body') :
    Goes w held (Emit.whileLoop m₁ body) (Emit.whileLoop m₁' body') :=
  T.addBlock (by decide) fun _ => T.addBlock (by decide) fun _ => T.addBlock (by decide) fun _ =>
    T.bind (T.jump _) fun _ => T.bind (T.moveTo (by simp)) fun _ => T.bind (h₁ _) fun _ =>
    T.bind (T.booleanize _) fun _ => T.bind (T.branch _ _ _) fun _ => T.bind (T.moveTo (by simp)) fun _ =>
    T.bind (hbody _) fun _ => T.bind (T.jump _) fun _ => T.bind (T.moveTo (by simp)) fun _ => T.const 0

theorem forLoop {name : String} (hname : (naming w).Clear name) (dir : Direction)
    (h₁ : Goes w held m₁ m₁') (h₂ : Goes w held m₂ m₂') (hbody : ∀ held, Goes w held body body') :
    Goes w held (Emit.forLoop name dir m₁ m₂ body) (Emit.forLoop ((naming w).other name) dir m₁' m₂' body') :=
  T.bind (T.loopVariable hname) fun _ => T.bind h₁ fun _ => T.bind (T.store _ _) fun _ => T.bind h₂ fun _ =>
    T.bind (T.const _) fun _ => T.addBlock (by decide) fun _ => T.addBlock (by decide) fun _ =>
    T.addBlock (by decide) fun _ => T.bind (T.jump _) fun _ => T.bind (T.moveTo (by simp)) fun _ =>
    T.bind (T.load _) fun _ => T.bind (T.define _ trivial) fun _ => T.bind (T.branch _ _ _) fun _ =>
    T.bind (T.moveTo (by simp)) fun _ => T.bind (T.holding _ _ (hbody _)) fun _ => T.bind (T.load _) fun _ =>
    T.bind (T.define _ trivial) fun _ => T.bind (T.store _ _) fun _ => T.bind (T.define _ trivial) fun _ =>
    T.bind (T.branch _ _ _) fun _ => T.bind (T.moveTo (by simp)) fun _ => T.const 0

theorem intrinsic (which : Intrinsic) {name : String} (hname : (naming w).Clear name) :
    Goes w held (Emit.intrinsic which name) (Emit.intrinsic which ((naming w).other name)) :=
  T.bind (T.scalarSlot hname) fun _ => T.define _ trivial

theorem exit : Goes w held Emit.exit Emit.exit :=
  T.bind T.resultValue fun _ => T.bind (T.leave _) fun _ => T.addBlock (by decide) fun _ =>
    T.bind (T.moveTo (by simp)) fun _ => T.const 0

/-- The variables of a subprogram keep their names. -/
theorem subprogram {p : Prototype} (hp : Heading p.name p.params)
    (hbody : ∀ w' held', naming w' = .same → Goes w' held' body body') :
    Goes w held (Emit.subprogram p body) (Emit.subprogram p body') := by
  rw [Emit.subprogram_eq, Emit.subprogram_eq]
  refine T.routine hp fun w' held' hw' => T.bind (T.parameters w' held' 0 fun name _ => ?_) fun _ =>
    T.valueOf (hbody w' held' hw')
  rw [hw']
  rfl

end

/-! ## 5. Trees -/

mutual

theorem node : ∀ (n : Node) (w : W) (held : Set BlockRef), n.Fits Heading (naming w) →
    Goes w held (Emit.node n) (Emit.node (n.rename (naming w).other))
  | .number _, _, _, _ => T.map (T.const _) some
  | .constantDecl _ _, _, _, _ => T.bind (T.declareConstant _ _) fun _ => T.pure _
  | .variableDecl d, _, _, _ => T.bind (T.declareVariable d) fun _ => T.pure _
  | .ident _, _, _, h => T.map (T.readName h) some
  | .element _ index, w, held, h => T.bind (T.elementSlot h.1 (T.valueOf (node index w held h.2))) fun _ =>
      T.map (T.load _) some
  | .binary op lhs rhs, w, held, h => by
    rw [Node.rename]
    unfold Emit.node
    split
    · exact T.map (T.assignment (T.valueOf (node rhs w held h.2)) (target lhs w held h.1)) some
    · exact T.map (T.binary _ (T.valueOf (node lhs w held h.1)) (T.valueOf (node rhs w held h.2))) some
  | .conditional condition thenArm elseArm, w, _, h =>
    T.map (T.conditional (fun held => T.valueOf (node condition w held h.1))
      (fun held => T.valueOf (node thenArm w held h.2.1)) fun held => T.valueOf (node elseArm w held h.2.2)) some
  | .whileLoop condition body, w, _, h =>
    T.map (T.whileLoop (fun held => T.valueOf (node condition w held h.1)) fun held => node body w held h.2) some
  | .forLoop _ dir start stop body, w, held, h =>
    T.map (T.forLoop h.1 dir (T.valueOf (node start w held h.2.1)) (T.valueOf (node stop w held h.2.2.1))
      fun held => node body w held h.2.2.2) some
  | .call callee args, w, held, h => by
    rw [Node.rename]
    unfold Emit.node
    rw [Node.length_renameAll]
    exact T.map (T.call callee _ (arguments args w held h)) some
  | .intrinsic which _, _, _, h => T.map (T.intrinsic which h) some
  | .exit, _, _, _ => T.map T.exit some
  | .forward _, _, _, h => T.bind (T.forward h) fun _ => T.pure _
  | .subprogram p body, _, _, h => by
    refine T.bind (T.subprogram h.1 fun w' held' hw' => ?_) fun _ => T.pure _
    have hbody := sequence body w' held' none (by rw [hw']; exact h.2)
    rwa [hw', Node.renameAll_one] at hbody
  | .block nodes, w, held, h => sequence nodes w held none h

theorem target : ∀ (n : Node) (w : W) (held : Set BlockRef), n.Fits Heading (naming w) →
    Goes w held (Emit.target n) (Emit.target (n.rename (naming w).other))
  | .ident _, _, _, h => T.scalarSlot h
  | .element _ index, w, held, h => T.elementSlot h.1 (T.valueOf (node index w held h.2))
  | .number _, _, _, _ | .constantDecl _ _, _, _, _ | .variableDecl _, _, _, _ | .binary _ _ _, _, _, _
  | .conditional _ _ _, _, _, _ | .whileLoop _ _, _, _, _ | .forLoop _ _ _ _ _, _, _, _ | .call _ _, _, _, _
  | .intrinsic _ _, _, _, _ | .exit, _, _, _ | .forward _, _, _, _ | .subprogram _ _, _, _, _ | .block _, _, _, _ =>
    T.throw (fun _ => .invalidAssignmentTarget) ""

theorem sequence : ∀ (ns : List Node) (w : W) (held : Set BlockRef) (last : Option Register),
    Node.AllFit Heading (naming w) ns →
    Goes w held (Emit.sequence last ns) (Emit.sequence last (Node.renameAll (naming w).other ns))
  | [], _, _, _, _ => T.pure _
  | first :: rest, w, held, _, h => T.bind (node first w held h.1) fun value => sequence rest w held value h.2

theorem arguments : ∀ (ns : List Node) (w : W) (held : Set BlockRef), Node.AllFit Heading (naming w) ns →
    Goes w held (Emit.arguments ns) (Emit.arguments (Node.renameAll (naming w).other ns))
  | [], _, _, _ => T.pure _
  | first :: rest, w, held, h => T.bind (T.valueOf (node first w held h.1)) fun _ =>
      T.bind (arguments rest w held h.2) fun _ => T.pure _

end

/-- Under the names it has, a tree goes along with itself. -/
theorem node_same {n : Node} (h : n.Fits Heading .same) {w : W} (hw : naming w = .same) (held : Set BlockRef) :
    Goes w held (Emit.node n) (Emit.node n) := by
  have hn := T.node n w held (by rw [hw]; exact h)
  rwa [hw, Node.rename_one] at hn

theorem sequence_same {ns : List Node} (h : Node.AllFit Heading .same ns) (last : Option Register) {w : W}
    (hw : naming w = .same) (held : Set BlockRef) : Goes w held (Emit.sequence last ns) (Emit.sequence last ns) := by
  have hns := T.sequence ns w held last (by rw [hw]; exact h)
  rwa [hw, Node.renameAll_one] at hns

end Tandem

end Emit

end Mila
