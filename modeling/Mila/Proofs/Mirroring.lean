import Mila.Proofs.Activations
import Mila.Proofs.Tandem

/-! # Compiling under other names

The names of the variables of a subprogram only serve to look the variables up. When all of them are exchanged by a
permutation, in the table of variables and in the tree, then a compilation that succeeds goes the same way: it
makes the same requests to its target, and they are of a few kinds only. What these requests keep up is kept up by
the compilation.
-/

namespace Mila

/-! ## 1. Requests -/

/-- What holds of a target is kept up, whatever a compilation asks for: routines with headings that are allowed,
blocks with one of the labels, instructions and exits. -/
structure Target.Upholds {κ : Type} [Target κ] (Heading : String → List String → Prop) (I : κ → Prop) : Prop where
  addRoutine : ∀ k name params, Heading name params → I k → I (Target.addRoutine k name params).2
  addBlock : ∀ k routine label, label ∈ Emit.labels → I k → I (Target.addBlock k routine label).2
  define : ∀ k place op, I k → I (Target.define k place op).2
  store : ∀ k place value address, I k → I (Target.store k place value address)
  terminate : ∀ k place e, I k → I (Target.terminate k place e)

theorem Target.Upholds.openRoutine {κ : Type} [Target κ] {Heading : String → List String → Prop} {I : κ → Prop}
    (hI : Target.Upholds Heading I) {k : κ} (hk : I k) (routine : Nat) (result : Option String) :
    I (Emit.openRoutine k routine result).2 :=
  hI.addBlock _ _ _ (by decide) (hI.addBlock _ _ _ (by decide) hk)

/-! ## 2. Other names -/

namespace Naming

/-- With one more variable that is declared. -/
def bind (N : Naming) (name : String) : Naming := { N with bound := insert name N.bound }

/-- The second table has the variables of the first one, under their other names. -/
structure Links (N : Naming) (result : Option String) (l l' : Locals) : Prop where
  result : ∀ name ∈ result, N.other name = name
  names : ∀ name, l'.get? (N.other name) = l.get? name
  bound : ∀ name ∈ N.bound, (l.get? name).isSome

end Naming

theorem Locals.get?_insert (l : Locals) (name other : String) (b : Binding) :
    (Locals.mk (l.bindings.insert name b)).get? other = if other = name then some b else l.get? other :=
  NameTable.getElem?_insert _ _ _ _

theorem Locals.get?_erase (l : Locals) (name other : String) :
    (Locals.mk (l.bindings.erase name)).get? other = if other = name then none else l.get? other := by
  unfold get?
  rw [Std.TreeMap.getElem?_erase]
  by_cases h : other = name
  · rw [if_pos h, if_pos (by rw [h]; exact Std.ReflCmp.compare_self)]
  · rw [if_neg h, if_neg (fun he => h (Std.LawfulEqCmp.eq_of_compare he).symm)]

namespace Naming.Links

variable {N : Naming} {result : Option String} {l l' : Locals}

theorem empty (hresult : ∀ name ∈ result, N.other name = name) (hbound : N.bound = ∅) :
    N.Links result .empty .empty where
  result := hresult
  names name := (Std.TreeMap.getElem?_emptyc).trans (Std.TreeMap.getElem?_emptyc).symm
  bound name hname := by
    rw [hbound] at hname
    exact hname.elim

/-- A variable that is entered under both names. -/
theorem insert (h : N.Links result l l') (name : String) (b : Binding) :
    N.Links result ⟨l.bindings.insert name b⟩ ⟨l'.bindings.insert (N.other name) b⟩ where
  result := h.result
  names other := by
    rw [Locals.get?_insert, Locals.get?_insert, h.names]
    simp only [EmbeddingLike.apply_eq_iff_eq]
  bound other hother := by
    rw [Locals.get?_insert]
    split
    · rfl
    · exact h.bound other hother

variable {name : String}

theorem bind (h : N.Links result l l') (hname : (l.get? name).isSome) : (N.bind name).Links result l l' where
  result := h.result
  names := h.names
  bound other hother := by
    rcases hother with rfl | hother
    · exact hname
    · exact h.bound other hother

/-- A variable that is removed under both names, if it is not one that has to stay. -/
theorem erase (h : N.Links result l l') (hname : name ∉ N.bound) :
    N.Links result ⟨l.bindings.erase name⟩ ⟨l'.bindings.erase (N.other name)⟩ where
  result := h.result
  names other := by
    rw [Locals.get?_erase, Locals.get?_erase, h.names]
    simp only [EmbeddingLike.apply_eq_iff_eq]
  bound other hother := by
    rw [Locals.get?_erase, if_neg]
    · exact h.bound other hother
    · rintro rfl
      exact hname hother

/-- A variable that gets the binding back that it had, under both names. -/
theorem restore (h : N.Links result l l') {saved : Option Binding} (hsaved : name ∈ N.bound → saved.isSome) :
    N.Links result (l.restore name saved) (l'.restore (N.other name) saved) := by
  cases saved with
  | some b => exact h.insert name b
  | none => exact h.erase fun hname => Bool.false_ne_true (hsaved hname)

end Naming.Links

/-! ## 3. Compilations that go the same way -/

section

variable {κ : Type}

/-- The same compilation with another table of variables. -/
def Compilation.withLocals (s : Compilation κ) (locals : Locals) : Compilation κ :=
  { s with frame := { s.frame with locals } }

/-- The state of a compilation, and a table with the other names of its variables. -/
structure Naming.Suits (N : Naming) (I : κ → Prop) (s : Compilation κ) (l : Locals) : Prop where
  upheld : I s.code
  links : N.Links s.frame.resultName s.frame.locals l

/-- If the first step succeeds, then the second one does so under the other names, and yields the same. -/
def Mirrors {α : Type} (I : κ → Prop) (N N' : Naming) (m m' : Emit κ α) : Prop :=
  ∀ s l a t, N.Suits I s l → m s = .ok a t → ∃ l', m' (s.withLocals l) = .ok a (t.withLocals l') ∧ N'.Suits I t l'

end

namespace Mirrors

variable {κ : Type} {α β : Type} {I : κ → Prop} {N N₁ N' : Naming}

theorem pure (a : α) : Mirrors I N N (Pure.pure a : Emit κ α) (Pure.pure a) := by
  intro s l b t h hrun
  cases hrun
  exact ⟨l, rfl, h⟩

/-- What fails need not be followed. -/
theorem throw (e : ScopeError) (m : Emit κ α) : Mirrors I N N' (throw e) m := by
  intro s l a t h hrun
  cases hrun

theorem throws (e : ScopeError) (k : α → Emit κ β) (m : Emit κ β) : Mirrors I N N' (MonadExcept.throw e >>= k) m := by
  intro s l a t h hrun
  cases hrun

variable {m m' : Emit κ α} {name : String}

theorem bind {k k' : α → Emit κ β} (hm : Mirrors I N N₁ m m')
    (hk : ∀ a, Mirrors I N₁ N' (k a) (k' a)) : Mirrors I N N' (m >>= k) (m' >>= k') := by
  intro s l b u h hrun
  change EStateM.bind m k s = .ok b u at hrun
  unfold EStateM.bind at hrun
  cases hfirst : m s with
  | ok a t =>
    rw [hfirst] at hrun
    obtain ⟨l₁, hfirst', h₁⟩ := hm s l a t h hfirst
    obtain ⟨l₂, hsecond, h₂⟩ := hk a t l₁ b u h₁ hrun
    refine ⟨l₂, ?_, h₂⟩
    change EStateM.bind m' k' (s.withLocals l) = _
    unfold EStateM.bind
    rw [hfirst']
    exact hsecond
  | error e t =>
    rw [hfirst] at hrun
    cases hrun

/-- What is declared may be left aside. -/
theorem forget (h : Mirrors I N (N.bind name) m m') : Mirrors I N N m m' := by
  intro s l a t hs hrun
  obtain ⟨l', hrun', hupheld, hresult, hnames, hbound⟩ := h s l a t hs hrun
  exact ⟨l', hrun', hupheld, hresult, hnames, fun other hother => hbound other (Set.mem_insert_of_mem _ hother)⟩

theorem get {k k' : Compilation κ → Emit κ β}
    (hk : ∀ s l, N.Suits I s l → Mirrors I N N' (k s) (k' (s.withLocals l))) :
    Mirrors I N N' (get >>= k) (get >>= k') := fun s l b t h hrun => hk s l h s l b t h hrun

/-- Both change their states, and yield the same. -/
theorem yield {f f' : Compilation κ → α × Compilation κ} {g : Compilation κ → Locals → Locals}
    (h : ∀ s l, N.Suits I s l → f' (s.withLocals l) = ((f s).1, (f s).2.withLocals (g s l)) ∧
      N'.Suits I (f s).2 (g s l)) : Mirrors I N N' (modifyGet f) (modifyGet f') := by
  intro s l a t hs hrun
  obtain ⟨hsecond, hsuits⟩ := h s l hs
  cases hrun
  refine ⟨g s l, ?_, hsuits⟩
  change EStateM.modifyGet f' (s.withLocals l) = _
  unfold EStateM.modifyGet
  rw [hsecond]

/-- A change of anything but the table of variables. -/
theorem update {f : Compilation κ → Compilation κ} (h : ∀ s l, N.Suits I s l →
      f (s.withLocals l) = (f s).withLocals l ∧ N'.Suits I (f s) l) :
    Mirrors I N N' (modify f : Emit κ PUnit) (modify f) :=
  yield (g := fun _ l => l) fun s l hs => ⟨congrArg (Prod.mk PUnit.unit) (h s l hs).1, (h s l hs).2⟩

/-! ## 4. Names -/

theorem moveTo (place : BlockRef) : Mirrors I N N (Emit.moveTo place) (Emit.moveTo place) :=
  update fun _ _ h => ⟨rfl, ⟨h.upheld, h.links⟩⟩

theorem currentBlock : Mirrors I N N Emit.currentBlock Emit.currentBlock := get fun _ _ _ => pure _

/-- A variable is found under its other name, and a constant under its own. -/
theorem resolve (hname : N.Clear name) : Mirrors I N N (Emit.resolve name) (Emit.resolve (N.other name)) :=
  get fun s l h => by
    have hlocal := h.links.names name
    dsimp only [Compilation.withLocals]
    rw [hlocal]
    cases hfound : s.frame.locals.get? name with
    | some b => exact pure _
    | none =>
      -- a name that is no variable may stand for a constant, and is not exchanged then
      have hsame : N.other name = name := by
        refine hname.resolve_right fun hbound => ?_
        have := h.links.bound name hbound
        rw [hfound] at this
        cases this
      rw [hsame]
      cases s.globals.constant? name with
      | some w => exact pure _
      | none => exact throw _ _

theorem declareConstant (name : String) (w : Word) :
    Mirrors I N N (Emit.declareConstant name w) (Emit.declareConstant name w) :=
  get fun s l _ => by
    dsimp only [Compilation.withLocals]
    cases s.globals.defineConstant? name w with
    | some globals => exact update fun _ _ h => ⟨rfl, ⟨h.upheld, h.links⟩⟩
    | none => exact throw _ _

theorem declare (kind : SymbolKind) (name : String) (b : Binding) :
    Mirrors I N (N.bind name) (Emit.declare kind name b) (Emit.declare kind (N.other name) b) :=
  get fun s l h => by
    dsimp only [Compilation.withLocals, Locals.declare?]
    rw [h.links.names]
    cases s.frame.locals.get? name with
    | some b' => exact throw _ _
    | none =>
      have hlinks := (h.links.insert name b).bind (by rw [Locals.get?_insert, if_pos rfl]; rfl)
      exact yield (g := fun _ _ => ⟨l.bindings.insert (N.other name) b⟩) fun _ _ h' =>
        ⟨rfl, h'.upheld, h'.links.result, hlinks.names, hlinks.bound⟩

/-- A loop variable is held under both names. -/
theorem holding (name : String) (b : Binding) {body body' : Emit κ (Option Register)} (h : Mirrors I N N body body') :
    Mirrors I N N (Emit.holding name b body) (Emit.holding (N.other name) b body') := by
  intro s l a t hs hrun
  -- the binding is put back that the variable had in front of the loop, and that is known on both sides
  have hrest : Mirrors I N N
      (body >>= fun _ => modify fun t => t.withLocals (t.frame.locals.restore name (s.frame.locals.get? name)))
      (body' >>= fun _ => modify fun t =>
        t.withLocals (t.frame.locals.restore (N.other name) (s.frame.locals.get? name))) :=
    bind h fun _ => yield (g := fun _ l => l.restore (N.other name) (s.frame.locals.get? name)) fun _ _ h' =>
      ⟨rfl, h'.upheld, h'.links.restore (hs.links.bound name)⟩
  obtain ⟨l', hrun', hs'⟩ := hrest (s.withLocals (s.frame.locals.shadow name b).2) (l.shadow (N.other name) b).2 a t
    ⟨hs.upheld, hs.links.insert name b⟩ hrun
  rw [← hs.links.names name] at hrun'
  exact ⟨l', hrun', hs'⟩

/-- A subprogram in the midst of another one, which goes on where it was. -/
theorem within [Target κ] {Heading : String → List String → Prop} (hI : Target.Upholds Heading I) (routine : Nat)
    {result : Option String} (hresult : ∀ name ∈ result, N₁.other name = name) (hbound : N₁.bound = ∅)
    {body body' : Emit κ Unit} (h : Mirrors I N₁ N' body body') :
    Mirrors I N N (Emit.within routine result body) (Emit.within routine result body') := by
  intro s l a t hs hrun
  -- the new routine starts without variables, under whichever names
  have hopened : N₁.Suits I { s with
      frame := (Emit.openRoutine s.code routine result).1, code := (Emit.openRoutine s.code routine result).2 }
      .empty := ⟨hI.openRoutine hs.upheld routine result, .empty hresult hbound⟩
  have hrest : Mirrors I N₁ N (body >>= fun _ => modify fun s' => { s' with frame := s.frame })
      (body' >>= fun _ => modify fun s' => { s' with frame := (s.withLocals l).frame }) :=
    bind h fun _ => yield (g := fun _ _ => l) fun _ _ h' => ⟨rfl, h'.upheld, hs.links⟩
  exact hrest _ _ a t hopened hrun

end Mirrors

/-! ## 5. Steps -/

theorem Naming.Suits.emit {κ : Type} {I : κ → Prop} {N : Naming} {s : Compilation κ} {l : Locals}
    (h : N.Suits I s l) {k : κ} (hk : I k) : N.Suits I { s with code := k } l := ⟨hk, h.links⟩

namespace Mirrors

variable {κ : Type} [Target κ] {Heading : String → List String → Prop} {I : κ → Prop} {N N₁ N' : Naming}

section

variable (hI : Target.Upholds Heading I)

include hI

theorem define (op : Operation) : Mirrors I N N (Emit.define op) (Emit.define op) :=
  yield (g := fun _ l => l) fun _ _ h => ⟨rfl, h.emit (hI.define _ _ _ h.upheld)⟩

theorem const (w : Word) : Mirrors I N N (Emit.const w) (Emit.const w) := define hI _

theorem store (v a : Register) : Mirrors I N N (Emit.store v a) (Emit.store v a) :=
  update fun _ _ h => ⟨rfl, h.emit (hI.store _ _ _ _ h.upheld)⟩

theorem terminate (e : Exit) : Mirrors I N N (Emit.terminate e) (Emit.terminate e) :=
  update fun _ _ h => ⟨rfl, h.emit (hI.terminate _ _ _ h.upheld)⟩

theorem addBlock {label : String} (hlabel : label ∈ Emit.labels) :
    Mirrors I N N (Emit.addBlock label) (Emit.addBlock label) :=
  yield (g := fun _ l => l) fun _ _ h => ⟨rfl, h.emit (hI.addBlock _ _ _ hlabel h.upheld)⟩

theorem valueOf {m m' : Emit κ (Option Register)} (h : Mirrors I N N' m m') :
    Mirrors I N N' (Emit.valueOf m) (Emit.valueOf m') :=
  bind h fun x => by
    cases x with
    | some v => exact pure v
    | none => exact const hI 0

/-- A variable that is declared is known to be from then on. -/
theorem declareVariable (d : VariableDecl) : Mirrors I N (N.bind d.name) (Emit.declareVariable d)
    (Emit.declareVariable { d with name := N.other d.name }) := by
  unfold Emit.declareVariable
  rw [show VariableDecl.isArray { d with name := N.other d.name } = d.isArray from rfl]
  split
  · exact bind (define hI _) fun _ => bind (const hI _) fun _ => bind (define hI _) fun _ => declare _ _ _
  · exact bind (define hI _) fun _ => declare _ _ _

/-! ## 6. Expressions and statements -/

theorem call (callee : String) (arity : Nat) {args args' : Emit κ (List Register)} (h : Mirrors I N N args args') :
    Mirrors I N N (Emit.call callee arity args) (Emit.call callee arity args') :=
  get fun s l _ => by
    dsimp only [Compilation.withLocals]
    cases s.globals.subprogram? callee with
    | none => exact throw _ _
    | some entry =>
      dsimp only
      split
      · exact bind (throw _ _) fun _ => bind h fun _ => define hI _
      · exact bind h fun _ => define hI _

theorem resultValue : Mirrors I N N Emit.resultValue Emit.resultValue :=
  get fun s l h => by
    have hfound : s.frame.resultName.bind l.get? = s.frame.resultName.bind s.frame.locals.get? := by
      cases hresult : s.frame.resultName with
      | none => rfl
      | some name =>
        have hsame := h.links.names name
        rw [h.links.result name hresult] at hsame
        exact hsame
    dsimp only [Compilation.withLocals]
    rw [hfound]
    cases s.frame.resultName.bind s.frame.locals.get? with
    | some b => exact define hI _
    | none => exact const hI 0

theorem leave (v : Register) : Mirrors I N N (Emit.leave v) (Emit.leave v) :=
  get fun _ _ _ => bind (update fun _ _ h => ⟨rfl, ⟨h.upheld, h.links⟩⟩) fun _ => terminate hI _

/-! ## 7. Subprograms -/

theorem finish (v : Register) : Mirrors I N N (Emit.finish v) (Emit.finish v) :=
  bind (leave hI v) fun _ => get fun s _ _ => by
    refine bind (moveTo _) fun _ => ?_
    dsimp only [Compilation.withLocals]
    rcases s.frame.returns with _ | ⟨⟨_, _⟩, _ | ⟨_, _⟩⟩
    · exact bind (define hI _) fun _ => terminate hI _
    · exact terminate hI _
    · exact bind (define hI _) fun _ => terminate hI _

omit hI [Target κ] in
theorem register (name : String) (entry : Subprogram) :
    Mirrors I N N (Emit.register name entry) (Emit.register name entry) :=
  update fun _ _ h => ⟨rfl, ⟨h.upheld, h.links⟩⟩

variable {p : Prototype}

theorem addRoutine (hp : Heading p.name p.params) : Mirrors I N N (Emit.addRoutine p) (Emit.addRoutine p) :=
  yield (g := fun _ l => l) fun _ _ h => ⟨rfl, h.emit (hI.addRoutine _ _ _ hp h.upheld)⟩

theorem forward (hp : Heading p.name p.params) : Mirrors I N N (Emit.forward p) (Emit.forward p) :=
  get fun s _ _ => by
    dsimp only [Compilation.withLocals]
    cases s.globals.subprogram? p.name with
    | none => exact bind (addRoutine hI hp) fun _ => register _ _
    | some entry =>
      dsimp only
      split
      · exact throw _ _
      · exact pure _

theorem claimRoutine (hp : Heading p.name p.params) : Mirrors I N N (Emit.claimRoutine p) (Emit.claimRoutine p) :=
  get fun s _ _ => by
    dsimp only [Compilation.withLocals]
    cases s.globals.subprogram? p.name with
    | none => exact addRoutine hI hp
    | some entry =>
      dsimp only
      split
      · exact throws _ _ _
      · split
        · exact throws _ _ _
        · exact pure _

/-- The variables of a subprogram may have other names than those of the routine at hand. -/
theorem routine (hp : Heading p.name p.params) (hbound : N₁.bound = ∅)
    (hresult : ∀ name ∈ Emit.resultNameOf p, N₁.other name = name) {value value' : Emit κ Register}
    (hvalue : Mirrors I N₁ N' value value') : Mirrors I N N (Emit.routine p value) (Emit.routine p value') :=
  bind (claimRoutine hI hp) fun _ => bind (register _ _) fun _ => within hI _ hresult hbound <|
    bind hvalue fun _ => finish hI _

theorem tandem : Emit.Tandem Heading (fun N : Naming => N) (fun _ place => place)
    (fun N _ m m' => Mirrors I N N m m') where
  pure := pure
  throw _ _ := throw _ _
  bind := bind
  define op _ := define hI op
  store := store hI
  jump _ := terminate hI _
  branch _ _ _ := terminate hI _
  addBlock hlabel hk := bind (addBlock hI hlabel) hk
  here hk := bind currentBlock hk
  moveTo _ := moveTo _
  merge _ _ _ _ _ := bind (moveTo _) fun _ => define hI _
  resolve := resolve
  holding name b h := holding name b h
  declareConstant := declareConstant
  declare kind name b := (declare kind name b).forget
  call callee arity h := call hI callee arity h
  resultValue := resultValue hI
  leave := leave hI
  forward := forward hI
  routine hp h := routine hI hp rfl (fun _ _ => rfl) (h .same ∅ rfl)

theorem subprogram (hp : Heading p.name p.params) (hbound : N₁.bound = ∅)
    (hparams : ∀ name ∈ p.params, N₁.other name = name) (hresult : ∀ name ∈ Emit.resultNameOf p, N₁.other name = name)
    {body body' : Emit κ (Option Register)} (hbody : Mirrors I N₁ N' body body') :
    Mirrors I N N (Emit.subprogram p body) (Emit.subprogram p body') := by
  rw [Emit.subprogram_eq, Emit.subprogram_eq]
  exact routine hI hp hbound hresult (bind ((tandem hI).parameters N₁ ∅ 0 hparams) fun _ => valueOf hI hbody)

end

end Mirrors

/-! ## 8. Trees -/

mutual

/-- A name is that of a variable which a tree declares or looks up. -/
def Node.involves (name : String) : Node → Bool
  | .variableDecl d => d.name == name
  | .ident x => x == name
  | .element x index => x == name || index.involves name
  | .binary _ lhs rhs => lhs.involves name || rhs.involves name
  | .conditional condition thenArm elseArm =>
    condition.involves name || thenArm.involves name || elseArm.involves name
  | .whileLoop condition body => condition.involves name || body.involves name
  | .forLoop x _ start stop body =>
    x == name || start.involves name || stop.involves name || body.involves name
  | .call _ args => anyInvolves name args
  | .intrinsic _ x => x == name
  | .block nodes => anyInvolves name nodes
  | .number _ | .constantDecl _ _ | .exit | .forward _ | .subprogram _ _ => false

def Node.anyInvolves (name : String) : List Node → Bool
  | [] => false
  | first :: rest => first.involves name || anyInvolves name rest

end

mutual

/-- Only the names that a tree involves matter. -/
theorem Node.rename_congr {f g : String → String} : ∀ n : Node, (∀ name, n.involves name = true → f name = g name) →
    n.rename f = n.rename g
  | .variableDecl d, h => congrArg (fun name => Node.variableDecl { d with name }) (h _ (beq_self_eq_true _))
  | .ident _, h => congrArg Node.ident (h _ (beq_self_eq_true _))
  | .intrinsic which _, h => congrArg (Node.intrinsic which) (h _ (beq_self_eq_true _))
  | .number _, _ | .constantDecl _ _, _ | .exit, _ | .forward _, _ | .subprogram _ _, _ => rfl
  | .element x index, h => by
    simp only [Node.involves, Bool.or_eq_true, or_imp, forall_and, beq_iff_eq, forall_eq'] at h
    rw [Node.rename, Node.rename, h.1, rename_congr index h.2]
  | .binary op lhs rhs, h => by
    simp only [Node.involves, Bool.or_eq_true, or_imp, forall_and] at h
    rw [Node.rename, Node.rename, rename_congr lhs h.1, rename_congr rhs h.2]
  | .conditional condition thenArm elseArm, h => by
    simp only [Node.involves, Bool.or_eq_true, or_imp, forall_and] at h
    rw [Node.rename, Node.rename, rename_congr condition h.1.1, rename_congr thenArm h.1.2, rename_congr elseArm h.2]
  | .whileLoop condition body, h => by
    simp only [Node.involves, Bool.or_eq_true, or_imp, forall_and] at h
    rw [Node.rename, Node.rename, rename_congr condition h.1, rename_congr body h.2]
  | .forLoop x direction start stop body, h => by
    simp only [Node.involves, Bool.or_eq_true, or_imp, forall_and, beq_iff_eq, forall_eq'] at h
    rw [Node.rename, Node.rename, h.1.1.1, rename_congr start h.1.1.2, rename_congr stop h.1.2,
      rename_congr body h.2]
  | .call callee args, h => congrArg (Node.call callee) (renameAll_congr args h)
  | .block nodes, h => congrArg Node.block (renameAll_congr nodes h)

theorem Node.renameAll_congr {f g : String → String} : ∀ ns : List Node,
    (∀ name, Node.anyInvolves name ns = true → f name = g name) → Node.renameAll f ns = Node.renameAll g ns
  | [], _ => rfl
  | first :: rest, h => by
    simp only [Node.anyInvolves, Bool.or_eq_true, or_imp, forall_and] at h
    rw [Node.renameAll, Node.renameAll, Node.rename_congr first h.1, renameAll_congr rest h.2]

end

mutual

/-- Statements fit if the names in them do. -/
theorem Node.Plain.fits {Heading : String → List String → Prop} {N : Naming} : ∀ {n : Node}, n.Plain →
    (∀ name, n.involves name = true → N.Clear name) → n.Fits Heading N
  | .number _, _, _ | .exit, _, _ => trivial
  | .ident _, _, h | .intrinsic _ _, _, h => h _ (beq_self_eq_true _)
  | .element x index, hplain, h => by
    simp only [Node.involves, Bool.or_eq_true, or_imp, forall_and, beq_iff_eq, forall_eq'] at h
    exact ⟨h.1, Node.Plain.fits (n := index) hplain h.2⟩
  | .binary op lhs rhs, hplain, h => by
    simp only [Node.involves, Bool.or_eq_true, or_imp, forall_and] at h
    exact ⟨hplain.1.fits h.1, hplain.2.fits h.2⟩
  | .conditional condition thenArm elseArm, hplain, h => by
    simp only [Node.involves, Bool.or_eq_true, or_imp, forall_and] at h
    exact ⟨hplain.1.fits h.1.1, hplain.2.1.fits h.1.2, hplain.2.2.fits h.2⟩
  | .whileLoop condition body, hplain, h => by
    simp only [Node.involves, Bool.or_eq_true, or_imp, forall_and] at h
    exact ⟨hplain.1.fits h.1, hplain.2.fits h.2⟩
  | .forLoop x direction start stop body, hplain, h => by
    simp only [Node.involves, Bool.or_eq_true, or_imp, forall_and, beq_iff_eq, forall_eq'] at h
    exact ⟨h.1.1.1, hplain.1.fits h.1.1.2, hplain.2.1.fits h.1.2, hplain.2.2.fits h.2⟩
  | .call _ _, hplain, h | .block _, hplain, h => Node.AllPlain.fits hplain h

theorem Node.AllPlain.fits {Heading : String → List String → Prop} {N : Naming} : ∀ {ns : List Node},
    Node.AllPlain ns → (∀ name, Node.anyInvolves name ns = true → N.Clear name) → Node.AllFit Heading N ns
  | [], _, _ => trivial
  | first :: rest, hplain, h => by
    simp only [Node.anyInvolves, Bool.or_eq_true, or_imp, forall_and] at h
    exact ⟨hplain.1.fits h.1, Node.AllPlain.fits hplain.2 h.2⟩

end

theorem Node.allFit_iff {Heading : String → List String → Prop} {N : Naming} {ns : List Node} :
    Node.AllFit Heading N ns ↔ ∀ n ∈ ns, n.Fits Heading N := by
  induction ns with
  | nil => exact ⟨fun _ _ hn => (List.not_mem_nil hn).elim, fun _ => trivial⟩
  | cons first rest ih => rw [List.forall_mem_cons, ← ih, Node.AllFit]

theorem Node.renameAll_append (f : String → String) (xs ys : List Node) :
    Node.renameAll f (xs ++ ys) = Node.renameAll f xs ++ Node.renameAll f ys := by
  induction xs with
  | nil => rfl
  | cons first rest ih => exact congrArg (first.rename f :: ·) ih

/-! ## 9. Declarations and programs -/

/-- The variables that are known to be declared after a node. -/
def Naming.after (N : Naming) : Node → Naming
  | .variableDecl d => N.bind d.name
  | _ => N

namespace Naming

theorem other_after (N : Naming) (n : Node) : (N.after n).other = N.other := by
  cases n <;> rfl

theorem bound_after (N : Naming) (n : Node) : N.bound ⊆ (N.after n).bound := by
  cases n with
  | variableDecl d => exact Set.subset_insert _ _
  | _ => exact subset_rfl

theorem other_foldl_after (N : Naming) (ns : List Node) : (ns.foldl after N).other = N.other := by
  induction ns generalizing N with
  | nil => rfl
  | cons n ns ih => exact (ih _).trans (N.other_after n)

theorem bound_foldl_after (N : Naming) (ns : List Node) : N.bound ⊆ (ns.foldl after N).bound := by
  induction ns generalizing N with
  | nil => exact subset_rfl
  | cons n ns ih => exact (N.bound_after n).trans (ih _)

theorem name_mem_bound {ns : List Node} {d : VariableDecl} (h : .variableDecl d ∈ ns) (N : Naming) :
    d.name ∈ (ns.foldl after N).bound := by
  induction ns generalizing N with
  | nil => cases h
  | cons n ns ih =>
    rcases List.mem_cons.mp h with rfl | h
    · exact bound_foldl_after (N.bind d.name) ns (Set.mem_insert _ _)
    · exact ih h _

end Naming

theorem Emit.sequence_append {κ : Type} [Target κ] (last : Option Register) (xs ys : List Node) :
    (Emit.sequence last (xs ++ ys) : Emit κ _) = Emit.sequence last xs >>= fun v => Emit.sequence v ys := by
  induction xs generalizing last with
  | nil => rfl
  | cons x xs ih =>
    change Emit.node x >>= _ = (Emit.node x >>= _) >>= _
    rw [bind_assoc]
    exact congrArg _ (funext fun v => ih v)

/-- The heading of a subprogram that a node declares. -/
def Node.heading? : Node → Option Prototype
  | .forward heading | .subprogram heading _ => some heading
  | _ => none

/-- Declarations fit whatever the names are, if the headings among them are allowed. -/
theorem Node.Declares.fits {Heading : String → List String → Prop} {n : Node} (h : n.Declares)
    (hheading : ∀ p ∈ n.heading?, Heading p.name p.params) (N : Naming) : n.Fits Heading N := by
  cases n with
  | constantDecl | variableDecl => trivial
  | forward p => exact hheading p rfl
  | subprogram p body =>
    obtain ⟨decls, rest, rfl, hrest⟩ := h.split
    refine ⟨hheading p rfl, Node.allFit_iff.mpr fun n hn => ?_⟩
    rcases List.mem_append.mp hn with hn | hn
    · obtain ⟨d, -, rfl⟩ := List.mem_map.mp hn
      trivial
    · exact Node.allFit_iff.mp (hrest.fits fun name _ => Naming.clear_same name) n hn
  | _ => exact h.elim

namespace Mirrors

variable {κ : Type} [Target κ] {Heading : String → List String → Prop} {I : κ → Prop} {N : Naming}

theorem declaration (hI : Target.Upholds Heading I) (n : Node) (h : n.Fits Heading N) :
    Mirrors I N (N.after n) (Emit.node n) (Emit.node (n.rename N.other)) := by
  cases n with
  | variableDecl d => exact bind (declareVariable hI d) fun _ => pure _
  | _ => exact (tandem hI).node _ N ∅ h

/-- Declarations look no name up, and the variables that they declare are known afterwards. -/
theorem declarations (hI : Target.Upholds Heading I) {ns : List Node} (h : ∀ n ∈ ns, ∀ N, n.Fits Heading N)
    (last : Option Register) : Mirrors I N (ns.foldl Naming.after N) (Emit.sequence last ns)
      (Emit.sequence last (Node.renameAll N.other ns)) := by
  induction ns generalizing N last with
  | nil => exact pure _
  | cons n ns ih =>
    rw [List.forall_mem_cons] at h
    refine bind (declaration hI n (h.1 N)) fun value => ?_
    -- a declaration adds to the variables that are known, but not to the exchange
    rw [← N.other_after n]
    exact ih h.2 value

/-- A program in which the variables of its own block may have other names. -/
theorem program (hI : Target.Upholds Heading I) {p : Program} (hdecls : ∀ n ∈ p.declarations, ∀ N, n.Fits Heading N)
    (hbody : p.body.Fits Heading (p.declarations.foldl Naming.after N)) :
    Mirrors I N (p.declarations.foldl Naming.after N) (Emit.program p)
      (Emit.program ⟨p.name, Node.renameAll N.other p.declarations, p.body.rename N.other⟩) := by
  have hblock := (tandem hI).node _ _ ∅ hbody
  rw [N.other_foldl_after] at hblock
  exact bind (declarations hI hdecls none) fun _ => bind hblock fun _ => bind (const hI 0) fun _ => finish hI _

end Mirrors

section

variable {κ : Type} [Target κ] {Heading : String → List String → Prop} {I : κ → Prop}

/-- A compilation starts with headings of its own. -/
theorem Target.Upholds.start (hI : Target.Upholds Heading I) (hmain : Heading Code.entryPoint [])
    (hlibrary : ∀ name ∈ Compilation.libraryRoutines, Heading name ["x"]) {k : κ} (hk : I k) :
    I (Compilation.start k).code :=
  hI.addRoutine _ _ _ (hlibrary "printi" (by decide)) <| hI.addRoutine _ _ _ (hlibrary "writeln" (by decide)) <|
    hI.openRoutine (hI.addRoutine _ _ _ hmain hk) _ none

/-- A program whose compilation is mirrored has the same code under the other names. -/
theorem Mirrors.compileInto {p p' : Program} {N N' : Naming} (h : Mirrors I N N' (Emit.program p) (Emit.program p'))
    (hbound : N.bound = ∅) {k k' : κ} (hstart : I (Compilation.start k).code)
    (hrun : p.compileInto k = (.ok (), k')) : p'.compileInto k = (.ok (), k') ∧ I k' := by
  have hsuits : N.Suits I (Compilation.start k) .empty :=
    ⟨hstart, .empty (fun name hname => (Option.not_mem_none name hname).elim) hbound⟩
  unfold Program.compileInto EStateM.run at hrun ⊢
  cases hdone : Emit.program p (Compilation.start k) with
  | ok a t =>
    rw [hdone] at hrun
    obtain ⟨-, rfl⟩ := Prod.mk.inj hrun
    obtain ⟨l', hdone', hsuits'⟩ := h _ _ a t hsuits hdone
    rw [show Compilation.start k = (Compilation.start k).withLocals .empty from rfl, hdone']
    exact ⟨rfl, hsuits'.upheld⟩
  | error e t =>
    rw [hdone] at hrun
    cases hrun

end

end Mila
