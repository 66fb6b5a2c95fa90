import Mila.Compile
import Mila.Proofs.Names

/-! # The rules on names

Whether a program compiles is decided by its names alone. A program mentions names in a certain order, which
does not depend on what the names mean; each mention is allowed or breaks a rule, by what was mentioned
before. Compiling fails exactly when some mention breaks a rule, and with the rule that the first such mention
breaks.
-/

namespace Mila

/-! ## 1. Mentions -/

/-- What a name is used for. -/
inductive Use where
  /-- Its value is taken. -/
  | value
  /-- It is assigned to, or handed to an intrinsic. -/
  | place
  /-- One of its elements is taken or assigned to. -/
  | elements
  /-- It counts the rounds of a loop. -/
  | counter
  deriving DecidableEq, Repr

/-- A place of a program where names matter. -/
inductive Mention where
  | use (purpose : Use) (name : String)
  | variable (kind : SymbolKind) (name : String) (shape : Shape)
  | constant (name : String)
  | call (callee : String) (count : Nat)
  | forward (name : String) (arity : Nat)
  /-- The heading of a subprogram, which has variables of its own. -/
  | opening (name : String) (arity : Nat)
  /-- The end of a subprogram. -/
  | closing
  /-- An assignment to something that has no place. -/
  | nowhere
  deriving DecidableEq, Repr

def VariableDecl.shape (d : VariableDecl) : Shape := if d.isArray then .array else .scalar

mutual

/-- The mentions of a node, in order. -/
def Node.mentions : Node → List Mention
  | .number _ => []
  | .constantDecl name _ => [.constant name]
  | .variableDecl d => [.variable .variable d.name d.shape]
  | .ident name => [.use .value name]
  | .element name index => .use .elements name :: index.mentions
  | .binary .assign lhs rhs => rhs.mentions ++ lhs.targetMentions
  | .binary _ lhs rhs => lhs.mentions ++ rhs.mentions
  | .conditional condition thenArm elseArm =>
    condition.mentions ++ (thenArm.mentions ++ elseArm.mentions)
  | .whileLoop condition body => condition.mentions ++ body.mentions
  | .forLoop name _ start stop body =>
    .use .counter name :: (start.mentions ++ (stop.mentions ++ body.mentions))
  | .call callee args => .call callee args.length :: Node.allMentions args
  | .intrinsic _ name => [.use .place name]
  | .exit => []
  | .forward p => [.forward p.name p.params.length]
  | .subprogram p body => .opening p.name p.params.length ::
      (p.params.map (.variable .parameter · .scalar) ++ (Node.allMentions body ++ [.closing]))
  | .block nodes => Node.allMentions nodes

/-- The mentions of a node that is assigned to. -/
def Node.targetMentions : Node → List Mention
  | .ident name => [.use .place name]
  | .element name index => .use .elements name :: index.mentions
  | _ => [.nowhere]

def Node.allMentions : List Node → List Mention
  | [] => []
  | n :: nodes => n.mentions ++ Node.allMentions nodes

end

def Program.mentions (p : Program) : List Mention := Node.allMentions p.declarations ++ p.body.mentions

/-! ## 2. Rules -/

/-- What counts of a subprogram where it is mentioned. -/
structure Signature where
  arity : Nat
  isDefined : Bool
  deriving DecidableEq, Repr

/-- What is known of names at a place of a program. Each subprogram at hand has its own variables, and only
those of the innermost one are seen. -/
structure Scope where
  constants : List String
  subprograms : NameTable Signature
  locals : NameTable Shape
  outer : List (NameTable Shape)

namespace Scope

/-- A program itself, and the routines that it may call. -/
def initial : Scope where
  constants := []
  subprograms := [("main", ⟨0, true⟩), ("writeln", ⟨1, true⟩), ("printi", ⟨1, true⟩)].foldl
    (fun t z => t.insert z.1 z.2) ∅
  locals := ∅
  outer := []

/-- What a name stands for: a variable of the given shape, or a constant. -/
def meaning? (x : Scope) (name : String) : Option (Option Shape) :=
  match x.locals[name]? with
  | some shape => some (some shape)
  | none => if name ∈ x.constants then some none else none

variable {x : Scope} {mention : Mention}

theorem locals_of_meaning? {name : String} {shape : Shape}
    (h : x.meaning? name = some (some shape)) : x.locals[name]? = some shape := by
  unfold meaning? at h
  split at h
  · next found hfound => rw [hfound, Option.some.inj (Option.some.inj h)]
  · split at h <;> cases h

/-- The rule that a use breaks, where the name stands for the given. -/
def useViolation (name : String) : Use → Option Shape → Option ScopeError
  | .value, some .array => some (.missingIndex name)
  | .value, _ => none
  | .place, some .scalar => none
  | .place, some .array => some (.missingIndex name)
  | .place, none => some (.assignToConstant name)
  | .elements, some .array => none
  | .elements, _ => some (.notAnArray name)
  | .counter, some .scalar => none
  | .counter, _ => some (.invalidLoopVariable name)

/-- The rule that a mention breaks. -/
def violation (x : Scope) : Mention → Option ScopeError
  | .use purpose name =>
    match x.meaning? name with
    | none => some (.unknownIdentifier name)
    | some meaning => useViolation name purpose meaning
  | .variable kind name _ =>
    if (x.locals[name]?).isSome then some (.redeclaration kind name) else none
  | .constant name => if name ∈ x.constants then some (.redeclaration .constant name) else none
  | .call callee count =>
    match x.subprograms[callee]? with
    | none => some (.unknownFunction callee)
    | some known =>
      if known.arity ≠ count then some (.argumentCountMismatch callee known.arity count) else none
  | .forward name arity =>
    match x.subprograms[name]? with
    | none => none
    | some known => if known.arity ≠ arity then some (.signatureMismatch name known.arity arity) else none
  | .opening name arity =>
    match x.subprograms[name]? with
    | none => none
    | some known =>
      if known.isDefined then some (.functionRedefinition name)
      else if known.arity ≠ arity then some (.signatureMismatch name known.arity arity) else none
  | .closing => none
  | .nowhere => some .invalidAssignmentTarget

/-- What is known after a mention. -/
def update (x : Scope) : Mention → Scope
  | .variable _ name shape => { x with locals := x.locals.insert name shape }
  | .constant name => { x with constants := name :: x.constants }
  | .forward name arity =>
    match x.subprograms[name]? with
    | none => { x with subprograms := x.subprograms.insert name ⟨arity, false⟩ }
    | some _ => x
  | .opening name arity =>
    { x with
      subprograms := x.subprograms.insert name ⟨arity, true⟩
      locals := ∅
      outer := x.locals :: x.outer }
  | .closing =>
    match x.outer with
    | [] => x
    | locals :: outer => { x with locals, outer }
  | .use _ _ | .call _ _ | .nowhere => x

/-- Goes through mentions up to the first one that breaks a rule. -/
def resolve (x : Scope) : List Mention → Except ScopeError Scope
  | [] => .ok x
  | mention :: rest =>
    match x.violation mention with
    | some e => .error e
    | none => (x.update mention).resolve rest

theorem resolve_violation {e : ScopeError}
    (h : x.violation mention = some e) (l : List Mention) : x.resolve (mention :: l) = .error e := by
  simp only [resolve, h]

theorem resolve_allowed (h : x.violation mention = none)
    (l : List Mention) : x.resolve (mention :: l) = (x.update mention).resolve l := by
  simp only [resolve, h]

theorem resolve_append (x : Scope) (l l' : List Mention) :
    x.resolve (l ++ l') = x.resolve l >>= fun y => y.resolve l' := by
  induction l generalizing x with
  | nil => rfl
  | cons mention l ih =>
    cases h : x.violation mention with
    | some e =>
      rw [List.cons_append, resolve_violation h, resolve_violation h]
      rfl
    | none =>
      rw [List.cons_append, resolve_allowed h, resolve_allowed h]
      exact ih _

/-- The error is that of the first mention that breaks a rule. -/
theorem resolve_eq_error_iff (x : Scope) (l : List Mention) (e : ScopeError) :
    x.resolve l = .error e ↔ ∃ before mention after y,
      l = before ++ mention :: after ∧ x.resolve before = .ok y ∧ y.violation mention = some e := by
  constructor
  · intro h
    induction l generalizing x with
    | nil => cases h
    | cons first rest ih =>
      cases hfirst : x.violation first with
      | some e' =>
        rw [resolve_violation hfirst] at h
        exact ⟨[], first, rest, x, rfl, rfl, by rw [hfirst, Except.error.inj h]⟩
      | none =>
        rw [resolve_allowed hfirst] at h
        obtain ⟨before, mention, after, y, rfl, hbefore, hy⟩ := ih _ h
        exact ⟨first :: before, mention, after, y, rfl, by rw [resolve_allowed hfirst, hbefore], hy⟩
  · rintro ⟨before, mention, after, y, rfl, hbefore, hy⟩
    rw [resolve_append, hbefore]
    exact resolve_violation hy after

end Scope

/-- What the rules on names say of a program. -/
def Program.resolve (p : Program) : Except ScopeError Unit :=
  match Scope.initial.resolve p.mentions with
  | .ok _ => .ok ()
  | .error e => .error e

/-! ## 3. Compiling by the rules -/

section

variable {κ : Type}

/-- A compilation knows of names what the rules go by. -/
structure Compilation.Scoped (s : Compilation κ) (x : Scope) : Prop where
  constants : ∀ name, name ∈ x.constants ↔ (s.globals.constant? name).isSome
  subprograms : ∀ name, x.subprograms[name]? =
    (s.globals.subprogram? name).map fun entry => ⟨entry.arity, entry.isDefined⟩
  locals : ∀ name, x.locals[name]? = (s.frame.locals.get? name).map (·.shape)

namespace Compilation.Scoped

variable {s : Compilation κ} {x : Scope}

theorem emit (h : s.Scoped x) (code : κ) : Scoped { s with code } x := ⟨h.constants, h.subprograms, h.locals⟩

theorem addConstant (h : s.Scoped x) (name : String) (w : Word) :
    Scoped { s with globals := { s.globals with constants := s.globals.constants.insert name w } }
      { x with constants := name :: x.constants } := by
  refine ⟨fun other => ?_, h.subprograms, h.locals⟩
  change other ∈ name :: x.constants ↔ ((s.globals.constants.insert name w)[other]?).isSome
  rw [NameTable.getElem?_insert, List.mem_cons]
  by_cases ho : other = name
  · simp [ho]
  · simp only [ho, false_or, if_false]
    exact h.constants other

theorem register (h : s.Scoped x) (name : String) (entry : Subprogram) :
    Scoped { s with globals := s.globals.register name entry }
      { x with subprograms := x.subprograms.insert name ⟨entry.arity, entry.isDefined⟩ } := by
  refine ⟨h.constants, fun other => ?_, h.locals⟩
  rw [Globals.subprogram?_register, NameTable.getElem?_insert]
  by_cases ho : other = name
  · simp [ho]
  · simp only [ho, if_false]
    exact h.subprograms other

theorem bindLocal (h : s.Scoped x) (name : String) (b : Binding) {locals : NameTable Shape}
    (hlocals : ∀ other, locals[other]? = if other = name then some b.shape else x.locals[other]?) :
    Scoped { s with frame := { s.frame with locals := ⟨s.frame.locals.bindings.insert name b⟩ } }
      { x with locals } := by
  refine ⟨h.constants, h.subprograms, fun other => ?_⟩
  change locals[other]? = ((s.frame.locals.bindings.insert name b)[other]?).map (·.shape)
  rw [hlocals, NameTable.getElem?_insert]
  by_cases ho : other = name
  · simp [ho]
  · simp only [ho, if_false]
    exact h.locals other

/-- A variable is bound anew, under the shape that it has. -/
theorem rebindLocal (h : s.Scoped x) {name : String} {b : Binding} (hname : x.locals[name]? = some b.shape) :
    Scoped { s with frame := { s.frame with locals := ⟨s.frame.locals.bindings.insert name b⟩ } } x :=
  h.bindLocal name b fun other => by
    split
    · next ho => rw [ho, hname]
    · rfl

end Compilation.Scoped

/-- Later in the same subprogram: variables that are known stay known. -/
structure Scope.Keeps (x y : Scope) : Prop where
  locals : ∀ (name : String) (shape : Shape), x.locals[name]? = some shape → y.locals[name]? = some shape
  outer : y.outer = x.outer

theorem Scope.Keeps.of_eq {x y : Scope} (hlocals : y.locals = x.locals) (houter : y.outer = x.outer) :
    x.Keeps y := ⟨fun _ _ h => hlocals ▸ h, houter⟩

theorem Scope.Keeps.refl (x : Scope) : x.Keeps x := .of_eq rfl rfl

theorem Scope.Keeps.trans {x y z : Scope} (h : x.Keeps y) (h' : y.Keeps z) : x.Keeps z :=
  ⟨fun name shape hx => h'.locals name shape (h.locals name shape hx), h'.outer.trans h.outer⟩

/-- The shape of the variable that a name means. -/
def Emit.Meaning.shape? : Emit.Meaning → Option Shape
  | .variable binding => some binding.shape
  | .constant _ => none

/-- A name means to a compilation what it stands for by the rules. -/
theorem Compilation.Scoped.resolve {s : Compilation κ} {x : Scope} (h : s.Scoped x) (name : String) :
    (x.meaning? name = none ∧ Emit.resolve name s = .error (.unknownIdentifier name) s) ∨
      ∃ meaning, x.meaning? name = some meaning.shape? ∧ Emit.resolve name s = .ok meaning s := by
  have hlocal := h.locals name
  have hconstant := h.constants name
  unfold Scope.meaning?
  unfold Emit.resolve
  -- a variable hides a constant of the same name
  cases hl : s.frame.locals.get? name with
  | some binding =>
    rw [hl] at hlocal
    refine .inr ⟨.variable binding, by rw [hlocal]; rfl, ?_⟩
    simp only [bind, EStateM.bind, get, getThe, MonadStateOf.get, EStateM.get, hl]
    rfl
  | none =>
    rw [hl] at hlocal
    rw [hlocal]
    cases hc : s.globals.constant? name with
    | some w =>
      rw [hc] at hconstant
      refine .inr ⟨.constant w, if_pos (hconstant.mpr rfl), ?_⟩
      simp only [bind, EStateM.bind, get, getThe, MonadStateOf.get, EStateM.get, hl, hc]
      rfl
    | none =>
      rw [hc] at hconstant
      refine .inl ⟨if_neg fun hname => Bool.false_ne_true (hconstant.mp hname), ?_⟩
      simp only [bind, EStateM.bind, get, getThe, MonadStateOf.get, EStateM.get, hl, hc]
      rfl

/-- The result of a step is what the rules say of its mentions, and in the end the variables of `base` are
known still. -/
def Resolves {α : Type} (base x : Scope) (l : List Mention) :
    EStateM.Result ScopeError (Compilation κ) α → Prop
  | .ok _ s => ∃ y, x.resolve l = .ok y ∧ s.Scoped y ∧ base.Keeps y
  | .error e _ => x.resolve l = .error e

/-- A step obeys the rules on its mentions, wherever the given names are those of plain variables. -/
def Obeys {α : Type} (held : List String) (m : Emit κ α) (l : List Mention) : Prop :=
  ∀ s x, s.Scoped x → (∀ name ∈ held, x.locals[name]? = some .scalar) → Resolves x x l (m s)

variable {α β : Type} {held : List String} {l l' : List Mention}

namespace Resolves

variable {base x : Scope} {mention : Mention} {r : EStateM.Result ScopeError (Compilation κ) α}

theorem done {s : Compilation κ} (h : s.Scoped x) (hkeeps : base.Keeps x) (a : α) :
    Resolves base x [] (.ok a s) := ⟨x, rfl, h, hkeeps⟩

theorem violation {e : ScopeError} (h : x.violation mention = some e) (s : Compilation κ) :
    Resolves base x (mention :: l) (.error e s : EStateM.Result ScopeError (Compilation κ) α) :=
  Scope.resolve_violation h l

theorem allowed (h : x.violation mention = none) (hr : Resolves base (x.update mention) l r) :
    Resolves base x (mention :: l) r := by
  unfold Resolves
  rw [Scope.resolve_allowed h l]
  exact hr

/-- Mentions in two parts, of which the first one ends in a known scope. -/
theorem append {y : Scope} (h : x.resolve l = .ok y) (hr : Resolves base y l' r) : Resolves base x (l ++ l') r := by
  have happend : x.resolve (l ++ l') = y.resolve l' := by
    rw [Scope.resolve_append, h]
    rfl
  unfold Resolves
  rw [happend]
  exact hr

theorem stop {e : ScopeError} (h : x.resolve l = .error e) (l' : List Mention) (s : Compilation κ) :
    Resolves base x (l ++ l') (.error e s : EStateM.Result ScopeError (Compilation κ) α) := by
  change x.resolve (l ++ l') = .error e
  rw [Scope.resolve_append, h]
  rfl

theorem rebase (hr : Resolves x x l r) (h : base.Keeps x) : Resolves base x l r := by
  cases r with
  | ok a s =>
    obtain ⟨y, hy, hs, hkeeps⟩ := hr
    exact ⟨y, hy, hs, h.trans hkeeps⟩
  | error e s => exact hr

end Resolves

namespace Obeys

variable {m : Emit κ α} {k : α → Emit κ β} {name : String}

theorem bind (hm : Obeys held m l) (hk : ∀ a, Obeys held (k a) l') : Obeys held (m >>= k) (l ++ l') := by
  intro s x hs hheld
  have hfirst := hm s x hs hheld
  change Resolves x x (l ++ l') (EStateM.bind m k s)
  unfold EStateM.bind
  generalize m s = r at hfirst ⊢
  cases r with
  | error e s₁ => exact .stop hfirst l' s₁
  | ok a s₁ =>
    obtain ⟨y, hy, hs₁, hkeeps⟩ := hfirst
    have hsecond := hk a s₁ y hs₁ fun name hname => hkeeps.locals name _ (hheld name hname)
    exact .append hy (hsecond.rebase hkeeps)

/-- What follows may depend on the names that are known. -/
theorem look {k : Compilation κ → Emit κ α} (h : ∀ s x, s.Scoped x →
      (∀ name ∈ held, x.locals[name]? = some .scalar) → Resolves x x l (k s s)) : Obeys held (get >>= k) l := h

/-- A step before which nothing is mentioned. -/
theorem next (hm : Obeys held m []) (hk : ∀ a, Obeys held (k a) l) : Obeys held (m >>= k) l := bind hm hk

/-- A step after which nothing is mentioned. -/
theorem last (hm : Obeys held m l) (hk : ∀ a, Obeys held (k a) []) : Obeys held (m >>= k) l := by
  have h := bind hm hk
  rw [List.append_nil] at h
  exact h

/-- A step that has nothing to do with names. -/
theorem silent (h : ∀ s, ∃ a s', m s = .ok a s' ∧ s'.globals = s.globals ∧
    s'.frame.locals = s.frame.locals) : Obeys held m [] := by
  intro s x hs _
  obtain ⟨a, s', hm, hglobals, hlocals⟩ := h s
  rw [hm]
  refine ⟨x, rfl, ⟨?_, ?_, ?_⟩, .refl x⟩
  · rw [hglobals]
    exact hs.constants
  · rw [hglobals]
    exact hs.subprograms
  · rw [hlocals]
    exact hs.locals

theorem pure (a : α) : Obeys held (pure a : Emit κ α) [] := silent fun _ => ⟨_, _, rfl, rfl, rfl⟩

theorem map (hm : Obeys held m l) (f : α → β) : Obeys held (f <$> m) l :=
  last hm fun a => pure (f a)

theorem moveTo (place : BlockRef) : Obeys held (Emit.moveTo place : Emit κ Unit) [] :=
  silent fun _ => ⟨_, _, rfl, rfl, rfl⟩

theorem currentBlock : Obeys held (Emit.currentBlock : Emit κ BlockRef) [] :=
  silent fun _ => ⟨_, _, rfl, rfl, rfl⟩

/-! ### Names -/

/-- A name is looked up, and what it stands for allows or forbids what follows. -/
theorem use (purpose : Use) (name : String) {k : Emit.Meaning → Emit κ α}
    (hbad : ∀ meaning e, Scope.useViolation name purpose meaning.shape? = some e → k meaning = throw e)
    (hk : ∀ meaning s x, s.Scoped x → (∀ name ∈ held, x.locals[name]? = some .scalar) →
      x.meaning? name = some meaning.shape? →
      Scope.useViolation name purpose meaning.shape? = none → Resolves x x l (k meaning s)) :
    Obeys held (Emit.resolve name >>= k) (.use purpose name :: l) := by
  intro s x hs hheld
  change Resolves x x _ (EStateM.bind (Emit.resolve name) k s)
  unfold EStateM.bind
  rcases hs.resolve name with ⟨hunknown, hrun⟩ | ⟨meaning, hknown, hrun⟩
  · -- an unknown name is an error before its use is looked at
    rw [hrun]
    refine .violation ?_ s
    simp only [Scope.violation, hunknown]
  · rw [hrun]
    have hviolation : x.violation (.use purpose name) =
        Scope.useViolation name purpose meaning.shape? := by
      simp only [Scope.violation, hknown]
    cases h : Scope.useViolation name purpose meaning.shape? with
    | some e =>
      dsimp only
      rw [hbad meaning e h]
      exact .violation (hviolation.trans h) s
    | none => exact .allowed (hviolation.trans h) (hk meaning s x hs hheld hknown h)

theorem scalarSlot (name : String) : Obeys held (Emit.scalarSlot name : Emit κ Register) [.use .place name] := by
  refine use _ _ (fun meaning e he => ?_) fun meaning s x hs hheld _ hok => ?_
  · rcases meaning with ⟨_, _ | _⟩ | _ <;> cases he <;> rfl
  · rcases meaning with ⟨slot, _ | _⟩ | _
    · exact pure slot s x hs hheld
    · cases hok
    · cases hok

/-! ### Code -/

section

variable [Target κ]

theorem define (op : Operation) : Obeys held (Emit.define op : Emit κ Register) [] :=
  silent fun _ => ⟨_, _, rfl, rfl, rfl⟩

theorem const (w : Word) : Obeys held (Emit.const w : Emit κ Register) [] := define _

theorem store (v a : Register) : Obeys held (Emit.store v a : Emit κ Unit) [] :=
  silent fun _ => ⟨_, _, rfl, rfl, rfl⟩

theorem terminate (e : Exit) : Obeys held (Emit.terminate e : Emit κ Unit) [] :=
  silent fun _ => ⟨_, _, rfl, rfl, rfl⟩

theorem goTo {e : Exit} {place : BlockRef} {k : Unit → Emit κ β} (hk : ∀ u, Obeys held (k u) l) :
    Obeys held (Emit.terminate e >>= fun _ => Emit.moveTo place >>= k) l :=
  next (terminate e) fun _ => next (moveTo place) hk

theorem addBlock (label : String) : Obeys held (Emit.addBlock label : Emit κ BlockRef) [] :=
  silent fun _ => ⟨_, _, rfl, rfl, rfl⟩

theorem leave (v : Register) : Obeys held (Emit.leave v : Emit κ Unit) [] :=
  silent fun _ => ⟨_, _, rfl, rfl, rfl⟩

theorem booleanize (v : Register) : Obeys held (Emit.booleanize v : Emit κ Register) [] :=
  next (const 0) fun _ => define _

theorem valueOf {m : Emit κ (Option Register)} (h : Obeys held m l) : Obeys held (Emit.valueOf m) l :=
  last h fun v => by
    cases v with
    | some v => exact pure v
    | none => exact const 0

theorem elementSlot (name : String) {i : Emit κ Register} (h : Obeys held i l) :
    Obeys held (Emit.elementSlot name i) (.use .elements name :: l) := by
  refine use _ _ (fun meaning e he => ?_) fun meaning s x hs hheld _ hok => ?_
  · rcases meaning with ⟨_, _ | _⟩ | _ <;> cases he <;> rfl
  · rcases meaning with ⟨slot, _ | _⟩ | _
    · cases hok
    · exact last h (fun _ => define _) s x hs hheld
    · cases hok

theorem readName (name : String) : Obeys held (Emit.readName name : Emit κ Register) [.use .value name] := by
  refine use _ _ (fun meaning e he => ?_) fun meaning s x hs hheld _ hok => ?_
  · rcases meaning with ⟨_, _ | _⟩ | _ <;> cases he
    rfl
  · rcases meaning with ⟨slot, _ | _⟩ | w
    · exact define _ s x hs hheld
    · cases hok
    · exact const w s x hs hheld

theorem intrinsic (which : Intrinsic) (name : String) :
    Obeys held (Emit.intrinsic which name : Emit κ Register) [.use .place name] :=
  last (scalarSlot name) fun _ => define _

end

/-! ### Declarations -/

theorem declareConstant (name : String) (w : Word) :
    Obeys held (Emit.declareConstant name w : Emit κ Unit) [.constant name] := by
  refine look fun s x hs _ => ?_
  have hconstant := hs.constants name
  unfold Globals.defineConstant?
  cases hc : s.globals.constant? name with
  | some value =>
    rw [hc] at hconstant
    have hbad : x.violation (.constant name) = some (.redeclaration .constant name) :=
      if_pos (hconstant.mpr rfl)
    exact .violation hbad s
  | none =>
    rw [hc] at hconstant
    have hok : x.violation (.constant name) = none :=
      if_neg fun hname => Bool.false_ne_true (hconstant.mp hname)
    have hkeeps : x.Keeps (x.update (.constant name)) := .of_eq rfl rfl
    exact .allowed hok (.done (hs.addConstant name w) hkeeps _)

theorem declare (kind : SymbolKind) (name : String) (b : Binding) :
    Obeys held (Emit.declare kind name b : Emit κ Unit) [.variable kind name b.shape] := by
  refine look fun s x hs _ => ?_
  have hlocal := hs.locals name
  unfold Locals.declare?
  cases hl : s.frame.locals.get? name with
  | some b' =>
    rw [hl] at hlocal
    have hbad : x.violation (.variable kind name b.shape) = some (.redeclaration kind name) :=
      if_pos (by rw [hlocal]; rfl)
    exact .violation hbad s
  | none =>
    rw [hl] at hlocal
    have hok : x.violation (.variable kind name b.shape) = none :=
      if_neg (by rw [hlocal]; exact Bool.false_ne_true)
    -- The name was free, so no variable that was known before is hidden.
    have hkeeps : x.Keeps (x.update (.variable kind name b.shape)) := by
      refine ⟨fun other shape hother => (NameTable.getElem?_insert _ _ _ _).trans ?_, rfl⟩
      rw [if_neg, hother]
      rintro rfl
      rw [hlocal] at hother
      cases hother
    have hscoped := hs.bindLocal name b fun _ => NameTable.getElem?_insert x.locals name _ b.shape
    exact .allowed hok (.done hscoped hkeeps _)

theorem parameters [Target κ] (index : Nat) (names : List String) :
    Obeys held (Emit.parameters index names : Emit κ Unit)
      (names.map (.variable .parameter · .scalar)) := by
  induction names generalizing index with
  | nil => exact pure ()
  | cons name names ih =>
    refine next (define _) fun slot => next (define _) fun _ => next (store _ _) fun _ => ?_
    exact bind (declare .parameter name ⟨slot, .scalar⟩) fun _ => ih _

theorem declareVariable [Target κ] (d : VariableDecl) :
    Obeys held (Emit.declareVariable d : Emit κ Unit) [.variable .variable d.name d.shape] := by
  unfold Emit.declareVariable VariableDecl.shape
  split
  · exact next (define _) fun _ => next (const _) fun _ => next (define _) fun slot =>
      declare .variable d.name ⟨slot, .array⟩
  · exact next (define _) fun slot => declare .variable d.name ⟨slot, .scalar⟩

/-! ### Expressions and statements -/

/-- Once its variable is found fit for counting, a loop goes on under that name. -/
theorem counting {k : Binding → Emit κ α} (hk : ∀ b, b.shape = .scalar → Obeys [name] (k b) l) :
    Obeys held (Emit.loopVariable name >>= k) (.use .counter name :: l) := by
  unfold Emit.loopVariable
  rw [bind_assoc]
  refine use _ _ (fun meaning e he => ?_) fun meaning s x hs _ hmeaning hok => ?_
  · rcases meaning with ⟨_, _ | _⟩ | _ <;> cases he <;> rfl
  · rcases meaning with ⟨slot, _ | _⟩ | _
    · refine hk ⟨slot, .scalar⟩ rfl s x hs fun other hother => ?_
      rw [List.mem_singleton.mp hother]
      exact Scope.locals_of_meaning? hmeaning
    · cases hok
    · cases hok

/-- Holding on to the variable of a loop shows in nothing: while the body is compiled it can not be declared
again, so that it still is the same variable afterwards. -/
theorem holding {b : Binding} (hb : b.shape = .scalar)
    {body : Emit κ (Option Register)} (hbody : Obeys [name] body l) : Obeys [name] (Emit.holding name b body) l := by
  intro s x hs hheld
  have hname := hheld name List.mem_cons_self
  obtain ⟨saved, hsaved, hshape⟩ := Option.map_eq_some_iff.mp ((hs.locals name).symm.trans hname)
  -- Only shapes show in a scope, and `b` has the one that the name had: the scope inside is still `x`.
  have hinside := hbody _ x (hs.rebindLocal (hb ▸ hname)) hheld
  change Resolves x x l (EStateM.bind body _ _)
  unfold EStateM.bind
  generalize body _ = r at hinside ⊢
  cases r with
  | error e s₁ => exact hinside
  | ok v s₁ =>
    obtain ⟨y, hy, hs₁, hkeeps⟩ := hinside
    refine ⟨y, hy, ?_, hkeeps⟩
    change Compilation.Scoped { s₁ with frame := { s₁.frame with
      locals := s₁.frame.locals.restore name (s.frame.locals.get? name) } } y
    rw [hsaved]
    exact hs₁.rebindLocal (hshape ▸ hkeeps.locals name _ hname)

section

variable [Target κ] {m₁ m₂ m₃ : Emit κ Register} {body : Emit κ (Option Register)}
  {l₁ l₂ l₃ : List Mention}

theorem assignment (h₁ : Obeys held m₁ l₁) (h₂ : Obeys held m₂ l₂) : Obeys held (Emit.assignment m₁ m₂) (l₁ ++ l₂) :=
  bind h₁ fun _ => last h₂ fun _ => next (store _ _) fun _ => pure _

variable {op : BinaryOperator} {s : Compilation κ} {x : Scope}

theorem combine (hop : op ≠ .assign) (l r : Register) : Obeys held (Emit.combine op l r : Emit κ Register) [] := by
  have hlogical : ∀ a, Obeys held (Emit.combine.logical l r a : Emit κ Register) [] := fun a =>
    next (booleanize l) fun _ => next (booleanize r) fun _ => define _
  cases op with
  | and => exact hlogical _
  | or => exact hlogical _
  | assign => exact absurd rfl hop
  | add | sub | mul | div | mod | lt | le | gt | ge | eq | ne => exact define _

theorem binary (hop : op ≠ .assign) (h₁ : Obeys held m₁ l₁)
    (h₂ : Obeys held m₂ l₂) : Obeys held (Emit.binary op m₁ m₂) (l₁ ++ l₂) :=
  bind h₁ fun _ => last h₂ fun _ => combine hop _ _

theorem conditional (h₁ : Obeys held m₁ l₁) (h₂ : Obeys held m₂ l₂) (h₃ : Obeys held m₃ l₃) :
    Obeys held (Emit.conditional m₁ m₂ m₃) (l₁ ++ (l₂ ++ l₃)) :=
  bind h₁ fun _ => next (booleanize _) fun _ => next (addBlock _) fun _ => next (addBlock _) fun _ =>
    next (addBlock _) fun _ => goTo fun _ => bind h₂ fun _ => next currentBlock fun _ => goTo fun _ =>
    last h₃ fun _ => next currentBlock fun _ => goTo fun _ => define _

theorem whileLoop (h₁ : Obeys held m₁ l₁) (hbody : Obeys held body l) :
    Obeys held (Emit.whileLoop m₁ body) (l₁ ++ l) :=
  next (addBlock _) fun _ => next (addBlock _) fun _ => next (addBlock _) fun _ => goTo fun _ =>
    bind h₁ fun _ => next (booleanize _) fun _ => goTo fun _ => last hbody fun _ => goTo fun _ => const 0

theorem forLoop (name : String) (dir : Direction) (h₁ : Obeys [name] m₁ l₁) (h₂ : Obeys [name] m₂ l₂)
    (hbody : Obeys [name] body l) : Obeys held (Emit.forLoop name dir m₁ m₂ body)
      (.use .counter name :: (l₁ ++ (l₂ ++ l))) :=
  counting fun _ hb => bind h₁ fun _ => next (store _ _) fun _ => bind h₂ fun _ => next (const _) fun _ =>
    next (addBlock _) fun _ => next (addBlock _) fun _ => next (addBlock _) fun _ => goTo fun _ =>
    next (define _) fun _ => next (define _) fun _ => goTo fun _ => last (holding hb hbody) fun _ =>
    next (define _) fun _ => next (define _) fun _ => next (store _ _) fun _ => next (define _) fun _ =>
    goTo fun _ => const 0

theorem call (callee : String) (count : Nat) {args : Emit κ (List Register)} (h : Obeys held args l) :
    Obeys held (Emit.call callee count args) (.call callee count :: l) := by
  refine look fun s x hs hheld => ?_
  have hknown := hs.subprograms callee
  -- the callee is looked up before its arguments are compiled, so this error comes first
  cases he : s.globals.subprogram? callee with
  | none =>
    rw [he] at hknown
    have hbad : x.violation (.call callee count) = some (.unknownFunction callee) := by
      simp only [Scope.violation, hknown, Option.map_none]
    exact .violation hbad s
  | some entry =>
    rw [he] at hknown
    have hrule : x.violation (.call callee count) = if entry.arity ≠ count then
        some (.argumentCountMismatch callee entry.arity count) else none := by
      simp only [Scope.violation, hknown, Option.map_some]
    dsimp only
    split
    · next hcount => exact .violation (hrule.trans (if_pos hcount)) s
    · next hcount =>
      exact .allowed (hrule.trans (if_neg hcount)) (last h (fun _ => define _) s x hs hheld)

theorem resultValue : Obeys held (Emit.resultValue : Emit κ Register) [] := by
  refine look fun s x hs hheld => ?_
  cases s.frame.resultName.bind s.frame.locals.get? with
  | some b => exact define _ s x hs hheld
  | none => exact const 0 s x hs hheld

theorem exit : Obeys held (Emit.exit : Emit κ Register) [] :=
  next resultValue fun _ => next (leave _) fun _ => next (addBlock _) fun _ => next (moveTo _) fun _ =>
    const 0

/-! ### Subprograms -/

theorem finish (v : Register) : Obeys held (Emit.finish v : Emit κ Unit) [] := by
  refine next (leave v) fun _ => look fun s x hs hheld => ?_
  refine next (moveTo _) (fun _ => ?_) s x hs hheld
  rcases s.frame.returns with _ | ⟨⟨_, _⟩, _ | ⟨_, _⟩⟩
  · exact next (define _) fun _ => terminate _
  · exact terminate _
  · exact next (define _) fun _ => terminate _

theorem forward (p : Prototype) : Obeys held (Emit.forward p : Emit κ Unit) [.forward p.name p.params.length] := by
  refine look fun s x hs hheld => ?_
  have hknown := hs.subprograms p.name
  -- an announcement may be repeated with as many parameters
  cases he : s.globals.subprogram? p.name with
  | none =>
    rw [he] at hknown
    have hok : x.violation (.forward p.name p.params.length) = none := by
      simp only [Scope.violation, hknown, Option.map_none]
    have hupdate : x.update (.forward p.name p.params.length) =
        { x with subprograms := x.subprograms.insert p.name ⟨p.params.length, false⟩ } := by
      simp only [Scope.update, hknown, Option.map_none]
    have hscoped := (hs.emit (Target.addRoutine s.code p.name p.params).2).register p.name
      ⟨(Target.addRoutine s.code p.name p.params).1, p.params.length, false⟩
    have hkeeps : x.Keeps { x with subprograms := x.subprograms.insert p.name ⟨p.params.length, false⟩ } :=
      .of_eq rfl rfl
    refine .allowed hok ?_
    rw [hupdate]
    exact .done hscoped hkeeps _
  | some entry =>
    rw [he] at hknown
    have hrule : x.violation (.forward p.name p.params.length) = if entry.arity ≠ p.params.length then
        some (.signatureMismatch p.name entry.arity p.params.length) else none := by
      simp only [Scope.violation, hknown, Option.map_some]
    have hupdate : x.update (.forward p.name p.params.length) = x := by
      simp only [Scope.update, hknown, Option.map_some]
    dsimp only
    split
    · next hcount => exact .violation (hrule.trans (if_pos hcount)) s
    · next hcount =>
      refine .allowed (hrule.trans (if_neg hcount)) ?_
      rw [hupdate]
      exact .done hs (.refl x) _

theorem claimRoutine (hs : s.Scoped x) (p : Prototype) :
    (∃ e, x.violation (.opening p.name p.params.length) = some e ∧ Emit.claimRoutine p s = .error e s) ∨
    x.violation (.opening p.name p.params.length) = none ∧
      ∃ g s', Emit.claimRoutine p s = .ok g s' ∧ s'.Scoped x ∧ s'.frame = s.frame := by
  have hknown := hs.subprograms p.name
  have hget : ∀ k : Compilation κ → Emit κ Nat, (get >>= k) s = k s s := fun _ => rfl
  rw [Emit.claimRoutine, hget]
  cases he : s.globals.subprogram? p.name with
  | none =>
    rw [he] at hknown
    refine .inr ⟨?_, _, _, rfl, hs.emit _, rfl⟩
    simp only [Scope.violation, hknown, Option.map_none]
  | some entry =>
    rw [he] at hknown
    have hrule : x.violation (.opening p.name p.params.length) =
        if entry.isDefined then some (.functionRedefinition p.name)
        else if entry.arity ≠ p.params.length then
          some (.signatureMismatch p.name entry.arity p.params.length) else none := by
      simp only [Scope.violation, hknown, Option.map_some]
    rw [hrule]
    dsimp only
    -- a second definition is reported before a wrong number of parameters
    split
    · exact .inl ⟨_, rfl, rfl⟩
    · split
      · exact .inl ⟨_, rfl, rfl⟩
      · exact .inr ⟨rfl, _, _, rfl, hs, rfl⟩

/-- The body of a subprogram goes by variables of its own, which are dropped at its end. -/
theorem within (g : Nat) (resultName : Option String) {inner : Emit κ Unit} (hinner : Obeys [] inner l)
    {y : Scope} (hlocals : ∀ name, x.locals[name]? =
      (s.frame.locals.get? name).map (·.shape)) (houter : y.outer = x.locals :: x.outer)
    (hopened : ∀ (code : κ) (frame : Frame), frame.locals = .empty →
      Compilation.Scoped ⟨code, s.globals, frame⟩ y) :
    Resolves x y (l ++ [.closing]) (Emit.within g resultName inner s) := by
  have hresult := hinner _ y (hopened (Emit.openRoutine s.code g resultName).2
    (Emit.openRoutine s.code g resultName).1 rfl) fun _ hname => absurd hname List.not_mem_nil
  change Resolves x y _ (EStateM.bind inner (fun _ => modify fun t => { t with frame := s.frame })
    ⟨(Emit.openRoutine s.code g resultName).2, s.globals, (Emit.openRoutine s.code g resultName).1⟩)
  unfold EStateM.bind
  generalize inner _ = r at hresult ⊢
  cases r with
  | error e s₁ => exact .stop hresult _ s₁
  | ok v s₁ =>
    obtain ⟨z, hz, hs₁, hkeeps⟩ := hresult
    -- The body has opened and closed scopes of its own in pairs, so closing `z` uncovers the locals of `x`.
    have hclosed : z.update .closing = { z with locals := x.locals, outer := x.outer } := by
      simp only [Scope.update, hkeeps.outer, houter]
    have hback : Compilation.Scoped { s₁ with frame := s.frame }
        { z with locals := x.locals, outer := x.outer } := ⟨hs₁.constants, hs₁.subprograms, hlocals⟩
    have hkept : x.Keeps { z with locals := x.locals, outer := x.outer } := .of_eq rfl rfl
    refine .append hz (.allowed rfl ?_)
    rw [hclosed]
    exact .done hback hkept _

theorem subprogram (p : Prototype) (hbody : Obeys [] body l) :
    Obeys held (Emit.subprogram p body) (.opening p.name p.params.length ::
      (p.params.map (.variable .parameter · .scalar) ++ (l ++ [.closing]))) := by
  intro s x hs _
  change Resolves x x _ (EStateM.bind (Emit.claimRoutine p) _ s)
  unfold EStateM.bind
  rcases claimRoutine hs p with ⟨e, hbad, hrun⟩ | ⟨hok, g, s₁, hrun, hs₁, hframe⟩
  · rw [hrun]
    exact .violation hbad s
  · rw [hrun]
    have hinner : Obeys [] (do
        Emit.parameters 0 p.params
        Emit.finish (← Emit.valueOf body)) (p.params.map (.variable .parameter · .scalar) ++ l) :=
      bind (parameters 0 p.params) fun _ => last (valueOf hbody) fun v => finish v
    -- The name is entered before the body is compiled, so that a subprogram may call itself.
    have hentered := hs₁.register p.name ⟨g, p.params.length, true⟩
    have hresult := within g (Emit.resultNameOf p) hinner
      (s := { s₁ with globals := s₁.globals.register p.name ⟨g, p.params.length, true⟩ })
      (x := x) (y := x.update (.opening p.name p.params.length)) hs₁.locals rfl fun code frame hempty =>
        ⟨hentered.constants, hentered.subprograms, fun name => by rw [hempty]; rfl⟩
    rw [List.append_assoc] at hresult
    exact .allowed hok hresult

/-! ### Trees -/

mutual

theorem node (held : List String) : ∀ n : Node, Obeys held (Emit.node n : Emit κ _) n.mentions
  | .number w => by
    unfold Emit.node Node.mentions
    exact map (const w) _
  | .constantDecl name w => by
    unfold Emit.node Node.mentions
    exact last (declareConstant name w) fun _ => pure _
  | .variableDecl d => by
    unfold Emit.node Node.mentions
    exact last (declareVariable d) fun _ => pure _
  | .ident name => by
    unfold Emit.node Node.mentions
    exact map (readName name) _
  | .element name index => by
    unfold Emit.node Node.mentions
    exact last (elementSlot name (valueOf (node held index))) fun _ => map (define _) _
  | .binary op lhs rhs => by
    unfold Emit.node
    cases op with
    | assign =>
      unfold Node.mentions
      exact map (assignment (valueOf (node held rhs)) (target held lhs)) _
    | add | sub | mul | div | mod | lt | le | gt | ge | eq | ne | and | or =>
      unfold Node.mentions
      exact map (binary BinaryOperator.noConfusion (valueOf (node held lhs)) (valueOf (node held rhs))) _
  | .conditional c t e => by
    unfold Emit.node Node.mentions
    exact map (conditional (valueOf (node held c)) (valueOf (node held t)) (valueOf (node held e))) _
  | .whileLoop c body => by
    unfold Emit.node Node.mentions
    exact map (whileLoop (valueOf (node held c)) (node held body)) _
  | .forLoop name dir a z body => by
    unfold Emit.node Node.mentions
    exact map (forLoop name dir (valueOf (node [name] a)) (valueOf (node [name] z)) (node [name] body)) _
  | .call callee args => by
    unfold Emit.node Node.mentions
    exact map (call callee args.length (arguments held args)) _
  | .intrinsic which name => by
    unfold Emit.node Node.mentions
    exact map (intrinsic which name) _
  | .exit => by
    unfold Emit.node Node.mentions
    exact map exit _
  | .forward p => by
    unfold Emit.node Node.mentions
    exact last (forward p) fun _ => pure _
  | .subprogram p body => by
    unfold Emit.node Node.mentions
    exact last (subprogram p (sequence [] none body)) fun _ => pure _
  | .block nodes => by
    unfold Emit.node Node.mentions
    exact sequence held none nodes

theorem target (held : List String) : ∀ n : Node, Obeys held (Emit.target n : Emit κ _) n.targetMentions
  | .ident name => by
    unfold Emit.target Node.targetMentions
    exact scalarSlot name
  | .element name index => by
    unfold Emit.target Node.targetMentions
    exact elementSlot name (valueOf (node held index))
  | .number _ | .constantDecl _ _ | .variableDecl _ | .binary _ _ _ | .conditional _ _ _
  | .whileLoop _ _ | .forLoop _ _ _ _ _ | .call _ _ | .intrinsic _ _ | .exit | .forward _
  | .subprogram _ _ | .block _ => by
    unfold Emit.target Node.targetMentions
    exact fun s x _ _ => .violation rfl s

theorem sequence (held : List String) (v : Option Register) :
    ∀ nodes : List Node, Obeys held (Emit.sequence v nodes : Emit κ _) (Node.allMentions nodes)
  | [] => by
    unfold Emit.sequence Node.allMentions
    exact pure v
  | n :: nodes => by
    unfold Emit.sequence Node.allMentions
    exact bind (node held n) fun value => sequence held value nodes

theorem arguments (held : List String) :
    ∀ nodes : List Node, Obeys held (Emit.arguments nodes : Emit κ _) (Node.allMentions nodes)
  | [] => by
    unfold Emit.arguments Node.allMentions
    exact pure []
  | n :: nodes => by
    unfold Emit.arguments Node.allMentions
    exact bind (valueOf (node held n)) fun _ => last (arguments held nodes) fun _ => pure _

end

theorem program (p : Program) : Obeys [] (Emit.program p : Emit κ Unit) p.mentions :=
  bind (sequence [] none p.declarations) fun _ => last (node [] p.body) fun _ => next (const 0) fun v =>
    finish v

end

end Obeys

variable [Target κ]

theorem Compilation.scoped_start (code : κ) : (Compilation.start code).Scoped .initial := by
  have hempty : (⟨(Emit.openRoutine (Target.addRoutine code Code.entryPoint []).2
        (Target.addRoutine code Code.entryPoint []).1 none).2, .empty,
      (Emit.openRoutine (Target.addRoutine code Code.entryPoint []).2
        (Target.addRoutine code Code.entryPoint []).1 none).1⟩ : Compilation κ).Scoped ⟨[], ∅, ∅, []⟩ := by
    refine ⟨fun name => ?_, fun _ => rfl, fun _ => rfl⟩
    simp [Globals.constant?, Globals.empty]
  exact (((hempty.register "main" ⟨_, 0, true⟩).register "writeln" ⟨_, 1, true⟩).register "printi"
    ⟨_, 1, true⟩).emit _

theorem Program.compileInto_eq_resolve (p : Program) (code : κ) : (p.compileInto code).1 = p.resolve := by
  have hresult := Obeys.program p _ _ (Compilation.scoped_start code) fun _ hname =>
    absurd hname List.not_mem_nil
  unfold Program.compileInto Program.resolve EStateM.run
  generalize Emit.program p (Compilation.start code) = r at hresult ⊢
  cases r with
  | ok v s =>
    obtain ⟨y, hy, -⟩ := hresult
    rw [hy]
  | error e s => rw [show Scope.initial.resolve p.mentions = .error e from hresult]

/-- Compiling a program succeeds or fails as the rules on names say, whatever it is compiled into: the error
is that of the first mention in the program that breaks a rule. -/
theorem Program.compileInto_scoped (p : Program) (code : κ) :
    (p.compileInto code).1 = p.resolve ∧
    ∀ e, (p.compileInto code).1 = .error e ↔ ∃ before mention after x,
      p.mentions = before ++ mention :: after ∧ Scope.initial.resolve before = .ok x ∧
        x.violation mention = some e := by
  refine ⟨p.compileInto_eq_resolve code, fun e => ?_⟩
  rw [p.compileInto_eq_resolve code, ← Scope.resolve_eq_error_iff]
  unfold Program.resolve
  cases Scope.initial.resolve p.mentions with
  | ok x => simp
  | error e' => simp

/-- Of several broken rules, the one on the value of an assignment comes first. -/
example : Program.resolve ⟨"p", [], .block [.binary .assign (.element "x" (.ident "y"))
    (.call "f" [.ident "z"])]⟩ = .error (.unknownFunction "f") := by decide +kernel

end

end Mila
