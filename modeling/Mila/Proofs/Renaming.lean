import Mila.Proofs.Mirroring
import Mila.Proofs.Sources

/-! # New names for variables

The name of a variable matters in its own subprogram only. When a variable gets a name there that the subprogram does
not use, then the code stays the same, whatever the two names stand for elsewhere.
-/

namespace Mila

/-! ## 1. Scopes -/

/-- What the names of variables belong to: a subprogram, or the program itself. -/
structure VariableScope where
  params : List String
  result : Option String
  /-- Declarations and statements. -/
  nodes : List Node

/-- The scope of the subprogram that is declared at a place, or that of the program itself. -/
def Program.variableScope? (p : Program) : Option Nat → Option VariableScope
  | none => some ⟨[], none, p.declarations ++ [p.body]⟩
  | some place =>
    match p.declarations[place]? with
    | some (.subprogram heading body) => some ⟨heading.params, Emit.resultNameOf heading, body⟩
    | _ => none

/-- The name of the variable that a node declares. -/
def Node.variable? : Node → Option String
  | .variableDecl d => some d.name
  | _ => none

/-- A variable `x` of a scope, and a name `y` that is free in it. -/
structure VariableScope.Renamable (S : VariableScope) (x y : String) : Prop where
  declared : x ∈ S.nodes.filterMap Node.variable?
  own : x ∉ S.params ∧ x ∉ S.result
  free : y ∉ S.params ∧ y ∉ S.result ∧ Node.anyInvolves y S.nodes = false

instance (S : VariableScope) (x y : String) : Decidable (S.Renamable x y) :=
  decidable_of_iff (x ∈ S.nodes.filterMap Node.variable? ∧ (x ∉ S.params ∧ x ∉ S.result) ∧
      y ∉ S.params ∧ y ∉ S.result ∧ Node.anyInvolves y S.nodes = false)
    ⟨fun h => ⟨h.1, h.2.1, h.2.2⟩, fun h => ⟨h.1, h.2, h.3⟩⟩

/-- The name `y` takes the place of `x`. -/
def substitute (x y name : String) : String := if name = x then y else name

/-- The body of a subprogram with other names for its variables. -/
def Node.renameBody (f : String → String) : Node → Node
  | .subprogram heading body => .subprogram heading (Node.renameAll f body)
  | n => n

/-- The variable `x` of one scope is called `y`, in its declaration and wherever that scope looks it up. -/
def Program.renameIn (p : Program) (x y : String) : Option Nat → Program
  | none => ⟨p.name, Node.renameAll (substitute x y) p.declarations, p.body.rename (substitute x y)⟩
  | some place => { p with declarations := p.declarations.modify place (Node.renameBody (substitute x y)) }

/-! ## 2. Exchanging two names -/

/-- The names `x` and `y` stand for each other. -/
def Naming.exchange (x y : String) : Naming := ⟨Equiv.swap x y, ∅⟩

section

variable {x y : String}

variable {name : String} {ns : List Node}

/-- Where `y` does not occur, it might as well have been `x`. -/
theorem substitute_eq_exchange (h : name ≠ y) : substitute x y name = (Naming.exchange x y).other name := by
  unfold substitute Naming.exchange
  rw [Equiv.swap_apply_def, if_neg h]

theorem Naming.other_exchange (hx : name ≠ x) (hy : name ≠ y) : (exchange x y).other name = name :=
  Equiv.swap_apply_of_ne_of_ne hx hy

theorem Node.rename_substitute {n : Node} (h : n.involves y = false) :
    n.rename (substitute x y) = n.rename (Naming.exchange x y).other := by
  refine n.rename_congr fun name hname => substitute_eq_exchange ?_
  rintro rfl
  rw [h] at hname
  cases hname

theorem Node.renameAll_substitute (h : Node.anyInvolves y ns = false) :
    Node.renameAll (substitute x y) ns = Node.renameAll (Naming.exchange x y).other ns := by
  refine Node.renameAll_congr ns fun name hname => substitute_eq_exchange ?_
  rintro rfl
  rw [h] at hname
  cases hname

theorem Node.anyInvolves_append (name : String) (xs ys : List Node) :
    Node.anyInvolves name (xs ++ ys) = (Node.anyInvolves name xs || Node.anyInvolves name ys) := by
  induction xs with
  | nil => rfl
  | cons first rest ih => rw [List.cons_append, Node.anyInvolves, ih, Node.anyInvolves, Bool.or_assoc]

/-- Behind the declaration of `x`, all names may be exchanged but `y`. -/
theorem Naming.clear_exchange {d : VariableDecl} (hd : .variableDecl d ∈ ns)
    (h : name ≠ y) : (ns.foldl after (exchange d.name y)).Clear name := by
  by_cases hx : name = d.name
  · rw [hx]
    exact .inr (name_mem_bound hd _)
  · refine .inl ?_
    rw [other_foldl_after]
    exact other_exchange hx h

end

theorem exists_modify_eq {α : Type} {l : List α} {place : Nat} {a : α} (f : α → α) (h : l[place]? = some a) :
    ∃ before behind, l = before ++ a :: behind ∧ l.modify place f = before ++ f a :: behind := by
  obtain ⟨hlt, rfl⟩ := List.getElem?_eq_some_iff.mp h
  refine ⟨l.take place, l.drop (place + 1), ?_, List.modify_eq_take_cons_drop hlt⟩
  rw [← List.drop_eq_getElem_cons hlt, List.take_append_drop]

/-! ## 3. The code stays the same -/

/-- Nothing in particular is kept up. -/
theorem Target.upholds_true {κ : Type} [Target κ] : Target.Upholds (fun _ _ => True) fun _ : κ => True :=
  ⟨fun _ _ _ _ _ => trivial, fun _ _ _ _ _ => trivial, fun _ _ _ _ => trivial, fun _ _ _ _ _ => trivial,
    fun _ _ _ _ => trivial⟩

namespace Mirrors

variable {κ : Type} [Target κ] {p : Program} {y : String} {d : VariableDecl}

theorem renameIn_none (hformed : p.Formed) (hd : .variableDecl d ∈ p.declarations)
    (hdecls : Node.anyInvolves y p.declarations = false) (hbody : p.body.involves y = false) :
    Mirrors (fun _ : κ => True) (.exchange d.name y) (p.declarations.foldl Naming.after (.exchange d.name y))
      (Emit.program p) (Emit.program (p.renameIn d.name y none)) := by
  unfold Program.renameIn
  rw [Node.renameAll_substitute hdecls, Node.rename_substitute hbody]
  refine program Target.upholds_true (fun n hn => (hformed.declarations n hn).fits fun _ _ => trivial)
    (hformed.body.fits fun name hname => Naming.clear_exchange hd ?_)
  rintro rfl
  rw [hbody] at hname
  cases hname

variable {heading : Prototype} {body : List Node}

/-- The body of a subprogram, in which one of its variables gets another name. -/
theorem renameBody (hformed : heading.Body body)
    (hd : .variableDecl d ∈ body) (hbody : Node.anyInvolves y body = false) : ∃ N,
    Mirrors (fun _ : κ => True) (.exchange d.name y) N (Emit.sequence none body)
      (Emit.sequence none (Node.renameAll (substitute d.name y) body)) := by
  rw [Node.renameAll_substitute hbody]
  obtain ⟨decls, rest, rfl, hrest⟩ := hformed.split
  have hdecl : .variableDecl d ∈ decls.map Node.variableDecl :=
    (List.mem_append.mp hd).resolve_right fun hd => Node.allPlain_iff.mp hrest _ hd
  rw [Node.anyInvolves_append, Bool.or_eq_false_iff] at hbody
  -- a name of the body is kept, or it is that of the variable, which is declared by then
  have hfits : Node.AllFit (fun _ _ => True)
      ((decls.map .variableDecl).foldl Naming.after (.exchange d.name y)) rest := by
    refine hrest.fits fun name hname => Naming.clear_exchange hdecl ?_
    rintro rfl
    rw [hbody.2] at hname
    cases hname
  rw [Emit.sequence_append, Node.renameAll_append, Emit.sequence_append]
  refine ⟨(decls.map .variableDecl).foldl Naming.after (.exchange d.name y),
    bind (declarations Target.upholds_true (fun n hn => ?_) none) fun v => ?_⟩
  · exact (Node.declares_variables decls n hn).fits fun _ _ => trivial
  · rw [← Naming.other_foldl_after (.exchange d.name y) (decls.map .variableDecl)]
    exact (tandem Target.upholds_true).sequence rest _ ∅ v hfits

/-- A program in which a variable of one of its subprograms gets another name. -/
theorem renameIn_some (hformed : p.Formed) {place : Nat}
    (hplace : p.declarations[place]? = some (.subprogram heading body)) (hd : .variableDecl d ∈ body)
    (hparams : d.name ∉ heading.params) (hresult : d.name ∉ Emit.resultNameOf heading)
    (hparams' : y ∉ heading.params) (hresult' : y ∉ Emit.resultNameOf heading)
    (hbody : Node.anyInvolves y body = false) :
    Mirrors (fun _ : κ => True) .same .same (Emit.program p) (Emit.program (p.renameIn d.name y (some place))) := by
  obtain ⟨N, hrenamed⟩ := renameBody (κ := κ) (hformed.declarations _ (List.mem_of_getElem? hplace)) hd hbody
  have hsubprogram : Mirrors (fun _ : κ => True) .same .same (Emit.node (.subprogram heading body))
      (Emit.node (Node.renameBody (substitute d.name y) (.subprogram heading body))) := by
    refine bind (subprogram Target.upholds_true trivial rfl (fun name hname => ?_) (fun name hname => ?_) hrenamed)
      fun _ => pure _
    · exact Naming.other_exchange (ne_of_mem_of_not_mem hname hparams) (ne_of_mem_of_not_mem hname hparams')
    · exact Naming.other_exchange (ne_of_mem_of_not_mem hname hresult) (ne_of_mem_of_not_mem hname hresult')
  -- the declarations in front of the subprogram and behind it stay as they are
  have hdecls : Mirrors (fun _ : κ => True) .same .same (Emit.sequence none p.declarations)
      (Emit.sequence none (p.declarations.modify place (Node.renameBody (substitute d.name y)))) := by
    have hfits : ∀ n ∈ p.declarations, n.Fits (fun _ _ => True) .same :=
      fun n hn => (hformed.declarations n hn).fits (fun _ _ => trivial) _
    obtain ⟨before, behind, hsplit, hmodify⟩ := exists_modify_eq (Node.renameBody (substitute d.name y)) hplace
    rw [hmodify, hsplit, Emit.sequence_append, Emit.sequence_append]
    rw [hsplit, List.forall_mem_append, List.forall_mem_cons] at hfits
    have hsame := tandem (κ := κ) Target.upholds_true
    exact bind (hsame.sequence_same (Node.allFit_iff.mpr hfits.1) none rfl ∅) fun _ =>
      bind hsubprogram fun _ => hsame.sequence_same (Node.allFit_iff.mpr hfits.2.2) _ rfl ∅
  have hblock := (tandem (κ := κ) Target.upholds_true).node_same
    (hformed.body.fits fun name _ => Naming.clear_same name) rfl ∅
  exact bind hdecls fun _ => bind hblock fun _ => bind (const Target.upholds_true 0) fun _ =>
    finish Target.upholds_true _

end Mirrors

theorem Node.exists_of_variable? {ns : List Node} {x : String} (h : x ∈ ns.filterMap Node.variable?) :
    ∃ d : VariableDecl, .variableDecl d ∈ ns ∧ d.name = x := by
  obtain ⟨n, hn, hx⟩ := List.mem_filterMap.mp h
  cases n with
  | variableDecl d => exact ⟨d, hn, Option.some.inj hx⟩
  | _ => cases hx

/-- A variable may be called otherwise, if its scope does not use the new name: the code of the program is the same,
on any target. Neither of the names matters in another scope, or as that of a constant or a subprogram. -/
theorem Program.compileInto_renameIn {κ : Type} [Target κ] {source : String} {p : Program}
    (hparse : parseProgram source = .ok p) {k k' : κ} (hcode : p.compileInto k = (.ok (), k'))
    {place : Option Nat} {S : VariableScope} (hscope : p.variableScope? place = some S) {x y : String}
    (h : S.Renamable x y) :
    (p.renameIn x y place).compileInto k = (.ok (), k') := by
  have hformed := parseProgram_formed hparse
  obtain ⟨d, hd, rfl⟩ := Node.exists_of_variable? h.declared
  cases place with
  | none =>
    obtain rfl := Option.some.inj hscope
    have hfree := h.free.2.2
    rw [Node.anyInvolves_append, Bool.or_eq_false_iff] at hfree
    -- the body of the program is a statement, and declares nothing
    have hdecl : .variableDecl d ∈ p.declarations := by
      refine (List.mem_append.mp hd).resolve_right fun hbody => ?_
      have := hformed.body
      rw [← List.mem_singleton.mp hbody] at this
      exact this
    refine ((Mirrors.renameIn_none hformed hdecl hfree.1 ?_).compileInto rfl trivial hcode).1
    exact (Bool.or_eq_false_iff.mp hfree.2).1
  | some place =>
    dsimp only [Program.variableScope?] at hscope
    split at hscope
    · next heading body hplace =>
      obtain rfl := Option.some.inj hscope
      exact ((Mirrors.renameIn_some hformed hplace hd h.own.1 h.own.2 h.free.1 h.free.2.1
        h.free.2.2).compileInto rfl trivial hcode).1
    · cases hscope

/-- The name `a` stands for a constant, and in `f` for a variable; there is a variable `x` besides `f`. -/
def scopes : String := "program p; const a = 5; var x: integer; " ++
  "function f(n: integer): integer; var a, i: integer; begin for i := 1 to n do a := a + i; f := a end; " ++
  "begin x := f(a); writeln(x) end."

theorem compileInto_scopes : ∃ p C, parseProgram scopes = .ok p ∧ p.compileInto Code.empty = (.ok (), C) ∧
    (p.renameIn "a" "x" (some 2)).compileInto Code.empty = (.ok (), C) ∧
    (p.renameIn "x" "f" none).compileInto Code.empty = (.ok (), C) := by
  obtain ⟨C, hC⟩ : ∃ C, compile scopes = .ok C := exists_code (by decide +kernel)
  obtain ⟨p, hparse, hcode⟩ := exists_program hC
  have hscopes : ((parseProgram scopes).toOption.any fun p =>
      (p.variableScope? (some 2)).any (fun S => decide (S.Renamable "a" "x")) &&
        (p.variableScope? none).any (fun S => decide (S.Renamable "x" "f"))) = true := by
    decide +kernel
  rw [hparse, Except.toOption, Option.any_some, Bool.and_eq_true, Option.any_eq_true, Option.any_eq_true] at hscopes
  obtain ⟨⟨S, hS, hvariable⟩, ⟨T, hT, hvariable'⟩⟩ := hscopes
  exact ⟨p, C, hparse, hcode, p.compileInto_renameIn hparse hcode hS (of_decide_eq_true hvariable),
    p.compileInto_renameIn hparse hcode hT (of_decide_eq_true hvariable')⟩

end Mila
