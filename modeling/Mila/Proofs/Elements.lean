import Mila.Proofs.Activations
import Mila.Proofs.Parts
import Mila.Proofs.Sources

/-! # The elements that a program uses

Each variable of a routine is allocated by instructions of the entry block that are there for it alone. Where a
source text reads or writes an element of an array, the code evaluates the index, moves the address that stands for
the array by it, and then reads or writes there.
-/

namespace Mila

/-! ## 1. Uses of elements in trees -/

/-- A use of an element of an array: it is read, or the value of a node is written to it. -/
structure ElementUse where
  name : String
  index : Node
  value : Option Node

/-- The instruction that reads or writes an element, given the registers with the value that is written and with
the address, and the one that a value which is read goes to. -/
def ElementUse.instruction (u : ElementUse) (source address target : Register) : Instruction :=
  match u.value with
  | none => .define target (.load address)
  | some _ => .store source address

/-- The use of an element that a node is. -/
def Node.elementUse? : Node → Option ElementUse
  | .element name index => some ⟨name, index, none⟩
  | .binary .assign (.element name index) value => some ⟨name, index, some value⟩
  | _ => none

/-- What one routine is made from: the variables that it has, parameters included, and the nodes of its body. -/
structure Segment where
  vars : List VariableDecl
  nodes : List Node

/-- The uses of elements in a routine. -/
def Segment.elementUses (s : Segment) : List ElementUse := (Node.allParts s.nodes).filterMap Node.elementUse?

namespace Node

/-- The variable that a node declares. -/
def declaration? : Node → Option VariableDecl
  | .variableDecl d => some d
  | _ => none

/-- What the routine of a subprogram is made from. -/
def segment? : Node → Option Segment
  | .subprogram heading body => some ⟨heading.params.map .scalar ++ body.filterMap declaration?, body⟩
  | _ => none

end Node

/-- What the routines of a program are made from, the main routine first. -/
def Program.segments (p : Program) : List Segment :=
  ⟨p.declarations.filterMap Node.declaration?, [p.body]⟩ :: p.declarations.filterMap Node.segment?

/-! ## 2. Variables in the entry block -/

namespace VariableDecl

/-- How many cells are allocated for a variable. -/
def cells (d : VariableDecl) : Nat := if d.isArray then d.length else 1

/-- Where the address that stands for a variable lies, counted from its first cell. -/
def bias (d : VariableDecl) : Int := if d.isArray then d.offset.toInt else 0

/-- How many instructions follow the allocation of a variable until its address is there. -/
def delay (d : VariableDecl) : Nat := if d.isArray then 2 else 0

end VariableDecl

/-- The instructions for a variable, in the entry block of its routine from the given one on. -/
inductive Code.Allots (C : Code) (g k : Nat) (d : VariableDecl) : Binding → Prop where
  | scalar {slot : Register} (hd : d.isArray = false)
      (hcells : C.instruction? ⟨g, 0⟩ k = some (.define slot (.alloca 1))) : Allots C g k d ⟨slot, .scalar⟩
  | array {cells bias slot : Register} (hd : d.isArray = true)
      (hcells : C.instruction? ⟨g, 0⟩ k = some (.define cells (.alloca d.length)))
      (hbias : C.instruction? ⟨g, 0⟩ (k + 1) = some (.define bias (.const d.offset)))
      (hslot : C.instruction? ⟨g, 0⟩ (k + 2) = some (.define slot (.offset cells bias))) :
      Allots C g k d ⟨slot, .array⟩

/-- The variables of a routine, and which instruction of the entry block allocates each of them. -/
structure Allotment where
  routine : Nat
  vars : List VariableDecl
  home : String → Nat

/-- A site behind an instruction of the entry block. -/
def Site.Past (S : Site) (k : Nat) : Prop := S.block = 0 → k < S.index

/-- What comes later in a block, or in a block that was added later, is behind it as well. -/
theorem Site.Past.later {S S' : Site} {k : Nat} (h : S.Past k) (hv : S.Valid)
    (hplace : (S'.block = S.block ∧ S.index ≤ S'.index) ∨ S.blocks ≤ S'.block) : S'.Past k := by
  intro hzero
  have hblocks := hv.blocks
  rcases hplace with ⟨hsame, hle⟩ | hnew
  · exact (h (hsame ▸ hzero)).trans_le hle
  · omega

/-- The names that are in force at a site are those of the given variables, each of which is allocated by
instructions of its own. -/
structure Site.Founded (C : Code) (A : Allotment) (S : Site) : Prop where
  routine : S.routine = A.routine
  allotted : ∀ d ∈ A.vars, S.Past (A.home d.name + d.delay) ∧
    ∃ b, S.locals.get? d.name = some b ∧ C.Allots A.routine (A.home d.name) d b
  listed : ∀ name b, S.locals.get? name = some b → ∃ d ∈ A.vars, d.name = name
  apart : ∀ d ∈ A.vars, ∀ d' ∈ A.vars, A.home d.name = A.home d'.name → d = d'

namespace Site.Founded

variable {C : Code} {A : Allotment} {S S' : Site}

theorem reach (h : S.Founded C A) (hv : S.Valid) (hS : S.Reaches S') : S'.Founded C A where
  routine := hS.routine.trans h.routine
  allotted d hd := by
    rw [hS.locals]
    exact (h.allotted d hd).imp (·.later hv hS.place) id
  listed := by
    rw [hS.locals]
    exact h.listed
  apart := h.apart

theorem opened (C : Code) (g : Nat) (name : Option String) (G : Globals) :
    (Site.opened g name G).Founded C ⟨g, [], fun _ => 0⟩ where
  routine := rfl
  allotted d hd := absurd hd List.not_mem_nil
  listed other b hb := by
    rw [Site.get?_opened] at hb
    cases hb
  apart d hd := absurd hd List.not_mem_nil

/-- A variable more, with instructions that come next in the entry block. -/
theorem declare (h : S.Founded C A) (hzero : S.block = 0) (S' : Site) (hroutine : S'.routine = S.routine)
    (hlocals : S'.locals = S.locals) {d : VariableDecl} {b : Binding} {l : Locals}
    (hl : S'.locals.declare? d.name b = some l) (hb : C.Allots S.routine S.index d b)
    (hindex : S.index + d.delay < S'.index) : Site.Founded C
      ⟨A.routine, A.vars ++ [d], Function.update A.home d.name S.index⟩ { S' with locals := l } := by
  have hnone := Locals.get?_of_declare? hl
  rw [hlocals] at hnone
  -- the new variable has a new name, and all others were allocated before
  have hold : ∀ d' ∈ A.vars, d'.name ≠ d.name ∧ Function.update A.home d.name S.index d'.name = A.home d'.name ∧
      A.home d'.name + d'.delay < S.index := by
    intro d' hd'
    obtain ⟨hpast, b', hb', -⟩ := h.allotted d' hd'
    have hne : d'.name ≠ d.name := by
      intro he
      rw [he, hnone] at hb'
      cases hb'
    exact ⟨hne, Function.update_of_ne hne _ _, hpast hzero⟩
  have hnew : Function.update A.home d.name S.index d.name = S.index := Function.update_self _ _ _
  refine ⟨hroutine.trans h.routine, fun d' hd' => ?_, fun name b' hb' => ?_, fun x hx y hy he => ?_⟩
  · change Site.Past _ (Function.update A.home d.name S.index d'.name + d'.delay) ∧
      ∃ b, l.get? d'.name = some b ∧ C.Allots A.routine (Function.update A.home d.name S.index d'.name) d' b
    rw [Locals.get?_declare? hl, hlocals]
    rcases List.mem_append.mp hd' with hd' | hd'
    · obtain ⟨hne, hhome, hlt⟩ := hold d' hd'
      obtain ⟨-, hbound⟩ := h.allotted d' hd'
      rw [if_neg hne, hhome]
      exact ⟨fun _ => by change _ < S'.index; omega, hbound⟩
    · obtain rfl := List.mem_singleton.mp hd'
      rw [if_pos rfl, hnew]
      exact ⟨fun _ => hindex, b, rfl, h.routine ▸ hb⟩
  · change l.get? name = some b' at hb'
    rw [Locals.get?_declare? hl, hlocals] at hb'
    split at hb'
    · next hname => exact ⟨d, List.mem_append_right _ List.mem_cons_self, hname.symm⟩
    · obtain ⟨d', hd', hname⟩ := h.listed name b' hb'
      exact ⟨d', List.mem_append_left _ hd', hname⟩
  · change Function.update A.home d.name S.index x.name = Function.update A.home d.name S.index y.name at he
    rcases List.mem_append.mp hx with hx | hx <;> rcases List.mem_append.mp hy with hy | hy
    · rw [(hold x hx).2.1, (hold y hy).2.1] at he
      exact h.apart x hx y hy he
    · rw [(hold x hx).2.1, List.mem_singleton.mp hy, hnew] at he
      have := (hold x hx).2.2
      omega
    · rw [(hold y hy).2.1, List.mem_singleton.mp hx, hnew] at he
      have := (hold y hy).2.2
      omega
    · rw [List.mem_singleton.mp hx, List.mem_singleton.mp hy]

end Site.Founded

/-! ## 3. Uses of elements in code -/

/-- A use of an element, and where its parts stand in the code of a routine. -/
structure ElementAccess where
  use : ElementUse
  /-- The variables of the routine, and the array among them. -/
  allotment : Allotment
  array : VariableDecl
  /-- The registers with the address that stands for the array, the index and the value that is written. -/
  slot : Register
  position : Register
  source : Register
  /-- The index is evaluated from here on. -/
  origin : Site
  /-- The address of the element is computed here. -/
  place : Site

namespace ElementAccess

/-- The code of the use is part of the given code. -/
structure In (F : ElementAccess) (C : Code) : Prop where
  valid : F.origin.Valid
  founded : F.origin.Founded C F.allotment
  mem : F.array ∈ F.allotment.vars
  name : F.array.name = F.use.name
  named : F.origin.locals.get? F.use.name = some ⟨F.slot, .array⟩
  value : ∀ n ∈ F.use.value, ∃ S, Lowered C (.value n) S [F.source] F.origin
  index : Lowered C (.value F.use.index) F.origin [F.position] F.place
  address : C.Has F.place (.define F.place.registers (.offset F.slot F.position))
  access : C.Has F.place.next (F.use.instruction F.source F.place.registers F.place.next.registers)

end ElementAccess

/-- A use of an element stands in the code of a routine with the given variables. -/
def Code.Uses (C : Code) (A : Allotment) (u : ElementUse) : Prop :=
  ∃ F : ElementAccess, F.In C ∧ F.use = u ∧ F.allotment = A

/-- What is done with the address of an element is a use of it. -/
theorem Lowered.uses_target {C : Code} {A : Allotment} {u : ElementUse} {r : Register} {S S' : Site}
    (h : Lowered C (.target (.element u.name u.index)) S [r] S') (hv : S.Valid) (hS : S.Founded C A)
    (source : Register) (hvalue : ∀ n ∈ u.value, ∃ T, Lowered C (.value n) T [source] S)
    (haccess : C.Has S' (u.instruction source r S'.registers)) : C.Uses A u := by
  cases h with
  | @targetElement _ _ slot i _ _ S₁ _ hname hindex haddress =>
    obtain ⟨d, hd, heq⟩ := hS.listed u.name _ hname
    cases haddress with
    | op _ hhas =>
      exact ⟨⟨u, A, d, slot, i, source, S, S₁⟩, ⟨hv, hS, hd, heq, hname, hvalue, hindex, hhas, haccess⟩, rfl, rfl⟩

/-- The code of a use of an element, taken apart. -/
theorem Lowered.uses {C : Code} {A : Allotment} {n : Node} {u : ElementUse} {S S' : Site} {rs : List Register}
    (h : Lowered C (.node n) S rs S') (hu : n.elementUse? = some u) (hplain : n.Plain) (hv : S.Valid)
    (hS : S.Founded C A) : C.Uses A u := by
  unfold Node.elementUse? at hu
  split at hu
  · obtain rfl := Option.some.inj hu
    cases h with
    | element hslot hload =>
      cases hload with
      | op _ hhas => exact hslot.uses_target (u := ⟨_, _, none⟩) hv hS 0 (fun _ hn => by cases hn) hhas
  · obtain rfl := Option.some.inj hu
    cases h with
    | assign hvalue hslot hstore =>
      -- the value comes first, so the index is evaluated behind it
      have h₁ := hvalue.reaches hplain.2 hv trivial
      cases hstore with
      | store hhas =>
        refine hslot.uses_target (u := ⟨_, _, some _⟩) h₁.valid (hS.reach hv h₁) _ (fun n hn => ?_) hhas
        obtain rfl := Option.some.inj hn
        exact ⟨_, hvalue⟩
    | binary hop _ _ _ => exact absurd rfl hop
  · cases hu

/-- The uses of elements in plain code stand in it. -/
theorem Lowered.elementUses {C : Code} {A : Allotment} {ph : Phrase} {S S' : Site} {rs : List Register}
    (h : Lowered C ph S rs S') (hplain : ph.Plain) (hv : S.Valid) (hS : S.Founded C A) :
    ∀ u ∈ ph.parts.filterMap Node.elementUse?, C.Uses A u := by
  intro u hu
  obtain ⟨n, hn, hu⟩ := List.mem_filterMap.mp hu
  obtain ⟨T, rs', T', hT, hcode, hself⟩ := h.parts hplain hv hn
  exact hcode.uses hu hself hT.valid (hS.reach hv hT)

/-! ## 4. Uses of elements in programs -/

namespace Node

theorem allParts_append (xs ys : List Node) : allParts (xs ++ ys) = allParts xs ++ allParts ys := by
  induction xs with
  | nil => rfl
  | cons first rest ih => rw [List.cons_append, allParts, allParts, ih, List.append_assoc]

theorem elementUses_variables (decls : List VariableDecl) :
    (allParts (decls.map .variableDecl)).filterMap elementUse? = [] := by
  induction decls with
  | nil => rfl
  | cons d decls ih => exact ih

theorem AllPlain.no_declarations {nodes : List Node} (h : AllPlain nodes) : nodes.filterMap declaration? = [] := by
  induction nodes with
  | nil => rfl
  | cons first rest ih =>
    rw [List.filterMap_cons, ih h.2]
    cases first with
    | variableDecl d => exact absurd h.1 id
    | _ => rfl

end Node

namespace Lowered

variable {C : Code} {A : Allotment} {S S' : Site} {rs : List Register} {last : Option Register}

variable {d : Node} {ds : List Node}

theorem founded_declaration (h : Lowered C (.node d) S rs S') (hd : d.Declares) (hS : S.Founded C A)
    (hzero : S.block = 0) :
    ∃ A' : Allotment, A'.vars = A.vars ++ d.declaration?.toList ∧ S'.Founded C A' ∧ S'.block = 0 := by
  -- declarations add no blocks, so all of their instructions are in the entry block
  have hhas : ∀ {T : Site} {i : Instruction}, T.routine = S.routine → T.block = S.block → C.Has T i →
      C.instruction? ⟨S.routine, 0⟩ T.index = some i := by
    intro T i hroutine hblock hhas
    have hins := hhas.instruction?
    unfold Site.place at hins
    rwa [hroutine, hblock, hzero] at hins
  cases h with
  | constantDecl _ | forwardKnown _ | forwardNew _ | define _ _ _ =>
    exact ⟨A, (List.append_nil _).symm, ⟨hS.routine, hS.allotted, hS.listed, hS.apart⟩, hzero⟩
  | @scalarDecl d _ _ _ _ hscalar hop hl =>
    cases hop with
    | op _ hcells =>
      refine ⟨_, rfl, hS.declare hzero S.next rfl rfl hl (.scalar hscalar (hhas rfl rfl hcells)) ?_, hzero⟩
      rw [VariableDecl.delay, hscalar]
      exact Nat.lt_succ_self _
  | @arrayDecl d _ _ _ _ _ _ _ _ harray hcells hbias hslot hl =>
    cases hcells with
    | op _ hcells =>
    cases hbias with
    | op _ hbias =>
    cases hslot with
    | op _ hslot =>
      refine ⟨_, rfl, hS.declare hzero S.next.next.next rfl rfl hl
        (.array harray (hhas rfl rfl hcells) (hhas (T := S.next) rfl rfl hbias)
          (hhas (T := S.next.next) rfl rfl hslot)) ?_, hzero⟩
      rw [VariableDecl.delay, harray]
      exact Nat.lt_succ_self _
  | _ => exact absurd hd id

theorem founded_declarations (h : Lowered C (.sequence last ds) S rs S')
    (hds : ∀ d ∈ ds, d.Declares) (hS : S.Founded C A) (hzero : S.block = 0) : ∃ A' : Allotment,
      A'.vars = A.vars ++ ds.filterMap Node.declaration? ∧ S'.Founded C A' ∧ S'.block = 0 := by
  induction ds generalizing S last A with
  | nil =>
    cases h
    exact ⟨A, (List.append_nil _).symm, hS, hzero⟩
  | cons d ds ih =>
    cases h with
    | sequenceCons hfirst hrest =>
      obtain ⟨A₁, hA₁, hS₁, hzero₁⟩ := hfirst.founded_declaration (hds d List.mem_cons_self) hS hzero
      obtain ⟨A₂, hA₂, hS₂, hzero₂⟩ := ih hrest (fun d hd => hds d (List.mem_cons_of_mem _ hd)) hS₁ hzero₁
      refine ⟨A₂, ?_, hS₂, hzero₂⟩
      rw [hA₂, hA₁, List.append_assoc, List.filterMap_cons]
      cases d.declaration? <;> rfl

theorem founded_parameters {i : Nat} {names : List String} (h : Lowered C (.parameters i names) S rs S')
    (hS : S.Founded C A) (hzero : S.block = 0) : ∃ A' : Allotment,
      A'.vars = A.vars ++ names.map VariableDecl.scalar ∧ S'.Founded C A' ∧ S'.block = 0 := by
  induction names generalizing S i A with
  | nil =>
    cases h
    exact ⟨A, (List.append_nil _).symm, hS, hzero⟩
  | cons name names ih =>
    cases h with
    | parametersCons hslot hv hstore hl hrest =>
      -- an allocation, the value that was passed, and the store of it
      cases hslot with
      | op _ hslot =>
      obtain ⟨rfl, rfl⟩ := hv.of_op
      obtain rfl := hstore.of_store
      have hins := hslot.instruction?
      unfold Site.place at hins
      rw [hzero] at hins
      have hS₁ := hS.declare (d := .scalar name) hzero S.next.next.skip rfl rfl hl (.scalar rfl hins)
        (show S.index + 0 < S.index + 3 by omega)
      obtain ⟨A₁, hA₁, hS₂, hzero₂⟩ := ih hrest hS₁ hzero
      refine ⟨A₁, ?_, hS₂, hzero₂⟩
      rw [hA₁, List.append_assoc]
      rfl

/-- The uses of elements in the statements behind some declarations. -/
theorem uses_statements {rest : List Node} (h : Lowered C (.sequence last (ds ++ rest)) S rs S')
    (hds : ∀ d ∈ ds, d.Declares) (hplain : Node.AllPlain rest) (hv : S.Valid) (hS : S.Founded C A)
    (hzero : S.block = 0) : ∃ A' : Allotment, A'.vars = A.vars ++ ds.filterMap Node.declaration? ∧
      ∀ u ∈ (Node.allParts rest).filterMap Node.elementUse?, C.Uses A' u := by
  obtain ⟨last', S₁, hfirst, hrest⟩ := h.sequence_append
  obtain ⟨A', hA', hS', -⟩ := hfirst.founded_declarations hds hS hzero
  exact ⟨A', hA', hrest.elementUses hplain ((hfirst.region hv trivial).valid hv) hS'⟩

theorem uses_subprogram {heading : Prototype} {body : List Node} {g : Nat} {name : Option String} {G : Globals}
    {v : Register} (h : Lowered C (.subprogram heading body) (.opened g name G) [v] S') (hbody : heading.Body body) :
    ∃ A : Allotment, A.vars = heading.params.map VariableDecl.scalar ++ body.filterMap Node.declaration? ∧
      ∀ u ∈ (Node.allParts body).filterMap Node.elementUse?, C.Uses A u := by
  obtain ⟨decls, rest, rfl, hplain⟩ := hbody.split
  obtain ⟨S₁, rs', S₂, hparams, hv, hseq⟩ := h.subprogram_body (Site.opened_valid g name G)
  obtain ⟨A₁, hA₁, hS₁, hzero⟩ := hparams.founded_parameters (.opened C g name G) rfl
  obtain ⟨A₂, hA₂, huses⟩ := hseq.uses_statements (Node.declares_variables decls) hplain hv hS₁ hzero
  refine ⟨A₂, ?_, fun u hu => huses u ?_⟩
  · rw [hA₂, hA₁, List.filterMap_append, hplain.no_declarations, List.append_nil]
    rfl
  · rw [Node.allParts_append, List.filterMap_append, Node.elementUses_variables] at hu
    exact hu

theorem uses_declaration {s : Segment} (h : Lowered C (.node d) S rs S') (hd : d.Declares)
    (hs : d.segment? = some s) : ∃ A : Allotment, A.vars = s.vars ∧ ∀ u ∈ s.elementUses, C.Uses A u := by
  cases d with
  | subprogram heading body =>
    obtain rfl := Option.some.inj hs
    cases h with
    | define _ hbody _ => exact hbody.uses_subprogram hd
  | _ => cases hs

theorem uses_declarations (h : Lowered C (.sequence last ds) S rs S')
    (hds : ∀ d ∈ ds, d.Declares) : ∀ s ∈ ds.filterMap Node.segment?, ∃ A : Allotment, A.vars = s.vars ∧
      ∀ u ∈ s.elementUses, C.Uses A u := by
  induction ds generalizing S last with
  | nil => exact fun s hs => by cases hs
  | cons d ds ih =>
    intro s hs
    cases h with
    | sequenceCons hfirst hrest =>
      obtain ⟨d', hd', hsegment⟩ := List.mem_filterMap.mp hs
      rcases List.mem_cons.mp hd' with rfl | hd'
      · exact hfirst.uses_declaration (hds _ List.mem_cons_self) hsegment
      · exact ih hrest (fun d hd => hds d (List.mem_cons_of_mem _ hd)) s
          (List.mem_filterMap.mpr ⟨d', hd', hsegment⟩)

end Lowered

/-- Every use of an element in a program stands in the code of a routine that has the variables in force there. -/
theorem Program.Compiled.elementUses {p : Program} {C : Code} {v : Register} {S : Site} (h : p.Compiled C v S)
    (hp : p.Formed) : ∀ s ∈ p.segments, ∃ A : Allotment, A.vars = s.vars ∧ ∀ u ∈ s.elementUses, C.Uses A u := by
  intro s hs
  have hv := Site.opened_valid 0 none .initial
  cases h.lowered with
  | program hdecls hbody _ =>
    rcases List.mem_cons.mp hs with rfl | hs
    · obtain ⟨A, hA, hS, -⟩ := hdecls.founded_declarations hp.declarations (.opened C 0 none .initial) rfl
      refine ⟨A, hA, fun u hu => hbody.elementUses hp.body ((hdecls.region hv trivial).valid hv) hS u ?_⟩
      rw [Segment.elementUses, Node.allParts, Node.allParts, List.append_nil] at hu
      exact hu
    · exact hdecls.uses_declarations hp.declarations s hs

end Mila
