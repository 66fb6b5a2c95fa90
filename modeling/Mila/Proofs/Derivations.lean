import Mila.Proofs.Grammar

/-! # What derivations build

Many properties of a program are handed on from its parts to the whole. What is to be shown for each of them is that
every rule of the grammar does so; then all programs that the grammar derives have the property.
-/

namespace Mila

theorem Chain.Grouped.inherits {E : Node → Prop}
    (hbinary : ∀ {op l r}, op ≠ .assign → E l → E r → E (.binary op l r)) {c : Chain Node} {n : Node}
    (h : Grouped .binary c n) (hfirst : E c.first) (hrest : ∀ x ∈ c.rest, x.1 ≠ .assign ∧ E x.2) : E n := by
  induction h with
  | single x => exact hfirst
  | @join l r op x y _ _ _ _ ihl ihr =>
    have hmiddle := hrest (op, r.first) (List.mem_append_right _ List.mem_cons_self)
    refine hbinary hmiddle.1 (ihl hfirst fun x hx => hrest x (List.mem_append_left _ hx))
      (ihr hmiddle.2 fun x hx => ?_)
    exact hrest x (List.mem_append_right _ (List.mem_cons_of_mem _ hx))

namespace Grammar

/-! ## 1. Expressions and statements -/

/-- Properties of expressions and of statements that the rules for them hand on, where all tokens are known to be of
a kind. -/
structure Inherits (Q : Kind → Prop) (E S : Node → Prop) : Prop where
  number {ks : List Kind} {value : Word} (h : Number ks value) (hks : ∀ k ∈ ks, Q k) : E (.number value)
  ident {name : String} (hname : Q (.identifier name)) : E (.ident name)
  element {name : String} {index : Node} (hname : Q (.identifier name)) (h : E index) : E (.element name index)
  operand {name : String} {args : List Node} (hname : Q (.identifier name)) (h : ∀ n ∈ args, E n) :
    E (.call name args)
  binary {op : BinaryOperator} {lhs rhs : Node} (hop : op ≠ .assign) (hl : E lhs) (hr : E rhs) :
    E (.binary op lhs rhs)
  assign {target value : Node} (ht : E target) (hv : E value) : S (.binary .assign target value)
  call {name : String} {args : List Node} (hname : Q (.identifier name) ∨ name = "writeln")
    (h : ∀ n ∈ args, E n) : S (.call name args)
  exit : S .exit
  intrinsic {name : String} (which : Intrinsic) (hname : Q (.identifier name)) : S (.intrinsic which name)
  noElse : S (.number 0)
  conditional {c t e : Node} (hc : E c) (ht : S t) (he : S e) : S (.conditional c t e)
  whileLoop {c b : Node} (hc : E c) (hb : S b) : S (.whileLoop c b)
  forLoop {name : String} {d : Direction} {start stop b : Node} (hname : Q (.identifier name)) (hs : E start)
    (hz : E stop) (hb : S b) : S (.forLoop name d start stop b)
  block {nodes : List Node} (h : ∀ n ∈ nodes, S n) : S (.block nodes)

def Term.Has (E : Node → Prop) : Term → Prop
  | .operand n | .expression n => E n
  | .tail rest => ∀ x ∈ rest, x.1 ≠ .assign ∧ E x.2
  | .arguments args | .list args => ∀ n ∈ args, E n

def Clause.Has (S : Node → Prop) : Clause → Prop
  | .statement _ s => S (branch s)
  | .statements nodes => ∀ n ∈ nodes, S n
  | .block n => S n

section

variable {Q : Kind → Prop} {E S : Node → Prop} (h : Inherits Q E S) {ks : List Kind}

include h

theorem Spells.has {t : Term} (hspells : Spells ks t) (hks : ∀ k ∈ ks, Q k) : t.Has E := by
  induction hspells with
  | number hn => exact h.number hn hks
  | ident name => exact h.ident (List.forall_mem_singleton.mp hks)
  | element name _ ih =>
    simp only [List.forall_mem_append, List.forall_mem_singleton] at hks
    exact h.element hks.1.1.1 (ih hks.1.2)
  | call name _ ih =>
    simp only [List.forall_mem_append, List.forall_mem_singleton] at hks
    exact h.operand hks.1.1.1 (ih hks.1.2)
  | parentheses _ ih =>
    simp only [List.forall_mem_append] at hks
    exact ih hks.1.2
  | tailNil | noArguments => exact nofun
  | tailCons hop _ _ ih ih' =>
    simp only [List.forall_mem_append] at hks
    refine List.forall_mem_cons.mpr ⟨⟨?_, ih hks.1.2⟩, ih' hks.2⟩
    rintro rfl
    cases hop
  | expression _ _ hgroup ih ih' =>
    rw [List.forall_mem_append] at hks
    exact hgroup.inherits h.binary (ih hks.1) (ih' hks.2)
  | someArguments _ ih => exact ih hks
  | listLast _ ih => exact List.forall_mem_singleton.mpr (ih hks)
  | listCons _ _ ih ih' =>
    simp only [List.forall_mem_append] at hks
    exact List.forall_mem_cons.mpr ⟨ih hks.1.1, ih' hks.2⟩

theorem Command.has {s : Option Node} (hcommand : Command ks s) (hks : ∀ k ∈ ks, Q k) : S (branch s) := by
  cases hcommand with
  | assign ht hv =>
    simp only [List.forall_mem_append] at hks
    refine h.assign ?_ (hv.has h hks.2)
    rcases ht with name | ⟨name, hindex⟩
    · exact h.ident (List.forall_mem_singleton.mp hks.1.1)
    · have hts := hks.1.1
      simp only [List.forall_mem_append, List.forall_mem_singleton] at hts
      exact h.element hts.1.1.1 (hindex.has h hts.1.2)
  | call name hargs =>
    simp only [List.forall_mem_append, List.forall_mem_singleton] at hks
    exact h.call (.inl hks.1.1.1) (hargs.has h hks.1.2)
  | writeln hargs =>
    simp only [List.forall_mem_append] at hks
    exact h.call (.inr rfl) (hargs.has h hks.1.2)
  | exit => exact h.exit
  | intrinsic which name =>
    simp only [List.forall_mem_append, List.forall_mem_singleton] at hks
    exact h.intrinsic which hks.1.2
  | write _ => exact h.block nofun

theorem Says.has {c : Clause} (hclause : Says ks c) (hks : ∀ k ∈ ks, Q k) : c.Has S := by
  have htoList : ∀ {s : Option Node}, S (branch s) → ∀ n ∈ s.toList, S n := by
    rintro s hs n hn
    obtain rfl := Option.mem_toList.mp hn
    exact hs
  induction hclause with
  | command hcommand => exact hcommand.has h hks
  | nested _ ih => exact ih hks
  | ifThen hc _ ih =>
    simp only [List.forall_mem_append] at hks
    exact h.conditional (hc.has h hks.1.1.2) (ih hks.2) h.noElse
  | ifElse hc _ _ iht ihe =>
    simp only [List.forall_mem_append] at hks
    exact h.conditional (hc.has h hks.1.1.1.1.2) (iht hks.1.1.2) (ihe hks.2)
  | whileLoop hc _ ih =>
    simp only [List.forall_mem_append] at hks
    exact h.whileLoop (hc.has h hks.1.1.2) (ih hks.2)
  | forLoop name d hs hz _ ih =>
    simp only [List.forall_mem_append, List.forall_mem_singleton] at hks
    obtain ⟨⟨⟨⟨⟨⟨⟨-, hname⟩, -⟩, hstart⟩, -⟩, hstop⟩, -⟩, hbody⟩ := hks
    exact h.forLoop hname (hs.has h hstart) (hz.has h hstop) (ih hbody)
  | last _ ih => exact htoList (ih hks)
  | lastSemicolon _ ih =>
    rw [List.forall_mem_append] at hks
    exact htoList (ih hks.1)
  | cons _ _ ih ih' =>
    simp only [List.forall_mem_append] at hks
    exact List.forall_mem_append.mpr ⟨htoList (ih hks.1.1), ih' hks.2⟩
  | block _ ih =>
    simp only [List.forall_mem_append] at hks
    exact h.block (ih hks.1.2)

end

/-! ## 2. Declarations -/

/-- The same for variables and for declarations, next to a property of the blocks in them. -/
structure Hands (Q : Kind → Prop) (Range : Word → Word → Prop) (S : Node → Prop) (V : VariableDecl → Prop)
    (D : Node → Prop) : Prop where
  declared {name : String} {ts : List Kind} {bounds : Option (Word × Word)} (hname : Q (.identifier name))
    (ht : TypeName ts bounds) (hts : ∀ k ∈ ts, Q k)
    (hrange : ∀ low high, bounds = some (low, high) → Range low high) : V (declared bounds name)
  var {d : VariableDecl} (hd : V d) : D (.variableDecl d)
  constant {name : String} {ks : List Kind} {value : Word} (hname : Q (.identifier name)) (h : Number ks value)
    (hks : ∀ k ∈ ks, Q k) : D (.constantDecl name value)
  forward {p : Prototype} (hp : ∀ k ∈ heading p, Q k) : D (.forward p)
  subprogram {p : Prototype} {decls : List VariableDecl} {block : Node} (hp : ∀ k ∈ heading p, Q k)
    (hdecls : ∀ d ∈ decls, V d) (hblock : S block) : D (subprogram p decls block)

section

variable {Q : Kind → Prop} {Range : Word → Word → Prop} {E S : Node → Prop} {V : VariableDecl → Prop}
  {D : Node → Prop} (h : Hands Q Range S V D) {ks : List Kind}

theorem identifier_mem_names {first name : String} {others : List String} (h : name ∈ first :: others) :
    .identifier name ∈ names first others := by
  unfold names
  rcases List.mem_cons.mp h with rfl | h
  · exact List.mem_append_left _ List.mem_cons_self
  · exact List.mem_append_right _ (List.mem_flatMap.mpr ⟨name, h, List.mem_append_right _ List.mem_cons_self⟩)

include h

variable {decls : List VariableDecl} {nodes : List Node}

theorem VariableLines.has (hlines : VariableLines Range ks decls) (hks : ∀ k ∈ ks, Q k) : ∀ d ∈ decls, V d := by
  have hline : ∀ {ks decls}, VariableLine Range ks decls → (∀ k ∈ ks, Q k) → ∀ d ∈ decls, V d := by
    rintro ks decls ⟨first, others, ht, hrange⟩ hks d hd
    obtain ⟨name, hname, rfl⟩ := List.mem_map.mp hd
    simp only [List.forall_mem_append] at hks
    exact h.declared (hks.1.1.1 _ (identifier_mem_names hname)) ht hks.1.2 hrange
  induction hlines with
  | last hfirst => exact hline hfirst hks
  | cons hfirst _ ih =>
    rw [List.forall_mem_append] at hks
    exact List.forall_mem_append.mpr ⟨hline hfirst hks.1, ih hks.2⟩

theorem LocalVariables.has (hlocals : LocalVariables Range ks decls) (hks : ∀ k ∈ ks, Q k) : ∀ d ∈ decls, V d := by
  induction hlocals with
  | nil => exact nofun
  | cons hlines _ ih =>
    simp only [List.forall_mem_append] at hks
    exact List.forall_mem_append.mpr ⟨hlines.has h hks.1.2, ih hks.2⟩

theorem ConstantLines.has (hlines : ConstantLines ks nodes) (hks : ∀ k ∈ ks, Q k) : ∀ n ∈ nodes, D n := by
  induction hlines with
  | last name hvalue =>
    simp only [List.forall_mem_append, List.forall_mem_singleton] at hks
    exact List.forall_mem_singleton.mpr (h.constant hks.1.1.1 hvalue hks.1.2)
  | cons name hvalue _ ih =>
    simp only [List.forall_mem_append, List.forall_mem_singleton] at hks
    exact List.forall_mem_cons.mpr ⟨h.constant hks.1.1.1.1 hvalue hks.1.1.2, ih hks.2⟩

theorem Declares.has (hblock : Inherits Q E S) (hdeclares : Declares Range ks nodes)
    (hks : ∀ k ∈ ks, Q k) : ∀ n ∈ nodes, D n := by
  rcases hdeclares with hv | hc | p | ⟨p, hv, hb⟩
  · rw [List.forall_mem_append] at hks
    intro n hn
    obtain ⟨d, hd, rfl⟩ := List.mem_map.mp hn
    exact h.var (hv.has h hks.2 d hd)
  · rw [List.forall_mem_append] at hks
    exact hc.has h hks.2
  · simp only [List.forall_mem_append] at hks
    exact List.forall_mem_singleton.mpr (h.forward hks.1.1)
  · simp only [List.forall_mem_append] at hks
    exact List.forall_mem_singleton.mpr
      (h.subprogram hks.1.1.1 (hv.has h hks.1.1.2) (hb.has hblock hks.1.2))

theorem Declarations.has (hblock : Inherits Q E S) (hdecls : Declarations Range ks nodes)
    (hks : ∀ k ∈ ks, Q k) : ∀ n ∈ nodes, D n := by
  induction hdecls with
  | nil => exact nofun
  | cons hfirst _ ih =>
    rw [List.forall_mem_append] at hks
    exact List.forall_mem_append.mpr ⟨hfirst.has h hblock hks.1, ih hks.2⟩

/-- The name, the declarations and the block of a program that is derived. -/
theorem Derives.has (hblock : Inherits Q E S) {p : Program} (hderives : Derives Range ks p)
    (hks : ∀ k ∈ ks, Q k) : Q (.identifier p.name) ∧ (∀ n ∈ p.declarations, D n) ∧ S p.body := by
  cases hderives with
  | program name hd hb =>
    simp only [List.forall_mem_append, List.forall_mem_singleton] at hks
    obtain ⟨⟨⟨⟨⟨-, hname⟩, -⟩, hsections⟩, hbody⟩, -⟩ := hks
    exact ⟨hname, hd.has h hblock hsections, hb.has hblock hbody⟩

end

end Grammar

end Mila
