import Mila.Compile
import Mila.Proofs.Blocks

/-! # What compiled code looks like

The code of a construct, described apart from the compilation that emits it. A `Site` is a place in a
routine under construction together with all that later code depends on: the names in force, the exits
taken so far, and how many blocks and registers there are. `Lowered C phrase S values S'` says that the
complete code `C` holds the code of the phrase from site `S` to site `S'`, and that the phrase yields the
given registers.

Everything that is known of compiled code is derived from this relation.
-/

namespace Mila

def Operation.isPhi : Operation → Bool
  | .phi _ => true
  | _ => false

namespace BinaryOperator

/-- The instruction of an operator that computes a number. -/
def arithmetic? : BinaryOperator → Option Arithmetic
  | add => some .add
  | sub => some .sub
  | mul => some .mul
  | div => some .div
  | mod => some .rem
  | _ => none

/-- The instruction of an operator that compares. -/
def comparison? : BinaryOperator → Option Comparison
  | lt => some .lt
  | le => some .le
  | gt => some .gt
  | ge => some .ge
  | eq => some .eq
  | ne => some .ne
  | _ => none

/-- The instruction of an operator on truth values. -/
def logical? : BinaryOperator → Option Arithmetic
  | and => some .and
  | or => some .or
  | _ => none

end BinaryOperator

/-- A place in a routine under construction. -/
structure Site where
  routine : Nat
  resultName : Option String
  globals : Globals
  locals : Locals
  returns : List (Register × BlockRef)
  /-- The block at hand. -/
  block : Nat
  /-- How many instructions the block at hand has. -/
  index : Nat
  /-- How many blocks the routine has. -/
  blocks : Nat
  /-- How many registers the routine has. -/
  registers : Nat

namespace Site

/-- A block of the routine at hand. -/
def ref (S : Site) (block : Nat) : BlockRef := ⟨S.routine, block⟩

/-- The block at hand. -/
def place (S : Site) : BlockRef := ⟨S.routine, S.block⟩

/-- Behind an instruction that defines a register. -/
def next (S : Site) : Site := { S with index := S.index + 1, registers := S.registers + 1 }

/-- Behind an instruction that defines no register. -/
def skip (S : Site) : Site := { S with index := S.index + 1 }

/-- At the start of a block. -/
def move (S : Site) (block : Nat) : Site := { S with block, index := 0 }

/-- With more blocks. -/
def grow (S : Site) (count : Nat) : Site := { S with blocks := S.blocks + count }

/-- With one more way to leave the routine. -/
def leave (S : Site) (value : Register) : Site :=
  { S with returns := S.returns ++ [(value, S.place)] }

/-- At the start of a routine. -/
def opened (routine : Nat) (resultName : Option String) (globals : Globals) : Site :=
  ⟨routine, resultName, globals, .empty, [], 0, 0, 2, 0⟩

theorem get?_opened (routine : Nat) (resultName : Option String) (globals : Globals) (name : String) :
    (opened routine resultName globals).locals.get? name = none := Std.TreeMap.getElem?_emptyc

end Site

namespace Code

/-- The instruction at a site. -/
def Has (C : Code) (S : Site) (i : Instruction) : Prop :=
  ∃ b, C.block? S.place = some b ∧ b.body[S.index]? = some i

/-- The block at hand ends at a site. -/
def Ends (C : Code) (S : Site) (e : Exit) : Prop :=
  ∃ b, C.block? S.place = some b ∧ b.body.size = S.index ∧ b.exit = some e

/-- The return block of a routine, which merges the values that are carried to it unless there is only
one. The routine has no registers besides the given number and the merge. -/
def Returns (C : Code) (routine registers : Nat) : List (Register × BlockRef) → Prop
  | [(value, _)] =>
    C.registersOf routine = registers ∧
      ∃ b, C.block? ⟨routine, 1⟩ = some b ∧ b.body = #[] ∧ b.exit = some (.ret value)
  | returns =>
    C.registersOf routine = registers + 1 ∧
      ∃ b, C.block? ⟨routine, 1⟩ = some b ∧ b.body = #[.define registers (.phi returns)] ∧
        b.exit = some (.ret registers)

/-- The routine is complete: its body ends at a site with a value, and the return block is in place. -/
structure Finishes (C : Code) (S : Site) (value : Register) : Prop where
  ends : C.Ends S (.jump (S.ref 1))
  blocks : C.blocksOf S.routine = S.blocks
  returns : C.Returns S.routine S.registers (S.leave value).returns

end Code

/-- The pieces that code is made of. -/
inductive Phrase where
  /-- One operation, other than a merge. -/
  | op (operation : Operation)
  | store (value slot : Register)
  /-- The truth value of a register. -/
  | booleanize (value : Register)
  /-- An operator on two registers. -/
  | combine (op : BinaryOperator) (lhs rhs : Register)
  /-- The value that `exit` leaves with. -/
  | result
  | node (n : Node)
  /-- A node whose value is needed. -/
  | value (n : Node)
  /-- The place that a node names. -/
  | target (n : Node)
  | sequence (last : Option Register) (nodes : List Node)
  | arguments (nodes : List Node)
  | parameters (index : Nat) (names : List String)
  /-- The whole of the main routine. -/
  | program (p : Program)
  /-- The whole of a routine. -/
  | subprogram (p : Prototype) (body : List Node)

/-- The code of a phrase between two sites, and the registers that the phrase yields. -/
inductive Lowered (C : Code) : Phrase → Site → List Register → Site → Prop where
  | op {o : Operation} {S : Site} (hphi : o.isPhi = false)
      (hhas : C.Has S (.define S.registers o)) : Lowered C (.op o) S [S.registers] S.next
  | store {v slot : Register} {S : Site} (hhas : C.Has S (.store v slot)) :
      Lowered C (.store v slot) S [] S.skip
  | booleanize {v z r : Register} {S S₁ S₂ : Site}
      (hzero : Lowered C (.op (.const 0)) S [z] S₁)
      (htest : Lowered C (.op (.compare .ne v z)) S₁ [r] S₂) :
      Lowered C (.booleanize v) S [r] S₂
  | arithmetic {op : BinaryOperator} {a : Arithmetic} {l r x : Register} {S S₁ : Site}
      (hop : op.arithmetic? = some a) (h : Lowered C (.op (.arith a l r)) S [x] S₁) :
      Lowered C (.combine op l r) S [x] S₁
  | comparison {op : BinaryOperator} {c : Comparison} {l r x : Register} {S S₁ : Site}
      (hop : op.comparison? = some c) (h : Lowered C (.op (.compare c l r)) S [x] S₁) :
      Lowered C (.combine op l r) S [x] S₁
  | logical {op : BinaryOperator} {a : Arithmetic} {l r l' r' x : Register} {S S₁ S₂ S₃ : Site}
      (hop : op.logical? = some a) (hl : Lowered C (.booleanize l) S [l'] S₁)
      (hr : Lowered C (.booleanize r) S₁ [r'] S₂)
      (h : Lowered C (.op (.arith a l' r')) S₂ [x] S₃) : Lowered C (.combine op l r) S [x] S₃
  | resultVariable {b : Binding} {v : Register} {S S₁ : Site}
      (hb : S.resultName.bind S.locals.get? = some b)
      (h : Lowered C (.op (.load b.slot)) S [v] S₁) : Lowered C .result S [v] S₁
  | resultZero {v : Register} {S S₁ : Site} (hb : S.resultName.bind S.locals.get? = none)
      (h : Lowered C (.op (.const 0)) S [v] S₁) : Lowered C .result S [v] S₁
  | number {w : Word} {r : Register} {S S₁ : Site} (h : Lowered C (.op (.const w)) S [r] S₁) :
      Lowered C (.node (.number w)) S [r] S₁
  | constantDecl {name : String} {w : Word} {S : Site} {g : Globals}
      (h : S.globals.defineConstant? name w = some g) :
      Lowered C (.node (.constantDecl name w)) S [] { S with globals := g }
  | scalarDecl {d : VariableDecl} {slot : Register} {S S₁ : Site} {l : Locals}
      (hd : d.isArray = false) (h : Lowered C (.op (.alloca 1)) S [slot] S₁)
      (hl : S₁.locals.declare? d.name ⟨slot, .scalar⟩ = some l) :
      Lowered C (.node (.variableDecl d)) S [] { S₁ with locals := l }
  | arrayDecl {d : VariableDecl} {cells bias slot : Register} {S S₁ S₂ S₃ : Site} {l : Locals}
      (hd : d.isArray = true) (hcells : Lowered C (.op (.alloca d.length)) S [cells] S₁)
      (hbias : Lowered C (.op (.const d.offset)) S₁ [bias] S₂)
      (hslot : Lowered C (.op (.offset cells bias)) S₂ [slot] S₃)
      (hl : S₃.locals.declare? d.name ⟨slot, .array⟩ = some l) :
      Lowered C (.node (.variableDecl d)) S [] { S₃ with locals := l }
  | readVariable {name : String} {slot r : Register} {S S₁ : Site}
      (hb : S.locals.get? name = some ⟨slot, .scalar⟩)
      (h : Lowered C (.op (.load slot)) S [r] S₁) : Lowered C (.node (.ident name)) S [r] S₁
  | readConstant {name : String} {w : Word} {r : Register} {S S₁ : Site}
      (hb : S.locals.get? name = none) (hw : S.globals.constant? name = some w)
      (h : Lowered C (.op (.const w)) S [r] S₁) : Lowered C (.node (.ident name)) S [r] S₁
  | element {name : String} {index : Node} {slot r : Register} {S S₁ S₂ : Site}
      (hslot : Lowered C (.target (.element name index)) S [slot] S₁)
      (h : Lowered C (.op (.load slot)) S₁ [r] S₂) :
      Lowered C (.node (.element name index)) S [r] S₂
  | targetVariable {name : String} {slot : Register} {S : Site}
      (hb : S.locals.get? name = some ⟨slot, .scalar⟩) :
      Lowered C (.target (.ident name)) S [slot] S
  | targetElement {name : String} {index : Node} {slot i r : Register} {S S₁ S₂ : Site}
      (hb : S.locals.get? name = some ⟨slot, .array⟩) (hi : Lowered C (.value index) S [i] S₁)
      (h : Lowered C (.op (.offset slot i)) S₁ [r] S₂) :
      Lowered C (.target (.element name index)) S [r] S₂
  | assign {lhs rhs : Node} {v slot : Register} {S S₁ S₂ S₃ : Site}
      (hv : Lowered C (.value rhs) S [v] S₁) (hslot : Lowered C (.target lhs) S₁ [slot] S₂)
      (h : Lowered C (.store v slot) S₂ [] S₃) :
      Lowered C (.node (.binary .assign lhs rhs)) S [v] S₃
  | binary {op : BinaryOperator} {lhs rhs : Node} {l r x : Register} {S S₁ S₂ S₃ : Site}
      (hop : op ≠ .assign) (hl : Lowered C (.value lhs) S [l] S₁)
      (hr : Lowered C (.value rhs) S₁ [r] S₂) (h : Lowered C (.combine op l r) S₂ [x] S₃) :
      Lowered C (.node (.binary op lhs rhs)) S [x] S₃
  | conditional {c t e : Node} {cv b tv ev : Register} {S S₁ S₂ S₃ S₄ : Site}
      (hc : Lowered C (.value c) S [cv] S₁) (hb : Lowered C (.booleanize cv) S₁ [b] S₂)
      (hfork : C.Ends S₂ (.branch b (S₂.ref S₂.blocks) (S₂.ref (S₂.blocks + 1))))
      (ht : Lowered C (.value t) ((S₂.grow 3).move S₂.blocks) [tv] S₃)
      (htend : C.Ends S₃ (.jump (S₂.ref (S₂.blocks + 2))))
      (he : Lowered C (.value e) (S₃.move (S₂.blocks + 1)) [ev] S₄)
      (heend : C.Ends S₄ (.jump (S₂.ref (S₂.blocks + 2))))
      (hphi : C.Has (S₄.move (S₂.blocks + 2))
        (.define S₄.registers (.phi [(tv, S₃.place), (ev, S₄.place)]))) :
      Lowered C (.node (.conditional c t e)) S [S₄.registers] (S₄.move (S₂.blocks + 2)).next
  | whileLoop {c body : Node} {cv b r : Register} {rs : List Register} {S S₁ S₂ S₃ S₄ : Site}
      (hstart : C.Ends S (.jump (S.ref S.blocks)))
      (hc : Lowered C (.value c) ((S.grow 3).move S.blocks) [cv] S₁)
      (hb : Lowered C (.booleanize cv) S₁ [b] S₂)
      (hfork : C.Ends S₂ (.branch b (S.ref (S.blocks + 1)) (S.ref (S.blocks + 2))))
      (hbody : Lowered C (.node body) (S₂.move (S.blocks + 1)) rs S₃)
      (hback : C.Ends S₃ (.jump (S.ref S.blocks)))
      (h : Lowered C (.op (.const 0)) (S₃.move (S.blocks + 2)) [r] S₄) :
      Lowered C (.node (.whileLoop c body)) S [r] S₄
  | forLoop {name : String} {dir : Direction} {start stop body : Node}
      {slot a z st c₁ t₁ c₂ n t₂ r : Register} {rs : List Register}
      {S S₁ S₂ S₃ S₄ S₅ S₆ S₇ S₈ S₉ S₁₀ S₁₁ S₁₂ : Site}
      (hv : S.locals.get? name = some ⟨slot, .scalar⟩)
      (hstart : Lowered C (.value start) S [a] S₁) (hset : Lowered C (.store a slot) S₁ [] S₂)
      (hstop : Lowered C (.value stop) S₂ [z] S₃)
      (hstep : Lowered C (.op (.const dir.step)) S₃ [st] S₄)
      (hjump : C.Ends S₄ (.jump (S₄.ref S₄.blocks)))
      (hfirst : Lowered C (.op (.load slot)) ((S₄.grow 3).move S₄.blocks) [c₁] S₅)
      (htest : Lowered C (.op (.compare dir.entryTest c₁ z)) S₅ [t₁] S₆)
      (hfork : C.Ends S₆ (.branch t₁ (S₄.ref (S₄.blocks + 1)) (S₄.ref (S₄.blocks + 2))))
      (hbody : Lowered C (.node body) { S₆.move (S₄.blocks + 1) with
        locals := (S₆.locals.shadow name ⟨slot, .scalar⟩).2 } rs S₇)
      (hload : Lowered C (.op (.load slot)) { S₇ with
        locals := S₇.locals.restore name (S₆.locals.shadow name ⟨slot, .scalar⟩).1 } [c₂] S₈)
      (hnext : Lowered C (.op (.arith .add c₂ st)) S₈ [n] S₉)
      (hstore : Lowered C (.store n slot) S₉ [] S₁₀)
      (hagain : Lowered C (.op (.compare dir.repeatTest c₂ z)) S₁₀ [t₂] S₁₁)
      (hback : C.Ends S₁₁ (.branch t₂ (S₄.ref (S₄.blocks + 1)) (S₄.ref (S₄.blocks + 2))))
      (h : Lowered C (.op (.const 0)) (S₁₁.move (S₄.blocks + 2)) [r] S₁₂) :
      Lowered C (.node (.forLoop name dir start stop body)) S [r] S₁₂
  | call {callee : String} {args : List Node} {entry : Subprogram} {params : List String}
      {rs : List Register} {r : Register} {S S₁ S₂ : Site}
      (hentry : S.globals.subprogram? callee = some entry)
      (hheading : C.heading? entry.routine = some (callee, params))
      (hparams : params.length = args.length) (hargs : Lowered C (.arguments args) S rs S₁)
      (h : Lowered C (.op (.call entry.routine rs)) S₁ [r] S₂) :
      Lowered C (.node (.call callee args)) S [r] S₂
  | intrinsic {which : Intrinsic} {name : String} {slot r : Register} {S S₁ : Site}
      (hb : S.locals.get? name = some ⟨slot, .scalar⟩)
      (h : Lowered C (.op (.intrinsic which slot)) S [r] S₁) :
      Lowered C (.node (.intrinsic which name)) S [r] S₁
  | exit {v r : Register} {S S₁ S₂ : Site} (hv : Lowered C .result S [v] S₁)
      (hleave : C.Ends S₁ (.jump (S₁.ref 1)))
      (h : Lowered C (.op (.const 0)) (((S₁.leave v).grow 1).move S₁.blocks) [r] S₂) :
      Lowered C (.node .exit) S [r] S₂
  | forwardKnown {p : Prototype} {entry : Subprogram} {S : Site}
      (h : S.globals.subprogram? p.name = some entry) : Lowered C (.node (.forward p)) S [] S
  | forwardNew {p : Prototype} {g : Nat} {S : Site} (h : S.globals.subprogram? p.name = none) :
      Lowered C (.node (.forward p)) S []
        { S with globals := S.globals.register p.name ⟨g, p.params.length, false⟩ }
  | define {p : Prototype} {body : List Node} {g : Nat} {v : Register} {S S₁ : Site}
      (hnew : ∀ entry, S.globals.subprogram? p.name = some entry →
        entry = ⟨g, p.params.length, false⟩)
      (hbody : Lowered C (.subprogram p body) (.opened g (Emit.resultNameOf p)
        (S.globals.register p.name ⟨g, p.params.length, true⟩)) [v] S₁)
      (hfinish : C.Finishes S₁ v) :
      Lowered C (.node (.subprogram p body)) S [] { S with globals := S₁.globals }
  | block {nodes : List Node} {rs : List Register} {S S₁ : Site}
      (h : Lowered C (.sequence none nodes) S rs S₁) : Lowered C (.node (.block nodes)) S rs S₁
  | value {n : Node} {r : Register} {S S₁ : Site} (h : Lowered C (.node n) S [r] S₁) :
      Lowered C (.value n) S [r] S₁
  | noValue {n : Node} {r : Register} {S S₁ S₂ : Site} (hn : Lowered C (.node n) S [] S₁)
      (h : Lowered C (.op (.const 0)) S₁ [r] S₂) : Lowered C (.value n) S [r] S₂
  | sequenceNil {last : Option Register} {S : Site} :
      Lowered C (.sequence last []) S last.toList S
  | sequenceCons {last value : Option Register} {n : Node} {nodes : List Node}
      {rs : List Register} {S S₁ S₂ : Site} (hn : Lowered C (.node n) S value.toList S₁)
      (h : Lowered C (.sequence value nodes) S₁ rs S₂) :
      Lowered C (.sequence last (n :: nodes)) S rs S₂
  | argumentsNil {S : Site} : Lowered C (.arguments []) S [] S
  | argumentsCons {n : Node} {nodes : List Node} {r : Register} {rs : List Register}
      {S S₁ S₂ : Site} (hn : Lowered C (.value n) S [r] S₁)
      (h : Lowered C (.arguments nodes) S₁ rs S₂) :
      Lowered C (.arguments (n :: nodes)) S (r :: rs) S₂
  | parametersNil {index : Nat} {S : Site} : Lowered C (.parameters index []) S [] S
  | parametersCons {index : Nat} {name : String} {names : List String} {slot v : Register}
      {S S₁ S₂ S₃ S₄ : Site} {l : Locals} (hslot : Lowered C (.op (.alloca 1)) S [slot] S₁)
      (hv : Lowered C (.op (.param index)) S₁ [v] S₂)
      (hstore : Lowered C (.store v slot) S₂ [] S₃)
      (hl : S₃.locals.declare? name ⟨slot, .scalar⟩ = some l)
      (h : Lowered C (.parameters (index + 1) names) { S₃ with locals := l } [] S₄) :
      Lowered C (.parameters index (name :: names)) S [] S₄
  | program {p : Program} {v : Register} {rs rs' : List Register} {S S₁ S₂ S₃ : Site}
      (hdecls : Lowered C (.sequence none p.declarations) S rs S₁)
      (hbody : Lowered C (.node p.body) S₁ rs' S₂)
      (h : Lowered C (.op (.const 0)) S₂ [v] S₃) : Lowered C (.program p) S [v] S₃
  | subprogram {p : Prototype} {body : List Node} {v : Register} {params : List String}
      {S S₁ S₂ : Site} (hheading : C.heading? S.routine = some (p.name, params))
      (hlength : params.length = p.params.length)
      (hparams : Lowered C (.parameters 0 p.params) S [] S₁)
      (h : Lowered C (.value (.block body)) S₁ [v] S₂) :
      Lowered C (.subprogram p body) S [v] S₂

end Mila
