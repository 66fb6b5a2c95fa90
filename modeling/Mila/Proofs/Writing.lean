import Mila.Proofs.Derivations
import Mila.Proofs.Spelling

/-! # Writing programs

A program tree written as source text, in one way out of many: each declaration by itself, an empty block with an
empty text in it, no `else` for an arm that is missing, and parentheses only where the grouping needs them. The
text of a program that was read is read as the same program again.
-/

namespace Mila

namespace Grammar

/-! ## 1. The tokens of a program -/

def numberTokens (value : Word) : List Kind :=
  if 0 ≤ value then [.integer value] else sign .minus ++ [.integer (-value)]

/-- Whether a tree is that of an operator that binds less tight than `p`. -/
def bindsBelow (p : Nat) : Node → Bool
  | .binary op _ _ => op.precedence < p
  | _ => false

theorem bindsBelow_zero (n : Node) : bindsBelow 0 n = false := by
  cases n <;> simp [bindsBelow]

/-- Tokens in parentheses, if these are needed. -/
def enclosed (needed : Bool) (ks : List Kind) : List Kind :=
  if needed then sign .lparen ++ ks ++ sign .rparen else ks

mutual

/-- The tokens of an expression. On the left of an operator, one that binds less tight needs parentheses; on the
right, also one that binds equally tight. -/
def expressionTokens : Node → List Kind
  | .number value => numberTokens value
  | .ident name => ident name
  | .element name index => ident name ++ sign .lbracket ++ expressionTokens index ++ sign .rbracket
  | .call callee args => ident callee ++ sign .lparen ++ argumentTokens args ++ sign .rparen
  | .binary op lhs rhs =>
    enclosed (bindsBelow op.precedence lhs) (expressionTokens lhs) ++ (symbol? op).toList ++
      enclosed (bindsBelow (op.precedence + 1) rhs) (expressionTokens rhs)
  | _ => []

/-- Arguments with commas between them. -/
def argumentTokens : List Node → List Kind
  | [] => []
  | [last] => expressionTokens last
  | first :: rest => expressionTokens first ++ sign .comma ++ argumentTokens rest

end

/-- What a call statement starts with. -/
def calleeTokens (callee : String) : List Kind :=
  if callee = Keyword.writeln.text then word .writeln else ident callee

/-- Whether a tree is the number zero, as which a missing `else` arm is read. -/
def isZero : Node → Bool
  | .number value => value == 0
  | _ => false

mutual

/-- The tokens of a statement. -/
def statementTokens : Node → List Kind
  | .binary _ target value => expressionTokens target ++ sign .assign ++ expressionTokens value
  | .call callee args => calleeTokens callee ++ sign .lparen ++ argumentTokens args ++ sign .rparen
  | .exit => word .exit
  | .intrinsic which name => word (keyword which) ++ sign .lparen ++ ident name ++ sign .rparen
  | .conditional condition thenArm elseArm =>
    word .if ++ expressionTokens condition ++ word .then ++ statementTokens thenArm ++
      if isZero elseArm then [] else word .else ++ statementTokens elseArm
  | .whileLoop condition body =>
    word .while ++ expressionTokens condition ++ word .do ++ statementTokens body
  | .forLoop name d start stop body =>
    word .for ++ ident name ++ sign .assign ++ expressionTokens start ++ word (direction d) ++
      expressionTokens stop ++ word .do ++ statementTokens body
  | .block nodes => word .begin ++ statementsTokens nodes ++ word .end
  | _ => []

/-- Statements with semicolons between them. Where there is none, a text that leaves no node is written. -/
def statementsTokens : List Node → List Kind
  | [] => word .write ++ sign .lparen ++ sign .quote ++ sign .quote ++ sign .rparen
  | [last] => statementTokens last
  | first :: rest => statementTokens first ++ sign .semicolon ++ statementsTokens rest

end

def typeTokens (d : VariableDecl) : List Kind :=
  if d.isArray then
    word .array ++ sign .lbracket ++ numberTokens d.bounds.1 ++ sign .range ++ numberTokens d.bounds.2 ++
      sign .rbracket ++ word .of ++ word .integer
  else word .integer

/-- A line that declares one variable. -/
def lineTokens (d : VariableDecl) : List Kind := ident d.name ++ sign .colon ++ typeTokens d ++ sign .semicolon

/-- The variables of a subprogram. The nodes of its body behind them are the variable of its result, if it has
one, its block, and its value. -/
def variablesOf (p : Prototype) (body : List Node) : List Node :=
  match p.kind with
  | .function => body.dropLast.dropLast.dropLast
  | .procedure => body.dropLast.dropLast

/-- The block of a subprogram. -/
def blockOf (body : List Node) : Node := body.dropLast.getLastD (.block [])

/-- The tokens of a declaration other than a subprogram. -/
def sectionTokens : Node → List Kind
  | .variableDecl d => word .var ++ lineTokens d
  | .constantDecl name value => word .const ++ (ident name ++ sign .eq ++ numberTokens value ++ sign .semicolon)
  | .forward p => heading p ++ word .forward ++ sign .semicolon
  | _ => []

/-- The tokens of a declaration. -/
def declarationTokens : Node → List Kind
  | .subprogram p body =>
    heading p ++ (variablesOf p body).flatMap sectionTokens ++ statementTokens (blockOf body) ++ sign .semicolon
  | d => sectionTokens d

/-- The tokens of a program. -/
def programTokens (p : Program) : List Kind :=
  word .program ++ ident p.name ++ sign .semicolon ++ p.declarations.flatMap declarationTokens ++
    statementTokens p.body ++ sign .dot

/-! ## 2. Tokens that can be written -/

def AllSpellable (ks : List Kind) : Prop := ∀ k ∈ ks, k.Spellable

namespace AllSpellable

variable {ks ks' : List Kind}

theorem nil : AllSpellable [] := fun _ h => by cases h

theorem append (h : AllSpellable ks) (h' : AllSpellable ks') : AllSpellable (ks ++ ks') :=
  List.forall_mem_append.mpr ⟨h, h'⟩

theorem sign (symbol : Operator) : AllSpellable (Grammar.sign symbol) := List.forall_mem_singleton.mpr trivial

theorem word (keyword : Keyword) : AllSpellable (Grammar.word keyword) := List.forall_mem_singleton.mpr trivial

theorem ident {name : String} (h : IsName name) : AllSpellable (Grammar.ident name) :=
  List.forall_mem_singleton.mpr h

theorem behind {name : String} (hname : IsName name) (opening closing : Operator) (h : AllSpellable ks) :
    AllSpellable (Grammar.ident name ++ Grammar.sign opening ++ ks ++ Grammar.sign closing) :=
  (((ident hname).append (sign _)).append h).append (sign _)

theorem enclosed (h : AllSpellable ks) (needed : Bool) : AllSpellable (Grammar.enclosed needed ks) := by
  cases needed with
  | true => exact ((sign _).append h).append (sign _)
  | false => exact h

theorem flatMap {α : Type} {f : α → List Kind} {l : List α} (h : ∀ a ∈ l, AllSpellable (f a)) :
    AllSpellable (l.flatMap f) := by
  intro k hk
  obtain ⟨a, ha, hk⟩ := List.mem_flatMap.mp hk
  exact h a ha k hk

end AllSpellable

/-! ## 3. Expressions -/

theorem numberTokens_spec {value : Word} (h : value ≠ Int32.minValue) :
    Number (numberTokens value) value ∧ AllSpellable (numberTokens value) := by
  unfold numberTokens
  split
  · next hle => exact ⟨.plain value, List.forall_mem_singleton.mpr hle⟩
  · next hlt =>
    have hneg : 0 ≤ -value := by
      rcases Int32.le_total 0 (-value) with hle | hle
      · exact hle
      · rcases (Int32.neg_nonpos_iff value).mp hle with hmin | hle
        · exact absurd hmin h
        · exact absurd hle hlt
    have hnumber := Number.negative (-value)
    rw [Int32.neg_neg] at hnumber
    exact ⟨hnumber, (AllSpellable.sign _).append (List.forall_mem_singleton.mpr hneg)⟩

/-- Tokens that spell a tree, where all operators outside of parentheses bind at least as tight as `p`. -/
def SpellsAbove (p : Nat) (ks : List Kind) (n : Node) : Prop :=
  ∃ (c : Chain Node) (fs rs : List Kind), ks = fs ++ rs ∧ Spells fs (.operand c.first) ∧
    Spells rs (.tail c.rest) ∧ Chain.Grouped .binary c n ∧ ∀ o ∈ c.operators, p ≤ o.precedence

theorem Spells.tail_append {ks ks' : List Kind} {rest rest' : List (BinaryOperator × Node)}
    (h : Spells ks (.tail rest)) (h' : Spells ks' (.tail rest')) : Spells (ks ++ ks') (.tail (rest ++ rest')) := by
  generalize ht : Term.tail rest = t at h
  induction h generalizing rest with
  | tailNil =>
    obtain rfl := Term.tail.inj ht
    exact h'
  | tailCons hop hn _ _ ih =>
    obtain rfl := Term.tail.inj ht
    rw [List.append_assoc]
    exact .tailCons hop hn (ih rfl)
  | _ => cases ht

namespace SpellsAbove

variable {p p' : Nat} {ks ks' : List Kind} {n x y : Node}

theorem expression (h : SpellsAbove p ks n) : Spells ks (.expression n) := by
  obtain ⟨c, fs, rs, rfl, hf, hr, hgroup, -⟩ := h
  exact .expression hf hr hgroup

theorem operand (h : Spells ks (.operand n)) : SpellsAbove p ks n :=
  ⟨⟨n, []⟩, ks, [], (List.append_nil ks).symm, h, .tailNil, .single n, fun o ho => by cases ho⟩

theorem mono (h : SpellsAbove p ks n) (hp : p' ≤ p) : SpellsAbove p' ks n := by
  obtain ⟨c, fs, rs, hks, hf, hr, hgroup, hops⟩ := h
  exact ⟨c, fs, rs, hks, hf, hr, hgroup, fun o ho => hp.trans (hops o ho)⟩

/-- An operand of which the parentheses may be left out if its operator binds tight enough. -/
theorem enclosed (h : ∀ p, bindsBelow p n = false → SpellsAbove p ks n) :
    SpellsAbove p (Grammar.enclosed (bindsBelow p n) ks) n := by
  cases hn : bindsBelow p n with
  | false => exact h p hn
  | true => exact operand (.parentheses (h 0 (bindsBelow_zero n)).expression)

theorem binary {op : BinaryOperator} {k : Kind} (hop : symbol? op = some k) (hx : SpellsAbove op.precedence ks x)
    (hy : SpellsAbove (op.precedence + 1) ks' y) : SpellsAbove op.precedence (ks ++ [k] ++ ks') (.binary op x y) := by
  obtain ⟨c, fs, rs, rfl, hf, hr, hgroup, hops⟩ := hx
  obtain ⟨c', fs', rs', rfl, hf', hr', hgroup', hops'⟩ := hy
  refine ⟨c.join op c', fs, rs ++ ([k] ++ fs' ++ rs'), ?_, hf, hr.tail_append (.tailCons hop hf' hr'),
    .join hgroup hgroup' hops hops', fun o ho => ?_⟩
  · simp only [List.append_assoc]
  · rw [Chain.operators_join, List.mem_append, List.mem_cons] at ho
    rcases ho with ho | rfl | ho
    · exact hops o ho
    · exact Nat.le_refl _
    · exact Nat.le_of_succ_le (hops' o ho)

end SpellsAbove

/-- The tokens written for an expression spell it. -/
structure Respelled (n : Node) : Prop where
  spells : ∀ p, bindsBelow p n = false → SpellsAbove p (expressionTokens n) n
  spellable : AllSpellable (expressionTokens n)

namespace Respelled

variable {n x y : Node}

theorem expression (h : Respelled n) : Spells (expressionTokens n) (.expression n) :=
  (h.spells 0 (bindsBelow_zero n)).expression

theorem operand (h : Spells (expressionTokens n) (.operand n)) (hks : AllSpellable (expressionTokens n)) :
    Respelled n := ⟨fun _ _ => .operand h, hks⟩

theorem binary {op : BinaryOperator} {k : Kind} (hop : symbol? op = some k) (hx : Respelled x) (hy : Respelled y) :
    Respelled (.binary op x y) := by
  have htokens : expressionTokens (.binary op x y) =
      enclosed (bindsBelow op.precedence x) (expressionTokens x) ++ [k] ++
        enclosed (bindsBelow (op.precedence + 1) y) (expressionTokens y) := by
    rw [expressionTokens, hop]
    rfl
  have hk : k.Spellable := by
    cases op with
    | assign => cases hop
    | _ =>
      obtain rfl := Option.some.inj hop
      trivial
  constructor
  · intro p hp
    have hle : p ≤ op.precedence := by
      simpa [bindsBelow] using hp
    rw [htokens]
    exact (SpellsAbove.binary hop (.enclosed hx.spells) (.enclosed hy.spells)).mono hle
  · rw [htokens]
    exact ((hx.spellable.enclosed _).append (List.forall_mem_singleton.mpr hk)).append (hy.spellable.enclosed _)

theorem arguments {args : List Node} (h : ∀ n ∈ args, Respelled n) :
    Spells (argumentTokens args) (.arguments args) ∧ AllSpellable (argumentTokens args) := by
  cases args with
  | nil => exact ⟨.noArguments, .nil⟩
  | cons first rest =>
    suffices hlist : Spells (argumentTokens (first :: rest)) (.list (first :: rest)) ∧
        AllSpellable (argumentTokens (first :: rest)) from ⟨.someArguments hlist.1, hlist.2⟩
    induction rest generalizing first with
    | nil =>
      rw [List.forall_mem_singleton] at h
      exact ⟨.listLast h.expression, h.spellable⟩
    | cons second rest ih =>
      rw [List.forall_mem_cons] at h
      obtain ⟨hrest, hks⟩ := ih second h.2
      exact ⟨.listCons h.1.expression hrest, (h.1.spellable.append (.sign _)).append hks⟩

end Respelled

/-- A grouping of operands can be written if these can. -/
theorem respelled_of_grouped {c : Chain Node} {n : Node} (h : Chain.Grouped .binary c n)
    (hfirst : Respelled c.first) (hrest : ∀ x ∈ c.rest, Respelled x.2 ∧ ∃ k, symbol? x.1 = some k) : Respelled n := by
  induction h with
  | single x => exact hfirst
  | @join l r op x y _ _ _ _ ihl ihr =>
    change ∀ z ∈ l.rest ++ (op, r.first) :: r.rest, _ at hrest
    rw [List.forall_mem_append, List.forall_mem_cons] at hrest
    obtain ⟨hl, ⟨hr, k, hop⟩, hr'⟩ := hrest
    exact .binary hop (ihl hfirst hl) (ihr hr hr')

/-- The parts of an expression can be written. -/
def Term.Respelled : Term → Prop
  | .operand n | .expression n => Grammar.Respelled n
  | .tail rest => ∀ x ∈ rest, Grammar.Respelled x.2 ∧ ∃ k, symbol? x.1 = some k
  | .arguments args | .list args => ∀ n ∈ args, Grammar.Respelled n

theorem Spells.respelled {ks : List Kind} {t : Term} (h : Spells ks t) (hks : ∀ k ∈ ks, k.Proper) : t.Respelled := by
  induction h with
  | number h =>
    obtain ⟨hnumber, hspellable⟩ := numberTokens_spec (h.ne_least hks)
    exact .operand (.number hnumber) hspellable
  | ident name => exact .operand (.ident name) (.ident (hks _ List.mem_cons_self))
  | element name _ ih =>
    simp only [List.forall_mem_append, List.forall_mem_singleton] at hks
    obtain ⟨⟨⟨hname, -⟩, hindex⟩, -⟩ := hks
    have hindex := ih hindex
    exact .operand (.element name hindex.expression) (.behind hname _ _ hindex.spellable)
  | call name _ ih =>
    simp only [List.forall_mem_append, List.forall_mem_singleton] at hks
    obtain ⟨⟨⟨hname, -⟩, hargs⟩, -⟩ := hks
    obtain ⟨hargs, hspellable⟩ := Respelled.arguments (ih hargs)
    exact .operand (.call name hargs) (.behind hname _ _ hspellable)
  | parentheses _ ih =>
    -- parentheses are written anew where they are needed
    simp only [List.forall_mem_append] at hks
    exact ih hks.1.2
  | tailNil | noArguments => exact fun _ h => by cases h
  | tailCons hop _ _ ih ih' =>
    simp only [List.forall_mem_append] at hks
    exact List.forall_mem_cons.mpr ⟨⟨ih hks.1.2, _, hop⟩, ih' hks.2⟩
  | expression _ _ hgroup ih ih' =>
    rw [List.forall_mem_append] at hks
    exact respelled_of_grouped hgroup (ih hks.1) (ih' hks.2)
  | someArguments _ ih => exact ih hks
  | listLast _ ih => exact List.forall_mem_singleton.mpr (ih hks)
  | listCons _ _ ih ih' =>
    simp only [List.forall_mem_append] at hks
    exact List.forall_mem_cons.mpr ⟨ih hks.1.1, ih' hks.2⟩

/-! ## 4. Statements -/

/-- The tokens written for a statement spell it. -/
structure Restated (isOpen : Bool) (n : Node) : Prop where
  states : Says (statementTokens n) (.statement isOpen (some n))
  spellable : AllSpellable (statementTokens n)
  nonzero : isZero n = false

theorem calleeTokens_of_isName {name : String} (h : IsName name) : calleeTokens name = ident name := by
  refine if_neg fun hname => ?_
  have hfree := h.free
  rw [hname] at hfree
  exact absurd hfree (by decide)

variable {ts : List Kind} {s : Option Node} {nodes : List Node} {low high : Word} {decls : List VariableDecl}

theorem Lvalue.tokens_spec {target : Node} (h : Lvalue ts target) (hts : ∀ k ∈ ts, k.Proper) :
    Lvalue (expressionTokens target) target ∧ AllSpellable (expressionTokens target) := by
  rcases h with name | ⟨name, h⟩
  · exact ⟨.variable name, .ident (hts _ List.mem_cons_self)⟩
  · simp only [List.forall_mem_append, List.forall_mem_singleton] at hts
    obtain ⟨⟨⟨hname, -⟩, hindex⟩, -⟩ := hts
    have hindex : Respelled _ := h.respelled hindex
    exact ⟨.element name hindex.expression, .behind hname _ _ hindex.spellable⟩

/-- Where no statement is left a text is written, which leaves no node. -/
theorem silence : Says (statementsTokens []) (.statements []) ∧ AllSpellable (statementsTokens []) :=
  ⟨.last (.command (@Command.write [] fun _ h => by cases h)),
    ((((AllSpellable.word _).append (.sign _)).append (.sign _)).append (.sign _)).append (.sign _)⟩

namespace Restated

variable {isOpen : Bool} {c t e b start stop : Node} {args : List Node}

theorem call {name : String} (hname : IsName name) (h : ∀ n ∈ args, Respelled n) :
    Restated false (.call name args) := by
  obtain ⟨hargs, hspellable⟩ := Respelled.arguments h
  have htokens : statementTokens (.call name args) =
      ident name ++ sign .lparen ++ argumentTokens args ++ sign .rparen := by
    rw [statementTokens, calleeTokens_of_isName hname]
  refine ⟨?_, ?_, rfl⟩
  · rw [htokens]
    exact .command (.call name hargs)
  · rw [htokens]
    exact .behind hname _ _ hspellable

theorem writeln (h : ∀ n ∈ args, Respelled n) : Restated false (.call "writeln" args) := by
  obtain ⟨hargs, hspellable⟩ := Respelled.arguments h
  exact ⟨.command (.writeln hargs),
    (((AllSpellable.word _).append (.sign _)).append hspellable).append (.sign _), rfl⟩

theorem ifThen (hc : Respelled c) (ht : Restated isOpen t) : Restated true (.conditional c t (.number 0)) := by
  have htokens : statementTokens (.conditional c t (.number 0)) =
      word .if ++ expressionTokens c ++ word .then ++ statementTokens t := by
    rw [statementTokens, show isZero (.number 0) = true from rfl, if_pos rfl, List.append_nil]
  have hstates := Says.ifThen hc.expression ht.states
  refine ⟨?_, ?_, rfl⟩
  · rw [htokens]
    exact hstates
  · rw [htokens]
    exact (((AllSpellable.word _).append hc.spellable).append (.word _)).append ht.spellable

/-- An arm that is there is not the number zero, so that its `else` is written. -/
theorem ifElse (hc : Respelled c) (ht : Restated false t) (he : Restated isOpen e) :
    Restated isOpen (.conditional c t e) := by
  have htokens : statementTokens (.conditional c t e) =
      word .if ++ expressionTokens c ++ word .then ++ statementTokens t ++ word .else ++ statementTokens e := by
    rw [statementTokens, he.nonzero, if_neg Bool.false_ne_true, List.append_assoc _ (word .else)]
  have hstates := Says.ifElse hc.expression ht.states he.states
  refine ⟨?_, ?_, rfl⟩
  · rw [htokens]
    exact hstates
  · rw [htokens]
    exact (((((AllSpellable.word _).append hc.spellable).append (.word _)).append ht.spellable).append
      (.word _)).append he.spellable

theorem whileLoop (hc : Respelled c) (hb : Restated isOpen b) : Restated isOpen (.whileLoop c b) := by
  have hstates := Says.whileLoop hc.expression hb.states
  exact ⟨hstates, (((AllSpellable.word _).append hc.spellable).append (.word _)).append hb.spellable, rfl⟩

theorem forLoop {name : String} (hname : IsName name) (d : Direction) (hs : Respelled start)
    (hz : Respelled stop) (hb : Restated isOpen b) : Restated isOpen (.forLoop name d start stop b) := by
  have hstates := Says.forLoop name d hs.expression hz.expression hb.states
  have hheader := (((AllSpellable.word .for).append (.ident hname)).append (.sign .assign)).append hs.spellable
  exact ⟨hstates, (((hheader.append (.word _)).append hz.spellable).append (.word _)).append hb.spellable, rfl⟩

theorem empty : Restated false (.block []) where
  states := .nested (.block silence.1)
  spellable := ((AllSpellable.word _).append silence.2).append (.word _)
  nonzero := rfl

end Restated

theorem Command.restated {ks : List Kind} (h : Command ks s) (hks : ∀ k ∈ ks, k.Proper) :
    Restated false (branch s) := by
  cases h with
  | assign ht hv =>
    simp only [List.forall_mem_append] at hks
    obtain ⟨htarget, hspellable⟩ := ht.tokens_spec hks.1.1
    have hvalue : Respelled _ := hv.respelled hks.2
    exact ⟨.command (.assign htarget hvalue.expression),
      (hspellable.append (.sign _)).append hvalue.spellable, rfl⟩
  | call name h =>
    simp only [List.forall_mem_append, List.forall_mem_singleton] at hks
    obtain ⟨⟨⟨hname, -⟩, hargs⟩, -⟩ := hks
    exact .call hname (h.respelled hargs)
  | writeln h =>
    simp only [List.forall_mem_append] at hks
    exact .writeln (h.respelled hks.1.2)
  | exit => exact ⟨.command .exit, .word _, rfl⟩
  | intrinsic which name =>
    simp only [List.forall_mem_append, List.forall_mem_singleton] at hks
    exact ⟨.command (.intrinsic which name),
      (((AllSpellable.word _).append (.sign _)).append (.ident hks.1.2)).append (.sign _), rfl⟩
  | write h => exact .empty

theorem statementsTokens_spec (h : ∀ n ∈ nodes, ∃ isOpen, Restated isOpen n) :
    Says (statementsTokens nodes) (.statements nodes) ∧ AllSpellable (statementsTokens nodes) := by
  induction nodes with
  | nil => exact silence
  | cons first rest ih =>
    rw [List.forall_mem_cons] at h
    obtain ⟨⟨isOpen, hfirst⟩, hrest⟩ := h
    cases rest with
    | nil => exact ⟨.last hfirst.states, hfirst.spellable⟩
    | cons second rest =>
      obtain ⟨hstates, hspellable⟩ := ih hrest
      exact ⟨.cons hfirst.states hstates, (hfirst.spellable.append (.sign _)).append hspellable⟩

/-- The parts of a block can be written. -/
def Clause.Restated : Clause → Prop
  | .statement isOpen s => Grammar.Restated isOpen (branch s)
  | .statements nodes => ∀ n ∈ nodes, ∃ isOpen, Grammar.Restated isOpen n
  | .block n => Says (statementTokens n) (.block n) ∧ AllSpellable (statementTokens n) ∧ isZero n = false

theorem restated_toList {isOpen : Bool} (h : Restated isOpen (branch s)) :
    ∀ n ∈ s.toList, ∃ isOpen, Restated isOpen n := by
  intro n hn
  obtain rfl := Option.mem_toList.mp hn
  exact ⟨isOpen, h⟩

theorem Says.restated {ks : List Kind} {c : Clause} (h : Says ks c) (hks : ∀ k ∈ ks, k.Proper) : c.Restated := by
  induction h with
  | command h => exact h.restated hks
  | nested _ ih =>
    obtain ⟨hstates, hspellable, hnonzero⟩ := ih hks
    exact ⟨.nested hstates, hspellable, hnonzero⟩
  | ifThen hc _ ih =>
    simp only [List.forall_mem_append] at hks
    obtain ⟨⟨⟨-, hcondition⟩, -⟩, harm⟩ := hks
    exact .ifThen (hc.respelled hcondition) (ih harm)
  | ifElse hc _ _ iht ihe =>
    simp only [List.forall_mem_append] at hks
    obtain ⟨⟨⟨⟨⟨-, hcondition⟩, -⟩, hthen⟩, -⟩, helse⟩ := hks
    exact .ifElse (hc.respelled hcondition) (iht hthen) (ihe helse)
  | whileLoop hc _ ih =>
    simp only [List.forall_mem_append] at hks
    obtain ⟨⟨⟨-, hcondition⟩, -⟩, hbody⟩ := hks
    exact .whileLoop (hc.respelled hcondition) (ih hbody)
  | forLoop name d hs hz _ ih =>
    simp only [List.forall_mem_append, List.forall_mem_singleton] at hks
    obtain ⟨⟨⟨⟨⟨⟨⟨-, hname⟩, -⟩, hstart⟩, -⟩, hstop⟩, -⟩, hbody⟩ := hks
    exact .forLoop hname d (hs.respelled hstart) (hz.respelled hstop) (ih hbody)
  | last _ ih => exact restated_toList (ih hks)
  | lastSemicolon _ ih =>
    rw [List.forall_mem_append] at hks
    exact restated_toList (ih hks.1)
  | cons _ _ ih ih' =>
    simp only [List.forall_mem_append] at hks
    exact List.forall_mem_append.mpr ⟨restated_toList (ih hks.1.1), ih' hks.2⟩
  | block _ ih =>
    simp only [List.forall_mem_append] at hks
    obtain ⟨hstates, hspellable⟩ := statementsTokens_spec (ih hks.1.2)
    exact ⟨.block hstates, ((AllSpellable.word _).append hspellable).append (.word _), rfl⟩

/-! ## 5. Declarations -/

theorem declared_name (bounds : Option (Word × Word)) (name : String) : (declared bounds name).name = name := by
  cases bounds <;> rfl

theorem declared_isArray (h : low ≤ high) (name : String) : (declared (some (low, high)) name).isArray = true := by
  have hle := Int32.le_iff_toInt_le.mp h
  unfold VariableDecl.isArray declared
  dsimp only
  rw [bne_iff_ne]
  omega

theorem declared_bounds (h : low ≤ high) (name : String) :
    (declared (some (low, high)) name).bounds = (low, high) := by
  have hle := Int32.le_iff_toInt_le.mp h
  have hlength : ((high.toInt - low.toInt + 1).toNat : Int) = high.toInt - low.toInt + 1 :=
    Int.toNat_of_nonneg (by omega)
  have hhigh : low.toInt + ((high.toInt - low.toInt + 1).toNat : Int) - 1 = high.toInt := by omega
  unfold VariableDecl.bounds declared
  dsimp only
  rw [Int32.neg_neg, hhigh, if_pos ⟨high.minValue_le_toInt, high.toInt_le⟩, Int32.ofInt_toInt]

/-- The line written for a variable declares it. -/
def Redeclared (d : VariableDecl) : Prop := VariableLine (· ≤ ·) (lineTokens d) [d] ∧ AllSpellable (lineTokens d)

theorem TypeName.spec {bounds : Option (Word × Word)} (h : TypeName ts bounds)
    (hts : ∀ k ∈ ts, k.Proper) (hrange : ∀ low high, bounds = some (low, high) → low ≤ high) (name : String) :
    TypeName (typeTokens (declared bounds name)) bounds ∧ AllSpellable (typeTokens (declared bounds name)) := by
  cases h with
  | integer => exact ⟨.integer, .word _⟩
  | @array ls hs low high hl hh =>
    simp only [List.forall_mem_append] at hts
    obtain ⟨⟨⟨⟨⟨⟨-, hls⟩, -⟩, hhs⟩, -⟩, -⟩, -⟩ := hts
    obtain ⟨hlow, hlow'⟩ := numberTokens_spec (hl.ne_least hls)
    obtain ⟨hhigh, hhigh'⟩ := numberTokens_spec (hh.ne_least hhs)
    have htokens : typeTokens (declared (some (low, high)) name) = word .array ++ sign .lbracket ++
        numberTokens low ++ sign .range ++ numberTokens high ++ sign .rbracket ++ word .of ++ word .integer := by
      unfold typeTokens
      rw [declared_isArray (hrange low high rfl), declared_bounds (hrange low high rfl), if_pos rfl]
    rw [htokens]
    have hbounds := (((AllSpellable.word .array).append (.sign .lbracket)).append hlow').append (.sign .range)
    exact ⟨.array hlow hhigh, (((hbounds.append hhigh').append (.sign _)).append (.word _)).append (.word _)⟩

theorem VariableLine.redeclared {ks : List Kind} (h : VariableLine (· ≤ ·) ks decls)
    (hks : ∀ k ∈ ks, k.Proper) : ∀ d ∈ decls, Redeclared d := by
  obtain ⟨first, others, ht, hrange⟩ := h
  simp only [List.forall_mem_append] at hks
  obtain ⟨⟨⟨hnames, -⟩, htype⟩, -⟩ := hks
  intro d hd
  obtain ⟨name, hname, rfl⟩ := List.mem_map.mp hd
  obtain ⟨htype, hspellable⟩ := ht.spec htype hrange name
  have hline := VariableLine.mk name [] htype hrange
  unfold Redeclared lineTokens
  rw [declared_name]
  exact ⟨hline, .behind (hnames _ (identifier_mem_names hname)) _ _ hspellable⟩

theorem VariableLines.redeclared {ks : List Kind}
    (h : VariableLines (· ≤ ·) ks decls) (hks : ∀ k ∈ ks, k.Proper) : ∀ d ∈ decls, Redeclared d := by
  induction h with
  | last h => exact h.redeclared hks
  | cons h _ ih =>
    rw [List.forall_mem_append] at hks
    exact List.forall_mem_append.mpr ⟨h.redeclared hks.1, ih hks.2⟩

theorem LocalVariables.redeclared {ks : List Kind}
    (h : LocalVariables (· ≤ ·) ks decls) (hks : ∀ k ∈ ks, k.Proper) : ∀ d ∈ decls, Redeclared d := by
  induction h with
  | nil => exact fun d hd => by cases hd
  | cons h _ ih =>
    simp only [List.forall_mem_append] at hks
    exact List.forall_mem_append.mpr ⟨h.redeclared hks.1.2, ih hks.2⟩

theorem ConstantLines.redeclared {ks : List Kind} (h : ConstantLines ks nodes) (hks : ∀ k ∈ ks, k.Proper) :
    ∀ n ∈ nodes, Declares (· ≤ ·) (declarationTokens n) [n] ∧ AllSpellable (declarationTokens n) := by
  have hline : ∀ {name value ns}, IsName name → Number ns value → (∀ k ∈ ns, k.Proper) →
      Declares (· ≤ ·) (declarationTokens (.constantDecl name value)) [.constantDecl name value] ∧
        AllSpellable (declarationTokens (.constantDecl name value)) := by
    intro name value ns hname hn hns
    obtain ⟨hnumber, hspellable⟩ := numberTokens_spec (hn.ne_least hns)
    exact ⟨.constants (.last name hnumber), (AllSpellable.word _).append (.behind hname _ _ hspellable)⟩
  induction h with
  | last name h =>
    simp only [List.forall_mem_append, List.forall_mem_singleton] at hks
    obtain ⟨⟨⟨hname, -⟩, hnumber⟩, -⟩ := hks
    exact List.forall_mem_singleton.mpr (hline hname h hnumber)
  | cons name h _ ih =>
    simp only [List.forall_mem_append, List.forall_mem_singleton] at hks
    obtain ⟨⟨⟨⟨hname, -⟩, hnumber⟩, -⟩, hrest⟩ := hks
    exact List.forall_mem_cons.mpr ⟨hline hname h hnumber, ih hrest⟩

theorem localVariables_spec (h : ∀ d ∈ decls, Redeclared d) :
    LocalVariables (· ≤ ·) ((decls.map Node.variableDecl).flatMap sectionTokens) decls ∧
      AllSpellable ((decls.map Node.variableDecl).flatMap sectionTokens) := by
  induction decls with
  | nil => exact ⟨.nil, .nil⟩
  | cons d decls ih =>
    rw [List.forall_mem_cons] at h
    obtain ⟨hvariables, hspellable⟩ := ih h.2
    exact ⟨.cons (.last h.1.1) hvariables, ((AllSpellable.word _).append h.1.2).append hspellable⟩

theorem heading_spellable {p : Prototype} (h : ∀ k ∈ heading p, k.Proper) : AllSpellable (heading p) := by
  have hparams : (∀ k ∈ params p.params, k.Proper) → AllSpellable (params p.params) := by
    intro hks
    cases hp : p.params with
    | nil => exact .nil
    | cons first others =>
      rw [hp] at hks
      simp only [params, List.forall_mem_append, List.forall_mem_singleton, List.forall_mem_flatMap] at hks
      refine (((AllSpellable.ident hks.1.1.1).append (.sign _)).append (.word _)).append
        (.flatMap fun name hname => ?_)
      exact (((AllSpellable.sign _).append (.ident (hks.2 name hname).1.1.2)).append (.sign _)).append (.word _)
  unfold heading at h ⊢
  cases hkind : p.kind with
  | function =>
    simp only [hkind, List.forall_mem_append, List.forall_mem_singleton] at h
    obtain ⟨⟨⟨⟨⟨⟨⟨-, hname⟩, -⟩, hps⟩, -⟩, -⟩, -⟩, -⟩ := h
    have hname := ((AllSpellable.word .function).append (.ident hname)).append (.sign .lparen)
    have hparams' := (hname.append (hparams hps)).append (.sign .rparen)
    exact ((hparams'.append (.sign _)).append (.word _)).append (.sign _)
  | procedure =>
    simp only [hkind, List.forall_mem_append, List.forall_mem_singleton] at h
    obtain ⟨⟨⟨⟨⟨-, hname⟩, -⟩, hps⟩, -⟩, -⟩ := h
    have hname := ((AllSpellable.word .procedure).append (.ident hname)).append (.sign .lparen)
    exact ((hname.append (hparams hps)).append (.sign _)).append (.sign _)

/-- The variables and the block of a subprogram are found again in its body. -/
theorem subprogramTokens (p : Prototype) (decls : List VariableDecl) (block : Node) :
    declarationTokens (subprogram p decls block) = heading p ++
      (decls.map Node.variableDecl).flatMap sectionTokens ++ statementTokens block ++ sign .semicolon := by
  unfold subprogram declarationTokens variablesOf blockOf
  cases hkind : p.kind with
  | function => simp [hkind, List.dropLast_append_of_ne_nil]
  | procedure => simp [hkind, List.dropLast_append_of_ne_nil]

theorem Declares.redeclared {ks : List Kind} (h : Declares (· ≤ ·) ks nodes) (hks : ∀ k ∈ ks, k.Proper) :
    ∀ n ∈ nodes, Declares (· ≤ ·) (declarationTokens n) [n] ∧ AllSpellable (declarationTokens n) := by
  rcases h with h | h | p | ⟨p, hv, hb⟩
  · rw [List.forall_mem_append] at hks
    intro n hn
    obtain ⟨d, hd, rfl⟩ := List.mem_map.mp hn
    obtain ⟨hline, hspellable⟩ := h.redeclared hks.2 d hd
    exact ⟨.variables (.last hline), (AllSpellable.word _).append hspellable⟩
  · rw [List.forall_mem_append] at hks
    exact h.redeclared hks.2
  · simp only [List.forall_mem_append] at hks
    refine List.forall_mem_singleton.mpr ⟨.forward p, ?_⟩
    exact ((heading_spellable hks.1.1).append (.word _)).append (.sign _)
  · simp only [List.forall_mem_append] at hks
    obtain ⟨⟨⟨hheading, hvars⟩, hbody⟩, -⟩ := hks
    obtain ⟨hvariables, hspellable⟩ := localVariables_spec (hv.redeclared hvars)
    obtain ⟨hblock, hspellable', -⟩ := hb.restated hbody
    refine List.forall_mem_singleton.mpr ?_
    rw [subprogramTokens]
    exact ⟨.subprogram p hvariables hblock,
      (((heading_spellable hheading).append hspellable).append hspellable').append (.sign _)⟩

theorem declarations_spec
    (h : ∀ n ∈ nodes, Declares (· ≤ ·) (declarationTokens n) [n] ∧ AllSpellable (declarationTokens n)) :
    Declarations (· ≤ ·) (nodes.flatMap declarationTokens) nodes ∧
      AllSpellable (nodes.flatMap declarationTokens) := by
  induction nodes with
  | nil => exact ⟨.nil, .nil⟩
  | cons n nodes ih =>
    rw [List.forall_mem_cons] at h
    obtain ⟨hrest, hspellable⟩ := ih h.2
    exact ⟨.cons h.1.1 hrest, h.1.2.append hspellable⟩

theorem Declarations.redeclared {ks : List Kind} (h : Declarations (· ≤ ·) ks nodes) (hks : ∀ k ∈ ks, k.Proper) :
    ∀ n ∈ nodes, Declares (· ≤ ·) (declarationTokens n) [n] ∧ AllSpellable (declarationTokens n) := by
  induction h with
  | nil => exact fun n hn => by cases hn
  | cons h _ ih =>
    rw [List.forall_mem_append] at hks
    exact List.forall_mem_append.mpr ⟨h.redeclared hks.1, ih hks.2⟩

theorem Derives.rewritten {ks : List Kind} {p : Program} (h : Derives (· ≤ ·) ks p) (hks : ∀ k ∈ ks, k.Proper) :
    Derives (· ≤ ·) (programTokens p) p ∧ AllSpellable (programTokens p) := by
  cases h with
  | program name hd hb =>
    simp only [List.forall_mem_append, List.forall_mem_singleton] at hks
    obtain ⟨⟨⟨⟨⟨-, hname⟩, -⟩, hsections⟩, hbody⟩, -⟩ := hks
    obtain ⟨hdecls, hspellable⟩ := declarations_spec (hd.redeclared hsections)
    obtain ⟨hblock, hspellable', -⟩ := hb.restated hbody
    have hname := ((AllSpellable.word .program).append (.ident hname)).append (.sign .semicolon)
    exact ⟨.program name hdecls hblock, ((hname.append hspellable).append hspellable').append (.sign _)⟩

end Grammar

/-! ## 6. Texts of programs -/

theorem Parser.result_of_derives {s : TokenStream} {p : Program} (hd : s.Delivered)
    (h : Grammar.Derives (· ≤ ·) s.body p) : Parser.program.result s = .ok p := by
  obtain ⟨s', hs'⟩ := s.starts_body
  have hrun : Parser.program s = Parser.programOf s.pending.length s := rfl
  unfold Parser.result EStateM.run
  rw [hrun, Parser.Reads.programOf h s.length_body_le s s' hd hs' trivial]

/-- A program as source text. -/
def Program.sourceText (p : Program) : String := spell (Grammar.programTokens p)

/-- A program that was read off a text is read off the text that is written for it, as long as the bytes of that
have offsets. The text has the tokens that are written for the program, none of which is a bad one. -/
theorem parseProgram_sourceText {source : String} {p : Program} (h : parseProgram source = .ok p)
    (hsize : p.sourceText.utf8ByteSize ≤ Span.maxOffset) :
    (tokens p.sourceText).map Token.kind = Grammar.programTokens p ++ [.eof] ∧
      (∀ t ∈ tokens p.sourceText, ∀ reason, t.kind ≠ .error reason) ∧ parseProgram p.sourceText = .ok p := by
  obtain ⟨ks, hderives, hproper⟩ := parseProgram_derives h
  obtain ⟨hderives, hspellable⟩ := hderives.rewritten hproper
  have hkinds : (Cursor.ofInput (.ofString p.sourceText)).stream.pending.map Token.kind =
      Grammar.programTokens p := kinds_spell hspellable
  have hdelivered : (Cursor.ofInput (.ofString p.sourceText)).stream.Delivered :=
    Cursor.delivered_stream (by rwa [Cursor.stop_ofString])
  have htokens : (tokens p.sourceText).map Token.kind = Grammar.programTokens p ++ [.eof] := by
    unfold tokens TokenStream.toList
    rw [List.map_append, hkinds]
    rfl
  refine ⟨htokens, fun t ht reason hreason => ?_, ?_⟩
  · have hmem : t.kind ∈ Grammar.programTokens p ++ [.eof] := by
      rw [← htokens]
      exact List.mem_map_of_mem ht
    rw [hreason, List.mem_append, List.mem_singleton] at hmem
    rcases hmem with hmem | hmem
    · exact hspellable _ hmem
    · cases hmem
  · refine Parser.result_of_derives hdelivered ?_
    -- the end of input is not among the tokens of a program
    unfold TokenStream.body
    rw [hkinds, List.takeWhile_eq_self_iff.mpr fun k hk => ?_]
    · exact hderives
    · exact decide_eq_true fun heof => hderives.eof_notMem (heof ▸ hk)

/-- Operators that need parentheses and ones that do not, an `if` within another, and statements that leave no
node. -/
def crowded : String :=
  "program p; const c = -$1F; var a, b: array [-2 .. 0x10] of integer; procedure q(); begin write('x') end; " ++
  "function f(n: integer): integer; var i: integer; begin for i := n downto -3 do " ++
  "if (i - 1) - (i - (2 + n)) * 3 = (((i))) then if i then a[i] := f(i - 1, 2) else exit end; " ++
  "begin while 1 do write('$'); writeln(((c))); readln(b) end."

/-- The text that is written for it. -/
def crowdedWritten : String :=
  "program p; const c = - 31; var a: array [- 2 .. 16] of integer; var b: array [- 2 .. 16] of integer; " ++
  "procedure q(); begin write('') end; " ++
  "function f(n: integer): integer; var i: integer; begin for i := n downto - 3 do " ++
  "if i - 1 - (i - (2 + n)) * 3 = i then if i then a[i] := f(i - 1, 2) else exit end; " ++
  "begin while 1 do begin write('') end; writeln(c); readln(b) end."

theorem parseProgram_crowdedWritten : ∃ p, parseProgram crowded = .ok p ∧ p.sourceText = crowdedWritten ∧
    parseProgram crowdedWritten = .ok p := by
  obtain ⟨htext, hbytes⟩ : (parseProgram crowded).toOption.map Program.sourceText = some crowdedWritten ∧
      crowdedWritten.utf8ByteSize ≤ Span.maxOffset := by
    decide +kernel
  cases hp : parseProgram crowded with
  | error e =>
    rw [hp] at htext
    cases htext
  | ok p =>
    rw [hp] at htext
    have hwritten : p.sourceText = crowdedWritten := Option.some.inj htext
    have hsize : p.sourceText.utf8ByteSize ≤ Span.maxOffset := by rwa [hwritten]
    refine ⟨p, rfl, hwritten, ?_⟩
    rw [← hwritten]
    exact (parseProgram_sourceText hp hsize).2.2

end Mila
