import Mila.Proofs.Reading

/-! # What the parser accepts

A parsing function takes all that its part of the grammar allows, and gives the tree of it, provided that what
comes behind may come there. Together with what the parser takes at all this says that it accepts exactly the
programs of the grammar.
-/

namespace Mila

namespace Parser

variable {β : Type} {E : Prop}

namespace Attains

open Grammar

/-! ## 1. Expressions -/

/-- Whether an operand starts with a token of this kind. -/
def startsOperand : Kind → Bool
  | .integer _ | .identifier _ | .operator .minus | .operator .lparen => true
  | _ => false

/-- What may come behind an operand: an operator, or what may come behind an expression. -/
def followsOperand (k : Kind) : Bool := endsExpression k || (binaryOperator? k).isSome

variable {k : Kind} {t : Term} {node : Node} {b : β} {F : Kind → Prop} {f : Bool → Parser β}
  {decls : List VariableDecl}

theorem followsOperand_ne (h : followsOperand k = true) :
    Good k ∧ k ≠ .operator .lbracket ∧ k ≠ .operator .lparen := by
  unfold followsOperand at h
  cases k with
  | error reason => cases h
  | operator symbol => cases symbol <;> first | cases h; done | exact ⟨trivial, by decide, by decide⟩
  | _ => exact ⟨trivial, Kind.noConfusion, Kind.noConfusion⟩

theorem startsOperand_ne (h : startsOperand k = true) : Good k ∧ k ≠ .operator .rparen := by
  cases k with
  | error reason => cases h
  | operator symbol => cases symbol <;> first | cases h; done | exact ⟨trivial, by decide⟩
  | _ => exact ⟨trivial, Kind.noConfusion⟩

theorem binaryOperator?_of_symbol? {op : BinaryOperator} (h : symbol? op = some k) : binaryOperator? k = some op := by
  cases op <;> cases h <;> rfl

theorem endsExpression_ne (h : endsExpression k = true) : Good k ∧ binaryOperator? k = none := by
  cases k with
  | error reason => cases h
  | operator symbol => cases symbol <;> first | cases h; done | exact ⟨trivial, rfl⟩
  | keyword word => cases word <;> first | cases h; done | exact ⟨trivial, rfl⟩
  | _ => exact ⟨trivial, rfl⟩

/-- How the tokens of a part of an expression start. -/
def StartsTerm (ks : List Kind) : Term → Prop
  | .operand _ | .expression _ | .list _ => ∃ k rest, ks = k :: rest ∧ startsOperand k = true
  | .tail _ => ks = [] ∨ ∃ k rest, ks = k :: rest ∧ (binaryOperator? k).isSome = true
  | .arguments _ => True

theorem startsTerm {ks : List Kind} (h : Spells ks t) : StartsTerm ks t := by
  induction h with
  | number h => cases h <;> exact ⟨_, _, rfl, rfl⟩
  | ident name => exact ⟨_, _, rfl, rfl⟩
  | element _ _ _ => exact ⟨_, _, rfl, rfl⟩
  | call _ _ _ => exact ⟨_, _, rfl, rfl⟩
  | parentheses _ _ => exact ⟨_, _, rfl, rfl⟩
  | tailNil => exact .inl rfl
  | tailCons hop _ _ _ _ => exact .inr ⟨_, _, rfl, by rw [binaryOperator?_of_symbol? hop]; rfl⟩
  | expression _ _ _ ih _ =>
    obtain ⟨k, rest, rfl, hk⟩ := ih
    exact ⟨k, _, rfl, hk⟩
  | noArguments => trivial
  | someArguments _ _ => trivial
  | listLast _ ih => exact ih
  | listCons _ _ ih _ =>
    obtain ⟨k, rest, rfl, hk⟩ := ih
    exact ⟨k, _, rfl, hk⟩

/-- The function for a part of expressions reads tokens of the given kinds, if it has room for all of them. -/
def ReadsTerm (E : Prop) (ks : List Kind) : Term → Prop
  | .operand node => ∀ n, ks.length ≤ n → Attains E (operand n) ks node (followsOperand · = true)
  | .tail rest => ∀ n j, ks.length ≤ n → ks.length ≤ j →
      Attains E (chainTail (operand n) j) ks rest (endsExpression · = true)
  | .expression node => ∀ n, ks.length ≤ n → Attains E (expression n) ks node (endsExpression · = true)
  | .arguments args => ∀ n, ks.length ≤ n →
      Attains E (arguments n) (.operator .lparen :: (ks ++ [.operator .rparen])) args fun _ => True
  | .list args => ∀ n j, ks.length ≤ n → ks.length ≤ j →
      Attains E (argumentsTail (expression n) j) (ks ++ [.operator .rparen]) args fun _ => True

/-- What comes behind an operand of an expression may come there. -/
theorem follows_of_tail {ks : List Kind} {rest : List (BinaryOperator × Node)} (h : Spells ks (.tail rest))
    (hk : Ahead ks (endsExpression · = true) k) : followsOperand k = true := by
  unfold followsOperand
  rcases startsTerm h with rfl | ⟨k', rest, rfl, hk'⟩
  · rw [show endsExpression k = true from hk]
    rfl
  · rw [show k = k' from hk, hk', Bool.or_true]

namespace ReadsTerm

variable {ks ks' : List Kind} {name : String}

theorem number {value : Word} (h : Number ks value) : ReadsTerm E ks (.operand (.number value)) := by
  rintro (_ | n) hn
  · cases h <;> simp at hn
  · cases h with
    | plain =>
      refine advance trivial fun t ht => ?_
      simp only [ht]
      exact pure _
    | negative v =>
      refine advance trivial fun t ht => ?_
      simp only [ht]
      refine advance trivial fun u hu => ?_
      simp only [hu]
      exact pure _

theorem ident (name : String) : ReadsTerm E (Grammar.ident name) (.operand (.ident name)) := by
  rintro (_ | n) hn
  · simp at hn
  · refine advance trivial fun t ht => ?_
    simp only [ht]
    refine pass (fun k hk => ⟨(followsOperand_ne hk).1, (followsOperand_ne hk).2.1⟩) ?_
    exact isNot (fun k hk => ⟨(followsOperand_ne hk).1, (followsOperand_ne hk).2.2⟩) (pure _)

theorem element {index : Node} (h : ReadsTerm E ks (.expression index)) :
    ReadsTerm E (Grammar.ident name ++ sign .lbracket ++ ks ++ sign .rbracket)
      (.operand (.element name index)) := by
  rintro (_ | n) hn
  · simp at hn
  · simp at hn
    refine advance trivial fun t ht => ?_
    simp only [ht]
    exact accept trivial (upTo (h n (by omega)) rfl (consume trivial (pure _)))

variable {args : List Node} {node : Node} {rest : List (BinaryOperator × Node)}

theorem call (h : ReadsTerm E ks (.arguments args)) :
    ReadsTerm E (Grammar.ident name ++ sign .lparen ++ ks ++ sign .rparen) (.operand (.call name args)) := by
  rintro (_ | n) hn
  · simp at hn
  · simp at hn
    refine advance trivial fun t ht => ?_
    simp only [ht]
    refine pass ?_ (isThere trivial (last (h n (by omega)) (pure _) fun _ _ => trivial))
    rintro k rfl
    exact ⟨trivial, by decide⟩

theorem parentheses (h : ReadsTerm E ks (.expression node)) :
    ReadsTerm E (sign .lparen ++ ks ++ sign .rparen) (.operand node) := by
  rintro (_ | n) hn
  · simp at hn
  · simp at hn
    refine advance trivial fun t ht => ?_
    simp only [ht]
    exact upTo (h n (by omega)) rfl (consume trivial (pure _))

theorem tailNil : ReadsTerm E [] (.tail []) := by
  rintro n (_ | j) - -
  · exact pure []
  · refine peek (fun k hk => (endsExpression_ne hk).1) fun t ht => ?_
    simp only [(endsExpression_ne ht).2, show endsExpression t.kind = true from ht, if_true]
    exact pure []

theorem tailCons {op : BinaryOperator} {k : Kind}
    (hop : symbol? op = some k) (h : ReadsTerm E ks (.operand node)) (hspells : Spells ks' (.tail rest))
    (h' : ReadsTerm E ks' (.tail rest)) : ReadsTerm E ([k] ++ ks ++ ks') (.tail ((op, node) :: rest)) := by
  rintro n (_ | j) hn hj
  · simp at hj
  · simp at hn hj
    have hk := binaryOperator?_of_symbol? hop
    have hgood : Good k := by cases op <;> cases hop <;> trivial
    refine peek ?_ fun t ht => ?_
    · rintro k rfl
      exact hgood
    · rw [show t.kind = k from ht, hk]
      refine advance hgood fun u _ => bind (h n (by omega)) ?_ fun k => follows_of_tail hspells
      exact map (h' n j (by omega) (by omega)) _

theorem expression {first : Node}
    (h : ReadsTerm E ks (.operand first)) (hspells : Spells ks' (.tail rest)) (h' : ReadsTerm E ks' (.tail rest))
    (hgroup : Chain.Grouped .binary ⟨first, rest⟩ node) : ReadsTerm E (ks ++ ks') (.expression node) := by
  intro n hn
  simp at hn
  obtain rfl := (Chain.grouped_iff _ _).mp hgroup
  refine bind (h n (by omega)) ?_ fun k => follows_of_tail hspells
  exact map (h' n n (by omega) (by omega)) _

theorem noArguments : ReadsTerm E [] (.arguments []) := fun _ _ =>
  consume trivial (accept trivial (pure []))

theorem someArguments (hspells : Spells ks (.list args)) (h : ReadsTerm E ks (.list args)) :
    ReadsTerm E ks (.arguments args) := by
  intro n hn
  refine consume trivial (pass ?_ (h n n hn hn))
  obtain ⟨k, rest, rfl, hk⟩ := startsTerm hspells
  rintro k' rfl
  exact startsOperand_ne hk

theorem listLast (hspells : Spells ks (.expression node))
    (h : ReadsTerm E ks (.expression node)) : ReadsTerm E ks (.list [node]) := by
  obtain ⟨k, rest, rfl, hk⟩ := startsTerm hspells
  rintro n (_ | j) hn hj
  · simp at hj
  · exact upTo (h n hn) rfl (consumeAny trivial (by simp) (pure _))

theorem listCons (h : ReadsTerm E ks (.expression node))
    (h' : ReadsTerm E ks' (.list args)) : ReadsTerm E (ks ++ sign .comma ++ ks') (.list (node :: args)) := by
  rintro n (_ | j) hn hj
  · simp at hj
  · simp at hn hj
    rw [List.append_assoc, List.append_assoc]
    refine upTo (h n (by omega)) rfl (consumeAny trivial (by simp) ?_)
    exact map (h' n j (by omega) (by omega)) _

end ReadsTerm

theorem readsTerm {ks : List Kind} (h : Spells ks t) : ReadsTerm E ks t := by
  induction h with
  | number h => exact .number h
  | ident name => exact .ident name
  | element _ _ ih => exact ih.element
  | call _ _ ih => exact ih.call
  | parentheses _ ih => exact ih.parentheses
  | tailNil => exact .tailNil
  | tailCons hop _ h' ih ih' => exact ih.tailCons hop h' ih'
  | expression _ h' hgroup ih ih' => exact ih.expression h' ih' hgroup
  | noArguments => exact .noArguments
  | someArguments h ih => exact ih.someArguments h
  | listLast h ih => exact ih.listLast h
  | listCons _ _ ih ih' => exact ih.listCons ih'

theorem expression {ks : List Kind} (h : Spells ks (.expression node)) {n : Nat}
    (hn : ks.length ≤ n) : Attains E (Parser.expression n) ks node (endsExpression · = true) :=
  readsTerm h n hn

theorem arguments {ks : List Kind} {args : List Node} (h : Spells ks (.arguments args)) {n : Nat}
    (hn : ks.length ≤ n) : Attains E (Parser.arguments n) (.operator .lparen :: (ks ++ [.operator .rparen])) args
      fun _ => True := readsTerm h n hn

/-! ## 2. Statements -/

/-- What may come behind a statement. Behind an open one there can be no `else`. -/
def followsStatement (isOpen : Bool) : Kind → Bool
  | .operator .semicolon | .keyword .end => true
  | .keyword .else => !isOpen
  | _ => false

theorem followsStatement_ends {isOpen : Bool} (h : followsStatement isOpen k = true) : endsExpression k = true := by
  cases k with
  | operator symbol => cases symbol <;> first | cases h; done | rfl
  | keyword word => cases word <;> first | cases h; done | rfl
  | _ => cases h

theorem takeAny {f : Token → Parser β} {ks : List Kind}
    (h : ∀ t, t.kind = k → Attains E (f t) ks b F) : Attains E (Parser.takeAny >>= f) (k :: ks) b F :=
  fun s s' hd hs hF => h s.head hs.1 s.tail s' hd.tail hs.2 hF

theorem skipText {ks : List Kind} (h : Text ks) {n : Nat} (hn : ks.length < n) :
    Attains E (Parser.skipText n) (ks ++ [.operator .quote]) () fun _ => True := by
  induction ks generalizing n with
  | nil =>
    obtain ⟨n, rfl⟩ : ∃ j, n = j + 1 := ⟨n - 1, by simp at hn; omega⟩
    refine takeAny fun t ht => ?_
    simp only [ht]
    exact pure ()
  | cons k ks ih =>
    obtain ⟨n, rfl⟩ : ∃ j, n = j + 1 := ⟨n - 1, by simp at hn; omega⟩
    obtain ⟨hquote, heof⟩ := h k List.mem_cons_self
    have hlength : ks.length < n := by
      simp at hn
      omega
    have hrest := ih (fun k' hk' => h k' (List.mem_cons_of_mem _ hk')) hlength
    refine takeAny fun t ht => ?_
    rw [ht]
    -- neither of the two tokens that end the text, so it is skipped whatever it is
    cases k with
    | eof => exact absurd rfl heof
    | operator symbol =>
      cases symbol with
      | quote => exact absurd rfl hquote
      | _ => exact hrest
    | _ => exact hrest

section

variable {ks : List Kind} {n : Nat} {name : String}

theorem write (h : Text ks) (hn : ks.length < n) :
    Attains E (Parser.write n) (.keyword .write :: .operator .lparen :: .operator .quote ::
      (ks ++ [.operator .quote] ++ [.operator .rparen])) () fun _ => True := by
  refine consume trivial (consume trivial (consume trivial (bind (skipText h hn) ?_ fun _ _ => trivial)))
  have hlast : Attains E (Parser.consume (.operator .rparen) >>= Pure.pure) [.operator .rparen] () fun _ => True :=
    consume trivial (pure ())
  rw [bind_pure] at hlast
  exact hlast

theorem assign {ts : List Kind} {target value : Node} (ht : Lvalue ts target)
    (hv : Spells ks (.expression value)) (hn : (ts ++ sign .assign ++ ks).length ≤ n + 1) :
    Attains E (Parser.command n) (ts ++ sign .assign ++ ks) (.binary .assign target value)
      (endsExpression · = true) := by
  -- what stands behind the target is read alike for both kinds of target
  have hassign : Attains E (do
      Parser.consume (.operator .assign)
      let value ← Parser.expression n
      return Node.binary .assign target value) (.operator .assign :: ks) (Node.binary .assign target value)
      (endsExpression · = true) := by
    refine consume trivial (map (expression hv ?_) _)
    simp at hn
    omega
  cases ht with
  | «variable» name =>
    refine identifier (isNot ?_ (pass ?_ hassign))
    · rintro k rfl
      exact ⟨trivial, by decide⟩
    · rintro k rfl
      exact ⟨trivial, by decide⟩
  | @element name is index h =>
    simp at hn
    simp only [Grammar.ident, sign, List.append_assoc, List.cons_append, List.nil_append]
    refine identifier (isNot ?_ (accept trivial ?_))
    · rintro k rfl
      exact ⟨trivial, by decide⟩
    · exact upTo (expression h (by omega)) rfl (consume trivial hassign)

theorem call {args : List Node} (h : Spells ks (.arguments args)) (hn : ks.length ≤ n) :
    Attains E (Parser.command n) (.identifier name :: .operator .lparen :: (ks ++ [.operator .rparen]))
      (.call name args) fun _ => True :=
  identifier (isThere trivial (last (arguments h hn) (pure _) fun _ _ => trivial))

theorem intrinsic (which : Intrinsic) : Attains E (Parser.intrinsic which)
    (.keyword (keyword which) :: .operator .lparen :: .identifier name :: [.operator .rparen])
    (.intrinsic which name) fun _ => True :=
  advance trivial fun _ _ => consume trivial (identifier (consume trivial (pure _)))

end

theorem command {ks : List Kind} {node : Option Node} (h : Command ks node) (statement : Parser (Option Node))
    {n : Nat} (hn : ks.length ≤ n + 1) :
    Attains E (statementOf statement n) ks node (followsStatement false · = true) := by
  cases h with
  | @assign ts ks target value ht hv =>
    have hread := assign (E := E) ht hv hn
    -- the first token decides which command is read, so the target has to show it
    cases ht with
    | «variable» name =>
      refine peekAt trivial fun t ht => ?_
      rw [ht]
      exact last hread (pure _) fun _ => followsStatement_ends
    | element name h =>
      refine peekAt trivial fun t ht => ?_
      rw [ht]
      exact last hread (pure _) fun _ => followsStatement_ends
  | @call name ks args h =>
    simp at hn
    refine peekAt trivial fun t ht => ?_
    rw [ht]
    have hks : ks.length ≤ n := by omega
    exact last (call h hks) (pure _) fun _ _ => trivial
  | @writeln ks args h =>
    simp at hn
    refine peekAt trivial fun t ht => ?_
    rw [ht]
    exact advance trivial fun _ _ => last (arguments h (by omega)) (pure _) fun _ _ => trivial
  | exit =>
    refine peekAt trivial fun t ht => ?_
    rw [ht]
    exact advance trivial fun _ _ => pure _
  | intrinsic which name =>
    refine peekAt trivial fun t ht => ?_
    rw [ht]
    cases which with
    | _ => exact last (intrinsic _) (pure _) fun _ _ => trivial
  | @write ks h =>
    simp at hn
    refine peekAt trivial fun t ht => ?_
    rw [ht]
    have hks : ks.length < n := by omega
    exact last (write h hks) (pure _) fun _ _ => trivial

/-- How the tokens of a part of a block start. -/
def StartsClause (ks : List Kind) : Clause → Prop
  | .statement _ _ | .statements _ => ∃ k rest, ks = k :: rest ∧ Good k ∧ k ≠ .keyword .end
  | .block _ => ∃ rest, ks = .keyword .begin :: rest

theorem startsCommand {ks : List Kind} {node : Option Node} (h : Command ks node) :
    ∃ k rest, ks = k :: rest ∧ Good k ∧ k ≠ .keyword .end := by
  cases h with
  | assign ht hv => cases ht <;> exact ⟨_, _, rfl, trivial, Kind.noConfusion⟩
  | call name h => exact ⟨_, _, rfl, trivial, Kind.noConfusion⟩
  | intrinsic which name => exact ⟨_, _, rfl, trivial, by cases which <;> decide⟩
  | _ => exact ⟨_, _, rfl, trivial, by decide⟩

theorem startsClause {ks : List Kind} {c : Clause} (h : Says ks c) : StartsClause ks c := by
  induction h with
  | command h => exact startsCommand h
  | nested _ ih =>
    obtain ⟨rest, rfl⟩ := ih
    exact ⟨_, _, rfl, trivial, by decide⟩
  | ifThen _ _ _ | ifElse _ _ _ _ _ | whileLoop _ _ _ | forLoop _ _ _ _ _ _ =>
    exact ⟨_, _, rfl, trivial, by decide⟩
  | last _ ih => exact ih
  | lastSemicolon _ ih | cons _ _ ih _ =>
    obtain ⟨k, rest, rfl, hk⟩ := ih
    exact ⟨k, _, rfl, hk⟩
  | block _ _ => exact ⟨_, rfl⟩

/-- The function for a part of blocks reads tokens of the given kinds, if it has room for all of them. -/
def ReadsClause (E : Prop) (ks : List Kind) : Clause → Prop
  | .statement isOpen node => ∀ n, ks.length ≤ n →
      Attains E (statement n) ks node (followsStatement isOpen · = true)
  | .statements nodes => ∀ n j, ks.length ≤ n → ks.length ≤ j →
      Attains E (statementsOf (statement n) j) (ks ++ [.keyword .end]) nodes fun _ => True
  | .block node => ∀ n, ks.length ≤ n + 1 → Attains E (block n) ks node fun _ => True

theorem branch {m : Parser (Option Node)} {ks : List Kind} {arm : Option Node}
    (h : Attains E m ks arm F) : Attains E (branchOf m) ks (Grammar.branch arm) F := map h _

theorem followsStatement_closed (isOpen : Bool) (h : followsStatement true k = true) :
    followsStatement isOpen k = true ∧ Good k ∧ k ≠ .keyword .else := by
  cases k with
  | operator symbol => cases symbol <;> first | cases h; done | exact ⟨rfl, trivial, by decide⟩
  | keyword word => cases word <;> first | cases h; done | exact ⟨rfl, trivial, by decide⟩
  | _ => cases h

namespace ReadsClause

variable {ks cs ts es : List Kind} {c : Node} {thenArm elseArm : Option Node} {isOpen : Bool}

theorem command {node : Option Node} (h : Command ks node) : ReadsClause E ks (.statement false node) := by
  obtain ⟨k, rest, hks, -⟩ := startsCommand h
  rintro (_ | n) hn
  · simp [hks] at hn
  · exact Attains.command h (statement n) hn

theorem nested {node : Node} (hderived : Says ks (.block node)) (h : ReadsClause E ks (.block node)) :
    ReadsClause E ks (.statement false (some node)) := by
  obtain ⟨rest, rfl⟩ := startsClause hderived
  rintro (_ | n) hn
  · simp at hn
  · refine peekAt trivial fun t ht => ?_
    rw [ht]
    exact last (h n hn) (pure _) fun _ _ => trivial

theorem ifThen (hc : Spells cs (.expression c)) (ht : ReadsClause E ts (.statement isOpen thenArm)) :
    ReadsClause E (word .if ++ cs ++ word .then ++ ts)
      (.statement true (some (.conditional c (Grammar.branch thenArm) (.number 0)))) := by
  rintro (_ | n) hn
  · simp at hn
  · simp at hn
    simp only [word, List.append_assoc, List.cons_append, List.nil_append]
    refine peekAt trivial fun t htoken => ?_
    rw [htoken]
    refine map ?_ _
    refine consume trivial (upTo (expression hc (by omega)) rfl (consume trivial ?_))
    refine last (branch (ht n (by omega))) ?_ fun _ hk => (followsStatement_closed isOpen hk).1
    exact pass (fun _ hk => (followsStatement_closed isOpen hk).2) (pure _)

theorem ifElse (hc : Spells cs (.expression c)) (ht : ReadsClause E ts (.statement false thenArm))
    (he : ReadsClause E es (.statement isOpen elseArm)) :
    ReadsClause E (word .if ++ cs ++ word .then ++ ts ++ word .else ++ es)
      (.statement isOpen (some (.conditional c (Grammar.branch thenArm) (Grammar.branch elseArm)))) := by
  rintro (_ | n) hn
  · simp at hn
  · simp at hn
    simp only [word, List.append_assoc, List.cons_append, List.nil_append]
    refine peekAt trivial fun t htoken => ?_
    rw [htoken]
    refine map ?_ _
    refine consume trivial (upTo (expression hc (by omega)) rfl (consume trivial ?_))
    exact upTo (branch (ht n (by omega))) rfl (accept trivial (map (branch (he n (by omega))) _))

theorem whileLoop (hc : Spells cs (.expression c)) (hb : ReadsClause E ts (.statement isOpen thenArm)) :
    ReadsClause E (word .while ++ cs ++ word .do ++ ts)
      (.statement isOpen (some (.whileLoop c (Grammar.branch thenArm)))) := by
  rintro (_ | n) hn
  · simp at hn
  · simp at hn
    simp only [word, List.append_assoc, List.cons_append, List.nil_append]
    refine peekAt trivial fun t htoken => ?_
    rw [htoken]
    refine map ?_ _
    refine consume trivial (upTo (expression hc (by omega)) rfl (consume trivial ?_))
    exact map (branch (hb n (by omega))) _

theorem forLoop {name : String} {d : Direction} {ss zs : List Kind} {start stop : Node}
    (hs : Spells ss (.expression start)) (hz : Spells zs (.expression stop))
    (hb : ReadsClause E ts (.statement isOpen thenArm)) :
    ReadsClause E (word .for ++ ident name ++ sign .assign ++ ss ++ word (direction d) ++ zs ++ word .do ++ ts)
      (.statement isOpen (some (.forLoop name d start stop (Grammar.branch thenArm)))) := by
  rintro (_ | n) hn
  · simp at hn
  · simp at hn
    simp only [word, ident, sign, List.append_assoc, List.cons_append, List.nil_append]
    refine peekAt trivial fun t htoken => ?_
    rw [htoken]
    refine map ?_ _
    refine consume trivial (identifier (consume trivial ?_))
    cases d <;> refine upTo (expression hs (by omega)) rfl (consumeAny trivial (by simp [direction]) ?_) <;>
      exact upTo (expression hz (by omega)) rfl (consume trivial (map (branch (hb n (by omega))) _))

theorem last (hderived : Says ks (.statement isOpen thenArm)) (h : ReadsClause E ks (.statement isOpen thenArm)) :
    ReadsClause E ks (.statements thenArm.toList) := by
  obtain ⟨k, rest, rfl, -⟩ := startsClause hderived
  rintro n (_ | j) hn hj
  · simp at hj
  · exact upTo (h n hn) rfl (consumeAny trivial (by simp) (pure _))

theorem lastSemicolon (h : ReadsClause E ks (.statement isOpen thenArm)) :
    ReadsClause E (ks ++ sign .semicolon) (.statements thenArm.toList) := by
  rintro n (_ | j) hn hj
  · simp at hj
  · simp at hn hj
    rw [List.append_assoc]
    exact upTo (h n (by omega)) rfl (consumeAny trivial (by simp) (accept trivial (pure _)))

theorem cons {ks' : List Kind} {nodes : List Node} (h : ReadsClause E ks (.statement isOpen thenArm))
    (hderived : Says ks' (.statements nodes)) (h' : ReadsClause E ks' (.statements nodes)) :
    ReadsClause E (ks ++ sign .semicolon ++ ks') (.statements (thenArm.toList ++ nodes)) := by
  rintro n (_ | j) hn hj
  · simp at hj
  · simp at hn hj
    rw [List.append_assoc, List.append_assoc]
    refine upTo (h n (by omega)) rfl (consumeAny trivial (by simp) (pass ?_ ?_))
    · obtain ⟨k, rest, rfl, hk⟩ := startsClause hderived
      rintro k' rfl
      exact hk
    · exact map (h' n j (by omega) (by omega)) _

theorem block {nodes : List Node} (h : ReadsClause E ks (.statements nodes)) :
    ReadsClause E (word .begin ++ ks ++ word .end) (.block (.block nodes)) := by
  intro n hn
  simp at hn
  exact consume trivial (map (h n n (by omega) (by omega)) _)

end ReadsClause

theorem readsClause {ks : List Kind} {c : Clause} (h : Says ks c) : ReadsClause E ks c := by
  induction h with
  | command h => exact .command h
  | nested h ih => exact ih.nested h
  | ifThen hc _ ih => exact .ifThen hc ih
  | ifElse hc _ _ iht ihe => exact .ifElse hc iht ihe
  | whileLoop hc _ ih => exact .whileLoop hc ih
  | forLoop name d hs hz _ ih => exact .forLoop hs hz ih
  | last h ih => exact ih.last h
  | lastSemicolon _ ih => exact ih.lastSemicolon
  | cons _ h' ih ih' => exact ih.cons h' ih'
  | block _ ih => exact ih.block

theorem block {ks : List Kind} (h : Says ks (.block node)) {n : Nat} (hn : ks.length ≤ n + 1) :
    Attains E (Parser.block n) ks node fun _ => True := readsClause h n hn

/-! ## 3. Declarations -/

variable {ks : List Kind} {n : Nat}

/-- What may come behind a section. -/
def FollowsSection (k : Kind) : Prop := ∃ w, k = .keyword w

theorem isName {name : String} (h : Attains E (f true) (.identifier name :: ks) b F) :
    Attains E (isNextName >>= f) (.identifier name :: ks) b F := by
  unfold isNextName
  rw [bind_assoc]
  refine peekAt trivial fun t ht => ?_
  rw [ht, pure_bind]
  exact h

theorem isNoName (h : Attains E (f false) [] b FollowsSection) :
    Attains E (isNextName >>= f) [] b FollowsSection := by
  unfold isNextName
  rw [bind_assoc]
  refine peek ?_ fun t ht => ?_
  · rintro k ⟨w, rfl⟩
    trivial
  · obtain ⟨w, hw⟩ := ht
    rw [hw, pure_bind]
    exact h

theorem moreNames (others : List String) (hn : others.length ≤ n) :
    Attains E (Parser.moreNames n) (others.flatMap fun name => sign .comma ++ ident name) others
      (· = .operator .colon) := by
  induction others generalizing n with
  | nil =>
    cases n with
    | zero => exact pure _
    | succ n =>
      refine pass ?_ (pure _)
      rintro k rfl
      exact ⟨trivial, by decide⟩
  | cons name others ih =>
    cases n with
    | zero => simp at hn
    | succ n => exact accept trivial (identifier (map (ih (by simpa using hn)) _))

variable {Range : Word → Word → Prop} (hE : ∀ low high, Range low high → low ≤ high ∨ E)

/-- Each name of a line is declared, unless the line has an empty range. -/
theorem declaredNames {found : Option ArrayBounds} {bounds : Option (Word × Word)} (names : List String)
    (hfound : boundsOf found = bounds) (hlow : ∀ low high, bounds = some (low, high) → low ≠ Int32.minValue)
    (hrange : ∀ low high, bounds = some (low, high) → low ≤ high ∨ E) :
    Attains E (names.mapM (Parser.declared found)) []
      ((names.map (Grammar.declared bounds)).map Node.variableDecl) fun _ => True := by
  have hone : ∀ name, Attains E (Parser.declared found name) [] (.variableDecl (Grammar.declared bounds name))
      fun _ => True := by
    intro name
    subst hfound
    unfold Parser.declared
    cases found with
    | none => exact pure _
    | some b =>
      by_cases hle : b.low ≤ b.high
      · simp only [VariableDecl.array?, if_pos (And.intro hle (hlow _ _ rfl))]
        exact pure _
      · simp only [VariableDecl.array?, if_neg fun h : _ ∧ _ => hle h.1]
        -- an empty range is the one thing that may be refused here
        exact fun s _ _ _ _ => .inr ⟨(hrange _ _ rfl).resolve_left hle, _, s, b.low, b.high, rfl, rfl⟩
  induction names with
  | nil => exact pure _
  | cons name names ih =>
    rw [List.mapM_cons]
    exact bind (hone name) (map ih _) fun _ _ => trivial

include hE in
theorem variableLine {ks' : List Kind}
    {f : List Node → Parser β} (h : VariableLine Range ks decls) (hn : ks.length ≤ n + 1)
    (hf : Attains E (f (decls.map .variableDecl)) ks' b F) : Attains E (do
      let name ← Parser.identifier
      let names ← Parser.moreNames n
      Parser.consume (.operator .colon)
      let bounds ← Parser.type
      Parser.consume (.operator .semicolon)
      let decls ← (name :: names).mapM (Parser.declared bounds)
      f decls) (ks ++ ks') b F := by
  cases h with
  | mk first others htype hrange =>
    have hothers : others.length ≤ n := by
      simp [names] at hn
      omega
    simp only [names, ident, sign, List.append_assoc, List.cons_append, List.nil_append]
    refine identifier (upTo (moreNames others hothers) rfl (consume trivial ?_))
    refine type htype fun found hfound hlow => consume trivial ?_
    refine bind (declaredNames (first :: others) hfound hlow fun low high hb => ?_) hf fun _ _ => trivial
    exact hE low high (hrange low high hb)

theorem startsVariables (h : VariableLines Range ks decls) : ∃ name rest, ks = .identifier name :: rest := by
  have hline : ∀ {ks decls}, VariableLine Range ks decls → ∃ name rest, ks = .identifier name :: rest := by
    rintro _ _ ⟨first, others, -, -⟩
    exact ⟨first, _, rfl⟩
  cases h with
  | last h => exact hline h
  | cons h _ =>
    obtain ⟨name, rest, rfl⟩ := hline h
    exact ⟨name, _, rfl⟩

include hE in
theorem variableLines (h : VariableLines Range ks decls)
    (hn : ks.length ≤ n) : Attains E (Parser.variableLines n) ks (decls.map .variableDecl) FollowsSection := by
  induction h generalizing n with
  | @last ks decls h =>
    obtain ⟨name, rest, rfl⟩ := startsVariables (.last h)
    cases n with
    | zero => simp at hn
    | succ n =>
      -- no name follows, so the section ends with this line
      rw [← List.append_nil (_ :: rest)]
      exact variableLine hE h hn (isNoName (pure _))
  | @cons ks ks' decls decls' h h' ih =>
    obtain ⟨_, _, rfl⟩ := startsVariables (.last h)
    obtain ⟨_, _, rfl⟩ := startsVariables h'
    simp at hn
    cases n with
    | zero => omega
    | succ n =>
      rw [List.map_append]
      exact variableLine hE h (by simp; omega) (isName (map (ih (by simp; omega)) _))

include hE in
theorem variableSection (h : VariableLines Range ks decls)
    (hn : ks.length ≤ n) : Attains E (Parser.variableSection n) (word .var ++ ks) (decls.map .variableDecl)
      FollowsSection :=
  consume trivial (variableLines hE h hn)

theorem constantLines {decls : List Node} (h : ConstantLines ks decls) (hn : ks.length ≤ n) :
    Attains E (Parser.constantLines n) ks decls FollowsSection := by
  induction h generalizing n with
  | last name h =>
    simp at hn
    cases n with
    | zero => omega
    | succ n =>
      exact identifier (consume trivial (number h fun _ => consume trivial (isNoName (pure _))))
  | @cons name ks ks' value decls h h' ih =>
    simp at hn
    cases n with
    | zero => omega
    | succ n =>
      simp only [ident, sign, List.append_assoc, List.cons_append, List.nil_append]
      refine identifier (consume trivial (number h fun _ => consume trivial ?_))
      have hrest := ih (n := n) (by omega)
      obtain ⟨name', rest, rfl⟩ : ∃ name rest, ks' = .identifier name :: rest := by
        cases h' <;> exact ⟨_, _, rfl⟩
      exact isName (map hrest _)

theorem constantSection {decls : List Node} (h : ConstantLines ks decls) (hn : ks.length ≤ n) :
    Attains E (Parser.constantSection n) (word .const ++ ks) decls FollowsSection :=
  consume trivial (constantLines h hn)

theorem paramsTail (first : String) (others : List String) (hn : others.length < n) :
    Attains E (Parser.paramsTail n) (Grammar.params (first :: others) ++ sign .rparen) (first :: others)
      fun _ => True := by
  induction others generalizing first n with
  | nil =>
    cases n with
    | zero => omega
    | succ n =>
      exact identifier (consume trivial (consume trivial (consumeAny trivial (by simp) (pure _))))
  | cons second others ih =>
    cases n with
    | zero => omega
    | succ n =>
      have hrest := ih second (n := n) (by simpa using hn)
      refine identifier (consume trivial (consume trivial (consumeAny trivial (by simp) ?_)))
      exact map hrest _

theorem params (names : List String) (hn : names.length ≤ n) :
    Attains E (Parser.params n) (sign .lparen ++ Grammar.params names ++ sign .rparen) names fun _ => True := by
  cases names with
  | nil => exact consume trivial (accept trivial (pure _))
  | cons first others =>
    refine consume trivial (pass ?_ (paramsTail first others hn))
    rintro k rfl
    exact ⟨trivial, Kind.noConfusion⟩

theorem prototype (p : Prototype) (hn : (heading p).length ≤ n) :
    Attains E (Parser.prototype n) (heading p) p fun _ => True := by
  obtain ⟨kind, name, names⟩ := p
  have hnames : names.length ≤ (Grammar.params names).length := by
    cases names with
    | nil => exact Nat.le_refl _
    | cons first others =>
      simp [Grammar.params]
      omega
  -- the parameters fit into the bound, whatever is declared
  have hparams : (heading ⟨kind, name, names⟩).length ≤ n →
      Attains E (Parser.params n) (sign .lparen ++ Grammar.params names ++ sign .rparen) names fun _ => True := by
    intro hlength
    apply params
    cases kind <;> simp [heading] at hlength <;> omega
  cases kind with
  | function =>
    have hsplit : heading ⟨.function, name, names⟩ = .keyword .function :: .identifier name ::
        ((sign .lparen ++ Grammar.params names ++ sign .rparen) ++
          [.operator .colon, .keyword .integer, .operator .semicolon]) := by
      simp [heading]
    rw [hsplit]
    refine consumeAny trivial (by simp) (identifier (bind (hparams hn) ?_ fun _ _ => trivial))
    exact consume trivial (consume trivial (consume trivial (pure _)))
  | procedure =>
    have hsplit : heading ⟨.procedure, name, names⟩ = .keyword .procedure :: .identifier name ::
        ((sign .lparen ++ Grammar.params names ++ sign .rparen) ++ [.operator .semicolon]) := by
      simp [heading]
    rw [hsplit]
    refine consumeAny trivial (by simp) (identifier (bind (hparams hn) ?_ fun _ _ => trivial))
    exact consume trivial (pure _)

include hE in
theorem localVariables (h : LocalVariables Range ks decls) (hn : ks.length ≤ n) :
    Attains E (Parser.localVariables n) ks (decls.map .variableDecl) (· = .keyword .begin) := by
  induction h generalizing n with
  | nil =>
    cases n with
    | zero => exact pure _
    | succ n =>
      refine isNot ?_ (pure _)
      rintro k rfl
      exact ⟨trivial, by decide⟩
  | @cons ks ks' decls decls' h h' ih =>
    simp at hn
    cases n with
    | zero => omega
    | succ n =>
      rw [List.map_append]
      refine isThere trivial (bind (variableSection hE h (by omega)) (map (ih (by omega)) _) ?_)
      -- a section is followed by another one or by the block
      intro k hk
      cases h' with
      | nil => exact ⟨_, hk⟩
      | cons _ _ => exact ⟨_, hk⟩

theorem forward (p : Prototype) (hn : (heading p).length ≤ n) :
    Attains E (Parser.subprogram n) (heading p ++ (word .forward ++ sign .semicolon)) (.forward p) fun _ => True :=
  bind (prototype p hn) (accept trivial (consume trivial (pure _))) fun _ _ => trivial

include hE in
theorem subprogram (p : Prototype) {vs bs : List Kind} {body : Node}
    (hv : LocalVariables Range vs decls) (hb : Says bs (.block body))
    (hn : (heading p ++ (vs ++ (bs ++ sign .semicolon))).length ≤ n) :
    Attains E (Parser.subprogram n) (heading p ++ (vs ++ (bs ++ sign .semicolon)))
      (Grammar.subprogram p decls body) fun _ => True := by
  simp at hn
  obtain ⟨rest, hrest⟩ := startsClause hb
  refine bind (prototype p (by omega)) (pass ?_ (bind (localVariables hE hv (by omega)) ?_ ?_)) fun _ _ => trivial
  · -- without variables the block comes next
    cases hv with
    | nil =>
      subst hrest
      rintro k rfl
      exact ⟨trivial, by decide⟩
    | cons _ _ =>
      rintro k rfl
      exact ⟨trivial, by decide⟩
  · refine bind (block hb (by omega)) (consume trivial ?_) fun _ _ => trivial
    unfold Grammar.subprogram
    cases p.kind with
    | function => exact pure _
    | procedure => exact pure _
  · subst hrest
    exact fun k hk => hk

theorem consSubprogram (p : Prototype) {decls : List Node} {ks' : List Kind}
    (hnode : Attains E (Parser.subprogram n) (heading p ++ ks) node fun _ => True)
    (hrest : Attains E (Parser.declarations n) ks' decls F) :
    Attains E (Parser.declarations (n + 1)) ((heading p ++ ks) ++ ks') (node :: decls) F := by
  have hboth : Attains E (do
      let decl ← Parser.subprogram n
      let rest ← Parser.declarations n
      return decl :: rest) ((heading p ++ ks) ++ ks') (node :: decls) F :=
    bind hnode (map hrest _) fun _ _ => trivial
  cases hkind : p.kind with
  | function =>
    simp only [heading, hkind, word, List.append_assoc, List.cons_append, List.nil_append] at hboth ⊢
    refine peekAt trivial fun t ht => ?_
    rw [ht]
    exact hboth
  | procedure =>
    simp only [heading, hkind, word, List.append_assoc, List.cons_append, List.nil_append] at hboth ⊢
    refine peekAt trivial fun t ht => ?_
    rw [ht]
    exact hboth

theorem startsDeclares {decls : List Node} (h : Declares Range ks decls) : ∃ w rest, ks = .keyword w :: rest := by
  have hheading : ∀ (p : Prototype) (ks : List Kind), ∃ w rest, heading p ++ ks = .keyword w :: rest := by
    intro p ks
    unfold heading
    cases p.kind <;> exact ⟨_, _, rfl⟩
  rcases h with h | h | p | ⟨p, hv, hb⟩
  · exact ⟨_, _, rfl⟩
  · exact ⟨_, _, rfl⟩
  · simp only [List.append_assoc]
    exact hheading p _
  · simp only [List.append_assoc]
    exact hheading p _

include hE in
theorem declarations {decls : List Node} (h : Declarations Range ks decls) (hn : ks.length < n) :
    Attains E (Parser.declarations n) ks decls (· = .keyword .begin) := by
  induction h generalizing n with
  | nil =>
    cases n with
    | zero => omega
    | succ n =>
      refine peek ?_ fun t ht => ?_
      · rintro k rfl
        trivial
      · rw [show t.kind = _ from ht]
        exact pure _
  | @cons ks ks' decls decls' h h' ih =>
    -- A section goes on while names follow, so it must be seen to end at the keyword after it.
    have hsection : ∀ k, Ahead ks' (· = .keyword .begin) k → FollowsSection k := by
      cases h' with
      | nil => exact fun k hk => ⟨_, hk⟩
      | cons h' _ =>
        obtain ⟨w, rest, rfl⟩ := startsDeclares h'
        exact fun k hk => ⟨w, hk⟩
    cases n with
    | zero => omega
    | succ n =>
      simp at hn
      rcases h with h | h | p | ⟨p, hv, hb⟩
      · simp at hn
        refine peekAt trivial fun t ht => ?_
        rw [ht]
        exact bind (variableSection hE h (by omega)) (map (ih (by omega)) _) hsection
      · simp at hn
        refine peekAt trivial fun t ht => ?_
        rw [ht]
        exact bind (constantSection h (by omega)) (map (ih (by omega)) _) hsection
      · simp at hn
        have hread := consSubprogram p (forward p (by omega)) (ih (n := n) (by omega))
        simpa using hread
      · simp at hn
        have hread := consSubprogram p (subprogram hE p hv hb (by simp; omega)) (ih (n := n) (by omega))
        simpa using hread

include hE in
theorem programOf {p : Program} (h : Derives Range ks p) (hn : ks.length ≤ n) :
    Attains E (Parser.programOf n) (ks ++ [.eof]) p fun _ => True := by
  cases h with
  | program name hd hb =>
    simp at hn
    obtain ⟨rest, hrest⟩ := startsClause hb
    simp only [word, ident, sign, List.append_assoc, List.cons_append, List.nil_append]
    refine consume trivial (identifier (consume trivial ?_))
    refine bind (declarations hE hd (by omega)) ?_ ?_
    · refine bind (block hb (by omega)) ?_ fun _ _ => trivial
      exact consume trivial (consume trivial (pure _))
    · subst hrest
      exact fun k hk => hk

end Attains

theorem Reads.programOf {ks : List Kind} {n : Nat} {p : Program} (h : Grammar.Derives (· ≤ ·) ks p)
    (hn : ks.length ≤ n) : Reads (Parser.programOf n) (ks ++ [.eof]) p fun _ => True :=
  (Attains.programOf (fun _ _ hle => .inl hle) h hn).reads

end Parser

/-! ## 4. Whole programs -/

namespace Grammar

variable {ks : List Kind} {Range : Word → Word → Prop}

theorem Number.eof_notMem {value : Word} (h : Number ks value) : .eof ∉ ks := by
  cases h <;> simp

theorem Spells.eof_notMem {t : Term} (h : Spells ks t) : .eof ∉ ks := by
  induction h with
  | number h => exact h.eof_notMem
  | @tailCons k _ _ op _ _ hop _ _ ih ih' =>
    have hk : k ≠ .eof := by cases op <;> cases hop <;> decide
    simp [ih, ih', hk.symm]
  | _ => simp [*]

theorem Command.eof_notMem {node : Option Node} (h : Command ks node) : .eof ∉ ks := by
  cases h with
  | assign ht hv =>
    have htarget : ∀ {ks node}, Lvalue ks node → .eof ∉ ks := by
      rintro _ _ (name | ⟨name, h⟩)
      · simp
      · simp [h.eof_notMem]
    simp [htarget ht, hv.eof_notMem]
  | call name h => simp [h.eof_notMem]
  | writeln h => simp [h.eof_notMem]
  | exit => simp
  | intrinsic which name => simp
  | write h => simpa using fun hmem => (h .eof hmem).2 rfl

theorem Says.eof_notMem {c : Clause} (h : Says ks c) : .eof ∉ ks := by
  induction h with
  | command h => exact h.eof_notMem
  | ifThen hc _ ih => simp [hc.eof_notMem, ih]
  | ifElse hc _ _ iht ihe => simp [hc.eof_notMem, iht, ihe]
  | whileLoop hc _ ih => simp [hc.eof_notMem, ih]
  | forLoop name d hs hz _ ih => simp [hs.eof_notMem, hz.eof_notMem, ih]
  | _ => simp [*]

variable {decls : List VariableDecl}

theorem VariableLines.eof_notMem (h : VariableLines Range ks decls) : .eof ∉ ks := by
  have hline : ∀ {ks decls}, VariableLine Range ks decls → .eof ∉ ks := by
    rintro _ _ ⟨first, others, htype, -⟩
    have hts : ∀ {ks bounds}, TypeName ks bounds → .eof ∉ ks := by
      rintro _ _ (_ | ⟨hl, hh⟩)
      · simp
      · simp [hl.eof_notMem, hh.eof_notMem]
    simp [names, hts htype]
  induction h with
  | last h => exact hline h
  | cons h _ ih => simp [hline h, ih]

theorem ConstantLines.eof_notMem {decls : List Node} (h : ConstantLines ks decls) : .eof ∉ ks := by
  induction h with
  | last name h => simp [h.eof_notMem]
  | cons name h _ ih => simp [h.eof_notMem, ih]

theorem eof_notMem_params (names : List String) : .eof ∉ params names := by
  cases names <;> simp [params]

theorem eof_notMem_heading (p : Prototype) : .eof ∉ heading p := by
  unfold heading
  cases p.kind <;> simp [eof_notMem_params]

theorem LocalVariables.eof_notMem (h : LocalVariables Range ks decls) : .eof ∉ ks := by
  induction h with
  | nil => simp
  | cons h _ ih => simp [h.eof_notMem, ih]

theorem Declarations.eof_notMem {decls : List Node} (h : Declarations Range ks decls) : .eof ∉ ks := by
  induction h with
  | nil => simp
  | cons h _ ih =>
    rcases h with h | h | p | ⟨p, hv, hb⟩
    · simp [h.eof_notMem, ih]
    · simp [h.eof_notMem, ih]
    · simp [eof_notMem_heading, ih]
    · simp [eof_notMem_heading, hv.eof_notMem, hb.eof_notMem, ih]

theorem Derives.eof_notMem {p : Program} (h : Derives Range ks p) : .eof ∉ ks := by
  cases h with
  | program name hd hb => simp [hd.eof_notMem, hb.eof_notMem]

end Grammar

namespace TokenStream

theorem starts_body (s : TokenStream) : ∃ s', s.Starts (s.body ++ [.eof]) s' := by
  obtain ⟨pending, last⟩ := s
  induction pending with
  | nil => exact ⟨_, rfl, rfl⟩
  | cons t rest ih =>
    by_cases ht : t.kind = .eof
    · have hbody : body ⟨t :: rest, last⟩ = [] := by simp [body, ht]
      rw [hbody]
      exact ⟨_, ht, rfl⟩
    · have hbody : body ⟨t :: rest, last⟩ = t.kind :: body ⟨rest, last⟩ := by simp [body, ht]
      obtain ⟨s', hs'⟩ := ih
      rw [hbody]
      exact ⟨s', rfl, hs'⟩

theorem Starts.body_eq {s s' : TokenStream} {ks : List Kind} (h : s.Starts (ks ++ [.eof]) s')
    (hks : .eof ∉ ks) : s.body = ks := by
  induction ks generalizing s with
  | nil =>
    obtain ⟨pending, last⟩ := s
    cases pending with
    | nil => rfl
    | cons t rest =>
      have ht : t.kind = .eof := h.1
      simp [body, ht]
  | cons k ks ih =>
    rw [List.mem_cons, not_or] at hks
    have hk : s.head.kind ≠ .eof := h.1 ▸ Ne.symm hks.1
    have hpending := pending_eq hk
    have htail := ih h.2 hks.2
    unfold body at htail ⊢
    rw [hpending, List.map_cons, List.takeWhile_cons_of_pos (by simpa using hk), htail, h.1]

theorem length_body_le (s : TokenStream) : s.body.length ≤ s.pending.length := by
  unfold body
  have h := (List.takeWhile_sublist (fun k => k ≠ Kind.eof) (l := s.pending.map Token.kind)).length_le
  rwa [List.length_map] at h

end TokenStream

/-- The parser accepts the tokens that a lexer delivers if those up to the first end of input spell a program
without empty ranges, and then gives the tree of that program. -/
theorem Parser.program_eq_ok_iff (s : TokenStream) (hd : s.Delivered) (p : Program) :
    Parser.program.result s = .ok p ↔ Grammar.Derives (· ≤ ·) s.body p := by
  have hrun : Parser.program s = Parser.programOf s.pending.length s := rfl
  unfold Parser.result EStateM.run
  rw [hrun]
  constructor
  · -- what is taken spells the program, and is all there is before the end of input
    intro h
    cases hresult : Parser.programOf s.pending.length s with
    | ok p' s' =>
      rw [hresult] at h
      obtain rfl : p' = p := by simpa using h
      obtain ⟨ks, hks, ks', hderives, rfl⟩ := Parser.Takes.programOf s.pending.length s p' s' hresult
      rw [hks.body_eq hderives.eof_notMem]
      exact hderives
    | error e s' =>
      rw [hresult] at h
      simp at h
  · -- no more tokens can be needed than the bound allows
    intro h
    obtain ⟨s', hs'⟩ := s.starts_body
    rw [Parser.Reads.programOf h s.length_body_le s s' hd hs' trivial]

/-- `program p; begin if 1 then write('$') end.`, where the `$` is a bad token, and more tokens behind it. -/
def TokenStream.branchOnly : TokenStream :=
  ⟨[⟨.keyword .program, ⟨0, 7⟩⟩, ⟨.identifier "p", ⟨8, 1⟩⟩, ⟨.operator .semicolon, ⟨9, 1⟩⟩,
    ⟨.keyword .begin, ⟨11, 5⟩⟩, ⟨.keyword .if, ⟨17, 2⟩⟩, ⟨.integer 1, ⟨20, 1⟩⟩, ⟨.keyword .then, ⟨22, 4⟩⟩,
    ⟨.keyword .write, ⟨27, 5⟩⟩, ⟨.operator .lparen, ⟨32, 1⟩⟩, ⟨.operator .quote, ⟨33, 1⟩⟩,
    ⟨.error (.unrecognizedOperator '$'), ⟨34, 1⟩⟩, ⟨.operator .quote, ⟨35, 1⟩⟩, ⟨.operator .rparen, ⟨36, 1⟩⟩,
    ⟨.keyword .end, ⟨38, 3⟩⟩, ⟨.operator .dot, ⟨41, 1⟩⟩, ⟨.eof, ⟨42, 0⟩⟩, ⟨.operator .dot, ⟨42, 1⟩⟩], ⟨43, 0⟩⟩

theorem Parser.program_branchOnly : TokenStream.branchOnly.Delivered ∧
    Grammar.Derives (· ≤ ·) TokenStream.branchOnly.body
      ⟨"p", [], .block [.conditional (.number 1) (.block []) (.number 0)]⟩ := by
  have hd : TokenStream.branchOnly.Delivered :=
    ⟨by simp [TokenStream.branchOnly], by decide, by decide⟩
  exact ⟨hd, (Parser.program_eq_ok_iff _ hd _).mp rfl⟩

end Mila
