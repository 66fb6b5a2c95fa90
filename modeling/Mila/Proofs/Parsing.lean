import Mila.Proofs.Grammar
import Mila.Tree.Parse

/-! # What the parser takes

Whatever tokens a parsing function takes off a stream when it succeeds, they spell the part of the grammar
that it is for, and the tree that it gives is the one that they spell.
-/

namespace Mila

/-! ## 1. Streams -/

/-- A stream starts with tokens of the given kinds, and goes on with another stream. -/
def TokenStream.Starts (s : TokenStream) : List Kind → TokenStream → Prop
  | [], s' => s' = s
  | k :: ks, s' => s.head.kind = k ∧ s.tail.Starts ks s'

namespace TokenStream.Starts

variable {s s₁ s₂ : TokenStream} {ks ks' : List Kind}

theorem append (h : s.Starts ks s₁) (h' : s₁.Starts ks' s₂) : s.Starts (ks ++ ks') s₂ := by
  induction ks generalizing s with
  | nil =>
    obtain rfl : s₁ = s := h
    exact h'
  | cons k ks ih => exact ⟨h.1, ih h.2⟩

theorem of_append (h : s.Starts (ks ++ ks') s₂) : ∃ s₁, s.Starts ks s₁ ∧ s₁.Starts ks' s₂ := by
  induction ks generalizing s with
  | nil => exact ⟨s, rfl, h⟩
  | cons k ks ih =>
    obtain ⟨s₁, h₁, h₂⟩ := ih h.2
    exact ⟨s₁, ⟨h.1, h₁⟩, h₂⟩

end TokenStream.Starts

namespace Parser

variable {α β : Type}

theorem ok_of_bind {m : Parser α} {f : α → Parser β} {s s₂ : TokenStream} {b : β}
    (h : (m >>= f) s = .ok b s₂) : ∃ a s₁, m s = .ok a s₁ ∧ f a s₁ = .ok b s₂ := by
  change EStateM.bind m f s = _ at h
  unfold EStateM.bind at h
  split at h
  · next a s₁ hm => exact ⟨a, s₁, hm, h⟩
  · cases h

theorem checked_ok {t t' : Token} {s s' : TokenStream} (h : checked t s = .ok t' s') :
    t' = t ∧ s' = s := by
  unfold checked at h
  cases hk : t.kind with
  | error reason =>
    rw [hk] at h
    cases h
  | _ =>
    rw [hk] at h
    cases h
    exact ⟨rfl, rfl⟩

/-! ## 2. Single tokens -/

/-- Where it succeeds, a function takes tokens and gives a result as `Q` says, which may also look at the
stream that is left. -/
def Takes (m : Parser α) (s : TokenStream) (Q : List Kind → α → TokenStream → Prop) : Prop :=
  ∀ a s', m s = .ok a s' → ∃ ks, s.Starts ks s' ∧ Q ks a s'

namespace Takes

variable {m : Parser α} {f : α → Parser β} {s : TokenStream} {P : List Kind → α → TokenStream → Prop}
  {Q : List Kind → β → TokenStream → Prop}

theorem pure {b : β} (h : Q [] b s) : Takes (Pure.pure b) s Q := by
  intro a s' hrun
  cases hrun
  exact ⟨[], rfl, h⟩

theorem throw {e : ParseError} : Takes (MonadExcept.throw e : Parser β) s Q := by
  intro a s' hrun
  cases hrun

theorem expected {production : Production} {t : Token} :
    Takes (Parser.expected production t : Parser β) s Q := throw

theorem bind (hm : Takes m s P)
    (hf : ∀ a ks s₁, P ks a s₁ → Takes (f a) s₁ fun ks' b s' => Q (ks ++ ks') b s') :
    Takes (m >>= f) s Q := by
  intro b s₂ hrun
  obtain ⟨a, s₁, hrun₁, hrun₂⟩ := ok_of_bind hrun
  obtain ⟨ks, hks, hP⟩ := hm a s₁ hrun₁
  obtain ⟨ks', hks', hQ⟩ := hf a ks s₁ hP b s₂ hrun₂
  exact ⟨ks ++ ks', hks.append hks', hQ⟩

theorem mono {m : Parser β} {Q' : List Kind → β → TokenStream → Prop} (h : Takes m s Q)
    (hQ : ∀ ks b s', Q ks b s' → Q' ks b s') : Takes m s Q' := by
  intro b s' hrun
  obtain ⟨ks, hks, hq⟩ := h b s' hrun
  exact ⟨ks, hks, hQ ks b s' hq⟩

theorem peek {f : Token → Parser β} (h : Takes (f s.head) s Q) : Takes (Parser.peek >>= f) s Q := by
  intro b s₂ hrun
  obtain ⟨t, s₁, hpeek, hrun⟩ := ok_of_bind hrun
  obtain ⟨rfl, rfl⟩ := checked_ok hpeek
  exact h b s₂ hrun

theorem advance {f : Token → Parser β}
    (h : Takes (f s.head) s.tail fun ks b s' => Q (s.head.kind :: ks) b s') :
    Takes (Parser.advance >>= f) s Q := by
  intro b s₂ hrun
  obtain ⟨t, s₁, hadvance, hrun⟩ := ok_of_bind hrun
  change checked s.head s.tail = _ at hadvance
  obtain ⟨rfl, rfl⟩ := checked_ok hadvance
  obtain ⟨ks, hks, hq⟩ := h b s₂ hrun
  exact ⟨s.head.kind :: ks, ⟨rfl, hks⟩, hq⟩

theorem isNext {k : Kind} {f : Bool → Parser β} (h : Takes (f (s.head.kind == k)) s Q) :
    Takes (Parser.isNext k >>= f) s Q := by
  unfold Parser.isNext
  rw [bind_assoc]
  refine peek ?_
  rw [pure_bind]
  exact h

theorem accept {k : Kind} {f : Bool → Parser β}
    (htrue : s.head.kind = k → Takes (f true) s.tail fun ks b s' => Q (k :: ks) b s')
    (hfalse : s.head.kind ≠ k → Takes (f false) s Q) : Takes (Parser.accept k >>= f) s Q := by
  unfold Parser.accept
  rw [bind_assoc]
  refine isNext ?_
  by_cases hk : s.head.kind = k
  · simp only [hk, beq_self_eq_true, if_true, bind_assoc, pure_bind]
    apply advance
    rw [hk]
    exact htrue hk
  · simp only [beq_false_of_ne hk, Bool.false_eq_true, if_false, pure_bind]
    exact hfalse hk

theorem consume {k : Kind} {f : Unit → Parser β}
    (h : Takes (f ()) s.tail fun ks b s' => Q (k :: ks) b s') : Takes (Parser.consume k >>= f) s Q := by
  unfold Parser.consume
  rw [bind_assoc]
  apply advance
  by_cases hk : s.head.kind = k
  · simp only [hk, beq_self_eq_true, if_true, pure_bind]
    exact h
  · simp only [beq_false_of_ne hk, Bool.false_eq_true, if_false]
    exact bind (P := fun _ _ _ => False) throw fun _ _ _ hfalse => hfalse.elim

theorem consumeAny {kinds : List Kind} {f : Kind → Parser β}
    (h : ∀ k ∈ kinds, Takes (f k) s.tail fun ks b s' => Q (k :: ks) b s') :
    Takes (Parser.consumeAny kinds >>= f) s Q := by
  unfold Parser.consumeAny
  rw [bind_assoc]
  apply advance
  by_cases hk : kinds.contains s.head.kind = true
  · simp only [hk, if_true, pure_bind]
    exact h _ (List.contains_iff_mem.mp hk)
  · simp only [hk, Bool.false_eq_true, if_false, bind_assoc]
    exact bind (P := fun _ _ _ => False) throw fun _ _ _ hfalse => hfalse.elim

theorem identifier {f : String → Parser β}
    (h : ∀ name, Takes (f name) s.tail fun ks b s' => Q (.identifier name :: ks) b s') :
    Takes (Parser.identifier >>= f) s Q := by
  unfold Parser.identifier
  rw [bind_assoc]
  apply advance
  split
  · next name hname =>
    rw [hname, pure_bind]
    exact h name
  · exact bind (P := fun _ _ _ => False) expected fun _ _ _ hfalse => hfalse.elim

/-- A function that nothing comes after, as one that does nothing more comes after. -/
theorem of_bind_pure {m : Parser β} (h : Takes (m >>= Pure.pure) s Q) : Takes m s Q := by
  rw [bind_pure] at h
  exact h

theorem stretch (first last : Span) : Takes (Parser.stretch first last) s fun ks _ _ => ks = [] := by
  unfold Parser.stretch
  split
  · exact pure rfl
  · exact throw

theorem number : Takes Parser.number s fun ks result _ => Grammar.Number ks result.1 := by
  apply advance
  by_cases hminus : s.head.kind = .operator .minus
  · simp only [hminus, beq_self_eq_true, if_true]
    apply advance
    refine (stretch _ _).bind fun span ks s₁ hks => ?_
    subst hks
    split
    · next value hvalue =>
      rw [hvalue]
      exact pure (.negative value)
    · exact expected
  · simp only [beq_false_of_ne hminus, Bool.false_eq_true, if_false, pure_bind]
    refine (stretch _ _).bind fun span ks s₁ hks => ?_
    subst hks
    split
    · next value hvalue =>
      rw [hvalue]
      exact pure (.plain value)
    · exact expected

end Takes

/-- The bounds that were read for a type. -/
def boundsOf (bounds : Option ArrayBounds) : Option (Word × Word) :=
  bounds.map fun b => (b.low, b.high)

theorem symbol?_of_binaryOperator? {k : Kind} {op : BinaryOperator} (h : binaryOperator? k = some op) :
    Grammar.symbol? op = some k := by
  unfold binaryOperator? at h
  split at h <;> first | cases h; rfl | cases h

namespace Takes

open Grammar

variable {s : TokenStream}

/-! ## 3. Expressions -/

theorem chainTail {operand : Parser Node}
    (hoperand : ∀ s, Takes operand s fun ks n _ => Spells ks (.operand n)) (n : Nat) (s : TokenStream) :
    Takes (Parser.chainTail operand n) s fun ks rest _ => Spells ks (.tail rest) := by
  induction n generalizing s with
  | zero => exact pure .tailNil
  | succ n ih =>
    apply peek
    split
    · next op hop =>
      apply advance
      refine (hoperand _).bind fun first ks s₁ hfirst => (ih s₁).bind fun rest ks' s₂ hrest => ?_
      have hk := symbol?_of_binaryOperator? hop
      exact pure (by simpa using Spells.tailCons hk hfirst hrest)
    · split
      · exact pure .tailNil
      · exact expected

theorem expressionOf {operand : Parser Node}
    (hoperand : ∀ s, Takes operand s fun ks n _ => Spells ks (.operand n)) (n : Nat) (s : TokenStream) :
    Takes (Parser.expressionOf operand n) s fun ks n _ => Spells ks (.expression n) := by
  refine (hoperand s).bind fun first ks s₁ hfirst =>
    (chainTail hoperand n s₁).bind fun rest ks' s₂ hrest => ?_
  have hspells := Spells.expression hfirst hrest ((Chain.grouped_iff _ _).mpr rfl)
  exact pure (by simpa using hspells)

section

variable {expression : Parser Node}
  (hexpression : ∀ s, Takes expression s fun ks n _ => Spells ks (.expression n))

include hexpression

theorem argumentsTail (n : Nat) (s : TokenStream) : Takes (Parser.argumentsTail expression n) s
    fun ks args _ => ∃ ks', Spells ks' (.list args) ∧ ks = ks' ++ sign .rparen := by
  induction n generalizing s with
  | zero => exact peek expected
  | succ n ih =>
    refine (hexpression s).bind fun arg ks s₁ harg => consumeAny fun k hk => ?_
    rcases List.mem_pair.mp hk with rfl | rfl
    · refine (ih _).bind fun args ks' s₂ hargs => ?_
      obtain ⟨ks', hargs, rfl⟩ := hargs
      exact pure ⟨_, .listCons harg hargs, by simp⟩
    · exact pure ⟨ks, .listLast harg, by simp⟩

theorem argumentsOf (n : Nat) (s : TokenStream) : Takes (Parser.argumentsOf expression n) s
    fun ks args _ => ∃ ks', Spells ks' (.arguments args) ∧ ks = sign .lparen ++ ks' ++ sign .rparen := by
  refine consume (accept (fun _ => ?_) fun _ => ?_)
  · exact pure ⟨[], .noArguments, rfl⟩
  · refine (argumentsTail hexpression n _).mono ?_
    rintro ks args s' ⟨ks', hargs, rfl⟩
    exact ⟨ks', .someArguments hargs, by simp⟩

theorem operandOf (n : Nat) (s : TokenStream) :
    Takes (Parser.operandOf expression n) s fun ks n _ => Spells ks (.operand n) := by
  apply advance
  cases hk : s.head.kind with
  | integer value => exact pure (.number (.plain value))
  | identifier name =>
    refine accept (fun _ => ?_) fun _ => isNext ?_
    · refine (hexpression _).bind fun index ks s₁ hindex => consume ?_
      exact pure (by simpa using Spells.element name hindex)
    · split
      · refine (argumentsOf hexpression n _).bind fun args ks s₁ hargs => ?_
        obtain ⟨ks', hargs, rfl⟩ := hargs
        exact pure (by simpa using Spells.call name hargs)
      · exact pure (.ident name)
  | operator symbol =>
    cases symbol with
    | minus =>
      apply advance
      split
      · next value hvalue =>
        rw [hvalue]
        exact pure (.number (.negative value))
      · exact expected
    | lparen =>
      refine (hexpression _).bind fun inner ks s₁ hinner => consume ?_
      exact pure (by simpa using Spells.parentheses hinner)
    | _ => exact expected
  | _ => exact expected

end

theorem operand (n : Nat) (s : TokenStream) :
    Takes (Parser.operand n) s fun ks n _ => Spells ks (.operand n) := by
  induction n generalizing s with
  | zero => exact peek expected
  | succ n ih => exact operandOf (expressionOf ih n) n s

theorem expression (n : Nat) (s : TokenStream) :
    Takes (Parser.expression n) s fun ks n _ => Spells ks (.expression n) :=
  expressionOf (operand n) n s

theorem arguments (n : Nat) (s : TokenStream) : Takes (Parser.arguments n) s
    fun ks args _ => ∃ ks', Spells ks' (.arguments args) ∧ ks = sign .lparen ++ ks' ++ sign .rparen :=
  argumentsOf (expression n) n s

/-! ## 4. Statements -/

theorem skipText (n : Nat) (s : TokenStream) : Takes (Parser.skipText n) s
    fun ks _ _ => ∃ ks', Text ks' ∧ ks = ks' ++ sign .quote := by
  induction n generalizing s with
  | zero =>
    intro a s' hrun
    cases hrun
  | succ n ih =>
    intro a s' hrun
    obtain ⟨t, s₁, htake, hrun⟩ := ok_of_bind hrun
    cases htake
    -- Any other token belongs to the text, and the rest is read by what remains of the fuel.
    have hmore : ∀ k, s.head.kind = k → k ≠ .operator .quote → k ≠ .eof →
        Parser.skipText n s.tail = .ok a s' → ∃ ks, s.Starts ks s' ∧ ∃ ks', Text ks' ∧ ks = ks' ++ sign .quote := by
      intro k hk hquote heof hrest
      obtain ⟨_, hks, ks', htext, rfl⟩ := ih _ a s' hrest
      refine ⟨k :: (ks' ++ sign .quote), ⟨hk, hks⟩, k :: ks', fun k' hk' => ?_, rfl⟩
      rcases List.mem_cons.mp hk' with rfl | hk'
      · exact ⟨hquote, heof⟩
      · exact htext k' hk'
    cases hk : s.head.kind with
    | eof =>
      rw [hk] at hrun
      cases hrun
    | operator symbol =>
      rw [hk] at hrun
      cases symbol with
      | quote =>
        cases hrun
        exact ⟨[.operator .quote], ⟨hk, rfl⟩, [], fun k hk => absurd hk List.not_mem_nil, rfl⟩
      | _ => exact hmore _ hk (by decide) (by decide) hrun
    | _ =>
      rw [hk] at hrun
      exact hmore _ hk Kind.noConfusion Kind.noConfusion hrun

theorem write (n : Nat) (s : TokenStream) : Takes (Parser.write n) s fun ks _ _ => Command ks none := by
  refine consume (consume (consume ((skipText n _).bind fun _ ks s₁ hks => ?_)))
  obtain ⟨ks', htext, rfl⟩ := hks
  refine of_bind_pure (consume (pure ?_))
  simpa using Command.write htext

theorem intrinsic (which : Intrinsic) (hs : s.head.kind = .keyword (keyword which)) :
    Takes (Parser.intrinsic which) s fun ks n _ => Command ks (some n) := by
  refine advance (consume (identifier fun name => consume (pure ?_)))
  rw [hs]
  exact .intrinsic which name

theorem command (n : Nat) (s : TokenStream) :
    Takes (Parser.command n) s fun ks n _ => Command ks (some n) := by
  refine identifier fun name => isNext ?_
  -- both kinds of target are followed by the same tokens
  have hassign : ∀ ts {target s}, Lvalue (.identifier name :: ts) target →
      Takes (do
        Parser.consume (.operator .assign)
        let value ← Parser.expression n
        return .binary .assign target value) s
        fun ks m _ => Command (.identifier name :: (ts ++ ks)) (some m) := by
    intro ts target s htarget
    refine consume ((expression n _).bind fun value ks s₁ hvalue => pure ?_)
    simpa using Command.assign htarget hvalue
  split
  · refine (arguments n _).bind fun args ks s₁ hargs => pure ?_
    obtain ⟨ks', hargs, rfl⟩ := hargs
    simpa using Command.call name hargs
  · refine accept (fun _ => ?_) fun _ => ?_
    · simp only [if_true, pure_bind]
      refine (expression n _).bind fun index ks s₁ hindex => consume ?_
      refine (hassign (.operator .lbracket :: (ks ++ [.operator .rbracket])) ?_).mono fun ks' m _ h => ?_
      · simpa using Lvalue.element name hindex
      · simpa using h
    · simp only [Bool.false_eq_true, if_false, pure_bind]
      exact hassign [] (.variable name)

/-- What a statement takes. An `else` behind an open one would have been taken too. -/
def Stated (ks : List Kind) (n : Option Node) (s : TokenStream) : Prop :=
  ∃ isOpen, Says ks (.statement isOpen n) ∧ (isOpen = true → s.head.kind ≠ .keyword .else)

theorem Stated.command {ks : List Kind} {n : Option Node} (h : Command ks n) (s : TokenStream) :
    Stated ks n s := ⟨false, .command h, fun hopen => absurd hopen Bool.false_ne_true⟩

section

variable {statement : Parser (Option Node)} (hstatement : ∀ s, Takes statement s Stated)

include hstatement

theorem statementsOf (n : Nat) (s : TokenStream) : Takes (Parser.statementsOf statement n) s
    fun ks nodes _ => ∃ ks', Says ks' (.statements nodes) ∧ ks = ks' ++ word .end := by
  induction n generalizing s with
  | zero => exact peek expected
  | succ n ih =>
    refine (hstatement s).bind fun first ks s₁ hfirst => consumeAny fun k hk => ?_
    obtain ⟨isOpen, hfirst, -⟩ := hfirst
    rcases List.mem_pair.mp hk with rfl | rfl
    · refine accept (fun _ => ?_) fun _ => ?_
      · exact pure ⟨ks ++ sign .semicolon, .lastSemicolon hfirst, by simp⟩
      · refine (ih _).bind fun rest ks' s₂ hrest => ?_
        obtain ⟨ks', hrest, rfl⟩ := hrest
        exact pure ⟨_, .cons hfirst hrest, by simp⟩
    · exact pure ⟨ks, .last hfirst, by simp⟩

theorem blockOf (n : Nat) (s : TokenStream) :
    Takes (Parser.blockOf statement n) s fun ks n _ => Says ks (.block n) := by
  refine consume ((statementsOf hstatement n _).bind fun nodes ks s₁ hnodes => pure ?_)
  obtain ⟨ks', hnodes, rfl⟩ := hnodes
  simpa using Says.block hnodes

theorem branchOf (s : TokenStream) : Takes (Parser.branchOf statement) s
    fun ks n s' => ∃ arm, n = branch arm ∧ Stated ks arm s' :=
  (hstatement s).bind fun arm ks _ harm => pure ⟨arm, rfl, by simpa using harm⟩

theorem conditionalOf (n : Nat) (s : TokenStream) :
    Takes (Parser.conditionalOf statement n) s fun ks n s' => Stated ks (some n) s' := by
  refine consume ((expression n _).bind fun c cs s₁ hc => consume ?_)
  refine (branchOf hstatement _).bind fun t ts s₂ ht => ?_
  obtain ⟨thenArm, rfl, thenOpen, ht, hthen⟩ := ht
  refine accept (fun helse => ?_) fun helse => ?_
  · -- the `else` was left for this conditional, so that no other one in the arm was open
    have hclosed : thenOpen = false := by
      by_contra hopen
      exact hthen (Bool.eq_true_of_not_eq_false hopen) helse
    subst hclosed
    refine (branchOf hstatement _).bind fun e es s₃ he => pure ?_
    obtain ⟨elseArm, rfl, isOpen, he, hnext⟩ := he
    exact ⟨isOpen, by simpa using Says.ifElse hc ht he, hnext⟩
  · refine pure ⟨true, by simpa using Says.ifThen hc ht, fun _ => helse⟩

theorem whileOf (n : Nat) (s : TokenStream) :
    Takes (Parser.whileOf statement n) s fun ks n s' => Stated ks (some n) s' := by
  refine consume ((expression n _).bind fun c cs s₁ hc => consume ?_)
  refine (branchOf hstatement _).bind fun b bs s₂ hb => pure ?_
  obtain ⟨body, rfl, isOpen, hb, hnext⟩ := hb
  exact ⟨isOpen, by simpa using Says.whileLoop hc hb, hnext⟩

theorem forOf (n : Nat) (s : TokenStream) :
    Takes (Parser.forOf statement n) s fun ks n s' => Stated ks (some n) s' := by
  refine consume (identifier fun name => consume ?_)
  refine (expression n _).bind fun start ss s₁ hs => consumeAny fun k hk => ?_
  have hrest : ∀ d s, Takes (do
      let stop ← Parser.expression n
      Parser.consume (.keyword .do)
      let body ← Parser.branchOf statement
      return .forLoop name d start stop body) s fun ks n s' =>
        Stated (.keyword .for :: .identifier name :: .operator .assign ::
          (ss ++ .keyword (direction d) :: ks)) (some n) s' := by
    intro d s
    refine (expression n _).bind fun stop zs s₂ hz => consume ?_
    refine (branchOf hstatement _).bind fun b bs s₃ hb => pure ?_
    obtain ⟨body, rfl, isOpen, hb, hnext⟩ := hb
    exact ⟨isOpen, by simpa using Says.forLoop name d hs hz hb, hnext⟩
  rcases List.mem_pair.mp hk with rfl | rfl
  · exact hrest .up _
  · exact hrest .down _

theorem statementOf (n : Nat) (s : TokenStream) : Takes (Parser.statementOf statement n) s Stated := by
  apply peek
  -- among the statements that are nodes, commands are never open to an `else`
  have hstated : ∀ {m : Parser Node}, (Takes m s fun ks n s' => Stated ks (some n) s') →
      Takes (do return some (← m)) s Stated := fun hm =>
    hm.bind fun n ks s' h => pure (by simpa using h)
  have hcommand : ∀ {m : Parser Node}, (Takes m s fun ks n _ => Command ks (some n)) →
      Takes (do return some (← m)) s Stated := fun hm => hstated (hm.mono fun _ _ s' h => .command h s')
  cases hk : s.head.kind with
  | identifier name => exact hcommand (command n s)
  | keyword k =>
    cases k with
    | begin =>
      refine hstated ((blockOf hstatement n s).mono fun ks n s' h => ?_)
      exact ⟨false, .nested h, fun hopen => absurd hopen Bool.false_ne_true⟩
    | «if» => exact hstated (conditionalOf hstatement n s)
    | «while» => exact hstated (whileOf hstatement n s)
    | «for» => exact hstated (forOf hstatement n s)
    | exit =>
      apply advance
      rw [hk]
      exact pure (.command .exit _)
    | readln => exact hcommand (intrinsic .readln hk)
    | inc => exact hcommand (intrinsic .inc hk)
    | dec => exact hcommand (intrinsic .dec hk)
    | writeln =>
      apply advance
      rw [hk]
      refine (arguments n _).bind fun args ks s₁ hargs => pure (.command ?_ _)
      obtain ⟨ks', hargs, rfl⟩ := hargs
      simpa [Keyword.text] using Command.writeln hargs
    | write =>
      refine (write n s).bind fun _ ks s₁ h => pure (.command ?_ _)
      simpa using h
    | _ => exact expected
  | _ => exact expected

end

theorem statement (n : Nat) (s : TokenStream) : Takes (Parser.statement n) s Stated := by
  induction n generalizing s with
  | zero => exact peek expected
  | succ n ih => exact statementOf ih n s

theorem block (n : Nat) (s : TokenStream) : Takes (Parser.block n) s fun ks n _ => Says ks (.block n) :=
  blockOf (statement n) n s

/-! ## 5. Declarations -/

theorem type (s : TokenStream) : Takes Parser.type s fun ks bounds _ => TypeName ks (boundsOf bounds) := by
  apply advance
  cases hk : s.head.kind with
  | keyword k =>
    cases k with
    | integer => exact pure .integer
    | array =>
      refine consume (number.bind fun low ls s₁ hlow => consume (number.bind fun high hs s₂ hhigh => ?_))
      refine consume (consume (consume ((stretch _ _).bind fun span ks s₃ hks => pure ?_)))
      subst hks
      simpa [boundsOf] using TypeName.array hlow hhigh
    | _ => exact expected
  | _ => exact expected

theorem moreNames (n : Nat) (s : TokenStream) : Takes (Parser.moreNames n) s
    fun ks names _ => ks = names.flatMap fun name => sign .comma ++ ident name := by
  induction n generalizing s with
  | zero => exact pure rfl
  | succ n ih =>
    refine accept (fun _ => identifier fun name => (ih _).bind fun names ks s₁ hks => pure ?_) fun _ => pure rfl
    subst hks
    simp

theorem declaredName (bounds : Option Parser.ArrayBounds) (name : String) (s : TokenStream) :
    Takes (Parser.declared bounds name) s fun ks node _ => ks = [] ∧
      node = .variableDecl (Grammar.declared (boundsOf bounds) name) ∧
      ∀ low high, boundsOf bounds = some (low, high) → low ≤ high := by
  unfold Parser.declared
  cases bounds with
  | none => exact pure ⟨rfl, rfl, fun _ _ h => by cases h⟩
  | some b =>
    by_cases hrange : b.low ≤ b.high ∧ b.low ≠ Int32.minValue
    · simp only [VariableDecl.array?, if_pos hrange]
      refine pure ⟨rfl, rfl, ?_⟩
      rintro low high ⟨⟩
      exact hrange.1
    · simp only [VariableDecl.array?, if_neg hrange]
      exact throw

theorem declaredNames (bounds : Option Parser.ArrayBounds) (names : List String) (s : TokenStream) :
    Takes (names.mapM (Parser.declared bounds)) s fun ks nodes _ => ks = [] ∧
      nodes = (names.map (Grammar.declared (boundsOf bounds))).map .variableDecl := by
  induction names generalizing s with
  | nil => exact pure ⟨rfl, rfl⟩
  | cons name names ih =>
    rw [List.mapM_cons]
    refine (declaredName bounds name s).bind fun node ks s₁ hnode => (ih s₁).bind fun nodes ks' s₂ hnodes => ?_
    obtain ⟨rfl, rfl, -⟩ := hnode
    obtain ⟨rfl, rfl⟩ := hnodes
    exact pure ⟨rfl, rfl⟩

theorem variableLines (n : Nat) (s : TokenStream) : Takes (Parser.variableLines n) s
    fun ks nodes _ => ∃ decls, VariableLines (· ≤ ·) ks decls ∧ nodes = decls.map .variableDecl := by
  induction n generalizing s with
  | zero => exact peek expected
  | succ n ih =>
    refine identifier fun first => (moreNames n _).bind fun others ks s₁ hothers => consume ?_
    refine (type _).bind fun bounds ts s₂ htype => consume ?_
    -- the first name alone tells whether the range is empty
    have hnames : Takes ((first :: others).mapM (Parser.declared bounds)) s₂.tail fun ks nodes _ => ks = [] ∧
        nodes = ((first :: others).map (Grammar.declared (boundsOf bounds))).map .variableDecl ∧
        ∀ low high, boundsOf bounds = some (low, high) → low ≤ high := by
      rw [List.mapM_cons]
      refine (declaredName bounds first _).bind fun node ks s₃ hnode =>
        (declaredNames bounds others _).bind fun nodes ks' s₄ hnodes => pure ?_
      obtain ⟨rfl, rfl, hrange⟩ := hnode
      obtain ⟨rfl, rfl⟩ := hnodes
      exact ⟨rfl, rfl, hrange⟩
    refine hnames.bind fun nodes ks' s₃ hnodes => ?_
    obtain ⟨rfl, rfl, hrange⟩ := hnodes
    have hline := VariableLine.mk first others htype hrange
    subst hothers
    unfold Parser.isNextName
    rw [bind_assoc]
    apply peek
    split
    · rw [pure_bind, if_pos rfl]
      refine (ih s₃).bind fun rest ks s₄ hrest => pure ?_
      obtain ⟨decls, hdecls, rfl⟩ := hrest
      refine ⟨_, ?_, by rw [List.map_append]⟩
      simpa [names] using VariableLines.cons hline hdecls
    · rw [pure_bind, if_neg Bool.false_ne_true]
      refine pure ⟨_, ?_, rfl⟩
      simpa [names] using VariableLines.last hline

theorem variableSection (n : Nat) (s : TokenStream) : Takes (Parser.variableSection n) s
    fun ks nodes _ => ∃ ks' decls, VariableLines (· ≤ ·) ks' decls ∧ ks = word .var ++ ks' ∧
      nodes = decls.map .variableDecl := by
  refine consume ((variableLines n _).mono ?_)
  rintro ks nodes s' ⟨decls, hdecls, rfl⟩
  exact ⟨ks, decls, hdecls, rfl, rfl⟩

theorem constantLines (n : Nat) (s : TokenStream) :
    Takes (Parser.constantLines n) s fun ks nodes _ => ConstantLines ks nodes := by
  induction n generalizing s with
  | zero => exact peek expected
  | succ n ih =>
    refine identifier fun name => consume (number.bind fun value ks s₁ hvalue => consume ?_)
    unfold Parser.isNextName
    rw [bind_assoc]
    apply peek
    split
    · rw [pure_bind, if_pos rfl]
      refine (ih _).bind fun rest ks' s₂ hrest => pure ?_
      simpa using ConstantLines.cons name hvalue hrest
    · rw [pure_bind, if_neg Bool.false_ne_true]
      exact pure (by simpa using ConstantLines.last name hvalue)

theorem constantSection (n : Nat) (s : TokenStream) :
    Takes (Parser.constantSection n) s fun ks nodes _ => Declares (· ≤ ·) ks nodes :=
  consume ((constantLines n _).mono fun _ _ _ h => .constants h)

theorem paramsTail (n : Nat) (s : TokenStream) : Takes (Parser.paramsTail n) s
    fun ks names _ => names ≠ [] ∧ ks = Grammar.params names ++ sign .rparen := by
  induction n generalizing s with
  | zero => exact peek expected
  | succ n ih =>
    refine identifier fun name => consume (consume (consumeAny fun k hk => ?_))
    rcases List.mem_pair.mp hk with rfl | rfl
    · refine (ih _).bind fun names ks s₁ hnames => pure ?_
      obtain ⟨hne, rfl⟩ := hnames
      cases names with
      | nil => exact absurd rfl hne
      | cons second others => exact ⟨List.cons_ne_nil _ _, by simp [Grammar.params]⟩
    · exact pure ⟨List.cons_ne_nil _ _, rfl⟩

theorem params (n : Nat) (s : TokenStream) : Takes (Parser.params n) s
    fun ks names _ => ks = sign .lparen ++ Grammar.params names ++ sign .rparen := by
  refine consume (accept (fun _ => pure rfl) fun _ => (paramsTail n _).mono ?_)
  rintro ks names s' ⟨-, rfl⟩
  simp

theorem prototype (n : Nat) (s : TokenStream) :
    Takes (Parser.prototype n) s fun ks p _ => ks = heading p := by
  refine consumeAny fun k hk => identifier fun name => (params n _).bind fun names ks s₁ hparams => ?_
  subst hparams
  rcases List.mem_pair.mp hk with rfl | rfl
  · refine consume (consume (consume (pure ?_)))
    simp [heading]
  · refine consume (pure ?_)
    simp [heading]

theorem localVariables (n : Nat) (s : TokenStream) : Takes (Parser.localVariables n) s
    fun ks nodes _ => ∃ decls, LocalVariables (· ≤ ·) ks decls ∧ nodes = decls.map .variableDecl := by
  induction n generalizing s with
  | zero => exact pure ⟨[], .nil, rfl⟩
  | succ n ih =>
    apply isNext
    split
    · refine (variableSection n _).bind fun nodes ks s₁ hnodes => (ih _).bind fun rest ks' s₂ hrest => pure ?_
      obtain ⟨vs, decls, hdecls, rfl, rfl⟩ := hnodes
      obtain ⟨decls', hdecls', rfl⟩ := hrest
      exact ⟨_, by simpa using LocalVariables.cons hdecls hdecls', by rw [List.map_append]⟩
    · exact pure ⟨[], .nil, rfl⟩

theorem subprogram (n : Nat) (s : TokenStream) :
    Takes (Parser.subprogram n) s fun ks n _ => Declares (· ≤ ·) ks [n] := by
  refine (prototype n s).bind fun p ks s₁ hks => ?_
  subst hks
  refine accept (fun _ => ?_) fun _ => ?_
  · refine consume (pure ?_)
    simpa using Declares.forward p
  · refine (localVariables n _).bind fun nodes vs s₂ hnodes => (block n _).bind fun body bs s₃ hbody => ?_
    obtain ⟨decls, hdecls, rfl⟩ := hnodes
    have hdeclares := Declares.subprogram p hdecls hbody
    apply consume
    cases hkind : p.kind with
    | function =>
      refine pure ?_
      simpa [Grammar.subprogram, hkind] using hdeclares
    | procedure =>
      refine pure ?_
      simpa [Grammar.subprogram, hkind] using hdeclares

theorem declarations (n : Nat) (s : TokenStream) :
    Takes (Parser.declarations n) s fun ks nodes _ => Declarations (· ≤ ·) ks nodes := by
  induction n generalizing s with
  | zero => exact peek expected
  | succ n ih =>
    have hsubprogram : Takes (do
        let decl ← Parser.subprogram n
        let rest ← Parser.declarations n
        return decl :: rest) s fun ks nodes _ => Declarations (· ≤ ·) ks nodes := by
      refine (subprogram n _).bind fun decl ks s₁ hdecl => (ih _).bind fun rest ks' s₂ hrest => pure ?_
      simpa using Declarations.cons hdecl hrest
    apply peek
    cases hk : s.head.kind with
    | keyword k =>
      cases k with
      | var =>
        refine (variableSection n _).bind fun nodes ks s₁ hnodes => (ih _).bind fun rest ks' s₂ hrest => pure ?_
        obtain ⟨vs, decls, hdecls, rfl, rfl⟩ := hnodes
        simpa using Declarations.cons (.variables hdecls) hrest
      | const =>
        refine (constantSection n _).bind fun nodes ks s₁ hnodes => (ih _).bind fun rest ks' s₂ hrest => pure ?_
        simpa using Declarations.cons hnodes hrest
      | function => exact hsubprogram
      | procedure => exact hsubprogram
      | begin => exact pure .nil
      | _ => exact expected
    | _ => exact expected

theorem programOf (n : Nat) (s : TokenStream) : Takes (Parser.programOf n) s
    fun ks p _ => ∃ ks', Derives (· ≤ ·) ks' p ∧ ks = ks' ++ [.eof] := by
  refine consume (identifier fun name => consume ?_)
  refine (declarations n _).bind fun decls ds s₁ hdecls => (block n _).bind fun body bs s₂ hbody => ?_
  refine consume (consume (pure ⟨_, .program name hdecls hbody, ?_⟩))
  simp

end Takes

end Parser

end Mila
