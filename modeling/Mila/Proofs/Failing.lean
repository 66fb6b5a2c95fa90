import Mila.Proofs.Accepting
import Mila.Proofs.Stopping

/-! # Where each part of the grammar stops

Each parsing function fails at the first token with which its part of the grammar cannot go on, and what comes
behind that token is not looked at. It does not matter how far the stream goes there.
-/

namespace Mila

namespace Parser

open Grammar

variable {s₀ s : TokenStream} {n n' : Nat}

/-- A function fails at the end of input, where it asks for a part of the grammar. -/
def MissesAtEnd {α : Type} (production : Production) (m : Parser α) : Prop :=
  ∀ last, m ⟨[], last⟩ = (peek >>= expected production : Parser α) ⟨[], last⟩

theorem MissesAtEnd.bind {α β : Type} {m : Parser α} {f : α → Parser β} {production : Production}
    (h : MissesAtEnd production m) : MissesAtEnd production (m >>= f) := fun last => error_bind (h last)

/-! ## 1. Expressions -/

theorem isPlain_of_symbol? {op : BinaryOperator} {k : Kind} (h : symbol? op = some k) : Stops.isPlain k = true := by
  cases op <;> cases h <;> rfl

/-- There is something that an expression can go on with. -/
theorem exists_expression : ∃ ks e, Spells ks (.expression e) :=
  ⟨_, _, .expression (.number (.plain 0)) .tailNil ((Chain.grouped_iff _ _).mpr rfl)⟩

section

variable {operand operand' : Parser Node}
  (hoperand : Handles s₀ n n' operand operand' fun ks e _ => Spells ks (.operand e))
  (htakes : ∀ s, Takes operand s fun ks e _ => Spells ks (.operand e))

include hoperand htakes

theorem handles_chainTail (k k' : Nat) (hk : k ≤ n) :
    Handles s₀ k (min k' n') (chainTail operand k) (chainTail operand' k')
      fun ks rest _ => Spells ks (.tail rest) := by
  refine Handles.fuel (b := fun k' => min k' n') (Nat.zero_min n') (fun _ => rfl) (fun k k' hk ih => ?_) k k' hk
  intro s N L hs hN hL
  refine Stops.takes ?_ (Takes.chainTail htakes _ s) fun ks rest _ h => h.eof_notMem
  -- an expression may end here, so what was read before can be completed
  have hend := hL _ _ s .tailNil
  refine Stops.peek hend fun _ => ?_
  split
  · next op hop =>
    have hsymbol := symbol?_of_binaryOperator? hop
    -- behind an operator any operand will do
    have hword : ∀ {ks e ks' rest}, Spells ks (.operand e) → Spells ks' (.tail rest) →
        ∃ more : List Kind, L (s.head.kind :: (ks ++ (ks' ++ more))) := by
      intro ks e ks' rest he hrest
      simpa [Extends] using hL _ _ s (.tailCons hsymbol he hrest)
    have hplain := Stops.ne_of_isPlain (isPlain_of_symbol? hsymbol)
    refine Stops.advance hend hplain.1 hplain.2 fun s₁ _ hs₁ => ?_
    refine Stops.bind (hoperand s₁ _ _ (by omega) (by omega) fun ks e _ he => hword he .tailNil)
      fun e ks s₂ he _ hs₂ => ?_
    exact Stops.last (ih k' s₂ _ _ (by omega) (by omega) fun ks' rest _ hrest => hword he hrest)
  · split
    · exact Stops.pure trivial
    · exact Stops.expected hend

theorem handles_expressionOf :
    Handles s₀ n n' (expressionOf operand n) (expressionOf operand' n') fun ks e _ => Spells ks (.expression e) := by
  intro s N L hs hN hL
  refine Stops.takes ?_ (Takes.expressionOf htakes n s) fun ks e _ h => h.eof_notMem
  have hword : ∀ {ks e ks' rest}, Spells ks (.operand e) → Spells ks' (.tail rest) →
      ∃ more : List Kind, L (ks ++ (ks' ++ more)) := by
    intro ks e ks' rest he hrest
    simpa [Extends] using hL _ _ s (.expression he hrest ((Chain.grouped_iff _ _).mpr rfl))
  refine Stops.bind (hoperand s _ _ hs hN fun ks e _ he => hword he .tailNil) fun e ks s₁ he _ hs₁ => ?_
  exact Stops.last (handles_chainTail hoperand htakes n n' (Nat.le_refl n) s₁ _ _ (by omega) (by omega)
    fun ks' rest _ hrest => hword he hrest)

end

section

variable {expression expression' : Parser Node}
  (hexpression : Handles s₀ n n' expression expression' fun ks e _ => Spells ks (.expression e))
  (htakes : ∀ s, Takes expression s fun ks e _ => Spells ks (.expression e))
  (hend : MissesAtEnd .operand expression')

include hexpression htakes hend

theorem handles_argumentsTail (k k' : Nat) (hk : k ≤ n) :
    Handles s₀ k (min k' n') (argumentsTail expression k) (argumentsTail expression' k')
      fun ks args _ => ∃ ks', Spells ks' (.list args) ∧ ks = ks' ++ sign .rparen := by
  refine Handles.fuel (b := fun k' => min k' n') (Nat.zero_min n') (fun last => (hend.bind last).symm)
    (fun k k' hk ih => ?_) k k' hk
  intro s N L hs hN hL
  refine Stops.takes ?_ (Takes.argumentsTail htakes _ s) ?_
  · -- a list may end behind any of its arguments
    have hlast : ∀ {ks e}, Spells ks (.expression e) → ∃ more : List Kind, L (ks ++ .operator .rparen :: more) := by
      intro ks e he
      simpa [Extends] using hL _ _ s ⟨_, .listLast he, rfl⟩
    refine Stops.bind (hexpression s _ _ (by omega) (by omega) fun ks e _ he => ?_) fun e ks s₁ he _ hs₁ => ?_
    · exact .before (hlast he)
    refine Stops.consumeAny (.before (hlast he)) rfl fun sep hsep s₂ _ hs₂ => ?_
    rcases List.mem_pair.mp hsep with rfl | rfl
    · refine Stops.last (ih k' s₂ _ _ (by omega) (by omega) fun ks' args _ hargs => ?_)
      obtain ⟨ks', hargs, rfl⟩ := hargs
      simpa [Extends] using hL _ _ s ⟨_, .listCons he hargs, rfl⟩
    · exact Stops.pure trivial
  · rintro ks args _ ⟨ks', hargs, rfl⟩
    simpa using hargs.eof_notMem

theorem handles_argumentsOf : Handles s₀ n n' (argumentsOf expression n) (argumentsOf expression' n')
      fun ks args _ => ∃ ks', Spells ks' (.arguments args) ∧ ks = sign .lparen ++ ks' ++ sign .rparen := by
  intro s N L hs hN hL
  refine Stops.takes ?_ (Takes.argumentsOf htakes n s) ?_
  · have hword : ∀ {ks args}, Spells ks (.arguments args) →
        ∃ more : List Kind, L (.operator .lparen :: (ks ++ .operator .rparen :: more)) := by
      intro ks args hargs
      simpa [Extends] using hL _ _ s ⟨_, hargs, rfl⟩
    have hnone := hword .noArguments
    refine Stops.consume (.before hnone) rfl fun s₁ _ hs₁ => ?_
    refine Stops.accept (.before hnone) rfl (fun _ s₂ _ _ => Stops.pure trivial) fun _ => ?_
    refine Stops.imp (handles_argumentsTail hexpression htakes hend n n' (Nat.le_refl n) s₁ _ _ (by omega)
      (by omega) ?_) fun _ _ _ _ => trivial
    rintro ks args _ ⟨ks', hargs, rfl⟩
    simpa [Extends] using hword (.someArguments hargs)
  · rintro ks args _ ⟨ks', hargs, rfl⟩
    simpa using hargs.eof_notMem

theorem handles_operandOf : Handles s₀ (n + 1) (n' + 1) (operandOf expression n) (operandOf expression' n')
      fun ks e _ => Spells ks (.operand e) := by
  intro s N L hs hN hL
  refine Stops.takes ?_ (Takes.operandOf htakes n s) fun ks e _ h => h.eof_notMem
  -- whatever stands here, a number could have
  have hstart := (hL _ _ s (.number (.plain 0))).nil
  cases hk : s.head.kind with
  | integer value =>
    refine Stops.advance hstart (by rw [hk]; exact Kind.noConfusion) (by rw [hk]; exact Kind.noConfusion)
      fun s₁ _ _ => ?_
    rw [hk]
    exact Stops.pure trivial
  | identifier name =>
    refine Stops.advance hstart (by rw [hk]; exact Kind.noConfusion) (by rw [hk]; exact Kind.noConfusion)
      fun s₁ _ hs₁ => ?_
    rw [hk]
    have hname := hL _ _ s (.ident name)
    -- a name alone is an operand, so nothing has to follow
    refine Stops.accept hname rfl (fun _ s₂ _ hs₂ => ?_) fun _ => ?_
    · have hword : ∀ {ks e}, Spells ks (.expression e) →
          ∃ more : List Kind, L (.identifier name :: .operator .lbracket :: (ks ++ .operator .rbracket :: more)) := by
        intro ks e he
        simpa [Extends] using hL _ _ s (.element name he)
      refine Stops.bind (hexpression s₂ _ _ (by omega) (by omega) fun ks e _ he => ?_) fun e ks s₃ he _ _ => ?_
      · exact .before (hword he)
      · exact Stops.consume (.before (hword he)) rfl fun _ _ _ => Stops.pure trivial
    · refine Stops.isNext hname ?_
      split
      · refine Stops.last (handles_argumentsOf hexpression htakes hend s₁ _ _ (by omega) (by omega) ?_)
        rintro ks args _ ⟨ks', hargs, rfl⟩
        simpa [Extends] using hL _ _ s (.call name hargs)
      · exact Stops.pure trivial
  | operator symbol =>
    by_cases hminus : symbol = .minus
    · subst hminus
      refine Stops.advance hstart (by rw [hk]; exact Kind.noConfusion) (by rw [hk]; decide) fun s₁ _ _ => ?_
      rw [hk]
      -- behind a sign there can only be a number
      have hnumber : Extends (fun rest => L (.operator .minus :: rest)) [] :=
        .before (hL _ _ s (.number (.negative 0)))
      cases hk₁ : s₁.head.kind with
      | integer value =>
        refine Stops.advance hnumber (by rw [hk₁]; exact Kind.noConfusion) (by rw [hk₁]; exact Kind.noConfusion)
          fun s₂ _ _ => ?_
        rw [hk₁]
        exact Stops.pure trivial
      | _ =>
        refine Stops.refuse hnumber ?_
        rw [hk₁]
        exact .expected
    by_cases hparen : symbol = .lparen
    · subst hparen
      refine Stops.advance hstart (by rw [hk]; exact Kind.noConfusion) (by rw [hk]; decide) fun s₁ _ hs₁ => ?_
      rw [hk]
      have hword : ∀ {ks e}, Spells ks (.expression e) →
          ∃ more : List Kind, L (.operator .lparen :: (ks ++ .operator .rparen :: more)) := by
        intro ks e he
        simpa [Extends] using hL _ _ s (.parentheses he)
      refine Stops.bind (hexpression s₁ _ _ (by omega) (by omega) fun ks e _ he => ?_) fun e ks s₂ he _ _ => ?_
      · exact .before (hword he)
      · exact Stops.consume (.before (hword he)) rfl fun _ _ _ => Stops.pure trivial
    · refine Stops.refuse hstart ?_
      rw [hk]
      cases symbol with
      | minus => exact absurd rfl hminus
      | lparen => exact absurd rfl hparen
      | _ => exact .expected
  | _ =>
    refine Stops.refuse hstart ?_
    rw [hk]
    exact .expected

end

theorem operand_atEnd (k : Nat) : MissesAtEnd .operand (operand k) := fun _ => by cases k <;> rfl

theorem expression_atEnd (k : Nat) : MissesAtEnd .operand (expression k) := (operand_atEnd k).bind

theorem handles_operand (n n' : Nat) :
    Handles s₀ n n' (operand n) (operand n') fun ks e _ => Spells ks (.operand e) := by
  refine Handles.fuel (b := fun k => k) rfl (fun _ => rfl) (fun k k' _ ih => ?_) n n' (Nat.le_refl n)
  exact handles_operandOf (handles_expressionOf (ih k') (Takes.operand k)) (Takes.expression k) (expression_atEnd k')

theorem handles_expression (n n' : Nat) :
    Handles s₀ n n' (expression n) (expression n') fun ks e _ => Spells ks (.expression e) :=
  handles_expressionOf (handles_operand n n') (Takes.operand n)

theorem handles_arguments (n n' : Nat) : Handles s₀ n n' (arguments n) (arguments n')
    fun ks args _ => ∃ ks', Spells ks' (.arguments args) ∧ ks = sign .lparen ++ ks' ++ sign .rparen :=
  handles_argumentsOf (handles_expression n n') (Takes.expression n) (expression_atEnd n')

/-! ## 2. Statements -/

theorem takeAny_eq {β : Type} {z : TokenStream} {f : Token → Parser β} (hz : z.head = s.head) :
    (takeAny >>= f) z = f s.head z.tail := by
  rw [← hz]
  rfl

/-- The text of a literal may hold bad tokens. It ends with a quote, or fails at the end of input. -/
theorem goes_skipText (n n' : Nat) (s : TokenStream) (N : Nat) (hs : s.pending.length < n) (hN : N ≤ n') :
    Goes N (skipText n) (skipText n') s
      (fun ts _ _ => ∃ text, Text text ∧ ts.map Token.kind = text ++ sign .quote)
      fun e ts t => e = ⟨.unexpected (.operator .quote) .eof, t.span⟩ ∧ t.kind = .eof ∧ Text (ts.map Token.kind) := by
  induction n generalizing n' s N with
  | zero => exact absurd hs (Nat.not_lt_zero _)
  | succ n ih =>
    have hnil : Text [] := List.forall_mem_nil _
    have hstep : ∀ n' N, N ≤ n' + 1 → Goes N (skipText (n + 1)) (skipText (n' + 1)) s
        (fun ts _ _ => ∃ text, Text text ∧ ts.map Token.kind = text ++ sign .quote)
        fun e ts t => e = ⟨.unexpected (.operator .quote) .eof, t.span⟩ ∧ t.kind = .eof ∧
          Text (ts.map Token.kind) := by
      intro n' N hN
      -- the end of input is reported, and any other token but a quote belongs to the text
      by_cases heof : s.head.kind = .eof
      · have hskip : ∀ (k : Nat) (z : TokenStream), z.head = s.head →
            skipText (k + 1) z = .error ⟨.unexpected (.operator .quote) .eof, s.head.span⟩ z.tail := by
          intro k z hz
          refine (takeAny_eq hz).trans ?_
          rw [heof]
          rfl
        exact .reject ⟨rfl, heof, hnil⟩ (hskip n s rfl) (hskip n')
      · refine .cons heof (takeAny_eq rfl) (fun z hz => takeAny_eq hz) ?_
        have hs₁ := (TokenStream.past_tail heof).lt
        split
        · next hquote => exact .here (.ok ⟨[], hnil, congrArg ([·]) hquote⟩) rfl fun _ _ => rfl
        · next h => exact absurd h heof
        · next hquote _ =>
          have hcons : ∀ {ks}, Text ks → Text (s.head.kind :: ks) := fun h =>
            List.forall_mem_cons.mpr ⟨⟨hquote, heof⟩, h⟩
          refine (ih n' s.tail (N - 1) (by omega) (by omega)).imp ?_ ?_
          · rintro ts _ _ ⟨text, htext, hts⟩
            exact ⟨s.head.kind :: text, hcons htext, congrArg (s.head.kind :: ·) hts⟩
          · rintro e ts t ⟨he, ht, htext⟩
            exact ⟨he, ht, hcons htext⟩
    -- within a bound of zero there are only streams at their end
    cases n' with
    | zero =>
      obtain rfl := Nat.le_zero.mp hN
      exact (hstep 0 0 (Nat.zero_le _)).atEnd fun _ => rfl
    | succ n' => exact hstep n' N hN

theorem handles_literal (n n' : Nat) :
    Handles s₀ n n' (do consume (.operator .quote); skipText n) (do consume (.operator .quote); skipText n')
      fun ks _ _ => ∃ text, Text text ∧ ks = sign .quote ++ text ++ sign .quote := by
  intro s N L hs hN hL
  have hword : ∀ text, Text text → ∃ more : List Kind, L (.operator .quote :: (text ++ .operator .quote :: more)) := by
    intro text htext
    simpa [Extends] using hL _ () s ⟨text, htext, rfl⟩
  by_cases hquote : s.head.kind = .operator .quote
  · have heof : s.head.kind ≠ .eof := by
      rw [hquote]
      exact Kind.noConfusion
    have hs₁ := (TokenStream.past_tail heof).lt
    -- neither the text nor a failure in it is looked at token by token, so only the whole is balanced
    refine fun _ => .cons heof (bind_eq (consume_eq hquote trivial))
      (fun z hz => bind_eq (consume_eq (by rw [hz, hquote]) trivial))
      ((goes_skipText n n' s.tail (N - 1) (by omega) (by omega)).imp ?_ ?_)
    · rintro ts _ u ⟨text, htext, hts⟩
      have hkinds : (s.head :: ts).map Token.kind = .operator .quote :: (text ++ sign .quote) := by
        rw [List.map_cons, hquote, hts]
      refine ⟨fun t ht heof => ?_, ?_, text, htext, hkinds⟩
      · have hmem := List.mem_map_of_mem (f := Token.kind) ht
        rw [hkinds, heof] at hmem
        exact (htext .eof (by simpa using hmem)).2 rfl
      · rw [hkinds]
        exact .literal htext .nil
    · rintro e ts t ⟨rfl, ht, htext⟩
      refine .inr ⟨⟨rfl, congrArg some ht.symm⟩, ?_, fun _ h => by cases h⟩
      rw [List.map_cons, hquote]
      exact .before (hword _ htext)
  · obtain ⟨e, hconcerns, hrun⟩ := Stops.consume_other s₀ (β := Unit) hquote
    exact fun _ => .reject (hconcerns.fault (.before (hword [] (List.forall_mem_nil _))))
      (hrun _ s rfl) (hrun _)

theorem handles_write (n n' : Nat) :
    Handles s₀ (n + 1) (n' + 1) (write n) (write n') fun ks _ _ => Command ks none := by
  intro s N L hs hN hL
  refine Stops.takes ?_ (Takes.write n s) fun ks _ _ h => h.eof_notMem
  have hword : ∀ text, Text text → ∃ more : List Kind, L (.keyword .write :: .operator .lparen :: .operator .quote ::
      (text ++ .operator .quote :: .operator .rparen :: more)) := by
    intro text htext
    simpa [Extends] using hL _ () s (.write htext)
  have hempty := hword [] fun k hk => absurd hk List.not_mem_nil
  refine Stops.consume (.before hempty) rfl fun s₁ _ hs₁ => ?_
  refine Stops.consume (.before hempty) rfl fun s₂ _ hs₂ => ?_
  refine Stops.of_assoc (Stops.bind (handles_literal n n' s₂ _ _ (by omega) (by omega) ?_) fun _ ks s₃ hks _ _ => ?_)
  · rintro ks _ _ ⟨text, htext, rfl⟩
    simpa [Extends] using (hword _ htext).elim fun _ h => ⟨_, h⟩
  · obtain ⟨text, htext, rfl⟩ := hks
    refine Stops.of_bind_pure (Stops.consume ?_ rfl fun _ _ _ => Stops.pure trivial)
    simpa [Extends] using (hword _ htext).elim fun _ h => ⟨_, h⟩

theorem stops_intrinsic {which : Intrinsic} {N : Nat} {L : List Kind → Prop}
    (hk : s.head.kind = .keyword (keyword which)) (hL : ∀ ks a, Command ks a → Extends L ks) :
    Stops s₀ N (intrinsic which) (intrinsic which) s L fun ks a _ => Command ks (some a) := by
  refine Stops.takes ?_ (Takes.intrinsic which hk) fun ks _ _ h => h.eof_notMem
  have hword : ∀ name, ∃ more : List Kind, L (.keyword (keyword which) :: .operator .lparen :: .identifier name ::
      .operator .rparen :: more) := fun name => hL _ _ (.intrinsic which name)
  refine Stops.advance (.before (hword "")) (by rw [hk]; exact Kind.noConfusion)
    (by rw [hk]; exact Kind.noConfusion) fun s₁ _ _ => ?_
  rw [hk]
  refine Stops.consume (.before (hword "")) rfl fun s₂ _ _ => ?_
  refine Stops.identifier (.before (hword "")) fun name s₃ _ _ => ?_
  exact Stops.consume (.before (hword name)) rfl fun _ _ _ => Stops.pure trivial

theorem handles_command (n n' : Nat) :
    Handles s₀ (n + 1) (n' + 1) (command n) (command n') fun ks a _ => Command ks (some a) := by
  intro s N L hs hN hL
  refine Stops.takes ?_ (Takes.command n s) fun ks _ _ h => h.eof_notMem
  obtain ⟨zs, zero, hzero⟩ := exists_expression
  -- an assignment completes what starts with a name
  have hstart : ∀ name, ∃ more : List Kind, L (.identifier name :: .operator .assign :: (zs ++ more)) := by
    intro name
    simpa [Extends] using hL _ _ s (.assign (.variable name) hzero)
  refine Stops.identifier (.before (hstart "")) fun name s₁ _ hs₁ => ?_
  refine Stops.isNext (.before (hstart name)) ?_
  -- what follows the target is read alike for both kinds of target
  have hassign : ∀ ts {target s M}, Lvalue (.identifier name :: ts) target → s.pending.length ≤ n → M ≤ n' →
      Stops s₀ M (do
        Parser.consume (.operator .assign)
        let value ← Parser.expression n
        return Node.binary .assign target value) (do
        Parser.consume (.operator .assign)
        let value ← Parser.expression n'
        return Node.binary .assign target value) s (fun rest => L (.identifier name :: (ts ++ rest)))
        fun _ _ _ => True := by
    intro ts target s M htarget hs hM
    have hword : ∀ {ks e}, Spells ks (.expression e) →
        ∃ more : List Kind, L (.identifier name :: (ts ++ .operator .assign :: (ks ++ more))) := by
      intro ks e he
      simpa [Extends] using hL _ _ s (.assign htarget he)
    refine Stops.consume (.before (hword hzero)) rfl fun s₁ _ hs₁ => ?_
    exact Stops.last (handles_expression n n' s₁ _ _ (by omega) (by omega) fun ks e _ he => hword he)
  split
  · refine Stops.last (handles_arguments n n' s₁ _ _ (by omega) (by omega) ?_)
    rintro ks args _ ⟨ks', hargs, rfl⟩
    simpa [Extends] using hL _ _ s (.call name hargs)
  · refine Stops.accept (.before (hstart name)) rfl (fun _ s₂ _ hs₂ => ?_) fun _ => ?_
    · simp only [if_true, pure_bind]
      have hword : ∀ {ks e}, Spells ks (.expression e) →
          ∃ more : List Kind, L (.identifier name :: .operator .lbracket :: (ks ++ .operator .rbracket :: more)) := by
        intro ks e he
        obtain ⟨more, h⟩ := hL _ _ s (.assign (.element name he) hzero)
        exact ⟨.operator .assign :: (zs ++ more), by simpa using h⟩
      refine Stops.bind (handles_expression n n' s₂ _ _ (by omega) (by omega) fun ks e _ he =>
        .before (hword he)) fun e ks s₃ he _ hs₃ => ?_
      refine Stops.consume (.before (hword he)) rfl fun s₄ _ hs₄ => ?_
      have hrest := hassign (sign .lbracket ++ ks ++ sign .rbracket) (s := s₄)
        (M := N - 1 - 1 - ks.length - 1) (by simpa using Lvalue.element name he) (by omega) (by omega)
      simpa using hrest
    · simp only [Bool.false_eq_true, if_false, pure_bind]
      exact hassign [] (.variable name) (by omega) (by omega)

theorem stated_atEnd {ks : List Kind} {isOpen : Bool} {a : Option Node} (h : Says ks (.statement isOpen a)) :
    Takes.Stated ks a ⟨[], ⟨0, 0⟩⟩ := ⟨isOpen, h, fun _ => Kind.noConfusion⟩

theorem says_exit : Says (word .exit) (.statement false (some .exit)) := .command .exit

section

variable {statement statement' : Parser (Option Node)}
  (hstatement : Handles s₀ n n' statement statement' Takes.Stated)
  (htakes : ∀ s, Takes statement s Takes.Stated)

include hstatement htakes

theorem handles_statementsOf (hend : MissesAtEnd .statement statement') (k k' : Nat) (hk : k ≤ n) :
    Handles s₀ k (min k' n') (statementsOf statement k) (statementsOf statement' k')
      fun ks nodes _ => ∃ ks', Says ks' (.statements nodes) ∧ ks = ks' ++ word .end := by
  refine Handles.fuel (b := fun k' => min k' n') (Nat.zero_min n') (fun last => (hend.bind last).symm)
    (fun k k' hk ih => ?_) k k' hk
  intro s N L hs hN hL
  refine Stops.takes ?_ (Takes.statementsOf htakes _ s) ?_
  · have hlast : ∀ {ks isOpen a}, Says ks (.statement isOpen a) → ∃ more : List Kind, L (ks ++ .keyword .end :: more) := by
      intro ks isOpen a ha
      simpa [Extends] using hL _ _ s ⟨_, .last ha, rfl⟩
    refine Stops.bind (hstatement s _ _ (by omega) (by omega) ?_) fun a ks s₁ ha _ hs₁ => ?_
    · rintro ks a _ ⟨isOpen, ha, -⟩
      exact .before (hlast ha)
    obtain ⟨isOpen, ha, -⟩ := ha
    refine Stops.consumeAny (.before (hlast ha)) rfl fun sep hsep s₂ _ hs₂ => ?_
    rcases List.mem_pair.mp hsep with rfl | rfl
    · -- a block may end behind a semicolon
      have hsemicolon : ∃ more : List Kind, L (ks ++ .operator .semicolon :: .keyword .end :: more) := by
        simpa [Extends] using hL _ _ s ⟨_, .lastSemicolon ha, rfl⟩
      refine Stops.accept (.before hsemicolon) rfl (fun _ _ _ _ => Stops.pure trivial)
        fun _ => ?_
      refine Stops.last (ih k' s₂ _ _ (by omega) (by omega) ?_)
      rintro ks' nodes _ ⟨ks', hnodes, rfl⟩
      simpa [Extends] using hL _ _ s ⟨_, .cons ha hnodes, rfl⟩
    · exact Stops.pure trivial
  · rintro ks args _ ⟨ks', hnodes, rfl⟩
    simpa using hnodes.eof_notMem

theorem handles_blockOf (hend : MissesAtEnd .statement statement') :
    Handles s₀ (n + 1) (n' + 1) (blockOf statement n) (blockOf statement' n') fun ks a _ => Says ks (.block a) := by
  intro s N L hs hN hL
  refine Stops.takes ?_ (Takes.blockOf htakes n s) fun ks _ _ h => h.eof_notMem
  have hword : ∀ {ks nodes}, Says ks (.statements nodes) →
      ∃ more : List Kind, L (.keyword .begin :: (ks ++ .keyword .end :: more)) := by
    intro ks nodes hnodes
    simpa [Extends] using hL _ _ s (.block hnodes)
  refine Stops.consume (.before (hword (.last says_exit))) rfl fun s₁ _ hs₁ => ?_
  refine Stops.last (handles_statementsOf hstatement htakes hend n n' (Nat.le_refl n) s₁ _ _ (by omega)
    (by omega) ?_)
  rintro ks nodes _ ⟨ks', hnodes, rfl⟩
  simpa [Extends] using hword hnodes

omit htakes in
theorem handles_branchOf : Handles s₀ n n' (branchOf statement) (branchOf statement')
    fun ks a s₁ => ∃ arm, a = branch arm ∧ Takes.Stated ks arm s₁ := by
  intro s N L hs hN hL
  refine Stops.bind (hstatement s N L hs hN fun ks arm s₁ harm => hL ks _ s₁ ⟨arm, rfl, harm⟩)
    fun arm ks s₁ harm _ _ => Stops.pure ⟨arm, rfl, ?_⟩
  rw [List.append_nil]
  exact harm

theorem handles_conditionalOf : Handles s₀ (n + 1) (n' + 1) (conditionalOf statement n) (conditionalOf statement' n')
    fun ks a s₁ => Takes.Stated ks (some a) s₁ := by
  intro s N L hs hN hL
  refine Stops.takes ?_ (Takes.conditionalOf htakes n s) fun ks _ _ h => h.elim fun _ h => h.1.eof_notMem
  obtain ⟨zs, zero, hzero⟩ := exists_expression
  have hif : ∀ {cs c ts isOpen t}, Spells cs (.expression c) → Says ts (.statement isOpen t) →
      ∃ more : List Kind, L (.keyword .if :: (cs ++ .keyword .then :: (ts ++ more))) := by
    intro cs c ts isOpen t hc ht
    simpa [Extends] using hL _ _ _ (stated_atEnd (.ifThen hc ht))
  refine Stops.consume (.before (hif hzero says_exit)) rfl fun s₁ _ hs₁ => ?_
  refine Stops.bind (handles_expression n n' s₁ _ _ (by omega) (by omega) fun cs c _ hc =>
    .before (hif hc says_exit)) fun c cs s₂ hc _ hs₂ => ?_
  refine Stops.consume (.before (hif hc says_exit)) rfl fun s₃ _ hs₃ => ?_
  refine Stops.bind (handles_branchOf hstatement s₃ _ _ (by omega) (by omega) ?_) fun t ts s₄ ht _ hs₄ => ?_
  · rintro ts t _ ⟨arm, rfl, isOpen, ht, -⟩
    exact hif hc ht
  obtain ⟨thenArm, rfl, thenOpen, ht, hthen⟩ := ht
  refine Stops.accept (.before (hif hc ht)) rfl (fun helse s₅ _ hs₅ => ?_) fun _ => ?_
  · -- the `else` was left for this conditional, so that no other one in the arm was open
    have hclosed : thenOpen = false := by
      by_contra hopen
      exact hthen (Bool.eq_true_of_not_eq_false hopen) helse
    subst hclosed
    simp only [if_true]
    refine Stops.last (handles_branchOf hstatement s₅ _ _ (by omega) (by omega) ?_)
    rintro es e _ ⟨arm, rfl, isOpen, he, -⟩
    simpa [Extends] using hL _ _ _ (stated_atEnd (.ifElse hc ht he))
  · simp only [Bool.false_eq_true, if_false, pure_bind]
    exact Stops.pure trivial

theorem handles_whileOf : Handles s₀ (n + 1) (n' + 1) (whileOf statement n) (whileOf statement' n')
    fun ks a s₁ => Takes.Stated ks (some a) s₁ := by
  intro s N L hs hN hL
  refine Stops.takes ?_ (Takes.whileOf htakes n s) fun ks _ _ h => h.elim fun _ h => h.1.eof_notMem
  obtain ⟨zs, zero, hzero⟩ := exists_expression
  have hword : ∀ {cs c bs isOpen b}, Spells cs (.expression c) → Says bs (.statement isOpen b) →
      ∃ more : List Kind, L (.keyword .while :: (cs ++ .keyword .do :: (bs ++ more))) := by
    intro cs c bs isOpen b hc hb
    simpa [Extends] using hL _ _ _ (stated_atEnd (.whileLoop hc hb))
  refine Stops.consume (.before (hword hzero says_exit)) rfl fun s₁ _ hs₁ => ?_
  refine Stops.bind (handles_expression n n' s₁ _ _ (by omega) (by omega) fun cs c _ hc =>
    .before (hword hc says_exit)) fun c cs s₂ hc _ hs₂ => ?_
  refine Stops.consume (.before (hword hc says_exit)) rfl fun s₃ _ hs₃ => ?_
  refine Stops.last (handles_branchOf hstatement s₃ _ _ (by omega) (by omega) ?_)
  rintro bs b _ ⟨arm, rfl, isOpen, hb, -⟩
  exact hword hc hb

theorem handles_forOf : Handles s₀ (n + 1) (n' + 1) (forOf statement n) (forOf statement' n')
    fun ks a s₁ => Takes.Stated ks (some a) s₁ := by
  intro s N L hs hN hL
  refine Stops.takes ?_ (Takes.forOf htakes n s) fun ks _ _ h => h.elim fun _ h => h.1.eof_notMem
  obtain ⟨zs, zero, hzero⟩ := exists_expression
  have hword : ∀ {name d ss start es stop bs isOpen b}, Spells ss (.expression start) →
      Spells es (.expression stop) → Says bs (.statement isOpen b) →
      ∃ more : List Kind, L (.keyword .for :: .identifier name :: .operator .assign ::
        (ss ++ .keyword (direction d) :: (es ++ .keyword .do :: (bs ++ more)))) := by
    intro name d ss start es stop bs isOpen b hstart hstop hb
    simpa [Extends] using hL _ _ _ (stated_atEnd (.forLoop name d hstart hstop hb))
  -- any bound and body complete what is known up to the start value
  have hshort : ∀ name {ss start}, Spells ss (.expression start) → ∃ more : List Kind, L (.keyword .for :: .identifier name ::
      .operator .assign :: (ss ++ more)) := fun name _ _ hstart =>
    (hword (d := .up) hstart hzero says_exit).elim fun _ h => ⟨_, h⟩
  refine Stops.consume (.before (hshort "" hzero)) rfl fun s₁ _ hs₁ => ?_
  refine Stops.identifier (.before (hshort "" hzero)) fun name s₂ _ hs₂ => ?_
  refine Stops.consume (.before (hshort name hzero)) rfl fun s₃ _ hs₃ => ?_
  refine Stops.bind (handles_expression n n' s₃ _ _ (by omega) (by omega) fun ss start _ hstart =>
    hshort name hstart) fun start ss s₄ hstart _ hs₄ => ?_
  refine Stops.consumeAny (.before (hshort name hstart)) rfl fun sep hsep s₅ _ hs₅ => ?_
  -- what is left is read alike in both directions
  have hrest : ∀ d, Stops s₀ (N - 1 - 1 - 1 - ss.length - 1) (do
      let stop ← Parser.expression n
      Parser.consume (.keyword .do)
      let body ← Parser.branchOf statement
      return Node.forLoop name d start stop body) (do
      let stop ← Parser.expression n'
      Parser.consume (.keyword .do)
      let body ← Parser.branchOf statement'
      return Node.forLoop name d start stop body) s₅
      (fun rest => L (.keyword .for :: .identifier name :: .operator .assign ::
        (ss ++ .keyword (direction d) :: rest))) fun _ _ _ => True := by
    intro d
    refine Stops.bind (handles_expression n n' s₅ _ _ (by omega) (by omega) fun es stop _ hstop =>
      .before (hword hstart hstop says_exit)) fun stop es s₆ hstop _ hs₆ => ?_
    refine Stops.consume (.before (hword hstart hstop says_exit)) rfl fun s₇ _ hs₇ => ?_
    refine Stops.last (handles_branchOf hstatement s₇ _ _ (by omega) (by omega) ?_)
    rintro bs b _ ⟨arm, rfl, isOpen, hb, -⟩
    exact hword hstart hstop hb
  rcases List.mem_pair.mp hsep with rfl | rfl
  · exact hrest .up
  · exact hrest .down

theorem handles_statementOf (hend : MissesAtEnd .statement statement') :
    Handles s₀ (n + 1) (n' + 1) (statementOf statement n) (statementOf statement' n') Takes.Stated := by
  intro s N L hs hN hL
  refine Stops.takes ?_ (Takes.statementOf htakes n s) fun ks _ _ h => h.elim fun _ h => h.1.eof_notMem
  -- whatever stands here, some statement could have
  have hstart := (hL _ _ _ (stated_atEnd says_exit)).nil
  have hcommand : ∀ ks a, Command ks a → Extends L ks := fun ks a h => hL ks a s (.command h s)
  have hsome : ∀ {m m' : Parser Node} {P}, Stops s₀ N m m' s L P →
      Stops s₀ N (do return some (← m)) (do return some (← m')) s L fun _ _ _ => True := fun hm =>
    hm.bind fun _ _ _ _ _ _ => Stops.pure trivial
  refine Stops.peek hstart fun _ => ?_
  cases hk : s.head.kind with
  | identifier name => exact hsome (handles_command n n' s N L hs hN fun ks a _ h => hcommand ks _ h)
  | keyword word =>
    have hne : s.head.kind ≠ .eof ∧ s.head.kind ≠ .operator .quote := by
      rw [hk]
      exact ⟨Kind.noConfusion, Kind.noConfusion⟩
    cases word with
    | begin =>
      exact hsome (handles_blockOf hstatement htakes hend s N L hs hN fun ks a _ h =>
        hL ks _ _ (stated_atEnd (.nested h)))
    | «if» =>
      exact hsome (handles_conditionalOf hstatement htakes s N L hs hN fun ks a s₁ h => hL ks _ s₁ h)
    | «while» => exact hsome (handles_whileOf hstatement htakes s N L hs hN fun ks a s₁ h => hL ks _ s₁ h)
    | «for» => exact hsome (handles_forOf hstatement htakes s N L hs hN fun ks a s₁ h => hL ks _ s₁ h)
    | exit => exact Stops.advance hstart hne.1 hne.2 fun _ _ _ => Stops.pure trivial
    | readln => exact hsome (stops_intrinsic hk hcommand)
    | inc => exact hsome (stops_intrinsic hk hcommand)
    | dec => exact hsome (stops_intrinsic hk hcommand)
    | writeln =>
      refine Stops.advance hstart hne.1 hne.2 fun s₁ _ hs₁ => ?_
      refine Stops.last (handles_arguments n n' s₁ _ _ (by omega) (by omega) ?_)
      rintro ks args _ ⟨ks', hargs, rfl⟩
      rw [hk]
      simpa [Extends] using hcommand _ _ (.writeln hargs)
    | write =>
      exact Stops.last (handles_write n n' s N L hs hN fun ks _ _ h => hcommand ks _ h)
    | _ => exact Stops.expected hstart
  | _ => exact Stops.expected hstart

end

theorem statement_atEnd (k : Nat) : MissesAtEnd .statement (statement k) := fun _ => by cases k <;> rfl

theorem handles_statement (n n' : Nat) : Handles s₀ n n' (statement n) (statement n') Takes.Stated := by
  refine Handles.fuel (b := fun k => k) rfl (fun _ => rfl) (fun k k' _ ih => ?_) n n' (Nat.le_refl n)
  exact handles_statementOf (ih k') (Takes.statement k) (statement_atEnd k')

theorem handles_block (n n' : Nat) :
    Handles s₀ (n + 1) (n' + 1) (block n) (block n') fun ks a _ => Says ks (.block a) :=
  handles_blockOf (handles_statement n n') (Takes.statement n) (statement_atEnd n')

end Parser

end Mila
