import Mila.Proofs.Failing

/-! # Where declarations and programs stop

Types, declarations and whole programs, in the same way as their parts. A range of array indices is looked at when
its line has been read, so that an empty one is not the failure of a token.
-/

namespace Mila

namespace Grammar

variable {R R' : Word → Word → Prop} {ks : List Kind}

variable {decls : List VariableDecl}

theorem VariableLine.mono (h : VariableLine R ks decls)
    (hR : ∀ low high, R low high → R' low high) : VariableLine R' ks decls := by
  obtain ⟨first, others, ht, hrange⟩ := h
  exact .mk first others ht fun low high hbounds => hR low high (hrange low high hbounds)

theorem VariableLines.mono (h : VariableLines R ks decls)
    (hR : ∀ low high, R low high → R' low high) : VariableLines R' ks decls := by
  induction h with
  | last h => exact .last (h.mono hR)
  | cons h _ ih => exact .cons (h.mono hR) ih

theorem LocalVariables.mono (h : LocalVariables R ks decls)
    (hR : ∀ low high, R low high → R' low high) : LocalVariables R' ks decls := by
  induction h with
  | nil => exact .nil
  | cons h _ ih => exact .cons (h.mono hR) ih

theorem Declares.mono {decls : List Node} (h : Declares R ks decls)
    (hR : ∀ low high, R low high → R' low high) : Declares R' ks decls := by
  rcases h with h | h | p | ⟨p, hv, hb⟩
  · exact .variables (h.mono hR)
  · exact .constants h
  · exact .forward p
  · exact .subprogram p (hv.mono hR) hb

theorem heading_length_pos (p : Prototype) : 0 < (heading p).length := by
  unfold heading
  cases p.kind <;> simp

theorem Declares.length_pos {decls : List Node} (h : Declares R ks decls) : 0 < ks.length := by
  rcases h with _ | _ | p | ⟨p, _, _⟩ <;> simp

theorem Declarations.mono {decls : List Node} (h : Declarations R ks decls)
    (hR : ∀ low high, R low high → R' low high) : Declarations R' ks decls := by
  induction h with
  | nil => exact .nil
  | cons h _ ih => exact .cons (h.mono hR) ih

end Grammar

namespace Parser

open Grammar

variable {s₀ s : TokenStream} {n n' : Nat}

/-! ## 1. Types -/

namespace Stops

variable {N : Nat} {α β : Type} {L : List Kind → Prop} {Q : List Kind → β → TokenStream → Prop}

/-- The stream is what is left of the whole. -/
theorem of_within {m m' : Parser β} (h : s.Within s₀ → Stops s₀ N m m' s L Q) : Stops s₀ N m m' s L Q :=
  fun hs => h hs hs

/-- A stretch from one token to another that comes later. -/
theorem stretch {first last : Span} {f f' : Span → Parser β}
    (horder : s₀.Orderly → first.lo ≤ last.hi ∧ last.hi ≤ Span.maxOffset)
    (h : ∀ span : Span, span.lo = first.lo → span.hi ≤ Span.maxOffset → Stops s₀ N (f span) (f' span) s L Q) :
    Stops s₀ N (Parser.stretch first last >>= f) (Parser.stretch first last >>= f') s L Q := by
  unfold Parser.stretch Span.ofBounds?
  split
  · next span hspan =>
    rw [pure_bind, pure_bind]
    split at hspan
    · next hle =>
      cases hspan
      refine h _ rfl ?_
      change first.lo + min (last.hi - first.lo) Span.maxLength ≤ Span.maxOffset
      omega
    · cases hspan
  · next hspan =>
    refine aside (.inr ⟨rfl, fun ho => ?_⟩)
    rw [if_pos (horder ho)] at hspan
    cases hspan

/-- The digits of a number, perhaps behind a sign that stands at `first`. -/
theorem digits (first : Span) {g : Token → Parser β} {f : Span → Parser β}
    (hg : g s.head = Parser.stretch first s.head.span >>= f) (hL : Extends L [])
    (horder : s₀.Orderly → first.lo ≤ s.head.span.hi ∧ s.head.span.hi ≤ Span.maxOffset)
    (hf : (∀ value, s.head.kind ≠ .integer value) → ∀ span, f span = Parser.expected .number s.head)
    (h : ∀ value, s.head.kind = .integer value → ∀ (span : Span) s₁, span.lo = first.lo →
      span.hi ≤ Span.maxOffset → Stops s₀ (N - 1) (f span) (f span) s₁
        (fun rest => L (.integer value :: rest)) fun ks b s₂ => Q (.integer value :: ks) b s₂) :
    Stops s₀ N (Parser.advance >>= g) (Parser.advance >>= g) s L Q := by
  by_cases hinteger : ∃ value, s.head.kind = .integer value
  · obtain ⟨value, hvalue⟩ := hinteger
    refine advance hL (by rw [hvalue]; exact Kind.noConfusion) (by rw [hvalue]; exact Kind.noConfusion)
      fun s₁ _ _ => ?_
    rw [hg, hvalue]
    exact stretch horder fun span hlo hhi => h value hvalue span s₁ hlo hhi
  · -- the span is made before the token is looked at, and may fail for want of order
    have hexpected := hf fun value hvalue => hinteger ⟨value, hvalue⟩
    refine refuse hL ?_
    rw [hg]
    unfold Parser.stretch Span.ofBounds?
    split
    · rw [pure_bind, hexpected]
      exact .expected
    · next hspan =>
      refine .throw_bind (.inl (.inr ⟨rfl, fun ho => ?_⟩))
      rw [if_pos (horder ho)] at hspan
      cases hspan

theorem number (hL : ∀ ks value, Number ks value → Extends L ks) :
    Stops s₀ N Parser.number Parser.number s L fun ks result _ =>
      Number ks result.1 ∧ result.2.lo = s.head.span.lo ∧ result.2.hi ≤ Span.maxOffset := by
  refine of_within fun hs => ?_
  have hstart := (hL _ _ (.plain 0)).nil
  by_cases hminus : s.head.kind = .operator .minus
  · refine advance hstart (by rw [hminus]; decide) (by rw [hminus]; decide) fun s₁ hpast _ => ?_
    simp only [hminus, beq_self_eq_true, if_true]
    refine digits _ rfl (.before (hL _ _ (.negative 0))) (fun ho => ?_) (fun hne span => ?_)
      fun value hvalue span s₂ hlo hhi => ?_
    · -- in an orderly stream the digits do not end before the sign starts
      have horderly := ho.within hs
      have hlater := horderly.lo_le hpast
      have hplaced := (horderly.within hpast.within).placed _ s₁.head_mem_toList
      unfold Span.hi at *
      omega
    · split
      · next value hvalue => exact absurd hvalue (hne value)
      · rfl
    · rw [hvalue]
      exact pure ⟨.negative value, hlo, hhi⟩
  · refine digits s.head.span (f := ?_) ?_ hstart (fun ho => ?_) (fun hne span => ?_)
      fun value hvalue span s₁ hlo hhi => ?_
    rotate_left
    · simp only [beq_false_of_ne hminus, Bool.false_eq_true, if_false, pure_bind]
      rfl
    · exact ⟨Nat.le_add_right _ _, (ho.within hs).placed _ s.head_mem_toList⟩
    · split
      · next value hvalue => exact absurd hvalue (hne value)
      · rfl
    · rw [hvalue]
      exact pure ⟨.plain value, hlo, hhi⟩

end Stops

theorem handles_type (s₀ : TokenStream) (n n' : Nat) :
    Handles s₀ n n' type type fun ks bounds _ => TypeName ks (boundsOf bounds) := by
  intro s N L _ _ hL
  refine Stops.takes ?_ (Takes.type s) ?_
  · have hstart := (hL _ none s .integer).nil
    refine Stops.of_within fun hs => ?_
    cases hk : s.head.kind with
    | keyword word =>
      by_cases hinteger : word = .integer
      · subst hinteger
        refine Stops.advance hstart (by rw [hk]; decide) (by rw [hk]; decide) fun s₁ _ _ => ?_
        rw [hk]
        exact Stops.pure trivial
      by_cases harray : word = .array
      · subst harray
        refine Stops.advance hstart (by rw [hk]; decide) (by rw [hk]; decide) fun s₁ hpast₁ _ => ?_
        rw [hk]
        have hword : ∀ {ls low us high}, Number ls low → Number us high →
            ∃ more : List Kind, L (.keyword .array :: .operator .lbracket :: (ls ++ .operator .range :: (us ++
              .operator .rbracket :: .keyword .of :: .keyword .integer :: more))) := by
          intro ls low us high hlow hhigh
          simpa [Extends] using hL _ (some ⟨low, high, ⟨0, 0⟩⟩) s (.array hlow hhigh)
        have hfirst := fun {ls low} (h : Number ls low) => hword h (.plain 0)
        refine Stops.consume (.before (hfirst (.plain 0))) rfl fun s₂ hpast₂ _ => ?_
        refine Stops.bind (Stops.number fun ls low hlow => .before (hfirst hlow))
          fun low ls s₃ hlow hwithin₃ _ => ?_
        obtain ⟨hlow, hlo, -⟩ := hlow
        refine Stops.consume (.before (hfirst hlow)) rfl fun s₄ hpast₄ _ => ?_
        refine Stops.bind (Stops.number fun us high hhigh => .before (hword hlow hhigh))
          fun high us s₅ hhigh _ _ => ?_
        obtain ⟨hhigh, hlo', hhi⟩ := hhigh
        have hrest := hword hlow hhigh
        refine Stops.consume (.before hrest) rfl fun s₆ _ _ => ?_
        refine Stops.consume (.before hrest) rfl fun s₇ _ _ => ?_
        refine Stops.consume (.before hrest) rfl fun s₈ _ _ => ?_
        refine Stops.stretch (fun ho => ⟨?_, hhi⟩) fun _ _ _ => Stops.pure trivial
        -- the upper bound comes behind the lower one
        have horderly := ho.within (hpast₂.within.trans (hpast₁.within.trans hs))
        have hlater := horderly.lo_le (hpast₄.of_within hwithin₃)
        unfold Span.hi at *
        omega
      · refine Stops.refuse hstart ?_
        rw [hk]
        cases word with
        | integer => exact absurd rfl hinteger
        | array => exact absurd rfl harray
        | _ => exact .expected
    | _ =>
      refine Stops.refuse hstart ?_
      rw [hk]
      exact .expected
  · intro ks bounds _ h
    generalize boundsOf bounds = b at h
    cases h with
    | integer => decide
    | array hl hh => simp [hl.eof_notMem, hh.eof_notMem]

/-! ## 2. Declarations -/

theorem handles_moreNames (n n' : Nat) : Handles s₀ n n' (moreNames n) (moreNames n')
    fun ks names _ => ks = names.flatMap fun name => sign .comma ++ ident name := by
  refine Handles.fuel (b := fun k => k) rfl (fun _ => rfl) (fun k k' _ ih => ?_) n n' (Nat.le_refl n)
  intro s N L hs hN hL
  refine Stops.takes ?_ (Takes.moreNames _ s) ?_
  · have hword : ∀ name (names : List String), ∃ more : List Kind, L (.operator .comma :: .identifier name ::
        ((names.flatMap fun name => sign .comma ++ ident name) ++ more)) := by
      intro name names
      simpa [Extends] using hL _ (name :: names) s rfl
    refine Stops.accept (hL _ [] s rfl).nil rfl (fun _ s₁ _ hs₁ => ?_) fun _ => Stops.pure trivial
    refine Stops.identifier (.before (hword "" [])) fun name s₂ _ hs₂ => ?_
    refine Stops.last (ih k' s₂ _ _ (by omega) (by omega) ?_)
    rintro ks names _ rfl
    exact hword name names
  · rintro ks names _ rfl
    simp

/-- Whether names can be declared only depends on the type that they have in common. -/
theorem mapM_declared (bounds : Option ArrayBounds) (names : List String) :
    (∃ nodes, names.mapM (declared bounds) = pure nodes) ∨
      ∃ e : ParseError, (∃ low high, e.cause = .emptyArrayRange low high) ∧
        names.mapM (declared bounds) = throw e := by
  induction names with
  | nil => exact .inl ⟨[], rfl⟩
  | cons name names ih =>
    -- a name is refused for its type alone
    have hdeclared : (∃ node, declared bounds name = pure node) ∨
        ∃ e : ParseError, (∃ low high, e.cause = .emptyArrayRange low high) ∧ declared bounds name = throw e := by
      unfold declared
      split
      · exact .inl ⟨_, rfl⟩
      · next b =>
        split
        · exact .inl ⟨_, rfl⟩
        · exact .inr ⟨_, ⟨b.low, b.high, rfl⟩, rfl⟩
    rw [List.mapM_cons]
    rcases hdeclared with ⟨node, hnode⟩ | ⟨e, he, hthrow⟩
    · rw [hnode, pure_bind]
      rcases ih with ⟨nodes, hnodes⟩ | ⟨e, he, hthrow⟩
      · exact .inl ⟨_, by rw [hnodes, pure_bind]⟩
      · exact .inr ⟨e, he, by rw [hthrow]; rfl⟩
    · exact .inr ⟨e, he, by rw [hthrow]; rfl⟩

namespace Stops

variable {N : Nat} {β : Type} {L : List Kind → Prop} {Q : List Kind → β → TokenStream → Prop}

theorem declaredNames {bounds : Option ArrayBounds} {names : List String} {f f' : List Node → Parser β}
    (h : ∀ nodes, Stops s₀ N (f nodes) (f' nodes) s L Q) :
    Stops s₀ N (names.mapM (declared bounds) >>= f) (names.mapM (declared bounds) >>= f') s L Q := by
  rcases mapM_declared bounds names with ⟨nodes, hnodes⟩ | ⟨e, he, hthrow⟩
  · rw [hnodes, pure_bind, pure_bind]
    exact h nodes
  · rw [hthrow]
    exact aside (.inl he)

theorem isNextName {f f' : Bool → Parser β} (hL : Extends L []) (h : ∀ found, Stops s₀ N (f found) (f' found) s L Q) :
    Stops s₀ N (Parser.isNextName >>= f) (Parser.isNextName >>= f') s L Q := by
  unfold Parser.isNextName
  rw [bind_assoc, bind_assoc]
  refine peek hL fun _ => ?_
  split
  · rw [pure_bind, pure_bind]
    exact h true
  · rw [pure_bind, pure_bind]
    exact h false

end Stops

/-- The lines of a `var` section, whether or not the ranges in them are empty. -/
theorem handles_variableLines (n n' : Nat) : Handles s₀ n n' (variableLines n) (variableLines n')
    fun ks nodes _ => ∃ decls, VariableLines (fun _ _ => True) ks decls ∧ nodes = decls.map .variableDecl := by
  refine Handles.fuel (b := fun k => k) rfl (fun _ => rfl) (fun k k' _ ih => ?_) n n' (Nat.le_refl n)
  intro s N L hs hN hL
  refine Stops.imp (Stops.takes ?_ (Takes.variableLines _ s) ?_) ?_
  · have hline : ∀ first (others : List String) {ts bounds}, TypeName ts bounds → ∃ more : List Kind, L (.identifier first ::
        ((others.flatMap fun name => sign .comma ++ ident name) ++ .operator .colon ::
          (ts ++ .operator .semicolon :: more))) := by
      intro first others ts bounds htype
      simpa [Extends, names] using hL _ _ s ⟨_, .last (.mk first others htype fun _ _ _ => trivial), rfl⟩
    -- as long as the type is not known, the shortest one completes the line
    have hstart := fun first => hline first [] .integer
    refine Stops.identifier (.before (hstart "")) fun first s₁ _ hs₁ => ?_
    refine Stops.bind (handles_moreNames k k' s₁ _ _ (by omega) (by omega) ?_) fun others ks s₂ hks _ hs₂ => ?_
    · rintro ks others _ rfl
      exact .before (hline first others .integer)
    subst hks
    refine Stops.consume (.before (hline first others .integer)) rfl fun s₃ _ hs₃ => ?_
    refine Stops.bind (handles_type s₀ k k' s₃ _ _ (by omega) (by omega) fun ts bounds _ ht =>
      .before (hline first others ht)) fun bounds ts s₄ ht _ hs₄ => ?_
    have hthis := hline first others ht
    refine Stops.consume (.before hthis) rfl fun s₅ _ hs₅ => ?_
    refine Stops.declaredNames fun nodes => Stops.isNextName (.before hthis) fun found => ?_
    split
    · refine Stops.last (ih k' s₅ _ _ (by omega) (by omega) ?_)
      rintro ks _ _ ⟨decls, hdecls, rfl⟩
      simpa [Extends, names] using
        hL _ _ s ⟨_, .cons (.mk first others ht fun _ _ _ => trivial) hdecls, rfl⟩
    · exact Stops.pure trivial
  · rintro ks _ _ ⟨decls, hdecls, rfl⟩
    exact hdecls.eof_notMem
  · rintro ks _ _ ⟨decls, hdecls, rfl⟩
    exact ⟨decls, hdecls.mono fun _ _ _ => trivial, rfl⟩

theorem handles_variableSection (n n' : Nat) :
    Handles s₀ (n + 1) (n' + 1) (variableSection n) (variableSection n') fun ks nodes _ =>
      ∃ ks' decls, VariableLines (fun _ _ => True) ks' decls ∧ ks = word .var ++ ks' ∧
        nodes = decls.map .variableDecl := by
  intro s N L hs hN hL
  have hsome : VariableLines (fun _ _ => True) _ [.scalar ""] := .last (.mk "" [] .integer fun _ _ _ => trivial)
  refine Stops.consume (hL _ _ s ⟨_, _, hsome, rfl, rfl⟩).nil rfl fun s₁ _ hs₁ => ?_
  refine Stops.imp (handles_variableLines n n' s₁ _ _ (by omega) (by omega) ?_) ?_
  · rintro ks _ _ ⟨decls, hdecls, rfl⟩
    exact hL _ _ s ⟨ks, decls, hdecls, rfl, rfl⟩
  · rintro ks _ _ ⟨decls, hdecls, rfl⟩
    exact ⟨ks, decls, hdecls, rfl, rfl⟩

theorem handles_constantLines (n n' : Nat) : Handles s₀ n n' (constantLines n) (constantLines n')
    fun ks nodes _ => ConstantLines ks nodes := by
  refine Handles.fuel (b := fun k => k) rfl (fun _ => rfl) (fun k k' _ ih => ?_) n n' (Nat.le_refl n)
  intro s N L hs hN hL
  refine Stops.takes ?_ (Takes.constantLines _ s) fun ks _ _ h => h.eof_notMem
  have hline : ∀ name {ks value}, Number ks value → ∃ more : List Kind, L (.identifier name :: .operator .eq ::
      (ks ++ .operator .semicolon :: more)) := by
    intro name ks value hvalue
    simpa [Extends] using hL _ _ s (.last name hvalue)
  -- as long as the number is not known, any one completes the line
  have hstart := fun name => hline name (.plain 0)
  refine Stops.identifier (.before (hstart "")) fun name s₁ _ hs₁ => ?_
  refine Stops.consume (.before (hstart name)) rfl fun s₂ _ hs₂ => ?_
  refine Stops.bind (Stops.number fun ks value hvalue => .before (hline name hvalue))
    fun value ks s₃ hvalue _ hs₃ => ?_
  have hthis := hline name hvalue.1
  refine Stops.consume (.before hthis) rfl fun s₄ _ hs₄ => ?_
  refine Stops.isNextName (.before hthis) fun found => ?_
  split
  · refine Stops.last (ih k' s₄ _ _ (by omega) (by omega) fun ks' rest _ hrest => ?_)
    simpa [Extends] using hL _ _ s (.cons name hvalue.1 hrest)
  · exact Stops.pure trivial

theorem handles_constantSection (n n' : Nat) :
    Handles s₀ (n + 1) (n' + 1) (constantSection n) (constantSection n') fun ks nodes _ =>
      ∃ ks', ConstantLines ks' nodes ∧ ks = word .const ++ ks' := by
  intro s N L hs hN hL
  refine Stops.consume (hL _ _ s ⟨_, .last "" (.plain 0), rfl⟩).nil rfl fun s₁ _ hs₁ => ?_
  exact Stops.imp (handles_constantLines n n' s₁ _ _ (by omega) (by omega) fun ks nodes _ h => hL _ _ s ⟨ks, h, rfl⟩)
    fun ks nodes _ h => ⟨ks, h, rfl⟩

theorem handles_paramsTail (n n' : Nat) : Handles s₀ n n' (paramsTail n) (paramsTail n')
    fun ks names _ => names ≠ [] ∧ ks = Grammar.params names ++ sign .rparen := by
  refine Handles.fuel (b := fun k => k) rfl (fun _ => rfl) (fun k k' _ ih => ?_) n n' (Nat.le_refl n)
  intro s N L hs hN hL
  refine Stops.takes ?_ (Takes.paramsTail _ s) ?_
  · -- a list may end behind any of its parameters
    have hone : ∀ name, ∃ more : List Kind, L (.identifier name :: .operator .colon :: .keyword .integer ::
        .operator .rparen :: more) := fun name => hL _ [name] s ⟨List.cons_ne_nil _ _, rfl⟩
    refine Stops.identifier (.before (hone "")) fun name s₁ _ hs₁ => ?_
    refine Stops.consume (.before (hone name)) rfl fun s₂ _ hs₂ => ?_
    refine Stops.consume (.before (hone name)) rfl fun s₃ _ hs₃ => ?_
    refine Stops.consumeAny (.before (hone name)) rfl fun sep hsep s₄ _ hs₄ => ?_
    rcases List.mem_pair.mp hsep with rfl | rfl
    · refine Stops.last (ih k' s₄ _ _ (by omega) (by omega) ?_)
      rintro ks names _ ⟨hne, rfl⟩
      have hmore := hL _ (name :: names) s ⟨List.cons_ne_nil _ _, rfl⟩
      -- there is another parameter, so a semicolon comes first
      cases names with
      | nil => exact absurd rfl hne
      | cons second others => simpa [Extends, Grammar.params] using hmore
    · exact Stops.pure trivial
  · rintro ks names _ ⟨-, rfl⟩
    simp [eof_notMem_params]

theorem handles_params (n n' : Nat) : Handles s₀ (n + 1) (n' + 1) (params n) (params n')
    fun ks names _ => ks = sign .lparen ++ Grammar.params names ++ sign .rparen := by
  intro s N L hs hN hL
  refine Stops.takes ?_ (Takes.params n s) ?_
  · have hnone : ∃ more : List Kind, L (.operator .lparen :: .operator .rparen :: more) := hL _ [] s rfl
    refine Stops.consume (.before hnone) rfl fun s₁ _ hs₁ => ?_
    refine Stops.accept (.before hnone) rfl (fun _ _ _ _ => Stops.pure trivial) fun _ => ?_
    refine Stops.imp (handles_paramsTail n n' s₁ _ _ (by omega) (by omega) ?_) fun _ _ _ _ => trivial
    rintro ks names _ ⟨-, rfl⟩
    simpa [Extends] using hL _ names s rfl
  · rintro ks names _ rfl
    simp [eof_notMem_params]

theorem handles_prototype (n n' : Nat) : Handles s₀ (n + 1) (n' + 1) (prototype n) (prototype n')
    fun ks p _ => ks = heading p := by
  intro s N L hs hN hL
  refine Stops.takes ?_ (Takes.prototype n s) ?_
  · have hfunction : ∀ name names, ∃ more : List Kind, L (.keyword .function :: .identifier name :: .operator .lparen ::
        (Grammar.params names ++ .operator .rparen :: .operator .colon :: .keyword .integer ::
          .operator .semicolon :: more)) := by
      intro name names
      simpa [Extends, heading] using hL _ ⟨.function, name, names⟩ s rfl
    have hprocedure : ∀ name names, ∃ more : List Kind, L (.keyword .procedure :: .identifier name :: .operator .lparen ::
        (Grammar.params names ++ .operator .rparen :: .operator .semicolon :: more)) := by
      intro name names
      simpa [Extends, heading] using hL _ ⟨.procedure, name, names⟩ s rfl
    -- where neither word stands, a function could have been declared
    refine Stops.consumeAny (.before (hfunction "" [])) rfl fun sep hsep s₁ _ hs₁ => ?_
    rcases List.mem_pair.mp hsep with rfl | rfl
    · refine Stops.identifier (.before (hfunction "" [])) fun name s₂ _ hs₂ => ?_
      refine Stops.bind (handles_params n n' s₂ _ _ (by omega) (by omega) ?_) fun names ks s₃ hks _ _ => ?_
      · rintro ks names _ rfl
        simpa [Extends] using (hfunction name names).elim fun _ h => ⟨_, h⟩
      subst hks
      have hthis : ∃ more : List Kind, L (.keyword .function :: .identifier name :: (sign .lparen ++ Grammar.params names ++
          sign .rparen ++ .operator .colon :: .keyword .integer :: .operator .semicolon :: more)) := by
        simpa using hfunction name names
      refine Stops.consume (.before hthis) rfl fun s₄ _ _ => ?_
      refine Stops.consume (.before hthis) rfl fun s₅ _ _ => ?_
      exact Stops.consume (.before hthis) rfl fun s₆ _ _ => Stops.pure trivial
    · refine Stops.identifier (.before (hprocedure "" [])) fun name s₂ _ hs₂ => ?_
      refine Stops.bind (handles_params n n' s₂ _ _ (by omega) (by omega) ?_) fun names ks s₃ hks _ _ => ?_
      · rintro ks names _ rfl
        simpa [Extends] using (hprocedure name names).elim fun _ h => ⟨_, h⟩
      subst hks
      have hthis : ∃ more : List Kind, L (.keyword .procedure :: .identifier name :: (sign .lparen ++ Grammar.params names ++
          sign .rparen ++ .operator .semicolon :: more)) := by
        simpa using hprocedure name names
      exact Stops.consume (.before hthis) rfl fun s₄ _ _ => Stops.pure trivial
  · rintro ks p _ rfl
    exact eof_notMem_heading p

theorem handles_localVariables (n n' : Nat) : Handles s₀ n n' (localVariables n) (localVariables n')
    fun ks nodes _ => ∃ decls, LocalVariables (fun _ _ => True) ks decls ∧ nodes = decls.map .variableDecl := by
  refine Handles.fuel (b := fun k => k) rfl (fun _ => rfl) (fun k k' _ ih => ?_) n n' (Nat.le_refl n)
  intro s N L hs hN hL
  refine Stops.imp (Stops.takes ?_ (Takes.localVariables _ s) ?_) ?_
  · refine Stops.isNext (hL _ _ s ⟨[], .nil, rfl⟩).nil ?_
    split
    · refine Stops.bind (handles_variableSection k k' s _ _ hs hN ?_) fun nodes ks s₁ hks _ hs₁ => ?_
      · rintro ks _ _ ⟨vs, decls, hdecls, rfl, rfl⟩
        simpa using hL _ _ s ⟨_, .cons hdecls .nil, rfl⟩
      obtain ⟨vs, decls, hdecls, rfl, rfl⟩ := hks
      rw [List.length_append, List.length_singleton] at hs₁ ⊢
      refine Stops.last (ih k' s₁ _ _ (by omega) (by omega) ?_)
      rintro ks _ _ ⟨decls', hdecls', rfl⟩
      simpa [Extends] using hL _ _ s ⟨_, .cons hdecls hdecls', rfl⟩
    · exact Stops.pure trivial
  · rintro ks _ _ ⟨decls, hdecls, rfl⟩
    exact hdecls.eof_notMem
  · rintro ks _ _ ⟨decls, hdecls, rfl⟩
    exact ⟨decls, hdecls.mono fun _ _ _ => trivial, rfl⟩

theorem says_block : Says (word .begin ++ word .exit ++ word .end) (.block (.block [.exit])) :=
  .block (.last says_exit)

theorem handles_subprogram (n n' : Nat) : Handles s₀ (n + 1) (n' + 1) (subprogram n) (subprogram n')
    fun ks node _ => Declares (fun _ _ => True) ks [node] := by
  intro s N L hs hN hL
  refine Stops.imp (Stops.takes ?_ (Takes.subprogram n s) ?_) fun ks _ _ h => h.mono fun _ _ _ => trivial
  · -- a heading goes on with `forward`, or with variables and a block
    have hforward : ∀ p, ∃ more : List Kind, L (heading p ++ .keyword .forward :: .operator .semicolon :: more) := by
      intro p
      simpa [Extends] using hL _ _ s (.forward p)
    have hfull : ∀ p {vs decls bs body}, LocalVariables (fun _ _ => True) vs decls → Says bs (.block body) →
        ∃ more : List Kind, L (heading p ++ (vs ++ (bs ++ .operator .semicolon :: more))) := by
      intro p vs decls bs body hv hb
      simpa [Extends] using hL _ _ s (.subprogram p hv hb)
    refine Stops.bind (handles_prototype n n' s _ _ hs hN ?_) fun p ks s₁ hks _ hs₁ => ?_
    · rintro ks p _ rfl
      exact .before (hforward p)
    subst hks
    have hpos := heading_length_pos p
    refine Stops.accept (.before (hforward p)) rfl (fun _ s₂ _ _ => ?_) fun _ => ?_
    · exact Stops.consume (.before (hforward p)) rfl fun _ _ _ => Stops.pure trivial
    refine Stops.bind (handles_localVariables n n' s₁ _ _ (by omega) (by omega) ?_) fun nodes vs s₂ hvs _ hs₂ => ?_
    · rintro vs _ _ ⟨decls, hdecls, rfl⟩
      exact .before (hfull p hdecls says_block)
    obtain ⟨decls, hdecls, rfl⟩ := hvs
    refine Stops.bind (handles_block n n' s₂ _ _ (by omega) (by omega) fun bs body _ hb =>
      .before (hfull p hdecls hb)) fun body bs s₃ hb _ _ => ?_
    refine Stops.consume (.before (hfull p hdecls hb)) rfl fun s₄ _ _ => ?_
    cases p.kind with
    | function => exact Stops.pure trivial
    | procedure => exact Stops.pure trivial
  · intro ks node _ h
    have hall := (Declarations.cons h .nil).eof_notMem
    rwa [List.append_nil] at hall

theorem handles_declarations (n n' : Nat) : Handles s₀ n n' (declarations n) (declarations n')
    fun ks nodes _ => Declarations (fun _ _ => True) ks nodes := by
  refine Handles.fuel (b := fun k => k) rfl (fun _ => rfl) (fun k k' _ ih => ?_) n n' (Nat.le_refl n)
  intro s N L hs hN hL
  refine Stops.imp (Stops.takes ?_ (Takes.declarations _ s) fun ks _ _ h => h.eof_notMem)
    fun ks _ _ h => h.mono fun _ _ _ => trivial
  have hend := hL _ _ s .nil
  -- a declaration and the ones behind it
  have hmore : ∀ {ks decls}, Declares (fun _ _ => True) ks decls → ∀ {s₁ : TokenStream},
      s₁.pending.length + ks.length = s.pending.length → ∀ {f : List Node → List Node},
      Stops s₀ (N - ks.length) (do let rest ← declarations k; return f rest)
        (do let rest ← declarations k'; return f rest) s₁ (fun rest => L (ks ++ rest)) fun _ _ _ => True := by
    intro ks decls hdecls s₁ hs₁ f
    have hpos := hdecls.length_pos
    refine Stops.last (ih k' s₁ _ _ (by omega) (by omega) fun ks' rest _ hrest => ?_)
    simpa [Extends] using hL _ _ s (.cons hdecls hrest)
  have hone : ∀ {ks decls}, Declares (fun _ _ => True) ks decls → Extends L ks := by
    intro ks decls hdecls
    simpa using hL _ _ s (.cons hdecls .nil)
  have hsubprogram : Stops s₀ N (do
      let decl ← subprogram k
      let rest ← declarations k
      return decl :: rest) (do
      let decl ← subprogram k'
      let rest ← declarations k'
      return decl :: rest) s L fun _ _ _ => True := by
    refine Stops.bind (handles_subprogram k k' s _ _ hs hN fun ks node _ h => hone h)
      fun decl ks s₁ hdecl _ hs₁ => hmore hdecl hs₁
  refine Stops.peek hend fun _ => ?_
  cases hk : s.head.kind with
  | keyword word =>
    cases word with
    | var =>
      refine Stops.bind (handles_variableSection k k' s _ _ hs hN ?_) fun nodes ks s₁ hks _ hs₁ => ?_
      · rintro ks _ _ ⟨vs, decls, hdecls, rfl, rfl⟩
        exact hone (.variables hdecls)
      · obtain ⟨vs, decls, hdecls, rfl, rfl⟩ := hks
        exact hmore (.variables hdecls) hs₁
    | const =>
      refine Stops.bind (handles_constantSection k k' s _ _ hs hN ?_) fun nodes ks s₁ hks _ hs₁ => ?_
      · rintro ks nodes _ ⟨cs, hdecls, rfl⟩
        exact hone (.constants hdecls)
      · obtain ⟨cs, hdecls, rfl⟩ := hks
        exact hmore (.constants hdecls) hs₁
    | function => exact hsubprogram
    | procedure => exact hsubprogram
    | begin => exact Stops.pure trivial
    | _ => exact Stops.expected hend
  | _ => exact Stops.expected hend

/-! ## 3. Programs -/

/-- A program behind its first word, without the end of input. -/
def programRest (n : Nat) : Parser Program := do
  let name ← identifier
  consume (.operator .semicolon)
  let decls ← declarations n
  let body ← block n
  consume (.operator .dot)
  return ⟨name, decls, body⟩

theorem programOf_eq (n : Nat) : programOf n = do
    consume (.keyword .program)
    let p ← programRest n
    consume .eof
    return p := by
  simp only [programOf, programRest, bind_assoc, pure_bind]

theorem stops_programRest {n n' N : Nat} (hs : s.pending.length < n) (hN : N ≤ n') :
    Stops s₀ N (programRest n) (programRest n') s
      (fun ks => ∃ p, Derives (fun _ _ => True) (.keyword .program :: ks) p)
      fun ks _ _ => ∃ p, Derives (fun _ _ => True) (.keyword .program :: ks) p := by
  have hword : ∀ name {ds decls bs body}, Declarations (fun _ _ => True) ds decls → Says bs (.block body) →
      ∃ p, Derives (fun _ _ => True) (.keyword .program :: .identifier name :: .operator .semicolon ::
        (ds ++ (bs ++ [.operator .dot]))) p := by
    intro name ds decls bs body hd hb
    refine ⟨⟨name, decls, body⟩, ?_⟩
    simpa using Derives.program name hd hb
  refine Stops.identifier ⟨_, hword "" .nil says_block⟩ fun name s₁ _ hs₁ => ?_
  refine Stops.consume ⟨_, hword name .nil says_block⟩ rfl fun s₂ _ hs₂ => ?_
  refine Stops.bind (handles_declarations n n' s₂ _ _ (by omega) (by omega) fun ds decls _ hd =>
    ⟨_, hword name hd says_block⟩) fun decls ds s₃ hd _ hs₃ => ?_
  refine Stops.bind (handles_block n n' s₃ _ _ (by omega) (by omega) fun bs body _ hb =>
    ⟨_, hword name hd hb⟩) fun body bs s₄ hb _ _ => ?_
  exact Stops.consume ⟨_, hword name hd hb⟩ rfl fun _ _ _ => Stops.pure (hword name hd hb)

/-- The end of input is taken, or else a token that does not fit. -/
theorem goes_consumeEnd {α : Type} {N : Nat} {L : List Kind → Prop} {a : α} (hL : Extends L []) :
    Goes N (do consume .eof; return a) (do consume .eof; return a) s (fun ts _ _ => ∃ t, ts = [t] ∧ t.kind = .eof)
      (Fault s₀ L) := by
  by_cases heof : s.head.kind = .eof
  · have hrun : ∀ z : TokenStream, z.head = s.head → (do consume .eof; return a : Parser α) z = .ok a z.tail :=
      fun z hz => bind_eq (consume_eq (by rw [hz, heof]) trivial)
    exact ⟨[s.head], s.tail, .ok a, True, .ok ⟨s.head, rfl, heof⟩, .single (hrun s rfl) hrun⟩
  · obtain ⟨e, hconcerns, hrun⟩ := Stops.consume_other s₀ (β := α) heof
    exact .reject (hconcerns.fault hL) (hrun _ s rfl) (hrun _)

/-- Tokens of which the last one is an end of input, and no other. -/
def Complete (ts : List Token) : Prop := ∃ front t, ts = front ++ [t] ∧ (∀ t ∈ front, t.kind ≠ .eof) ∧ t.kind = .eof

/-- A call takes at least the first token, and goes the same way however many tokens the bound allows for. -/
theorem programOf_way {n n' N : Nat} (hs : s.pending.length ≤ n) (hN : N ≤ n') : ∃ ts u r looked, ts ≠ [] ∧
      Ends (fun ts _ _ => Complete ts) (Fault s fun ks => ∃ p, Derives (fun _ _ => True) ks p) ts u r looked ∧
      Way N (programOf n) (programOf n') s ts u r looked := by
  rw [programOf_eq, programOf_eq]
  by_cases hkind : s.head.kind = .keyword .program
  · have heof : s.head.kind ≠ .eof := by
      rw [hkind]
      exact Kind.noConfusion
    have hpast := TokenStream.past_tail heof
    have hlt := hpast.lt
    have hfirst : Balanced ([s.head].map Token.kind) := by
      rw [List.map_singleton, hkind]
      exact .token trivial Kind.noConfusion .nil
    -- the rest of the program, and the end of input behind it
    obtain ⟨ts, u, r, looked, hends, hway⟩ : Goes (N - 1)
        (do let p ← programRest n; consume .eof; return p) (do let p ← programRest n'; consume .eof; return p) s.tail
        (fun ts _ _ => Complete ts) (Fault s fun ks => ∃ p, Derives (fun _ _ => True) (.keyword .program :: ks) p) := by
      refine Goes.bind (stops_programRest (by omega) (by omega) hpast.within) (fun _ _ _ h => h.pending) ?_
      rintro ts p u ⟨hpending, hbalanced, hspelled⟩ -
      refine (goes_consumeEnd ⟨[], ?_⟩).imp ?_ fun _ _ _ h => h.append ts hbalanced
      · rwa [List.append_nil, List.append_nil]
      · rintro us _ _ ⟨t, rfl, ht⟩
        exact ⟨ts, t, rfl, hpending, ht⟩
    have hconsume : ∀ (f : Unit → Parser Program) (z : TokenStream), z.head = s.head →
        (consume (.keyword .program) >>= f) z = f () z.tail := fun f z hz =>
      bind_eq (consume_eq (by rw [hz, hkind]) trivial)
    refine ⟨s.head :: ts, u, r, looked, List.cons_ne_nil _ _, Ends.append [s.head] (hends.imp ?_ ?_)
      (List.forall_mem_singleton.mpr heof), hway.cons (hconsume _ s rfl) (hconsume _)⟩
    · rintro ts _ _ ⟨front, t, rfl, hfront, ht⟩
      exact ⟨s.head :: front, t, rfl, List.forall_mem_cons.mpr ⟨heof, hfront⟩, ht⟩
    · intro e ts t h
      refine Fault.append [s.head] ?_ hfirst
      rwa [List.map_singleton, hkind]
  · obtain ⟨e, hconcerns, hrun⟩ := Stops.consume_other s (β := Program) hkind
    refine ⟨[s.head], s.tail, .error e, False, List.cons_ne_nil _ _, .last (List.forall_mem_nil _) ?_,
      .single (hrun _ s rfl) (hrun _)⟩
    exact hconcerns.fault ⟨_, _, .program "" .nil says_block⟩

/-- What is known of a failure. It has the same token to blame wherever the tokens up to that one are the same. -/
theorem programOf_error {n : Nat} {e : ParseError} {s' : TokenStream} (hrun : programOf n s = .error e s')
    (hs : s.pending.length ≤ n) (N : Nat) : e.Aside s ∨ ∃ ts u, s = TokenStream.after u ts ∧ e.Blames u.head ∧
      Extends (fun ks => ∃ p, Derives (fun _ _ => True) ks p) (ts.map Token.kind) ∧
      (∀ reason, e.cause = .lexical reason → Balanced (ts.map Token.kind)) ∧
      ∀ z : TokenStream, z.head = u.head → ts.length + z.pending.length ≤ N →
        ∃ s₁, programOf N (z.after ts) = .error e s₁ := by
  obtain ⟨ts, u, r, looked, -, hends, hway⟩ := programOf_way hs (Nat.le_refl N)
  have hr := hrun.symm.trans hway.run
  cases hends with
  | ok _ => cases hr
  | next heof h =>
    -- the token to blame was looked at, and is still there
    cases hr
    refine h.imp_right fun ⟨hblames, hextends, hbalanced⟩ => ⟨ts, _, hway.opens.eq_after heof, hblames, hextends,
      hbalanced, fun z hz hlen => ⟨z, hway.alike _ z (z.opens_after ts) (fun _ => hz) ?_⟩⟩
    rwa [TokenStream.length_after]
  | @last ts t _ _ heof h =>
    cases hr
    -- the token to blame was taken behind all the others
    obtain ⟨y, hy, hlast⟩ := hway.opens.of_append
    obtain rfl : y.head = t := hlast.1
    refine h.imp_right fun ⟨hblames, hextends, hbalanced⟩ => ⟨ts, y, hy.eq_after heof, hblames, hextends,
      hbalanced, fun z hz hlen => ⟨z.tail, hway.alike _ z.tail ?_ False.elim ?_⟩⟩
    · exact (z.opens_after ts).append ⟨hz, rfl⟩
    · rwa [TokenStream.length_after]

end Parser

end Mila
