import Mila.Proofs.Parsing

/-! # Reading given tokens

When a parsing function takes given tokens and succeeds: a rule for each way in which parsing functions look at
tokens and take them. Numbers and types also need that the tokens stand in the order of a source text.
-/

namespace Mila

/-! ## 1. Streams that a lexer delivers -/

/-- The tokens of a source text: numbers are not negative, and the tokens stand one behind the other. -/
structure TokenStream.Delivered (s : TokenStream) : Prop where
  values : ∀ t ∈ s.pending, ∀ value, t.kind = .integer value → 0 ≤ value
  ordered : s.pending.Pairwise fun t u => t.span.hi ≤ u.span.lo
  placed : ∀ t ∈ s.pending, t.span.hi ≤ Span.maxOffset

namespace TokenStream

/-- The kinds of the tokens up to the first end of input. -/
def body (s : TokenStream) : List Kind := (s.pending.map Token.kind).takeWhile (· ≠ .eof)

variable {s s' : TokenStream} {ks : List Kind}

theorem Delivered.tail (h : s.Delivered) : s.tail.Delivered where
  values t ht := h.values t (List.mem_of_mem_tail ht)
  ordered := h.ordered.tail
  placed t ht := h.placed t (List.mem_of_mem_tail ht)

/-- A token that is not the end of input is a pending one. -/
theorem pending_eq (h : s.head.kind ≠ .eof) : s.pending = s.head :: s.tail.pending := by
  unfold head tail at *
  cases hp : s.pending with
  | nil =>
    rw [hp] at h
    exact absurd rfl h
  | cons t rest => rfl

theorem Delivered.starts (h : s.Delivered) (hks : s.Starts ks s') : s'.Delivered := by
  induction ks generalizing s with
  | nil =>
    obtain rfl : s' = s := hks
    exact h
  | cons k ks ih => exact ih h.tail hks.2

theorem Starts.mem (h : s.Starts ks s') {t : Token} (ht : t ∈ s'.pending) : t ∈ s.pending := by
  induction ks generalizing s with
  | nil =>
    obtain rfl : s' = s := h
    exact ht
  | cons k ks ih => exact List.mem_of_mem_tail (ih h.2)

/-- A token that comes later stands further back. -/
theorem Delivered.lo_le {k : Kind} (h : s.Delivered)
    (hs : s.Starts (k :: ks) s') (hk : k ≠ .eof) (hk' : s'.head.kind ≠ .eof) : s.head.span.lo ≤ s'.head.span.lo := by
  have hpending := pending_eq (hs.1 ▸ hk)
  have hlater : s'.head ∈ s.tail.pending := hs.2.mem (by rw [pending_eq hk']; exact List.mem_cons_self)
  have hpairs := h.ordered
  rw [hpending, List.pairwise_cons] at hpairs
  have hhi := hpairs.1 _ hlater
  unfold Span.hi at hhi
  omega

end TokenStream

namespace Parser

variable {α β : Type}

/-! ## 2. Single tokens -/

/-- A token that is not a bad one. -/
def Good : Kind → Prop
  | .error _ => False
  | _ => True

/-- A function takes tokens of the given kinds and gives the result `a`, if the token behind them is as `F`
says. -/
def Reads (m : Parser α) (ks : List Kind) (a : α) (F : Kind → Prop) : Prop :=
  ∀ s s', s.Delivered → s.Starts ks s' → F s'.head.kind → m s = .ok a s'

/-- The same, but the function may find an empty range of array indices instead, where `E` allows for one. -/
def Attains (E : Prop) (m : Parser α) (ks : List Kind) (a : α) (F : Kind → Prop) : Prop :=
  ∀ s s', s.Delivered → s.Starts ks s' → F s'.head.kind → m s = .ok a s' ∨
    E ∧ ∃ e s₁ low high, m s = .error e s₁ ∧ e.cause = .emptyArrayRange low high

theorem Attains.reads {m : Parser α} {ks : List Kind} {a : α} {F : Kind → Prop} (h : Attains False m ks a F) :
    Reads m ks a F := fun s s' hd hs hF => (h s s' hd hs hF).resolve_right And.left

/-- The kinds that the next token can have, where tokens of kinds `ks` and then one as `F` says are next. -/
def Ahead (ks : List Kind) (F : Kind → Prop) : Kind → Prop :=
  match ks with
  | [] => F
  | k :: _ => (· = k)

theorem ahead_of_starts {s s' : TokenStream} {ks : List Kind} {F : Kind → Prop}
    (h : s.Starts ks s') (hF : F s'.head.kind) : Ahead ks F s.head.kind := by
  cases ks with
  | nil =>
    obtain rfl : s' = s := h
    exact hF
  | cons k ks => exact h.1

theorem checked_eq {t : Token} (h : Good t.kind) : checked t = pure t := by
  unfold checked
  cases hk : t.kind with
  | error reason =>
    rw [hk] at h
    exact h.elim
  | _ => rfl

section

variable {s s' : TokenStream} {m : Parser α} {f : α → Parser β}

theorem bind_eq {a : α} (h : m s = .ok a s') : (m >>= f) s = f a s' := by
  change EStateM.bind m f s = _
  rw [EStateM.bind, h]

theorem error_bind {e : ParseError} (h : m s = .error e s') : (m >>= f) s = .error e s' := by
  change EStateM.bind m f s = _
  rw [EStateM.bind, h]

end

namespace Attains

variable {m : Parser α} {f : α → Parser β} {ks ks' : List Kind} {k : Kind} {a : α} {b : β}
  {F F₁ : Kind → Prop} {E : Prop}

theorem pure (a : α) : Attains E (Pure.pure a) [] a F := by
  intro s s' _ hs _
  obtain rfl : s' = s := hs
  exact .inl rfl

theorem bind (hm : Attains E m ks a F₁) (hf : Attains E (f a) ks' b F) (hahead : ∀ k, Ahead ks' F k → F₁ k) :
    Attains E (m >>= f) (ks ++ ks') b F := by
  intro s s' hd hs hF
  obtain ⟨s₁, hs₁, hs₂⟩ := hs.of_append
  rcases hm s s₁ hd hs₁ (hahead _ (ahead_of_starts hs₂ hF)) with hfirst | ⟨hE, e, s₂, low, high, hfirst, he⟩
  · rw [bind_eq hfirst]
    exact hf s₁ s' (hd.starts hs₁) hs₂ hF
  · exact .inr ⟨hE, e, s₂, low, high, error_bind hfirst, he⟩

/-- A function behind which no more tokens are taken. -/
theorem last (hm : Attains E m ks a F₁) (hf : Attains E (f a) [] b F) (hF : ∀ k, F k → F₁ k) :
    Attains E (m >>= f) ks b F := by
  have h := bind hm hf hF
  rw [List.append_nil] at h
  exact h

/-- The result of a function in another form. -/
theorem map (hm : Attains E m ks a F) (g : α → β) : Attains E (m >>= fun x => Pure.pure (g x)) ks (g a) F :=
  last hm (pure _) fun _ hk => hk

/-- A function that takes all tokens up to one that may come behind them. -/
theorem upTo (hm : Attains E m ks a F₁) (hk : F₁ k) (hf : Attains E (f a) (k :: ks') b F) :
    Attains E (m >>= f) (ks ++ k :: ks') b F := by
  refine bind hm hf ?_
  rintro k' rfl
  exact hk

theorem peek {f : Token → Parser β} (hgood : ∀ k, Ahead ks F k → Good k)
    (h : ∀ t, Ahead ks F t.kind → Attains E (f t) ks b F) : Attains E (Parser.peek >>= f) ks b F := by
  intro s s' hd hs hF
  have hahead := ahead_of_starts hs hF
  have hpeek : Parser.peek s = .ok s.head s := by
    change checked s.head s = _
    rw [checked_eq (hgood _ hahead)]
    rfl
  rw [bind_eq hpeek]
  exact h s.head hahead s s' hd hs hF

/-- The next token is looked at, and is there. -/
theorem peekAt {f : Token → Parser β} (hgood : Good k)
    (h : ∀ t, t.kind = k → Attains E (f t) (k :: ks) b F) : Attains E (Parser.peek >>= f) (k :: ks) b F := by
  refine peek ?_ h
  rintro k' rfl
  exact hgood

theorem advance {f : Token → Parser β} (hgood : Good k) (h : ∀ t, t.kind = k → Attains E (f t) ks b F) :
    Attains E (Parser.advance >>= f) (k :: ks) b F := by
  intro s s' hd hs hF
  have hadvance : Parser.advance s = .ok s.head s.tail := by
    change checked s.head s.tail = _
    rw [checked_eq (hs.1 ▸ hgood)]
    rfl
  rw [bind_eq hadvance]
  exact h s.head hs.1 s.tail s' hd.tail hs.2 hF

theorem consume {f : Unit → Parser β} (hgood : Good k) (h : Attains E (f ()) ks b F) :
    Attains E (Parser.consume k >>= f) (k :: ks) b F := by
  unfold Parser.consume
  rw [bind_assoc]
  apply advance hgood
  intro t ht
  simp only [ht, beq_self_eq_true, if_true, pure_bind]
  exact h

theorem consumeAny {kinds : List Kind} {f : Kind → Parser β} (hgood : Good k) (hk : k ∈ kinds)
    (h : Attains E (f k) ks b F) : Attains E (Parser.consumeAny kinds >>= f) (k :: ks) b F := by
  unfold Parser.consumeAny
  rw [bind_assoc]
  apply advance hgood
  intro t ht
  simp only [ht, List.contains_iff_mem.mpr hk, if_true, pure_bind]
  exact h

theorem identifier {f : String → Parser β} {name : String} (h : Attains E (f name) ks b F) :
    Attains E (Parser.identifier >>= f) (.identifier name :: ks) b F := by
  unfold Parser.identifier
  rw [bind_assoc]
  refine advance trivial fun t ht => ?_
  rw [ht, pure_bind]
  exact h

theorem isNext {f : Bool → Parser β} {found : Bool}
    (hahead : ∀ k', Ahead ks F k' → Good k' ∧ (k' == k) = found) (h : Attains E (f found) ks b F) :
    Attains E (Parser.isNext k >>= f) ks b F := by
  unfold Parser.isNext
  rw [bind_assoc]
  apply peek fun k' hk' => (hahead k' hk').1
  intro t ht
  rw [pure_bind, (hahead _ ht).2]
  exact h

theorem isThere {f : Bool → Parser β} (hgood : Good k) (h : Attains E (f true) (k :: ks) b F) :
    Attains E (Parser.isNext k >>= f) (k :: ks) b F := by
  refine isNext ?_ h
  rintro k' rfl
  exact ⟨hgood, beq_self_eq_true _⟩

theorem isNot {f : Bool → Parser β} (hahead : ∀ k', Ahead ks F k' → Good k' ∧ k' ≠ k)
    (h : Attains E (f false) ks b F) : Attains E (Parser.isNext k >>= f) ks b F :=
  isNext (fun k' hk' => ⟨(hahead k' hk').1, beq_false_of_ne (hahead k' hk').2⟩) h

/-- A token that is asked for is taken if it is there. -/
theorem accept {f : Bool → Parser β} (hgood : Good k) (h : Attains E (f true) ks b F) :
    Attains E (Parser.accept k >>= f) (k :: ks) b F := by
  unfold Parser.accept
  rw [bind_assoc]
  apply isThere hgood
  simp only [if_true, bind_assoc, pure_bind]
  exact advance hgood fun _ _ => h

/-- It stays if it is another one. -/
theorem pass {f : Bool → Parser β} (hahead : ∀ k', Ahead ks F k' → Good k' ∧ k' ≠ k)
    (h : Attains E (f false) ks b F) : Attains E (Parser.accept k >>= f) ks b F := by
  unfold Parser.accept
  rw [bind_assoc]
  apply isNot hahead
  simp only [Bool.false_eq_true, if_false, pure_bind]
  exact h

end Attains

/-! ## 3. Numbers and types -/

section

open Grammar

variable {s s' : TokenStream} {k : Kind}

theorem advance_eq (h : s.head.kind = k) (hgood : Good k) : advance s = .ok s.head s.tail := by
  change checked s.head s.tail = _
  rw [checked_eq (h ▸ hgood)]
  rfl

theorem consume_eq (h : s.head.kind = k) (hgood : Good k) : consume k s = .ok () s.tail := by
  unfold consume
  rw [bind_eq (advance_eq h hgood)]
  simp only [h, beq_self_eq_true, if_true]
  rfl

theorem stretch_eq {first last : Span} (h : first.lo ≤ last.hi) (hlast : last.hi ≤ Span.maxOffset)
    (s : TokenStream) : ∃ span, stretch first last s = .ok span s ∧ span.lo = first.lo ∧
      span.hi ≤ Span.maxOffset := by
  unfold stretch Span.ofBounds?
  rw [if_pos ⟨h, hlast⟩]
  refine ⟨_, rfl, rfl, ?_⟩
  change first.lo + min (last.hi - first.lo) Span.maxLength ≤ Span.maxOffset
  omega

variable {ks : List Kind} {value : Word}

/-- A number stands where its first token does, before all that follows. -/
theorem number_eq (hn : Number ks value) (hd : s.Delivered)
    (hs : s.Starts ks s') : ∃ span, number s = .ok (value, span) s' ∧ span.lo = s.head.span.lo ∧
      span.hi ≤ Span.maxOffset := by
  cases hn with
  | plain =>
    obtain ⟨hk, rfl⟩ := hs
    have hpending := @TokenStream.pending_eq s (by rw [hk]; exact Kind.noConfusion)
    have hplaced := hd.placed s.head (by rw [hpending]; exact List.mem_cons_self)
    obtain ⟨span, hspan, hlo, hhi⟩ := stretch_eq (Nat.le_add_right s.head.span.lo _) hplaced s.tail
    refine ⟨span, ?_, hlo, hhi⟩
    unfold number
    rw [bind_eq (advance_eq hk trivial)]
    simp only [hk, reduceCtorEq, beq_iff_eq, if_false, pure_bind]
    rw [bind_eq hspan]
    rfl
  | negative v =>
    obtain ⟨hk, hv, rfl⟩ := hs
    have hpending := @TokenStream.pending_eq s (by rw [hk]; exact Kind.noConfusion)
    have hpending' := @TokenStream.pending_eq s.tail (by rw [hv]; exact Kind.noConfusion)
    have hplaced := hd.tail.placed s.tail.head (by rw [hpending']; exact List.mem_cons_self)
    have hordered : s.head.span.hi ≤ s.tail.head.span.lo := by
      have hpairs := hd.ordered
      rw [hpending, List.pairwise_cons] at hpairs
      exact hpairs.1 _ (by rw [hpending']; exact List.mem_cons_self)
    have hle : s.head.span.lo ≤ s.tail.head.span.hi := by
      unfold Span.hi at *
      omega
    obtain ⟨span, hspan, hlo, hhi⟩ := stretch_eq hle hplaced s.tail.tail
    refine ⟨span, ?_, hlo, hhi⟩
    unfold number
    rw [bind_eq (advance_eq hk trivial)]
    simp only [hk, beq_self_eq_true, if_true]
    rw [bind_eq (advance_eq hv trivial), bind_eq hspan]
    simp only [hv]
    rfl

theorem Number.head (h : Number ks value) : ∃ k rest, ks = k :: rest ∧ k ≠ .eof := by
  cases h with
  | plain => exact ⟨_, _, rfl, Kind.noConfusion⟩
  | negative v => exact ⟨_, _, rfl, Kind.noConfusion⟩

/-- The least word is no number: without its sign it would be too great. -/
theorem Number.ne_minValue (h : Number ks value) (hd : s.Delivered)
    (hs : s.Starts ks s') : value ≠ Int32.minValue := by
  cases h with
  | plain =>
    have hpending := @TokenStream.pending_eq s (by rw [hs.1]; exact Kind.noConfusion)
    have hvalue := hd.values s.head (by rw [hpending]; exact List.mem_cons_self) _ hs.1
    rintro rfl
    exact absurd hvalue (by decide)
  | negative v =>
    have hpending := @TokenStream.pending_eq s.tail (by rw [hs.2.1]; exact Kind.noConfusion)
    have hvalue := hd.tail.values s.tail.head (by rw [hpending]; exact List.mem_cons_self) _ hs.2.1
    intro hmin
    have hv : v = Int32.minValue := by
      rw [← Int32.neg_neg (a := v), hmin]
      decide
    rw [hv] at hvalue
    exact absurd hvalue (by decide)

theorem type_eq {bounds : Option (Word × Word)} (ht : TypeName ks bounds)
    (hd : s.Delivered) (hs : s.Starts ks s') : ∃ found, type s = .ok found s' ∧ boundsOf found = bounds ∧
      ∀ low high, bounds = some (low, high) → low ≠ Int32.minValue := by
  cases ht with
  | integer =>
    obtain ⟨hk, rfl⟩ := hs
    refine ⟨none, ?_, rfl, fun _ _ h => by cases h⟩
    unfold type
    rw [bind_eq (advance_eq hk trivial)]
    simp only [hk]
    rfl
  | @array ls hs' low high hlow hhigh =>
    simp only [word, sign, List.append_assoc, List.cons_append, List.nil_append] at hs
    obtain ⟨harray, hbracket, hrest⟩ := hs
    obtain ⟨s₁, hs₁, hrange, hrest⟩ := hrest.of_append
    obtain ⟨s₂, hs₂, hclose, hof, hinteger, rfl⟩ := hrest.of_append
    have hd₁ := hd.tail.tail
    have hd₂ := (hd₁.starts hs₁).tail
    obtain ⟨span₁, hread₁, hlo₁, -⟩ := number_eq hlow hd₁ hs₁
    obtain ⟨span₂, hread₂, hlo₂, hhi₂⟩ := number_eq hhigh hd₂ hs₂
    -- The second number stands after the first in the text, so the stretch between them is not reversed.
    have hordered : span₁.lo ≤ span₂.hi := by
      obtain ⟨k, rest, rfl, hk⟩ := Number.head hlow
      obtain ⟨k', rest', rfl, hk'⟩ := Number.head hhigh
      have hboth : s.tail.tail.Starts (k :: (rest ++ [.operator .range])) s₁.tail :=
        hs₁.append ⟨hrange, rfl⟩
      have hlo := hd₁.lo_le hboth hk (hs₂.1 ▸ hk')
      unfold Span.hi
      omega
    obtain ⟨span, hspan, -⟩ := stretch_eq hordered hhi₂ s₂.tail.tail.tail
    refine ⟨some ⟨low, high, span⟩, ?_, rfl, ?_⟩
    · unfold type
      rw [bind_eq (advance_eq harray trivial)]
      simp only [harray]
      rw [bind_eq (consume_eq hbracket trivial), bind_eq hread₁]
      dsimp only
      rw [bind_eq (consume_eq hrange trivial), bind_eq hread₂]
      dsimp only
      rw [bind_eq (consume_eq hclose trivial), bind_eq (consume_eq hof trivial),
        bind_eq (consume_eq hinteger trivial), bind_eq hspan]
      rfl
    · rintro low high ⟨⟩
      exact Number.ne_minValue hlow hd₁ hs₁

end

namespace Attains

open Grammar

variable {E : Prop} {ks ks' : List Kind} {b : β} {F : Kind → Prop}

theorem number {f : Word × Span → Parser β} {value : Word} (hn : Number ks value)
    (h : ∀ span, Attains E (f (value, span)) ks' b F) : Attains E (Parser.number >>= f) (ks ++ ks') b F := by
  intro s s' hd hs hF
  obtain ⟨s₁, hs₁, hs₂⟩ := hs.of_append
  obtain ⟨span, hread, -⟩ := number_eq hn hd hs₁
  rw [bind_eq hread]
  exact h span s₁ s' (hd.starts hs₁) hs₂ hF

theorem type {f : Option ArrayBounds → Parser β} {bounds : Option (Word × Word)} (ht : TypeName ks bounds)
    (h : ∀ found, boundsOf found = bounds →
      (∀ low high, bounds = some (low, high) → low ≠ Int32.minValue) → Attains E (f found) ks' b F) :
    Attains E (Parser.type >>= f) (ks ++ ks') b F := by
  intro s s' hd hs hF
  obtain ⟨s₁, hs₁, hs₂⟩ := hs.of_append
  obtain ⟨found, hread, hfound, hlow⟩ := type_eq ht hd hs₁
  rw [bind_eq hread]
  exact h found hfound hlow s₁ s' (hd.starts hs₁) hs₂ hF

end Attains

end Parser

end Mila
