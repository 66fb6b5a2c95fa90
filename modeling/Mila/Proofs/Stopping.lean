import Mila.Proofs.Reading

/-! # Where parsing stops

A parsing function takes some tokens off a stream, and leaves the others as they are, also when it fails. A failure is
about one token, which is the last one that was taken or the next one. What comes before that token can go on to
something that the function is for, and what comes behind it has no influence on the failure. Likewise a function that
succeeds has looked at the tokens that it took and at the next one, and at nothing else. This module has the rules by
which this is seen for one way of looking at tokens after the other.
-/

namespace Mila

/-! ## 1. Streams with tokens put in front -/

namespace TokenStream

variable {s s₁ s₂ u v z : TokenStream} {t : Token} {ts us : List Token}

/-- The stream with more tokens in front. -/
def after (s : TokenStream) (ts : List Token) : TokenStream := { s with pending := ts ++ s.pending }

theorem after_append (s : TokenStream) (ts us : List Token) : s.after (ts ++ us) = (s.after us).after ts := by
  unfold after
  rw [List.append_assoc]

theorem length_after (s : TokenStream) (ts : List Token) :
    (s.after ts).pending.length = ts.length + s.pending.length := List.length_append

theorem toList_after (s : TokenStream) (ts : List Token) : (s.after ts).toList = ts ++ s.toList :=
  List.append_assoc _ _ _

/-- What is left of a stream when some of its tokens are taken. -/
def Within (s₁ s : TokenStream) : Prop := ∃ ts, s = s₁.after ts

/-- What is left of a stream when some of its tokens are taken, at least one of them. -/
def Past (s₁ s : TokenStream) : Prop := ∃ t ts, s = s₁.after (t :: ts)

theorem Within.trans (h : s₂.Within s₁) (h' : s₁.Within s) : s₂.Within s := by
  obtain ⟨us, rfl⟩ := h
  obtain ⟨ts, rfl⟩ := h'
  exact ⟨ts ++ us, (after_append s₂ ts us).symm⟩

theorem Past.within (h : s₁.Past s) : s₁.Within s := by
  obtain ⟨t, ts, hs⟩ := h
  exact ⟨t :: ts, hs⟩

theorem Past.of_within (h : s₂.Past s₁) (h' : s₁.Within s) : s₂.Past s := by
  obtain ⟨t, us, rfl⟩ := h
  obtain ⟨ts, rfl⟩ := h'
  cases ts with
  | nil => exact ⟨t, us, rfl⟩
  | cons t' ts => exact ⟨t', ts ++ t :: us, (after_append s₂ (t' :: ts) (t :: us)).symm⟩

theorem Past.lt (h : s₁.Past s) : s₁.pending.length < s.pending.length := by
  obtain ⟨t, ts, rfl⟩ := h
  rw [length_after, List.length_cons]
  omega

theorem eq_after_tail (h : s.head.kind ≠ .eof) : s = s.tail.after [s.head] := by
  have hpending := pending_eq h
  obtain ⟨pending, last⟩ := s
  exact congrArg (TokenStream.mk · last) hpending

theorem past_tail (h : s.head.kind ≠ .eof) : s.tail.Past s := ⟨s.head, [], eq_after_tail h⟩

/-- Tokens without the end of input that a stream starts with are pending. -/
theorem Starts.exists_after {ks : List Kind} (h : s.Starts ks s₁) (heof : .eof ∉ ks) :
    ∃ ts, s = s₁.after ts ∧ ts.map Token.kind = ks := by
  induction ks generalizing s with
  | nil =>
    obtain rfl : s₁ = s := h
    exact ⟨[], rfl, rfl⟩
  | cons k ks ih =>
    obtain ⟨hk, htail⟩ := h
    obtain ⟨hne, heof⟩ := List.ne_and_not_mem_of_not_mem_cons heof
    obtain ⟨ts, hts, hmap⟩ := ih htail heof
    refine ⟨s.head :: ts, ?_, by rw [List.map_cons, hk, hmap]⟩
    have hcons := eq_after_tail (s := s) (by rw [hk]; exact hne.symm)
    rw [hts] at hcons
    exact hcons

/-- The tokens of a source text, of which also the end of input has its place behind all others. -/
structure Orderly (s : TokenStream) : Prop where
  ordered : s.toList.Pairwise fun t u => t.span.hi ≤ u.span.lo
  placed : ∀ t ∈ s.toList, t.span.hi ≤ Span.maxOffset

theorem Orderly.within (h : s.Orderly) (hs : s₁.Within s) : s₁.Orderly := by
  obtain ⟨ts, rfl⟩ := hs
  have hordered := h.ordered
  rw [toList_after] at hordered
  refine ⟨(List.pairwise_append.mp hordered).2.1, fun t ht => h.placed t ?_⟩
  rw [toList_after]
  exact List.mem_append_right _ ht

theorem head_mem_toList (s : TokenStream) : s.head ∈ s.toList := by
  obtain ⟨pending, last⟩ := s
  cases pending with
  | nil => exact List.mem_singleton_self _
  | cons t rest => exact List.mem_cons_self

/-- A token that comes later stands further back. -/
theorem Orderly.lo_le (h : s.Orderly) (hs : s₁.Past s) : s.head.span.hi ≤ s₁.head.span.lo := by
  obtain ⟨t, ts, rfl⟩ := hs
  have hordered := h.ordered
  rw [toList_after, List.cons_append, List.pairwise_cons] at hordered
  exact hordered.1 _ (List.mem_append_right _ s₁.head_mem_toList)

/-- The stream starts with the given tokens, ends of input among them, and goes on with another stream. -/
def Opens (s : TokenStream) : List Token → TokenStream → Prop
  | [], u => u = s
  | t :: ts, u => s.head = t ∧ s.tail.Opens ts u

theorem length_tail (s : TokenStream) : s.tail.pending.length = s.pending.length - 1 := List.length_tail

namespace Opens

theorem append (h : s.Opens ts u) (h' : u.Opens us v) : s.Opens (ts ++ us) v := by
  induction ts generalizing s with
  | nil =>
    obtain rfl : u = s := h
    exact h'
  | cons t ts ih => exact ⟨h.1, ih h.2⟩

theorem of_append (h : s.Opens (ts ++ us) v) : ∃ u, s.Opens ts u ∧ u.Opens us v := by
  induction ts generalizing s with
  | nil => exact ⟨s, rfl, h⟩
  | cons t ts ih =>
    obtain ⟨u, h₁, h₂⟩ := ih h.2
    exact ⟨u, ⟨h.1, h₁⟩, h₂⟩

theorem length_eq (h : s.Opens ts u) : u.pending.length = s.pending.length - ts.length := by
  induction ts generalizing s with
  | nil =>
    obtain rfl : u = s := h
    rfl
  | cons t ts ih =>
    rw [ih h.2, length_tail, List.length_cons]
    omega

/-- Two streams with the same tokens in front start with the same token. -/
theorem head_eq (h : s.Opens ts u) (h' : z.Opens ts v) (hts : ts ≠ []) : z.head = s.head := by
  cases ts with
  | nil => exact absurd rfl hts
  | cons t ts => exact h'.1.trans h.1.symm

/-- Tokens without the end of input are pending ones. -/
theorem eq_after (h : s.Opens ts u) (heof : ∀ t ∈ ts, t.kind ≠ .eof) : s = u.after ts := by
  induction ts generalizing s with
  | nil =>
    obtain rfl : u = s := h
    rfl
  | cons t ts ih =>
    rw [List.forall_mem_cons] at heof
    obtain ⟨rfl, htail⟩ := h
    have hcons := eq_after_tail heof.1
    rw [ih htail heof.2] at hcons
    exact hcons

end Opens

theorem opens_after (u : TokenStream) (ts : List Token) : (u.after ts).Opens ts u := by
  induction ts with
  | nil => rfl
  | cons t ts ih => exact ⟨rfl, ih⟩

end TokenStream

/-! ## 2. Literals -/

/-- Tokens that are not bad ones, apart from those in the text of a literal. All literals are closed. -/
inductive Balanced : List Kind → Prop where
  | nil : Balanced []
  | token {k : Kind} {ks : List Kind} (hgood : Parser.Good k) (hquote : k ≠ .operator .quote)
      (h : Balanced ks) : Balanced (k :: ks)
  | literal {text ks : List Kind} (htext : Grammar.Text text) (h : Balanced ks) :
      Balanced (.operator .quote :: (text ++ .operator .quote :: ks))

theorem Balanced.append {ks ks' : List Kind} (h : Balanced ks) (h' : Balanced ks') : Balanced (ks ++ ks') := by
  induction h with
  | nil => exact h'
  | token hgood hquote _ ih => exact .token hgood hquote ih
  | literal htext _ ih =>
    rw [List.cons_append, List.append_assoc]
    exact .literal htext ih

/-! ## 3. Errors -/

/-- The kind of token that an error is about. -/
def ParseErrorCause.actual? : ParseErrorCause → Option Kind
  | unexpected _ actual => some actual
  | unexpectedAny _ actual => some actual
  | expectedProduction _ actual => some actual
  | lexical reason => some (.error reason)
  | emptyArrayRange _ _ => none
  | outOfOrder => none

/-- An error is about the given token. -/
structure ParseError.Blames (e : ParseError) (t : Token) : Prop where
  span : e.span = t.span
  actual : e.cause.actual? = some t.kind

/-- An error that is about no single token. Tokens that stand in order are never found out of order. -/
def ParseError.Aside (s₀ : TokenStream) (e : ParseError) : Prop :=
  (∃ low high, e.cause = .emptyArrayRange low high) ∨ (e.cause = .outOfOrder ∧ ¬ s₀.Orderly)

/-- Tokens that can go on to something in `L`. -/
def Extends (L : List Kind → Prop) (ks : List Kind) : Prop := ∃ rest, L (ks ++ rest)

/-- Tokens that go on to something in `L` over further ones can go on to it. -/
theorem Extends.before {L : List Kind → Prop} {ks : List Kind} {f : List Kind → List Kind}
    (h : ∃ rest, L (ks ++ f rest)) : Extends L ks := by
  obtain ⟨rest, h⟩ := h
  exact ⟨f rest, h⟩

theorem Extends.nil {L : List Kind → Prop} {ks : List Kind} (h : Extends L ks) : Extends L [] := .before h

namespace Parser

variable {α β : Type}

theorem exists_reason {k : Kind} (h : ¬ Good k) : ∃ reason, k = .error reason := by
  cases k with
  | error reason => exact ⟨reason, rfl⟩
  | _ => exact absurd trivial h

/-! ## 4. Ways through a stream -/

/-- The end of a function that leaves the stream `u`. -/
def outcome (r : Except ParseError α) (u : TokenStream) : EStateM.Result ParseError TokenStream α :=
  match r with
  | .ok a => .ok a u
  | .error e => .error e u

/-- The function `m` takes the tokens `ts` off `s`, ends with `r` and leaves `u`. So does `m'` with every stream that
starts with these tokens, up to `N` tokens in all, if it goes on with the same next one where that was looked at. -/
structure Way (N : Nat) (m m' : Parser α) (s : TokenStream) (ts : List Token) (u : TokenStream)
    (r : Except ParseError α) (looked : Prop) : Prop where
  opens : s.Opens ts u
  run : m s = outcome r u
  alike : ∀ z v : TokenStream, z.Opens ts v → (looked → v.head = u.head) → z.pending.length ≤ N → m' z = outcome r v

/-- How a function ends that takes `ts` and leaves `u`, and whether it looked at the next token. Where it succeeds, `P`
holds. Where it fails at a token, `F` holds of that token and the ones before it. -/
inductive Ends (P : List Token → α → TokenStream → Prop) (F : ParseError → List Token → Token → Prop) :
    List Token → TokenStream → Except ParseError α → Prop → Prop where
  | ok {ts : List Token} {a : α} {u : TokenStream} (h : P ts a u) : Ends P F ts u (.ok a) True
  | next {ts : List Token} {e : ParseError} {u : TokenStream} (heof : ∀ t ∈ ts, t.kind ≠ .eof) (h : F e ts u.head) :
      Ends P F ts u (.error e) True
  | last {ts : List Token} {t : Token} {e : ParseError} {u : TokenStream} (heof : ∀ t ∈ ts, t.kind ≠ .eof)
      (h : F e ts t) : Ends P F (ts ++ [t]) u (.error e) False

/-- Both functions go the same way and end as they may. -/
def Goes (N : Nat) (m m' : Parser α) (s : TokenStream) (P : List Token → α → TokenStream → Prop)
    (F : ParseError → List Token → Token → Prop) : Prop :=
  ∃ ts u r looked, Ends P F ts u r looked ∧ Way N m m' s ts u r looked

section

variable {P P' : List Token → α → TokenStream → Prop} {F F' : ParseError → List Token → Token → Prop}

variable {ts : List Token} {looked : Prop}

theorem Ends.imp {u : TokenStream} {r : Except ParseError α}
    (h : Ends P F ts u r looked) (hP : ∀ ts a u, P ts a u → P' ts a u) (hF : ∀ e ts t, F e ts t → F' e ts t) :
    Ends P' F' ts u r looked := by
  cases h with
  | ok h => exact .ok (hP _ _ _ h)
  | next heof h => exact .next heof (hF _ _ _ h)
  | last heof h => exact .last heof (hF _ _ _ h)

theorem Ends.append (ts : List Token) {us : List Token} {u : TokenStream} {r : Except ParseError α}
    (h : Ends (fun us => P (ts ++ us)) (fun e us => F e (ts ++ us)) us u r looked) (hts : ∀ t ∈ ts, t.kind ≠ .eof) :
    Ends P F (ts ++ us) u r looked := by
  cases h with
  | ok h => exact .ok h
  | next heof h => exact .next (List.forall_mem_append.mpr ⟨hts, heof⟩) h
  | last heof h =>
    rw [← List.append_assoc]
    exact .last (List.forall_mem_append.mpr ⟨hts, heof⟩) h

/-- A function that did not look at the next token took the last one it looked at. -/
theorem Ends.looked_or {u : TokenStream} {r : Except ParseError α}
    (h : Ends P F ts u r looked) : looked ∨ ts ≠ [] := by
  cases h with
  | ok _ => exact .inl trivial
  | next _ _ => exact .inl trivial
  | last _ _ => exact .inr (List.append_ne_nil_of_right_ne_nil _ (List.cons_ne_nil _ _))

namespace Way

variable {N : Nat} {s u : TokenStream} {m m' : Parser α} {r : Except ParseError α}

theorem single {looked : Prop} (hrun : m s = outcome r s.tail)
    (halike : ∀ z : TokenStream, z.head = s.head → m' z = outcome r z.tail) :
    Way N m m' s [s.head] s.tail r looked := by
  refine ⟨⟨rfl, rfl⟩, hrun, fun z v hz _ _ => ?_⟩
  obtain ⟨hhead, rfl⟩ := hz
  exact halike z hhead

theorem cons {g g' : Parser α} {ts : List Token} {looked : Prop} (h : Way (N - 1) g g' s.tail ts u r looked)
    (hrun : m s = g s.tail) (halike : ∀ z : TokenStream, z.head = s.head → m' z = g' z.tail) :
    Way N m m' s (s.head :: ts) u r looked := by
  refine ⟨⟨rfl, h.opens⟩, hrun.trans h.run, fun z v hz hnext hlen => ?_⟩
  rw [halike z hz.1]
  refine h.alike z.tail v hz.2 hnext ?_
  rw [TokenStream.length_tail]
  omega

end Way

namespace Goes

variable {N : Nat} {s : TokenStream} {m m' : Parser α}

theorem imp (h : Goes N m m' s P F) (hP : ∀ ts a u, P ts a u → P' ts a u) (hF : ∀ e ts t, F e ts t → F' e ts t) :
    Goes N m m' s P' F' := by
  obtain ⟨ts, u, r, looked, hends, hway⟩ := h
  exact ⟨ts, u, r, looked, hends.imp hP hF, hway⟩

theorem here {r : Except ParseError α} (hends : Ends P F [] s r True) (hrun : m s = outcome r s)
    (halike : ∀ z : TokenStream, z.head = s.head → m' z = outcome r z) : Goes N m m' s P F := by
  refine ⟨[], s, r, True, hends, rfl, hrun, fun z v hz hnext _ => ?_⟩
  obtain rfl : v = z := hz
  exact halike v (hnext trivial)

theorem reject {e : ParseError} (h : F e [] s.head) (hrun : m s = .error e s.tail)
    (halike : ∀ z : TokenStream, z.head = s.head → m' z = .error e z.tail) : Goes N m m' s P F :=
  ⟨[s.head], s.tail, .error e, False, .last (List.forall_mem_nil _) h, .single hrun halike⟩

variable {g g' f f' : Parser α}

theorem cons (heof : s.head.kind ≠ .eof) (hrun : m s = g s.tail)
    (halike : ∀ z : TokenStream, z.head = s.head → m' z = g' z.tail)
    (h : Goes (N - 1) g g' s.tail (fun ts => P (s.head :: ts)) fun e ts => F e (s.head :: ts)) : Goes N m m' s P F := by
  obtain ⟨ts, u, r, looked, hends, hway⟩ := h
  exact ⟨s.head :: ts, u, r, looked, hends.append [s.head] (List.forall_mem_singleton.mpr heof),
    hway.cons hrun halike⟩

/-- One way and then another. -/
theorem bind {f f' : α → Parser β} {Q : List Token → β → TokenStream → Prop} (hm : Goes N m m' s P F)
    (heof : ∀ ts a u, P ts a u → ∀ t ∈ ts, t.kind ≠ .eof)
    (hf : ∀ ts a u, P ts a u → s.Opens ts u → Goes (N - ts.length) (f a) (f' a) u (fun us => Q (ts ++ us))
      fun e us => F e (ts ++ us)) : Goes N (m >>= f) (m' >>= f') s Q F := by
  obtain ⟨ts, u, r, looked, hends, hway⟩ := hm
  cases hends with
  | ok hP =>
    obtain ⟨us, v, r, looked, hends', hway'⟩ := hf ts _ u hP hway.opens
    refine ⟨ts ++ us, v, r, looked, hends'.append ts (heof _ _ _ hP), hway.opens.append hway'.opens,
      (bind_eq hway.run).trans hway'.run, fun z w hz hnext hlen => ?_⟩
    -- the first part also sees the first token that the second one takes or looks at
    obtain ⟨y, hy, hw⟩ := hz.of_append
    have hhead : y.head = u.head := by
      by_cases hus : us = []
      · subst hus
        obtain rfl : v = u := hway'.opens
        obtain rfl : w = y := hw
        exact hnext (hends'.looked_or.resolve_right (absurd rfl))
      · exact hway'.opens.head_eq hw hus
    rw [bind_eq (hway.alike z y hy (fun _ => hhead) hlen)]
    refine hway'.alike y w hw hnext ?_
    rw [hy.length_eq]
    omega
  | next heof h =>
    exact ⟨ts, u, _, _, .next heof h, hway.opens, error_bind hway.run, fun z v hz hnext hlen =>
      error_bind (hway.alike z v hz hnext hlen)⟩
  | last heof h =>
    exact ⟨_, u, _, _, .last heof h, hway.opens, error_bind hway.run, fun z v hz hnext hlen =>
      error_bind (hway.alike z v hz hnext hlen)⟩

/-- Functions that do the same wherever the next token is the same. -/
theorem congr (hf : f s = g s) (hf' : ∀ z : TokenStream, z.head = s.head → f' z = g' z)
    (h : Goes N g g' s P F) : Goes N f f' s P F := by
  obtain ⟨ts, u, r, looked, hends, hway⟩ := h
  refine ⟨ts, u, r, looked, hends, hway.opens, hf.trans hway.run, fun z v hz hnext hlen => ?_⟩
  have hhead : z.head = s.head := by
    by_cases hts : ts = []
    · subst hts
      obtain rfl : u = s := hway.opens
      obtain rfl : v = z := hz
      exact hnext (hends.looked_or.resolve_right (absurd rfl))
    · exact hway.opens.head_eq hz hts
  rw [hf' z hhead]
  exact hway.alike z v hz hnext hlen

/-- Where no other stream has pending tokens, it only counts what the second function does at the end of input. -/
theorem atEnd (h : Goes 0 m f s P F) (hend : ∀ last, f' ⟨[], last⟩ = f ⟨[], last⟩) : Goes 0 m f' s P F := by
  obtain ⟨ts, u, r, looked, hends, hway⟩ := h
  refine ⟨ts, u, r, looked, hends, hway.opens, hway.run, fun z v hz hnext hlen => ?_⟩
  have hrun := hway.alike z v hz hnext hlen
  obtain ⟨pending, last⟩ := z
  obtain rfl : pending = [] := List.eq_nil_of_length_eq_zero (Nat.le_zero.mp hlen)
  rw [hend, hrun]

end Goes

end

/-! ## 5. Rules -/

/-- The tokens that a function takes where it succeeds. -/
structure Taken (Q : List Kind → α → TokenStream → Prop) (ts : List Token) (a : α) (u : TokenStream) : Prop where
  pending : ∀ t ∈ ts, t.kind ≠ .eof
  balanced : Balanced (ts.map Token.kind)
  spelled : Q (ts.map Token.kind) a u

/-- A failure about the given token, or about none. -/
def Concerns (s₀ : TokenStream) (e : ParseError) (t : Token) : Prop := e.Aside s₀ ∨ e.Blames t

/-- A failure behind the tokens `ts`, which can go on to something in `L` unless the failure is about no token. -/
def Fault (s₀ : TokenStream) (L : List Kind → Prop) (e : ParseError) (ts : List Token) (t : Token) : Prop :=
  e.Aside s₀ ∨ e.Blames t ∧ Extends L (ts.map Token.kind) ∧
    ∀ reason, e.cause = .lexical reason → Balanced (ts.map Token.kind)

/-- How a function `m` for something in `L` ends on what is left of `s₀`, and `m'` wherever it looks at the same
tokens. -/
def Stops (s₀ : TokenStream) (N : Nat) (m m' : Parser α) (s : TokenStream) (L : List Kind → Prop)
    (Q : List Kind → α → TokenStream → Prop) : Prop :=
  s.Within s₀ → Goes N m m' s (Taken Q) (Fault s₀ L)

/-- Both functions fail where they are, and the given token is to blame if one is. -/
def Rejects (s₀ : TokenStream) (f f' : Parser β) (t : Token) : Prop :=
  ∃ e : ParseError, Concerns s₀ e t ∧ ∀ z, f z = .error e z ∧ f' z = .error e z

variable {t : Token} {e : ParseError} {us : List Token}

theorem Rejects.expected {s₀ : TokenStream} {production : Production} :
    Rejects s₀ (Parser.expected production t : Parser β) (Parser.expected production t) t :=
  ⟨_, .inr ⟨rfl, rfl⟩, fun _ => ⟨rfl, rfl⟩⟩

theorem Rejects.throw_bind {s₀ : TokenStream} {f f' : α → Parser β}
    (h : Concerns s₀ e t) : Rejects s₀ (throw e >>= f) (throw e >>= f') t :=
  ⟨e, h, fun _ => ⟨rfl, rfl⟩⟩

theorem Concerns.lexical {s₀ : TokenStream} {reason : LexicalError} (h : t.kind = .error reason) :
    Concerns s₀ ⟨.lexical reason, t.span⟩ t := .inr ⟨rfl, congrArg some h.symm⟩

theorem Concerns.fault {s₀ : TokenStream} {L : List Kind → Prop}
    (h : Concerns s₀ e t) (hL : Extends L []) : Fault s₀ L e [] t :=
  h.imp_right fun hblames => ⟨hblames, hL, fun _ _ => .nil⟩

theorem Fault.append {s₀ : TokenStream} {L : List Kind → Prop} (ts : List Token)
    (h : Fault s₀ (fun rest => L (ts.map Token.kind ++ rest)) e us t) (hts : Balanced (ts.map Token.kind)) :
    Fault s₀ L e (ts ++ us) t := by
  refine h.imp_right ?_
  rintro ⟨hblames, ⟨rest, hrest⟩, hbalanced⟩
  rw [List.map_append]
  exact ⟨hblames, ⟨rest, by rwa [List.append_assoc]⟩, fun reason hreason => hts.append (hbalanced reason hreason)⟩

theorem Taken.append {Q : List Kind → α → TokenStream → Prop} (ts : List Token) {a : α}
    {u : TokenStream} (h : Taken (fun ks => Q (ts.map Token.kind ++ ks)) us a u) (heof : ∀ t ∈ ts, t.kind ≠ .eof)
    (hts : Balanced (ts.map Token.kind)) : Taken Q (ts ++ us) a u := by
  obtain ⟨hpending, hbalanced, hspelled⟩ := h
  refine ⟨List.forall_mem_append.mpr ⟨heof, hpending⟩, ?_, ?_⟩
  · rw [List.map_append]
    exact hts.append hbalanced
  · rw [List.map_append]
    exact hspelled

namespace Stops

variable {s₀ s : TokenStream} {N : Nat} {m m' : Parser α} {L : List Kind → Prop}
  {P : List Kind → α → TokenStream → Prop} {Q : List Kind → β → TokenStream → Prop}

theorem pure {b : β} (h : Q [] b s) : Stops s₀ N (Pure.pure b) (Pure.pure b) s L Q := fun _ =>
  .here (.ok ⟨List.forall_mem_nil _, .nil, h⟩) rfl fun _ _ => rfl

variable {f' : Parser β} {e : ParseError} {f : Token → Parser β} {z : TokenStream} {k : Kind}

/-- A failure at the next token, which is left where it is. -/
theorem fail {f : Parser β} (h : Fault s₀ L e [] s.head) (hf : f s = .error e s)
    (hf' : ∀ z : TokenStream, z.head = s.head → f' z = .error e z) : Stops s₀ N f f' s L Q := fun _ =>
  .here (.next (List.forall_mem_nil _) h) hf hf'

theorem expected {production : Production} (hL : Extends L []) :
    Stops s₀ N (Parser.expected production s.head : Parser β) (Parser.expected production s.head) s L Q :=
  fail (Concerns.fault (.inr ⟨rfl, rfl⟩) hL) rfl fun _ _ => rfl

/-- A failure that is about no token. -/
theorem aside {f f' : α → Parser β} (h : e.Aside s₀) :
    Stops s₀ N (throw e >>= f) (throw e >>= f') s L Q := fail (.inl h) rfl fun _ _ => rfl

theorem bind {f f' : α → Parser β} (hm : Stops s₀ N m m' s L P)
    (hf : ∀ a ks s₁, P ks a s₁ → s₁.Within s → s₁.pending.length + ks.length = s.pending.length →
      Stops s₀ (N - ks.length) (f a) (f' a) s₁ (fun rest => L (ks ++ rest))
        fun ks' b s₂ => Q (ks ++ ks') b s₂) : Stops s₀ N (m >>= f) (m' >>= f') s L Q := by
  refine fun hs => (hm hs).bind (fun _ _ _ h => h.pending) fun ts a u ⟨heof, hbalanced, hP⟩ hopens => ?_
  have hts := hopens.eq_after heof
  have hlength : u.pending.length + (ts.map Token.kind).length = s.pending.length := by
    rw [hts, TokenStream.length_after, List.length_map]
    omega
  have hgoes := hf a _ u hP ⟨ts, hts⟩ hlength (.trans ⟨ts, hts⟩ hs)
  rw [List.length_map] at hgoes
  exact hgoes.imp (fun _ _ _ h => h.append _ heof hbalanced) fun _ _ _ h => h.append _ hbalanced

/-- A function that only gives something after what was shown to stop. -/
theorem last {g : α → β} (hm : Stops s₀ N m m' s L P) : Stops s₀ N (m >>= fun a => Pure.pure (g a))
    (m' >>= fun a => Pure.pure (g a)) s L fun _ _ _ => True := hm.bind fun _ _ _ _ _ _ => pure trivial

theorem imp {Q' : List Kind → β → TokenStream → Prop} {f : Parser β} (h : Stops s₀ N f f' s L Q)
    (hQ : ∀ ks b s₁, Q ks b s₁ → Q' ks b s₁) : Stops s₀ N f f' s L Q' := fun hs =>
  (h hs).imp (fun _ _ _ ⟨hpending, hbalanced, hq⟩ => ⟨hpending, hbalanced, hQ _ _ _ hq⟩) fun _ _ _ h => h

/-- Looking at the next token fails if it is a bad one. -/
theorem peek {f' : Token → Parser β} (hL : Extends L [])
    (h : Good s.head.kind → Stops s₀ N (f s.head) (f' s.head) s L Q) :
    Stops s₀ N (Parser.peek >>= f) (Parser.peek >>= f') s L Q := by
  by_cases hgood : Good s.head.kind
  · have hrun : ∀ (g : Token → Parser β) (z : TokenStream), z.head = s.head →
        (Parser.peek >>= g) z = g s.head z := by
      intro g z hz
      apply bind_eq
      change checked z.head z = _
      rw [hz, checked_eq hgood]
      rfl
    exact fun hs => (h hgood hs).congr (hrun f s rfl) (hrun f')
  · obtain ⟨reason, hreason⟩ := exists_reason hgood
    have hrun : ∀ (g : Token → Parser β) (z : TokenStream), z.head = s.head →
        (Parser.peek >>= g) z = .error ⟨.lexical reason, s.head.span⟩ z := by
      intro g z hz
      apply error_bind
      change checked z.head z = _
      rw [hz, checked, hreason]
      rfl
    exact fail ((Concerns.lexical hreason).fault hL) (hrun f s rfl) (hrun f')

theorem advance_good (hgood : Good s.head.kind) (hz : z.head = s.head) :
    (Parser.advance >>= f) z = f s.head z.tail := by
  rw [bind_eq (advance_eq rfl (hz ▸ hgood)), hz]

/-- Taking the next token fails if it is a bad one. -/
theorem advance_lexical {reason : LexicalError} (h : s.head.kind = .error reason) (hz : z.head = s.head) :
    (Parser.advance >>= f) z = .error ⟨.lexical reason, s.head.span⟩ z.tail := by
  apply error_bind
  change checked z.head z.tail = _
  rw [hz, checked, h]
  rfl

theorem advance_bad {f' : Token → Parser β} (hbad : ¬ Good s.head.kind) (hL : Extends L []) :
    Stops s₀ N (Parser.advance >>= f) (Parser.advance >>= f') s L Q := by
  obtain ⟨reason, hreason⟩ := exists_reason hbad
  exact fun _ => .reject ((Concerns.lexical hreason).fault hL) (advance_lexical hreason rfl) fun z hz =>
    advance_lexical hreason hz

/-- A token that was taken and does not fit. -/
theorem refuse {f' : Token → Parser β} (hL : Extends L []) (h : Rejects s₀ (f s.head) (f' s.head) s.head) :
    Stops s₀ N (Parser.advance >>= f) (Parser.advance >>= f') s L Q := by
  by_cases hgood : Good s.head.kind
  · obtain ⟨e, hconcerns, hf⟩ := h
    exact fun _ => .reject (hconcerns.fault hL) ((advance_good hgood rfl).trans (hf _).1) fun z hz =>
      (advance_good hgood hz).trans (hf _).2
  · exact advance_bad hgood hL

theorem advance {f' : Token → Parser β} (hL : Extends L []) (heof : s.head.kind ≠ .eof)
    (hquote : s.head.kind ≠ .operator .quote) (h : ∀ s₁, s₁.Past s → s₁.pending.length < s.pending.length →
      Stops s₀ (N - 1) (f s.head) (f' s.head) s₁ (fun rest => L (s.head.kind :: rest))
        fun ks b s₂ => Q (s.head.kind :: ks) b s₂) :
    Stops s₀ N (Parser.advance >>= f) (Parser.advance >>= f') s L Q := by
  by_cases hgood : Good s.head.kind
  · have hpast := TokenStream.past_tail heof
    have htaken : Balanced ([s.head].map Token.kind) := .token hgood hquote .nil
    refine fun hs => .cons heof (advance_good hgood rfl) (fun z hz => advance_good hgood hz) ?_
    exact (h s.tail hpast hpast.lt (hpast.within.trans hs)).imp
      (fun _ _ _ h => Taken.append [s.head] h (List.forall_mem_singleton.mpr heof) htaken)
      fun _ _ _ h => Fault.append [s.head] h htaken
  · exact advance_bad hgood hL

theorem isNext {f f' : Bool → Parser β} (hL : Extends L [])
    (h : Stops s₀ N (f (s.head.kind == k)) (f' (s.head.kind == k)) s L Q) :
    Stops s₀ N (Parser.isNext k >>= f) (Parser.isNext k >>= f') s L Q := by
  unfold Parser.isNext
  rw [bind_assoc, bind_assoc]
  refine peek hL fun _ => ?_
  rw [pure_bind, pure_bind]
  exact h

/-- Tokens that stand for themselves, outside of literals. -/
def isPlain : Kind → Bool
  | .eof | .operator .quote => false
  | _ => true

theorem ne_of_isPlain (h : isPlain k = true) : k ≠ .eof ∧ k ≠ .operator .quote := by
  constructor <;> rintro rfl <;> cases h

theorem accept {f f' : Bool → Parser β} (hL : Extends L []) (hk : isPlain k = true)
    (htrue : s.head.kind = k → ∀ s₁, s₁.Past s → s₁.pending.length < s.pending.length →
      Stops s₀ (N - 1) (f true) (f' true) s₁ (fun rest => L (k :: rest)) fun ks b s₂ => Q (k :: ks) b s₂)
    (hfalse : s.head.kind ≠ k → Stops s₀ N (f false) (f' false) s L Q) :
    Stops s₀ N (Parser.accept k >>= f) (Parser.accept k >>= f') s L Q := by
  unfold Parser.accept
  rw [bind_assoc, bind_assoc]
  refine isNext hL ?_
  by_cases hkind : s.head.kind = k
  · simp only [hkind, beq_self_eq_true, if_true, bind_assoc, pure_bind]
    apply advance hL (hkind ▸ (ne_of_isPlain hk).1) (hkind ▸ (ne_of_isPlain hk).2)
    rw [hkind]
    exact htrue hkind
  · simp only [beq_false_of_ne hkind, Bool.false_eq_true, if_false, pure_bind]
    exact hfalse hkind

/-- A token of another kind is taken, and is to blame. -/
theorem consume_other (s₀ : TokenStream) (h : s.head.kind ≠ k) : ∃ e, Concerns s₀ e s.head ∧
    ∀ (f : Unit → Parser β) (z : TokenStream), z.head = s.head → (Parser.consume k >>= f) z = .error e z.tail := by
  unfold Parser.consume
  by_cases hgood : Good s.head.kind
  · refine ⟨⟨.unexpected k s.head.kind, s.head.span⟩, .inr ⟨rfl, rfl⟩, fun f z hz => ?_⟩
    rw [bind_assoc, advance_good hgood hz]
    simp only [beq_false_of_ne h, Bool.false_eq_true, if_false]
    rfl
  · obtain ⟨reason, hreason⟩ := exists_reason hgood
    refine ⟨⟨.lexical reason, s.head.span⟩, .lexical hreason, fun f z hz => ?_⟩
    rw [bind_assoc, advance_lexical hreason hz]

theorem consume {f f' : Unit → Parser β} (hL : Extends L []) (hk : isPlain k = true)
    (h : ∀ s₁, s₁.Past s → s₁.pending.length < s.pending.length →
      Stops s₀ (N - 1) (f ()) (f' ()) s₁ (fun rest => L (k :: rest)) fun ks b s₂ => Q (k :: ks) b s₂) :
    Stops s₀ N (Parser.consume k >>= f) (Parser.consume k >>= f') s L Q := by
  by_cases hkind : s.head.kind = k
  · unfold Parser.consume
    rw [bind_assoc, bind_assoc]
    apply advance hL (hkind ▸ (ne_of_isPlain hk).1) (hkind ▸ (ne_of_isPlain hk).2)
    simp only [hkind, beq_self_eq_true, if_true, pure_bind]
    exact h
  · obtain ⟨e, hconcerns, hrun⟩ := consume_other s₀ (β := β) hkind
    exact fun _ => .reject (hconcerns.fault hL) (hrun f s rfl) (hrun f')

theorem consumeAny {kinds : List Kind} {f f' : Kind → Parser β} (hL : Extends L [])
    (hkinds : kinds.all isPlain = true) (h : ∀ k ∈ kinds, ∀ s₁, s₁.Past s → s₁.pending.length < s.pending.length →
      Stops s₀ (N - 1) (f k) (f' k) s₁ (fun rest => L (k :: rest)) fun ks b s₂ => Q (k :: ks) b s₂) :
    Stops s₀ N (Parser.consumeAny kinds >>= f) (Parser.consumeAny kinds >>= f') s L Q := by
  unfold Parser.consumeAny
  rw [bind_assoc, bind_assoc]
  by_cases hkind : kinds.contains s.head.kind = true
  · have hmem := List.contains_iff_mem.mp hkind
    have hplain := ne_of_isPlain (List.all_eq_true.mp hkinds _ hmem)
    apply advance hL hplain.1 hplain.2
    simp only [hkind, if_true, pure_bind]
    exact h _ hmem
  · apply refuse hL
    simp only [hkind, Bool.false_eq_true, if_false, bind_assoc]
    exact .throw_bind (.inr ⟨rfl, rfl⟩)

theorem identifier {f f' : String → Parser β} (hL : Extends L [])
    (h : ∀ name s₁, s₁.Past s → s₁.pending.length < s.pending.length →
      Stops s₀ (N - 1) (f name) (f' name) s₁ (fun rest => L (.identifier name :: rest))
        fun ks b s₂ => Q (.identifier name :: ks) b s₂) :
    Stops s₀ N (Parser.identifier >>= f) (Parser.identifier >>= f') s L Q := by
  unfold Parser.identifier
  rw [bind_assoc, bind_assoc]
  cases hkind : s.head.kind with
  | identifier name =>
    apply advance hL (by rw [hkind]; exact Kind.noConfusion) (by rw [hkind]; exact Kind.noConfusion)
    simp only [hkind, pure_bind]
    exact h name
  | _ =>
    apply refuse hL
    simp only [hkind]
    exact .throw_bind (.inr ⟨rfl, hkind ▸ rfl⟩)

/-- A function that nothing comes after, as one that does nothing more comes after. -/
theorem of_bind_pure {f : Parser β} (h : Stops s₀ N (f >>= Pure.pure) (f' >>= Pure.pure) s L Q) :
    Stops s₀ N f f' s L Q := by
  rw [bind_pure, bind_pure] at h
  exact h

theorem of_assoc {γ : Type} {x x' : Parser γ} {g g' : γ → Parser α} {f f' : α → Parser β}
    (h : Stops s₀ N (x >>= g >>= f) (x' >>= g' >>= f') s L Q) :
    Stops s₀ N (x >>= fun c => g c >>= f) (x' >>= fun c => g' c >>= f') s L Q := by
  rw [bind_assoc, bind_assoc] at h
  exact h

/-- What is known of the tokens that a function takes is known of the tokens before the place where it stops. -/
theorem takes {f : Parser β} (h : Stops s₀ N f f' s L fun _ _ _ => True) (ht : Takes f s Q)
    (heof : ∀ ks b s₁, Q ks b s₁ → .eof ∉ ks) : Stops s₀ N f f' s L Q := by
  intro hs
  obtain ⟨ts, u, r, looked, hends, hway⟩ := h hs
  refine ⟨ts, u, r, looked, ?_, hway⟩
  cases hends with
  | next heof h => exact .next heof h
  | last heof h => exact .last heof h
  | ok hP =>
    obtain ⟨ks, hks, hq⟩ := ht _ u hway.run
    obtain ⟨us, hus, rfl⟩ := hks.exists_after (heof ks _ u hq)
    obtain rfl : us = ts := by
      have hpending := congrArg TokenStream.pending (hus.symm.trans (hway.opens.eq_after hP.pending))
      exact List.append_cancel_right hpending
    exact .ok ⟨hP.pending, hP.balanced, hq⟩

end Stops

/-! ## 6. Parts of the grammar -/

/-- A function `m` that is for the part `P` of the grammar stops as it has to on fewer than `n` tokens, and `m'` does
the same where `N` tokens are no more than `n'`. -/
def Handles (s₀ : TokenStream) (n n' : Nat) (m m' : Parser α) (P : List Kind → α → TokenStream → Prop) : Prop :=
  ∀ s N L, s.pending.length < n → N ≤ n' → (∀ ks a s₁, P ks a s₁ → Extends L ks) → Stops s₀ N m m' s L P

/-- A recursion on the number of tokens that are left, where nothing depends on that number at the end of
input. -/
theorem Handles.fuel {s₀ : TokenStream} {f f' : Nat → Parser α} {P : List Kind → α → TokenStream → Prop}
    {b : Nat → Nat} {n : Nat} (hb : b 0 = 0) (hend : ∀ last, f' 0 ⟨[], last⟩ = f' 1 ⟨[], last⟩)
    (hsucc : ∀ k k', k < n → (∀ j', Handles s₀ k (b j') (f k) (f' j') P) →
      Handles s₀ (k + 1) (b (k' + 1)) (f (k + 1)) (f' (k' + 1)) P) :
    ∀ k k', k ≤ n → Handles s₀ k (b k') (f k) (f' k') P := by
  intro k
  induction k with
  | zero => exact fun _ _ _ _ _ hs _ _ => absurd hs (Nat.not_lt_zero _)
  | succ k ih =>
    intro k' hk s N L hs hN hL
    have hstep : ∀ k', Handles s₀ (k + 1) (b (k' + 1)) (f (k + 1)) (f' (k' + 1)) P :=
      fun k' => hsucc k k' hk fun j' => ih j' (Nat.le_of_succ_le hk)
    cases k' with
    | zero =>
      rw [hb, Nat.le_zero] at hN
      subst hN
      exact fun hwithin => (hstep 0 s 0 L hs (Nat.zero_le _) hL hwithin).atEnd hend
    | succ k' => exact hstep k' s N L hs hN hL

end Parser

end Mila
