import Mila.Proofs.FailingPrograms

/-! # The first impossible token

A parse error that is about a token names the first one that no program can have at its place.
-/

namespace Mila

/-! ## 1. Numbers without a sign

A grammar knows no bounds for the numbers in its tokens, but a lexer delivers none below zero.
-/

namespace Grammar

/-- The token with a number that a lexer can deliver. -/
def tame : Kind → Kind
  | .integer value => .integer (if 0 ≤ value then value else 0)
  | k => k

/-- The parts of expressions that differ in their trees only. -/
inductive Term.Alike : Term → Term → Prop where
  | operand (n n' : Node) : Alike (.operand n) (.operand n')
  | tail (rest rest' : List (BinaryOperator × Node)) : Alike (.tail rest) (.tail rest')
  | expression (n n' : Node) : Alike (.expression n) (.expression n')
  | arguments (args args' : List Node) : Alike (.arguments args) (.arguments args')
  | list (args args' : List Node) : Alike (.list args) (.list args')

/-- The parts of blocks that differ in their trees only. -/
inductive Clause.Alike : Clause → Clause → Prop where
  | statement (isOpen : Bool) (s s' : Option Node) : Alike (.statement isOpen s) (.statement isOpen s')
  | statements (nodes nodes' : List Node) : Alike (.statements nodes) (.statements nodes')
  | block (n n' : Node) : Alike (.block n) (.block n')

variable {ks : List Kind}

theorem Number.tame {value : Word} (h : Number ks value) : ∃ value', Number (ks.map tame) value' := by
  cases h with
  | plain => exact ⟨_, .plain _⟩
  | negative => exact ⟨_, .negative _⟩

theorem tame_symbol? {op : BinaryOperator} {k : Kind} (h : symbol? op = some k) : tame k = k := by
  cases op <;> cases h <;> rfl

theorem Spells.tame {t : Term} (h : Spells ks t) : ∃ t', Spells (ks.map tame) t' ∧ t.Alike t' := by
  induction h with
  | number h =>
    obtain ⟨value, hvalue⟩ := h.tame
    exact ⟨_, .number hvalue, .operand _ _⟩
  | ident name => exact ⟨_, .ident name, .operand _ _⟩
  | element name _ ih =>
    obtain ⟨_, hindex, ⟨⟩⟩ := ih
    exact ⟨_, by simpa [Grammar.tame] using Spells.element name hindex, .operand _ _⟩
  | call name _ ih =>
    obtain ⟨_, hargs, ⟨⟩⟩ := ih
    exact ⟨_, by simpa [Grammar.tame] using Spells.call name hargs, .operand _ _⟩
  | parentheses _ ih =>
    obtain ⟨_, hinner, ⟨⟩⟩ := ih
    exact ⟨_, by simpa [Grammar.tame] using Spells.parentheses hinner, .operand _ _⟩
  | tailNil => exact ⟨_, .tailNil, .tail _ _⟩
  | tailCons hop _ _ ih ih' =>
    obtain ⟨_, hnext, ⟨⟩⟩ := ih
    obtain ⟨_, hrest, ⟨⟩⟩ := ih'
    exact ⟨_, by simpa [tame_symbol? hop] using Spells.tailCons hop hnext hrest, .tail _ _⟩
  | expression _ _ _ ih ih' =>
    obtain ⟨_, hfirst, ⟨⟩⟩ := ih
    obtain ⟨_, hrest, ⟨⟩⟩ := ih'
    have hspells := Spells.expression hfirst hrest ((Chain.grouped_iff _ _).mpr rfl)
    exact ⟨_, by simpa using hspells, .expression _ _⟩
  | noArguments => exact ⟨_, .noArguments, .arguments _ _⟩
  | someArguments _ ih =>
    obtain ⟨_, hargs, ⟨⟩⟩ := ih
    exact ⟨_, .someArguments hargs, .arguments _ _⟩
  | listLast _ ih =>
    obtain ⟨_, harg, ⟨⟩⟩ := ih
    exact ⟨_, .listLast harg, .list _ _⟩
  | listCons _ _ ih ih' =>
    obtain ⟨_, harg, ⟨⟩⟩ := ih
    obtain ⟨_, hargs, ⟨⟩⟩ := ih'
    exact ⟨_, by simpa [Grammar.tame] using Spells.listCons harg hargs, .list _ _⟩

theorem Text.tame (h : Text ks) : Text (ks.map tame) := by
  intro k hk
  obtain ⟨k, hmem, rfl⟩ := List.mem_map.mp hk
  have hne := h k hmem
  cases k with
  | integer value => exact ⟨Kind.noConfusion, Kind.noConfusion⟩
  | _ => exact hne

theorem Command.tame {s : Option Node} (h : Command ks s) : ∃ s', Command (ks.map tame) s' := by
  cases h with
  | assign ht hv =>
    obtain ⟨_, hvalue, ⟨⟩⟩ := hv.tame
    cases ht with
    | «variable» name =>
      exact ⟨_, by simpa [Grammar.tame] using Command.assign (.variable name) hvalue⟩
    | element name hindex =>
      obtain ⟨_, hindex, ⟨⟩⟩ := hindex.tame
      exact ⟨_, by simpa [Grammar.tame] using Command.assign (.element name hindex) hvalue⟩
  | call name h =>
    obtain ⟨_, hargs, ⟨⟩⟩ := h.tame
    exact ⟨_, by simpa [Grammar.tame] using Command.call name hargs⟩
  | writeln h =>
    obtain ⟨_, hargs, ⟨⟩⟩ := h.tame
    exact ⟨_, by simpa [Grammar.tame] using Command.writeln hargs⟩
  | exit => exact ⟨_, .exit⟩
  | intrinsic which name => exact ⟨_, .intrinsic which name⟩
  | write h => exact ⟨_, by simpa [Grammar.tame] using Command.write h.tame⟩

theorem Says.tame {c : Clause} (h : Says ks c) : ∃ c', Says (ks.map tame) c' ∧ c.Alike c' := by
  induction h with
  | command h =>
    obtain ⟨_, hcommand⟩ := h.tame
    exact ⟨_, .command hcommand, .statement _ _ _⟩
  | nested _ ih =>
    obtain ⟨_, hblock, ⟨⟩⟩ := ih
    exact ⟨_, .nested hblock, .statement _ _ _⟩
  | ifThen hc _ ih =>
    obtain ⟨_, hc, ⟨⟩⟩ := hc.tame
    obtain ⟨_, ht, ⟨⟩⟩ := ih
    exact ⟨_, by simpa [Grammar.tame] using Says.ifThen hc ht, .statement _ _ _⟩
  | ifElse hc _ _ iht ihe =>
    obtain ⟨_, hc, ⟨⟩⟩ := hc.tame
    obtain ⟨_, ht, ⟨⟩⟩ := iht
    obtain ⟨_, he, ⟨⟩⟩ := ihe
    exact ⟨_, by simpa [Grammar.tame] using Says.ifElse hc ht he, .statement _ _ _⟩
  | whileLoop hc _ ih =>
    obtain ⟨_, hc, ⟨⟩⟩ := hc.tame
    obtain ⟨_, hb, ⟨⟩⟩ := ih
    exact ⟨_, by simpa [Grammar.tame] using Says.whileLoop hc hb, .statement _ _ _⟩
  | forLoop name d hs hz _ ih =>
    obtain ⟨_, hs, ⟨⟩⟩ := hs.tame
    obtain ⟨_, hz, ⟨⟩⟩ := hz.tame
    obtain ⟨_, hb, ⟨⟩⟩ := ih
    exact ⟨_, by simpa [Grammar.tame] using Says.forLoop name d hs hz hb, .statement _ _ _⟩
  | last _ ih =>
    obtain ⟨_, hlast, ⟨⟩⟩ := ih
    exact ⟨_, .last hlast, .statements _ _⟩
  | lastSemicolon _ ih =>
    obtain ⟨_, hlast, ⟨⟩⟩ := ih
    exact ⟨_, by simpa [Grammar.tame] using Says.lastSemicolon hlast, .statements _ _⟩
  | cons _ _ ih ih' =>
    obtain ⟨_, hfirst, ⟨⟩⟩ := ih
    obtain ⟨_, hrest, ⟨⟩⟩ := ih'
    exact ⟨_, by simpa [Grammar.tame] using Says.cons hfirst hrest, .statements _ _⟩
  | block _ ih =>
    obtain ⟨_, hnodes, ⟨⟩⟩ := ih
    exact ⟨_, by simpa [Grammar.tame] using Says.block hnodes, .block _ _⟩

theorem TypeName.tame {bounds : Option (Word × Word)} (h : TypeName ks bounds) :
    ∃ bounds', TypeName (ks.map tame) bounds' := by
  cases h with
  | integer => exact ⟨_, .integer⟩
  | array hl hh =>
    obtain ⟨_, hl⟩ := hl.tame
    obtain ⟨_, hh⟩ := hh.tame
    exact ⟨_, by simpa [Grammar.tame] using TypeName.array hl hh⟩

theorem tame_names (first : String) (others : List String) : (names first others).map tame = names first others := by
  simp [names, tame, List.map_flatMap]

theorem tame_heading (p : Prototype) : (heading p).map tame = heading p := by
  have hparams : (params p.params).map tame = params p.params := by
    cases p.params <;> simp [params, tame, List.map_flatMap]
  unfold heading
  cases p.kind <;> simp [tame, hparams]

/-- Any range of array indices, an empty one too. -/
abbrev anyRange : Word → Word → Prop := fun _ _ => True

variable {decls : List VariableDecl}

theorem VariableLine.tame (h : VariableLine anyRange ks decls) :
    ∃ decls', VariableLine anyRange (ks.map tame) decls' := by
  obtain ⟨first, others, htype, -⟩ := h
  obtain ⟨_, htype⟩ := htype.tame
  have hline : VariableLine anyRange _ _ := .mk first others htype fun _ _ _ => trivial
  exact ⟨_, by simpa [Grammar.tame, tame_names] using hline⟩

theorem VariableLines.tame (h : VariableLines anyRange ks decls) :
    ∃ decls', VariableLines anyRange (ks.map tame) decls' := by
  induction h with
  | last h =>
    obtain ⟨_, h⟩ := h.tame
    exact ⟨_, .last h⟩
  | cons h _ ih =>
    obtain ⟨_, h⟩ := h.tame
    obtain ⟨_, hrest⟩ := ih
    exact ⟨_, by simpa using VariableLines.cons h hrest⟩

theorem ConstantLines.tame {decls : List Node} (h : ConstantLines ks decls) :
    ∃ decls', ConstantLines (ks.map tame) decls' := by
  induction h with
  | last name h =>
    obtain ⟨_, h⟩ := h.tame
    exact ⟨_, by simpa [Grammar.tame] using ConstantLines.last name h⟩
  | cons name h _ ih =>
    obtain ⟨_, h⟩ := h.tame
    obtain ⟨_, hrest⟩ := ih
    exact ⟨_, by simpa [Grammar.tame] using ConstantLines.cons name h hrest⟩

theorem LocalVariables.tame (h : LocalVariables anyRange ks decls) :
    ∃ decls', LocalVariables anyRange (ks.map tame) decls' := by
  induction h with
  | nil => exact ⟨_, .nil⟩
  | cons h _ ih =>
    obtain ⟨_, h⟩ := h.tame
    obtain ⟨_, hrest⟩ := ih
    exact ⟨_, by simpa [Grammar.tame] using LocalVariables.cons h hrest⟩

theorem Declares.tame {decls : List Node} (h : Declares anyRange ks decls) :
    ∃ decls', Declares anyRange (ks.map tame) decls' := by
  rcases h with h | h | p | ⟨p, hv, hb⟩
  · obtain ⟨_, h⟩ := h.tame
    exact ⟨_, by simpa [Grammar.tame] using Declares.variables h⟩
  · obtain ⟨_, h⟩ := h.tame
    exact ⟨_, by simpa [Grammar.tame] using Declares.constants h⟩
  · exact ⟨_, by simpa [Grammar.tame, tame_heading] using Declares.forward p⟩
  · obtain ⟨_, hv⟩ := hv.tame
    obtain ⟨_, hb, ⟨⟩⟩ := hb.tame
    exact ⟨_, by simpa [Grammar.tame, tame_heading] using Declares.subprogram p hv hb⟩

theorem Declarations.tame {decls : List Node} (h : Declarations anyRange ks decls) :
    ∃ decls', Declarations anyRange (ks.map tame) decls' := by
  induction h with
  | nil => exact ⟨_, .nil⟩
  | cons h _ ih =>
    obtain ⟨_, h⟩ := h.tame
    obtain ⟨_, hrest⟩ := ih
    exact ⟨_, by simpa using Declarations.cons h hrest⟩

theorem Derives.tame {p : Program} (h : Derives anyRange ks p) : ∃ p', Derives anyRange (ks.map tame) p' := by
  obtain ⟨name, hd, hb⟩ := h
  obtain ⟨_, hd⟩ := hd.tame
  obtain ⟨_, hb, ⟨⟩⟩ := hb.tame
  exact ⟨_, by simpa [Grammar.tame] using Derives.program name hd hb⟩

end Grammar

/-! ## 2. Viable prefixes -/

/-- Tokens that a program can start with, whatever the ranges in it. -/
def Viable (ks : List Kind) : Prop := ∃ w p, Grammar.Derives Grammar.anyRange w p ∧ ks <+: w ++ [.eof]

namespace TokenStream

variable {s u z : TokenStream} {ts : List Token}

/-- Token number `k` is the first that no program can have at its place. -/
structure FirstImpossible (s : TokenStream) (k : Nat) : Prop where
  viable : Viable ((s.toList.take k).map Token.kind)
  impossible : ¬ Viable ((s.toList.take (k + 1)).map Token.kind)

theorem body_after (z : TokenStream) (hts : .eof ∉ ts.map Token.kind) :
    (z.after ts).body = ts.map Token.kind ++ z.body := by
  unfold body after
  rw [List.map_append, List.takeWhile_append_of_pos]
  intro k hk
  rw [decide_eq_true_eq]
  rintro rfl
  exact hts hk

theorem body_of_eof (hu : u.head.kind = .eof) : u.body = [] := by
  obtain ⟨pending, last⟩ := u
  cases pending with
  | nil => rfl
  | cons t rest =>
    have ht : t.kind = .eof := hu
    simp [body, ht]

theorem toList_eq_head_cons (u : TokenStream) : ∃ rest, u.toList = u.head :: rest := by
  obtain ⟨pending, last⟩ := u
  cases pending with
  | nil => exact ⟨[], rfl⟩
  | cons t rest => exact ⟨_, rfl⟩

/-- The tokens that come behind those of a source text, at its very end. -/
def beyond (w : List Kind) : List Token := w.map fun k => ⟨Grammar.tame k, ⟨Span.maxOffset, 0⟩⟩

/-- A source text can go on with any tokens. -/
theorem Delivered.goOn {t : Token} {rest : List Token} {last : Span} (h : (after ⟨t :: rest, last⟩ ts).Delivered)
    (w : List Kind) : (after ⟨t :: beyond w, last⟩ ts).Delivered := by
  -- the further tokens stand behind all others, at the last offset
  have hbeyond : ∀ t ∈ beyond w, t.span.lo = Span.maxOffset ∧ t.span.hi = Span.maxOffset ∧
      ∀ value, t.kind = .integer value → 0 ≤ value := by
    intro t ht
    obtain ⟨k, -, rfl⟩ := List.mem_map.mp ht
    refine ⟨rfl, rfl, fun value hvalue => ?_⟩
    cases k with
    | integer v =>
      cases hvalue
      split
      · assumption
      · decide
    | _ => cases hvalue
  have hpending : ∀ ws, (after ⟨t :: ws, last⟩ ts).pending = (ts ++ [t]) ++ ws := by
    intro ws
    simp [after]
  obtain ⟨hvalues, hordered, hplaced⟩ := h
  rw [hpending] at hvalues hordered hplaced
  refine ⟨?_, ?_, ?_⟩
  · rw [hpending]
    intro t' ht'
    rcases List.mem_append.mp ht' with ht' | ht'
    · exact hvalues t' (List.mem_append_left _ ht')
    · exact (hbeyond t' ht').2.2
  · rw [hpending, List.pairwise_append]
    refine ⟨(List.pairwise_append.mp hordered).1, ?_, fun t' ht' u hu => ?_⟩
    · refine List.pairwise_of_forall_mem_list fun t' ht' u hu => ?_
      rw [(hbeyond t' ht').2.1, (hbeyond u hu).1]
    · rw [(hbeyond u hu).1]
      exact hplaced t' (List.mem_append_left _ ht')
  · rw [hpending]
    intro t' ht'
    rcases List.mem_append.mp ht' with ht' | ht'
    · exact hplaced t' (List.mem_append_left _ ht')
    · exact Nat.le_of_eq (hbeyond t' ht').2.1

theorem Delivered.tame_kind (h : s.Delivered) {t : Token} (ht : t ∈ s.pending) : Grammar.tame t.kind = t.kind := by
  have hvalues := h.values t ht
  cases hk : t.kind with
  | integer value => rw [Grammar.tame, if_pos (hvalues value hk)]
  | _ => rfl

end TokenStream

/-! ## 3. The first impossible token -/

/-- Of finitely many places, one is met for arbitrarily large bounds. -/
theorem exists_unbounded {P : Nat → Nat → Prop} {K : Nat} (h : ∀ N, ∃ k ≤ K, P N k) :
    ∃ k, ∀ M, ∃ N, M ≤ N ∧ P N k := by
  by_contra hnone
  push Not at hnone
  choose bound hbound using hnone
  obtain ⟨k, hk, hP⟩ := h ((Finset.range (K + 1)).sup bound)
  exact hbound k _ (Finset.le_sup (Finset.mem_range.mpr (Nat.lt_succ_of_le hk))) hP

namespace Parser

variable {s u : TokenStream} {ts : List Token} {e : ParseError}

/-- Reading a program fails with the given error wherever the first tokens and the next one are the given ones. -/
def Doomed (ts : List Token) (u : TokenStream) (e : ParseError) : Prop :=
  ∀ M, ∃ N, M ≤ N ∧ ∀ z : TokenStream, z.head = u.head → ts.length + z.pending.length ≤ N →
    ∃ s₁, programOf N (z.after ts) = .error e s₁

/-- An error that is about a token does not come from tokens that spell a program: where only the ranges of arrays
keep tokens from being a program, it is an empty range that is reported. -/
theorem Doomed.not_derives (h : Doomed ts u e) (he : e.cause.actual?.isSome) {z : TokenStream} (hz : z.head = u.head)
    (hd : (z.after ts).Delivered) (p : Program) : ¬ Grammar.Derives Grammar.anyRange (z.after ts).body p := by
  intro hderives
  obtain ⟨N, hN, hfails⟩ := h (z.after ts).pending.length
  obtain ⟨s', hs'⟩ := (z.after ts).starts_body
  have hattains := Attains.programOf (E := True) (fun _ _ _ => .inr trivial) hderives
    ((z.after ts).length_body_le.trans hN) _ s' hd hs' trivial
  rw [TokenStream.length_after] at hN
  obtain ⟨s₁, hs₁⟩ := hfails z hz hN
  rw [hs₁] at hattains
  rcases hattains with hp | ⟨-, e', s₂, low, high, he', hcause⟩
  · cases hp
  · cases he'
    rw [hcause] at he
    cases he

/-- What comes before a token that goes on with a program, or ends it. -/
theorem eq_or_eq_append_of_prefix {ks w : List Kind} {k : Kind} (h : ks ++ [k] <+: w ++ [.eof]) :
    (ks = w ∧ k = .eof) ∨ ∃ w', w = ks ++ k :: w' := by
  obtain ⟨rest, hrest⟩ := h
  rcases List.eq_nil_or_concat rest with rfl | ⟨w', k', rfl⟩
  · rw [List.append_nil] at hrest
    obtain ⟨hks, hk⟩ := List.append_inj' hrest rfl
    exact .inl ⟨hks, List.head_eq_of_cons_eq hk⟩
  · rw [List.concat_eq_append, ← List.append_assoc] at hrest
    obtain ⟨hw, -⟩ := List.append_inj' hrest rfl
    exact .inr ⟨w', by simpa using hw.symm⟩

theorem Doomed.not_viable (h : Doomed ts u e) (he : e.cause.actual?.isSome) (hd : (u.after ts).Delivered) :
    ¬ Viable (ts.map Token.kind ++ [u.head.kind]) := by
  rintro ⟨w, p, hderives, hprefix⟩
  rcases eq_or_eq_append_of_prefix hprefix with ⟨rfl, hu⟩ | ⟨w', rfl⟩
  · -- the tokens are those of a whole program
    refine h.not_derives he rfl hd p ?_
    rw [TokenStream.body_after u hderives.eof_notMem, TokenStream.body_of_eof hu, List.append_nil]
    exact hderives
  · -- the program goes on behind the token, so that there is a source text which does
    have hu : u.head.kind ≠ .eof := by
      intro hu
      apply hderives.eof_notMem
      rw [hu]
      exact List.mem_append_right _ List.mem_cons_self
    have hpending := TokenStream.pending_eq hu
    have hcons : u = ⟨u.head :: u.tail.pending, u.last⟩ := by rw [← hpending]
    have hmem : u.head ∈ (u.after ts).pending := by
      unfold TokenStream.after
      rw [hpending]
      exact List.mem_append_right _ List.mem_cons_self
    obtain ⟨p', htame⟩ := hderives.tame
    have hkinds : (TokenStream.after ⟨u.head :: TokenStream.beyond w', u.last⟩ ts).pending.map Token.kind =
        (ts.map Token.kind ++ u.head.kind :: w').map Grammar.tame := by
      have hts : (ts.map Token.kind).map Grammar.tame = ts.map Token.kind := by
        rw [List.map_map]
        exact List.map_congr_left fun t ht => hd.tame_kind (List.mem_append_left _ ht)
      unfold TokenStream.after TokenStream.beyond
      rw [List.map_append, List.map_cons, List.map_append, List.map_cons, hts, hd.tame_kind hmem, List.map_map]
      rfl
    rw [← hkinds] at htame
    have hbody : (TokenStream.after ⟨u.head :: TokenStream.beyond w', u.last⟩ ts).body =
        (TokenStream.after ⟨u.head :: TokenStream.beyond w', u.last⟩ ts).pending.map Token.kind := by
      refine List.takeWhile_eq_self_iff.mpr fun k hk => ?_
      rw [decide_eq_true_eq]
      rintro rfl
      exact htame.eof_notMem hk
    rw [← hbody] at htame
    have hdelivered : (TokenStream.after ⟨u.head :: u.tail.pending, u.last⟩ ts).Delivered := by
      rw [← hcons]
      exact hd
    exact h.not_derives (z := ⟨u.head :: TokenStream.beyond w', u.last⟩) he rfl (hdelivered.goOn w') p' htame

/-- Where reading a program fails because of a token, this is the first token that no program can have at its
place. A bad token that is reported is the first one outside of literals. -/
theorem program_error_first (s : TokenStream) (hd : s.Delivered) {e : ParseError}
    (h : program.result s = .error e) (he : e.cause.actual?.isSome) :
    ∃ k t, s.toList[k]? = some t ∧ e.Blames t ∧ s.FirstImpossible k ∧
      ∀ reason, e.cause = .lexical reason → Balanced ((s.toList.take k).map Token.kind) := by
  obtain ⟨s', hrun⟩ : ∃ s', programOf s.pending.length s = .error e s' := by
    unfold result at h
    split at h
    · cases h
    · next e' s' hrun =>
      cases h
      exact ⟨s', hrun⟩
  -- the place may depend on the number of tokens up to which the failure is the same
  have hfails : ∀ N, ∃ k ≤ s.pending.length, ∃ ts, ∃ u : TokenStream, ts.length = k ∧ s = u.after ts ∧ e.Blames u.head ∧
      Extends (fun ks => ∃ p, Grammar.Derives Grammar.anyRange ks p) (ts.map Token.kind) ∧
      (∀ reason, e.cause = .lexical reason → Balanced (ts.map Token.kind)) ∧
      ∀ z : TokenStream, z.head = u.head → ts.length + z.pending.length ≤ N →
        ∃ s₁, programOf N (z.after ts) = .error e s₁ := by
    intro N
    rcases programOf_error hrun (Nat.le_refl _) N with (⟨low, high, hcause⟩ | ⟨hcause, -⟩) | ⟨ts, u, hs, hrest⟩
    · rw [hcause] at he
      cases he
    · rw [hcause] at he
      cases he
    · refine ⟨ts.length, ?_, ts, u, rfl, hs, hrest⟩
      rw [hs, TokenStream.length_after]
      omega
  obtain ⟨k, hk⟩ := exists_unbounded hfails
  obtain ⟨_, -, ts, u, rfl, rfl, hblames, hextends, hbalanced, -⟩ := hk 0
  have hdoomed : Doomed ts u e := by
    intro M
    obtain ⟨N, hN, ts', u', hlength, hs, -, -, -, hlocal⟩ := hk M
    obtain ⟨rfl, hpending⟩ := List.append_inj (congrArg TokenStream.pending hs) hlength.symm
    obtain ⟨pending, last⟩ := u
    obtain ⟨pending', last'⟩ := u'
    obtain rfl : last = last' := congrArg TokenStream.last hs
    obtain rfl : pending = pending' := hpending
    exact ⟨N, hN, hlocal⟩
  obtain ⟨rest, hrest⟩ := u.toList_eq_head_cons
  have hlist : (u.after ts).toList = ts ++ u.head :: rest := by rw [TokenStream.toList_after, hrest]
  have htake : (u.after ts).toList.take ts.length = ts := by rw [hlist, List.take_left]
  refine ⟨ts.length, u.head, ?_, hblames, ⟨?_, ?_⟩, ?_⟩
  · rw [hlist, List.getElem?_append_right (Nat.le_refl _), Nat.sub_self, List.getElem?_cons_zero]
  · obtain ⟨rest, p, hderives⟩ := hextends
    rw [htake]
    exact ⟨_, p, hderives, by rw [List.append_assoc]; exact List.prefix_append _ _⟩
  · have htake' : (u.after ts).toList.take (ts.length + 1) = ts ++ [u.head] := by
      rw [hlist, List.take_length_add_append, List.take_succ_cons, List.take_zero]
    rw [htake', List.map_append]
    exact hdoomed.not_viable he hd
  · rw [htake]
    exact hbalanced

/-- `program p; begin x := 1 2 end.`, where the second number does not belong. -/
def twoNumbers : TokenStream :=
  ⟨[⟨.keyword .program, ⟨0, 7⟩⟩, ⟨.identifier "p", ⟨8, 1⟩⟩, ⟨.operator .semicolon, ⟨9, 1⟩⟩,
    ⟨.keyword .begin, ⟨11, 5⟩⟩, ⟨.identifier "x", ⟨17, 1⟩⟩, ⟨.operator .assign, ⟨19, 2⟩⟩, ⟨.integer 1, ⟨22, 1⟩⟩,
    ⟨.integer 2, ⟨24, 1⟩⟩, ⟨.keyword .end, ⟨26, 3⟩⟩, ⟨.operator .dot, ⟨29, 1⟩⟩], ⟨30, 0⟩⟩

theorem program_twoNumbers : twoNumbers.Delivered ∧
    program.result twoNumbers = .error ⟨.expectedProduction .operator (.integer 2), ⟨24, 1⟩⟩ ∧
    ∃ k t, twoNumbers.toList[k]? = some t ∧ t.span = ⟨24, 1⟩ ∧ t.kind = .integer 2 ∧
      twoNumbers.FirstImpossible k := by
  have hd : twoNumbers.Delivered := ⟨by simp [twoNumbers], by decide, by decide⟩
  have herror : program.result twoNumbers =
      .error ⟨.expectedProduction .operator (.integer 2), ⟨24, 1⟩⟩ := rfl
  obtain ⟨k, t, ht, hblames, hfirst, -⟩ := program_error_first _ hd herror rfl
  exact ⟨hd, herror, k, t, ht, hblames.span.symm, (Option.some.inj hblames.actual).symm, hfirst⟩

end Parser

end Mila
