import Mila.Proofs.Legible
import Mila.Proofs.Lexing
import Mila.Proofs.Mirroring
import Mila.Proofs.Sources
import Mila.Proofs.Spelling
import Mila.Proofs.Watching

/-! # Listings of compiled programs

The code of a program can be read off its listing: the names in it come from the source text, the labels from the
compiler, and every register is defined once, when it is needed.
-/

namespace Mila

/-! ## 1. Plain names -/

theorem isNameChar_of_isNameByte {b : UInt8} (h : Ascii.isNameByte b = true) :
    isNameChar (Char.ofUInt8 b) = true := by
  have hall : ∀ n : Fin 256, Ascii.isNameByte (UInt8.ofNat n) = true →
      isNameChar (Char.ofUInt8 (UInt8.ofNat n)) = true := by
    decide +kernel
  have hb := hall ⟨b.toNat, b.toNat_lt⟩
  rw [UInt8.ofNat_toNat] at hb
  exact hb h

variable {name source : String} {p : Program} {C : Code} {g : Nat}

theorem IsName.plainName (h : IsName name) : PlainName name := by
  obtain ⟨first, run, hfirst, hrun, rfl⟩ := h.spelled
  constructor
  · intro hempty
    have htext := congrArg String.toList hempty
    rw [Ascii.text, String.toList_ofList] at htext
    cases htext
  · intro c hc
    rw [Ascii.text, String.toList_ofList] at hc
    obtain ⟨b, hb, rfl⟩ := List.mem_map.mp hc
    rcases List.mem_cons.mp hb with rfl | hb
    · exact isNameChar_of_isNameByte (Ascii.isNameByte_of_isLetter hfirst)
    · exact isNameChar_of_isNameByte (hrun b hb)

/-- A heading that is written with plain names. -/
def PlainHeading (name : String) (params : List String) : Prop := PlainName name ∧ ∀ param ∈ params, PlainName param

namespace Grammar

variable {Range : Word → Word → Prop}

variable {name : String} {p : Prototype}

theorem identifier_mem_params {names : List String} (h : name ∈ names) : .identifier name ∈ params names := by
  cases names with
  | nil => cases h
  | cons first others =>
    unfold params
    rcases List.mem_cons.mp h with rfl | h
    · simp only [ident, List.mem_append, List.mem_singleton, true_or]
    · refine List.mem_append_right _ (List.mem_flatMap.mpr ⟨name, h, ?_⟩)
      simp only [ident, List.mem_append, List.mem_singleton, true_or, or_true]

theorem identifier_mem_heading (h : name ∈ p.name :: p.params) : .identifier name ∈ heading p := by
  have hparams : name = p.name ∨ .identifier name ∈ params p.params :=
    (List.mem_cons.mp h).imp id identifier_mem_params
  unfold heading
  cases p.kind <;> rcases hparams with rfl | hparams <;>
    simp only [ident, List.mem_append, List.mem_singleton, *, true_or, or_true]

theorem plainHeading_of_proper (h : ∀ k ∈ heading p, k.Proper) : PlainHeading p.name p.params := by
  have hname : ∀ name ∈ p.name :: p.params, PlainName name := fun name hname =>
    IsName.plainName (h _ (identifier_mem_heading hname))
  rwa [List.forall_mem_cons] at hname

theorem hands_plainHeading : Hands Kind.Proper Range Node.Plain (fun _ => True)
    fun n => ∀ p ∈ n.heading?, PlainHeading p.name p.params where
  declared _ _ _ _ := trivial
  var _ := nofun
  constant _ _ _ := nofun
  forward hp _ hp' := Option.some.inj hp' ▸ plainHeading_of_proper hp
  subprogram hp _ _ _ hp' := Option.some.inj hp' ▸ plainHeading_of_proper hp

end Grammar

/-- The headings of a program that is read off a text. -/
theorem parseProgram_plainHeading (h : parseProgram source = .ok p) :
    ∀ n ∈ p.declarations, ∀ heading ∈ n.heading?, PlainHeading heading.name heading.params := by
  obtain ⟨ks, hderives, hks⟩ := parseProgram_derives h
  exact (hderives.has Grammar.hands_plainHeading (Grammar.inherits_plain _) hks).2.1

/-! ## 2. What a compilation emits -/

/-- A block is changed so that it defines more registers. If there is no such block, nothing changes. -/
theorem sum_definitions_modify {f : Block → Block} {more : Nat}
    (hf : ∀ b, (f b).definitions = b.definitions + more) {blocks : List Block} {n : Nat}
    (hn : n < blocks.length ∨ more = 0) :
    ((blocks.modify n f).map Block.definitions).sum = (blocks.map Block.definitions).sum + more := by
  induction blocks generalizing n with
  | nil =>
    rw [hn.resolve_left (Nat.not_lt_zero n), List.modify_nil]
    rfl
  | cons b blocks ih =>
    cases n with
    | zero =>
      rw [List.modify_zero_cons, List.map_cons, List.map_cons, List.sum_cons, List.sum_cons, hf]
      omega
    | succ n =>
      rw [List.modify_succ_cons, List.map_cons, List.map_cons, List.sum_cons, List.sum_cons,
        ih (hn.imp_left Nat.lt_of_succ_lt_succ)]
      omega

theorem Block.definitions_push (b : Block) (i : Instruction) :
    (b.push i).definitions = b.definitions + if i.target?.isSome then 1 else 0 := by
  unfold definitions push
  rw [Array.toList_push, List.countP_append, List.countP_singleton]

namespace Routine.Plain

variable {r : Routine}

theorem empty {name : String} {params : List String} (h : PlainHeading name params) :
    (Routine.empty name params).Plain where
  name := h.1
  params := h.2
  labels b hb := (Array.not_mem_empty b hb).elim
  registers := rfl

theorem addBlock (h : r.Plain) {label : String} (hlabel : label ∈ Emit.labels) : (r.addBlock label).Plain where
  name := h.name
  params := h.params
  labels b hb := by
    have hlabels : ∀ label ∈ Emit.labels, label.toList.all isLabelChar = true := by decide
    rcases Array.mem_push.mp hb with hb | rfl
    · exact h.labels b hb
    · exact List.all_eq_true.mp (hlabels label hlabel)
  registers := by
    unfold Routine.addBlock
    rw [Array.toList_push, List.map_append, List.sum_append]
    exact h.registers

/-- A block is changed, but not its label. -/
theorem modify (h : r.Plain) {f : Block → Block} (hf : ∀ b, (f b).label = b.label) {n registers : Nat}
    (hregisters : registers = ((r.blocks.modify n f).toList.map Block.definitions).sum) :
    Routine.Plain { r with blocks := r.blocks.modify n f, registers } where
  name := h.name
  params := h.params
  labels b hb := by
    obtain ⟨m, hm⟩ := Array.mem_iff_getElem?.mp hb
    rw [Array.getElem?_modify] at hm
    split at hm
    · obtain ⟨b', hb', rfl⟩ := Option.map_eq_some_iff.mp hm
      rw [hf]
      exact h.labels b' (Array.mem_of_getElem? hb')
    · exact h.labels b (Array.mem_of_getElem? hm)
  registers := hregisters

theorem define (h : r.Plain) {n : Nat} (hn : n < r.blocks.size) (op : Operation) : (r.define n op).Plain := by
  refine h.modify (f := (·.push (.define r.registers op))) (fun _ => rfl) ?_
  rw [Array.toList_modify, sum_definitions_modify (fun b => b.definitions_push _) (.inl hn), ← h.registers]
  rfl

theorem store (h : r.Plain) (n : Nat) (value address : Register) : (r.push n (.store value address)).Plain := by
  refine h.modify (f := (·.push (.store value address))) (fun _ => rfl) ?_
  rw [Array.toList_modify, sum_definitions_modify (fun b => b.definitions_push _) (.inr rfl), ← h.registers]
  rfl

theorem terminate (h : r.Plain) (n : Nat) (e : Exit) : (r.terminate n e).Plain := by
  refine h.modify (f := (·.terminate e)) (fun _ => rfl) ?_
  rw [Array.toList_modify, sum_definitions_modify (f := (·.terminate e)) (fun _ => rfl) (.inr rfl), ← h.registers]
  rfl

end Routine.Plain

namespace Watched

/-- The routines so far are plain, if the code had what was asked for. -/
def PlainSoFar (k : Watched) : Prop :=
  k.sound = true → ∀ (g : Nat) (r : Routine), k.code.routines[g]? = some r → r.Plain

/-- A step that changes one routine. -/
theorem PlainSoFar.modify {k : Watched} (h : k.PlainSoFar) {g : Nat} {f : Routine → Routine} {there : Bool}
    (hf : there = true → ∀ r, k.code.routines[g]? = some r → r.Plain → (f r).Plain) :
    (k.next (k.code.modify g f) there).PlainSoFar := by
  intro hsound i r hr
  obtain ⟨hsound, hthere⟩ := Bool.and_eq_true_iff.mp hsound
  rw [next, Code.routines_modify] at hr
  split at hr
  · next hg =>
    obtain ⟨r', hr', rfl⟩ := Option.map_eq_some_iff.mp hr
    rw [← hg] at hr'
    exact hf hthere r' hr' (h hsound g r' hr')
  · exact h hsound i r hr

/-- Whatever a compilation asks for, it makes plain routines. -/
theorem upholds_plain : Target.Upholds PlainHeading PlainSoFar where
  addRoutine k name params hheading h := by
    intro hsound g r hr
    change (k.code.addRoutine name params).2.routines[g]? = some r at hr
    rw [Code.routines_addRoutine] at hr
    split at hr
    · rw [← Option.some.inj hr]
      exact .empty hheading
    · exact h hsound g r hr
  addBlock k g label hlabel h := h.modify fun _ _ _ hr => hr.addBlock hlabel
  define k place op h := h.modify fun hthere r hr hplain => by
    unfold Code.block? at hthere
    rw [hr, Option.bind_some] at hthere
    obtain ⟨b, hb⟩ := Option.isSome_iff_exists.mp hthere
    exact hplain.define (Array.getElem?_eq_some_iff.mp hb).1 op
  store k place value address h := h.modify fun _ _ _ hr => hr.store _ _ _
  terminate k place e h := h.modify fun _ _ _ hr => hr.terminate _ _

end Watched

/-! ## 3. The listing tells the code -/

theorem Registry.names {globals : Globals} (h : Registry globals C) {i : Nat} {r r' : Routine}
    (hr : C.routines[g]? = some r) (hr' : C.routines[i]? = some r') (hname : r.name = r'.name) : g = i := by
  obtain ⟨entry, hentry, rfl⟩ := h.named g r hr
  obtain ⟨entry', hentry', rfl⟩ := h.named i r' hr'
  rw [hname, hentry'] at hentry
  rw [Option.some.inj hentry]

theorem plainName_of_all (hne : name ≠ "") (h : name.toList.all isNameChar = true) : PlainName name :=
  ⟨hne, List.all_eq_true.mp h⟩

/-- The routines of a program are plain. -/
theorem Program.compileInto_plain (hformed : p.Formed)
    (hheadings : ∀ n ∈ p.declarations, ∀ heading ∈ n.heading?, PlainHeading heading.name heading.params)
    (hcode : p.compileInto Code.empty = (.ok (), C)) {r : Routine} (hr : C.routines[g]? = some r) : r.Plain := by
  -- a target that watches gets the same code
  obtain ⟨hok, hsame⟩ := Prod.mk.inj ((p.compileInto_watched Watched.empty).symm.trans hcode)
  have hrun : p.compileInto Watched.empty = (.ok (), (p.compileInto Watched.empty).2) := Prod.ext hok rfl
  have hstart : (Compilation.start Watched.empty).code.PlainSoFar := by
    refine Watched.upholds_plain.start ⟨plainName_of_all (by decide) (by decide), fun _ h => by cases h⟩ ?_ ?_
    · have hx : ∀ param ∈ ["x"], PlainName param := fun param hparam => by
        rw [List.mem_singleton.mp hparam]
        exact plainName_of_all (by decide) (by decide)
      have hnames : ∀ name ∈ Compilation.libraryRoutines, name ≠ "" ∧ name.toList.all isNameChar = true := by decide
      exact fun name hname => ⟨plainName_of_all (hnames name hname).1 (hnames name hname).2, hx⟩
    · intro _ g r hr
      cases hr
  -- the names stay the same, and only the invariant is of use
  have hclear : ∀ name, (p.declarations.foldl Naming.after .same).Clear name := fun name => .inl <| by
    rw [Naming.other_foldl_after]
    rfl
  have hmirrors := Mirrors.program (N := .same) Watched.upholds_plain
    (fun n hn => (hformed.declarations n hn).fits (hheadings n hn)) (hformed.body.fits fun name _ => hclear name)
  have hplain := (hmirrors.compileInto rfl hstart hrun).2 p.compileInto_kept.1
  rw [hsame] at hplain
  exact hplain g r hr

/-- The code of a source text can be read. -/
theorem compile_legible (h : compile source = .ok C) : C.Legible := by
  obtain ⟨p, hparse, hcode⟩ := exists_program h
  have hformed := parseProgram_formed hparse
  obtain ⟨-, v, S, hcompiled⟩ := Program.compileInto_spec rfl trivial hcode
  exact ⟨fun g i r r' => hcompiled.registry.names,
    fun g r => Program.compileInto_plain hformed (parseProgram_plainHeading hparse) hcode,
    fun g r hr b => hcompiled.wellStructured.refers hr⟩

/-- Two source texts whose code has the same listing have the same code. -/
theorem compile_eq_of_listing {s t : String} {C D : Code} (hs : compile s = .ok C) (ht : compile t = .ok D)
    (h : C.listing = D.listing) : C = D := (compile_legible hs).eq_of_listing (compile_legible ht) h

/-- A program with a condition, a loop and a call. -/
def countdown : String := "program a; var x: integer; begin while x > 1 do if x then dec(x); writeln(x) end."

/-- The same, but for what leaves no trace in the code. -/
def otherCountdown : String :=
  "program b; const c = 1; var y: integer; begin while (y > c) do begin if y then dec(y); end; writeln(y); end."

theorem compile_countdown : countdown ≠ otherCountdown ∧ ∃ C D, compile countdown = .ok C ∧
    compile otherCountdown = .ok D ∧ C.listing = D.listing ∧ C = D := by
  obtain ⟨C, hC⟩ : ∃ C, compile countdown = .ok C := exists_code (by decide +kernel)
  obtain ⟨D, hD⟩ : ∃ D, compile otherCountdown = .ok D := exists_code (by decide +kernel)
  have hlisting : (compile countdown).toOption.map Code.listing =
      (compile otherCountdown).toOption.map Code.listing := by
    decide +kernel
  rw [hC, hD] at hlisting
  exact ⟨by decide, C, D, hC, hD, Option.some.inj hlisting, compile_eq_of_listing hC hD (Option.some.inj hlisting)⟩

end Mila
