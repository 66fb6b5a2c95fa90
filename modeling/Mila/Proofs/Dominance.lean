import Mila.Proofs.Availability
import Mila.Proofs.Sources

/-! # Definitions come before uses

In the code of a source text every register is defined on all ways to the places where it is read, and holds what
it is read as. The declarations of a routine stand before all its statements: only therefore is a variable there
wherever its name is known.
-/

namespace Mila

/-! ## 1. Pieces of code -/

/-- The variables that are known at a site are there. -/
def Site.Housed (S : Site) (C : Code) (K : Notes) : Prop :=
  ∀ name b, S.locals.get? name = some b → (b.slot, .address) ∈ S.known C K

theorem Site.Housed.of {S S' : Site} {C : Code} {K K' : Notes} (h : S.Housed C K)
    (hlocals : S'.locals.get? = S.locals.get?) (hknown : S.known C K ⊆ S'.known C K') : S'.Housed C K' :=
  fun name b hb => hknown (h name b (hlocals ▸ hb))

/-- The code between two sites has right notes if the operands `G` are there at its start, and makes the operands
`R` available. -/
def Flows (C : Code) (S : Site) (G : List Operand) (S' : Site) (R : List Operand) : Prop :=
  ∀ K, S.Valid → S.Housed C K → (∀ u ∈ G, u ∈ S.known C K) →
    ∃ K', Carries C K S K' S' ∧ S'.Housed C K' ∧ ∀ u ∈ R, u ∈ S'.known C K'

namespace Flows

variable {C : Code} {S S' S₁ S₂ S₃ S₄ : Site} {G G₁ G₂ R R₁ R₂ : List Operand}

theorem define {o : Operation} (hhas : C.Has S (.define S.registers o)) :
    Flows C S o.operands S.next [(S.registers, o.type)] := by
  intro K _ hhoused hgiven
  obtain ⟨hcarries, hvalue⟩ := Carries.define hhas hgiven
  refine ⟨K, hcarries, hhoused.of rfl hcarries.known, fun u hu => ?_⟩
  rw [List.mem_singleton.mp hu]
  exact hvalue

theorem store {v slot : Register} (hhas : C.Has S (.store v slot)) :
    Flows C S [(v, .word), (slot, .address)] S.skip [] := by
  intro K _ hhoused hgiven
  have hcarries := Carries.store hhas (hgiven _ List.mem_cons_self)
    (hgiven _ (List.mem_cons_of_mem _ List.mem_cons_self))
  exact ⟨K, hcarries, hhoused.of rfl hcarries.known, fun u hu => absurd hu List.not_mem_nil⟩

theorem still (hroutine : S'.routine = S.routine) (hblock : S'.block = S.block)
    (hindex : S'.index = S.index) (hblocks : S'.blocks = S.blocks) (hreturns : S'.returns = S.returns)
    (hlocals : S'.locals.get? = S.locals.get?) : Flows C S G S' G := by
  intro K _ hhoused hgiven
  have hcarries : Carries C K S K S' := .still hroutine hblock hindex hblocks hreturns
  exact ⟨K, hcarries, hhoused.of hlocals hcarries.known, fun u hu => hcarries.known (hgiven u hu)⟩

theorem refl (S : Site) : Flows C S G S G := still rfl rfl rfl rfl rfl rfl

/-- One piece of code behind another. What is there stays there. -/
theorem seq (h : Flows C S G S₁ R) (h₁ : Flows C S₁ G₁ S₂ R₁) (hG₁ : G₁ ⊆ R) : Flows C S G S₂ (R ++ R₁) := by
  intro K hv hhoused hgiven
  obtain ⟨K₁, hc, hhoused₁, hr⟩ := h K hv hhoused hgiven
  obtain ⟨K₂, hc₁, hhoused₂, hr₁⟩ := h₁ K₁ (hc.valid hv) hhoused₁ fun u hu => hr u (hG₁ hu)
  refine ⟨K₂, hc.trans hv hc₁, hhoused₂, fun u hu => ?_⟩
  rcases List.mem_append.mp hu with hu | hu
  · exact hc₁.known (hr u hu)
  · exact hr₁ u hu

theorem weaken (h : Flows C S G S' R) (hR : R₁ ⊆ R) : Flows C S G S' R₁ := by
  intro K hv hhoused hgiven
  obtain ⟨K', hc, hhoused', hr⟩ := h K hv hhoused hgiven
  exact ⟨K', hc, hhoused', fun u hu => hr u (hR hu)⟩

/-- Names do not matter to code, as long as they stand for the same variables. -/
theorem rename (h : Flows C S G S₁ R) {l : Locals} (hl : l.get? = S₁.locals.get?) :
    Flows C S G { S₁ with locals := l } R := by
  have hstill : Flows C S₁ R { S₁ with locals := l } R := still rfl rfl rfl rfl rfl hl
  exact (h.seq hstill fun _ hu => hu).weaken fun _ hu => List.mem_append_left _ hu

theorem slot {name : String} {b : Binding} (hb : S.locals.get? name = some b)
    (h : Flows C S ((b.slot, .address) :: G) S' R) : Flows C S G S' R := by
  intro K hv hhoused hgiven
  refine h K hv hhoused fun u hu => ?_
  rcases List.mem_cons.mp hu with rfl | hu
  · exact hhoused name b hb
  · exact hgiven u hu

theorem leave {v : Register} (h : Flows C S G S₁ R) (hv : (v, .word) ∈ R)
    (hends : C.Ends S₁ (.jump (S₁.ref 1))) : Flows C S G (((S₁.leave v).grow 1).move S₁.blocks) [] := by
  intro K hvalid hhoused hgiven
  obtain ⟨K₁, hc₁, hhoused₁, hr₁⟩ := h K hvalid hhoused hgiven
  have hcarries := hc₁.leave hvalid (hr₁ _ hv) hends
  refine ⟨_, hcarries, hhoused₁.of rfl ?_, fun u hu => absurd hu List.not_mem_nil⟩
  rw [Site.known_move, Notes.extend_of_le _ (Nat.le_refl _)]

/-- The arms of a conditional have nothing of their own to start with. -/
theorem conditional {b tv ev : Register} (h : Flows C S G S₂ R) (hb : (b, .word) ∈ R)
    (hfork : C.Ends S₂ (.branch b (S₂.ref S₂.blocks) (S₂.ref (S₂.blocks + 1))))
    (ht : Flows C ((S₂.grow 3).move S₂.blocks) [] S₃ [(tv, .word)])
    (hregion : S₂.Valid → Region C ((S₂.grow 3).move S₂.blocks) [] S₃)
    (hlocals₃ : S₃.locals.get? = S₂.locals.get?) (htend : C.Ends S₃ (.jump (S₂.ref (S₂.blocks + 2))))
    (he : Flows C (S₃.move (S₂.blocks + 1)) [] S₄ [(ev, .word)])
    (hregion' : (S₃.move (S₂.blocks + 1)).Valid → Region C (S₃.move (S₂.blocks + 1)) [] S₄)
    (hlocals₄ : S₄.locals.get? = S₂.locals.get?) (heend : C.Ends S₄ (.jump (S₂.ref (S₂.blocks + 2))))
    (hphi : C.Has (S₄.move (S₂.blocks + 2))
      (.define S₄.registers (.phi [(tv, S₃.place), (ev, S₄.place)]))) :
    Flows C S G (S₄.move (S₂.blocks + 2)).next [(S₄.registers, .word)] := by
  intro K hv hhoused hgiven
  obtain ⟨K₂, hc₂, hhoused₂, hr₂⟩ := h K hv hhoused hgiven
  have hv₂ := hc₂.valid hv
  have hregion := hregion hv₂
  have hvt := Region.valid_first hv₂
  have hve := Region.valid_second hv₂ hregion
  have hb₃ : S₂.blocks + 3 ≤ S₃.blocks := hregion.blocks
  have hnone : ∀ A : Set Operand, ∀ u ∈ ([] : List Operand), u ∈ A :=
    fun _ _ hu => absurd hu List.not_mem_nil
  -- the first arm starts with the notes of the fork, the second one with those that the first one leaves
  have hforks₂ := Site.Forks.extend S₂ C K₂
  obtain ⟨K₃, hc₃, -, hr₃⟩ := ht _ hvt (hhoused₂.of rfl (hforks₂.known_new (by omega) (by omega)).ge) (hnone _)
  have hforks₃ : S₂.Forks C K₂ K₃ := hforks₂.trans hc₃.same
  obtain ⟨K₄, hc₄, -, hr₄⟩ := he K₃ hve
    (hhoused₂.of hlocals₃ (hforks₃.known_new (by omega) (by omega)).ge) (hnone _)
  have hforks₄ : S₂.Forks C K₂ K₄ := hforks₃.trans fun x hx => hc₄.same x (hx.trans_le hb₃)
  obtain ⟨hcarries, hvalue⟩ := hc₂.conditional hv (hr₂ _ hb) hfork hregion hc₃
    (hr₃ _ List.mem_cons_self) htend (hregion' hve) hc₄ (hr₄ _ List.mem_cons_self) heend hphi
  refine ⟨K₄, hcarries, hhoused₂.of hlocals₄ ?_, fun u hu => ?_⟩
  · rw [← hforks₄.known_new (T := S₄) (x := S₂.blocks + 2) (by omega) (by omega)]
    exact Code.before_mono (Nat.le_succ _)
  · rw [List.mem_singleton.mp hu]
    exact hvalue

/-- The test and the body of a loop may rely on what is there before the loop. -/
theorem loop {b : Register} {e : Exit} {ins : Instruction} (h : Flows C S G S₁ R)
    (hstart : C.Ends S₁ (.jump (S₁.ref S₁.blocks)))
    (ht : Flows C ((S₁.grow 3).move S₁.blocks) G₁ S₂ R₁) (hG₁ : G₁ ⊆ R) (hb : (b, .word) ∈ R₁)
    (hregion : S₁.Valid → Region C ((S₁.grow 3).move S₁.blocks) [] S₂) (hlocals₂ : S₂.locals.get? = S₁.locals.get?)
    (hfork : C.Ends S₂ (.branch b (S₁.ref (S₁.blocks + 1)) (S₁.ref (S₁.blocks + 2))))
    (hbody : Flows C (S₂.move (S₁.blocks + 1)) G₂ S₃ R₂) (hG₂ : G₂ ⊆ R)
    (hregion' : (S₂.move (S₁.blocks + 1)).Valid → Region C (S₂.move (S₁.blocks + 1)) [] S₃)
    (hlocals₃ : S₃.locals.get? = S₁.locals.get?) (hback : C.Ends S₃ e) (hoperands : e.operands ⊆ R₂)
    (htargets : ∀ t ∈ e.targets, ∃ x, t = S₁.ref x ∧
      (x = S₁.blocks ∨ x = S₁.blocks + 1 ∨ x = S₁.blocks + 2))
    (hafter : C.Has (S₃.move (S₁.blocks + 2)) ins) (hphi : ins.isPhi = false) :
    Flows C S G (S₃.move (S₁.blocks + 2)) R := by
  intro K hv hhoused hgiven
  obtain ⟨K₁, hc₁, hhoused₁, hr₁⟩ := h K hv hhoused hgiven
  have hv₁ := hc₁.valid hv
  have hregion := hregion hv₁
  have hvt := Region.valid_first hv₁
  have hvb := Region.valid_second hv₁ hregion
  have hb₂ : S₁.blocks + 3 ≤ S₂.blocks := hregion.blocks
  -- the test, the body and what follows all start with what is there before the loop
  have hforks₁ := Site.Forks.extend S₁ C K₁
  have hknown₁ : ((S₁.grow 3).move S₁.blocks).known C _ = S₁.known C K₁ :=
    hforks₁.known_new (by omega) (by omega)
  obtain ⟨K₂, hc₂, -, hr₂⟩ := ht _ hvt (hhoused₁.of rfl hknown₁.ge) fun u hu => hknown₁.ge (hr₁ u (hG₁ hu))
  have hforks₂ : S₁.Forks C K₁ K₂ := hforks₁.trans hc₂.same
  have hknown₂ : (S₂.move (S₁.blocks + 1)).known C K₂ = S₁.known C K₁ :=
    hforks₂.known_new (by omega) (by omega)
  obtain ⟨K₃, hc₃, -, hr₃⟩ := hbody K₂ hvb (hhoused₁.of hlocals₂ hknown₂.ge)
    fun u hu => hknown₂.ge (hr₁ u (hG₂ hu))
  have hcarries := hc₁.loop hv hstart hregion hc₂ (hr₂ _ hb) hfork (hregion' hvb) hc₃ hback
    (fun u hu => hr₃ u (hoperands hu)) htargets hafter hphi
  have hforks₃ : S₁.Forks C K₁ K₃ := hforks₂.trans fun x hx => hc₃.same x (hx.trans_le hb₂)
  have hknown₃ : (S₃.move (S₁.blocks + 2)).known C K₃ = S₁.known C K₁ :=
    hforks₃.known_new (by omega) (by omega)
  exact ⟨K₃, hcarries, hhoused₁.of hlocals₃ hknown₃.ge, fun u hu => hknown₃.ge (hr₁ u hu)⟩

end Flows

/-! ## 2. Phrases -/

/-- What the registers hold that a phrase yields. -/
def Phrase.type : Phrase → RegisterType
  | .op o => o.type
  | .target _ => .address
  | _ => .word

/-- What a phrase refers to. -/
def Phrase.operands : Phrase → List Operand
  | .op o => o.operands
  | .store v slot => [(v, .word), (slot, .address)]
  | .booleanize v => [(v, .word)]
  | .combine _ l r => [(l, .word), (r, .word)]
  | .sequence last _ => last.toList.map (·, .word)
  | _ => []

/-- The registers that a phrase yields, and what they hold. -/
def Phrase.yields (ph : Phrase) (rs : List Register) : List Operand := rs.map (·, ph.type)

namespace Lowered

variable {C : Code} {ph : Phrase} {S S' : Site} {rs : List Register}

attribute [local simp] Phrase.operands Phrase.yields Phrase.type Operation.operands Operation.type

/-- The code of a plain phrase reads only what is there. -/
theorem flows (h : Lowered C ph S rs S') (hplain : ph.Plain) : Flows C S ph.operands S' (ph.yields rs) := by
  -- every piece is put behind the ones before it; `simp` finds its operands among what those yield
  induction h with
  | op hphi hhas => exact .define hhas
  | store hhas => exact .store hhas
  | booleanize _ _ ih₁ ih₂ =>
    exact (((Flows.refl _).seq (ih₁ trivial) (by simp)).seq (ih₂ trivial) (by simp)).weaken (by simp)
  | arithmetic _ _ ih | comparison _ _ ih | number _ ih => exact ih trivial
  | logical _ _ _ _ ih₁ ih₂ ih₃ =>
    exact ((((Flows.refl _).seq (ih₁ trivial) (by simp)).seq (ih₂ trivial) (by simp)).seq
      (ih₃ trivial) (by simp)).weaken (by simp)
  | resultVariable hb h ih =>
    obtain ⟨name, -, hname⟩ := Option.bind_eq_some_iff.mp hb
    exact .slot hname (ih trivial)
  | resultZero _ _ ih | readConstant _ _ _ ih => exact ih trivial
  | readVariable hb _ ih | intrinsic hb _ ih => exact .slot hb (ih trivial)
  | element _ _ ih₁ ih₂ => exact ((ih₁ hplain).seq (ih₂ trivial) (by simp)).weaken (by simp)
  | targetVariable hb => exact .slot hb (.refl _)
  | targetElement hb hi _ ih₁ ih₂ =>
    exact .slot hb ((((Flows.refl _).seq (ih₁ hplain) (by simp)).seq (ih₂ trivial) (by simp)).weaken (by simp))
  | assign _ _ _ ih₁ ih₂ ih₃ =>
    exact (((ih₁ hplain.2).seq (ih₂ hplain.1) (by simp)).seq (ih₃ trivial) (by simp)).weaken (by simp)
  | binary _ _ _ _ ih₁ ih₂ ih₃ =>
    exact (((ih₁ hplain.1).seq (ih₂ hplain.2) (by simp)).seq (ih₃ trivial) (by simp)).weaken (by simp)
  | conditional hc hb hfork ht htend he heend hphi ih₁ ih₂ ih₃ ih₄ =>
    have h₂ := (ih₁ hplain.1).seq (ih₂ trivial) (by simp)
    have hf₃ := ht.follows hplain.2.1
    have hf₄ := he.follows hplain.2.2
    simp only [Site.Follows.move_left, Site.Follows.grow_left] at hf₃ hf₄
    exact h₂.conditional (by simp) hfork (ih₃ hplain.2.1)
      (fun hv => ht.region (Region.valid_first hv) trivial) hf₃.locals htend (ih₄ hplain.2.2)
      (fun hv => he.region hv trivial) (hf₃.trans hf₄).locals heend hphi
  | @whileLoop _ _ _ _ _ _ S _ _ _ _ hstart hc hb hfork hbody hback hlast ih₁ ih₂ ih₃ ih₄ =>
    have hf₂ := (hc.follows hplain.1).trans (hb.follows trivial)
    have hf₃ := hbody.follows hplain.2
    simp only [Site.Follows.move_left, Site.Follows.grow_left] at hf₂ hf₃
    have htest := (ih₁ hplain.1).seq (ih₂ trivial) (by simp)
    have hregion : S.Valid → Region C ((S.grow 3).move S.blocks) [] _ := fun hv =>
      (hc.region (Region.valid_first hv) trivial).seq (Region.valid_first hv) hb.region
    -- what follows the loop starts with an operation that is no merge: nothing is asked of its blocks but notes
    cases hlast with
    | op hphi hhas =>
      have hloop := (Flows.refl S : Flows C S [] S []).loop hstart htest (by simp) (by simp) hregion hf₂.locals
        hfork (ih₃ hplain.2) (by simp) (fun hv => hbody.region hv trivial) (hf₂.trans hf₃).locals hback
        (List.nil_subset _) (fun t ht => ⟨_, List.mem_singleton.mp ht, .inl rfl⟩) hhas rfl
      exact hloop.seq (ih₄ trivial) (by simp)
  | @forLoop name _ _ _ _ slot a z st c₁ t₁ c₂ n t₂ r _ S _ _ _ S₄ _ S₆ S₇ _ _ _ S₁₁ _ hv hstart hset hstop hstep
      hjump hfirst htest hfork hbody hload hnext hstore hagain hback hlast ih₁ ih₂ ih₃ ih₄ ih₅ ih₆ ih₇ ih₈ ih₉
      ih₁₀ ih₁₁ ih₁₂ =>
    have hf₄ := (hstart.follows hplain.1).trans ((hset.follows trivial).trans
      ((hstop.follows hplain.2.1).trans (hstep.follows trivial)))
    have hf₆ := (hfirst.follows trivial).trans (htest.follows trivial)
    simp only [Site.Follows.move_left, Site.Follows.grow_left] at hf₆
    -- inside the body the name of the control variable is out of sight, though its slot is there
    have hslot : S₆.locals.get? name = some ⟨slot, .scalar⟩ := by rw [(hf₄.trans hf₆).locals, hv]
    have hheld := Site.Follows.shadow (S := S₆.move (S₄.blocks + 1)) hslot
    have hgiven := Site.Follows.restore hslot
      (Site.Follows.move_left.mp (hheld.trans (hbody.follows hplain.2.2))).locals
    obtain ⟨hf₁₁, hregion⟩ := hbody.round hslot hplain.2.2 hload hnext hstore hagain
    -- the slot, the bound and the step are there before the test, and so in all rounds
    have h₄ := ((((Flows.refl S).seq (ih₁ hplain.1) (by simp)).seq (ih₂ trivial) (by simp)).seq
      (ih₃ hplain.2.1) (by simp)).seq (ih₄ trivial) (G := [(slot, .address)]) (by simp)
    have htest' := ((Flows.refl ((S₄.grow 3).move S₄.blocks)).seq (ih₅ trivial) (by simp)).seq (ih₆ trivial)
      (G := [(slot, .address), (z, .word)]) (by simp)
    have hround : Flows C (S₆.move (S₄.blocks + 1)) [(slot, .address), (z, .word), (st, .word)] S₁₁ _ :=
      (((((((Flows.refl _).rename hheld.locals).seq (ih₇ hplain.2.2) (by simp)).rename hgiven.locals).seq
        (ih₈ trivial) (by simp)).seq (ih₉ trivial) (by simp)).seq (ih₁₀ trivial) (by simp)).seq
        (ih₁₁ trivial) (by simp)
    have hregion' : S₄.Valid → Region C ((S₄.grow 3).move S₄.blocks) [] S₆ := fun hv =>
      (hfirst.region (Region.valid_first hv) trivial).seq (Region.valid_first hv) htest.region
    have htargets : ∀ t ∈ [S₄.ref (S₄.blocks + 1), S₄.ref (S₄.blocks + 2)], ∃ x, t = S₄.ref x ∧
        (x = S₄.blocks ∨ x = S₄.blocks + 1 ∨ x = S₄.blocks + 2) := by
      intro t ht
      rcases List.mem_pair.mp ht with rfl | rfl
      · exact ⟨_, rfl, .inr (.inl rfl)⟩
      · exact ⟨_, rfl, .inr (.inr rfl)⟩
    cases hlast with
    | op hphi hhas =>
      have hloop := h₄.loop hjump htest' (by simp) (by simp) hregion' hf₆.locals hfork hround (by simp) hregion
        (hf₆.trans (Site.Follows.move_left.mp hf₁₁)).locals hback (by simp [Exit.operands]) htargets hhas rfl
      exact .slot hv ((hloop.seq (ih₁₂ trivial) (by simp)).weaken (by simp))
  | call _ _ _ _ _ ih₁ ih₂ => exact ((ih₁ hplain).seq (ih₂ trivial) (by simp)).weaken (by simp)
  | exit _ hleave _ ih₁ ih₂ =>
    exact (((ih₁ trivial).leave (by simp) hleave).seq (ih₂ trivial) (by simp)).weaken (by simp)
  | block _ ih | value _ ih => exact ih hplain
  | noValue _ _ ih₁ ih₂ => exact ((ih₁ hplain).seq (ih₂ trivial) (by simp)).weaken (by simp)
  | sequenceNil => exact .refl _
  | sequenceCons _ _ ih₁ ih₂ =>
    exact (((Flows.refl _).seq (ih₁ hplain.1) (by simp)).seq (ih₂ hplain.2) (by simp)).weaken (by simp)
  | argumentsNil => exact .refl _
  | argumentsCons _ _ ih₁ ih₂ => exact ((ih₁ hplain.1).seq (ih₂ hplain.2) (by simp)).weaken (by simp)
  | _ => exact absurd hplain id

end Lowered

/-! ## 3. Declarations -/

theorem Flows.declare {C : Code} {S S₁ : Site} {G R : List Operand} {slot : Register} {name : String}
    {shape : Shape} {l : Locals} (h : Flows C S G S₁ R) (hslot : (slot, .address) ∈ R)
    (hl : S₁.locals.declare? name ⟨slot, shape⟩ = some l) : Flows C S G { S₁ with locals := l } R := by
  intro K hv hhoused hgiven
  obtain ⟨K', hc, hhoused', hr⟩ := h K hv hhoused hgiven
  have hstill : Carries C K' S₁ K' { S₁ with locals := l } := .still rfl rfl rfl rfl rfl
  refine ⟨K', hc.trans hv hstill, fun other b hb => ?_, fun u hu => hstill.known (hr u hu)⟩
  change l.get? other = some b at hb
  rw [Locals.get?_declare? hl] at hb
  split at hb
  · rw [← Option.some.inj hb]
    exact hr _ hslot
  · exact hhoused' other b hb

namespace Lowered

variable {C : Code} {S S' : Site} {rs : List Register} {v : Register}

attribute [local simp] Phrase.operands Phrase.yields Phrase.type Operation.operands Operation.type

theorem flows_declaration {d : Node} (h : Lowered C (.node d) S rs S') (hd : d.Declares) :
    rs = [] ∧ Flows C S [] S' [] := by
  cases h with
  | constantDecl _ | forwardKnown _ | forwardNew _ | define _ _ _ => exact ⟨rfl, .still rfl rfl rfl rfl rfl rfl⟩
  | scalarDecl _ hop hl =>
    exact ⟨rfl, ((hop.flows trivial).declare (by simp) hl).weaken (List.nil_subset _)⟩
  | arrayDecl _ hcells hbias hslot hl =>
    have hflows := ((hcells.flows trivial).seq (hbias.flows trivial) (by simp)).seq (hslot.flows trivial) (by simp)
    exact ⟨rfl, (hflows.declare (by simp) hl).weaken (List.nil_subset _)⟩
  | _ => exact absurd hd id

theorem flows_declarations {ds : List Node} (h : Lowered C (.sequence none ds) S rs S')
    (hds : ∀ d ∈ ds, d.Declares) : rs = [] ∧ Flows C S [] S' [] := by
  induction ds generalizing S with
  | nil =>
    cases h
    exact ⟨rfl, .refl _⟩
  | cons d ds ih =>
    cases h with
    | @sequenceCons _ value _ _ _ _ _ _ hn h =>
      obtain ⟨hnone, hfirst⟩ := hn.flows_declaration (hds d List.mem_cons_self)
      obtain rfl : value = none := Option.toList_eq_nil_iff.mp hnone
      obtain ⟨hrs, hrest⟩ := ih h fun d hd => hds d (List.mem_cons_of_mem _ hd)
      exact ⟨hrs, hfirst.seq hrest (by simp)⟩

theorem flows_parameters {i : Nat} {names : List String} (h : Lowered C (.parameters i names) S rs S') :
    Flows C S [] S' [] := by
  induction names generalizing S i with
  | nil =>
    cases h
    exact .refl _
  | cons name names ih =>
    cases h with
    | parametersCons hslot hv hstore hl h =>
      have hflows := ((hslot.flows trivial).seq (hv.flows trivial) (by simp)).seq (hstore.flows trivial) (by simp)
      exact ((hflows.declare (by simp) hl).seq (ih h) (by simp)).weaken (List.nil_subset _)

theorem flows_body {ds rest : List Node} (h : Lowered C (.value (.block (ds ++ rest))) S [v] S')
    (hds : ∀ d ∈ ds, d.Declares) (hplain : Node.AllPlain rest) : Flows C S [] S' [(v, .word)] := by
  -- declarations yield nothing, so the value is one of the statements
  have hblock : ∀ rs S₂, Lowered C (.node (.block (ds ++ rest))) S rs S₂ →
      Flows C S [] S₂ (rs.map (·, .word)) := by
    intro rs S₂ hnode
    cases hnode with
    | block hseq =>
      obtain ⟨last, S₁, hfirst, hrest⟩ := hseq.sequence_append
      obtain ⟨hnone, hflows⟩ := hfirst.flows_declarations hds
      obtain rfl : last = none := Option.toList_eq_nil_iff.mp hnone
      exact hflows.seq (hrest.flows hplain) (by simp)
  cases h with
  | value hn => exact hblock _ _ hn
  | noValue hn h => exact ((hblock _ _ hn).seq (h.flows trivial) (by simp)).weaken (by simp)

theorem flows_subprogram {heading : Prototype} {body : List Node}
    (h : Lowered C (.subprogram heading body) S [v] S') (hbody : heading.Body body) :
    Flows C S [] S' [(v, .word)] := by
  obtain ⟨decls, block, hblock, hshape⟩ := hbody
  cases h with
  | @subprogram _ _ _ _ _ S₁ _ _ _ hparams h =>
    have hbody : Flows C S₁ [] S' [(v, .word)] := by
      cases hkind : heading.kind with
      | function =>
        rw [hkind] at hshape
        subst hshape
        exact h.flows_body (Node.declares_variables _) ⟨hblock, trivial, trivial⟩
      | procedure =>
        rw [hkind] at hshape
        subst hshape
        exact h.flows_body (Node.declares_variables _) ⟨hblock, trivial, trivial⟩
    exact hparams.flows_parameters.seq hbody (List.nil_subset _)

theorem flows_program {p : Program} (h : Lowered C (.program p) S [v] S') (hformed : p.Formed) :
    Flows C S [] S' [(v, .word)] := by
  cases h with
  | program hdecls hbody h =>
    have hfirst := (hdecls.flows_declarations hformed.declarations).2
    exact ((hfirst.seq (hbody.flows hformed.body) (by simp)).seq (h.flows trivial) (by simp)).weaken (by simp)

end Lowered

theorem Program.Compiled.flows {p : Program} {C : Code} {v : Register} {S : Site} (h : p.Compiled C v S)
    (hformed : p.Formed) {g : Nat} (hg : C.blocksOf g ≠ 0) :
    ∃ name G S' v', Region C (.opened g name G) [] S' ∧ Flows C (.opened g name G) [] S' [(v', .word)] ∧
      C.Finishes S' v' := by
  obtain ⟨b, hb⟩ := Code.block_of_lt_blocksOf (Nat.pos_of_ne_zero hg)
  obtain ⟨R, hR⟩ := Code.routine_of_block hb
  have hinternal : R.isExternal ≠ true := by
    intro hexternal
    rw [Code.blocksOf_of_routine hR, Array.isEmpty_iff.mp hexternal] at hg
    exact hg rfl
  cases h.role hformed hR with
  | main hmain _ =>
    subst hmain
    exact ⟨_, _, S, v, h.lowered.region (Site.opened_valid _ _ _) trivial, h.lowered.flows_program hformed,
      h.finishes⟩
  | library _ _ hexternal => exact absurd hexternal hinternal
  | announced _ _ _ hexternal => exact absurd hexternal hinternal
  | defined _ _ _ hcode =>
    obtain ⟨G₁, v', S', hlow, hfinish, -⟩ := hcode.code
    exact ⟨_, _, S', v', hlow.region (Site.opened_valid _ _ _) trivial, hlow.flows_subprogram hcode.shape, hfinish⟩

/-! ## 4. Routines -/

/-- Notes that are right for a whole routine. -/
structure Code.Noted (C : Code) (g : Nat) (K : Notes) : Prop where
  start : K 0 = ∅
  inside : ∀ x i, C.Supplied K g x i
  operands : ∀ x e, C.exit? ⟨g, x⟩ = some e → ∀ u ∈ e.operands, u ∈ C.after K g x
  provides : ∀ x y, C.Edge ⟨g, x⟩ ⟨g, y⟩ → C.Provides K g x ⟨g, y⟩

namespace Code.Whole

variable {C : Code} {g : Nat} {S : Site} {v : Register}

/-- What the return block relies on: the value, if it comes from one block only. -/
def returned (S : Site) (v : Register) : Set Operand :=
  {u | u.2 = .word ∧ ∃ z, (S.leave v).returns = [(u.1, z)]}

/-- What a routine returns is there at the end of the return block. -/
theorem return_operand (h : C.Whole g S v) {value : Register} (hexit : C.exit? ⟨g, 1⟩ = some (.ret value)) :
    (value, .word) ∈ returned S v ∨ C.Yields g 1 0 (value, .word) := by
  have hreturns := h.finishes.returns
  rw [h.routine] at hreturns
  unfold Code.Returns at hreturns
  unfold Code.exit? at hexit
  split at hreturns
  · next w z hsingle =>
    obtain ⟨-, b, hb, -, he⟩ := hreturns
    rw [hb, Option.bind_some, he] at hexit
    obtain rfl := Exit.ret.inj (Option.some.inj hexit)
    exact .inl ⟨rfl, z, hsingle⟩
  · obtain ⟨-, b, hb, hbody, he⟩ := hreturns
    rw [hb, Option.bind_some, he] at hexit
    obtain rfl := Exit.ret.inj (Option.some.inj hexit)
    refine .inr ⟨.phi (S.leave v).returns, ?_, rfl⟩
    unfold Code.instruction?
    rw [hb, Option.bind_some, hbody]
    rfl

variable {name : Option String} {G : Globals} {K : Notes} {x : Nat}

/-- The exits of all blocks but the return block read only what is there, and lead to blocks that rely on it. -/
theorem passes (h : C.Whole g S v) (hflow : Flow C K (.opened g name G) [] S) (hx : x < S.blocks) (hone : x ≠ 1) :
    C.Passes K g S.blocks x := by
  by_cases hlast : x = S.block
  · subst hlast
    have hexit := h.exit_last
    constructor
    · intro e he u hu
      rw [hexit] at he
      rw [← Option.some.inj he] at hu
      exact absurd hu List.not_mem_nil
    · intro e he t ht
      rw [hexit] at he
      rw [← Option.some.inj he] at ht
      rw [List.mem_singleton.mp ht]
      exact .inl rfl
  · exact hflow.done x ⟨owns name G hx hone, hlast, List.not_mem_nil⟩

/-- What is returned is there where it comes from. -/
theorem return_source (hflow : Flow C K (.opened g name G) [] S) (hv : (v, .word) ∈ S.known C K) {w : Register}
    (hmem : (w, (⟨g, x⟩ : BlockRef)) ∈ (S.leave v).returns) : (w, .word) ∈ C.after K g x := by
  rcases List.mem_append.mp hmem with hmem | hmem
  · rcases hflow.returns _ hmem with hmem | hmem
    · exact absurd hmem List.not_mem_nil
    · exact hmem.2.2
  · obtain ⟨rfl, hplace⟩ := Prod.mk.inj (List.mem_singleton.mp hmem)
    rw [(BlockRef.mk.inj hplace).2, (BlockRef.mk.inj hplace).1]
    exact Code.before_subset_after hv

/-- A block that leads to the return block leaves to it what that relies on. -/
theorem provides_return (h : C.Whole g S v) (hedge : C.Edge ⟨g, x⟩ ⟨g, 1⟩) (hone : K 1 = returned S v)
    (hsource : ∀ w, (w, (⟨g, x⟩ : BlockRef)) ∈ (S.leave v).returns → (w, .word) ∈ C.after K g x) :
    C.Provides K g x ⟨g, 1⟩ := by
  constructor
  · change K 1 ⊆ _
    rw [hone]
    rintro ⟨w, t⟩ ⟨ht, z, hsingle⟩
    obtain rfl : t = .word := ht
    -- the one block that a value comes from is the one that leads here
    have hmem := (h.merge_return.2 ⟨g, x⟩).mpr ⟨rfl, hedge⟩
    rw [hsingle] at hmem
    refine hsource w ?_
    rw [hsingle, List.mem_singleton.mp hmem]
    exact List.mem_singleton.mpr rfl
  · intro r L w hins hmem
    obtain ⟨-, -, honly⟩ := h.returns
    rw [Operation.phi.inj (Instruction.define.inj (honly 0 _ hins).2).2] at hmem
    exact hsource w hmem

/-- Right notes for the code of a routine, with those for the return block put in. -/
theorem noted (h : C.Whole g S v)
    (hflow : Flow C K (.opened g name G) [] S) (hstart : K 0 = ∅) (hv : (v, .word) ∈ S.known C K) :
    C.Noted g (Function.update K 1 (returned S v)) := by
  set K' := Function.update K 1 (returned S v) with hK'
  -- only the notes for the return block are exchanged
  have hsame : ∀ x, x ≠ 1 → K' x = K x := fun x hx => Function.update_of_ne hx _ _
  have hone : K' 1 = returned S v := Function.update_self _ _ _
  refine ⟨?_, fun x i ins hins u hu => ?_, fun x e he u hu => ?_, fun x y hedge => ?_⟩
  · rw [hsame 0 Nat.zero_ne_one, hstart]
  · by_cases hx : x = 1
    · subst hx
      -- what is merged in the return block is read in the blocks before it
      obtain ⟨-, -, honly⟩ := h.returns
      rw [(honly i ins hins).2] at hu
      exact absurd hu List.not_mem_nil
    · rw [Code.before_congr (hsame x hx)]
      exact hflow.inside x i (h.holds name G hx hins) ins hins u hu
  · by_cases hx : x = 1
    · subst hx
      obtain ⟨value, hexit, -⟩ := h.returns
      rw [hexit] at he
      rw [← Option.some.inj he] at hu
      rw [List.mem_singleton.mp hu]
      refine (h.return_operand hexit).imp (fun hmem => ?_) fun hyields => ⟨0, hyields⟩
      rw [hone]
      exact hmem
    · rw [Code.after_congr (hsame x hx)]
      exact (h.passes hflow (h.exit_lt he) hx).operands e he u hu
  · obtain ⟨hlt, hx⟩ := h.edge_block hedge
    by_cases hy : y = 1
    · subst hy
      refine h.provides_return hedge hone fun w hmem => ?_
      rw [Code.after_congr (hsame x hx)]
      exact return_source hflow hv hmem
    · obtain ⟨e, he, hmem⟩ := hedge
      rcases (h.passes hflow hlt hx).targets e he _ hmem with hmem | ⟨-, hprovides⟩
      · exact absurd hmem hy
      · exact hprovides.congr (hsame x hx) (hsame y hy)

/-- A register is defined by one instruction of a routine. -/
theorem single (h : C.Whole g S v) {i y j : Nat} {ins ins' : Instruction} {r : Register}
    (hins : C.instruction? ⟨g, x⟩ i = some ins) (hins' : C.instruction? ⟨g, y⟩ j = some ins')
    (hr : ins.target? = some r) (hr' : ins'.target? = some r) : x = y ∧ i = j := by
  obtain ⟨-, -, honly⟩ := h.returns
  -- the merge of the return block defines the last register, and all others define one below
  have hmerge : ∀ {i ins}, C.instruction? ⟨g, 1⟩ i = some ins → ins.target? = some r →
      i = 0 ∧ r = S.registers := by
    intro i ins hins hr
    obtain ⟨hi, rfl⟩ := honly i ins hins
    exact ⟨hi, (Option.some.inj hr).symm⟩
  have hbelow : ∀ {x i ins}, x ≠ 1 → C.instruction? ⟨g, x⟩ i = some ins → ins.target? = some r →
      (r : Nat) < S.registers := by
    intro x i ins hx hins hr
    obtain ⟨_, _, hsound⟩ := h.sound hx hins
    exact (hsound.target r hr).2
  by_cases hx : x = 1 <;> by_cases hy : y = 1
  · subst hx hy
    exact ⟨rfl, (hmerge hins hr).1.trans (hmerge hins' hr').1.symm⟩
  · subst hx
    exact absurd (hmerge hins hr).2 (hbelow hy hins' hr').ne
  · subst hy
    exact absurd (hmerge hins' hr').2 (hbelow hx hins hr).ne
  · obtain ⟨name, globals, hregion⟩ := h.region
    exact hregion.single x i y j ins ins' r (h.holds name globals hx hins)
      (h.holds name globals hy hins') hins hins' hr hr'

end Code.Whole

/-! ## 5. Ways through a routine -/

/-- A way through a routine from its first block on, along exits that may or may not be taken: the instructions on
it, and the place it has come to. -/
inductive Code.Walk (C : Code) (g : Nat) : List Instruction → Nat → Nat → Prop where
  | start : Walk C g [] 0 0
  | step {done : List Instruction} {x i : Nat} {ins : Instruction} (h : Walk C g done x i)
      (hins : C.instruction? ⟨g, x⟩ i = some ins) : Walk C g (done ++ [ins]) x (i + 1)
  | follow {done : List Instruction} {x i y : Nat} (h : Walk C g done x i)
      (hend : C.instruction? ⟨g, x⟩ i = none) (hedge : C.Edge ⟨g, x⟩ ⟨g, y⟩) : Walk C g done y 0

namespace Code.Walk

variable {C : Code} {g : Nat} {K : Notes} {done : List Instruction} {x i : Nat}

/-- What is noted has been defined on every way. -/
theorem defined (hnoted : C.Noted g K) (h : C.Walk g done x i) :
    ∀ u ∈ C.before K g x i, ∃ o, .define u.1 o ∈ done ∧ o.type = u.2 := by
  induction h with
  | start =>
    intro u hu
    rw [Code.before_zero, hnoted.start] at hu
    exact absurd hu (Set.notMem_empty u)
  | @step done x i ins _ hins ih =>
    rintro u (hu | ⟨j, hj, o, ho, ht⟩)
    · obtain ⟨o, hmem, ht⟩ := ih u (.inl hu)
      exact ⟨o, List.mem_append_left _ hmem, ht⟩
    · rcases Nat.lt_succ_iff_lt_or_eq.mp hj with hj | rfl
      · obtain ⟨o, hmem, ht⟩ := ih u (.inr ⟨j, hj, o, ho, ht⟩)
        exact ⟨o, List.mem_append_left _ hmem, ht⟩
      · rw [hins] at ho
        rw [Option.some.inj ho]
        exact ⟨o, List.mem_append_right _ (List.mem_singleton.mpr rfl), ht⟩
  | @follow done x i y _ hend hedge ih =>
    intro u hu
    rw [Code.before_zero] at hu
    exact ih u (Code.after_subset_before hend ((hnoted.provides x y hedge).notes hu))

theorem mem (h : C.Walk g done x i) {ins : Instruction} (hins : ins ∈ done) :
    ∃ y j, C.instruction? ⟨g, y⟩ j = some ins := by
  induction h with
  | start => exact absurd hins List.not_mem_nil
  | @step _ x i _ _ hat ih =>
    rcases List.mem_append.mp hins with hins | hins
    · exact ih hins
    · rw [List.mem_singleton.mp hins]
      exact ⟨x, i, hat⟩
  | follow _ _ _ ih => exact ih hins

end Code.Walk

/-- A register is defined on a way through a routine, and wherever it is defined holds what it is read as. -/
def Code.Supplies (C : Code) (g : Nat) (done : List Instruction) (u : Operand) : Prop :=
  (∃ o, .define u.1 o ∈ done) ∧ ∀ x i o, C.instruction? ⟨g, x⟩ i = some (.define u.1 o) → o.type = u.2

/-- Code in which every register has one definition, which comes before all uses of it. -/
structure Code.WellFormed (C : Code) : Prop where
  /-- A register is defined by one instruction. -/
  single : ∀ g x i y j ins ins' r, C.instruction? ⟨g, x⟩ i = some ins → C.instruction? ⟨g, y⟩ j = some ins' →
    ins.target? = some r → ins'.target? = some r → x = y ∧ i = j
  /-- Instructions read what is defined on all ways to them. -/
  instructions : ∀ g done x i ins, C.Walk g done x i → C.instruction? ⟨g, x⟩ i = some ins →
    ∀ u ∈ ins.operands, C.Supplies g done u
  /-- Exits read what is defined on all ways to them. -/
  exits : ∀ g done x i e, C.Walk g done x i → C.instruction? ⟨g, x⟩ i = none → C.exit? ⟨g, x⟩ = some e →
    ∀ u ∈ e.operands, C.Supplies g done u
  /-- The value that a block merges from another one is defined on all ways through that to the block. -/
  merges : ∀ g done x i y j r L v, C.Walk g done x i → C.instruction? ⟨g, x⟩ i = none →
    C.Edge ⟨g, x⟩ ⟨g, y⟩ → C.instruction? ⟨g, y⟩ j = some (.define r (.phi L)) → (v, ⟨g, x⟩) ∈ L →
    C.Supplies g done (v, .word)
  /-- Only parameters that there are get read. -/
  params : ∀ g x i r index, C.instruction? ⟨g, x⟩ i = some (.define r (.param index)) →
    ∃ R, C.routines[g]? = some R ∧ index < R.params.length

namespace Program.Compiled

variable {p : Program} {C : Code} {v : Register} {S : Site}

theorem noted (h : p.Compiled C v S) (hformed : p.Formed) {a : BlockRef} {b : Block}
    (hb : C.block? a = some b) : ∃ S' v' K, C.Whole a.routine S' v' ∧ C.Noted a.routine K := by
  have hlt : a.block < C.blocksOf a.routine := Code.block_lt_blocksOf hb
  obtain ⟨name, G, S', v', hregion, hflows, hfinish⟩ := h.flows hformed (g := a.routine) (by omega)
  have hwhole : C.Whole a.routine S' v' := ⟨⟨name, G, hregion⟩, hfinish⟩
  -- nothing is there at the start of a routine, and no name is known
  have hhoused : (Site.opened a.routine name G).Housed C fun _ => ∅ := by
    intro other b hb
    rw [Site.get?_opened] at hb
    cases hb
  obtain ⟨K, hcarries, -, hvalue⟩ := hflows _ (Site.opened_valid _ _ _) hhoused
    fun u hu => absurd hu List.not_mem_nil
  have hnoted := hwhole.noted hcarries.flow (hcarries.same 0 Nat.zero_lt_two) (hvalue _ List.mem_cons_self)
  exact ⟨S', v', _, hwhole, hnoted⟩

theorem wellFormed (h : p.Compiled C v S) (hformed : p.Formed) : C.WellFormed := by
  have hroutine : ∀ {g x i ins}, C.instruction? ⟨g, x⟩ i = some ins →
      ∃ S' v' K, C.Whole g S' v' ∧ C.Noted g K := by
    intro g x i ins hins
    obtain ⟨b, hb, -⟩ := Option.bind_eq_some_iff.mp hins
    exact h.noted hformed hb
  -- what is noted was defined on the way, and the one definition says what the register holds
  have hsupplies : ∀ {g S' v' K done x i u}, C.Whole g S' v' → C.Noted g K → C.Walk g done x i →
      u ∈ C.before K g x i → C.Supplies g done u := by
    intro g S' v' K done x i u hwhole hnoted hwalk hu
    obtain ⟨o, hmem, ht⟩ := hwalk.defined hnoted u hu
    refine ⟨⟨o, hmem⟩, fun y j o' hins => ?_⟩
    obtain ⟨x', i', hat⟩ := hwalk.mem hmem
    obtain ⟨rfl, rfl⟩ := hwhole.single hat hins rfl rfl
    rw [hat] at hins
    rw [← (Instruction.define.inj (Option.some.inj hins)).2]
    exact ht
  refine ⟨?_, ?_, ?_, ?_, ?_⟩
  · intro g x i y j ins ins' r hins hins' hr hr'
    obtain ⟨S', v', hwhole⟩ := h.whole_of_instruction hins
    exact hwhole.single hins hins' hr hr'
  · intro g done x i ins hwalk hins u hu
    obtain ⟨S', v', K, hwhole, hnoted⟩ := hroutine hins
    exact hsupplies hwhole hnoted hwalk (hnoted.inside x i ins hins u hu)
  · intro g done x i e hwalk hend he u hu
    obtain ⟨b, hb, -⟩ := Option.bind_eq_some_iff.mp he
    obtain ⟨S', v', K, hwhole, hnoted⟩ := h.noted hformed hb
    exact hsupplies hwhole hnoted hwalk (Code.after_subset_before hend (hnoted.operands x e he u hu))
  · intro g done x i y j r L w hwalk hend hedge hins hmem
    obtain ⟨S', v', K, hwhole, hnoted⟩ := hroutine hins
    rw [(hwhole.merge hins).1] at hins
    exact hsupplies hwhole hnoted hwalk
      (Code.after_subset_before hend ((hnoted.provides x y hedge).merges r L w hins hmem))
  · intro g x i r index hins
    obtain ⟨S', v', hwhole⟩ := h.whole_of_instruction hins
    by_cases hone : x = 1
    · subst hone
      obtain ⟨-, -, honly⟩ := hwhole.returns
      cases (honly i _ hins).2
    · obtain ⟨name, globals, hsound⟩ := hwhole.sound hone hins
      obtain ⟨callee, params, hheading, hindex⟩ := hsound.fits r _ rfl
      obtain ⟨R, hR, hnames⟩ := Option.map_eq_some_iff.mp hheading
      exact ⟨R, hR, by rw [(Prod.mk.inj hnames).2]; exact hindex⟩

end Program.Compiled

/-- The code of a source text is well formed, and a run of it does not end for want of a routine, a block or a
register. -/
theorem compile_wellFormed {source : String} {C : Code} (h : compile source = .ok C) :
    C.WellFormed ∧ ∀ input L, C.run input L ≠ .error .missingEntryPoint ∧
      ∀ defect, C.run input L ≠ .error (.malformed defect) := by
  obtain ⟨p, -, hformed, v, S, hcompiled⟩ := compile_spec h
  exact ⟨hcompiled.wellFormed hformed, fun input L => ⟨fun hrun => (hcompiled.run_fault hformed hrun).1 rfl,
    fun defect hrun => (hcompiled.run_fault hformed hrun).2 defect rfl⟩⟩

/-- A program with a loop that is left early: the block after the exit has no predecessor, and a value is merged
from it nonetheless. -/
def leaving : String :=
  "program p; function f(n: integer): integer; var i: integer; s: array [0 .. 9] of integer; " ++
  "begin f := 0; for i := 1 to n do begin if i = 3 then exit; s[i] := f + i; f := s[i] end end; " ++
  "begin writeln(f(5)) end."

theorem compile_leaving_wellFormed : ∃ C, compile leaving = .ok C ∧ C.WellFormed ∧
    C.run [] ⟨5, 1⟩ ≠ .error .missingEntryPoint := by
  obtain ⟨C, hC⟩ : ∃ C, compile leaving = .ok C := exists_code (by decide +kernel)
  exact ⟨C, hC, (compile_wellFormed hC).1, ((compile_wellFormed hC).2 _ _).1⟩

end Mila
