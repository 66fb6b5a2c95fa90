import Mila.Proofs.Lowered

/-! # Regions of code

The code of a phrase is a region of its routine: the rest of the block it starts in, and all blocks that
were added since. A block that was added to be gone on in later is pending until the compilation gets
there. This module says what a region is like, and how regions are put together.
-/

namespace Mila

/-- The blocks that an exit leads to. -/
def Exit.targets : Exit → List BlockRef
  | jump target => [target]
  | branch _ thenBlock elseBlock => [thenBlock, elseBlock]
  | ret _ => []

def Exit.isRet : Exit → Bool
  | ret _ => true
  | _ => false

theorem Instruction.isPhi_iff {ins : Instruction} : ins.isPhi = true ↔ ∃ r L, ins = .define r (.phi L) := by
  constructor
  · intro h
    cases ins with
    | store v a => cases h
    | define r o =>
      cases o with
      | phi L => exact ⟨r, L, rfl⟩
      | _ => cases h
  · rintro ⟨r, L, rfl⟩
    rfl

namespace Code

/-- The first block may be followed by the second one. -/
def Edge (C : Code) (a b : BlockRef) : Prop := ∃ e, C.exit? a = some e ∧ b ∈ e.targets

/-- The values that the second block merges, if it does, include one from the first. -/
def Merges (C : Code) (a b : BlockRef) : Prop :=
  ∀ r L, C.instruction? b 0 = some (.define r (.phi L)) → a ∈ L.map Prod.snd

/-- A block that merges no values. -/
def Direct (C : Code) (b : BlockRef) : Prop := ∀ r L, C.instruction? b 0 ≠ some (.define r (.phi L))

variable {C : Code} {S : Site} {e : Exit}

theorem Direct.merges {b : BlockRef} (h : C.Direct b) (a : BlockRef) : C.Merges a b :=
  fun r L hins => absurd hins (h r L)

theorem Has.instruction? {i : Instruction} (h : C.Has S i) : C.instruction? S.place S.index = some i := by
  obtain ⟨b, hb, hi⟩ := h
  unfold Code.instruction?
  rw [hb, Option.bind_some, hi]

theorem Ends.exit? (h : C.Ends S e) : C.exit? S.place = some e := by
  obtain ⟨b, hb, -, he⟩ := h
  unfold Code.exit?
  rw [hb, Option.bind_some, he]

theorem Ends.instruction? (h : C.Ends S e) {i : Nat} (hi : S.index ≤ i) : C.instruction? S.place i = none := by
  obtain ⟨b, hb, hsize, -⟩ := h
  unfold Code.instruction?
  rw [hb, Option.bind_some]
  exact Array.getElem?_eq_none (hsize.trans_le hi)

theorem Ends.edge (h : C.Ends S e) {t : BlockRef} (ht : t ∈ e.targets) : C.Edge S.place t := ⟨e, h.exit?, ht⟩

end Code

/-- What an operation asks of the code around it: a call passes as many arguments as the routine that it
names has parameters, and only parameters that there are get read. -/
def Operation.Fits (C : Code) (routine : Nat) : Operation → Prop
  | .call callee args => ∃ name params, C.heading? callee = some (name, params) ∧
      params.length = args.length
  | .param index => ∃ name params, C.heading? routine = some (name, params) ∧ index < params.length
  | _ => True

/-- A site in a routine that has its first two blocks, outside the return block. -/
structure Site.Valid (S : Site) : Prop where
  blocks : 1 < S.blocks
  block : S.block < S.blocks
  notReturn : S.block ≠ 1

theorem Site.Valid.move {S : Site} (h : S.Valid) {x : Nat} (hx : x < S.blocks) (hone : x ≠ 1) :
    (S.move x).Valid := ⟨h.blocks, hx, hone⟩

theorem Site.Valid.grow {S : Site} (h : S.Valid) (k : Nat) : (S.grow k).Valid :=
  ⟨Nat.lt_add_right k h.blocks, Nat.lt_add_right k h.block, h.notReturn⟩

/-! ## 1. What a region is -/

/-- The blocks of a region. -/
def Site.Owns (S S' : Site) (x : Nat) : Prop := x = S.block ∨ (S.blocks ≤ x ∧ x < S'.blocks)

/-- The blocks of a region that are complete. -/
def Site.Done (S : Site) (P : List Nat) (S' : Site) (x : Nat) : Prop :=
  S.Owns S' x ∧ x ≠ S'.block ∧ x ∉ P

/-- The places of the instructions of a region. -/
def Site.Holds (S : Site) (P : List Nat) (S' : Site) (x i : Nat) : Prop :=
  S.Owns S' x ∧ x ∉ P ∧ (x = S.block → S.index ≤ i) ∧ (x = S'.block → i < S'.index)

/-- How the site after some code lies to the site before it, with a list of pending blocks. -/
structure Site.Stretch (S : Site) (P : List Nat) (S' : Site) : Prop where
  routine : S'.routine = S.routine
  blocks : S.blocks ≤ S'.blocks
  place : (S'.block = S.block ∧ S.index ≤ S'.index) ∨ (S.blocks ≤ S'.block ∧ S'.block < S'.blocks)
  pending : ∀ p ∈ P, S.blocks ≤ p ∧ p < S'.blocks ∧ p ≠ S'.block
  nodup : P.Nodup

namespace Site.Stretch

variable {S S' S₁ S₂ : Site} {P : List Nat}

theorem valid (h : S.Stretch P S') (hv : S.Valid) : S'.Valid := by
  have hb := h.blocks
  obtain ⟨h1, h2, h3⟩ := hv
  rcases h.place with ⟨hp, -⟩ | ⟨hp, hlt⟩
  · exact ⟨by omega, by omega, by omega⟩
  · exact ⟨by omega, hlt, by omega⟩

variable {x i : Nat}

theorem holds_extend (hblock : S₂.block = S₁.block) (hindex : S₂.index = S₁.index + 1)
    (hblocks : S₂.blocks = S₁.blocks) (h : S.Holds P S₂ x i) : S.Holds P S₁ x i ∨ (x = S₁.block ∧ i = S₁.index) := by
  obtain ⟨ho, hp, hlo, hhi⟩ := h
  unfold Site.Owns at ho
  rw [hblocks] at ho
  rw [hblock, hindex] at hhi
  by_cases hx : x = S₁.block ∧ i = S₁.index
  · exact .inr hx
  · exact .inl ⟨ho, hp, hlo, fun he => by have := hhi he; omega⟩

theorem done_extend (hblock : S₂.block = S₁.block) (hblocks : S₂.blocks = S₁.blocks) (x : Nat) :
    S.Done P S₂ x ↔ S.Done P S₁ x := by
  unfold Site.Done Site.Owns
  rw [hblock, hblocks]

theorem sub (hv : S.Valid) (h : S.Stretch P S₁) (h' : S₁.Stretch [] S₂) : S.Stretch P S₂ := by
  have hb := h.blocks
  have hb' := h'.blocks
  have hlt := (h.valid hv).block
  have hplace := h.place
  have hplace' := h'.place
  refine ⟨h'.routine.trans h.routine, by omega, by omega, fun p hp => ?_, h.nodup⟩
  obtain ⟨h₁, h₂, h₃⟩ := h.pending p hp
  exact ⟨h₁, by omega, by omega⟩

/-- The current block of later code is not pending, and neither are the new ones. -/
theorem not_pending (h : S.Stretch P S₁) (hx : x = S₁.block ∨ S₁.blocks ≤ x) : x ∉ P := by
  intro hmem
  obtain ⟨-, h₁, h₂⟩ := h.pending x hmem
  omega

theorem done_sub (hv : S.Valid) (h : S.Stretch P S₁) (h' : S₁.Stretch [] S₂) (x : Nat) :
    S.Done P S₂ x ↔ S.Done P S₁ x ∨ S₁.Done [] S₂ x := by
  have hb := h.blocks
  have hb' := h'.blocks
  have hlt := (h.valid hv).block
  have hlt₀ := hv.block
  have hplace := h.place
  have hplace' := h'.place
  constructor
  · rintro ⟨ho, hne, hp⟩
    -- what is not done at the first stop is the block at hand there, or new
    by_cases hx₁ : x = S₁.block
    · exact .inr ⟨.inl hx₁, hne, List.not_mem_nil⟩
    · by_cases hx₂ : x < S₁.blocks
      · exact .inl ⟨ho.imp_right fun h => ⟨h.1, hx₂⟩, hx₁, hp⟩
      · refine .inr ⟨.inr ?_, hne, List.not_mem_nil⟩
        rcases ho with ho | ho <;> omega
  · rintro (⟨ho, hne, hp⟩ | ⟨ho, hne, -⟩)
    · refine ⟨ho.imp_right fun h => ⟨h.1, by omega⟩, ?_, hp⟩
      rcases ho with ho | ho <;> omega
    · refine ⟨?_, hne, h.not_pending (ho.imp_right And.left)⟩
      unfold Site.Owns
      rcases ho with ho | ho <;> omega

theorem holds_sub (hv : S.Valid) (h : S.Stretch P S₁) (hx : S.Holds P S₂ x i) :
    S.Holds P S₁ x i ∨ S₁.Holds [] S₂ x i := by
  have hb := h.blocks
  have hlt := (h.valid hv).block
  have hlt₀ := hv.block
  have hplace := h.place
  obtain ⟨ho, hp, hlo, hhi⟩ := hx
  by_cases hx₁ : x = S₁.block
  · by_cases hi : i < S₁.index
    · refine .inl ⟨?_, hp, hlo, fun _ => hi⟩
      unfold Site.Owns
      omega
    · exact .inr ⟨.inl hx₁, List.not_mem_nil, fun _ => by omega, hhi⟩
  · by_cases hx₂ : x < S₁.blocks
    · exact .inl ⟨ho.imp_right fun h => ⟨h.1, hx₂⟩, hp, hlo, fun h => absurd h hx₁⟩
    · refine .inr ⟨.inr ?_, List.not_mem_nil, fun h => absurd h hx₁, hhi⟩
      rcases ho with ho | ho <;> omega

theorem fork (hv : S.Valid) (h : S.Stretch [] S₁) (k : Nat) : S.Stretch (List.range' S₁.blocks k) (S₁.grow k) := by
  have hb := h.blocks
  have hlt := (h.valid hv).block
  refine ⟨h.routine, hb.trans (Nat.le_add_right _ _), ?_, fun p hp => ?_, List.nodup_range'⟩
  · exact h.place.imp_right fun ⟨h₁, h₂⟩ => ⟨h₁, Nat.lt_add_right k h₂⟩
  · obtain ⟨h₁, h₂⟩ := List.mem_range'_1.mp hp
    exact ⟨hb.trans h₁, h₂, Nat.ne_of_gt (hlt.trans_le h₁)⟩

theorem done_fork (hv : S.Valid) (h : S.Stretch [] S₁) (k x : Nat) :
    S.Done (List.range' S₁.blocks k) (S₁.grow k) x ↔ S.Done [] S₁ x := by
  have hb := h.blocks
  have hlt := hv.block
  unfold Site.Done Site.Owns
  rw [List.mem_range'_1]
  change (_ ∨ _ ∧ _ < S₁.blocks + k) ∧ _ ∧ _ ↔ _
  have hnil : x ∉ ([] : List Nat) := List.not_mem_nil
  constructor
  · rintro ⟨ho, hne, hp⟩
    exact ⟨by omega, hne, hnil⟩
  · rintro ⟨ho, hne, -⟩
    exact ⟨by omega, hne, by omega⟩

theorem holds_fork {k : Nat} (hx : S.Holds (List.range' S₁.blocks k) (S₁.grow k) x i) : S.Holds [] S₁ x i := by
  obtain ⟨ho, hp, hlo, hhi⟩ := hx
  rw [List.mem_range'_1] at hp
  refine ⟨?_, List.not_mem_nil, hlo, hhi⟩
  unfold Site.Owns at ho ⊢
  change _ ∨ _ ∧ _ < S₁.blocks + k at ho
  omega

variable {p : Nat}

theorem close (h : S.Stretch (p :: P) S₁) (hblock : S₂.block = p) (hblocks : S₂.blocks = S₁.blocks)
    (hroutine : S₂.routine = S₁.routine) : S.Stretch P S₂ := by
  obtain ⟨hp₁, hp₂, -⟩ := h.pending p List.mem_cons_self
  obtain ⟨hpP, hnodup⟩ := List.nodup_cons.mp h.nodup
  refine ⟨hroutine.trans h.routine, hblocks ▸ h.blocks, .inr ?_, fun q hq => ?_, hnodup⟩
  · rw [hblock, hblocks]
    exact ⟨hp₁, hp₂⟩
  · obtain ⟨h₁, h₂, -⟩ := h.pending q (List.mem_cons_of_mem _ hq)
    rw [hblock, hblocks]
    refine ⟨h₁, h₂, ?_⟩
    rintro rfl
    exact hpP hq

theorem done_close (hv : S.Valid) (h : S.Stretch (p :: P) S₁) (hblock : S₂.block = p)
    (hblocks : S₂.blocks = S₁.blocks) (x : Nat) : S.Done P S₂ x ↔ S.Done (p :: P) S₁ x ∨ x = S₁.block := by
  have hlt := (h.valid hv).block
  have hplace := h.place
  obtain ⟨-, -, hp₃⟩ := h.pending p List.mem_cons_self
  have howns : S.Owns S₁ S₁.block := by
    unfold Site.Owns
    omega
  have hnot : S₁.block ∉ P := fun hmem => (h.pending _ (List.mem_cons_of_mem _ hmem)).2.2 rfl
  unfold Site.Done Site.Owns
  rw [hblock, hblocks, List.mem_cons, not_or]
  constructor
  · rintro ⟨ho, hne, hp⟩
    by_cases hx : x = S₁.block
    · exact .inr hx
    · exact .inl ⟨ho, hx, hne, hp⟩
  · rintro (⟨ho, hne, hne', hp⟩ | rfl)
    · exact ⟨ho, hne', hp⟩
    · exact ⟨howns, Ne.symm hp₃, hnot⟩

/-- A block that is closed has no places behind its end but those without an instruction. -/
theorem holds_close (hblock : S₂.block = p) (hindex : S₂.index = 0) (hblocks : S₂.blocks = S₁.blocks)
    (hx : S.Holds P S₂ x i) : S.Holds (p :: P) S₁ x i ∨ (x = S₁.block ∧ S₁.index ≤ i) := by
  obtain ⟨ho, hp, hlo, hhi⟩ := hx
  rw [hblock, hindex] at hhi
  unfold Site.Owns at ho
  rw [hblocks] at ho
  have hne : x ≠ p := fun he => absurd (hhi he) (Nat.not_lt_zero i)
  by_cases hend : x = S₁.block ∧ S₁.index ≤ i
  · exact .inr hend
  · refine .inl ⟨ho, ?_, hlo, fun he => by omega⟩
    rw [List.mem_cons, not_or]
    exact ⟨hne, hp⟩

end Site.Stretch

/-- What holds of an instruction of a region. -/
structure Code.Sound (C : Code) (S S' : Site) (x i : Nat) (ins : Instruction) : Prop where
  target : ∀ r : Nat, ins.target? = some r → S.registers ≤ r ∧ r < S'.registers
  fits : ∀ r o, ins = .define r o → o.Fits C S.routine
  phi : ∀ r L, ins = .define r (.phi L) → S.blocks ≤ x ∧ i = 0 ∧ (L.map Prod.snd).Nodup ∧
    ∀ z ∈ L.map Prod.snd, z.routine = S.routine ∧ C.Edge z ⟨S.routine, x⟩

/-- The code between two sites of a routine, with a list of pending blocks. -/
structure Region (C : Code) (S : Site) (P : List Nat) (S' : Site) : Prop where
  routine : S'.routine = S.routine
  blocks : S.blocks ≤ S'.blocks
  registers : S.registers ≤ S'.registers
  place : (S'.block = S.block ∧ S.index ≤ S'.index) ∨ (S.blocks ≤ S'.block ∧ S'.block < S'.blocks)
  pending : ∀ p ∈ P, S.blocks ≤ p ∧ p < S'.blocks ∧ p ≠ S'.block
  nodup : P.Nodup
  done : ∀ x, S.Done P S' x → ∃ e, C.exit? ⟨S.routine, x⟩ = some e ∧ e.isRet = false ∧
    ∀ t ∈ e.targets, t.routine = S.routine ∧
      (t.block = 1 ∨ (S.blocks ≤ t.block ∧ t.block < S'.blocks ∧ C.Merges ⟨S.routine, x⟩ t))
  sound : ∀ x i ins, S.Holds P S' x i → C.instruction? ⟨S.routine, x⟩ i = some ins →
    C.Sound S S' x i ins
  single : ∀ x i y j ins ins' r, S.Holds P S' x i → S.Holds P S' y j →
    C.instruction? ⟨S.routine, x⟩ i = some ins → C.instruction? ⟨S.routine, y⟩ j = some ins' →
    ins.target? = some r → ins'.target? = some r → x = y ∧ i = j
  returns : ∃ R, S'.returns = S.returns ++ R ∧ (R.map Prod.snd).Nodup ∧
    ∀ z, z ∈ R.map Prod.snd ↔ z.routine = S.routine ∧ S.Done P S' z.block ∧ C.Edge z ⟨S.routine, 1⟩

namespace Region

variable {C : Code} {S S' S₁ S₂ : Site} {P : List Nat}

theorem stretch (h : Region C S P S') : S.Stretch P S' :=
  ⟨h.routine, h.blocks, h.place, h.pending, h.nodup⟩

theorem valid (h : Region C S P S') (hv : S.Valid) : S'.Valid := h.stretch.valid hv

theorem place_eq (h : Region C S P S') : S'.place = ⟨S.routine, S'.block⟩ := by
  unfold Site.place
  rw [h.routine]

/-! ## 2. Straight code -/

/-- No block of a region is done as long as the site stays in its first one. -/
theorem not_done (hblock : S'.block = S.block) (hblocks : S'.blocks = S.blocks) (x : Nat) : ¬ S.Done [] S' x := by
  rintro ⟨hx | hx, hne, -⟩ <;> omega

theorem no_returns (hblock : S'.block = S.block) (hblocks : S'.blocks = S.blocks)
    (hreturns : S'.returns = S.returns) : ∃ R, S'.returns = S.returns ++ R ∧ (R.map Prod.snd).Nodup ∧
      ∀ z, z ∈ R.map Prod.snd ↔ z.routine = S.routine ∧ S.Done [] S' z.block ∧
        C.Edge z ⟨S.routine, 1⟩ := by
  refine ⟨[], by rw [hreturns, List.append_nil], List.nodup_nil, fun z => ?_⟩
  constructor
  · intro hz
    cases hz
  · rintro ⟨-, hz, -⟩
    exact absurd hz (not_done hblock hblocks _)

/-- Names and the like do not matter to a region. -/
theorem still (hroutine : S'.routine = S.routine) (hblock : S'.block = S.block)
    (hindex : S'.index = S.index) (hblocks : S'.blocks = S.blocks)
    (hregisters : S'.registers = S.registers) (hreturns : S'.returns = S.returns) : Region C S [] S' where
  routine := hroutine
  blocks := hblocks.ge
  registers := hregisters.ge
  place := .inl ⟨hblock, hindex.ge⟩
  pending p hp := by cases hp
  nodup := List.nodup_nil
  done x hx := absurd hx (not_done hblock hblocks x)
  sound x i ins h _ := by
    obtain ⟨hx | hx, -, hlo, hhi⟩ := h <;> omega
  single x i y j _ _ _ h _ _ _ _ _ := by
    obtain ⟨hx | hx, -, hlo, hhi⟩ := h <;> omega
  returns := no_returns hblock hblocks hreturns

variable {x p : Nat} {ins : Instruction} {e : Exit} {L : List (Register × BlockRef)} {b : Register}

/-- An instruction of a part of a region is sound in the region. -/
theorem sound_mono {T T' : Site} {i : Nat} (h : C.Sound T T' x i ins)
    (hroutine : T.routine = S.routine) (hblocks : S.blocks ≤ T.blocks)
    (hlo : S.registers ≤ T.registers) (hhi : T'.registers ≤ S'.registers) : C.Sound S S' x i ins := by
  refine ⟨fun r hr => ?_, fun r o he => ?_, fun r L he => ?_⟩
  · obtain ⟨h₁, h₂⟩ := h.target r hr
    omega
  · rw [← hroutine]
    exact h.fits r o he
  · obtain ⟨h₁, h₂, h₃, h₄⟩ := h.phi r L he
    rw [hroutine] at h₄
    exact ⟨by omega, h₂, h₃, h₄⟩

theorem extend (h : Region C S P S₁) (hhas : C.Has S₁ ins)
    (hroutine : S₂.routine = S₁.routine) (hblock : S₂.block = S₁.block)
    (hindex : S₂.index = S₁.index + 1) (hblocks : S₂.blocks = S₁.blocks)
    (hregisters : S₁.registers ≤ S₂.registers) (hreturns : S₂.returns = S₁.returns)
    (hfresh : ∀ r : Nat, ins.target? = some r → S₁.registers ≤ r)
    (hsound : C.Sound S S₂ S₁.block S₁.index ins) : Region C S P S₂ := by
  have hat := hhas.instruction?
  rw [h.place_eq] at hat
  have hdone : ∀ x, S.Done P S₂ x ↔ S.Done P S₁ x := Site.Stretch.done_extend hblock hblocks
  have hholds : ∀ x i, S.Holds P S₂ x i → S.Holds P S₁ x i ∨ (x = S₁.block ∧ i = S₁.index) :=
    fun x i => Site.Stretch.holds_extend hblock hindex hblocks
  have hr := h.registers
  refine ⟨hroutine.trans h.routine, hblocks ▸ h.blocks, hr.trans hregisters, ?_, ?_, h.nodup, ?_, ?_,
    ?_, ?_⟩
  · rw [hblock, hblocks, hindex]
    exact h.place.imp_left fun ⟨h₁, h₂⟩ => ⟨h₁, by omega⟩
  · rw [hblock, hblocks]
    exact h.pending
  · intro x hx
    rw [hblocks]
    exact h.done x ((hdone x).mp hx)
  · intro x i ins' hx hins
    rcases hholds x i hx with hx | ⟨rfl, rfl⟩
    · exact sound_mono (h.sound x i ins' hx hins) rfl (Nat.le_refl _) (Nat.le_refl _) hregisters
    · rw [hat] at hins
      rw [← Option.some.inj hins]
      exact hsound
  · intro x i y j ins₁ ins₂ r hx hy hins₁ hins₂ ht₁ ht₂
    -- a register of the code before is older than one that the new instruction defines
    rcases hholds x i hx with hx | ⟨rfl, rfl⟩ <;> rcases hholds y j hy with hy | ⟨rfl, rfl⟩
    · exact h.single x i y j ins₁ ins₂ r hx hy hins₁ hins₂ ht₁ ht₂
    · have h₁ := (h.sound x i ins₁ hx hins₁).target r ht₁
      rw [hat] at hins₂
      rw [← Option.some.inj hins₂] at ht₂
      have h₂ := hfresh r ht₂
      omega
    · have h₁ := (h.sound y j ins₂ hy hins₂).target r ht₂
      rw [hat] at hins₁
      rw [← Option.some.inj hins₁] at ht₁
      have h₂ := hfresh r ht₁
      omega
    · exact ⟨rfl, rfl⟩
  · rw [hreturns]
    obtain ⟨R, hR, hnodup, hmem⟩ := h.returns
    exact ⟨R, hR, hnodup, fun z => by rw [hmem, hdone]⟩

theorem refl (S : Site) : Region C S [] S := still rfl rfl rfl rfl rfl rfl

theorem op {o : Operation} (hphi : o.isPhi = false) (hfits : o.Fits C S.routine)
    (hhas : C.Has S (.define S.registers o)) : Region C S [] S.next := by
  refine (refl S).extend hhas rfl rfl rfl rfl (Nat.le_succ _) rfl ?_ ⟨?_, ?_, ?_⟩
  · intro r hr
    exact (Option.some.inj hr).le
  · intro r hr
    rw [← Option.some.inj hr]
    exact ⟨Nat.le_refl _, Nat.lt_succ_self _⟩
  · intro r o' h
    rw [← (Instruction.define.inj h).2]
    exact hfits
  · intro r L h
    rw [(Instruction.define.inj h).2] at hphi
    cases hphi

theorem store {v a : Register} (hhas : C.Has S (.store v a)) : Region C S [] S.skip := by
  refine (refl S).extend hhas rfl rfl rfl rfl (Nat.le_refl _) rfl ?_ ⟨?_, ?_, ?_⟩
  · intro r hr
    cases hr
  · intro r hr
    cases hr
  · intro r o h
    cases h
  · intro r L h
    cases h

/-! ## 3. Regions put together -/

theorem sub (hv : S.Valid) (h : Region C S P S₁) (h' : Region C S₁ [] S₂) : Region C S P S₂ := by
  have hb := h.blocks
  have hb' := h'.blocks
  have hr := h.registers
  have hr' := h'.registers
  have hlt := (h.valid hv).block
  have hlt₀ := hv.block
  have hstretch := h.stretch.sub hv h'.stretch
  have hdone := h.stretch.done_sub hv h'.stretch
  have hholds : ∀ x i, S.Holds P S₂ x i → S.Holds P S₁ x i ∨ S₁.Holds [] S₂ x i :=
    fun x i => h.stretch.holds_sub hv
  refine ⟨hstretch.routine, hstretch.blocks, by omega, hstretch.place, hstretch.pending, h.nodup, ?_, ?_,
    ?_, ?_⟩
  · intro x hx
    rcases (hdone x).mp hx with hx | hx
    · obtain ⟨e, he, hret, ht⟩ := h.done x hx
      refine ⟨e, he, hret, fun t hmem => ?_⟩
      obtain ⟨h₁, h₂⟩ := ht t hmem
      exact ⟨h₁, h₂.imp_right fun ⟨h₂, h₃, h₄⟩ => ⟨h₂, by omega, h₄⟩⟩
    · obtain ⟨e, he, hret, ht⟩ := h'.done x hx
      rw [h.routine] at he ht
      refine ⟨e, he, hret, fun t hmem => ?_⟩
      obtain ⟨h₁, h₂⟩ := ht t hmem
      exact ⟨h₁, h₂.imp_right fun ⟨h₂, h₃, h₄⟩ => ⟨by omega, h₃, h₄⟩⟩
  · intro x i ins hx hins
    rcases hholds x i hx with hx | hx
    · exact sound_mono (h.sound x i ins hx hins) rfl (Nat.le_refl _) (Nat.le_refl _) hr'
    · rw [← h.routine] at hins
      exact sound_mono (h'.sound x i ins hx hins) h.routine hb hr (Nat.le_refl _)
  · intro x i y j ins ins' r hx hy hins hins' ht ht'
    -- the registers of the first region are older than those of the second
    rcases hholds x i hx with hx | hx <;> rcases hholds y j hy with hy | hy
    · exact h.single x i y j ins ins' r hx hy hins hins' ht ht'
    · have h₁ := (h.sound x i ins hx hins).target r ht
      rw [← h.routine] at hins'
      have h₂ := (h'.sound y j ins' hy hins').target r ht'
      omega
    · have h₁ := (h.sound y j ins' hy hins').target r ht'
      rw [← h.routine] at hins
      have h₂ := (h'.sound x i ins hx hins).target r ht
      omega
    · rw [← h.routine] at hins hins'
      exact h'.single x i y j ins ins' r hx hy hins hins' ht ht'
  · obtain ⟨R, hR, hnodup, hmem⟩ := h.returns
    obtain ⟨R', hR', hnodup', hmem'⟩ := h'.returns
    rw [h.routine] at hmem'
    refine ⟨R ++ R', by rw [hR', hR, List.append_assoc], ?_, fun z => ?_⟩
    · rw [List.map_append]
      -- no block is done in both
      refine hnodup.append hnodup' fun z hz hz' => ?_
      obtain ⟨-, ⟨ho, hne, -⟩, -⟩ := (hmem z).mp hz
      obtain ⟨-, ⟨ho', hne', -⟩, -⟩ := (hmem' z).mp hz'
      rcases ho with ho | ho <;> rcases ho' with ho' | ho' <;> omega
    · rw [List.map_append, List.mem_append, hmem, hmem', hdone]
      tauto

/-- One region behind another that depends on the first being in place. -/
theorem seq (hv : S.Valid) (h : Region C S P S₁) (h' : S₁.Valid → True → Region C S₁ [] S₂) :
    Region C S P S₂ := h.sub hv (h' (h.valid hv) trivial)

theorem fork (hv : S.Valid) (h : Region C S [] S₁) (k : Nat) : Region C S (List.range' S₁.blocks k) (S₁.grow k) := by
  have hb := h.blocks
  have hgrow : (S₁.grow k).blocks = S₁.blocks + k := rfl
  have hstretch := h.stretch.fork hv k
  have hdone := h.stretch.done_fork hv k
  have hholds : ∀ x i, S.Holds (List.range' S₁.blocks k) (S₁.grow k) x i → S.Holds [] S₁ x i :=
    fun x i => Site.Stretch.holds_fork
  refine ⟨h.routine, hstretch.blocks, h.registers, hstretch.place, hstretch.pending, hstretch.nodup, ?_,
    ?_, ?_, ?_⟩
  · intro x hx
    obtain ⟨e, he, hret, ht⟩ := h.done x ((hdone x).mp hx)
    refine ⟨e, he, hret, fun t hmem => ?_⟩
    obtain ⟨h₁, h₂⟩ := ht t hmem
    exact ⟨h₁, h₂.imp_right fun ⟨h₂, h₃, h₄⟩ => ⟨h₂, by omega, h₄⟩⟩
  · intro x i ins hx hins
    exact sound_mono (h.sound x i ins (hholds x i hx) hins) rfl (Nat.le_refl _) (Nat.le_refl _)
      (Nat.le_refl _)
  · intro x i y j ins ins' r hx hy
    exact h.single x i y j ins ins' r (hholds x i hx) (hholds y j hy)
  · obtain ⟨R, hR, hnodup, hmem⟩ := h.returns
    exact ⟨R, hR, hnodup, fun z => by rw [hmem, hdone]⟩

/-- A block that ends with a jump to the return block is a further way to leave the routine. -/
theorem returns_close (h : Region C S (p :: P) S₁)
    (hends : C.Ends S₁ e) (hreturns : L.map Prod.snd = if S₁.ref 1 ∈ e.targets then [S₁.place] else [])
    (hdone : ∀ x, S.Done P S₂ x ↔ S.Done (p :: P) S₁ x ∨ x = S₁.block) :
    ∃ R, S₁.returns ++ L = S.returns ++ R ∧ (R.map Prod.snd).Nodup ∧ ∀ z, z ∈ R.map Prod.snd ↔
      z.routine = S.routine ∧ S.Done P S₂ z.block ∧ C.Edge z ⟨S.routine, 1⟩ := by
  obtain ⟨R, hR, hnodup, hmem⟩ := h.returns
  -- the block at hand was not done before
  have hold : S₁.place ∉ R.map Prod.snd := by
    rw [hmem]
    rintro ⟨-, ⟨-, hne, -⟩, -⟩
    exact hne rfl
  have hedge : C.Edge S₁.place ⟨S.routine, 1⟩ ↔ S₁.ref 1 ∈ e.targets := by
    unfold Code.Edge Site.ref
    rw [hends.exit?, h.routine]
    constructor
    · rintro ⟨e', he', hmem'⟩
      rw [Option.some.inj he']
      exact hmem'
    · exact fun hmem' => ⟨e, rfl, hmem'⟩
  have hL : ∀ z, z ∈ L.map Prod.snd ↔ z = S₁.place ∧ S₁.ref 1 ∈ e.targets := by
    intro z
    rw [hreturns]
    split <;> simp_all
  refine ⟨R ++ L, by rw [← List.append_assoc, ← hR], ?_, fun z => ?_⟩
  · rw [List.map_append]
    refine hnodup.append ?_ fun z hz hz' => ?_
    · rw [hreturns]
      split
      · exact List.nodup_singleton _
      · exact List.nodup_nil
    · rw [((hL z).mp hz').1] at hz
      exact hold hz
  · rw [List.map_append, List.mem_append, hmem, hL, hdone]
    constructor
    · rintro (⟨h₁, h₂, h₃⟩ | ⟨rfl, h₂⟩)
      · exact ⟨h₁, .inl h₂, h₃⟩
      · exact ⟨h.routine, .inr rfl, hedge.mpr h₂⟩
    · rintro ⟨h₁, h₂ | h₂, h₃⟩
      · exact .inl ⟨h₁, h₂, h₃⟩
      · have hz : z = S₁.place := by
          rw [h.place_eq, ← h₁, ← h₂]
        rw [hz] at h₃ ⊢
        exact .inr ⟨rfl, hedge.mp h₃⟩

/-- The block at hand ends, and the code goes on in a block that was pending. The exit leads to new
blocks, or to the return block; then it is among the ways to leave the routine. -/
theorem close (hv : S.Valid) (h : Region C S (p :: P) S₁) (hends : C.Ends S₁ e) (hret : e.isRet = false)
    (htargets : ∀ t ∈ e.targets, t.routine = S.routine ∧ (t.block = 1 ∨
      (S.blocks ≤ t.block ∧ t.block < S₁.blocks ∧ C.Merges S₁.place t)))
    (hreturns : L.map Prod.snd = if S₁.ref 1 ∈ e.targets then [S₁.place] else [])  :
    Region C S P { S₁.move p with returns := S₁.returns ++ L } := by
  set S₂ : Site := { S₁.move p with returns := S₁.returns ++ L } with hS₂
  have hblock : S₂.block = p := rfl
  have hindex : S₂.index = 0 := rfl
  have hblocks : S₂.blocks = S₁.blocks := rfl
  have hstretch : S.Stretch P S₂ := h.stretch.close hblock hblocks rfl
  have hdone := h.stretch.done_close hv hblock hblocks
  -- behind the end of the closed block there are no instructions
  have hholds : ∀ x i ins, S.Holds P S₂ x i → C.instruction? ⟨S.routine, x⟩ i = some ins →
      S.Holds (p :: P) S₁ x i := by
    intro x i ins hx hins
    rcases Site.Stretch.holds_close hblock hindex hblocks hx with hx | ⟨rfl, hi⟩
    · exact hx
    · rw [← h.place_eq, hends.instruction? hi] at hins
      cases hins
  refine ⟨h.routine, h.blocks, h.registers, hstretch.place, hstretch.pending, hstretch.nodup, ?_, ?_, ?_,
    ?_⟩
  · intro x hx
    rcases (hdone x).mp hx with hx | rfl
    · exact h.done x hx
    · rw [← h.place_eq]
      exact ⟨e, hends.exit?, hret, htargets⟩
  · intro x i ins hx hins
    exact sound_mono (h.sound x i ins (hholds x i ins hx hins) hins) rfl (Nat.le_refl _)
      (Nat.le_refl _) (Nat.le_refl _)
  · intro x i y j ins ins' r hx hy hins hins'
    exact h.single x i y j ins ins' r (hholds x i ins hx hins) (hholds y j ins' hy hins') hins hins'
  · exact h.returns_close hends hreturns hdone

theorem jump (hv : S.Valid) (h : Region C S (p :: P) S₁) (hends : C.Ends S₁ e)
    (hret : e.isRet = false) (htargets : ∀ t ∈ e.targets, t.routine = S.routine ∧
      S.blocks ≤ t.block ∧ t.block < S₁.blocks ∧ C.Merges S₁.place t) : Region C S P (S₁.move p) := by
  have hclose := close hv h hends hret (L := []) (fun t ht => ⟨(htargets t ht).1, .inr (htargets t ht).2⟩)
    (by
      rw [if_neg]
      · rfl
      · intro hmem
        have h₁ := (htargets _ hmem).2.1
        have h₂ := hv.blocks
        change S.blocks ≤ 1 at h₁
        omega)
  rw [List.append_nil] at hclose
  exact hclose

theorem leave (hv : S.Valid) (h : Region C S [] S₁) (v : Register) (hends : C.Ends S₁ (.jump (S₁.ref 1))) :
    Region C S [] (((S₁.leave v).grow 1).move S₁.blocks) := by
  refine close hv (h.fork hv 1) (e := .jump (S₁.ref 1)) hends rfl (L := [(v, S₁.place)]) ?_ ?_
  · intro t ht
    rw [List.mem_singleton.mp ht]
    exact ⟨h.routine, .inl rfl⟩
  · exact (if_pos (List.mem_singleton.mpr rfl)).symm

/-- The values that come from two blocks are merged. -/
theorem merge (h : Region C S [] S₁) (hindex : S₁.index = 0) (hnew : S.blocks ≤ S₁.block)
    (hhas : C.Has S₁ (.define S₁.registers (.phi L))) (hnodup : (L.map Prod.snd).Nodup)
    (hedges : ∀ z ∈ L.map Prod.snd, z.routine = S.routine ∧ C.Edge z S₁.place) : Region C S [] S₁.next := by
  have hr := h.registers
  refine h.extend hhas rfl rfl rfl rfl (Nat.le_succ _) rfl ?_ ⟨?_, ?_, ?_⟩
  · intro r hr
    exact (Option.some.inj hr).le
  · intro r hr'
    rw [← Option.some.inj hr']
    exact ⟨hr, Nat.lt_succ_self _⟩
  · intro r o he
    rw [← (Instruction.define.inj he).2]
    trivial
  · intro r L' he
    have hL := Operation.phi.inj (Instruction.define.inj he).2
    rw [← hL]
    refine ⟨hnew, hindex, hnodup, fun z hz => ?_⟩
    obtain ⟨h₁, h₂⟩ := hedges z hz
    unfold Site.place at h₂
    rw [h.routine] at h₂
    exact ⟨h₁, h₂⟩

/-- A block that a region starts in merges no values. -/
theorem direct (hv : S.Valid) (h : Region C S [] S') (hindex : S.index = 0)
    (hends : C.Ends S' e) : C.Direct S.place := by
  intro r L hins
  have hholds : S.Holds [] S' S.block 0 := by
    refine ⟨.inl rfl, List.not_mem_nil, fun _ => by omega, fun heq => ?_⟩
    by_contra hi
    have hnone := hends.instruction? (Nat.le_of_not_lt hi)
    have hplace : S'.place = S.place := by
      unfold Site.place
      rw [h.routine, heq]
    rw [hplace, hins] at hnone
    cases hnone
  have hphi := ((h.sound _ _ _ hholds hins).phi r L rfl).1
  have hlt := hv.block
  omega

/-! ## 4. Conditionals and loops -/

variable {S₃ S₄ : Site}

theorem valid_first (hv : S.Valid) : ((S.grow 3).move S.blocks).Valid :=
  (hv.grow 3).move (Nat.lt_add_of_pos_right (Nat.succ_pos 2)) (Nat.ne_of_gt hv.blocks)

theorem valid_second (hv : S.Valid) (h : Region C ((S.grow 3).move S.blocks) [] S') :
    (S'.move (S.blocks + 1)).Valid := by
  have hb : S.blocks + 3 ≤ S'.blocks := h.blocks
  have hpos := hv.blocks
  exact (h.valid (valid_first hv)).move (by omega) (by omega)

theorem arms_ne (ht : Region C ((S.grow 3).move S.blocks) [] S₃)
    (he : Region C (S₃.move (S.blocks + 1)) [] S₄) : S₃.block ≠ S₄.block := by
  have hb : S.blocks + 3 ≤ S₃.blocks := ht.blocks
  have hp₃ := ht.place
  have hp₄ := he.place
  change (S₃.block = S.blocks ∧ _) ∨ (S.blocks + 3 ≤ S₃.block ∧ _) at hp₃
  change (S₄.block = S.blocks + 1 ∧ _) ∨ (S₃.blocks ≤ S₄.block ∧ _) at hp₄
  omega

theorem conditional {tv ev : Register} (hv : S.Valid) (h : Region C S [] S₂)
    (hfork : C.Ends S₂ (.branch b (S₂.ref S₂.blocks) (S₂.ref (S₂.blocks + 1))))
    (ht : Region C ((S₂.grow 3).move S₂.blocks) [] S₃) (htend : C.Ends S₃ (.jump (S₂.ref (S₂.blocks + 2))))
    (he : Region C (S₃.move (S₂.blocks + 1)) [] S₄) (heend : C.Ends S₄ (.jump (S₂.ref (S₂.blocks + 2))))
    (hphi : C.Has (S₄.move (S₂.blocks + 2))
      (.define S₄.registers (.phi [(tv, S₃.place), (ev, S₄.place)]))) :
    Region C S [] (S₄.move (S₂.blocks + 2)).next := by
  have hv₂ := h.valid hv
  have hpos := hv₂.blocks
  have hb := h.blocks
  have hr := h.routine
  have hvt := valid_first hv₂
  have hb₃ : S₂.blocks + 3 ≤ S₃.blocks := ht.blocks
  have hr₃ : S₃.routine = S₂.routine := ht.routine
  have hve := valid_second hv₂ ht
  have hb₄ : S₃.blocks ≤ S₄.blocks := he.blocks
  have hr₄ : S₄.routine = S₂.routine := he.routine.trans hr₃
  -- the values that the last block merges
  have hmerge : ∀ z, z = S₃.place ∨ z = S₄.place → C.Merges z (S₂.ref (S₂.blocks + 2)) := by
    intro z hz r L hins
    have hat := hphi.instruction?
    have href : (S₄.move (S₂.blocks + 2)).place = S₂.ref (S₂.blocks + 2) := by
      change (⟨S₄.routine, S₂.blocks + 2⟩ : BlockRef) = ⟨S₂.routine, S₂.blocks + 2⟩
      rw [hr₄]
    rw [href, show (S₄.move (S₂.blocks + 2)).index = 0 from rfl, hins] at hat
    rw [Operation.phi.inj (Instruction.define.inj (Option.some.inj hat)).2]
    rcases hz with rfl | rfl
    · exact List.mem_cons_self
    · exact List.mem_cons_of_mem _ List.mem_cons_self
  have h₁ : Region C S [S₂.blocks + 1, S₂.blocks + 2] ((S₂.grow 3).move S₂.blocks) := by
    refine (h.fork hv 3).jump hv hfork rfl fun t hmem => ?_
    rcases List.mem_cons.mp hmem with rfl | hmem
    · exact ⟨hr, hb, by change S₂.blocks < S₂.blocks + 3; omega, (ht.direct hvt rfl htend).merges _⟩
    · rw [List.mem_singleton.mp hmem]
      refine ⟨hr, by change _ ≤ S₂.blocks + 1; omega,
        by change S₂.blocks + 1 < S₂.blocks + 3; omega, ?_⟩
      have hno := he.direct hve rfl heend
      unfold Site.place Site.move at hno
      rw [hr₃] at hno
      exact hno.merges _
  have h₂ : Region C S [S₂.blocks + 2] (S₃.move (S₂.blocks + 1)) := by
    refine (h₁.sub hv ht).jump hv htend rfl fun t hmem => ?_
    rw [List.mem_singleton.mp hmem]
    exact ⟨hr, by change _ ≤ S₂.blocks + 2; omega, by change S₂.blocks + 2 < _; omega,
      hmerge _ (.inl rfl)⟩
  have h₃ : Region C S [] (S₄.move (S₂.blocks + 2)) := by
    refine (h₂.sub hv he).jump hv heend rfl fun t hmem => ?_
    rw [List.mem_singleton.mp hmem]
    exact ⟨hr, by change _ ≤ S₂.blocks + 2; omega, by change S₂.blocks + 2 < _; omega,
      hmerge _ (.inr rfl)⟩
  refine h₃.merge rfl (by change _ ≤ S₂.blocks + 2; omega) hphi ?_ ?_
  · refine List.nodup_cons.mpr ⟨fun hmem => ?_, List.nodup_singleton _⟩
    exact ht.arms_ne he (BlockRef.mk.inj (List.mem_singleton.mp hmem)).2
  · have hedge : (S₄.move (S₂.blocks + 2)).place = S₂.ref (S₂.blocks + 2) := by
      change (⟨S₄.routine, S₂.blocks + 2⟩ : BlockRef) = ⟨S₂.routine, S₂.blocks + 2⟩
      rw [hr₄]
    rw [hedge]
    intro z hz
    rcases List.mem_cons.mp hz with rfl | hz
    · exact ⟨hr₃.trans hr, htend.edge (List.mem_singleton.mpr rfl)⟩
    · rw [List.mem_singleton.mp hz]
      exact ⟨hr₄.trans hr, heend.edge (List.mem_singleton.mpr rfl)⟩

/-- None of the blocks of a loop merges values. -/
theorem loop_direct {e' : Exit} (hv : S.Valid) (ht : Region C ((S.grow 3).move S.blocks) [] S₂) (hfork : C.Ends S₂ e)
    (hbody : Region C (S₂.move (S.blocks + 1)) [] S₃) (hback : C.Ends S₃ e')
    (hafter : C.Has (S₃.move (S.blocks + 2)) ins) (hphi : ins.isPhi = false)
    (hx : x = S.blocks ∨ x = S.blocks + 1 ∨ x = S.blocks + 2) : C.Direct (S.ref x) := by
  have hr₂ : S₂.routine = S.routine := ht.routine
  have hr₃ : S₃.routine = S.routine := hbody.routine.trans hr₂
  rcases hx with rfl | rfl | rfl
  · exact ht.direct (valid_first hv) rfl hfork
  · have hno := hbody.direct (valid_second hv ht) rfl hback
    unfold Site.place Site.move at hno
    rw [hr₂] at hno
    exact hno
  · intro r L hins
    have hat := hafter.instruction?
    unfold Site.place Site.move at hat
    rw [hr₃] at hat
    rw [show S.ref (S.blocks + 2) = ⟨S.routine, S.blocks + 2⟩ from rfl, hat] at hins
    rw [Option.some.inj hins] at hphi
    cases hphi

/-- A loop: a test, a body that leads back to the test or to a further round, and what follows. -/
theorem loop (hv : S.Valid) (h : Region C S [] S₁) (hstart : C.Ends S₁ (.jump (S₁.ref S₁.blocks)))
    (ht : Region C ((S₁.grow 3).move S₁.blocks) [] S₂)
    (hfork : C.Ends S₂ (.branch b (S₁.ref (S₁.blocks + 1)) (S₁.ref (S₁.blocks + 2))))
    (hbody : Region C (S₂.move (S₁.blocks + 1)) [] S₃) (hback : C.Ends S₃ e) (hret : e.isRet = false)
    (htargets : ∀ t ∈ e.targets, ∃ x, t = S₁.ref x ∧
      (x = S₁.blocks ∨ x = S₁.blocks + 1 ∨ x = S₁.blocks + 2))
    (hafter : C.Has (S₃.move (S₁.blocks + 2)) ins) (hphi : ins.isPhi = false) :
    Region C S [] (S₃.move (S₁.blocks + 2)) := by
  have hv₁ := h.valid hv
  have hb := h.blocks
  have hr := h.routine
  have hb₂ : S₁.blocks + 3 ≤ S₂.blocks := ht.blocks
  have hb₃ : S₂.blocks ≤ S₃.blocks := hbody.blocks
  -- the three blocks merge nothing, so any block may lead to them
  have hmerge : ∀ z x, x = S₁.blocks ∨ x = S₁.blocks + 1 ∨ x = S₁.blocks + 2 →
      (S₁.ref x).routine = S.routine ∧ S.blocks ≤ (S₁.ref x).block ∧
        (S₁.ref x).block < S₁.blocks + 3 ∧ C.Merges z (S₁.ref x) := by
    intro z x hx
    refine ⟨hr, ?_, ?_, (loop_direct hv₁ ht hfork hbody hback hafter hphi hx).merges z⟩
    · change S.blocks ≤ x
      omega
    · change x < S₁.blocks + 3
      omega
  -- the jump to the test
  have h₁ : Region C S [S₁.blocks + 1, S₁.blocks + 2] ((S₁.grow 3).move S₁.blocks) := by
    refine (h.fork hv 3).jump hv hstart rfl fun t hmem => ?_
    rw [List.mem_singleton.mp hmem]
    exact hmerge _ _ (.inl rfl)
  -- the test, and both ways from it
  have h₂ : Region C S [S₁.blocks + 2] (S₂.move (S₁.blocks + 1)) := by
    refine (h₁.sub hv ht).jump hv hfork rfl fun t hmem => ?_
    rcases List.mem_cons.mp hmem with rfl | hmem
    · obtain ⟨m₁, m₂, m₃, m₄⟩ := hmerge S₂.place _ (.inr (.inl rfl))
      exact ⟨m₁, m₂, by omega, m₄⟩
    · rw [List.mem_singleton.mp hmem]
      obtain ⟨m₁, m₂, m₃, m₄⟩ := hmerge S₂.place _ (.inr (.inr rfl))
      exact ⟨m₁, m₂, by omega, m₄⟩
  -- the body, and what leads back
  refine (h₂.sub hv hbody).jump hv hback hret fun t hmem => ?_
  obtain ⟨x, rfl, hx⟩ := htargets t hmem
  obtain ⟨m₁, m₂, m₃, m₄⟩ := hmerge S₃.place x hx
  exact ⟨m₁, m₂, by omega, m₄⟩

end Region

/-! ## 5. Phrases -/

/-- What a phrase asks of the code around it. -/
def Phrase.Fits (C : Code) (routine : Nat) : Phrase → Prop
  | .op o => o.Fits C routine
  | .parameters index names => ∃ name params, C.heading? routine = some (name, params) ∧
      index + names.length ≤ params.length
  | _ => True

theorem Lowered.arguments_length {C : Code} {nodes : List Node} {S S' : Site} {rs : List Register}
    (h : Lowered C (.arguments nodes) S rs S') : nodes.length = rs.length := by
  induction nodes generalizing S rs with
  | nil =>
    cases h
    rfl
  | cons n nodes ih =>
    cases h with
    | argumentsCons _ h => exact congrArg (· + 1) (ih h)

/-- The code of a phrase is a region. -/
theorem Lowered.region {C : Code} {ph : Phrase} {S S' : Site} {rs : List Register}
    (h : Lowered C ph S rs S') : S.Valid → ph.Fits C S.routine → Region C S [] S' := by
  induction h with
  | op hphi hhas => exact fun _ hfits => .op hphi hfits hhas
  | store hhas => exact fun _ _ => .store hhas
  | booleanize _ _ ih₁ ih₂ => exact fun hv _ => (ih₁ hv trivial).seq hv ih₂
  | arithmetic _ _ ih => exact fun hv _ => ih hv trivial
  | comparison _ _ ih => exact fun hv _ => ih hv trivial
  | logical _ _ _ _ ih₁ ih₂ ih₃ =>
    exact fun hv _ => ((ih₁ hv trivial).seq hv ih₂).seq hv ih₃
  | resultVariable _ _ ih => exact fun hv _ => ih hv trivial
  | resultZero _ _ ih => exact fun hv _ => ih hv trivial
  | number _ ih => exact fun hv _ => ih hv trivial
  | constantDecl _ => exact fun _ _ => .still rfl rfl rfl rfl rfl rfl
  | scalarDecl _ _ _ ih =>
    exact fun hv _ => (ih hv trivial).sub hv (.still rfl rfl rfl rfl rfl rfl)
  | arrayDecl _ _ _ _ _ ih₁ ih₂ ih₃ =>
    exact fun hv _ => (((ih₁ hv trivial).seq hv ih₂).seq hv ih₃).sub hv
      (.still rfl rfl rfl rfl rfl rfl)
  | readVariable _ _ ih => exact fun hv _ => ih hv trivial
  | readConstant _ _ _ ih => exact fun hv _ => ih hv trivial
  | element _ _ ih₁ ih₂ => exact fun hv _ => (ih₁ hv trivial).seq hv ih₂
  | targetVariable _ => exact fun _ _ => .refl _
  | targetElement _ _ _ ih₁ ih₂ => exact fun hv _ => (ih₁ hv trivial).seq hv ih₂
  | assign _ _ _ ih₁ ih₂ ih₃ =>
    exact fun hv _ => ((ih₁ hv trivial).seq hv ih₂).seq hv ih₃
  | binary _ _ _ _ ih₁ ih₂ ih₃ =>
    exact fun hv _ => ((ih₁ hv trivial).seq hv ih₂).seq hv ih₃
  | conditional _ _ hfork _ htend _ heend hphi ih₁ ih₂ ih₃ ih₄ =>
    intro hv _
    have h₂ := (ih₁ hv trivial).seq hv ih₂
    have hv₂ := h₂.valid hv
    have ht := ih₃ (Region.valid_first hv₂) trivial
    have he := ih₄ (Region.valid_second hv₂ ht) trivial
    exact h₂.conditional hv hfork ht htend he heend hphi
  | @whileLoop _ _ _ _ _ _ S _ _ _ _ hstart _ _ hfork _ hback hlast ih₁ ih₂ ih₃ ih₄ =>
    intro hv _
    have hvt := Region.valid_first hv
    have ht := (ih₁ hvt trivial).seq hvt ih₂
    have hbody := ih₃ (Region.valid_second hv ht) trivial
    cases hlast with
    | op hphi hhas =>
      refine (Region.loop hv (.refl S) hstart ht hfork hbody hback rfl ?_ hhas rfl).seq hv ih₄
      exact fun t hmem => ⟨_, List.mem_singleton.mp hmem, .inl rfl⟩
  | @forLoop name _ _ _ _ slot _ _ _ _ _ _ _ _ _ _ _ _ _ _ S₄ _ S₆ S₇ _ _ _ _ _ _ _ _ _ _ hjump _ _
      hfork _ _ _ _ _ hback hlast ih₁ ih₂ ih₃ ih₄ ih₅ ih₆ ih₇ ih₈ ih₉ ih₁₀ ih₁₁ ih₁₂ =>
    intro hv _
    have h₄ := (((ih₁ hv trivial).seq hv ih₂).seq hv ih₃).seq hv ih₄
    have hv₄ := h₄.valid hv
    have hvt := Region.valid_first hv₄
    have ht := (ih₅ hvt trivial).seq hvt ih₆
    have hvb := Region.valid_second hv₄ ht
    -- the loop variable is held while the body is compiled, which the region does not see
    have hheld : Region C (S₆.move (S₄.blocks + 1)) [] { S₆.move (S₄.blocks + 1) with
        locals := (S₆.locals.shadow name ⟨slot, .scalar⟩).2 } := .still rfl rfl rfl rfl rfl rfl
    have hround := hheld.seq hvb ih₇
    have hgiven : Region C (S₆.move (S₄.blocks + 1)) [] { S₇ with
        locals := S₇.locals.restore name (S₆.locals.shadow name ⟨slot, .scalar⟩).1 } :=
      hround.sub hvb (.still rfl rfl rfl rfl rfl rfl)
    have hbody := (((hgiven.seq hvb ih₈).seq hvb ih₉).seq hvb ih₁₀).seq hvb ih₁₁
    cases hlast with
    | op hphi hhas =>
      refine (Region.loop hv h₄ hjump ht hfork hbody hback rfl ?_ hhas rfl).seq hv ih₁₂
      intro t hmem
      rcases List.mem_cons.mp hmem with rfl | hmem
      · exact ⟨_, rfl, .inr (.inl rfl)⟩
      · exact ⟨_, List.mem_singleton.mp hmem, .inr (.inr rfl)⟩
  | call _ hheading hparams hargs hcall ih₁ ih₂ =>
    intro hv _
    have h₁ := ih₁ hv trivial
    have hfits := hargs.arguments_length
    exact h₁.sub hv (ih₂ (h₁.valid hv) ⟨_, _, hheading, hparams.trans hfits⟩)
  | intrinsic _ _ ih => exact fun hv _ => ih hv trivial
  | exit _ hleave _ ih₁ ih₂ =>
    exact fun hv _ => ((ih₁ hv trivial).leave hv _ hleave).seq hv ih₂
  | forwardKnown _ => exact fun _ _ => .refl _
  | forwardNew _ => exact fun _ _ => .still rfl rfl rfl rfl rfl rfl
  | define _ _ _ _ => exact fun _ _ => .still rfl rfl rfl rfl rfl rfl
  | block _ ih => exact fun hv _ => ih hv trivial
  | value _ ih => exact fun hv _ => ih hv trivial
  | noValue _ _ ih₁ ih₂ => exact fun hv _ => (ih₁ hv trivial).seq hv ih₂
  | sequenceNil => exact fun _ _ => .refl _
  | sequenceCons _ _ ih₁ ih₂ => exact fun hv _ => (ih₁ hv trivial).seq hv ih₂
  | argumentsNil => exact fun _ _ => .refl _
  | argumentsCons _ _ ih₁ ih₂ => exact fun hv _ => (ih₁ hv trivial).seq hv ih₂
  | parametersNil => exact fun _ _ => .refl _
  | @parametersCons _ _ _ _ _ S _ _ S₃ _ l _ _ _ _ _ ih₁ ih₂ ih₃ ih₄ =>
    rintro hv ⟨name, params, hheading, hle⟩
    have h₁ := ih₁ hv trivial
    have hheading₁ := hheading
    rw [← h₁.routine] at hheading₁
    have h₂ := h₁.sub hv (ih₂ (h₁.valid hv) ⟨name, params, hheading₁, by simp at hle; omega⟩)
    have h₃ : Region C S [] { S₃ with locals := l } :=
      (h₂.seq hv ih₃).sub hv (.still rfl rfl rfl rfl rfl rfl)
    rw [← h₃.routine] at hheading
    exact h₃.sub hv (ih₄ (h₃.valid hv) ⟨name, params, hheading, by simp at hle; omega⟩)
  | program _ _ _ ih₁ ih₂ ih₃ =>
    exact fun hv _ => ((ih₁ hv trivial).seq hv ih₂).seq hv ih₃
  | subprogram hheading hlength _ _ ih₁ ih₂ =>
    exact fun hv _ => (ih₁ hv ⟨_, _, hheading, by omega⟩).seq hv ih₂

end Mila
