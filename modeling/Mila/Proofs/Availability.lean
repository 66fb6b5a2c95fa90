import Mila.Proofs.Regions

/-! # Which registers are defined

A register may only be read where it is defined, whichever way a routine was gone through to get there, and
only as what it holds. This is shown by noting, for each block, registers that are defined at its start: a block
may rely on what its predecessors leave to it. This module says when such notes are right, and how the notes for
the parts of a construct are put together.
-/

namespace Mila

/-! ## 1. Operands -/

/-- What a register holds. -/
inductive RegisterType where
  | word
  | address
  deriving DecidableEq, Repr

/-- A register, and what it holds. -/
abbrev Operand := Register × RegisterType

/-- What an operation yields. -/
def Operation.type : Operation → RegisterType
  | .alloca _ | .offset _ _ => .address
  | _ => .word

/-- What an operation reads. A merge reads nothing itself: its values are read on the way into its block. -/
def Operation.operands : Operation → List Operand
  | .offset base distance => [(base, .address), (distance, .word)]
  | .load address | .intrinsic _ address => [(address, .address)]
  | .arith _ lhs rhs | .compare _ lhs rhs => [(lhs, .word), (rhs, .word)]
  | .call _ args => args.map (·, .word)
  | .const _ | .param _ | .alloca _ | .phi _ => []

def Instruction.operands : Instruction → List Operand
  | .define _ op => op.operands
  | .store value address => [(value, .word), (address, .address)]

def Exit.operands : Exit → List Operand
  | .jump _ => []
  | .branch condition _ _ => [(condition, .word)]
  | .ret value => [(value, .word)]

/-! ## 2. Notes -/

/-- For each block of a routine, operands that are there at its start. -/
abbrev Notes := Nat → Set Operand

namespace Code

variable {C : Code} {K K' : Notes} {g x i : Nat} {u : Operand}

/-- An instruction of a block yields an operand. -/
def Yields (C : Code) (g x i : Nat) (u : Operand) : Prop :=
  ∃ o, C.instruction? ⟨g, x⟩ i = some (.define u.1 o) ∧ o.type = u.2

/-- What is there before an instruction of a block. -/
def before (C : Code) (K : Notes) (g x i : Nat) : Set Operand := {u | u ∈ K x ∨ ∃ j < i, C.Yields g x j u}

/-- What is there at the end of a block. -/
def after (C : Code) (K : Notes) (g x : Nat) : Set Operand := {u | u ∈ K x ∨ ∃ j, C.Yields g x j u}

theorem before_subset_after : C.before K g x i ⊆ C.after K g x :=
  fun _ h => h.imp_right fun ⟨j, _, hj⟩ => ⟨j, hj⟩

/-- Behind the instructions of a block there are no more. -/
theorem lt_of_instruction {b : BlockRef} {k : Nat} {ins : Instruction}
    (h : C.instruction? b k = some ins) (hend : C.instruction? b i = none) : k < i := by
  obtain ⟨block, hblock, hk⟩ := Option.bind_eq_some_iff.mp h
  rw [instruction?, hblock, Option.bind_some] at hend
  exact (Array.getElem?_eq_some_iff.mp hk).1.trans_le (Array.getElem?_eq_none_iff.mp hend)

/-- At the end of a block all its instructions are done. -/
theorem after_subset_before (hend : C.instruction? ⟨g, x⟩ i = none) : C.after K g x ⊆ C.before K g x i := by
  rintro u (hu | ⟨j, o, ho, ht⟩)
  · exact .inl hu
  · exact .inr ⟨j, lt_of_instruction ho hend, o, ho, ht⟩

theorem before_zero : C.before K g x 0 = K x := by
  ext u
  constructor
  · rintro (h | ⟨j, hj, -⟩)
    · exact h
    · exact absurd hj (Nat.not_lt_zero j)
  · exact .inl

theorem before_mono {j : Nat} (h : i ≤ j) : C.before K g x i ⊆ C.before K g x j :=
  fun _ hu => hu.imp_right fun ⟨k, hk, hyields⟩ => ⟨k, hk.trans_le h, hyields⟩

theorem before_congr (h : K' x = K x) : C.before K' g x i = C.before K g x i := by
  unfold before
  rw [h]

theorem after_congr (h : K' x = K x) : C.after K' g x = C.after K g x := by
  unfold after
  rw [h]

/-- An instruction reads only what is there. -/
def Supplied (C : Code) (K : Notes) (g x i : Nat) : Prop :=
  ∀ ins, C.instruction? ⟨g, x⟩ i = some ins → ∀ u ∈ ins.operands, u ∈ C.before K g x i

/-- A block leaves to another one what that relies on: what is noted for it, and the values that it merges. -/
structure Provides (C : Code) (K : Notes) (g x : Nat) (t : BlockRef) : Prop where
  notes : K t.block ⊆ C.after K g x
  merges : ∀ r L v, C.instruction? t 0 = some (.define r (.phi L)) → (v, ⟨g, x⟩) ∈ L →
    (v, .word) ∈ C.after K g x

/-- The exit of a block reads only what is there, and leads to blocks below a bound that rely on no more than
what the block leaves to them. What the return block relies on is seen to in the end. -/
structure Passes (C : Code) (K : Notes) (g bound x : Nat) : Prop where
  operands : ∀ e, C.exit? ⟨g, x⟩ = some e → ∀ u ∈ e.operands, u ∈ C.after K g x
  targets : ∀ e, C.exit? ⟨g, x⟩ = some e → ∀ t ∈ e.targets,
    t.block = 1 ∨ (t.block < bound ∧ C.Provides K g x t)

theorem Supplied.congr (h : C.Supplied K g x i) (hx : K' x = K x) : C.Supplied K' g x i := by
  unfold Supplied
  rw [before_congr hx]
  exact h

theorem Provides.congr {t : BlockRef} (h : C.Provides K g x t) (hx : K' x = K x)
    (ht : K' t.block = K t.block) : C.Provides K' g x t := by
  constructor
  · rw [after_congr hx, ht]
    exact h.notes
  · rw [after_congr hx]
    exact h.merges

theorem Passes.congr {bound bound' : Nat} (h : C.Passes K g bound x) (hbound : bound ≤ bound')
    (hx : K' x = K x) (hsame : ∀ y < bound, K' y = K y) : C.Passes K' g bound' x := by
  constructor
  · rw [after_congr hx]
    exact h.operands
  · intro e he t ht
    refine (h.targets e he t ht).imp_right ?_
    rintro ⟨hlt, hprovides⟩
    exact ⟨hlt.trans_le hbound, hprovides.congr hx (hsame _ hlt)⟩

/-- A block that merges no values asks only for what is noted for it. -/
theorem Direct.provides {t : BlockRef} (h : C.Direct t) (hnotes : K t.block ⊆ C.after K g x) : C.Provides K g x t :=
  ⟨hnotes, fun r L _ hins => absurd hins (h r L)⟩

end Code

/-! ## 3. Notes for the code between two sites -/

/-- What is there at a site. -/
def Site.known (S : Site) (C : Code) (K : Notes) : Set Operand := C.before K S.routine S.block S.index

/-- The notes are right for the code between two sites, with a list of pending blocks. -/
structure Flow (C : Code) (K : Notes) (S : Site) (P : List Nat) (S' : Site) : Prop where
  stretch : S.Stretch P S'
  inside : ∀ x i, S.Holds P S' x i → C.Supplied K S.routine x i
  done : ∀ x, S.Done P S' x → C.Passes K S.routine S'.blocks x
  returns : ∀ z ∈ S'.returns, z ∈ S.returns ∨
    (z.2.routine = S.routine ∧ z.2.block < S'.blocks ∧ (z.1, .word) ∈ C.after K S.routine z.2.block)

namespace Flow

variable {C : Code} {K K' : Notes} {S S' S₁ S₂ : Site} {P : List Nat}

theorem valid (h : Flow C K S P S') (hv : S.Valid) : S'.Valid := h.stretch.valid hv

/-- Code is about its own blocks only. -/
theorem congr (hv : S.Valid) (h : Flow C K S P S') (hsame : ∀ x < S'.blocks, K' x = K x) : Flow C K' S P S' := by
  have hlt := hv.block.trans_le h.stretch.blocks
  have howns : ∀ x, S.Owns S' x → x < S'.blocks := by
    rintro x (hx | hx) <;> omega
  refine ⟨h.stretch, fun x i hx => ?_, fun x hx => ?_, fun z hz => ?_⟩
  · exact (h.inside x i hx).congr (hsame x (howns x hx.1))
  · exact (h.done x hx).congr (Nat.le_refl _) (hsame x (howns x hx.1)) hsame
  · refine (h.returns z hz).imp_right ?_
    rintro ⟨hroutine, hblock, hmem⟩
    rw [Code.after_congr (hsame _ hblock)]
    exact ⟨hroutine, hblock, hmem⟩

theorem still (hroutine : S'.routine = S.routine) (hblock : S'.block = S.block)
    (hindex : S'.index = S.index) (hblocks : S'.blocks = S.blocks) (hreturns : S'.returns = S.returns) :
    Flow C K S [] S' where
  stretch := ⟨hroutine, hblocks.ge, .inl ⟨hblock, hindex.ge⟩, fun _ h => absurd h List.not_mem_nil,
    List.nodup_nil⟩
  inside x i h := by
    obtain ⟨hx | hx, -, hlo, hhi⟩ := h <;> omega
  done x h := absurd h (Region.not_done hblock hblocks x)
  returns z hz := .inl (hreturns ▸ hz)

theorem refl (S : Site) : Flow C K S [] S := still rfl rfl rfl rfl rfl

theorem extend {ins : Instruction} (h : Flow C K S P S₁) (hhas : C.Has S₁ ins)
    (hroutine : S₂.routine = S₁.routine) (hblock : S₂.block = S₁.block)
    (hindex : S₂.index = S₁.index + 1) (hblocks : S₂.blocks = S₁.blocks)
    (hreturns : S₂.returns = S₁.returns) (hoperands : ∀ u ∈ ins.operands, u ∈ S₁.known C K) : Flow C K S P S₂ := by
  have hat := hhas.instruction?
  unfold Site.place at hat
  rw [h.stretch.routine] at hat
  unfold Site.known at hoperands
  rw [h.stretch.routine] at hoperands
  refine ⟨⟨hroutine.trans h.stretch.routine, hblocks ▸ h.stretch.blocks, ?_, ?_, h.stretch.nodup⟩,
    fun x i hx => ?_, fun x hx => ?_, ?_⟩
  · rw [hblock, hblocks, hindex]
    exact h.stretch.place.imp_left fun ⟨h₁, h₂⟩ => ⟨h₁, by omega⟩
  · rw [hblock, hblocks]
    exact h.stretch.pending
  · rcases Site.Stretch.holds_extend hblock hindex hblocks hx with hx | ⟨rfl, rfl⟩
    · exact h.inside x i hx
    · intro ins' hins
      rw [hat] at hins
      rw [← Option.some.inj hins]
      exact hoperands
  · rw [hblocks]
    exact h.done x ((Site.Stretch.done_extend hblock hblocks x).mp hx)
  · rw [hreturns, hblocks]
    exact h.returns

theorem sub (hv : S.Valid) (h : Flow C K S P S₁) (h' : Flow C K S₁ [] S₂) : Flow C K S P S₂ := by
  have hb := h'.stretch.blocks
  refine ⟨h.stretch.sub hv h'.stretch, fun x i hx => ?_, fun x hx => ?_, fun z hz => ?_⟩
  · rcases h.stretch.holds_sub hv hx with hx | hx
    · exact h.inside x i hx
    · rw [← h.stretch.routine]
      exact h'.inside x i hx
  · rcases (h.stretch.done_sub hv h'.stretch x).mp hx with hx | hx
    · exact (h.done x hx).congr hb rfl fun _ _ => rfl
    · rw [← h.stretch.routine]
      exact h'.done x hx
  · rcases h'.returns z hz with hz | hz
    · exact (h.returns z hz).imp_right fun ⟨h₁, h₂, h₃⟩ => ⟨h₁, h₂.trans_le hb, h₃⟩
    · rw [h.stretch.routine] at hz
      exact .inr hz

/-- New blocks are pending at first. -/
theorem fork (hv : S.Valid) (h : Flow C K S [] S₁) (k : Nat) : Flow C K S (List.range' S₁.blocks k) (S₁.grow k) := by
  have hb : S₁.blocks ≤ (S₁.grow k).blocks := Nat.le_add_right _ _
  refine ⟨h.stretch.fork hv k, fun x i hx => ?_, fun x hx => ?_, fun z hz => ?_⟩
  · exact h.inside x i (Site.Stretch.holds_fork hx)
  · exact (h.done x ((h.stretch.done_fork hv k x).mp hx)).congr hb rfl fun _ _ => rfl
  · exact (h.returns z hz).imp_right fun ⟨h₁, h₂, h₃⟩ => ⟨h₁, h₂.trans_le hb, h₃⟩

variable {p : Nat} {e : Exit}

/-- The block at hand ends, and the code goes on in a block that was pending. -/
theorem close (hv : S.Valid) (h : Flow C K S (p :: P) S₁) (hends : C.Ends S₁ e)
    (hoperands : ∀ u ∈ e.operands, u ∈ S₁.known C K) (htargets : ∀ t ∈ e.targets, t.block = 1 ∨
      (t.block < S₁.blocks ∧ C.Provides K S₁.routine S₁.block t)) {L : List (Register × BlockRef)}
    (hreturns : ∀ z ∈ L, z.2 = S₁.place ∧ (z.1, .word) ∈ S₁.known C K) :
    Flow C K S P { S₁.move p with returns := S₁.returns ++ L } := by
  set S₂ : Site := { S₁.move p with returns := S₁.returns ++ L } with hS₂
  have hblock : S₂.block = p := rfl
  have hindex : S₂.index = 0 := rfl
  have hblocks : S₂.blocks = S₁.blocks := rfl
  have hexit := hends.exit?
  have hnone : ∀ i, S₁.index ≤ i → C.instruction? S₁.place i = none := fun i hi => hends.instruction? hi
  have hafter : S₁.known C K ⊆ C.after K S.routine S₁.block := by
    unfold Site.known
    rw [h.stretch.routine]
    exact Code.before_subset_after
  unfold Site.place at hexit hnone hreturns
  rw [h.stretch.routine] at hexit hnone htargets hreturns
  refine ⟨h.stretch.close hblock hblocks rfl, fun x i hx => ?_, fun x hx => ?_, fun z hz => ?_⟩
  · rcases Site.Stretch.holds_close hblock hindex hblocks hx with hx | ⟨rfl, hi⟩
    · exact h.inside x i hx
    · -- behind the end of the block there are no instructions
      intro ins hins
      rw [hnone i hi] at hins
      cases hins
  · rcases (h.stretch.done_close hv hblock hblocks x).mp hx with hx | rfl
    · exact h.done x hx
    · -- the block that was closed provides what its exit asks for
      constructor
      · intro e' he' u hu
        rw [hexit] at he'
        rw [← Option.some.inj he'] at hu
        exact hafter (hoperands u hu)
      · intro e' he' t ht
        rw [hexit] at he'
        rw [← Option.some.inj he'] at ht
        exact htargets t ht
  · rcases List.mem_append.mp hz with hz | hz
    · exact h.returns z hz
    · obtain ⟨hplace, hmem⟩ := hreturns z hz
      rw [hplace]
      exact .inr ⟨rfl, (h.valid hv).block, hafter hmem⟩

/-- The block at hand ends with an exit to new blocks. -/
theorem jump (hv : S.Valid) (h : Flow C K S (p :: P) S₁) (hends : C.Ends S₁ e)
    (hoperands : ∀ u ∈ e.operands, u ∈ S₁.known C K)
    (htargets : ∀ t ∈ e.targets, t.block < S₁.blocks ∧ C.Provides K S₁.routine S₁.block t) :
    Flow C K S P (S₁.move p) := by
  have hclose := close hv h hends hoperands (fun t ht => .inr (htargets t ht)) (L := [])
    fun _ hz => absurd hz List.not_mem_nil
  rw [List.append_nil] at hclose
  exact hclose

/-- The block at hand ends with an exit to new blocks that merge no values. -/
theorem jumpDirect (hv : S.Valid) (h : Flow C K S (p :: P) S₁) (hends : C.Ends S₁ e)
    (hoperands : ∀ u ∈ e.operands, u ∈ S₁.known C K)
    (htargets : ∀ t ∈ e.targets, t.block < S₁.blocks ∧ C.Direct t ∧ K t.block ⊆ S₁.known C K) :
    Flow C K S P (S₁.move p) := by
  refine h.jump hv hends hoperands fun t ht => ?_
  obtain ⟨hlt, hdirect, hnotes⟩ := htargets t ht
  exact ⟨hlt, hdirect.provides (hnotes.trans Code.before_subset_after)⟩

end Flow

/-! ## 4. Steps -/

/-- Notes that say the same of all blocks from a given one on. -/
def Notes.extend (K : Notes) (n : Nat) (A : Set Operand) : Notes := fun x => if x < n then K x else A

theorem Notes.extend_of_lt {K : Notes} {n x : Nat} (A : Set Operand) (h : x < n) : K.extend n A x = K x :=
  if_pos h

theorem Notes.extend_of_le {K : Notes} {n x : Nat} (A : Set Operand) (h : n ≤ x) : K.extend n A x = A :=
  if_neg (Nat.not_lt_of_le h)

@[simp] theorem Site.known_move (S : Site) (x : Nat) (C : Code) (K : Notes) : (S.move x).known C K = K x :=
  Code.before_zero

/-- Right notes for the code up to a site go on as right notes for the code up to a later one, where all that
was there before still is. -/
structure Carries (C : Code) (K : Notes) (S : Site) (K' : Notes) (S' : Site) : Prop where
  same : ∀ x < S.blocks, K' x = K x
  flow : Flow C K' S [] S'
  known : S.known C K ⊆ S'.known C K'

namespace Carries

variable {C : Code} {K K₁ K₂ K₃ K₄ : Notes} {S S' S₁ S₂ S₃ S₄ : Site}

theorem valid (h : Carries C K S K₁ S₁) (hv : S.Valid) : S₁.Valid := h.flow.valid hv

theorem still (hroutine : S'.routine = S.routine) (hblock : S'.block = S.block)
    (hindex : S'.index = S.index) (hblocks : S'.blocks = S.blocks) (hreturns : S'.returns = S.returns) :
    Carries C K S K S' := by
  refine ⟨fun _ _ => rfl, .still hroutine hblock hindex hblocks hreturns, ?_⟩
  unfold Site.known
  rw [hroutine, hblock, hindex]

theorem trans (hv : S.Valid) (h : Carries C K S K₁ S₁) (h' : Carries C K₁ S₁ K₂ S₂) : Carries C K S K₂ S₂ where
  same x hx := (h'.same x (hx.trans_le h.flow.stretch.blocks)).trans (h.same x hx)
  flow := (h.flow.congr hv h'.same).sub hv h'.flow
  known := h.known.trans h'.known

/-- An operation on what is there yields its result. -/
theorem define {o : Operation} (hhas : C.Has S (.define S.registers o))
    (hoperands : ∀ u ∈ o.operands, u ∈ S.known C K) :
    Carries C K S K S.next ∧ (S.registers, o.type) ∈ S.next.known C K := by
  refine ⟨⟨fun _ _ => rfl, ?_, Code.before_mono (Nat.le_succ _)⟩,
    .inr ⟨S.index, Nat.lt_succ_self _, o, ?_, rfl⟩⟩
  · exact (Flow.refl S).extend hhas rfl rfl rfl rfl rfl hoperands
  · exact hhas.instruction?

theorem store {v slot : Register} (hhas : C.Has S (.store v slot)) (hv : (v, .word) ∈ S.known C K)
    (hslot : (slot, .address) ∈ S.known C K) : Carries C K S K S.skip := by
  refine ⟨fun _ _ => rfl, ?_, Code.before_mono (Nat.le_succ _)⟩
  refine (Flow.refl S).extend hhas rfl rfl rfl rfl rfl ?_
  intro u hu
  rcases List.mem_pair.mp hu with rfl | rfl
  · exact hv
  · exact hslot

/-- The routine is left with a value that is there. What follows is a block of its own. -/
theorem leave {v : Register} (hv : S.Valid) (h : Carries C K S K₁ S₁)
    (hvalue : (v, .word) ∈ S₁.known C K₁) (hends : C.Ends S₁ (.jump (S₁.ref 1))) :
    Carries C K S (K₁.extend S₁.blocks (S₁.known C K₁)) (((S₁.leave v).grow 1).move S₁.blocks) := by
  -- no way leads to the block behind; what is noted for it is a matter of choice
  set K₂ := K₁.extend S₁.blocks (S₁.known C K₁) with hK₂
  have hsame : ∀ x < S₁.blocks, K₂ x = K₁ x := fun x hx => Notes.extend_of_lt _ hx
  have hlt := (h.valid hv).block
  have hknown : S₁.known C K₂ = S₁.known C K₁ := Code.before_congr (hsame _ hlt)
  refine ⟨fun x hx => (hsame x (hx.trans_le h.flow.stretch.blocks)).trans (h.same x hx), ?_, ?_⟩
  · refine Flow.close hv ((h.flow.congr hv hsame).fork hv 1) (e := .jump (S₁.ref 1)) hends
      (fun u hu => absurd hu List.not_mem_nil) ?_ (L := [(v, S₁.place)]) ?_
    · intro t ht
      rw [List.mem_singleton.mp ht]
      exact .inl rfl
    · intro z hz
      rw [List.mem_singleton.mp hz]
      exact ⟨rfl, hknown ▸ hvalue⟩
  · rw [Site.known_move, hK₂, Notes.extend_of_le _ (Nat.le_refl _)]
    exact h.known

end Carries

/-- Where a site forks, three new blocks rely on what is there at the site. -/
structure Site.Forks (S : Site) (C : Code) (K K' : Notes) : Prop where
  old : ∀ x < S.blocks, K' x = K x
  new : ∀ x, S.blocks ≤ x → x < S.blocks + 3 → K' x = S.known C K

namespace Site.Forks

variable {C : Code} {K K' K'' : Notes} {S : Site}

theorem extend (S : Site) (C : Code) (K : Notes) : S.Forks C K (K.extend S.blocks (S.known C K)) :=
  ⟨fun _ hx => Notes.extend_of_lt _ hx, fun _ hx _ => Notes.extend_of_le _ hx⟩

theorem trans (h : S.Forks C K K') (hsame : ∀ x < S.blocks + 3, K'' x = K' x) : S.Forks C K K'' :=
  ⟨fun x hx => (hsame x (by omega)).trans (h.old x hx), fun x hx hx' => (hsame x hx').trans (h.new x hx hx')⟩

theorem known (h : S.Forks C K K') (hv : S.Valid) : S.known C K' = S.known C K :=
  Code.before_congr (h.old _ hv.block)

variable {T : Site} {x : Nat}

theorem known_new (h : S.Forks C K K') (hle : S.blocks ≤ x) (hlt : x < S.blocks + 3) :
    (T.move x).known C K' = S.known C K := by
  rw [Site.known_move, h.new x hle hlt]

/-- Code that starts in a new block keeps it. -/
theorem kept {S' : Site} (h : S.Forks C K K') (hle : S.blocks ≤ x) (hlt : x < S.blocks + 3)
    (hcode : Carries C K' (T.move x) K'' S') : S.known C K ⊆ S'.known C K'' := by
  rw [← h.known_new hle hlt]
  exact hcode.known

/-- What the last of the new blocks merges is left to it where all values are there. -/
theorem provides {r : Register} {L : List (Register × BlockRef)} (h : S.Forks C K K')
    (hat : C.instruction? (S.ref (S.blocks + 2)) 0 = some (.define r (.phi L))) (hkept : S.known C K ⊆ T.known C K')
    (hvalue : ∀ v, (v, T.place) ∈ L → (v, .word) ∈ T.known C K') :
    C.Provides K' T.routine T.block (S.ref (S.blocks + 2)) := by
  refine ⟨?_, fun r' L' v hins hmem => ?_⟩
  · change K' (S.blocks + 2) ⊆ _
    rw [h.new _ (by omega) (by omega)]
    exact hkept.trans Code.before_subset_after
  · rw [hat] at hins
    rw [← Operation.phi.inj (Instruction.define.inj (Option.some.inj hins)).2] at hmem
    exact Code.before_subset_after (hvalue v hmem)

end Site.Forks

namespace Carries

variable {C : Code} {K K₁ K₂ K₃ K₄ : Notes} {S S' S₁ S₂ S₃ S₄ : Site}

/-- The start of a construct with three new blocks. -/
theorem fork {e : Exit} (hv : S.Valid) (h : Carries C K S K₁ S₁) (hforks : S₁.Forks C K₁ K₂)
    (hends : C.Ends S₁ e) (hoperands : ∀ u ∈ e.operands, u ∈ S₁.known C K₁)
    (htargets : ∀ t ∈ e.targets, S₁.blocks ≤ t.block ∧ t.block < S₁.blocks + 3 ∧ C.Direct t) :
    Flow C K₂ S [S₁.blocks + 1, S₁.blocks + 2] ((S₁.grow 3).move S₁.blocks) := by
  have hknown := hforks.known (h.valid hv)
  refine ((h.flow.congr hv hforks.old).fork hv 3).jumpDirect hv hends ?_ fun t ht => ?_
  · exact fun u hu => hknown ▸ hoperands u hu
  · obtain ⟨hle, hlt, hdirect⟩ := htargets t ht
    refine ⟨hlt, hdirect, ?_⟩
    rw [hforks.new _ hle hlt, ← hknown]
    rfl

/-- A conditional. Both arms and what follows rely on what is there at the fork. -/
theorem conditional {b tv ev : Register} (hv : S.Valid) (h : Carries C K S K₂ S₂) (hb : (b, .word) ∈ S₂.known C K₂)
    (hfork : C.Ends S₂ (.branch b (S₂.ref S₂.blocks) (S₂.ref (S₂.blocks + 1))))
    (hregion : Region C ((S₂.grow 3).move S₂.blocks) [] S₃)
    (ht : Carries C (K₂.extend S₂.blocks (S₂.known C K₂)) ((S₂.grow 3).move S₂.blocks) K₃ S₃)
    (htv : (tv, .word) ∈ S₃.known C K₃) (htend : C.Ends S₃ (.jump (S₂.ref (S₂.blocks + 2))))
    (hregion' : Region C (S₃.move (S₂.blocks + 1)) [] S₄)
    (he : Carries C K₃ (S₃.move (S₂.blocks + 1)) K₄ S₄) (hev : (ev, .word) ∈ S₄.known C K₄)
    (heend : C.Ends S₄ (.jump (S₂.ref (S₂.blocks + 2)))) (hphi : C.Has (S₄.move (S₂.blocks + 2))
      (.define S₄.registers (.phi [(tv, S₃.place), (ev, S₄.place)]))) :
    Carries C K S K₄ (S₄.move (S₂.blocks + 2)).next ∧
      (S₄.registers, .word) ∈ (S₄.move (S₂.blocks + 2)).next.known C K₄ := by
  have hv₂ := h.valid hv
  have hb₃ : S₂.blocks + 3 ≤ S₃.blocks := hregion.blocks
  have hb₄ : S₃.blocks ≤ S₄.blocks := hregion'.blocks
  have hvt := Region.valid_first hv₂
  have hve := Region.valid_second hv₂ hregion
  have hr₃ : S₃.routine = S₂.routine := hregion.routine
  have hr₄ : S₄.routine = S₂.routine := hregion'.routine.trans hr₃
  have hforks₃ : S₂.Forks C K₂ K₃ := (Site.Forks.extend S₂ C K₂).trans ht.same
  have hforks : S₂.Forks C K₂ K₄ := hforks₃.trans fun x hx => he.same x (hx.trans_le hb₃)
  -- what is there at the fork still is at the end of each arm, also with the notes for the whole
  have hend₃ : S₃.known C K₄ = S₃.known C K₃ := Code.before_congr (he.same _ (hregion.valid hvt).block)
  have hkept₃ : S₂.known C K₂ ⊆ S₃.known C K₄ := by
    rw [hend₃]
    exact (Site.Forks.extend S₂ C K₂).kept (Nat.le_refl _) (by omega) ht
  have hkept₄ : S₂.known C K₂ ⊆ S₄.known C K₄ := hforks₃.kept (by omega) (by omega) he
  have hjoin : (S₄.move (S₂.blocks + 2)).place = S₂.ref (S₂.blocks + 2) := by
    change (⟨S₄.routine, S₂.blocks + 2⟩ : BlockRef) = ⟨S₂.routine, S₂.blocks + 2⟩
    rw [hr₄]
  have hat := hphi.instruction?
  rw [hjoin] at hat
  -- the arms end in different blocks, so each of them is looked up with its own value
  have harms := hregion.arms_ne hregion'
  have h₁ : Flow C K₄ S [S₂.blocks + 1, S₂.blocks + 2] ((S₂.grow 3).move S₂.blocks) := by
    refine h.fork hv hforks hfork ?_ fun t hmem => ?_
    · intro u hu
      rw [List.mem_singleton.mp hu]
      exact hb
    · rcases List.mem_cons.mp hmem with rfl | hmem
      · exact ⟨Nat.le_refl _, Nat.lt_add_of_pos_right (Nat.succ_pos 2), hregion.direct hvt rfl htend⟩
      · rw [List.mem_singleton.mp hmem]
        have hdirect := hregion'.direct hve rfl heend
        unfold Site.place Site.move at hdirect
        rw [hr₃] at hdirect
        exact ⟨Nat.le_add_right _ _, Nat.add_lt_add_left (by omega) _, hdirect⟩
  have h₂ : Flow C K₄ S [S₂.blocks + 2] (S₃.move (S₂.blocks + 1)) := by
    refine (h₁.sub hv (ht.flow.congr hvt he.same)).jump hv htend (fun u hu => absurd hu List.not_mem_nil) ?_
    intro t hmem
    rw [List.mem_singleton.mp hmem]
    have hlt : S₂.blocks + 2 < S₃.blocks := by omega
    refine ⟨hlt, hforks.provides hat hkept₃ fun v hv => ?_⟩
    rcases List.mem_pair.mp hv with hv | hv
    · rw [(Prod.mk.inj hv).1, hend₃]
      exact htv
    · exact absurd (BlockRef.mk.inj (Prod.mk.inj hv).2).2 harms
  have h₃ : Flow C K₄ S [] (S₄.move (S₂.blocks + 2)) := by
    refine (h₂.sub hv he.flow).jump hv heend (fun u hu => absurd hu List.not_mem_nil) ?_
    intro t hmem
    rw [List.mem_singleton.mp hmem]
    have hlt : S₂.blocks + 2 < S₄.blocks := by omega
    refine ⟨hlt, hforks.provides hat hkept₄ fun v hv => ?_⟩
    rcases List.mem_pair.mp hv with hv | hv
    · exact absurd (BlockRef.mk.inj (Prod.mk.inj hv).2).2.symm harms
    · rw [(Prod.mk.inj hv).1]
      exact hev
  have hlast : S.known C K ⊆ (S₄.move (S₂.blocks + 2)).known C K₄ := by
    rw [hforks.known_new (by omega) (by omega)]
    exact h.known
  obtain ⟨hdefine, hvalue⟩ := define hphi fun u (hu : u ∈ []) => absurd hu List.not_mem_nil
  refine ⟨⟨fun x hx => ?_, h₃.sub hv hdefine.flow, hlast.trans hdefine.known⟩, hvalue⟩
  exact (hforks.old x (hx.trans_le h.flow.stretch.blocks)).trans (h.same x hx)

/-- A loop: a test, a body that leads back to the test or to a further round, and what follows. All of it relies
on what is there before the loop. -/
theorem loop {b : Register} {e : Exit} {ins : Instruction} (hv : S.Valid) (h : Carries C K S K₁ S₁)
    (hstart : C.Ends S₁ (.jump (S₁.ref S₁.blocks))) (hregion : Region C ((S₁.grow 3).move S₁.blocks) [] S₂)
    (ht : Carries C (K₁.extend S₁.blocks (S₁.known C K₁)) ((S₁.grow 3).move S₁.blocks) K₂ S₂)
    (hb : (b, .word) ∈ S₂.known C K₂)
    (hfork : C.Ends S₂ (.branch b (S₁.ref (S₁.blocks + 1)) (S₁.ref (S₁.blocks + 2))))
    (hregion' : Region C (S₂.move (S₁.blocks + 1)) [] S₃)
    (hbody : Carries C K₂ (S₂.move (S₁.blocks + 1)) K₃ S₃) (hback : C.Ends S₃ e)
    (hoperands : ∀ u ∈ e.operands, u ∈ S₃.known C K₃) (htargets : ∀ t ∈ e.targets, ∃ x, t = S₁.ref x ∧
      (x = S₁.blocks ∨ x = S₁.blocks + 1 ∨ x = S₁.blocks + 2))
    (hafter : C.Has (S₃.move (S₁.blocks + 2)) ins) (hphi : ins.isPhi = false) :
    Carries C K S K₃ (S₃.move (S₁.blocks + 2)) := by
  have hv₁ := h.valid hv
  have hb₂ : S₁.blocks + 3 ≤ S₂.blocks := hregion.blocks
  have hb₃ : S₂.blocks ≤ S₃.blocks := hregion'.blocks
  have hvt := Region.valid_first hv₁
  have hforks₂ : S₁.Forks C K₁ K₂ := (Site.Forks.extend S₁ C K₁).trans ht.same
  have hforks : S₁.Forks C K₁ K₃ := hforks₂.trans fun x hx => hbody.same x (hx.trans_le hb₂)
  -- what is there before the loop still is after the test and after the body
  have hend₂ : S₂.known C K₃ = S₂.known C K₂ :=
    Code.before_congr (hbody.same _ (hregion.valid hvt).block)
  have hkept₂ : S₁.known C K₁ ⊆ S₂.known C K₃ := by
    rw [hend₂]
    exact (Site.Forks.extend S₁ C K₁).kept (Nat.le_refl _) (by omega) ht
  have hkept₃ : S₁.known C K₁ ⊆ S₃.known C K₃ := hforks₂.kept (by omega) (by omega) hbody
  have hdirect : ∀ x, x = S₁.blocks ∨ x = S₁.blocks + 1 ∨ x = S₁.blocks + 2 → C.Direct (S₁.ref x) :=
    fun x hx => Region.loop_direct hv₁ hregion hfork hregion' hback hafter hphi hx
  -- each exit leads to blocks of the loop that rely on what is there before it
  have hnotes : ∀ T : Site, S₁.blocks + 3 ≤ T.blocks → S₁.known C K₁ ⊆ T.known C K₃ → ∀ x,
      (x = S₁.blocks ∨ x = S₁.blocks + 1 ∨ x = S₁.blocks + 2) →
      (S₁.ref x).block < T.blocks ∧ C.Direct (S₁.ref x) ∧ K₃ (S₁.ref x).block ⊆ T.known C K₃ := by
    intro T hT hkept x hx
    refine ⟨by change x < _; omega, hdirect x hx, ?_⟩
    change K₃ x ⊆ _
    rw [hforks.new x (by omega) (by omega)]
    exact hkept
  have h₁ : Flow C K₃ S [S₁.blocks + 1, S₁.blocks + 2] ((S₁.grow 3).move S₁.blocks) := by
    refine h.fork hv hforks hstart (fun u hu => absurd hu List.not_mem_nil) fun t hmem => ?_
    rw [List.mem_singleton.mp hmem]
    exact ⟨Nat.le_refl _, Nat.lt_add_of_pos_right (Nat.succ_pos 2), hdirect _ (.inl rfl)⟩
  have h₂ : Flow C K₃ S [S₁.blocks + 2] (S₂.move (S₁.blocks + 1)) := by
    refine (h₁.sub hv (ht.flow.congr hvt hbody.same)).jumpDirect hv hfork ?_ fun t hmem => ?_
    · intro u hu
      rw [List.mem_singleton.mp hu, hend₂]
      exact hb
    · rcases List.mem_pair.mp hmem with rfl | rfl
      · exact hnotes S₂ hb₂ hkept₂ _ (.inr (.inl rfl))
      · exact hnotes S₂ hb₂ hkept₂ _ (.inr (.inr rfl))
  refine ⟨fun x hx => ?_, ?_, ?_⟩
  · exact (hforks.old x (hx.trans_le h.flow.stretch.blocks)).trans (h.same x hx)
  · refine (h₂.sub hv hbody.flow).jumpDirect hv hback hoperands fun t hmem => ?_
    obtain ⟨x, rfl, hx⟩ := htargets t hmem
    exact hnotes S₃ (hb₂.trans hb₃) hkept₃ x hx
  · rw [hforks.known_new (by omega) (by omega)]
    exact h.known

end Carries

end Mila
