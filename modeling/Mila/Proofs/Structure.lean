import Mila.Code.Check
import Mila.Proofs.Recording
import Mila.Proofs.Regions

/-! # The structure of compiled code

Every routine that a compiled program gets blocks for is complete, and its blocks fit together: exits lead to
blocks of the same routine, values are merged from exactly the blocks that lead there, and only the return
block returns. This holds of every tree, whatever its nodes are and wherever they stand.
-/

namespace Mila

/-! ## 1. Checked blocks -/

namespace Code

theorem forM_ok {α : Type} {f : α → Except CodeError Unit} {l : List α} (h : ∀ a ∈ l, f a = .ok ()) :
    l.forM f = .ok () := by
  induction l with
  | nil => rfl
  | cons a l ih =>
    have ha := h a List.mem_cons_self
    have hl := ih fun b hb => h b (List.mem_cons_of_mem _ hb)
    change (f a >>= fun _ => l.forM f) = .ok ()
    rw [ha]
    exact hl

end Code

/-- Merges of values that stand at the start of a block lead it. -/
theorem Block.phisLead_of_first {b : Block}
    (h : ∀ (i : Nat) (ins : Instruction), b.body[i]? = some ins → ins.isPhi = true → i = 0) : b.phisLead = true := by
  unfold Block.phisLead
  cases hl : b.body.toList with
  | nil => rfl
  | cons first rest =>
    -- there is no other merge behind the first instruction
    have hrest : ∀ ins ∈ rest, ins.isPhi = false := by
      intro ins hmem
      obtain ⟨i, hi⟩ := List.mem_iff_getElem?.mp hmem
      by_contra hphi
      have hat : b.body[i + 1]? = some ins := by
        rw [← Array.getElem?_toList, hl, List.getElem?_cons_succ, hi]
      exact absurd (h (i + 1) ins hat (Bool.eq_true_of_not_eq_false hphi)) (Nat.succ_ne_zero i)
    rw [List.all_eq_true]
    intro ins hmem
    rw [List.dropWhile_cons] at hmem
    split at hmem
    · rw [hrest ins ((List.dropWhile_suffix _).subset hmem)]
      rfl
    · next hfirst =>
      rcases List.mem_cons.mp hmem with rfl | hmem
      · simpa using hfirst
      · rw [hrest ins hmem]
        rfl

/-! ## 2. Every routine with blocks is complete -/

/-- A routine that holds the code of a whole subprogram. -/
def Code.Emitted (C : Code) (name : String) (g : Nat) : Prop :=
  ∃ p body globals v S, p.name = name ∧
    Lowered C (.subprogram p body) (.opened g (Emit.resultNameOf p) globals) [v] S ∧ C.Finishes S v

/-- The names that are defined later were defined before, or stand for routines that are complete. -/
def Globals.Later (C : Code) (g g' : Globals) : Prop :=
  ∀ name entry, g'.subprogram? name = some entry → entry.isDefined = true →
    g.subprogram? name = some entry ∨ C.Emitted name entry.routine

namespace Globals.Later

variable {C : Code} {g₁ g₂ g₃ : Globals}

theorem refl (g : Globals) : Later C g g := fun _ _ h _ => .inl h

theorem trans (h : Later C g₁ g₂) (h' : Later C g₂ g₃) : Later C g₁ g₃ := by
  intro name entry he hd
  rcases h' name entry he hd with h₂ | h₂
  · exact h name entry h₂ hd
  · exact .inr h₂

end Globals.Later

/-- What a phrase defines is complete in the end. -/
theorem Lowered.later {C : Code} {ph : Phrase} {S S' : Site} {rs : List Register}
    (h : Lowered C ph S rs S') : Globals.Later C S.globals S'.globals := by
  induction h with
  | op _ _ | store _ | targetVariable _ | forwardKnown _ | sequenceNil | argumentsNil
  | parametersNil => exact .refl _
  | arithmetic _ _ ih | comparison _ _ ih | resultVariable _ _ ih | resultZero _ _ ih | number _ ih
  | scalarDecl _ _ _ ih | readVariable _ _ ih | readConstant _ _ _ ih | intrinsic _ _ ih | block _ ih
  | value _ ih => exact ih
  | booleanize _ _ ih₁ ih₂ | element _ _ ih₁ ih₂ | targetElement _ _ _ ih₁ ih₂ | call _ _ _ _ _ ih₁ ih₂
  | exit _ _ _ ih₁ ih₂ | noValue _ _ ih₁ ih₂ | sequenceCons _ _ ih₁ ih₂ | argumentsCons _ _ ih₁ ih₂
  | subprogram _ _ _ _ ih₁ ih₂ => exact ih₁.trans ih₂
  | logical _ _ _ _ ih₁ ih₂ ih₃ | arrayDecl _ _ _ _ _ ih₁ ih₂ ih₃ | assign _ _ _ ih₁ ih₂ ih₃
  | binary _ _ _ _ ih₁ ih₂ ih₃ | program _ _ _ ih₁ ih₂ ih₃ => exact ih₁.trans (ih₂.trans ih₃)
  | conditional _ _ _ _ _ _ _ _ ih₁ ih₂ ih₃ ih₄ | whileLoop _ _ _ _ _ _ _ ih₁ ih₂ ih₃ ih₄
  | parametersCons _ _ _ _ _ ih₁ ih₂ ih₃ ih₄ => exact ih₁.trans (ih₂.trans (ih₃.trans ih₄))
  | forLoop _ _ _ _ _ _ _ _ _ _ _ _ _ _ _ _ ih₁ ih₂ ih₃ ih₄ ih₅ ih₆ ih₇ ih₈ ih₉ ih₁₀ ih₁₁ ih₁₂ =>
    have h₄ := ih₁.trans (ih₂.trans (ih₃.trans ih₄))
    have h₈ := ih₅.trans (ih₆.trans (ih₇.trans ih₈))
    exact h₄.trans (h₈.trans (ih₉.trans (ih₁₀.trans (ih₁₁.trans ih₁₂))))
  | constantDecl hg =>
    intro name entry he _
    rw [Globals.subprogram?_defineConstant? hg] at he
    exact .inl he
  | forwardNew _ =>
    intro name entry he hd
    rw [Globals.subprogram?_register] at he
    -- what is announced is not defined yet
    split at he
    · rw [← Option.some.inj he] at hd
      cases hd
    · exact .inl he
  | @define p body _ _ _ _ _ hbody hfinish ih =>
    intro name entry he hd
    -- a subprogram is defined here, or inside of the one that is
    rcases ih name entry he hd with h₁ | h₁
    · change (Globals.register _ _ _).subprogram? name = some entry at h₁
      rw [Globals.subprogram?_register] at h₁
      split at h₁
      · next hname =>
        rw [← Option.some.inj h₁]
        exact .inr ⟨p, body, _, _, _, hname.symm, hbody, hfinish⟩
      · exact .inl h₁
    · exact .inr h₁

/-- A routine from its start to its end. -/
structure Code.Whole (C : Code) (g : Nat) (S : Site) (v : Register) : Prop where
  region : ∃ name globals, Region C (.opened g name globals) [] S
  finishes : C.Finishes S v

theorem Site.opened_valid (g : Nat) (name : Option String) (globals : Globals) :
    (Site.opened g name globals).Valid := ⟨Nat.one_lt_two, Nat.zero_lt_two, Nat.zero_ne_one⟩

/-- The routine of a program or of a subprogram of it. -/
theorem Program.Compiled.whole {p : Program} {C : Code} {v : Register} {S : Site}
    (h : p.Compiled C v S) {g : Nat} (hg : C.blocksOf g ≠ 0) : ∃ S' v', C.Whole g S' v' := by
  obtain ⟨b, hb⟩ := Code.block_of_lt_blocksOf (Nat.pos_of_ne_zero hg)
  obtain ⟨r, hr⟩ := Code.routine_of_block hb
  obtain ⟨entry, hentry, hroutine⟩ := h.registry.named g r hr
  have hdefined := h.registry.defined_of_blocks hg r.name entry hentry hroutine
  rcases h.lowered.later r.name entry hentry hdefined with hold | hnew
  · -- one of the routines that every program starts with, and not one of the library
    change Globals.initial.subprogram? r.name = some entry at hold
    rw [Globals.subprogram?_initial] at hold
    split at hold
    · rw [← Option.some.inj hold] at hroutine
      rw [← hroutine, Code.blocksOf_of_routine h.printi] at hg
      exact absurd rfl hg
    · split at hold
      · rw [← Option.some.inj hold] at hroutine
        rw [← hroutine, Code.blocksOf_of_routine h.writeln] at hg
        exact absurd rfl hg
      · split at hold
        · rw [← Option.some.inj hold] at hroutine
          obtain rfl : 0 = g := hroutine
          exact ⟨S, v, ⟨_, _, h.lowered.region (Site.opened_valid _ _ _) trivial⟩, h.finishes⟩
        · cases hold
  · obtain ⟨p', body, globals, v', S', -, hlow, hfinish⟩ := hnew
    rw [hroutine] at hlow
    exact ⟨S', v', ⟨_, _, hlow.region (Site.opened_valid _ _ _) trivial⟩, hfinish⟩

/-! ## 3. How the blocks of a routine fit together -/

namespace Code.Whole

variable {C : Code} {g : Nat} {S : Site} {v : Register}

theorem routine (h : C.Whole g S v) : S.routine = g := by
  obtain ⟨_, _, hregion⟩ := h.region
  exact hregion.routine

theorem blocks (h : C.Whole g S v) : C.blocksOf g = S.blocks := by
  rw [← h.routine]
  exact h.finishes.blocks

theorem place (h : C.Whole g S v) : S.place = ⟨g, S.block⟩ := by
  unfold Site.place
  rw [h.routine]

variable {x i : Nat} {ins : Instruction}

theorem block_lt (h : C.Whole g S v) {b : Block} (hb : C.block? ⟨g, x⟩ = some b) : x < S.blocks :=
  h.blocks ▸ Code.block_lt_blocksOf hb

theorem instruction_lt (h : C.Whole g S v) (hins : C.instruction? ⟨g, x⟩ i = some ins) : x < S.blocks := by
  obtain ⟨b, hb, -⟩ := Option.bind_eq_some_iff.mp hins
  exact h.block_lt hb

theorem exit_lt (h : C.Whole g S v) {e : Exit} (he : C.exit? ⟨g, x⟩ = some e) : x < S.blocks := by
  obtain ⟨b, hb, -⟩ := Option.bind_eq_some_iff.mp he
  exact h.block_lt hb

/-- The last block leads to the return block. -/
theorem exit_last (h : C.Whole g S v) : C.exit? ⟨g, S.block⟩ = some (.jump ⟨g, 1⟩) := by
  have hexit := h.finishes.ends.exit?
  unfold Site.ref at hexit
  rwa [h.place, h.routine] at hexit

/-- All blocks but the return block stand between the start and the end of the routine. -/
theorem owns {S : Site} (name : Option String) (globals : Globals) (hx : x < S.blocks)
    (hone : x ≠ 1) : (Site.opened g name globals).Owns S x := by
  change x = 0 ∨ (2 ≤ x ∧ x < S.blocks)
  omega

/-- Blocks other than the return block lead to blocks of the routine. -/
theorem exits (h : C.Whole g S v) (hx : x < S.blocks) (hone : x ≠ 1) :
    ∃ e, C.exit? ⟨g, x⟩ = some e ∧ e.isRet = false ∧ ∀ t ∈ e.targets, t.routine = g ∧
      t.block < S.blocks ∧ (t.block = 1 ∨ C.Merges ⟨g, x⟩ t) := by
  obtain ⟨name, globals, hregion⟩ := h.region
  have hblocks : 2 ≤ S.blocks := hregion.blocks
  by_cases hlast : x = S.block
  · subst hlast
    refine ⟨_, h.exit_last, rfl, fun t ht => ?_⟩
    rw [List.mem_singleton.mp ht]
    exact ⟨rfl, hblocks, .inl rfl⟩
  · obtain ⟨e, he, hret, ht⟩ := hregion.done x ⟨owns name globals hx hone, hlast, List.not_mem_nil⟩
    refine ⟨e, he, hret, fun t hmem => ?_⟩
    obtain ⟨h₁, h₂ | ⟨h₂, h₃, h₄⟩⟩ := ht t hmem
    · exact ⟨h₁, by omega, .inl h₂⟩
    · exact ⟨h₁, h₃, .inr h₄⟩

theorem returns (h : C.Whole g S v) : ∃ value, C.exit? ⟨g, 1⟩ = some (.ret value) ∧
    ∀ i ins, C.instruction? ⟨g, 1⟩ i = some ins →
      i = 0 ∧ ins = .define S.registers (.phi (S.leave v).returns) := by
  have hreturns := h.finishes.returns
  rw [h.routine] at hreturns
  unfold Code.Returns at hreturns
  -- a single value is returned directly, several are merged before
  split at hreturns
  · next value _ _ =>
    obtain ⟨-, b, hb, hbody, he⟩ := hreturns
    refine ⟨value, ?_, fun i ins hins => ?_⟩
    · unfold Code.exit?
      rw [hb, Option.bind_some, he]
    · unfold Code.instruction? at hins
      rw [hb, Option.bind_some, hbody] at hins
      cases hins
  · obtain ⟨-, b, hb, hbody, he⟩ := hreturns
    refine ⟨S.registers, ?_, fun i ins hins => ?_⟩
    · unfold Code.exit?
      rw [hb, Option.bind_some, he]
    · unfold Code.instruction? at hins
      rw [hb, Option.bind_some, hbody] at hins
      cases i with
      | zero => exact ⟨rfl, (Option.some.inj hins).symm⟩
      | succ i => cases hins

/-- The instructions of a block other than the return block stand between the start and the end of the
routine. -/
theorem holds (h : C.Whole g S v) (name : Option String) (globals : Globals)
    (hone : x ≠ 1) (hins : C.instruction? ⟨g, x⟩ i = some ins) : (Site.opened g name globals).Holds [] S x i := by
  refine ⟨owns name globals (h.instruction_lt hins) hone, List.not_mem_nil, fun _ => Nat.zero_le i, ?_⟩
  intro hlast
  by_contra hi
  have hnone := h.finishes.ends.instruction? (Nat.le_of_not_lt hi)
  rw [h.place, ← hlast, hins] at hnone
  cases hnone

theorem sound (h : C.Whole g S v) (hone : x ≠ 1) (hins : C.instruction? ⟨g, x⟩ i = some ins) :
    ∃ name globals, C.Sound (.opened g name globals) S x i ins := by
  obtain ⟨name, globals, hregion⟩ := h.region
  exact ⟨name, globals, hregion.sound x i ins (h.holds name globals hone hins) hins⟩

/-- A block that leads to another one is one of the routine, but not the return block. -/
theorem edge_block (h : C.Whole g S v) {t : BlockRef} (hedge : C.Edge ⟨g, x⟩ t) : x < S.blocks ∧ x ≠ 1 := by
  obtain ⟨e, he, hmem⟩ := hedge
  refine ⟨h.exit_lt he, ?_⟩
  rintro rfl
  obtain ⟨value, hret, -⟩ := h.returns
  rw [hret] at he
  rw [← Option.some.inj he] at hmem
  cases hmem

/-- The return block merges values from exactly the blocks that lead to it. -/
theorem merge_return (h : C.Whole g S v) : ((S.leave v).returns.map Prod.snd).Nodup ∧
    ∀ z : BlockRef, z ∈ (S.leave v).returns.map Prod.snd ↔ z.routine = g ∧ C.Edge z ⟨g, 1⟩ := by
  obtain ⟨name, globals, hregion⟩ := h.region
  obtain ⟨R, hR, hnodup, hmem⟩ := hregion.returns
  have hreturns : (S.leave v).returns.map Prod.snd = R.map Prod.snd ++ [S.place] := by
    change (S.returns ++ [(v, S.place)]).map Prod.snd = _
    rw [hR, List.map_append]
    rfl
  rw [hreturns]
  refine ⟨?_, fun z => ?_⟩
  · -- the last block was not done before
    refine hnodup.append (List.nodup_singleton _) fun z hz hz' => ?_
    rw [List.mem_singleton.mp hz', hmem] at hz
    exact hz.2.1.2.1 rfl
  · rw [List.mem_append, List.mem_singleton, hmem]
    constructor
    · rintro (⟨h₁, -, h₃⟩ | rfl)
      · exact ⟨h₁, h₃⟩
      · rw [h.place]
        exact ⟨rfl, .jump ⟨g, 1⟩, h.exit_last, List.mem_singleton.mpr rfl⟩
    · rintro ⟨hz, hedge⟩
      obtain ⟨g', x⟩ := z
      obtain rfl : g' = g := hz
      -- all blocks but the last one are done
      by_cases hlast : x = S.block
      · exact .inr (by rw [h.place, hlast])
      · obtain ⟨hlt, hne⟩ := h.edge_block hedge
        exact .inl ⟨rfl, ⟨owns name globals hlt hne, hlast, List.not_mem_nil⟩, hedge⟩

/-- A block merges values, if it does, before anything else and from exactly the blocks that lead to
it. -/
theorem merge (h : C.Whole g S v) {r : Register} {L : List (Register × BlockRef)}
    (hins : C.instruction? ⟨g, x⟩ i = some (.define r (.phi L))) : i = 0 ∧ (L.map Prod.snd).Nodup ∧
      ∀ z : BlockRef, z ∈ L.map Prod.snd ↔ z.routine = g ∧ C.Edge z ⟨g, x⟩ := by
  -- only the return block lies outside of the region
  by_cases hone : x = 1
  · subst hone
    obtain ⟨value, -, honly⟩ := h.returns
    obtain ⟨hi, hphi⟩ := honly i _ hins
    rw [Operation.phi.inj (Instruction.define.inj hphi).2]
    exact ⟨hi, h.merge_return⟩
  · obtain ⟨name, globals, hsound⟩ := h.sound hone hins
    obtain ⟨hnew, hi, hnodup, hedges⟩ := hsound.phi r L rfl
    refine ⟨hi, hnodup, fun z => ⟨fun hz => hedges z hz, ?_⟩⟩
    rintro ⟨hz, hedge⟩
    obtain ⟨g', y⟩ := z
    obtain rfl : g' = g := hz
    obtain ⟨hlt, hne⟩ := h.edge_block hedge
    obtain ⟨e, he, hmem⟩ := hedge
    obtain ⟨e', he', -, ht⟩ := h.exits hlt hne
    rw [he] at he'
    rw [← Option.some.inj he'] at ht
    obtain ⟨-, -, hold | hmerges⟩ := ht _ hmem
    · exact absurd hold hone
    · rw [hi] at hins
      exact hmerges r L hins

end Code.Whole

/-! ## 4. The whole code -/

/-- Code whose blocks and routines fit together. -/
structure Code.WellStructured (C : Code) : Prop where
  /-- Every block has an exit, and makes its merges of values before anything else. -/
  checked : C.check = .ok ()
  /-- Exits lead to blocks that there are, of the same routine. -/
  targets : ∀ a e t, C.exit? a = some e → t ∈ e.targets →
    t.routine = a.routine ∧ (C.block? t).isSome
  /-- Merged values come from blocks that there are, of the same routine. -/
  sources : ∀ a i r L z, C.instruction? a i = some (.define r (.phi L)) → z ∈ L.map Prod.snd →
    z.routine = a.routine ∧ (C.block? z).isSome
  /-- Values are merged from exactly the blocks that lead to a block, and once from each. -/
  merges : ∀ a i r L, C.instruction? a i = some (.define r (.phi L)) →
    (L.map Prod.snd).Nodup ∧ ∀ z, z ∈ L.map Prod.snd ↔ C.Edge z a
  /-- A routine that has blocks returns from its second one. -/
  returns : ∀ g, C.blocksOf g ≠ 0 → ∃ v, C.exit? ⟨g, 1⟩ = some (.ret v)
  /-- It does so from no other block. -/
  returnsOnly : ∀ a v, C.exit? a = some (.ret v) → a.block = 1
  /-- Calls name routines that there are, with as many arguments as these have parameters. -/
  calls : ∀ a i r g args, C.instruction? a i = some (.define r (.call g args)) →
    ∃ R, C.routines[g]? = some R ∧ R.params.length = args.length

namespace Program.Compiled

variable {p : Program} {C : Code} {v : Register} {S : Site}

variable {a : BlockRef} {b : Block}

theorem whole_of_block (h : p.Compiled C v S) (hb : C.block? a = some b) : ∃ S' v', C.Whole a.routine S' v' := by
  have hlt : a.block < C.blocksOf a.routine := Code.block_lt_blocksOf hb
  exact h.whole (by omega)

theorem whole_of_instruction (h : p.Compiled C v S) {i : Nat} {ins : Instruction}
    (hins : C.instruction? a i = some ins) : ∃ S' v', C.Whole a.routine S' v' := by
  obtain ⟨b, hb, -⟩ := Option.bind_eq_some_iff.mp hins
  exact h.whole_of_block hb

theorem whole_of_exit (h : p.Compiled C v S) {e : Exit} (he : C.exit? a = some e) :
    ∃ S' v', C.Whole a.routine S' v' := by
  obtain ⟨b, hb, -⟩ := Option.bind_eq_some_iff.mp he
  exact h.whole_of_block hb

theorem exit_isSome (h : p.Compiled C v S) (hb : C.block? a = some b) : ∃ e, b.exit = some e := by
  obtain ⟨S', v', hwhole⟩ := h.whole_of_block hb
  have hexit : C.exit? a = b.exit := by
    unfold Code.exit?
    rw [hb, Option.bind_some]
  obtain ⟨g, x⟩ := a
  by_cases hone : x = 1
  · subst hone
    obtain ⟨value, hret, -⟩ := hwhole.returns
    exact ⟨_, hexit.symm.trans hret⟩
  · obtain ⟨e, he, -⟩ := hwhole.exits (hwhole.block_lt hb) hone
    exact ⟨e, hexit.symm.trans he⟩

theorem checked (h : p.Compiled C v S) : C.check = .ok () := by
  refine Code.forM_ok fun r hr => Code.forM_ok fun b hb => ?_
  obtain ⟨g, hg⟩ := List.mem_iff_getElem?.mp hr
  obtain ⟨x, hx⟩ := List.mem_iff_getElem?.mp hb
  rw [Array.getElem?_toList] at hg hx
  have hblock : C.block? ⟨g, x⟩ = some b := by
    unfold Code.block?
    rw [hg, Option.bind_some, hx]
  obtain ⟨e, he⟩ := h.exit_isSome hblock
  -- a merge is the first instruction of its block
  have hlead : b.phisLead = true := by
    refine Block.phisLead_of_first fun i ins hi hphi => ?_
    obtain ⟨S', v', hwhole⟩ := h.whole_of_block hblock
    obtain ⟨r, L, rfl⟩ := Instruction.isPhi_iff.mp hphi
    have hins : C.instruction? ⟨g, x⟩ i = some (.define r (.phi L)) := by
      unfold Code.instruction?
      rw [hblock, Option.bind_some, hi]
    exact (hwhole.merge hins).1
  unfold Block.check
  rw [he, hlead]
  rfl

theorem wellStructured (h : p.Compiled C v S) : C.WellStructured := by
  have htargets : ∀ a e t, C.exit? a = some e → t ∈ e.targets →
      t.routine = a.routine ∧ (C.block? t).isSome := by
    intro a e t he hmem
    obtain ⟨S', v', hwhole⟩ := h.whole_of_exit he
    obtain ⟨hlt, hone⟩ := hwhole.edge_block ⟨e, he, hmem⟩
    obtain ⟨e', he', -, ht⟩ := hwhole.exits hlt hone
    rw [show (⟨a.routine, a.block⟩ : BlockRef) = a from rfl, he] at he'
    rw [← Option.some.inj he'] at ht
    obtain ⟨hroutine, hblock, -⟩ := ht t hmem
    rw [← hwhole.blocks, ← hroutine] at hblock
    obtain ⟨b', hb'⟩ := Code.block_of_lt_blocksOf hblock
    exact ⟨hroutine, by rw [hb']; rfl⟩
  refine ⟨h.checked, htargets, ?_, ?_, ?_, ?_, ?_⟩
  · intro a i r L z hins hz
    obtain ⟨S', v', hwhole⟩ := h.whole_of_instruction hins
    obtain ⟨hroutine, e, he, -⟩ := ((hwhole.merge hins).2.2 z).mp hz
    obtain ⟨b, hb, -⟩ := Option.bind_eq_some_iff.mp he
    exact ⟨hroutine, by rw [hb]; rfl⟩
  · intro a i r L hins
    obtain ⟨S', v', hwhole⟩ := h.whole_of_instruction hins
    obtain ⟨-, hnodup, hmem⟩ := hwhole.merge hins
    refine ⟨hnodup, fun z => ⟨fun hz => ((hmem z).mp hz).2, fun hedge => (hmem z).mpr ⟨?_, hedge⟩⟩⟩
    -- no exit leads out of its routine
    obtain ⟨e, he, ht⟩ := hedge
    exact (htargets z e a he ht).1.symm
  · intro g hg
    obtain ⟨S', v', hwhole⟩ := h.whole hg
    obtain ⟨value, hret, -⟩ := hwhole.returns
    exact ⟨value, hret⟩
  · intro a value hret
    obtain ⟨S', v', hwhole⟩ := h.whole_of_exit hret
    by_contra hone
    obtain ⟨e, he, hno, -⟩ := hwhole.exits (hwhole.exit_lt hret) hone
    rw [show (⟨a.routine, a.block⟩ : BlockRef) = a from rfl, hret] at he
    rw [← Option.some.inj he] at hno
    cases hno
  · intro a i r g args hins
    obtain ⟨S', v', hwhole⟩ := h.whole_of_instruction hins
    -- the return block calls nothing
    by_cases hone : a.block = 1
    · obtain ⟨value, -, honly⟩ := hwhole.returns
      rw [← hone] at honly
      cases (honly i _ hins).2
    · obtain ⟨name, globals, hsound⟩ := hwhole.sound hone hins
      obtain ⟨callee, params, hheading, hlength⟩ := hsound.fits r _ rfl
      obtain ⟨R, hR, hcallee⟩ := Option.map_eq_some_iff.mp hheading
      exact ⟨R, hR, by rw [(Prod.mk.inj hcallee).2, hlength]⟩

end Program.Compiled

/-- Code whose blocks and routines fit together names only what it has. -/
theorem Code.WellStructured.refers {C : Code} (h : C.WellStructured) {g : Nat} {r : Routine}
    (hr : C.routines[g]? = some r) {b : Block} (hb : b ∈ r.blocks) : b.Refers C.routines.size g r.blocks.size := by
  obtain ⟨x, hx⟩ := Array.mem_iff_getElem?.mp hb
  have hblock : C.block? ⟨g, x⟩ = some b := by
    unfold Code.block?
    rw [hr, Option.bind_some, hx]
  have hthere : ∀ z : BlockRef, z.routine = g ∧ (C.block? z).isSome → z.routine = g ∧ z.block < r.blocks.size := by
    rintro ⟨_, y⟩ ⟨rfl, hz⟩
    obtain ⟨b', hb'⟩ := Option.isSome_iff_exists.mp hz
    have hy := Code.block_lt_blocksOf hb'
    rw [Code.blocksOf_eq, hr] at hy
    exact ⟨rfl, hy⟩
  refine ⟨fun target op hop => ?_, fun z hz => ?_⟩
  · obtain ⟨i, hi⟩ := Array.mem_iff_getElem?.mp hop
    have hat : C.instruction? ⟨g, x⟩ i = some (.define target op) := by
      unfold Code.instruction?
      rw [hblock, Option.bind_some, hi]
    -- only calls name routines, and only merges of values name blocks
    refine ⟨fun callee hcallee => ?_, fun z hz => ?_⟩
    · cases op with
      | call g' args =>
        obtain ⟨R, hR, -⟩ := h.calls _ _ _ _ _ hat
        rw [List.mem_singleton.mp hcallee]
        exact (Array.getElem?_eq_some_iff.mp hR).1
      | _ => cases hcallee
    · cases op with
      | phi incoming => exact hthere z (h.sources _ _ _ _ z hat hz)
      | _ => cases hz
  · cases hexit : b.exit with
    | none =>
      rw [hexit] at hz
      cases hz
    | some e =>
      have hat : C.exit? ⟨g, x⟩ = some e := by
        unfold Code.exit?
        rw [hblock, Option.bind_some, hexit]
      rw [hexit] at hz
      refine hthere z (h.targets _ e z hat ?_)
      cases e <;> exact hz

/-- A program that compiles gives code whose blocks and routines fit together. While it is compiled, no
block is terminated that has an exit already: each block of the code is terminated exactly once. -/
theorem Program.compileInto_wellStructured (p : Program) (C : Code)
    (h : p.compileInto Code.empty = (.ok (), C)) :
    C.WellStructured ∧ ∃ notes, p.compileInto Recording.empty = (.ok (), ⟨C, notes⟩) ∧
      (∀ note ∈ notes, note.2 = none) ∧ (notes.map Prod.fst).Nodup ∧
      ∀ a, a ∈ notes.map Prod.fst ↔ (C.block? a).isSome := by
  have hforget := p.compileInto_forget Recording.empty
  rw [show Recording.empty.code = Code.empty from rfl, h] at hforget
  obtain ⟨hok, hcode⟩ := Prod.mk.inj hforget
  have hrun : p.compileInto Recording.empty = (.ok (), (p.compileInto Recording.empty).2) := by
    rw [hok]
  obtain ⟨hintact, v, S, hcompiled⟩ := Program.compileInto_spec rfl Recording.Intact.empty hrun
  change p.Compiled (p.compileInto Recording.empty).2.code v S at hcompiled
  rw [← hcode] at hcompiled
  refine ⟨hcompiled.wellStructured, (p.compileInto Recording.empty).2.notes, ?_, hintact.before,
    hintact.once, fun a => ?_⟩
  · rw [hcode]
    exact hrun
  · rw [hintact.closed, ← hcode]
    -- the blocks that were terminated are those with an exit, which all of them have
    constructor
    · intro hexit
      obtain ⟨e, he⟩ := Option.isSome_iff_exists.mp hexit
      obtain ⟨b, hb, -⟩ := Option.bind_eq_some_iff.mp he
      rw [hb]
      rfl
    · intro hblock
      obtain ⟨b, hb⟩ := Option.isSome_iff_exists.mp hblock
      obtain ⟨e, he⟩ := hcompiled.exit_isSome hb
      unfold Code.exit?
      rw [hb, Option.bind_some, he]
      rfl

/-- A function that may be left early, and a call of it. -/
def Program.earlyExit : Program where
  name := "early"
  declarations := [.subprogram ⟨.function, "f", ["x"]⟩
    [.variableDecl (.scalar "f"), .conditional (.ident "x") .exit (.number 0), .ident "f"]]
  body := .block [.call "f" [.number 1]]

theorem Program.earlyExit_wellStructured :
    ∃ C, Program.earlyExit.compileInto Code.empty = (.ok (), C) ∧ C.WellStructured := by
  have hok : (Program.earlyExit.compileInto Code.empty).1 = .ok () := by decide +kernel
  have h : Program.earlyExit.compileInto Code.empty =
      (.ok (), (Program.earlyExit.compileInto Code.empty).2) := by rw [← hok]
  exact ⟨_, h, (Program.compileInto_wellStructured _ _ h).1⟩

end Mila
