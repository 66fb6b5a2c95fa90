import Mila.Proofs.Counting
import Mila.Proofs.Dominance

/-! # What registers hold during a call

A call goes through its routine along ways that the code has, and its registers hold what the instructions on the
way have put there. So an instruction finds all that it reads, whatever came before. The entry block is gone
through once only: what its instructions have put into registers stays there until the call is over, and each of
the allocations they make is known by its number.
-/

namespace Mila

open Run Machine

/-! ## 1. Code as compiled -/

/-- What executions of compiled code rely on. -/
structure Code.Ordered (C : Code) : Prop where
  wellFormed : C.WellFormed
  phis : C.PhisFirst
  /-- There are registers for all instructions. -/
  registered : C.Registered
  /-- Exits stay within their routine, and none leads back to its entry. -/
  edges : ∀ {g x : Nat} {t : BlockRef}, C.Edge ⟨g, x⟩ t → t.routine = g ∧ t.block ≠ 0

/-- The entry block is not entered again. -/
theorem Code.Whole.not_entry {C : Code} {g : Nat} {S : Site} {v : Register} (h : C.Whole g S v) {x : Nat}
    {t : BlockRef} (hedge : C.Edge ⟨g, x⟩ t) : t.routine = g ∧ t.block ≠ 0 := by
  obtain ⟨hlt, hone⟩ := h.edge_block hedge
  obtain ⟨e, he, ht⟩ := hedge
  obtain ⟨name, globals, hregion⟩ := h.region
  by_cases hlast : x = S.block
  · rw [hlast, h.exit_last] at he
    rw [← Option.some.inj he] at ht
    rw [List.mem_singleton.mp ht]
    exact ⟨rfl, Nat.one_ne_zero⟩
  · obtain ⟨e', he', -, htargets⟩ := hregion.done x ⟨owns name globals hlt hone, hlast, List.not_mem_nil⟩
    obtain rfl := Option.some.inj (he.symm.trans he')
    obtain ⟨hroutine, hreturn | ⟨hnew, -, -⟩⟩ := htargets t ht
    · exact ⟨hroutine, by rw [hreturn]; exact Nat.one_ne_zero⟩
    · have hblocks : 2 ≤ t.block := hnew
      exact ⟨hroutine, by omega⟩

namespace Program.Compiled

variable {p : Program} {C : Code} {v : Register} {S : Site}

theorem registered (h : p.Compiled C v S) : C.Registered := by
  rintro ⟨g, x⟩ i ins r hins htarget
  obtain ⟨S', v', hwhole⟩ := h.whole_of_instruction hins
  have hreturns := hwhole.finishes.returns
  rw [hwhole.routine] at hreturns
  have hinner : x ≠ 1 → r < S'.registers := by
    intro hone
    obtain ⟨name, G, hsound⟩ := hwhole.sound hone hins
    exact (hsound.target r htarget).2
  unfold Code.Returns at hreturns
  split at hreturns
  · obtain ⟨hregisters, b, hb, hbody, -⟩ := hreturns
    rw [hregisters]
    apply hinner
    rintro rfl
    rw [Code.instruction?, hb, Option.bind_some, hbody] at hins
    cases hins
  · -- the merge in the return block has a register of its own
    obtain ⟨hregisters, -⟩ := hreturns
    rw [hregisters]
    by_cases hone : x = 1
    · subst hone
      obtain ⟨_, -, honly⟩ := hwhole.returns
      obtain ⟨-, rfl⟩ := honly i ins hins
      cases htarget
      exact Nat.lt_succ_self _
    · exact Nat.lt_succ_of_lt (hinner hone)

theorem ordered (h : p.Compiled C v S) (hformed : p.Formed) : C.Ordered where
  wellFormed := h.wellFormed hformed
  phis := h.phisFirst
  registered := h.registered
  edges hedge := by
    obtain ⟨e, he, ht⟩ := hedge
    obtain ⟨S', v', hwhole⟩ := h.whole_of_exit he
    exact hwhole.not_entry ⟨e, he, ht⟩

end Program.Compiled

/-! ## 2. All that can happen in a step -/

namespace Activation

/-- What a step of an activation that goes on does to its registers and its place. -/
inductive Turns (C : Code) (g : Nat) (a : Activation) (m : Machine) (a' : Activation) (m' : Machine) : Prop where
  | defined {r : Register} {o : Operation} {content : Content} {call : Nat → List Word → Run Word} {t : Nat}
      (instruction : C.instruction? ⟨g, a.block⟩ a.done = some (.define r o)) (phi : o.isPhi = false)
      (value : evaluate call a o (m.withSteps t) = .ok (some content) m') (room : r < a.registers.size)
      (next : a' = a.defined r content)
  /-- A merge was made when its block was entered. -/
  | passed {r : Register} {incoming : List (Register × BlockRef)}
      (instruction : C.instruction? ⟨g, a.block⟩ a.done = some (.define r (.phi incoming)))
      (next : a' = a.advance)
  | stored {v s : Register} (instruction : C.instruction? ⟨g, a.block⟩ a.done = some (.store v s))
      (next : a' = a.advance)
  | entered {x : Nat} (ended : C.instruction? ⟨g, a.block⟩ a.done = none) (edge : C.Edge ⟨g, a.block⟩ ⟨g, x⟩)
      (direct : C.Direct ⟨g, x⟩) (next : a' = a.goto x)
  | merged {x : Nat} {r : Register} {incoming : List (Register × BlockRef)} {v : Word}
      (ended : C.instruction? ⟨g, a.block⟩ a.done = none) (edge : C.Edge ⟨g, a.block⟩ ⟨g, x⟩)
      (phi : C.instruction? ⟨g, x⟩ 0 = some (.define r (.phi incoming))) (room : r < a.registers.size)
      (next : a' = a.gotoWith x r v)

variable {C : Code} {L : Limits} {g : Nat} {a a' : Activation} {m m' : Machine}

/-- Entering a block makes its merge, if there is one. The first block that a call enters has none. -/
theorem of_enter (hphis : C.PhisFirst) (ha : a.Executes C g) {origin : Option Nat} {x : Nat}
    (h : a.enter origin x m = .ok a' m') : m' = m ∧ (C.Direct ⟨g, x⟩ ∧ a' = a.goto x ∨
      origin ≠ none ∧ ∃ r incoming v, C.instruction? ⟨g, x⟩ 0 = some (.define r (.phi incoming)) ∧
        r < a.registers.size ∧ a' = a.gotoWith x r v) := by
  cases hb : a.routine.blocks[x]? with
  | none =>
    simp only [enter, hb] at h
    cases h
  | some b =>
    have hat : ∀ i, C.instruction? ⟨g, x⟩ i = b.body[i]? := by
      intro i
      rw [Code.instruction?, ha.block?, hb]
      rfl
    -- the block merges nothing, or a single value
    by_cases hdirect : C.Direct ⟨g, x⟩
    · have hnone : b.leadingPhis = [] := Block.leadingPhis_nil fun r L => by
        rw [← hat]
        exact hdirect r L
      rw [enter_direct hb hnone] at h
      cases h
      exact ⟨rfl, .inl ⟨hdirect, rfl⟩⟩
    · unfold Code.Direct at hdirect
      push Not at hdirect
      obtain ⟨r, incoming, hphi⟩ := hdirect
      have hsingle : b.leadingPhis = [(r, incoming)] := by
        refine Block.leadingPhis_single (by rw [← hat]; exact hphi) fun r' L' hins => ?_
        rw [← hat] at hins
        exact absurd (hphis _ _ _ _ hins) Nat.one_ne_zero
      simp only [enter, hb, hsingle, List.mapM_cons, List.mapM_nil, bind_assoc, pure_bind] at h
      obtain ⟨v, m₁, hmerged, hrest⟩ := ok_of_bind h
      obtain rfl := (a.meets_merged m origin incoming).ok hmerged
      obtain ⟨a₁, m₂, hset, hreturn⟩ := ok_of_bind hrest
      cases hreturn
      simp only [setWords, bind_pure] at hset
      obtain ⟨rfl, rfl⟩ := (a.meets_set m₁ r (.word v)).ok hset
      refine ⟨rfl, .inr ⟨?_, r, incoming, v, hphi, ?_, rfl⟩⟩
      · -- without a block before there is nothing to merge from
        rintro rfl
        cases hmerged
      · by_contra hroom
        rw [set, if_neg hroom] at hset
        cases hset

/-- An activation at the end of a block goes on to a block that the code leads to. -/
theorem turns_of_enter (hC : C.Ordered) (ha : a.Executes C g) (hi : a.instruction? = none) {e : Exit}
    (he : a.exit? = some e) {target : BlockRef} (ht : target ∈ e.targets) {m₁ : Machine}
    (h : a.enter (some a.block) target.block m₁ = .ok a' m') : a.Turns C g m a' m' := by
  have hend := ha.instruction?.trans hi
  have hedge : C.Edge ⟨g, a.block⟩ target := ⟨e, ha.exit?.trans he, ht⟩
  obtain ⟨routine, x⟩ := target
  obtain rfl : routine = g := (hC.edges hedge).1
  obtain ⟨-, ⟨hdirect, hnext⟩ | ⟨-, r, incoming, v, hphi, hr, hnext⟩⟩ := of_enter hC.phis ha h
  · exact .entered hend hedge hdirect hnext
  · exact .merged hend hedge hphi hr hnext

end Activation

/-- What a register holds, when it was set. -/
def Content.type? : Content → Option RegisterType
  | .undefined => none
  | .word _ => some .word
  | .address _ => some .address

theorem Machine.type_of_evaluate {call : Nat → List Word → Run Word} {a : Activation} {o : Operation}
    {m m' : Machine} {content : Option Content} (hphi : o.isPhi = false)
    (h : evaluate call a o m = .ok content m') : ∃ c, content = some c ∧ c.type? = some o.type := by
  cases o with
  | alloca count =>
    obtain ⟨place, m₁, -, hreturn⟩ := ok_of_bind h
    cases hreturn
    exact ⟨_, rfl, rfl⟩
  | offset base distance =>
    obtain ⟨place, m₁, -, hrest⟩ := ok_of_bind h
    obtain ⟨v, m₂, -, hreturn⟩ := ok_of_bind hrest
    cases hreturn
    exact ⟨_, rfl, rfl⟩
  | _ =>
    obtain ⟨v, rfl⟩ := word_of_evaluate rfl hphi h
    exact ⟨_, rfl, rfl⟩

/-- All that a step does to the registers and the place of an activation. -/
theorem Machine.turns_of_step {C : Code} {L : Limits} {g : Nat} {a a' : Activation} {m m' : Machine}
    (hC : C.Ordered) (ha : a.Executes C g) (h : step C L a m = .ok (.inr a') m') : a.Turns C g m a' m' := by
  obtain ⟨t, ht⟩ := exists_steps h
  rw [step_eq_act ht, Activation.act] at h
  cases hi : a.instruction? with
  | some i =>
    have hins := ha.instruction?.trans hi
    rw [hi] at h
    obtain ⟨a₁, m₁, hperform, hreturn⟩ := ok_of_bind h
    cases hreturn
    cases i with
    | store v s =>
      obtain ⟨_, m₂, -, hrest⟩ := ok_of_bind hperform
      obtain ⟨_, m₃, -, hrest⟩ := ok_of_bind hrest
      obtain ⟨_, m₄, -, hpure⟩ := ok_of_bind hrest
      cases hpure
      exact .stored hins rfl
    | define r o =>
      obtain ⟨content, m₂, hevaluate, hset⟩ := ok_of_bind hperform
      cases hphi : o.isPhi with
      | true =>
        cases o with
        | phi incoming =>
          -- the merge was made on the way into the block
          cases hevaluate
          cases hset
          exact .passed hins rfl
        | _ => cases hphi
      | false =>
        obtain ⟨c, rfl, -⟩ := type_of_evaluate hphi hevaluate
        obtain ⟨rfl, rfl⟩ := (a.meets_set m₂ r c).ok hset
        refine .defined hins hphi hevaluate ?_ rfl
        -- a register that is not there would have stopped the step
        by_contra hroom
        dsimp only at hset
        rw [Activation.set, if_neg hroom] at hset
        cases hset
  | none =>
    rw [hi] at h
    cases he : a.exit? with
    | none =>
      rw [he] at h
      cases h
    | some e =>
      rw [he] at h
      cases e with
      | jump target =>
        obtain ⟨a₁, m₁, henter, hreturn⟩ := ok_of_bind h
        cases hreturn
        exact Activation.turns_of_enter hC ha hi he (List.mem_singleton.mpr rfl) henter
      | branch c x y =>
        obtain ⟨v, m₁, -, hrest⟩ := ok_of_bind h
        obtain ⟨a₁, m₂, henter, hreturn⟩ := ok_of_bind hrest
        cases hreturn
        refine Activation.turns_of_enter hC ha hi he ?_ henter
        split
        · exact List.mem_cons_self
        · exact List.mem_cons_of_mem _ List.mem_cons_self
      | ret r =>
        obtain ⟨v, m₁, -, hreturn⟩ := ok_of_bind h
        cases hreturn

/-! ## 3. What the instructions on the way have set -/

namespace Activation

/-- What a register of an activation holds, when it was set. -/
def type? (a : Activation) (r : Register) : Option RegisterType := a.registers[r]?.bind Content.type?

variable {C : Code} {L : Limits} {g : Nat} {a a' : Activation} {m m' : Machine} {done : List Instruction}

theorem type?_eq_word {r : Register} : a.type? r = some .word ↔ ∃ v, a.registers[r]? = some (.word v) := by
  unfold type?
  cases a.registers[r]? with
  | none => simp
  | some content => cases content <;> simp [Content.type?]

theorem type?_set {r : Register} (hr : r < a.registers.size) (content : Content) (s : Register) :
    (a.registers.setIfInBounds r content)[s]?.bind Content.type? = if s = r then content.type? else a.type? s := by
  by_cases hs : s = r
  · rw [hs, if_pos rfl, Array.getElem?_setIfInBounds_self_of_lt hr]
    rfl
  · rw [if_neg hs, Array.getElem?_setIfInBounds_ne (Ne.symm hs), type?]

/-- The registers of an activation hold what the instructions on its way through the routine have set. -/
structure Accounts (C : Code) (g : Nat) (done : List Instruction) (a : Activation) : Prop where
  executes : a.Executes C g
  walk : C.Walk g done a.block a.done
  defined : ∀ r o, .define r o ∈ done → a.type? r = some o.type
  /-- A merge is made on the way into its block. -/
  merged : ∀ r incoming, a.done = 0 → C.instruction? ⟨g, a.block⟩ 0 = some (.define r (.phi incoming)) →
    a.type? r = some .word

namespace Accounts

/-- A register that an instruction sets was set by no other instruction on the way. -/
theorem eq_of_mem (hC : C.Ordered) (h : a.Accounts C g done) {x i : Nat} {r : Register} {o o' : Operation}
    (hins : C.instruction? ⟨g, x⟩ i = some (.define r o)) (hmem : .define r o' ∈ done) : o' = o := by
  obtain ⟨y, j, hat⟩ := h.walk.mem hmem
  obtain ⟨rfl, rfl⟩ := hC.wellFormed.single g y j x i _ _ r hat hins rfl rfl
  rw [hat] at hins
  exact (Instruction.define.inj (Option.some.inj hins)).2

theorem turn (hC : C.Ordered) (h : a.Accounts C g done) (hturn : a.Turns C g m a' m') :
    ∃ done', a'.Accounts C g done' := by
  cases hturn with
  | @defined r o content _ _ hins hphi hvalue hr hnext =>
    subst hnext
    obtain ⟨c, hc, htype⟩ := type_of_evaluate hphi hvalue
    obtain rfl := Option.some.inj hc
    refine ⟨_, h.executes.follow ⟨rfl, rfl, rfl, Array.size_setIfInBounds⟩, h.walk.step hins, fun s o' hmem => ?_, ?_⟩
    · refine (type?_set hr content s).trans ?_
      -- no other instruction sets the same register, so what was set before keeps its type
      rcases List.mem_append.mp hmem with hold | hnew
      · split
        · next hs =>
          subst hs
          rw [h.eq_of_mem hC hins hold, htype]
        · exact h.defined s o' hold
      · obtain ⟨rfl, rfl⟩ := Instruction.define.inj (List.mem_singleton.mp hnew)
        rw [if_pos rfl, htype]
    · exact fun _ _ hdone => absurd hdone (Nat.succ_ne_zero _)
  | @passed r incoming hins hnext =>
    subst hnext
    refine ⟨_, h.executes.follow ⟨rfl, rfl, rfl, rfl⟩, h.walk.step hins, fun s o' hmem => ?_, ?_⟩
    · rcases List.mem_append.mp hmem with hmem | hmem
      · exact h.defined s o' hmem
      · obtain ⟨rfl, rfl⟩ := Instruction.define.inj (List.mem_singleton.mp hmem)
        -- a merge stands first, where its value was set on entry
        have hzero := hC.phis _ _ _ _ hins
        rw [hzero] at hins
        exact h.merged s incoming hzero hins
    · exact fun _ _ hdone => absurd hdone (Nat.succ_ne_zero _)
  | stored hins hnext =>
    subst hnext
    refine ⟨_, h.executes.follow ⟨rfl, rfl, rfl, rfl⟩, h.walk.step hins, fun s o' hmem => ?_, ?_⟩
    · rcases List.mem_append.mp hmem with hmem | hmem
      · exact h.defined s o' hmem
      · cases List.mem_singleton.mp hmem
    · exact fun _ _ hdone => absurd hdone (Nat.succ_ne_zero _)
  | entered hend hedge hdirect hnext =>
    subst hnext
    exact ⟨done, h.executes.follow ⟨rfl, rfl, rfl, rfl⟩, h.walk.follow hend hedge, h.defined,
      fun r incoming _ hins => absurd hins (hdirect r incoming)⟩
  | @merged x r incoming v hend hedge hphi hr hnext =>
    subst hnext
    refine ⟨done, h.executes.follow ⟨rfl, rfl, rfl, Array.size_setIfInBounds⟩, h.walk.follow hend hedge,
      fun s o' hmem => ?_, fun s incoming' _ hins => ?_⟩
    · refine (type?_set hr (.word v) s).trans ?_
      split
      · next hs =>
        subst hs
        rw [h.eq_of_mem hC hphi hmem]
        rfl
      · exact h.defined s o' hmem
    · obtain ⟨rfl, -⟩ := Instruction.define.inj (Option.some.inj (hphi.symm.trans hins))
      exact (type?_set hr (.word v) r).trans (if_pos rfl)

theorem operand (hC : C.Ordered) (h : a.Accounts C g done) {ins : Instruction}
    (hins : C.instruction? ⟨g, a.block⟩ a.done = some ins) {u : Operand} (hu : u ∈ ins.operands) :
    a.type? u.1 = some u.2 := by
  obtain ⟨⟨o, hmem⟩, htype⟩ := hC.wellFormed.instructions g done _ _ ins h.walk hins u hu
  obtain ⟨y, j, hat⟩ := h.walk.mem hmem
  rw [h.defined u.1 o hmem, htype y j o hat]

end Accounts

/-- A call of a routine at its very start. -/
structure Begins (C : Code) (g : Nat) (a₀ : Activation) (m₀ : Machine) : Prop where
  executes : a₀.Executes C g
  block : a₀.block = 0
  done : a₀.done = 0
  direct : C.Direct ⟨g, 0⟩
  confined : a₀.Confined m₀.memory m₀

theorem begins_of_enter (hphis : C.PhisFirst) {R : Routine} (hR : C.routines[g]? = some R) {args : List Word}
    {depth : Nat} {a₀ : Activation} {m₀ : Machine} (h : (start R args depth).enter none 0 m = .ok a₀ m₀) :
    m₀ = m ∧ a₀.Begins C g m₀ := by
  have hstart : (start R args depth).Executes C g := ⟨hR, Array.size_replicate⟩
  obtain ⟨rfl, ⟨hdirect, rfl⟩ | ⟨hnone, -⟩⟩ := of_enter hphis hstart h
  · exact ⟨rfl, hstart, rfl, rfl, hdirect, .start R args depth m₀⟩
  · exact absurd rfl hnone

end Activation

namespace Passes

variable {C : Code} {L : Limits} {g : Nat} {a₀ a : Activation} {m₀ m : Machine} {made : List Nat}
  (h : Passes C L a₀ m₀ made a m) (hC : C.Ordered) (h₀ : a₀.Begins C g m₀)
include h hC h₀

theorem accounts : ∃ done, a.Accounts C g done := by
  induction h with
  | start =>
    refine ⟨[], h₀.executes, ?_, fun _ _ hmem => absurd hmem List.not_mem_nil, fun r incoming _ hins => ?_⟩
    · rw [h₀.block, h₀.done]
      exact .start
    · rw [h₀.block] at hins
      exact absurd hins (h₀.direct r incoming)
  | step _ hstep ih =>
    obtain ⟨done, haccounts⟩ := ih
    exact haccounts.turn hC (turns_of_step hC haccounts.executes hstep)

theorem executes : a.Executes C g := by
  obtain ⟨done, haccounts⟩ := h.accounts hC h₀
  exact haccounts.executes

/-- Wherever a call stands, a register that the next instruction reads as a word holds one. -/
theorem word {ins : Instruction}
    (hins : C.instruction? ⟨g, a.block⟩ a.done = some ins) {r : Register} (hr : (r, .word) ∈ ins.operands) :
    ∃ v, a.registers[r]? = some (.word v) := by
  obtain ⟨done, haccounts⟩ := h.accounts hC h₀
  exact Activation.type?_eq_word.mp (haccounts.operand hC hins hr)

end Passes

/-! ## 4. The entry block -/

/-- How many allocations the first instructions of a routine make. -/
def Code.rank (C : Code) (g : Nat) : Nat → Nat
  | 0 => 0
  | k + 1 => C.rank g k + (C.instruction? ⟨g, 0⟩ k).elim 0 Instruction.allocations

theorem Code.rank_mono (C : Code) (g : Nat) {k k' : Nat} (h : k ≤ k') : C.rank g k ≤ C.rank g k' := by
  induction h with
  | refl => exact Nat.le_refl _
  | step _ ih => exact ih.trans (Nat.le_add_right _ _)

/-- Different instructions make different allocations. -/
theorem Code.rank_inj {C : Code} {g k k' : Nat} {r r' : Register} {n n' : Nat}
    (h : C.instruction? ⟨g, 0⟩ k = some (.define r (.alloca n)))
    (h' : C.instruction? ⟨g, 0⟩ k' = some (.define r' (.alloca n'))) (he : C.rank g k = C.rank g k') : k = k' := by
  -- behind an allocation there is one more than in front of it, and the number never falls
  have hnext : ∀ {k r n}, C.instruction? ⟨g, 0⟩ k = some (.define r (.alloca n)) →
      C.rank g (k + 1) = C.rank g k + 1 := by
    intro k r n hk
    rw [Code.rank, hk]
    rfl
  by_contra hne
  rcases Nat.lt_or_gt_of_ne hne with hlt | hlt
  · have hle := C.rank_mono g (Nat.succ_le_of_lt hlt)
    rw [Nat.succ_eq_add_one, hnext h] at hle
    omega
  · have hle := C.rank_mono g (Nat.succ_le_of_lt hlt)
    rw [Nat.succ_eq_add_one, hnext h'] at hle
    omega

namespace Activation

/-- An instruction of the entry block has been done. -/
def Past (a : Activation) (k : Nat) : Prop := a.block = 0 → k < a.done

variable {C : Code} {g k : Nat} {a a' : Activation} {m m' : Machine}

theorem Past.of_le {k' : Nat} (h : a.Past k) (hle : k' ≤ k) : a.Past k' := fun hzero => hle.trans_lt (h hzero)

/-- An instruction of the entry block that has been done was done before, or is done in this step. -/
theorem Turns.past (hturn : a.Turns C g m a' m') {ins : Instruction}
    (hins : C.instruction? ⟨g, 0⟩ k = some ins) (h : a'.Past k) : a.Past k ∨ a.block = 0 ∧ a.done = k := by
  by_cases hpast : a.Past k
  · exact .inl hpast
  · obtain ⟨hzero, hle⟩ := Classical.not_imp.mp hpast
    refine .inr ⟨hzero, ?_⟩
    cases hturn with
    | defined _ _ _ _ hnext | passed _ hnext | stored _ hnext =>
      subst hnext
      have hlt : k < a.done + 1 := h hzero
      omega
    | entered hend _ _ _ | merged hend _ _ _ _ =>
      -- the block has been left, so that no instruction of it is still to be done
      rw [hzero] at hend
      exact absurd (Code.lt_of_instruction hins hend) hle

/-- What an instruction of the entry block has set stays as it is. -/
theorem Past.register (hC : C.Ordered) (h : a.Past k) {r : Register} {o : Operation}
    (hins : C.instruction? ⟨g, 0⟩ k = some (.define r o)) (hturn : a.Turns C g m a' m') :
    a'.registers[r]? = a.registers[r]? := by
  cases hturn with
  | @defined s o' content _ _ hins' _ _ _ hnext =>
    subst hnext
    refine Array.getElem?_setIfInBounds_ne ?_
    rintro rfl
    obtain ⟨hblock, hdone⟩ := hC.wellFormed.single g _ _ _ _ _ _ s hins' hins rfl rfl
    exact absurd (h hblock) (by omega)
  | passed _ hnext | stored _ hnext | entered _ _ _ hnext =>
    subst hnext
    rfl
  | @merged x s incoming v _ hedge hphi _ hnext =>
    subst hnext
    refine Array.getElem?_setIfInBounds_ne ?_
    rintro rfl
    exact (hC.edges hedge).2 (hC.wellFormed.single g _ _ _ _ _ _ s hphi hins rfl rfl).1

end Activation

namespace Passes

variable {C : Code} {L : Limits} {g k : Nat} {a₀ a : Activation} {m₀ m : Machine} {made : List Nat}
  (h : Passes C L a₀ m₀ made a m) (hC : C.Ordered) (h₀ : a₀.Begins C g m₀)
include h hC h₀

/-- While a call is in the entry block, its place tells how many allocations it has made. -/
theorem size_eq (hzero : a.block = 0) : m.memory.size = m₀.memory.size + C.rank g a.done := by
  rw [(h.confined h₀.confined).2.1, Nat.add_left_cancel_iff]
  induction h with
  | start =>
    rw [h₀.done]
    rfl
  | @step made a a' m m' h hstep ih =>
    have ha := h.executes hC h₀
    -- inside the block a step makes an allocation if its instruction is one
    have hmade : a'.block = a.block → a'.done = a.done + 1 →
        (made ++ List.range' m.memory.size a.allocations).length = C.rank g a'.done := by
      intro hblock hdone
      rw [hblock] at hzero
      have hins := ha.instruction?
      rw [hzero] at hins
      rw [List.length_append, List.length_range', ih hzero, hdone, Code.rank, hins, Activation.allocations]
      cases a.instruction? <;> rfl
    cases turns_of_step hC ha hstep with
    | defined _ _ _ _ hnext | passed _ hnext | stored _ hnext =>
      subst hnext
      exact hmade rfl rfl
    | entered _ hedge _ hnext | merged _ hedge _ _ hnext =>
      -- the entry block is not entered again
      subst hnext
      exact absurd hzero (hC.edges hedge).2

variable {r : Register} {count : Nat} {w : Word}

/-- An instruction of the entry block that has been done was done in a step of its own, and what it has set is
still there. -/
theorem executed {o : Operation} (hins : C.instruction? ⟨g, 0⟩ k = some (.define r o)) (hphi : o.isPhi = false)
    (hpast : a.Past k) : ∃ made₁ a₁ m₁ call t content m₂, Passes C L a₀ m₀ made₁ a₁ m₁ ∧ a₁.block = 0 ∧
      a₁.done = k ∧ evaluate call a₁ o (m₁.withSteps t) = .ok (some content) m₂ ∧ m₂.Lasts m ∧
      a.registers[r]? = some content := by
  induction h with
  | start =>
    have hlt := hpast h₀.block
    rw [h₀.done] at hlt
    exact absurd hlt (Nat.not_lt_zero k)
  | @step made a a' m m' h hstep ih =>
    have ha := h.executes hC h₀
    have hturn := turns_of_step hC ha hstep
    -- the instruction was done before this step, or it is done by it
    rcases hturn.past hins hpast with hbefore | ⟨hzero, hdone⟩
    · obtain ⟨made₁, a₁, m₁, call, t, content, m₂, h₁, hblock, hk, hvalue, hlasts, hr⟩ := ih hbefore
      exact ⟨made₁, a₁, m₁, call, t, content, m₂, h₁, hblock, hk, hvalue, hlasts.trans (lasts_of_step hstep),
        (hbefore.register hC hins hturn).trans hr⟩
    · -- this is the step in question
      have hat : C.instruction? ⟨g, a.block⟩ a.done = some (.define r o) := by rw [hzero, hdone, hins]
      cases hturn with
      | @defined s o' content call t hins' _ hvalue hroom hnext =>
        obtain ⟨rfl, rfl⟩ := Instruction.define.inj (Option.some.inj (hins'.symm.trans hat))
        subst hnext
        exact ⟨made, a, m, call, t, content, m', h, hzero, hdone, hvalue, fun _ _ hk => hk,
          Array.getElem?_setIfInBounds_self_of_lt hroom⟩
      | passed hins' _ =>
        obtain ⟨rfl, rfl⟩ := Instruction.define.inj (Option.some.inj (hins'.symm.trans hat))
        cases hphi
      | stored hins' _ => cases hins'.symm.trans hat
      | entered hend _ _ _ | merged hend _ _ _ _ => cases hend.symm.trans hat

theorem alloca (hins : C.instruction? ⟨g, 0⟩ k = some (.define r (.alloca count))) (hpast : a.Past k) :
    a.registers[r]? = some (.address ⟨m₀.memory.size + C.rank g k, 0⟩) ∧
      m.extent? (m₀.memory.size + C.rank g k) = some count := by
  obtain ⟨made₁, a₁, m₁, call, t, content, m₂, h₁, hzero, hdone, hvalue, hlasts, hr⟩ :=
    h.executed hC h₀ hins rfl hpast
  have hsize := h₁.size_eq hC h₀ hzero
  rw [hdone] at hsize
  obtain ⟨place, m₃, hallocate, hreturn⟩ := ok_of_bind hvalue
  cases hreturn
  cases hallocate
  rw [← hsize]
  refine ⟨hr, hlasts _ _ ?_⟩
  change (m₁.memory.push (.zeros count))[m₁.memory.size]?.map Cells.size = some count
  rw [Array.getElem?_push_size]
  rfl

theorem const (hins : C.instruction? ⟨g, 0⟩ k = some (.define r (.const w))) (hpast : a.Past k) :
    a.registers[r]? = some (.word w) := by
  obtain ⟨_, _, _, _, _, _, _, -, -, -, hvalue, -, hr⟩ := h.executed hC h₀ hins rfl hpast
  cases hvalue
  exact hr

/-- The address of an allocation of the entry block, moved by a constant distance. -/
theorem offset {x y : Register}
    (hx : C.instruction? ⟨g, 0⟩ k = some (.define x (.alloca count)))
    (hy : C.instruction? ⟨g, 0⟩ (k + 1) = some (.define y (.const w)))
    (hins : C.instruction? ⟨g, 0⟩ (k + 2) = some (.define r (.offset x y))) (hpast : a.Past (k + 2)) :
    a.registers[r]? = some (.address ⟨m₀.memory.size + C.rank g k, w.toInt⟩) := by
  obtain ⟨made₁, a₁, m₁, call, t, content, m₂, h₁, hzero, hdone, hvalue, -, hr⟩ :=
    h.executed hC h₀ hins rfl hpast
  have hbefore : ∀ j < k + 2, a₁.Past j := fun j hj _ => hdone ▸ hj
  have hplace := (h₁.alloca hC h₀ hx (hbefore k (by omega))).1
  have hword := h₁.const hC h₀ hy (hbefore (k + 1) (by omega))
  rw [evaluate, bind_ok (Activation.address_ok hplace _), bind_ok (Activation.word_ok hword _)] at hvalue
  cases hvalue
  rw [hr, Int.zero_add]

end Passes

end Mila
