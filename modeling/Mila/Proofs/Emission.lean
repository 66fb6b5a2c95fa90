import Mila.Proofs.Lowered
import Mila.Proofs.Names

/-! # Emitting code, step by step

A compilation works on one open block at a time. This module states what holds of a compilation between
two steps (`Ready`), how far a later state may differ from an earlier one (`Grown`), and that each of the
primitive steps keeps to both. It does so for every target that behaves like code as long as no closed
block is terminated: what a target does with a block that is terminated again is left open.
-/

namespace Mila

/-- A target that keeps code, as long as only open blocks are terminated. -/
class Target.Faithful (κ : Type) [Target κ] where
  /-- The code that was emitted. -/
  code : κ → Code
  /-- What holds of the target as long as no closed block was terminated. -/
  Intact : κ → Prop
  addRoutine_fst : ∀ (k : κ) (name : String) (params : List String),
    (Target.addRoutine k name params).1 = ((code k).addRoutine name params).1
  code_addRoutine : ∀ (k : κ) (name : String) (params : List String),
    code (Target.addRoutine k name params).2 = ((code k).addRoutine name params).2
  intact_addRoutine : ∀ (k : κ) (name : String) (params : List String), Intact k →
    Intact (Target.addRoutine k name params).2
  addBlock_fst : ∀ (k : κ) (g : Nat) (label : String),
    (Target.addBlock k g label).1 = ((code k).addBlock g label).1
  code_addBlock : ∀ (k : κ) (g : Nat) (label : String),
    code (Target.addBlock k g label).2 = ((code k).addBlock g label).2
  intact_addBlock : ∀ (k : κ) (g : Nat) (label : String), Intact k →
    Intact (Target.addBlock k g label).2
  define_fst : ∀ (k : κ) (place : BlockRef) (op : Operation),
    (Target.define k place op).1 = ((code k).define place op).1
  code_define : ∀ (k : κ) (place : BlockRef) (op : Operation),
    code (Target.define k place op).2 = ((code k).define place op).2
  intact_define : ∀ (k : κ) (place : BlockRef) (op : Operation), Intact k →
    Intact (Target.define k place op).2
  code_store : ∀ (k : κ) (place : BlockRef) (v a : Register),
    code (Target.store k place v a) = (code k).store place v a
  intact_store : ∀ (k : κ) (place : BlockRef) (v a : Register), Intact k →
    Intact (Target.store k place v a)
  code_terminate : ∀ (k : κ) (place : BlockRef) (b : Block) (e : Exit),
    (code k).block? place = some b → b.exit = none →
      code (Target.terminate k place e) = (code k).terminate place e
  intact_terminate : ∀ (k : κ) (place : BlockRef) (b : Block) (e : Exit),
    (code k).block? place = some b → b.exit = none → Intact k →
      Intact (Target.terminate k place e)

instance : Target.Faithful Code where
  code k := k
  Intact _ := True
  addRoutine_fst _ _ _ := rfl
  code_addRoutine _ _ _ := rfl
  intact_addRoutine _ _ _ _ := trivial
  addBlock_fst _ _ _ := rfl
  code_addBlock _ _ _ := rfl
  intact_addBlock _ _ _ _ := trivial
  define_fst _ _ _ := rfl
  code_define _ _ _ := rfl
  intact_define _ _ _ _ := trivial
  code_store _ _ _ _ := rfl
  intact_store _ _ _ _ _ := trivial
  code_terminate _ _ _ _ _ _ := rfl
  intact_terminate _ _ _ _ _ _ _ := trivial

open Target.Faithful (Intact)

section

variable {κ : Type} [Target κ] [Target.Faithful κ]

/-- The code emitted so far. -/
def Compilation.out (s : Compilation κ) : Code := Target.Faithful.code s.code

/-- How many instructions the block at hand has. -/
def Compilation.index (s : Compilation κ) : Nat :=
  ((s.out.block? s.frame.block).map (·.body.size)).getD 0

/-- The site that a compilation has come to. -/
def Compilation.site (s : Compilation κ) : Site where
  routine := s.frame.routine
  resultName := s.frame.resultName
  globals := s.globals
  locals := s.frame.locals
  returns := s.frame.returns
  block := s.frame.block.block
  index := s.index
  blocks := s.out.blocksOf s.frame.routine
  registers := s.out.registersOf s.frame.routine

/-! ## 1. Between two steps -/

/-- The names of subprograms and the routines correspond to one another; a subprogram that is only
announced has an empty routine. -/
structure Registry (globals : Globals) (code : Code) : Prop where
  known : ∀ name entry, globals.subprogram? name = some entry →
    ∃ r, code.routines[entry.routine]? = some r ∧ r.name = name ∧ r.params.length = entry.arity ∧
      (entry.isDefined = false → r = .empty name r.params)
  named : ∀ g r, code.routines[g]? = some r →
    ∃ entry, globals.subprogram? r.name = some entry ∧ entry.routine = g

/-- There is an open block at hand, in a routine that is not complete. -/
structure Open (s : Compilation κ) : Prop where
  intact : Intact s.code
  routine : s.frame.block.routine = s.frame.routine
  current : ∃ b, s.out.block? s.frame.block = some b ∧ b.exit = none
  unfinished : ∀ b, s.out.block? ⟨s.frame.routine, 1⟩ = some b → b.exit = none
  registry : Registry s.globals s.out

/-- What holds between two steps: there is an open block at hand, and the return block is untouched. -/
structure Ready (s : Compilation κ) : Prop extends Open s where
  returnBlock : s.frame.returnBlock = ⟨s.frame.routine, 1⟩
  notReturn : s.frame.block.block ≠ 1
  last : s.out.block? ⟨s.frame.routine, 1⟩ = some (.empty "return")

/-- The routine of a subprogram that is defined. -/
def Compilation.Settled (s : Compilation κ) (g : Nat) : Prop :=
  ∃ name entry, s.globals.subprogram? name = some entry ∧ entry.routine = g ∧ entry.isDefined = true

/-- How a later state may differ from an earlier one in the same routine: blocks other than the one at
hand are as they were, and so are the other routines of subprograms that were defined. -/
structure Grown (s s' : Compilation κ) : Prop where
  code : s.out.Grows s'.out
  routine : s'.frame.routine = s.frame.routine
  returnBlock : s'.frame.returnBlock = s.frame.returnBlock
  resultName : s'.frame.resultName = s.frame.resultName
  place : s'.frame.block = s.frame.block ∨
    s.out.blocksOf s.frame.routine ≤ s'.frame.block.block
  blocks : s.out.blocksOf s.frame.routine ≤ s'.out.blocksOf s.frame.routine
  untouched : ∀ x, x < s.out.blocksOf s.frame.routine → x ≠ s.frame.block.block →
    s'.out.block? ⟨s.frame.routine, x⟩ = s.out.block? ⟨s.frame.routine, x⟩
  others : ∀ g, g ≠ s.frame.routine → s.Settled g → s'.out.routines[g]? = s.out.routines[g]?
  settled : ∀ g, s.Settled g → s'.Settled g

namespace Grown

theorem refl (s : Compilation κ) : Grown s s where
  code := .refl _
  routine := rfl
  returnBlock := rfl
  resultName := rfl
  place := .inl rfl
  blocks := Nat.le_refl _
  untouched _ _ _ := rfl
  others _ _ _ := rfl
  settled _ h := h

theorem trans {a b c : Compilation κ} (hab : Grown a b) (hbc : Grown b c) : Grown a c where
  code := hab.code.trans hbc.code
  routine := by rw [hbc.routine, hab.routine]
  returnBlock := by rw [hbc.returnBlock, hab.returnBlock]
  resultName := by rw [hbc.resultName, hab.resultName]
  place := by
    have hblocks := hab.blocks
    rcases hbc.place with h | h
    · rw [h]
      exact hab.place
    · rw [hab.routine] at h
      exact .inr (hblocks.trans h)
  blocks := by
    have h := hbc.blocks
    rw [hab.routine] at h
    exact hab.blocks.trans h
  untouched x hx hne := by
    have hlt : x < b.out.blocksOf b.frame.routine := by
      rw [hab.routine]
      exact hx.trans_le hab.blocks
    -- A block that stood before is not the current one of `b`, which is either that of `a` or new.
    have hne' : x ≠ b.frame.block.block := by
      rcases hab.place with h | h
      · rw [h]
        exact hne
      · omega
    have h := hbc.untouched x hlt hne'
    rw [hab.routine] at h
    rw [h, hab.untouched x hx hne]
  others g hg hb := by
    rw [← hab.others g hg hb]
    apply hbc.others g
    · rw [hab.routine]
      exact hg
    · exact hab.settled g hb
  settled g hg := hbc.settled g (hab.settled g hg)

end Grown

variable {s s' : Compilation κ} {globals : Globals} {c : Code} {place : BlockRef} {name label : String} {g x : Nat}
  {b : Block} {ins : Instruction}

theorem Grown.ref (h : Grown s s') (x : Nat) : s'.site.ref x = s.site.ref x := by
  change (⟨s'.frame.routine, x⟩ : BlockRef) = ⟨s.frame.routine, x⟩
  rw [h.routine]

/-- A stretch of compilation in one routine. -/
structure Advance (s s' : Compilation κ) : Prop where
  ready : Ready s'
  grown : Grown s s'

theorem Advance.refl (h : Ready s) : Advance s s := ⟨h, .refl s⟩

theorem Advance.trans {a b c : Compilation κ} (hab : Advance a b) (hbc : Advance b c) :
    Advance a c := ⟨hbc.ready, hab.grown.trans hbc.grown⟩

theorem Ready.blocks_pos (h : Ready s) : 1 < s.out.blocksOf s.frame.routine :=
  Code.block_lt_blocksOf h.last

/-- A routine that has blocks is not merely announced. -/
theorem Registry.defined_of_blocks (h : Registry globals c) {f : Nat}
    (hblocks : c.blocksOf f ≠ 0) (name : String) (entry : Subprogram)
    (hentry : globals.subprogram? name = some entry) (hf : entry.routine = f) : entry.isDefined = true := by
  obtain ⟨r, hr, -, -, hempty⟩ := h.known name entry hentry
  by_contra hd
  rw [← hf, Code.blocksOf_of_routine hr, hempty (Bool.eq_false_of_not_eq_true hd)] at hblocks
  exact hblocks rfl

theorem Open.block_lt (h : Open s) : s.frame.block.block < s.out.blocksOf s.frame.routine := by
  obtain ⟨b, hb, -⟩ := h.current
  rw [← h.routine]
  exact Code.block_lt_blocksOf hb

theorem open_of_last (h : c.block? place = some (.empty "return"))
    (b : Block) (hb : c.block? place = some b) : b.exit = none := by
  rw [h] at hb
  rw [← Option.some.inj hb]
  rfl

theorem Open.place_eq (h : Open s) : s.site.place = s.frame.block := by
  unfold Site.place Compilation.site
  rw [← h.routine]

theorem Open.settled (h : Open s) : s.Settled s.frame.routine := by
  have hlt := h.block_lt
  obtain ⟨b, hb, -⟩ := h.current
  obtain ⟨r, hr⟩ := Code.routine_of_block hb
  rw [h.routine] at hr
  obtain ⟨entry, hentry, hroutine⟩ := h.registry.named _ r hr
  exact ⟨r.name, entry, hentry, hroutine,
    h.registry.defined_of_blocks (by omega) r.name entry hentry hroutine⟩

/-- The return block stays untouched as long as the routine only grows. -/
theorem Ready.of_grown (h : Ready s) (hopen : Open s') (hgrown : Grown s s') : Ready s' := by
  have hpos := h.blocks_pos
  refine ⟨hopen, ?_, ?_, ?_⟩
  · rw [hgrown.returnBlock, hgrown.routine]
    exact h.returnBlock
  · rcases hgrown.place with hp | hp
    · rw [hp]
      exact h.notReturn
    · omega
  · rw [hgrown.routine, hgrown.untouched 1 hpos (Ne.symm h.notReturn)]
    exact h.last

/-- The routine of a subprogram that is defined may change its body; its name stays registered. -/
theorem Registry.update {c' : Code} (h : Registry globals c) (f : Nat)
    (hdefined : ∀ name entry, globals.subprogram? name = some entry → entry.routine = f →
      entry.isDefined = true) (hheading : ∀ g, c'.heading? g = c.heading? g)
    (hother : ∀ g, g ≠ f → c'.routines[g]? = c.routines[g]?) : Registry globals c' where
  known name entry he := by
    obtain ⟨r, hr, hname, harity, hempty⟩ := h.known name entry he
    -- the routine keeps its heading, and all others stay as they are
    by_cases hg : entry.routine = f
    · have hh := hheading entry.routine
      unfold Code.heading? at hh
      rw [hr, Option.map_some] at hh
      obtain ⟨r', hr', hrr⟩ := Option.map_eq_some_iff.mp hh
      have hn : r'.name = r.name := (Prod.mk.inj hrr).1
      have hp : r'.params = r.params := (Prod.mk.inj hrr).2
      refine ⟨r', hr', hn.trans hname, by rw [hp, harity], fun hd => ?_⟩
      rw [hdefined name entry he hg] at hd
      cases hd
    · exact ⟨r, by rw [hother _ hg, hr], hname, harity, hempty⟩
  named g r hr := by
    have hh : c.heading? g = some (r.name, r.params) := by
      rw [← hheading g]
      unfold Code.heading?
      rw [hr]
      rfl
    obtain ⟨r', hr', hrr⟩ := Option.map_eq_some_iff.mp hh
    rw [← (Prod.mk.inj hrr).1]
    exact h.named g r' hr'

/-- A new name comes with a routine of its own. -/
theorem Registry.add (h : Registry globals c)
    (hnew : globals.subprogram? name = none) (params : List String) (isDefined : Bool) :
    Registry (globals.register name ⟨c.routines.size, params.length, isDefined⟩)
      (c.addRoutine name params).2 where
  known other entry he := by
    rw [Globals.subprogram?_register] at he
    split at he
    · next hname =>
      rw [← Option.some.inj he]
      refine ⟨.empty name params, ?_, hname.symm, rfl, fun _ => ?_⟩
      · rw [Code.routines_addRoutine, if_pos rfl]
      · rw [hname]
        rfl
    · obtain ⟨r, hr, hrest⟩ := h.known other entry he
      refine ⟨r, ?_, hrest⟩
      -- older routines keep their numbers
      have hlt := (Array.getElem?_eq_some_iff.mp hr).1
      rw [Code.routines_addRoutine, if_neg (by omega), hr]
  named g r hr := by
    rw [Code.routines_addRoutine] at hr
    rw [Globals.subprogram?_register]
    split at hr
    · next hg =>
      rw [← Option.some.inj hr]
      exact ⟨_, if_pos rfl, hg.symm⟩
    · obtain ⟨entry, hentry, hroutine⟩ := h.named g r hr
      refine ⟨entry, ?_, hroutine⟩
      rw [if_neg, hentry]
      intro hname
      rw [hname, hnew] at hentry
      cases hentry

/-- A subprogram may be marked as defined. -/
theorem Registry.mark (h : Registry globals c)
    {n : Nat} {isDefined : Bool} (hold : globals.subprogram? name = some ⟨g, n, isDefined⟩) :
    Registry (globals.register name ⟨g, n, true⟩) c where
  known other entry he := by
    rw [Globals.subprogram?_register] at he
    split at he
    · next hname =>
      obtain ⟨r, hr, hrname, hparams, -⟩ := h.known name _ hold
      rw [← Option.some.inj he]
      exact ⟨r, hr, by rw [hrname, hname], hparams, fun hd => by cases hd⟩
    · exact h.known other entry he
  named i r hr := by
    obtain ⟨entry, hentry, hroutine⟩ := h.named i r hr
    rw [Globals.subprogram?_register]
    split
    · next hname =>
      rw [hname, hold] at hentry
      exact ⟨_, rfl, by rw [← hroutine, ← Option.some.inj hentry]⟩
    · exact ⟨entry, hentry, hroutine⟩

omit [Target κ] [Target.Faithful κ] in
/-- What is defined stays so when a name that is not is entered. -/
theorem Compilation.Settled.register {t : Compilation κ} {entry : Subprogram}
    (h : s.Settled g) (hglobals : t.globals = s.globals.register name entry)
    (hold : ∀ e, s.globals.subprogram? name = some e → e.isDefined = false) : t.Settled g := by
  obtain ⟨other, e, he, hg, hd⟩ := h
  refine ⟨other, e, ?_, hg, hd⟩
  rw [hglobals, Globals.subprogram?_register, if_neg, he]
  rintro rfl
  rw [hold e he] at hd
  cases hd

/-- A block that was added to be gone on in later. -/
structure Waiting (s : Compilation κ) (x : Nat) : Prop where
  empty : ∃ label, s.out.block? (s.site.ref x) = some (.empty label)
  notReturn : x ≠ 1
  other : x ≠ s.frame.block.block

/-- Work on the block at hand leaves those that wait alone. -/
theorem Waiting.advance (h : Waiting s x) (hadv : Advance s s') : Waiting s' x := by
  obtain ⟨label, hempty⟩ := h.empty
  have hlt : x < s.out.blocksOf s.frame.routine := Code.block_lt_blocksOf hempty
  refine ⟨⟨label, ?_⟩, h.notReturn, ?_⟩
  · rw [hadv.grown.ref]
    exact (hadv.grown.untouched x hlt h.other).trans hempty
  · rcases hadv.grown.place with hp | hp
    · rw [hp]
      exact h.other
    · omega

/-! ## 2. The primitive steps -/

/-- A step that changes the block at hand, which stays open. -/
theorem Open.touch (h : Open s) {b' : Block} (hframe : s'.frame = s.frame)
    (hglobals : s'.globals = s.globals) (hintact : Intact s'.code)
    (hheading : ∀ g, s'.out.heading? g = s.out.heading? g) (hgrows : s.out.Grows s'.out)
    (hother : ∀ other, other ≠ s.frame.block → s'.out.block? other = s.out.block? other)
    (hplace : s'.out.block? s.frame.block = some b') (hopen : b'.exit = none)
    (hroutine : ∀ g, g ≠ s.frame.routine → s'.out.routines[g]? = s.out.routines[g]?)
    (hblocks : ∀ g, s'.out.blocksOf g = s.out.blocksOf g) : Open s' ∧ Grown s s' := by
  have hlt := h.block_lt
  have hne : ∀ x, x ≠ s.frame.block.block → (⟨s.frame.routine, x⟩ : BlockRef) ≠ s.frame.block := by
    intro x hx he
    exact hx (by rw [← he])
  have hregistry : Registry s'.globals s'.out := by
    rw [hglobals]
    exact h.registry.update s.frame.routine (h.registry.defined_of_blocks (by omega)) hheading hroutine
  refine ⟨⟨hintact, ?_, ⟨b', ?_, hopen⟩, ?_, hregistry⟩,
    ⟨hgrows, ?_, ?_, ?_, .inl ?_, (hblocks _).ge, fun x _ hx => hother _ (hne x hx),
      fun g hg _ => hroutine g hg, fun g hg => ?_⟩⟩
  · rw [hframe]
    exact h.routine
  · rw [hframe]
    exact hplace
  · intro b hb
    rw [hframe] at hb
    -- The return block has no exit before the end of its routine, also while it is the current one.
    by_cases he : (⟨s.frame.routine, 1⟩ : BlockRef) = s.frame.block
    · rw [he, hplace] at hb
      rw [← Option.some.inj hb]
      exact hopen
    · rw [hother _ he] at hb
      exact h.unfinished b hb
  · rw [hframe]
  · rw [hframe]
  · rw [hframe]
  · rw [hframe]
  · unfold Compilation.Settled
    rw [hglobals]
    exact hg

theorem Open.return_open (h : Open s) (b : Block)
    (hb : s.out.block? ⟨s.frame.block.routine, 1⟩ = some b) : b.exit = none := by
  rw [h.routine] at hb
  exact h.unfinished b hb

theorem Compilation.index_of_block (h : s.out.block? s.frame.block = some b) : s.index = b.body.size := by
  unfold Compilation.index
  rw [h]
  rfl

theorem Compilation.index_push (hb : s.out.block? s.frame.block = some b)
    (hpush : s'.out.block? s'.frame.block = some (b.push ins)) : s'.index = s.index + 1 := by
  rw [index_of_block hpush, index_of_block hb]
  exact Array.size_push _

/-- An instruction that went behind the others of the block at hand stands where the site is. -/
theorem Open.has_push (h : Open s)
    (hb : s.out.block? s.frame.block = some b) (hpush : s'.out.block? s.frame.block = some (b.push ins))
    {C : Code} (hC : s'.out.Grows C) : C.Has s.site ins := by
  obtain ⟨b', hb', hgrow⟩ := hC.block _ _ hpush
  refine ⟨b', by rw [h.place_eq]; exact hb', hgrow.getElem? ?_⟩
  rw [show s.site.index = b.body.size from Compilation.index_of_block hb]
  simp [Block.push]

namespace Emit

variable {α β : Type} {s s' : Compilation κ} {op : Operation} {r : Register}

omit [Target κ] [Target.Faithful κ] in
theorem bind_ok {m : Emit κ α} {k : α → Emit κ β} {b : β}
    (h : (m >>= k) s = .ok b s') : ∃ a s₁, m s = .ok a s₁ ∧ k a s₁ = .ok b s' := by
  change EStateM.bind m k s = .ok b s' at h
  unfold EStateM.bind at h
  split at h
  · next a s₁ hm => exact ⟨a, s₁, hm, h⟩
  · cases h

omit [Target κ] [Target.Faithful κ] in
theorem get_ok {k : Compilation κ → Emit κ β} {b : β} (h : (get >>= k) s = .ok b s') : k s s = .ok b s' := h

omit [Target κ] [Target.Faithful κ] in
theorem map_ok {m : Emit κ α} {f : α → β} {b : β} (h : (f <$> m) s = .ok b s') : ∃ a, m s = .ok a s' ∧ b = f a := by
  change EStateM.map f m s = .ok b s' at h
  unfold EStateM.map at h
  split at h
  · next a s₁ hm =>
    cases h
    exact ⟨a, hm, rfl⟩
  · cases h

omit [Target κ] [Target.Faithful κ] in
theorem pure_ok {a b : α} (h : (pure a : Emit κ α) s = .ok b s') : b = a ∧ s' = s := by
  cases h
  exact ⟨rfl, rfl⟩

omit [Target κ] [Target.Faithful κ] in
theorem throw_ok {e : ScopeError} {b : α} : (throw e : Emit κ α) s ≠ .ok b s' := by
  intro h
  cases h

/-- An operation goes behind the instructions of the block at hand. -/
theorem define_open (h : Open s) (hrun : define op s = .ok r s') :
    r = s.site.registers ∧ Open s' ∧ Grown s s' ∧ s'.site = s.site.next ∧
      ∀ C, s'.out.Grows C → C.Has s.site (.define s.site.registers op) := by
  obtain ⟨b, hb, he⟩ := h.current
  obtain ⟨R, hR⟩ := Code.routine_of_block hb
  obtain ⟨hr, rfl⟩ : r = (Target.define s.code s.frame.block op).1 ∧
      s' = { s with code := (Target.define s.code s.frame.block op).2 } := by
    injection hrun with h₁ h₂
    exact ⟨h₁.symm, h₂.symm⟩
  set s' : Compilation κ := { s with code := (Target.define s.code s.frame.block op).2 }
  have hout : s'.out = (s.out.define s.frame.block op).2 := Target.Faithful.code_define _ _ _
  have hplace : s'.out.block? s'.frame.block = some (b.push (.define s.site.registers op)) := by
    rw [hout, Code.block?_define, if_pos rfl, hb, h.routine]
    rfl
  have hadvance : Open s' ∧ Grown s s' := by
    refine h.touch rfl rfl (Target.Faithful.intact_define _ _ _ h.intact) ?_ ?_ ?_ hplace he ?_ ?_
      <;> rw [hout]
    · exact Code.heading?_define _ _ _
    · exact Code.grows_define hb he h.return_open op
    · intro other hne
      rw [Code.block?_define, if_neg hne]
    · intro g hg
      exact Code.routines_modify_of_ne _ _ (by rw [h.routine]; exact hg)
    · exact Code.blocksOf_define _ _ _
  refine ⟨?_, hadvance.1, hadvance.2, ?_, ?_⟩
  · rw [hr, Target.Faithful.define_fst]
    change s.out.registersOf s.frame.block.routine = _
    rw [h.routine]
    rfl
  · have hindex : s'.index = s.index + 1 := Compilation.index_push hb hplace
    have hblocks : s'.out.blocksOf s.frame.routine = s.out.blocksOf s.frame.routine := by
      rw [hout, Code.blocksOf_define]
    have hregisters : s'.out.registersOf s.frame.routine =
        s.out.registersOf s.frame.routine + 1 := by
      rw [hout, Code.registersOf_define hR, if_pos h.routine]
    exact Site.mk.injEq .. ▸ ⟨rfl, rfl, rfl, rfl, rfl, rfl, hindex, hblocks, hregisters⟩
  · exact fun C hC => h.has_push hb hplace hC

theorem define_ok (h : Ready s) (hrun : define op s = .ok r s') :
    r = s.site.registers ∧ Advance s s' ∧ s'.site = s.site.next ∧
      ∀ C, s'.out.Grows C → C.Has s.site (.define s.site.registers op) := by
  obtain ⟨hr, hopen, hgrown, hsite, hhas⟩ := define_open h.toOpen hrun
  exact ⟨hr, ⟨h.of_grown hopen hgrown, hgrown⟩, hsite, hhas⟩

theorem store_ok {v a : Register} {u : Unit} (h : Ready s) (hrun : store v a s = .ok u s') :
    Advance s s' ∧ s'.site = s.site.skip ∧ ∀ C, s'.out.Grows C → C.Has s.site (.store v a) := by
  obtain ⟨b, hb, he⟩ := h.current
  obtain rfl : s' = { s with code := Target.store s.code s.frame.block v a } := by
    injection hrun with _ h₂
    exact h₂.symm
  set s' : Compilation κ := { s with code := Target.store s.code s.frame.block v a }
  have hout : s'.out = s.out.store s.frame.block v a := Target.Faithful.code_store _ _ _ _
  have hplace : s'.out.block? s'.frame.block = some (b.push (.store v a)) := by
    rw [hout, Code.block?_store, if_pos rfl, hb]
    rfl
  have hadvance : Open s' ∧ Grown s s' := by
    refine h.touch rfl rfl (Target.Faithful.intact_store _ _ _ _ h.intact) ?_ ?_ ?_ hplace he ?_ ?_
      <;> rw [hout]
    · exact Code.heading?_store _ _ _ _
    · exact Code.grows_store hb he h.return_open v a
    · intro other hne
      rw [Code.block?_store, if_neg hne]
    · intro g hg
      exact Code.routines_modify_of_ne _ _ (by rw [h.routine]; exact hg)
    · exact Code.blocksOf_store _ _ _ _
  refine ⟨⟨h.of_grown hadvance.1 hadvance.2, hadvance.2⟩, ?_, ?_⟩
  · have hindex : s'.index = s.index + 1 := Compilation.index_push hb hplace
    have hblocks : s'.out.blocksOf s.frame.routine = s.out.blocksOf s.frame.routine := by
      rw [hout, Code.blocksOf_store]
    have hregisters : s'.out.registersOf s.frame.routine = s.out.registersOf s.frame.routine := by
      rw [hout, Code.registersOf_store]
    exact Site.mk.injEq .. ▸ ⟨rfl, rfl, rfl, rfl, rfl, rfl, hindex, hblocks, hregisters⟩
  · exact fun C hC => h.has_push hb hplace hC

end Emit

/-- The routine at hand has one more block. -/
def Compilation.extended (s : Compilation κ) (label : String) : Compilation κ :=
  { s with code := (Target.addBlock s.code s.frame.routine label).2 }

/-- A new block is empty and open, and nothing else changes. -/
structure Extended (s : Compilation κ) (label : String) (s' : Compilation κ) : Prop where
  intact : Intact s'.code
  registry : Registry s.globals s'.out
  grown : Grown s s'
  kept : ∀ other b, s.out.block? other = some b → s'.out.block? other = some b
  fresh : s'.out.block? (s.site.ref s.site.blocks) = some (.empty label)
  blocks : s'.out.blocksOf s.frame.routine = s.out.blocksOf s.frame.routine + 1
  registers : s'.out.registersOf s.frame.routine = s.out.registersOf s.frame.routine

theorem Compilation.extended_spec (hintact : Intact s.code)
    (hlast : s.out.block? ⟨s.frame.routine, 1⟩ = some (.empty "return"))
    (hregistry : Registry s.globals s.out) (label : String) : Extended s label (s.extended label) := by
  obtain ⟨R, hR⟩ : ∃ R, s.out.routines[s.frame.routine]? = some R := Code.routine_of_block hlast
  have hout : (s.extended label).out = (s.out.addBlock s.frame.routine label).2 :=
    Target.Faithful.code_addBlock _ _ _
  -- the new block is the first one behind those that there are
  have hold : ∀ other, other ≠ s.site.ref s.site.blocks →
      (s.extended label).out.block? other = s.out.block? other := by
    intro other hne
    rw [hout, Code.block?_addBlock hR]
    exact if_neg hne
  have hpos : 1 < s.out.blocksOf s.frame.routine := Code.block_lt_blocksOf hlast
  have hroutine : ∀ g, g ≠ s.frame.routine →
      (s.extended label).out.routines[g]? = s.out.routines[g]? := by
    intro g hg
    rw [hout]
    exact Code.routines_modify_of_ne _ _ hg
  have hblocks : (s.extended label).out.blocksOf s.frame.routine =
      s.out.blocksOf s.frame.routine + 1 := by
    rw [hout, Code.blocksOf_addBlock hR, if_pos rfl]
  refine ⟨Target.Faithful.intact_addBlock _ _ _ hintact, ?_, ?_, ?_, ?_, hblocks, ?_⟩
  · apply hregistry.update s.frame.routine (hregistry.defined_of_blocks (by omega)) _ hroutine
    rw [hout]
    exact Code.heading?_addBlock _ _ _
  · refine ⟨?_, rfl, rfl, rfl, .inl rfl, by rw [hblocks]; omega, ?_, fun g hg _ => hroutine g hg,
      fun _ h => h⟩
    · rw [hout]
      exact Code.grows_addBlock hR (open_of_last hlast) label
    · intro x hx _
      apply hold
      intro heq
      have hxe : x = s.out.blocksOf s.frame.routine := (BlockRef.mk.inj heq).2
      omega
  · intro other b hb
    rw [hold other, hb]
    rintro rfl
    have hnone := Code.block?_blocksOf s.out s.frame.routine
    rw [show s.site.ref s.site.blocks = ⟨s.frame.routine, s.out.blocksOf s.frame.routine⟩ from rfl,
      hnone] at hb
    cases hb
  · rw [hout, Code.block?_addBlock hR]
    exact if_pos rfl
  · rw [hout, Code.registersOf_addBlock]

theorem Emit.addBlock_run (hrun : addBlock label s = .ok place s') :
    place = s.site.ref s.site.blocks ∧ s' = s.extended label := by
  have h : place = (Target.addBlock s.code s.frame.routine label).1 ∧ s' = s.extended label := by
    injection hrun with h₁ h₂
    exact ⟨h₁.symm, h₂.symm⟩
  rw [Target.Faithful.addBlock_fst] at h
  exact h

theorem Emit.addBlock_ok (h : Ready s) (hrun : addBlock label s = .ok place s') :
    place = s.site.ref s.site.blocks ∧ Advance s s' ∧ s'.site = s.site.grow 1 ∧
      Waiting s' s.site.blocks := by
  obtain ⟨b, hb, he⟩ := h.current
  obtain ⟨hplace, rfl⟩ := addBlock_run hrun
  have hext := Compilation.extended_spec h.intact h.last h.registry label
  have hopen : Open (s.extended label) :=
    ⟨hext.intact, h.routine, ⟨b, hext.kept _ _ hb, he⟩, open_of_last (hext.kept _ _ h.last),
      hext.registry⟩
  refine ⟨hplace, ⟨h.of_grown hopen hext.grown, hext.grown⟩, ?_, ⟨⟨label, hext.fresh⟩, ?_, ?_⟩⟩
  · have hindex : (s.extended label).index = s.index := by
      rw [Compilation.index_of_block hb, Compilation.index_of_block (hext.kept _ _ hb)]
    exact Site.mk.injEq .. ▸ ⟨rfl, rfl, rfl, rfl, rfl, rfl, hindex, hext.blocks, hext.registers⟩
  · exact Nat.ne_of_gt h.blocks_pos
  · exact Nat.ne_of_gt h.block_lt

/-- The block at hand is ended. -/
def Compilation.closed (s : Compilation κ) (e : Exit) : Compilation κ :=
  { s with code := Target.terminate s.code s.frame.block e }

/-- Another block is at hand. -/
def Compilation.moved (s : Compilation κ) (block : BlockRef) : Compilation κ :=
  { s with frame := { s.frame with block } }

/-- A value is carried to the return block. -/
def Compilation.left (s : Compilation κ) (value : Register) : Compilation κ :=
  { s with frame := { s.frame with returns := s.frame.returns ++ [(value, s.frame.block)] } }

omit [Target.Faithful κ] in
theorem Emit.leave_ok {v : Register} {u : Unit} (h : leave v s = .ok u s') :
    s' = (s.left v).closed (.jump s.frame.returnBlock) := by
  injection h with _ h₂
  exact h₂.symm

theorem Grown.move {s₀ : Compilation κ} (h : Grown s₀ s) {block : BlockRef}
    (hblock : s₀.out.blocksOf s₀.frame.routine ≤ block.block) : Grown s₀ (s.moved block) :=
  ⟨h.code, h.routine, h.returnBlock, h.resultName, .inr hblock, h.blocks, h.untouched, h.others,
    h.settled⟩

/-- Ending the block at hand changes that block only. -/
theorem Open.closed (h : Open s) (e : Exit) :
    Grown s (s.closed e) ∧ Intact (s.closed e).code ∧ Registry s.globals (s.closed e).out ∧
      (∀ other, other ≠ s.frame.block → (s.closed e).out.block? other = s.out.block? other) ∧
      (∀ g, g ≠ s.frame.routine → (s.closed e).out.routines[g]? = s.out.routines[g]?) ∧
      (∀ g, (s.closed e).out.blocksOf g = s.out.blocksOf g) ∧
      (∀ g, (s.closed e).out.registersOf g = s.out.registersOf g) ∧
      ∀ C, (s.closed e).out.Grows C → C.Ends s.site e := by
  obtain ⟨b, hb, he⟩ := h.current
  have hout : (s.closed e).out = s.out.terminate s.frame.block e :=
    Target.Faithful.code_terminate _ _ b _ hb he
  have hother : ∀ other, other ≠ s.frame.block →
      (s.closed e).out.block? other = s.out.block? other := by
    intro other hne
    rw [hout, Code.block?_terminate, if_neg hne]
  have hroutine : ∀ g, g ≠ s.frame.routine → (s.closed e).out.routines[g]? = s.out.routines[g]? := by
    intro g hg
    rw [hout]
    exact Code.routines_modify_of_ne _ _ (by rw [h.routine]; exact hg)
  have hblocks : ∀ g, (s.closed e).out.blocksOf g = s.out.blocksOf g := by
    rw [hout]
    exact Code.blocksOf_terminate _ _ _
  have hlt := h.block_lt
  refine ⟨?_, Target.Faithful.intact_terminate _ _ b _ hb he h.intact, ?_, hother, hroutine, hblocks,
    ?_, ?_⟩
  · refine ⟨?_, rfl, rfl, rfl, .inl rfl, (hblocks _).ge, ?_, fun g hg _ => hroutine g hg, fun _ h => h⟩
    · rw [hout]
      exact Code.grows_terminate hb he h.return_open e
    · intro x _ hx
      apply hother
      intro heq
      exact hx (by rw [← heq])
  · apply h.registry.update s.frame.routine (h.registry.defined_of_blocks (by omega)) _ hroutine
    rw [hout]
    exact Code.heading?_terminate _ _ _
  · rw [hout]
    exact Code.registersOf_terminate _ _ _
  · intro C hC
    have hplace : (s.closed e).out.block? s.frame.block = some (b.terminate e) := by
      rw [hout, Code.block?_terminate, if_pos rfl, hb]
      rfl
    -- a block with an exit does not change any more
    obtain ⟨b', hb', hgrow⟩ := hC.block _ _ hplace
    rw [hgrow.closed rfl] at hb'
    refine ⟨b.terminate e, ?_, (Compilation.index_of_block hb).symm, rfl⟩
    rw [h.place_eq]
    exact hb'

/-- The block at hand was ended, and the compilation goes on in one that waited. -/
structure Jumped (s : Compilation κ) (e : Exit) (x : Nat) (s' : Compilation κ) : Prop where
  ready : Ready s'
  site : s'.site = s.site.move x
  grown : ∀ {s₀}, Grown s₀ s → s₀.site.blocks ≤ x → Grown s₀ s'
  waiting : ∀ {y}, Waiting s y → y ≠ x → Waiting s' y
  code : ∀ {C}, s'.out.Grows C → s.out.Grows C
  ends : ∀ {C}, s'.out.Grows C → C.Ends s.site e

theorem Compilation.ref_ne (s : Compilation κ) (hx : x ≠ s.frame.block.block) : s.site.ref x ≠ s.frame.block := by
  intro he
  exact hx (by rw [← he]; rfl)

theorem Ready.last_closed (h : Ready s) (e : Exit) :
    (s.closed e).out.block? (s.site.ref 1) = some (.empty "return") := by
  obtain ⟨-, -, -, hother, -⟩ := h.closed e
  exact (hother _ (s.ref_ne (Ne.symm h.notReturn))).trans h.last

/-- Going on in an empty block after ending the one at hand. -/
theorem Ready.goOn (h : Ready s)
    (hempty : s.out.block? (s.site.ref x) = some (.empty label)) (hne : x ≠ s.frame.block.block)
    (e : Exit) : Open ((s.closed e).moved (s.site.ref x)) ∧
      ((s.closed e).moved (s.site.ref x)).site = s.site.move x := by
  obtain ⟨-, hintact, hregistry, hother, -, hblocks, hregisters, -⟩ := h.closed e
  have hplace : (s.closed e).out.block? (s.site.ref x) = some (.empty label) := by
    rw [hother _ (s.ref_ne hne), hempty]
  refine ⟨⟨hintact, rfl, ⟨_, hplace, rfl⟩, open_of_last (h.last_closed e), hregistry⟩, ?_⟩
  have hindex : ((s.closed e).moved (s.site.ref x)).index = 0 :=
    (Compilation.index_of_block hplace).trans rfl
  exact Site.mk.injEq .. ▸ ⟨rfl, rfl, rfl, rfl, rfl, rfl, hindex, hblocks _, hregisters _⟩

theorem Ready.jump (h : Ready s) (hx : Waiting s x) (e : Exit) :
    Jumped s e x ((s.closed e).moved (s.site.ref x)) := by
  obtain ⟨hgrown, -, -, hother, -, -, -, hends⟩ := h.closed e
  obtain ⟨label, hempty⟩ := hx.empty
  obtain ⟨hopen, hsite⟩ := h.goOn hempty hx.other e
  refine ⟨⟨hopen, h.returnBlock, hx.notReturn, h.last_closed e⟩, hsite, ?_, ?_, ?_, fun hC => hends _ hC⟩
  · exact fun h₀ hle => (h₀.trans hgrown).move hle
  · intro y hy hne
    obtain ⟨label', hempty'⟩ := hy.empty
    exact ⟨⟨label', (hother _ (s.ref_ne hy.other)).trans hempty'⟩, hy.notReturn, hne⟩
  · exact fun hC => hgrown.code.trans hC

theorem Emit.jump_ok {α : Type} {e : Exit} {a : α}
    {k : Emit κ α} (h : Ready s) (hx : Waiting s x) (hplace : place = s.site.ref x)
    (hrun : (do Emit.terminate e; Emit.moveTo place; k) s = .ok a s') : ∃ s₁, Jumped s e x s₁ ∧ k s₁ = .ok a s' := by
  subst hplace
  exact ⟨_, h.jump hx e, hrun⟩

/-- Going on in a new block after ending the one at hand. -/
theorem Ready.restart (h : Ready s) (e : Exit) (label : String) :
    Advance s (((s.closed e).extended label).moved (s.site.ref s.site.blocks)) ∧
      (((s.closed e).extended label).moved (s.site.ref s.site.blocks)).site =
        (s.site.grow 1).move s.site.blocks ∧ (s.closed e).site.blocks = s.site.blocks ∧
      ∀ C, ((s.closed e).extended label).out.Grows C → C.Ends s.site e := by
  obtain ⟨hgrown, hintact, hregistry, hother, -, hblocks, hregisters, hends⟩ := h.closed e
  -- the block that was ended is not the return block
  have hreturn : s.site.ref 1 ≠ s.frame.block := fun he => h.notReturn (by rw [← he]; rfl)
  have hlast : (s.closed e).out.block? (s.site.ref 1) = some (.empty "return") :=
    (hother _ hreturn).trans h.last
  have hext := Compilation.extended_spec hintact hlast hregistry label
  have hfresh : ((s.closed e).extended label).out.block? (s.site.ref s.site.blocks) =
      some (.empty label) := by
    rw [← hext.fresh]
    change _ = ((s.closed e).extended label).out.block?
      ⟨s.frame.routine, (s.closed e).out.blocksOf s.frame.routine⟩
    rw [hblocks]
    rfl
  refine ⟨⟨⟨⟨hext.intact, rfl, ⟨_, hfresh, rfl⟩, open_of_last (hext.kept _ _ hlast), hext.registry⟩,
    h.returnBlock, Nat.ne_of_gt h.blocks_pos, hext.kept _ _ hlast⟩,
    (hgrown.trans hext.grown).move (Nat.le_refl _)⟩, ?_, hblocks _, ?_⟩
  · have hindex : (((s.closed e).extended label).moved (s.site.ref s.site.blocks)).index = 0 :=
      (Compilation.index_of_block hfresh).trans rfl
    exact Site.mk.injEq .. ▸ ⟨rfl, rfl, rfl, rfl, rfl, rfl, hindex, hext.blocks.trans
      (congrArg (· + 1) (hblocks _)), hext.registers.trans (hregisters _)⟩
  · exact fun C hC => hends C (hext.grown.code.trans hC)

/-- A step that changes names or the list of exits, and no code. -/
theorem Ready.names (h : Ready s) (hcode : s'.code = s.code)
    (hroutine : s'.frame.routine = s.frame.routine) (hblock : s'.frame.block = s.frame.block)
    (hreturn : s'.frame.returnBlock = s.frame.returnBlock) (hresult : s'.frame.resultName = s.frame.resultName)
    (hsub : ∀ name, s'.globals.subprogram? name = s.globals.subprogram? name) : Advance s s' := by
  have hout : s'.out = s.out := by
    unfold Compilation.out
    rw [hcode]
  -- the code is the same, and so is all that is said of it
  have hgrown : Grown s s' := by
    refine ⟨?_, hroutine, hreturn, hresult, .inl hblock, ?_, ?_, ?_, ?_⟩
    · rw [hout]
      exact .refl _
    · rw [hout]
    · intro x _ _
      rw [hout]
    · intro g _ _
      rw [hout]
    · rintro g ⟨name, entry, hentry, hg⟩
      exact ⟨name, entry, (hsub name).trans hentry, hg⟩
  have hopen : Open s' := by
    refine ⟨?_, ?_, ?_, ?_, ?_⟩
    · rw [hcode]
      exact h.intact
    · rw [hblock, hroutine]
      exact h.routine
    · rw [hout, hblock]
      exact h.current
    · rw [hout, hroutine]
      exact h.unfinished
    · refine ⟨fun name entry he => ?_, fun g r hr => ?_⟩
      · rw [hsub] at he
        rw [hout]
        exact h.registry.known name entry he
      · rw [hout] at hr
        rw [hsub]
        exact h.registry.named g r hr
  exact ⟨h.of_grown hopen hgrown, hgrown⟩

end

end Mila
