import Mila.Proofs.Correctness

/-! # Routines of the same names

A run does not see the numbers of routines, the names of their parameters, or routines that nothing calls. So two
pieces of code run alike if each routine of the first one has a namesake in the second one that does the same, where
calls lead from namesakes to namesakes.
-/

namespace Mila

/-! ## 1. Parts that do the same -/

/-- Values carried to a block, with the numbers that the blocks they come from have in their routine. -/
def sourceBlocks (incoming : List (Register × BlockRef)) : List (Register × Nat) :=
  incoming.map fun z => (z.1, z.2.block)

def Exit.Matches : Exit → Exit → Prop
  | .jump target, e => ∃ target', e = .jump target' ∧ target'.block = target.block
  | .branch c t f, e => ∃ t' f', e = .branch c t' f' ∧ t'.block = t.block ∧ f'.block = f.block
  | .ret v, e => e = .ret v

section

variable (N : Nat → Nat → Prop)

/-- The second operation does what the first one does, if routines that are related by `N` do. -/
def Operation.Matches : Operation → Operation → Prop
  | .call g args, op => ∃ g', op = .call g' args ∧ N g g'
  | .phi incoming, op => ∃ incoming', op = .phi incoming' ∧ sourceBlocks incoming' = sourceBlocks incoming
  | op, op' => op' = op

def Instruction.Matches : Instruction → Instruction → Prop
  | .define target op, i => ∃ op', i = .define target op' ∧ op.Matches N op'
  | .store value address, i => i = .store value address

structure Block.Matches (b b' : Block) : Prop where
  body : List.Forall₂ (Instruction.Matches N) b.body.toList b'.body.toList
  exit : Option.Rel Exit.Matches b.exit b'.exit

/-- The parameters may have other names. -/
structure Routine.Matches (r r' : Routine) : Prop where
  name : r'.name = r.name
  registers : r'.registers = r.registers
  blocks : List.Forall₂ (Block.Matches N) r.blocks.toList r'.blocks.toList

end

section

variable {N N' : Nat → Nat → Prop}

theorem Operation.Matches.mono (hN : ∀ g g', N g g' → N' g g') {op op' : Operation} (h : op.Matches N op') :
    op.Matches N' op' := by
  cases op with
  | call g args =>
    obtain ⟨g', rfl, hg⟩ := h
    exact ⟨g', rfl, hN g g' hg⟩
  | _ => exact h

theorem Instruction.Matches.mono (hN : ∀ g g', N g g' → N' g g') {i i' : Instruction} (h : i.Matches N i') :
    i.Matches N' i' := by
  cases i with
  | define target op =>
    obtain ⟨op', rfl, hop⟩ := h
    exact ⟨op', rfl, hop.mono hN⟩
  | store => exact h

theorem Routine.Matches.mono (hN : ∀ g g', N g g' → N' g g') {r r' : Routine} (h : r.Matches N r') :
    r.Matches N' r' :=
  ⟨h.name, h.registers, h.blocks.imp fun _ _ hb => ⟨hb.body.imp fun _ _ hi => hi.mono hN, hb.exit⟩⟩

theorem Exit.Matches.refl (e : Exit) : e.Matches e := by
  cases e with
  | jump target => exact ⟨target, rfl, rfl⟩
  | branch c t f => exact ⟨t, f, rfl, rfl, rfl⟩
  | ret v => rfl

theorem Instruction.Matches.refl {i : Instruction} (h : ∀ r g args, i = .define r (.call g args) → N g g) :
    i.Matches N i := by
  cases i with
  | store => rfl
  | define target op =>
    refine ⟨op, rfl, ?_⟩
    cases op with
    | call g args => exact ⟨g, rfl, h target g args rfl⟩
    | phi => exact ⟨_, rfl, rfl⟩
    | _ => rfl

/-- A routine does what it does itself, if this holds of those that it calls. -/
theorem Routine.Matches.refl {r : Routine}
    (h : ∀ b ∈ r.blocks.toList, ∀ t g args, .define t (.call g args) ∈ b.body.toList → N g g) : r.Matches N r where
  name := rfl
  registers := rfl
  blocks := List.forall₂_same.mpr fun b hb =>
    { body := List.forall₂_same.mpr fun i hi => .refl fun t g args he => h b hb t g args (he ▸ hi)
      exit := by
        cases b.exit with
        | none => exact .none
        | some e => exact .some (.refl e) }

/-! ## 2. Emitting into both -/

theorem forall₂_modify {α β : Type} {R : α → β → Prop} {l : List α} {l' : List β} (h : List.Forall₂ R l l') (k : Nat)
    {f : α → α} {f' : β → β} (hf : ∀ a b, R a b → R (f a) (f' b)) :
    List.Forall₂ R (l.modify k f) (l'.modify k f') := by
  induction h generalizing k with
  | nil => simp
  | cons hab h ih =>
    cases k with
    | zero => exact .cons (hf _ _ hab) h
    | succ k => exact .cons hab (ih k)

theorem Block.Matches.push {b b' : Block} (h : b.Matches N b') {i i' : Instruction} (hi : i.Matches N i') :
    (b.push i).Matches N (b'.push i') where
  body := by
    rw [Block.push, Block.push, Array.toList_push, Array.toList_push]
    exact List.rel_append h.body (.cons hi .nil)
  exit := h.exit

namespace Routine.Matches

theorem empty (name : String) (params params' : List String) : (Routine.empty name params).Matches N (.empty name params') :=
  ⟨rfl, rfl, .nil⟩

variable {r r' : Routine} (h : r.Matches N r')

include h

theorem size : r'.blocks.size = r.blocks.size := by
  have := h.blocks.length_eq
  simpa using this.symm

theorem addBlock (label : String) : (r.addBlock label).Matches N (r'.addBlock label) where
  name := h.name
  registers := h.registers
  blocks := by
    rw [Routine.addBlock, Routine.addBlock, Array.toList_push, Array.toList_push]
    exact List.rel_append h.blocks (.cons ⟨.nil, .none⟩ .nil)

theorem modify (x : Nat) {f f' : Block → Block} (hf : ∀ b b', b.Matches N b' → (f b).Matches N (f' b')) :
    Matches N { r with blocks := r.blocks.modify x f } { r' with blocks := r'.blocks.modify x f' } where
  name := h.name
  registers := h.registers
  blocks := by
    rw [Array.toList_modify, Array.toList_modify]
    exact forall₂_modify h.blocks x hf

theorem push (x : Nat) {i i' : Instruction} (hi : i.Matches N i') : (r.push x i).Matches N (r'.push x i') :=
  h.modify x fun _ _ hb => hb.push hi

theorem define (x : Nat) {op op' : Operation} (hop : op.Matches N op') :
    (r.define x op).Matches N (r'.define x op') := by
  have hpush : (r.push x (.define r.registers op)).Matches N (r'.push x (.define r'.registers op')) :=
    h.push x ⟨op', by rw [h.registers], hop⟩
  exact ⟨hpush.name, by rw [Routine.define, Routine.define, h.registers], hpush.blocks⟩

theorem terminate (x : Nat) {e e' : Exit} (he : e.Matches e') : (r.terminate x e).Matches N (r'.terminate x e') :=
  h.modify x fun _ _ hb => ⟨hb.body, .some he⟩

end Routine.Matches

end

/-! ## 3. Activations -/

theorem forall₂_getElem? {α β : Type} {R : α → β → Prop} {l : List α} {l' : List β} (h : List.Forall₂ R l l')
    (k : Nat) : Option.Rel R l[k]? l'[k]? := by
  induction h generalizing k with
  | nil => exact .none
  | cons hab h ih =>
    cases k with
    | zero => exact .some hab
    | succ k => exact ih k

section

variable {N : Nat → Nat → Prop}

theorem Routine.Matches.block {r r' : Routine} (h : r.Matches N r') (x : Nat) :
    Option.Rel (Block.Matches N) r.blocks[x]? r'.blocks[x]? := by
  rw [← Array.getElem?_toList, ← Array.getElem?_toList]
  exact forall₂_getElem? h.blocks x

theorem Instruction.Matches.isPhi {i i' : Instruction} (h : i.Matches N i') : i'.isPhi = i.isPhi := by
  cases i with
  | store => rw [show i' = _ from h]
  | define target op =>
    obtain ⟨op', rfl, hop⟩ := h
    cases op with
    | call =>
      obtain ⟨g', rfl, -⟩ := hop
      rfl
    | phi =>
      obtain ⟨l', rfl, -⟩ := hop
      rfl
    | _ => rw [show op' = _ from hop]

/-- Merges that do the same. -/
def MergeMatches (z z' : Register × List (Register × BlockRef)) : Prop :=
  z'.1 = z.1 ∧ sourceBlocks z'.2 = sourceBlocks z.2

theorem Instruction.Matches.phi? {i i' : Instruction} (h : i.Matches N i') :
    Option.Rel MergeMatches i.phi? i'.phi? := by
  cases i with
  | store =>
    rw [show i' = _ from h]
    exact .none
  | define target op =>
    obtain ⟨op', rfl, hop⟩ := h
    cases op with
    | call =>
      obtain ⟨g', rfl, -⟩ := hop
      exact .none
    | phi =>
      obtain ⟨l', rfl, hl⟩ := hop
      exact .some ⟨rfl, hl⟩
    | _ =>
      rw [show op' = _ from hop]
      exact .none

theorem forall₂_leadingPhis {l l' : List Instruction} (h : List.Forall₂ (Instruction.Matches N) l l') :
    List.Forall₂ MergeMatches ((l.takeWhile Instruction.isPhi).filterMap Instruction.phi?)
      ((l'.takeWhile Instruction.isPhi).filterMap Instruction.phi?) := by
  induction h with
  | nil => exact .nil
  | @cons i i' l l' hi h ih =>
    rw [List.takeWhile_cons, List.takeWhile_cons, hi.isPhi]
    split
    · have hphi := hi.phi?
      rw [List.filterMap_cons, List.filterMap_cons]
      generalize i.phi? = z, i'.phi? = z' at hphi
      cases hphi with
      | none => exact ih
      | some hz => exact .cons hz ih
    · exact .nil

theorem Block.Matches.leadingPhis {b b' : Block} (h : b.Matches N b') :
    List.Forall₂ MergeMatches b.leadingPhis b'.leadingPhis := by
  unfold Block.leadingPhis
  rw [Array.toList_takeWhile, Array.toList_takeWhile]
  exact forall₂_leadingPhis h.body

namespace Activation

/-- An activation at the same place of another routine. -/
def under (a : Activation) (R : Routine) : Activation := { a with routine := R }

theorem under_set (a : Activation) (R : Routine) (r : Register) (content : Content) :
    (a.under R).set r content = (·.under R) <$> a.set r content := by
  unfold set under
  split <;> rfl

theorem under_setWords (a : Activation) (R : Routine) (values : List (Register × Word)) :
    (a.under R).setWords values = (·.under R) <$> a.setWords values := by
  induction values generalizing a with
  | nil => rfl
  | cons z values ih =>
    simp only [setWords, under_set, bind_map_left, map_bind, ih]

/-- Of the blocks that a merge takes values from only the numbers count. -/
theorem under_merged (a : Activation) (R : Routine) (origin : Option Nat) {l l' : List (Register × BlockRef)}
    (h : sourceBlocks l' = sourceBlocks l) : (a.under R).merged origin l' = a.merged origin l := by
  cases origin with
  | none => rfl
  | some origin =>
    have hfind : ∀ l : List (Register × BlockRef), (l.find? fun z => z.2.block == origin).map Prod.fst =
        ((sourceBlocks l).find? fun z => z.2 == origin).map Prod.fst := by
      intro l
      rw [sourceBlocks, List.find?_map, Option.map_map]
      rfl
    have heq := (hfind l').trans ((congrArg _ (congrArg _ h)).trans (hfind l).symm)
    unfold merged
    dsimp only
    generalize l.find? (fun z => z.2.block == origin) = x, l'.find? (fun z => z.2.block == origin) = x' at heq
    rcases x with _ | ⟨v, _⟩ <;> rcases x' with _ | ⟨v', _⟩
    · rfl
    · cases heq
    · cases heq
    · cases heq
      rfl

theorem under_merges (a : Activation) (R : Routine) (origin : Option Nat)
    {l l' : List (Register × List (Register × BlockRef))} (h : List.Forall₂ MergeMatches l l') :
    (l'.mapM fun z => do return (z.1, ← (a.under R).merged origin z.2)) =
      (l.mapM fun z => do return (z.1, ← a.merged origin z.2) : Run _) := by
  induction h with
  | nil => rfl
  | cons hz h ih =>
    rw [List.mapM_cons, List.mapM_cons, ih, hz.1, under_merged a R origin hz.2]

variable {a : Activation} {R : Routine}

theorem under_enter (h : a.routine.Matches N R) (origin : Option Nat) (x : Nat) :
    (a.under R).enter origin x = (·.under R) <$> a.enter origin x := by
  have hblock := h.block x
  unfold enter
  rw [show (a.under R).routine = R from rfl]
  generalize a.routine.blocks[x]? = b, R.blocks[x]? = b' at hblock
  cases hblock with
  | none => rfl
  | some hb =>
    simp only [under_merges a R origin hb.leadingPhis, under_setWords, bind_map_left, map_bind, map_pure]
    rfl

theorem under_exit? (h : a.routine.Matches N R) : Option.Rel Exit.Matches a.exit? (a.under R).exit? := by
  have hblock := h.block a.block
  change Option.Rel _ (a.routine.blocks[a.block]? >>= Block.exit) (R.blocks[a.block]? >>= Block.exit)
  generalize a.routine.blocks[a.block]? = b, R.blocks[a.block]? = b' at hblock
  cases hblock with
  | none => exact .none
  | some hb => exact hb.exit

theorem under_instruction? (h : a.routine.Matches N R) :
    Option.Rel (Instruction.Matches N) a.instruction? (a.under R).instruction? := by
  have hblock := h.block a.block
  change Option.Rel _ (a.routine.blocks[a.block]? >>= (·.body[a.done]?)) (R.blocks[a.block]? >>= (·.body[a.done]?))
  generalize a.routine.blocks[a.block]? = b, R.blocks[a.block]? = b' at hblock
  cases hblock with
  | none => exact .none
  | @some b b' hb =>
    change Option.Rel _ b.body[a.done]? b'.body[a.done]?
    rw [← Array.getElem?_toList, ← Array.getElem?_toList]
    exact forall₂_getElem? hb.body a.done

section

variable {call call' : Nat → List Word → Run Word} (hcall : ∀ g g', N g g' → call' g' = call g)

include hcall

/-- An operation does not see the routine it stands in. -/
theorem under_evaluate (a : Activation) (R : Routine) {op op' : Operation} (h : op.Matches N op') :
    Machine.evaluate call' (a.under R) op' = Machine.evaluate call a op := by
  cases op with
  | call g args =>
    obtain ⟨g', rfl, hg⟩ := h
    simp only [Machine.evaluate, hcall g g' hg]
    rfl
  | phi incoming =>
    obtain ⟨incoming', rfl, -⟩ := h
    rfl
  | _ =>
    rw [show op' = _ from h]
    rfl

theorem under_perform (a : Activation) (R : Routine) {i i' : Instruction} (h : i.Matches N i') :
    Machine.perform call' (a.under R) i' = (·.under R) <$> Machine.perform call a i := by
  cases i with
  | define target op =>
    obtain ⟨op', rfl, hop⟩ := h
    simp only [Machine.perform, under_evaluate hcall a R hop, map_bind]
    refine congrArg _ (funext fun content => ?_)
    cases content with
    | some content => exact a.under_set R target content
    | none => rfl
  | store value address =>
    rw [show i' = _ from h]
    simp only [Machine.perform, map_bind, map_pure]
    rfl

theorem under_act {a : Activation} {R : Routine} (h : a.routine.Matches N R) :
    (a.under R).act call' = Sum.map id (·.under R) <$> a.act call := by
  have hinstruction := under_instruction? h
  have hexit := under_exit? h
  unfold act
  generalize a.instruction? = i, (a.under R).instruction? = i' at hinstruction
  -- instructions and exits correspond, so it is enough to look at those of one side
  cases hinstruction with
  | some hi =>
    simp only [under_perform hcall a R hi, bind_map_left, map_bind, map_pure]
    rfl
  | none =>
    dsimp only
    generalize a.exit? = e, (a.under R).exit? = e' at hexit
    cases hexit with
    | none => rfl
    | @some e e' he =>
      cases e with
      | jump target =>
        obtain ⟨target', rfl, ht⟩ := he
        simp only [ht, show (a.under R).block = a.block from rfl, under_enter h, bind_map_left, map_bind, map_pure]
        rfl
      | branch c t f =>
        obtain ⟨t', f', rfl, ht, hf⟩ := he
        simp only [apply_ite BlockRef.block, ht, hf, show (a.under R).block = a.block from rfl, under_enter h,
          bind_map_left, map_bind, map_pure]
        rfl
      | ret v =>
        rw [show e' = _ from he]
        simp only [map_bind, map_pure]
        rfl

end

end Activation

end

/-! ## 4. Code that does the same -/

namespace Code

/-- The name of a routine. -/
def name? (c : Code) (g : Nat) : Option String := (c.routines[g]?).map Routine.name

/-- Routines of the same name. -/
def Namesakes (C C' : Code) (g g' : Nat) : Prop := ∃ name, C.name? g = some name ∧ C'.name? g' = some name

/-- No two routines have the same name. -/
def Distinct (c : Code) : Prop := ∀ g h name, c.name? g = some name → c.name? h = some name → g = h

/-- Each routine of the first code has a namesake in the second one that does the same. -/
structure Reproduces (C C' : Code) : Prop where
  distinct : C.Distinct
  distinct' : C'.Distinct
  routine : ∀ (g : Nat) (r : Routine), C.routines[g]? = some r →
    ∃ (g' : Nat) (r' : Routine), C'.routines[g']? = some r' ∧ r.Matches (C.Namesakes C') r'

theorem name?_of_routine {c : Code} {g : Nat} {r : Routine} (h : c.routines[g]? = some r) :
    c.name? g = some r.name := by
  rw [name?, h, Option.map_some]

theorem Reproduces.namesakes {C C' : Code} (h : C.Reproduces C') {g g' : Nat} (hg : C.Namesakes C' g g') :
    ∃ r r', C.routines[g]? = some r ∧ C'.routines[g']? = some r' ∧ r.Matches (C.Namesakes C') r' := by
  obtain ⟨name, hname, hname'⟩ := hg
  obtain ⟨r, hr, rfl⟩ := Option.map_eq_some_iff.mp hname
  obtain ⟨h', r', hr', hmatch⟩ := h.routine g r hr
  have hsame := name?_of_routine hr'
  rw [hmatch.name] at hsame
  obtain rfl := h.distinct' _ _ _ hsame hname'
  exact ⟨r, r', hr, hr', hmatch⟩

end Code

namespace Machine

/-- Pieces of a run that go on alike wherever the first one leads. -/
theorem bind_congr {α β : Type} {x : Run α} {f f' : α → Run β} (h : ∀ m b m', x m = .ok b m' → f b = f' b) :
    x >>= f = x >>= f' := by
  funext m
  cases hm : x m with
  | ok b m' => rw [Run.bind_ok hm, Run.bind_ok hm, h m b m' hm]
  | error fault m' => rw [Run.bind_error hm, Run.bind_error hm]

variable {C C' : Code} {L : Limits} {N : Nat → Nat → Prop} (hN : ∀ g g', N g g' → ∃ r r',
  C.routines[g]? = some r ∧ C'.routines[g']? = some r' ∧ r.Matches N r')

include hN

section

variable {go go' : Activation → Run Word}
  (hgo : ∀ (a : Activation) (R : Routine), a.routine.Matches N R → go' (a.under R) = go a)

include hgo

theorem invoke_matches {g g' : Nat} (hg : N g g') (depth : Nat) :
    (fun args => invoke C' L go' g' args depth) = fun args => invoke C L go g args depth := by
  funext args
  obtain ⟨r, r', hr, hr', hmatch⟩ := hN g g' hg
  have hstart : Activation.start r' args depth = (Activation.start r args depth).under r' := by
    unfold Activation.start Activation.under
    rw [hmatch.registers]
  have hbody : (Activation.start r' args depth).enter none 0 >>= go' =
      (Activation.start r args depth).enter none 0 >>= go := by
    rw [hstart, Activation.under_enter hmatch, bind_map_left]
    refine bind_congr fun m b m' hb => hgo b r' ?_
    rw [((Activation.meets_enter _ m none 0).ok hb).2.routine]
    exact hmatch
  have hexternal : r'.isExternal = r.isExternal := by
    unfold Routine.isExternal Array.isEmpty
    rw [hmatch.size]
  unfold invoke
  simp only [hr, hr', hmatch.name, hexternal]
  split
  · rfl
  · split
    · rfl
    · exact congrArg releasing hbody

theorem afterTick_matches {a : Activation} {R : Routine} (h : a.routine.Matches N R) :
    afterTick C' L go' (a.under R) = afterTick C L go a := by
  have hcall : ∀ g g', N g g' → (fun args => invoke C' L go' g' args (a.depth + 1)) =
      fun args => invoke C L go g args (a.depth + 1) := fun g g' hg => invoke_matches hN hgo hg _
  rw [afterTick_eq_act, afterTick_eq_act, show (a.under R).depth = a.depth from rfl, Activation.under_act hcall h,
    bind_map_left]
  refine bind_congr fun m next m' hnext => ?_
  cases next with
  | inl v => rfl
  | inr b =>
    refine hgo b R ?_
    rw [((a.meets_act m).ok hnext).routine]
    exact h

end

theorem execute_matches (n : Nat) {a : Activation} {R : Routine} (h : a.routine.Matches N R) :
    execute C' L n (a.under R) = execute C L n a := by
  induction n generalizing a R with
  | zero => rfl
  | succ n ih =>
    rw [execute_succ, execute_succ, afterTick_matches hN (fun _ _ ha => ih ha) h]

/-- Code that does the same under other numbers runs alike, step by step. -/
theorem run_matches (hmain : C.heading? 0 = some (Code.entryPoint, []))
    (hmain' : C'.heading? 0 = some (Code.entryPoint, [])) (h : N 0 0) (input : List Word) (L : Limits) :
    C'.run input L = C.run input L := by
  have hcall := congrFun (invoke_matches (L := L) hN (fun a R ha => execute_matches (L := L) hN L.steps ha) h 0) []
  unfold Code.run
  simp only [Code.find_entryPoint hmain, Code.find_entryPoint hmain', hcall]

end Machine

theorem Code.Reproduces.run {C C' : Code} (hC : C.Reproduces C') (hmain : C.heading? 0 = some (Code.entryPoint, []))
    (hmain' : C'.heading? 0 = some (Code.entryPoint, [])) (input : List Word) (L : Limits) :
    C'.run input L = C.run input L := by
  have hnamed : ∀ c : Code, c.heading? 0 = some (Code.entryPoint, []) → c.name? 0 = some Code.entryPoint := by
    intro c hc
    obtain ⟨r, hr, hheading⟩ := Option.map_eq_some_iff.mp hc
    rw [name?_of_routine hr, (Prod.mk.inj hheading).1]
  exact Machine.run_matches (fun g g' hg => hC.namesakes hg) hmain hmain' ⟨_, hnamed C hmain, hnamed C' hmain'⟩ input L

end Mila
