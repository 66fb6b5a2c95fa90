import Mila.Proofs.Effects
import Mila.Proofs.Namesakes
import Mila.Proofs.Sessions

/-! # The order of merges

The merges that a block starts with read the registers as they were before the block was entered, and as instructions
they only take a step each. So a run does not depend on their order, except that of several flaws in the code another
one may be reported.
-/

namespace Mila

open Run Machine

/-! ## 1. Merges in another order -/

/-- The same block but for the order of merges that it starts with. -/
structure Block.Reorders (b b' : Block) : Prop where
  exit : b'.exit = b.exit
  body : ∃ phis phis' rest : List Instruction, b.body.toList = phis ++ rest ∧ b'.body.toList = phis' ++ rest ∧
    phis.Perm phis' ∧ ∀ i ∈ phis, i.isPhi

structure Routine.Reorders (r r' : Routine) : Prop where
  name : r'.name = r.name
  registers : r'.registers = r.registers
  blocks : List.Forall₂ Block.Reorders r.blocks.toList r'.blocks.toList

def Code.Reorders (C C' : Code) : Prop := List.Forall₂ Routine.Reorders C.routines.toList C'.routines.toList

/-- Every register is defined by one instruction. -/
def Code.DefinesOnce (C : Code) : Prop := ∀ r ∈ C.routines, r.defined.Nodup

theorem Session.Reachable.definesOnce {s : Session} (h : s.Reachable) : s.builder.code.DefinesOnce :=
  fun r hr => (h.sound.numbered r hr).once.nodup_iff.mpr List.nodup_range

theorem forall₂_array {α β : Type} {P : α → β → Prop} {xs : Array α} {ys : Array β}
    (h : List.Forall₂ P xs.toList ys.toList) (k : Nat) :
    (xs[k]? = none ∧ ys[k]? = none) ∨ ∃ x y, xs[k]? = some x ∧ ys[k]? = some y ∧ P x y := by
  have hrel := forall₂_getElem? h k
  rw [Array.getElem?_toList, Array.getElem?_toList] at hrel
  generalize xs[k]? = x, ys[k]? = y at hrel
  cases hrel with
  | none => exact .inl ⟨rfl, rfl⟩
  | some hxy => exact .inr ⟨_, _, rfl, rfl, hxy⟩

/-- No two merges at the start of a block define the same register. -/
theorem Routine.nodup_leadingPhis {r : Routine} (h : r.defined.Nodup) {x : Nat} {b : Block}
    (hb : r.blocks[x]? = some b) : (b.leadingPhis.map Prod.fst).Nodup := by
  have hblock := (List.nodup_flatMap.mp h).1 b (Array.mem_toList_iff.mpr (Array.mem_of_getElem? hb))
  have hsublist : ∀ l : List Instruction,
      ((l.filterMap Instruction.phi?).map Prod.fst).Sublist (l.filterMap Instruction.target?) := by
    intro l
    induction l with
    | nil => exact .slnil
    | cons i l ih =>
      rcases i with ⟨target, op⟩ | _
      · cases op with
        | phi => exact ih.cons_cons target
        | _ => exact ih.cons target
      · exact ih
  refine ((hsublist _).trans ?_).nodup hblock
  rw [Array.toList_takeWhile]
  exact (List.takeWhile_sublist _).filterMap _

namespace Block.Reorders

variable {b b' : Block} (h : b.Reorders b')

include h

theorem leadingPhis : b.leadingPhis.Perm b'.leadingPhis := by
  obtain ⟨phis, phis', rest, hbody, hbody', hperm, hphis⟩ := h.body
  unfold Block.leadingPhis
  rw [Array.toList_takeWhile, Array.toList_takeWhile, hbody, hbody', List.takeWhile_append_of_pos hphis,
    List.takeWhile_append_of_pos fun i hi => hphis i (hperm.mem_iff.mpr hi)]
  exact (hperm.append_right _).filterMap _

theorem instruction (k : Nat) : b'.body[k]? = b.body[k]? ∨
    ∃ i i', b.body[k]? = some i ∧ b'.body[k]? = some i' ∧ i.isPhi ∧ i'.isPhi := by
  obtain ⟨phis, phis', rest, hbody, hbody', hperm, hphis⟩ := h.body
  rw [← Array.getElem?_toList, ← Array.getElem?_toList, hbody, hbody', List.getElem?_append, List.getElem?_append,
    hperm.length_eq]
  split
  · next hk =>
    have hk' := hperm.length_eq.symm ▸ hk
    rw [List.getElem?_eq_getElem hk, List.getElem?_eq_getElem hk']
    exact .inr ⟨_, _, rfl, rfl, hphis _ (List.getElem_mem hk'), hphis _ (hperm.mem_iff.mpr (List.getElem_mem hk))⟩
  · exact .inl rfl

end Block.Reorders

/-! ## 2. Runs that differ in flaws only -/

namespace Run

variable {α β : Type} {x y : Run α} {f g : α → Run β}

def Flawed (r : EStateM.Result Fault Machine α) : Prop := ∃ f m, f.IsFlaw ∧ r = .error f m

/-- Pieces of a run that do the same, unless both end with flaws of the code, which need not be the same. -/
def Akin (x y : Run α) : Prop := ∀ m, y m = x m ∨ Flawed (x m) ∧ Flawed (y m)

namespace Akin

theorem refl (x : Run α) : Akin x x := fun _ => .inl rfl

theorem flawed_bind {m : Machine} (h : Flawed (x m)) (f : α → Run β) : Flawed ((x >>= f) m) := by
  obtain ⟨fault, m', hflaw, hx⟩ := h
  exact ⟨fault, m', hflaw, bind_error hx⟩

theorem bind (hxy : Akin x y) (hfg : ∀ m b m', x m = .ok b m' → Akin (f b) (g b)) : Akin (x >>= f) (y >>= g) := by
  intro m
  rcases hxy m with hsame | ⟨hx, hy⟩
  · cases h : x m with
    | ok b m' =>
      rw [bind_ok h, bind_ok (hsame.trans h)]
      exact hfg m b m' h m'
    | error fault m' =>
      rw [bind_error h, bind_error (hsame.trans h)]
      exact .inl rfl
  · exact .inr ⟨flawed_bind hx f, flawed_bind hy g⟩

theorem releasing (hxy : Akin x y) : Akin (releasing x) (releasing y) := by
  intro m
  unfold Machine.releasing
  rcases hxy m with hsame | ⟨⟨f, m₁, hf, hx⟩, f', m₂, hf', hy⟩
  · rw [hsame]
    exact .inl rfl
  · rw [hx, hy]
    exact .inr ⟨⟨f, _, hf, rfl⟩, f', _, hf', rfl⟩

theorem respects : Respects Akin where
  pure _ := refl _
  throw _ := refl _
  bind hxy hfg := hxy.bind fun _ b _ _ => hfg b
  allocate _ := refl _
  read _ := refl _
  write _ _ := refl _
  readInput := refl _
  writeOutput _ := refl _

end Akin

end Run

/-! ## 3. Entering a block -/

namespace Activation

variable {a : Activation} {m : Machine} {R : Routine}

/-- A merge has found a word in the registers of `a`, and its register has got it. -/
def Merges (a : Activation) (m : Machine) (origin : Option Nat) (a' : Activation)
    (phi : Register × List (Register × BlockRef)) : Prop :=
  ∃ v, a.merged origin phi.2 m = .ok v m ∧ a'.registers[phi.1]? = some (.word v)

theorem meets_setWords_distinct {values : List (Register × Word)} (hdistinct : (values.map Prod.fst).Nodup) :
    Meets (a.setWords values) m
      (fun a' m' => m' = m ∧ a.Continues a' ∧ (∀ entry ∈ values, a'.registers[entry.1]? = some (.word entry.2)) ∧
        ∀ r ∉ values.map Prod.fst, a'.registers[r]? = a.registers[r]?)
      (fun f _ => f.IsFlaw ∧ ∃ entry ∈ values, a.registers.size ≤ entry.1) := by
  induction values generalizing a with
  | nil => exact .pure ⟨rfl, .refl a, fun _ hmem => absurd hmem List.not_mem_nil, fun _ _ => rfl⟩
  | cons entry values ih =>
    obtain ⟨r, value⟩ := entry
    obtain ⟨hr, hrest⟩ := List.nodup_cons.mp hdistinct
    -- the first register is none of the others, so what is put there stays
    by_cases hlt : r < a.registers.size
    · unfold Meets
      rw [setWords, bind_ok (set_ok hlt _ m)]
      refine (ih hrest).mono ?_ ?_
      · rintro a' m' ⟨rfl, hcontinues, hwords, hkept⟩
        refine ⟨rfl, (a.continues_set _ _).trans hcontinues, List.forall_mem_cons.mpr ⟨?_, hwords⟩, fun s hs => ?_⟩
        · rw [hkept r hr, Array.getElem?_setIfInBounds_self_of_lt hlt]
        · obtain ⟨hne, hs⟩ := not_or.mp (mt List.mem_cons.mpr hs)
          rw [hkept s hs, Array.getElem?_setIfInBounds_ne (Ne.symm hne)]
      · rintro f _ ⟨hflaw, entry, hmem, hsize⟩
        exact ⟨hflaw, entry, List.mem_cons_of_mem _ hmem, Array.size_setIfInBounds ▸ hsize⟩
    · have hset : a.set r (.word value) m = .error (.malformed .missingRegister) m := by
        rw [set, if_neg hlt]
        rfl
      unfold Meets
      rw [setWords, bind_error hset]
      exact ⟨⟨_, Defect.noConfusion, rfl⟩, _, List.mem_cons_self, Nat.le_of_not_lt hlt⟩

/-- A block is entered with what its merges find before any of them is made, unless one of them can not be made. -/
theorem meets_enter_merges {x : Nat} {b : Block} (hb : a.routine.blocks[x]? = some b)
    (hdistinct : (b.leadingPhis.map Prod.fst).Nodup) (origin : Option Nat) (m : Machine) : Meets (a.enter origin x) m
      (fun a' m' => (m' = m ∧ a'.block = x ∧ a'.done = 0 ∧ a.Continues a') ∧
        (∀ phi ∈ b.leadingPhis, a.Merges m origin a' phi) ∧
        ∀ r ∉ b.leadingPhis.map Prod.fst, a'.registers[r]? = a.registers[r]?)
      (fun f _ => f.IsFlaw ∧ ∃ phi ∈ b.leadingPhis, ∀ a', a.Continues a' → ¬a.Merges m origin a' phi) := by
  simp only [enter, hb]
  refine ((meets_merges origin b.leadingPhis).mono (fun _ _ h => h) ?_).bind fun values m₁ h₁ => ?_
  · rintro f _ ⟨hflaw, phi, hphi, hfails⟩
    refine ⟨hflaw, phi, hphi, ?_⟩
    rintro a' - ⟨v, hv, -⟩
    exact hfails v hv
  · obtain ⟨rfl, htargets, hvalues⟩ := h₁
    refine ((meets_setWords_distinct (htargets ▸ hdistinct)).mono (fun _ _ h => h) ?_).bind fun a' m₂ h₂ => .pure ?_
    · rintro f _ ⟨hflaw, entry, hentry, hsize⟩
      obtain ⟨phi, hphi, heq⟩ := List.mem_map.mp (htargets ▸ List.mem_map_of_mem hentry)
      refine ⟨hflaw, phi, hphi, ?_⟩
      rintro a' hcontinues ⟨v, -, hv⟩
      have hlt := (Array.getElem?_eq_some_iff.mp hv).1
      rw [hcontinues.size, heq] at hlt
      omega
    · obtain ⟨rfl, hcontinues, hwords, hkept⟩ := h₂
      refine ⟨⟨rfl, rfl, rfl, ⟨hcontinues.routine, hcontinues.args, hcontinues.depth, hcontinues.size⟩⟩, ?_,
        htargets ▸ hkept⟩
      intro phi hphi
      obtain ⟨v, hv, hmem⟩ := hvalues phi hphi
      exact ⟨v, hv, hwords _ hmem⟩

/-- Two routines go on alike at the same place, or there is a merge in both. -/
theorem reordered (h : a.routine.Reorders R) : ((a.under R).instruction? = a.instruction? ∨
    ∃ i i', a.instruction? = some i ∧ (a.under R).instruction? = some i' ∧ i.isPhi ∧ i'.isPhi) ∧
    (a.under R).exit? = a.exit? := by
  unfold instruction? exit?
  rw [show (a.under R).routine = R from rfl, show (a.under R).block = a.block from rfl]
  rcases forall₂_array h.blocks a.block with ⟨hb, hb'⟩ | ⟨b, b', hb, hb', hblock⟩ <;> rw [hb, hb']
  · exact ⟨.inl rfl, rfl⟩
  · exact ⟨hblock.instruction a.done, hblock.exit⟩

/-- A block is entered from the same registers into the same registers. -/
theorem enter_reordered (h : a.routine.Reorders R) (hdistinct : a.routine.defined.Nodup) (origin : Option Nat) (x : Nat)
    (m : Machine) : (∃ a', a.enter origin x m = .ok a' m ∧ (a.under R).enter origin x m = .ok (a'.under R) m) ∨
      Flawed (a.enter origin x m) ∧ Flawed ((a.under R).enter origin x m) := by
  rcases forall₂_array h.blocks x with ⟨hb, hb'⟩ | ⟨b, b', hb, hb', hblock⟩
  · simp only [enter, hb, show (a.under R).routine = R from rfl, hb']
    exact .inr ⟨⟨_, m, ⟨_, Defect.noConfusion, rfl⟩, rfl⟩, _, m, ⟨_, Defect.noConfusion, rfl⟩, rfl⟩
  have hnodup := Routine.nodup_leadingPhis hdistinct hb
  have hperm := hblock.leadingPhis
  have hfirst := meets_enter_merges hb hnodup origin m
  have hsecond := meets_enter_merges (a := a.under R) hb' ((hperm.map _).nodup_iff.mp hnodup) origin m
  -- a merge that can not be made in one order can not be made in the other
  cases he : a.enter origin x m with
  | error f m₁ =>
    obtain ⟨hflaw, phi, hphi, hfails⟩ := hfirst.error he
    cases he' : (a.under R).enter origin x m with
    | error f' m₂ => exact .inr ⟨⟨f, m₁, hflaw, rfl⟩, f', m₂, (hsecond.error he').1, rfl⟩
    | ok a₂ m₂ =>
      obtain ⟨⟨-, -, -, hcontinues⟩, hmerges, -⟩ := hsecond.ok he'
      exact absurd (hmerges phi (hperm.mem_iff.mp hphi)) (hfails (a₂.under a.routine)
        ⟨rfl, hcontinues.args, hcontinues.depth, hcontinues.size⟩)
  | ok a₁ m₁ =>
    obtain ⟨⟨rfl, hblock₁, hdone₁, hcontinues₁⟩, hmerges₁, hkept₁⟩ := hfirst.ok he
    cases he' : (a.under R).enter origin x m₁ with
    | error f' m₂ =>
      obtain ⟨-, phi, hphi, hfails⟩ := hsecond.error he'
      exact absurd (hmerges₁ phi (hperm.mem_iff.mpr hphi)) (hfails (a₁.under R)
        ⟨rfl, hcontinues₁.args, hcontinues₁.depth, hcontinues₁.size⟩)
    | ok a₂ m₂ =>
      obtain ⟨⟨rfl, hblock₂, hdone₂, hcontinues₂⟩, hmerges₂, hkept₂⟩ := hsecond.ok he'
      have hregisters : a₁.registers = a₂.registers := by
        refine Array.ext_getElem? fun r => ?_
        -- a register is set by one merge, to the same value in either order, or by none
        by_cases hr : r ∈ b.leadingPhis.map Prod.fst
        · obtain ⟨phi, hphi, rfl⟩ := List.mem_map.mp hr
          obtain ⟨v, hv, hword⟩ := hmerges₁ phi hphi
          obtain ⟨w, hw, hword'⟩ := hmerges₂ phi (hperm.mem_iff.mp hphi)
          obtain ⟨rfl, -⟩ := EStateM.Result.ok.inj (hv.symm.trans hw)
          exact hword.trans hword'.symm
        · exact (hkept₁ r hr).trans (hkept₂ r (mt (hperm.map _).mem_iff.mpr hr)).symm
      refine .inl ⟨a₁, rfl, congrArg (EStateM.Result.ok · m₂) ?_⟩
      cases a₁
      cases a₂
      rw [under, Activation.mk.injEq]
      exact ⟨hcontinues₂.routine, hcontinues₂.args.trans hcontinues₁.args.symm, hregisters.symm,
        hcontinues₂.depth.trans hcontinues₁.depth.symm, hblock₂.trans hblock₁.symm, hdone₂.trans hdone₁.symm⟩

end Activation

/-! ## 4. Runs -/

namespace Machine

variable {C C' : Code} {L : Limits} {a : Activation} {R : Routine}

section

variable {go go' : Activation → Run Word} (hgo : ∀ (a : Activation) (R : Routine), a.routine.Reorders R →
  a.routine.defined.Nodup → Akin (go a) (go' (a.under R)))

include hgo

theorem akin_entering (h : a.routine.Reorders R) (hdistinct : a.routine.defined.Nodup) (origin : Option Nat) (x : Nat) :
    Akin (a.enter origin x >>= go) ((a.under R).enter origin x >>= go') := by
  intro m
  rcases a.enter_reordered h hdistinct origin x m with ⟨a', he, he'⟩ | ⟨hflawed, hflawed'⟩
  · rw [bind_ok he, bind_ok he']
    have hroutine := ((a.meets_enter m origin x).ok he).2.routine
    exact hgo a' R (hroutine ▸ h) (hroutine ▸ hdistinct) m
  · exact .inr ⟨Akin.flawed_bind hflawed go, Akin.flawed_bind hflawed' go'⟩

theorem akin_afterTick (hinvoke : ∀ g args depth, Akin (invoke C L go g args depth) (invoke C' L go' g args depth))
    (h : a.routine.Reorders R) (hdistinct : a.routine.defined.Nodup) :
    Akin (afterTick C L go a) (afterTick C' L go' (a.under R)) := by
  have hperform : ∀ {call : Nat → List Word → Run Word} {i : Instruction} (b : Activation), i.isPhi →
      perform call b i = pure b := by
    rintro call (⟨target, op⟩ | _) b hphi
    · cases op with
      | phi => rfl
      | _ => cases hphi
    · cases hphi
  obtain ⟨hinstruction, hexit⟩ := a.reordered h
  rcases hinstruction with hsame | ⟨i, i', hi, hi', hphi, hphi'⟩
  · unfold afterTick
    rw [hsame, hexit]
    cases a.instruction? with
    | some i =>
      change Akin _ (perform (fun g args => invoke C' L go' g args (a.depth + 1)) (a.under R) i >>= fun b => go' b.advance)
      rw [Activation.under_perform (N := Eq) (fun g g' h => by rw [h]) a R (.refl fun _ _ _ _ => rfl), bind_map_left]
      refine (Akin.respects.perform _ a (fun g args => hinvoke g args _) i).bind fun m b m' hb => ?_
      obtain rfl | ⟨r, o, content, -, rfl⟩ := (a.meets_perform m i).ok hb <;> exact hgo _ R h hdistinct
    | none =>
      cases a.exit? with
      | none => exact .refl _
      | some e =>
        cases e with
        | jump target => exact akin_entering hgo h hdistinct _ _
        | branch c t f => exact (Akin.refl (a.word c)).bind fun _ _ _ _ => akin_entering hgo h hdistinct _ _
        | ret v => exact .refl _
  · -- merges were made on entry, so neither side does anything
    rw [Activation.afterTick_instruction hi, Activation.afterTick_instruction hi', hperform a hphi,
      hperform (a.under R) hphi', pure_bind, pure_bind]
    exact hgo a.advance R h hdistinct

theorem akin_invoke (hC : C.DefinesOnce) (h : C.Reorders C') (g : Nat) (args : List Word) (depth : Nat) :
    Akin (invoke C L go g args depth) (invoke C' L go' g args depth) := by
  unfold invoke
  rcases forall₂_array h g with ⟨hr, hr'⟩ | ⟨r, r', hr, hr', hroutine⟩ <;> rw [hr, hr']
  · exact .refl _
  · have hexternal : r'.isExternal = r.isExternal := by
      unfold Routine.isExternal Array.isEmpty
      rw [← Array.length_toList, ← Array.length_toList, hroutine.blocks.length_eq]
    have hstart : Activation.start r' args depth = (Activation.start r args depth).under r' := by
      unfold Activation.start Activation.under
      rw [hroutine.registers]
    dsimp only
    rw [hexternal, hroutine.name, hstart]
    split
    · exact .refl _
    · split
      · exact .refl _
      · exact (akin_entering hgo hroutine (hC r (Array.mem_of_getElem? hr)) none 0).releasing

end

theorem akin_execute (hC : C.DefinesOnce) (hreorders : C.Reorders C') (L : Limits) (n : Nat) (a : Activation)
    (R : Routine) (h : a.routine.Reorders R) (hdistinct : a.routine.defined.Nodup) :
    Akin (execute C L n a) (execute C' L n (a.under R)) := by
  induction n generalizing a R with
  | zero => exact .refl _
  | succ n ih =>
    rw [execute_succ, execute_succ]
    exact (Akin.refl _).bind fun _ _ _ _ => akin_afterTick ih (akin_invoke ih hC hreorders) h hdistinct

end Machine

namespace Code

theorem Reorders.find? {C C' : Code} (h : C.Reorders C') (name : String) : C'.find? name = C.find? name := by
  have hnames : C'.routines.map Routine.name = C.routines.map Routine.name := by
    rw [← Array.toList_inj, Array.toList_map, Array.toList_map]
    unfold Reorders at h
    generalize C.routines.toList = l, C'.routines.toList = l' at h
    induction h with
    | nil => rfl
    | cons hr _ ih => rw [List.map_cons, List.map_cons, hr.name, ih]
  have hfind : ∀ c : Code, c.find? name = (c.routines.map Routine.name).findIdx? (· == name) :=
    fun c => by rw [Array.findIdx?_map]; rfl
  rw [hfind, hfind, hnames]

/-- The merges at the start of blocks act at once. If every register is defined by one instruction, as in all code
that is built (`Session.Reachable.definesOnce`), then code with its merges in another order has the same runs, unless
both end with defects of the code, which need not be the same; and a block, also one that is entered from itself, is
entered with what its merges find in the registers before any of them is made, be these registers their own or not. -/
theorem run_reorders {C C' : Code} (hC : C.DefinesOnce) (hreorders : C.Reorders C') :
    (∀ input L, C'.run input L = C.run input L ∨
      ∃ d d', C.run input L = .error (.malformed d) ∧ C'.run input L = .error (.malformed d')) ∧
    ∀ (a a' : Activation) (b : Block) (origin : Option Nat) (x : Nat) (m m' : Machine), a.routine ∈ C.routines →
      a.routine.blocks[x]? = some b → a.enter origin x m = .ok a' m' → ∀ phi ∈ b.leadingPhis,
        ∃ v, a.merged origin phi.2 m = .ok v m ∧ a'.registers[phi.1]? = some (.word v) := by
  refine ⟨fun input L => ?_, fun a a' b origin x m m' hr hb henter => ?_⟩
  · unfold run
    rw [hreorders.find?]
    cases C.find? entryPoint with
    | none => exact .inl rfl
    | some main =>
      dsimp only
      rcases akin_invoke (L := L) (akin_execute hC hreorders L L.steps) hC hreorders main [] 0
        ⟨input, #[], #[], L.steps⟩ with hsame | ⟨⟨-, m, ⟨d, -, rfl⟩, hx⟩, -, m', ⟨d', -, rfl⟩, hy⟩
      · rw [hsame]
        exact .inl rfl
      · rw [hx, hy]
        exact .inr ⟨d, d', rfl, rfl⟩
  · exact ((Activation.meets_enter_merges hb (Routine.nodup_leadingPhis (hC _ hr) hb) origin m).ok henter).2.1

/-- Code with a loop that swaps two registers by merges, besides counting its rounds. -/
def swapping (phis : List Instruction) : Code := ⟨#[⟨"main", [],
  #[⟨"entry", #[.define 0 (.const 1), .define 1 (.const 2)], some (.jump ⟨0, 1⟩)⟩,
    ⟨"loop", (phis ++ [Instruction.define 5 (.arith .sub 4 0)]).toArray, some (.branch 5 ⟨0, 1⟩ ⟨0, 2⟩)⟩,
    ⟨"done", #[.define 6 (.arith .sub 2 3)], some (.ret 6)⟩], 7⟩]⟩

/-- Two merges that take each other's values, in code that a builder has built, and in the other order. -/
theorem run_reorders_swapping : let swap₂ : Operation := .phi [(0, ⟨0, 0⟩), (3, ⟨0, 1⟩)]
    let swap₃ : Operation := .phi [(1, ⟨0, 0⟩), (2, ⟨0, 1⟩)]
    let count : Operation := .phi [(1, ⟨0, 0⟩), (5, ⟨0, 1⟩)]
    let demands : List Demand := [.addRoutine "main" [], .addBlock 0 "entry", .addBlock 0 "loop", .addBlock 0 "done",
      .moveTo ⟨0, 0⟩, .define (.const 1), .define (.const 2), .terminate (.jump ⟨0, 1⟩), .moveTo ⟨0, 1⟩, .define swap₂,
      .define swap₃, .define count, .define (.arith .sub 4 0), .terminate (.branch 5 ⟨0, 1⟩ ⟨0, 2⟩), .moveTo ⟨0, 2⟩,
      .define (.arith .sub 2 3), .terminate (.ret 6)]
    ∃ s, Session.start.after? demands = some s ∧
      s.builder.code = swapping [.define 2 swap₂, .define 3 swap₃, .define 4 count] ∧
      s.builder.code.run [] ⟨30, 1⟩ = .ok ⟨1, []⟩ ∧
      (swapping [.define 4 count, .define 3 swap₃, .define 2 swap₂]).run [] ⟨30, 1⟩ = .ok ⟨1, []⟩ := by
  intro swap₂ swap₃ count demands
  obtain ⟨s, hs⟩ : ∃ s, Session.start.after? demands = some s := Option.isSome_iff_exists.mp (by decide +kernel)
  have hcode : (Session.start.after? demands).map (·.builder.code) =
      some (swapping [.define 2 swap₂, .define 3 swap₃, .define 4 count]) := by decide +kernel
  rw [hs, Option.map_some, Option.some.injEq] at hcode
  have hrun : s.builder.code.run [] ⟨30, 1⟩ = .ok ⟨1, []⟩ := by
    rw [hcode]
    decide +kernel
  refine ⟨s, hs, hcode, hrun, ?_⟩
  have hreorders : s.builder.code.Reorders (swapping [.define 4 count, .define 3 swap₃, .define 2 swap₂]) := by
    rw [hcode]
    have hsame : ∀ b : Block, b.Reorders b := fun b => ⟨rfl, [], [], _, rfl, rfl, .refl _, nofun⟩
    exact .cons ⟨rfl, rfl, .cons (hsame _) (.cons ⟨rfl, _, _, _, rfl, rfl, by decide, by decide⟩
      (.cons (hsame _) .nil))⟩ .nil
  rcases (run_reorders (Session.Reachable.start.after? hs).definesOnce hreorders).1 [] ⟨30, 1⟩ with hsame | ⟨d, -, hd, -⟩
  · exact hsame.trans hrun
  · rw [hrun] at hd
    cases hd

end Code

end Mila
