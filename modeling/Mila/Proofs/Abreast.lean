import Mila.Proofs.Mirroring
import Mila.Proofs.Namesakes

/-! # Compilations side by side

Of two compilations of the same tree the second one may know more subprograms than the first, which are announced but
not defined and so have empty routines. Then whatever succeeds in the first one succeeds in the second, and for each
routine of the first one the second has a namesake that does the same.
-/

namespace Mila

/-! ## 1. Code that grows on both sides -/

namespace Code

/-- Routines keep their names. -/
def Keeps (c c' : Code) : Prop := ∀ g name, c.name? g = some name → c'.name? g = some name

theorem Keeps.refl (c : Code) : c.Keeps c := fun _ _ h => h

variable {c : Code} {g : Nat} {f : Routine → Routine} {name : String}

theorem Keeps.trans {a b : Code} (h : a.Keeps b) (h' : b.Keeps c) : a.Keeps c := fun g name hg => h' g name (h g name hg)

theorem Namesakes.keeps {A A' B B' : Code} {g' : Nat} (h : A.Namesakes A' g g') (hA : A.Keeps B) (hA' : A'.Keeps B') :
    B.Namesakes B' g g' := by
  obtain ⟨name, hname, hname'⟩ := h
  exact ⟨name, hA g name hname, hA' g' name hname'⟩

theorem name?_modify (c : Code) (g : Nat) (hf : ∀ r, (f r).name = r.name) (i : Nat) :
    (c.modify g f).name? i = c.name? i := by
  unfold name?
  rw [routines_modify]
  split
  · rw [Option.map_map]
    exact congrArg (Option.map · _) (funext hf)
  · rfl

theorem name?_addRoutine (c : Code) (name : String) (params : List String) (i : Nat) :
    (c.addRoutine name params).2.name? i = if i = c.routines.size then some name else c.name? i := by
  unfold name?
  rw [routines_addRoutine]
  split <;> rfl

theorem lt_of_name? (h : c.name? g = some name) : g < c.routines.size := by
  obtain ⟨r, hr, -⟩ := Option.map_eq_some_iff.mp h
  exact (Array.getElem?_eq_some_iff.mp hr).1

theorem keeps_modify (c : Code) (g : Nat) (hf : ∀ r, (f r).name = r.name) :
    c.Keeps (c.modify g f) := fun i _ hi => (c.name?_modify g hf i).trans hi

theorem keeps_addRoutine (c : Code) (name : String) (params : List String) :
    c.Keeps (c.addRoutine name params).2 := by
  intro i other hi
  rw [name?_addRoutine, if_neg (Nat.ne_of_lt (lt_of_name? hi)), hi]

theorem keeps_openRoutine (c : Code) (g : Nat) (result : Option String) : c.Keeps (Emit.openRoutine c g result).2 :=
  (c.keeps_modify g (f := (·.addBlock "entry")) fun _ => rfl).trans
    (keeps_modify _ g (f := (·.addBlock "return")) fun _ => rfl)

theorem Distinct.modify (h : c.Distinct) (g : Nat) (hf : ∀ r, (f r).name = r.name) : (c.modify g f).Distinct := by
  intro i j name hi hj
  rw [name?_modify c g hf] at hi hj
  exact h i j name hi hj

theorem Distinct.addRoutine (h : c.Distinct) (hnew : ∀ i, c.name? i ≠ some name)
    (params : List String) : (c.addRoutine name params).2.Distinct := by
  intro i j other hi hj
  rw [name?_addRoutine] at hi hj
  split at hi <;> split at hj
  · next hi' hj' => rw [hi', hj']
  · rw [← Option.some.inj hi] at hj
    exact absurd hj (hnew j)
  · rw [← Option.some.inj hj] at hi
    exact absurd hi (hnew i)
  · exact h i j other hi hj

namespace Reproduces

variable {C C' : Code} (hC : C.Reproduces C')

include hC

/-- A change of a routine and of its namesake. -/
theorem modify {g g' : Nat} (hg : C.Namesakes C' g g') {f f' : Routine → Routine} (hf : ∀ r, (f r).name = r.name)
    (hf' : ∀ r, (f' r).name = r.name)
    (hmatch : ∀ r r', r.Matches (C.Namesakes C') r' → (f r).Matches (C.Namesakes C') (f' r')) :
    (C.modify g f).Reproduces (C'.modify g' f') where
  distinct := hC.distinct.modify g hf
  distinct' := hC.distinct'.modify g' hf'
  routine i r hr := by
    have hnames : (C.modify g f).Namesakes (C'.modify g' f') = C.Namesakes C' := by
      funext i i'
      unfold Namesakes
      rw [name?_modify C g hf, name?_modify C' g' hf']
    rw [hnames]
    rw [routines_modify] at hr
    split at hr
    · next hi =>
      subst hi
      obtain ⟨r₀, r₀', hr₀, hr₀', h₀⟩ := hC.namesakes hg
      rw [hr₀, Option.map_some] at hr
      rw [← Option.some.inj hr]
      exact ⟨g', f' r₀', by rw [routines_modify, if_pos rfl, hr₀', Option.map_some], hmatch r₀ r₀' h₀⟩
    · next hi =>
      obtain ⟨i', r', hr', h'⟩ := hC.routine i r hr
      refine ⟨i', r', ?_, h'⟩
      rw [routines_modify, if_neg, hr']
      -- the namesake of another routine is another routine
      rintro rfl
      obtain ⟨name, hname, hname'⟩ := hg
      rw [name?_of_routine hr', h'.name] at hname'
      exact hi (hC.distinct g i name hname ((name?_of_routine hr).trans hname'))

/-- A routine that only the second code gets. -/
theorem addSecond {name : String} (hnew : ∀ i, C'.name? i ≠ some name) (params : List String) :
    C.Reproduces (C'.addRoutine name params).2 where
  distinct := hC.distinct
  distinct' := hC.distinct'.addRoutine hnew params
  routine i r hr := by
    obtain ⟨i', r', hr', h'⟩ := hC.routine i r hr
    have hlt := (Array.getElem?_eq_some_iff.mp hr').1
    refine ⟨i', r', by rw [routines_addRoutine, if_neg (Nat.ne_of_lt hlt), hr'], h'.mono fun g g' hg => ?_⟩
    exact hg.keeps (.refl _) (C'.keeps_addRoutine name params)

/-- A routine that the first code gets, and the second one has already. -/
theorem addFirst {name : String} (hnew : ∀ i, C.name? i ≠ some name) (params : List String) {g' : Nat}
    {params' : List String} (hg' : C'.routines[g']? = some (.empty name params')) :
    (C.addRoutine name params).2.Reproduces C' where
  distinct := hC.distinct.addRoutine hnew params
  distinct' := hC.distinct'
  routine i r hr := by
    rw [routines_addRoutine] at hr
    split at hr
    · rw [← Option.some.inj hr]
      exact ⟨g', _, hg', .empty name params params'⟩
    · obtain ⟨i', r', hr', h'⟩ := hC.routine i r hr
      exact ⟨i', r', hr', h'.mono fun g g' hg => hg.keeps (C.keeps_addRoutine name params) (.refl _)⟩

end Reproduces

end Code

/-! ## 2. Compilations side by side -/

/-- The second compilation knows all that the first one knows, and maybe more subprograms, which are only announced.
Subprograms have as many parameters as `arity` says. -/
structure Abreast (arity : String → Nat) (s s' : Compilation Code) : Prop where
  code : s.code.Reproduces s'.code
  constant : ∀ name, s'.globals.constant? name = s.globals.constant? name
  known : ∀ name entry, s.globals.subprogram? name = some entry → ∃ entry', s'.globals.subprogram? name = some entry' ∧
    entry.arity = arity name ∧ entry'.arity = arity name ∧ entry'.isDefined = entry.isDefined ∧
    s.code.name? entry.routine = some name ∧ s'.code.name? entry'.routine = some name
  ahead : ∀ name entry', s.globals.subprogram? name = none → s'.globals.subprogram? name = some entry' →
    entry'.isDefined = false ∧ entry'.arity = arity name ∧
      ∃ params, s'.code.routines[entry'.routine]? = some (.empty name params)
  named : ∀ g name, s.code.name? g = some name → (s.globals.subprogram? name).isSome
  named' : ∀ g name, s'.code.name? g = some name → (s'.globals.subprogram? name).isSome

/-- They are at the same place, in routines of the same name with the numbers `g` and `g'`. -/
structure Beside (arity : String → Nat) (g g' : Nat) (s s' : Compilation Code) : Prop extends Abreast arity s s' where
  here : s.code.Namesakes s'.code g g'
  routine : s.frame.routine = g
  block : s.frame.block.routine = g
  returnBlock : s.frame.returnBlock.routine = g
  frame : s'.frame = s.frame.renumber fun _ => g'

variable {arity : String → Nat}

namespace Abreast

variable {s s' : Compilation Code} (h : Abreast arity s s')

include h

variable {name : String} {params : List String} {entry' : Subprogram}

theorem not_named (hnew : s.globals.subprogram? name = none) (i : Nat) : s.code.name? i ≠ some name := by
  intro hi
  have hsome := h.named i name hi
  rw [hnew] at hsome
  cases hsome

theorem not_named' (hnew : s'.globals.subprogram? name = none) (i : Nat) : s'.code.name? i ≠ some name := by
  intro hi
  have hsome := h.named' i name hi
  rw [hnew] at hsome
  cases hsome

theorem emit {g g' : Nat} (hg : s.code.Namesakes s'.code g g') {f f' : Routine → Routine} (hf : ∀ r, (f r).name = r.name)
    (hf' : ∀ r, (f' r).name = r.name)
    (hmatch : ∀ r r', r.Matches (s.code.Namesakes s'.code) r' → (f r).Matches (s.code.Namesakes s'.code) (f' r')) :
    Abreast arity { s with code := s.code.modify g f } { s' with code := s'.code.modify g' f' } where
  code := h.code.modify hg hf hf' hmatch
  constant := h.constant
  known name entry hentry := by
    obtain ⟨entry', hentry', ha, ha', hd, hn, hn'⟩ := h.known name entry hentry
    exact ⟨entry', hentry', ha, ha', hd, (Code.name?_modify _ _ hf _).trans hn, (Code.name?_modify _ _ hf' _).trans hn'⟩
  ahead name entry' hnew hentry' := by
    obtain ⟨hd, ha, params, hr⟩ := h.ahead name entry' hnew hentry'
    refine ⟨hd, ha, params, ?_⟩
    dsimp only
    rw [Code.routines_modify_of_ne _ _ ?_, hr]
    -- the first compilation has no routine of that name
    rintro rfl
    obtain ⟨other, hother, hother'⟩ := hg
    rw [Code.name?_of_routine hr] at hother'
    exact h.not_named hnew g (hother.trans hother'.symm)
  named i name hi := h.named i name ((Code.name?_modify _ _ hf i).symm.trans hi)
  named' i name hi := h.named' i name ((Code.name?_modify _ _ hf' i).symm.trans hi)

/-- The second compilation learns of a subprogram that it does not know. -/
theorem foretell (hnew : s'.globals.subprogram? name = none) (harity : params.length = arity name) :
    Abreast arity s { s' with
      code := (s'.code.addRoutine name params).2
      globals := s'.globals.register name ⟨s'.code.routines.size, params.length, false⟩ } where
  code := h.code.addSecond (h.not_named' hnew) params
  constant := h.constant
  known other entry hentry := by
    obtain ⟨entry', hentry', ha, ha', hd, hn, hn'⟩ := h.known other entry hentry
    refine ⟨entry', ?_, ha, ha', hd, hn, Code.keeps_addRoutine _ _ _ _ _ hn'⟩
    rw [Globals.subprogram?_register, if_neg, hentry']
    -- what is known is not what is new
    rintro rfl
    rw [hnew] at hentry'
    cases hentry'
  ahead other entry' hunknown hentry' := by
    rw [Globals.subprogram?_register] at hentry'
    dsimp only
    rw [Code.routines_addRoutine]
    split at hentry'
    · next heq =>
      rw [heq, ← Option.some.inj hentry']
      exact ⟨rfl, harity, params, if_pos rfl⟩
    · obtain ⟨hd, ha, params', hr⟩ := h.ahead other entry' hunknown hentry'
      -- older routines keep their numbers
      have hlt := (Array.getElem?_eq_some_iff.mp hr).1
      exact ⟨hd, ha, params', by rw [if_neg (Nat.ne_of_lt hlt), hr]⟩
  named := h.named
  named' i other hi := by
    rw [Globals.subprogram?_register]
    rw [Code.name?_addRoutine] at hi
    split at hi
    · rw [if_pos (Option.some.inj hi).symm]
      rfl
    · split
      · rfl
      · exact h.named' i other hi

/-- The first compilation learns of a subprogram that the second one knows. -/
theorem catchUp (hnew : s.globals.subprogram? name = none)
    (hentry' : s'.globals.subprogram? name = some entry') (harity : params.length = arity name) :
    Abreast arity { s with
      code := (s.code.addRoutine name params).2
      globals := s.globals.register name ⟨s.code.routines.size, params.length, false⟩ } s' where
  code := by
    obtain ⟨-, -, params', hr⟩ := h.ahead name entry' hnew hentry'
    exact h.code.addFirst (h.not_named hnew) params hr
  constant := h.constant
  known other entry hentry := by
    rw [Globals.subprogram?_register] at hentry
    dsimp only
    rw [Code.name?_addRoutine]
    split at hentry
    · next heq =>
      -- the second compilation has only announced it so far
      obtain ⟨hd, ha, params', hr⟩ := h.ahead name entry' hnew hentry'
      rw [heq, ← Option.some.inj hentry]
      exact ⟨entry', hentry', harity, ha, hd, if_pos rfl, Code.name?_of_routine hr⟩
    · obtain ⟨entry₁, hentry₁, ha, ha', hd, hn, hn'⟩ := h.known other entry hentry
      exact ⟨entry₁, hentry₁, ha, ha', hd, by rw [if_neg (Nat.ne_of_lt (Code.lt_of_name? hn)), hn], hn'⟩
  ahead other entry₁ hunknown hentry₁ := by
    rw [Globals.subprogram?_register] at hunknown
    -- the subprogram itself is no longer ahead
    split at hunknown
    · cases hunknown
    · exact h.ahead other entry₁ hunknown hentry₁
  named i other hi := by
    rw [Globals.subprogram?_register]
    rw [Code.name?_addRoutine] at hi
    split at hi
    · rw [if_pos (Option.some.inj hi).symm]
      rfl
    · split
      · rfl
      · exact h.named i other hi
  named' := h.named'

/-- Both compilations know a subprogram, and come to its definition. -/
theorem mark {entry : Subprogram} (hentry : s.globals.subprogram? name = some entry)
    (hentry' : s'.globals.subprogram? name = some entry') {count : Nat} (hcount : count = arity name) :
    Abreast arity { s with globals := s.globals.register name ⟨entry.routine, count, true⟩ }
      { s' with globals := s'.globals.register name ⟨entry'.routine, count, true⟩ } where
  code := h.code
  constant := h.constant
  known other entry₁ hentry₁ := by
    rw [Globals.subprogram?_register] at hentry₁
    rw [Globals.subprogram?_register]
    split at hentry₁
    · next heq =>
      -- its routines were namesakes before
      obtain ⟨entry₂, hentry₂, -, -, -, hn, hn'⟩ := h.known name entry hentry
      obtain rfl := Option.some.inj (hentry'.symm.trans hentry₂)
      rw [heq, ← Option.some.inj hentry₁]
      exact ⟨_, if_pos rfl, hcount, hcount, rfl, hn, hn'⟩
    · next hne =>
      rw [if_neg hne]
      exact h.known other entry₁ hentry₁
  ahead other entry₁ hunknown hentry₁ := by
    rw [Globals.subprogram?_register] at hunknown hentry₁
    split at hunknown
    · cases hunknown
    · next hne =>
      rw [if_neg hne] at hentry₁
      exact h.ahead other entry₁ hunknown hentry₁
  named i other hi := by
    rw [Globals.subprogram?_register]
    split
    · rfl
    · exact h.named i other hi
  named' i other hi := by
    rw [Globals.subprogram?_register]
    split
    · rfl
    · exact h.named' i other hi

/-- Only what is found under a name counts. -/
theorem congr (t t' : Compilation Code) (hcode : t.code = s.code) (hcode' : t'.code = s'.code)
    (hconstant : ∀ name, t.globals.constant? name = s.globals.constant? name)
    (hconstant' : ∀ name, t'.globals.constant? name = s'.globals.constant? name)
    (hsub : ∀ name, t.globals.subprogram? name = s.globals.subprogram? name)
    (hsub' : ∀ name, t'.globals.subprogram? name = s'.globals.subprogram? name) : Abreast arity t t' := by
  constructor
  · rw [hcode, hcode']
    exact h.code
  · intro name
    rw [hconstant, hconstant']
    exact h.constant name
  · intro name entry hentry
    rw [hsub] at hentry
    rw [hsub', hcode, hcode']
    exact h.known name entry hentry
  · intro name entry' hnew hentry'
    rw [hsub] at hnew
    rw [hsub'] at hentry'
    rw [hcode']
    exact h.ahead name entry' hnew hentry'
  · intro i name hi
    rw [hcode] at hi
    rw [hsub]
    exact h.named i name hi
  · intro i name hi
    rw [hcode'] at hi
    rw [hsub']
    exact h.named' i name hi

end Abreast

/-! ## 3. Steps on both sides -/

theorem Emit.bind_of_ok {κ α β : Type} {m : Emit κ α} {k : α → Emit κ β} {s t : Compilation κ} {a : α}
    (h : m s = .ok a t) : (m >>= k) s = k a t := by
  change EStateM.bind m k s = _
  unfold EStateM.bind
  rw [h]

theorem Emit.get_bind {κ β : Type} (k : Compilation κ → Emit κ β) (s : Compilation κ) : (get >>= k) s = k s s := rfl

/-- If the first step succeeds, then the second one does so beside it, and yields the same. -/
def Trails {α : Type} (arity : String → Nat) (g g' : Nat) (m m' : Emit Code α) : Prop :=
  ∀ s s' a t, Beside arity g g' s s' → m s = .ok a t →
    ∃ t', m' s' = .ok a t' ∧ Beside arity g g' t t' ∧ s.code.Keeps t.code ∧ s'.code.Keeps t'.code

namespace Beside

variable {g g' : Nat} {s s' : Compilation Code} (h : Beside arity g g' s s')

include h

theorem place : s.frame.block = ⟨g, s.frame.block.block⟩ := by rw [← h.block]

theorem place' : s'.frame.block = ⟨g', s.frame.block.block⟩ := by
  rw [h.frame]
  rfl

theorem routine' : s'.frame.routine = g' := by
  rw [h.frame]
  rfl

theorem emit (f f' : Routine → Routine) (hf : ∀ r, (f r).name = r.name) (hf' : ∀ r, (f' r).name = r.name)
    (hmatch : ∀ r r', r.Matches (s.code.Namesakes s'.code) r' → (f r).Matches (s.code.Namesakes s'.code) (f' r')) :
    Beside arity g g' { s with code := s.code.modify g f } { s' with code := s'.code.modify g' f' } where
  toAbreast := h.toAbreast.emit h.here hf hf' hmatch
  here := h.here.keeps (s.code.keeps_modify g hf) (s'.code.keeps_modify g' hf')
  routine := h.routine
  block := h.block
  returnBlock := h.returnBlock
  frame := h.frame

theorem reframe {f : Frame} (hroutine : f.routine = g) (hblock : f.block.routine = g)
    (hreturn : f.returnBlock.routine = g) :
    Beside arity g g' { s with frame := f } { s' with frame := f.renumber fun _ => g' } where
  toAbreast := h.toAbreast.congr _ _ rfl rfl (fun _ => rfl) (fun _ => rfl) (fun _ => rfl) fun _ => rfl
  here := h.here
  routine := hroutine
  block := hblock
  returnBlock := hreturn
  frame := rfl

theorem registersOf : s'.code.registersOf g' = s.code.registersOf g := by
  obtain ⟨r, r', hr, hr', hmatch⟩ := h.code.namesakes h.here
  rw [Code.registersOf_of_routine hr, Code.registersOf_of_routine hr', hmatch.registers]

theorem blocksOf : s'.code.blocksOf g' = s.code.blocksOf g := by
  obtain ⟨r, r', hr, hr', hmatch⟩ := h.code.namesakes h.here
  rw [Code.blocksOf_of_routine hr, Code.blocksOf_of_routine hr', hmatch.size]

end Beside

namespace Trails

variable {g g' : Nat} {α β : Type}

theorem pure (a : α) : Trails arity g g' (Pure.pure a) (Pure.pure a) := by
  intro s s' b t h hrun
  cases hrun
  exact ⟨s', rfl, h, .refl _, .refl _⟩

/-- What fails need not be followed. -/
theorem throw (e : ScopeError) (m : Emit Code α) : Trails arity g g' (throw e) m := by
  intro s s' a t h hrun
  cases hrun

theorem bind {m m' : Emit Code α} {k k' : α → Emit Code β} (hm : Trails arity g g' m m')
    (hk : ∀ a, Trails arity g g' (k a) (k' a)) : Trails arity g g' (m >>= k) (m' >>= k') := by
  intro s s' b u h hrun
  obtain ⟨a, t, hfirst, hsecond⟩ := Emit.bind_ok hrun
  obtain ⟨t', hfirst', ht, hkeeps, hkeeps'⟩ := hm s s' a t h hfirst
  obtain ⟨u', hsecond', hu, hkeeps₂, hkeeps₂'⟩ := hk a t t' b u ht hsecond
  exact ⟨u', (Emit.bind_of_ok hfirst').trans hsecond', hu, hkeeps.trans hkeeps₂, hkeeps'.trans hkeeps₂'⟩

theorem get {k k' : Compilation Code → Emit Code β}
    (hk : ∀ s s', Beside arity g g' s s' → Trails arity g g' (k s) (k' s')) :
    Trails arity g g' (get >>= k) (get >>= k') := fun s s' b t h hrun => hk s s' h s s' b t h hrun

/-- Both change their frames, and yield the same. -/
theorem reframing (v v' : Frame → α) (f f' : Frame → Frame) (hv : ∀ x, v' (x.renumber fun _ => g') = v x)
    (hf : ∀ x, f' (x.renumber fun _ => g') = (f x).renumber fun _ => g')
    (hroutine : ∀ x, x.routine = g → (f x).routine = g) (hblock : ∀ x, x.block.routine = g → (f x).block.routine = g)
    (hreturn : ∀ x, x.returnBlock.routine = g → (f x).returnBlock.routine = g) :
    Trails arity g g' (modifyGet fun s => (v s.frame, { s with frame := f s.frame }))
      (modifyGet fun s => (v' s.frame, { s with frame := f' s.frame })) := by
  intro s s' a t h hrun
  cases hrun
  have hchanged := h.reframe (hroutine _ h.routine) (hblock _ h.block) (hreturn _ h.returnBlock)
  refine ⟨_, ?_, hchanged, .refl _, .refl _⟩
  change EStateM.Result.ok (v' s'.frame) { s' with frame := f' s'.frame } = _
  rw [h.frame, hv, hf]

theorem update (f f' : Frame → Frame) (hf : ∀ x, f' (x.renumber fun _ => g') = (f x).renumber fun _ => g')
    (hroutine : ∀ x, x.routine = g → (f x).routine = g) (hblock : ∀ x, x.block.routine = g → (f x).block.routine = g)
    (hreturn : ∀ x, x.returnBlock.routine = g → (f x).returnBlock.routine = g) :
    Trails arity g g' (modify fun s => { s with frame := f s.frame }) (modify fun s => { s with frame := f' s.frame }) :=
  reframing (fun _ => PUnit.unit) (fun _ => PUnit.unit) f f' (fun _ => rfl) hf hroutine hblock hreturn

variable {s s' t : Compilation Code} {op op' : Operation} {k k' : BlockRef → Emit Code β}

/-- Both change the routines at hand. -/
theorem emitted (hs : Beside arity g g' s s') (v : α) (f f' : Routine → Routine)
    (hf : ∀ r, (f r).name = r.name) (hf' : ∀ r, (f' r).name = r.name)
    (hmatch : ∀ r r', r.Matches (s.code.Namesakes s'.code) r' → (f r).Matches (s.code.Namesakes s'.code) (f' r'))
    {c c' : Compilation Code → α × Compilation Code} {a : α}
    (hc : c s = (v, { s with code := s.code.modify g f })) (hc' : c' s' = (v, { s' with code := s'.code.modify g' f' }))
    (hrun : (modifyGet c : Emit Code α) s = .ok a t) :
    ∃ t', (modifyGet c' : Emit Code α) s' = .ok a t' ∧ Beside arity g g' t t' ∧ s.code.Keeps t.code ∧
      s'.code.Keeps t'.code := by
  change EStateM.modifyGet c s = _ at hrun
  unfold EStateM.modifyGet at hrun
  rw [hc] at hrun
  cases hrun
  refine ⟨{ s' with code := s'.code.modify g' f' }, ?_, hs.emit f f' hf hf' hmatch, s.code.keeps_modify g hf,
    s'.code.keeps_modify g' hf'⟩
  change EStateM.modifyGet c' s' = _
  unfold EStateM.modifyGet
  rw [hc']

theorem defined {r : Register} (hs : Beside arity g g' s s')
    (hop : op.Matches (s.code.Namesakes s'.code) op') (hrun : Emit.define op s = .ok r t) :
    ∃ t', Emit.define op' s' = .ok r t' ∧ Beside arity g g' t t' ∧ s.code.Keeps t.code ∧ s'.code.Keeps t'.code := by
  refine emitted hs (s.code.registersOf g) (·.define s.frame.block.block op) (·.define s.frame.block.block op') (fun _ => rfl) (fun _ => rfl) (fun r r' hr => hr.define _ hop) ?_ ?_ hrun
  · change (s.code.registersOf s.frame.block.routine,
      { s with code := s.code.modify s.frame.block.routine (·.define s.frame.block.block op) }) = _
    rw [hs.block]
  · change (s'.code.registersOf s'.frame.block.routine,
      { s' with code := s'.code.modify s'.frame.block.routine (·.define s'.frame.block.block op') }) = _
    rw [hs.place', hs.registersOf]

theorem define (h : ∀ N, op.Matches N op') :
    Trails arity g g' (Emit.define op) (Emit.define op') := fun _ _ _ _ hs hrun => defined hs (h _) hrun

theorem store (v a : Register) : Trails arity g g' (Emit.store v a) (Emit.store v a) := by
  intro s s' u t hs hrun
  refine emitted hs ⟨⟩ (·.push s.frame.block.block (.store v a)) (·.push s.frame.block.block (.store v a))
    (fun _ => rfl) (fun _ => rfl) (fun r r' hr => hr.push _ rfl) ?_ ?_ hrun
  · rw [← hs.block]
    rfl
  · dsimp only
    rw [hs.place']
    rfl

theorem terminate {e e' : Exit} (h : e.Matches e') : Trails arity g g' (Emit.terminate e) (Emit.terminate e') := by
  intro s s' u t hs hrun
  refine emitted hs ⟨⟩ (·.terminate s.frame.block.block e) (·.terminate s.frame.block.block e')
    (fun _ => rfl) (fun _ => rfl) (fun r r' hr => hr.terminate _ h) ?_ ?_ hrun
  · rw [← hs.block]
    rfl
  · dsimp only
    rw [hs.place']
    rfl

/-- A block that both get has the same number in both routines. -/
theorem bindBlock {label : String} (hk : ∀ x, Trails arity g g' (k ⟨g, x⟩) (k' ⟨g', x⟩)) :
    Trails arity g g' (Emit.addBlock label >>= k) (Emit.addBlock label >>= k') := by
  have hadd : Trails arity g g' (modifyGet fun s => (s.code.blocksOf g, { s with code := s.code.modify g (·.addBlock label) }))
      (modifyGet fun s => (s.code.blocksOf g', { s with code := s.code.modify g' (·.addBlock label) })) := by
    intro s s' x t hs hrun
    exact emitted hs (s.code.blocksOf g) (·.addBlock label) (·.addBlock label) (fun _ => rfl) (fun _ => rfl)
      (fun r r' hr => hr.addBlock label) rfl (by rw [hs.blocksOf]) hrun
  intro s s' b u h hrun
  have hrun' : (modifyGet (fun s => (s.code.blocksOf g, { s with code := s.code.modify g (·.addBlock label) })) >>=
      fun x => k ⟨g, x⟩ : Emit Code β) s = .ok b u := by
    rw [← hrun, ← h.routine]
    rfl
  obtain ⟨u', hsecond, hu⟩ := hadd.bind hk s s' b u h hrun'
  refine ⟨u', ?_, hu⟩
  rw [← hsecond, ← h.routine']
  rfl

/-- The block at hand has the same number in both routines. -/
theorem bindHere (hk : ∀ x, Trails arity g g' (k ⟨g, x⟩) (k' ⟨g', x⟩)) :
    Trails arity g g' (Emit.currentBlock >>= k) (Emit.currentBlock >>= k') := by
  intro s s' b u h hrun
  have hrun' : k s.frame.block s = .ok b u := hrun
  rw [h.place] at hrun'
  obtain ⟨u', hsecond, hu⟩ := hk _ s s' b u h hrun'
  refine ⟨u', ?_, hu⟩
  rw [← h.place'] at hsecond
  exact hsecond

theorem moveTo (x : Nat) : Trails arity g g' (Emit.moveTo ⟨g, x⟩) (Emit.moveTo ⟨g', x⟩) :=
  update ({ · with block := ⟨g, x⟩ }) ({ · with block := ⟨g', x⟩ }) (fun _ => rfl) (fun _ h => h)
    (fun _ _ => rfl) fun _ h => h

/-! ## 4. Names -/

theorem resolve (name : String) : Trails arity g g' (Emit.resolve name) (Emit.resolve name) :=
  get fun s s' h => by
    rw [h.frame, h.constant]
    dsimp only [Frame.renumber]
    cases s.frame.locals.get? name with
    | some b => exact pure _
    | none =>
      cases s.globals.constant? name with
      | some w => exact pure _
      | none => exact throw _ _

theorem declareConstant (name : String) (w : Word) :
    Trails arity g g' (Emit.declareConstant name w) (Emit.declareConstant name w) := by
  intro s s' a t h hrun
  replace hrun := Emit.get_ok hrun
  unfold Globals.defineConstant? at hrun
  cases hfound : s.globals.constant? name with
  | some _ =>
    rw [hfound] at hrun
    cases hrun
  | none =>
    rw [hfound] at hrun
    cases hrun
    refine ⟨{ s' with globals := { s'.globals with constants := s'.globals.constants.insert name w } }, ?_,
      { h with constant := fun other => ?_ }, .refl _, .refl _⟩
    · rw [Emit.declareConstant, Emit.get_bind, Globals.defineConstant?, h.constant, hfound]
      rfl
    · refine (NameTable.getElem?_insert _ _ _ _).trans ?_
      refine Eq.trans ?_ (NameTable.getElem?_insert _ _ _ _).symm
      rw [show s'.globals.constants[other]? = s.globals.constants[other]? from h.constant other]

theorem declare (kind : SymbolKind) (name : String) (b : Binding) :
    Trails arity g g' (Emit.declare kind name b) (Emit.declare kind name b) :=
  get fun s s' hs => by
    rw [hs.frame]
    dsimp only [Frame.renumber]
    cases s.frame.locals.declare? name b with
    | none => exact throw _ _
    | some locals =>
      exact update ({ · with locals }) ({ · with locals }) (fun _ => rfl) (fun _ h => h) (fun _ h => h)
        fun _ h => h

/-! ## 5. Expressions and statements -/

theorem holding {body body' : Emit Code (Option Register)} (name : String) (b : Binding) (hbody : Trails arity g g' body body') :
    Trails arity g g' (Emit.holding name b body) (Emit.holding name b body') := by
  have hshadow : Trails arity g g'
      (modifyGet fun s => ((s.frame.locals.shadow name b).1,
        { s with frame := { s.frame with locals := (s.frame.locals.shadow name b).2 } }))
      (modifyGet fun s => ((s.frame.locals.shadow name b).1,
        { s with frame := { s.frame with locals := (s.frame.locals.shadow name b).2 } })) :=
    reframing (fun x => (x.locals.shadow name b).1) (fun x => (x.locals.shadow name b).1)
      (fun x => { x with locals := (x.locals.shadow name b).2 })
      (fun x => { x with locals := (x.locals.shadow name b).2 })
      (fun _ => rfl) (fun _ => rfl) (fun _ h => h) (fun _ h => h) fun _ h => h
  exact bind hshadow fun saved => bind hbody fun _ => update
    (fun x => { x with locals := x.locals.restore name saved })
    (fun x => { x with locals := x.locals.restore name saved })
    (fun _ => rfl) (fun _ h => h) (fun _ h => h) fun _ h => h

/-- What the first compilation calls, the second one knows as well. -/
theorem call (callee : String) (count : Nat) {args args' : Emit Code (List Register)} (h : Trails arity g g' args args') :
    Trails arity g g' (Emit.call callee count args) (Emit.call callee count args') := by
  intro s s' a t hs hrun
  replace hrun := Emit.get_ok hrun
  cases hentry : s.globals.subprogram? callee with
  | none =>
    rw [hentry] at hrun
    cases hrun
  | some entry =>
    -- entries under one name have namesakes for routines, with as many parameters
    obtain ⟨entry', hentry', ha, ha', -, hn, hn'⟩ := hs.known callee entry hentry
    rw [hentry] at hrun
    dsimp only at hrun
    split at hrun
    · cases hrun
    · next hcount =>
      obtain ⟨rs, s₁, hrun₁, hrun₂⟩ := Emit.bind_ok hrun
      obtain ⟨s₁', hrun₁', hs₁, hkeeps, hkeeps'⟩ := h s s' rs s₁ hs hrun₁
      have hop : Operation.Matches (s₁.code.Namesakes s₁'.code) (.call entry.routine rs) (.call entry'.routine rs) :=
        ⟨entry'.routine, rfl, callee, hkeeps _ _ hn, hkeeps' _ _ hn'⟩
      obtain ⟨t', hrun₂', ht, hkeeps₂, hkeeps₂'⟩ := defined hs₁ hop hrun₂
      refine ⟨t', ?_, ht, hkeeps.trans hkeeps₂, hkeeps'.trans hkeeps₂'⟩
      rw [← hrun₂', ← Emit.bind_of_ok (k := fun rs => Emit.define (.call entry'.routine rs)) hrun₁']
      rw [Emit.call, Emit.get_bind, hentry']
      dsimp only
      rw [ha', ← ha, if_neg hcount]

theorem resultValue : Trails arity g g' Emit.resultValue Emit.resultValue :=
  get fun s s' hs => by
    rw [hs.frame]
    dsimp only [Frame.renumber]
    cases s.frame.resultName.bind s.frame.locals.get? with
    | some b => exact define fun _ => rfl
    | none => exact define fun _ => rfl

theorem leave (v : Register) : Trails arity g g' (Emit.leave v) (Emit.leave v) :=
  get fun s s' hs => by
    have hcarry : Trails arity g g'
        (modify fun t => { t with frame := { t.frame with returns := t.frame.returns ++ [(v, t.frame.block)] } })
        (modify fun t => { t with frame := { t.frame with returns := t.frame.returns ++ [(v, t.frame.block)] } }) := by
      refine update (fun x => { x with returns := x.returns ++ [(v, x.block)] })
        (fun x => { x with returns := x.returns ++ [(v, x.block)] }) (fun x => ?_) (fun _ h => h) (fun _ h => h)
        fun _ h => h
      simp only [Frame.renumber, renumberSources, List.map_append, List.map_cons, List.map_nil]
    rw [hs.frame]
    exact bind hcarry fun _ => terminate ⟨_, rfl, rfl⟩

theorem finish (v : Register) : Trails arity g g' (Emit.finish v) (Emit.finish v) :=
  bind (leave v) fun _ => get fun s s' hs => by
    have hreturn : s.frame.returnBlock = ⟨g, s.frame.returnBlock.block⟩ := by rw [← hs.returnBlock]
    rw [hs.frame]
    dsimp only [Frame.renumber]
    rw [hreturn]
    refine bind (moveTo _) fun _ => ?_
    have hphi : Trails arity g g' (Emit.define (.phi s.frame.returns) >>= fun value => Emit.terminate (.ret value))
        (Emit.define (.phi (renumberSources (fun _ => g') s.frame.returns)) >>= fun value =>
          Emit.terminate (.ret value)) :=
      bind (define fun _ => ⟨_, rfl, by simp [sourceBlocks, renumberSources, BlockRef.renumber]⟩) fun _ =>
        terminate rfl
    rcases hreturns : s.frame.returns with _ | ⟨⟨_, _⟩, _ | ⟨_, _⟩⟩
    · rw [hreturns] at hphi
      exact hphi
    · exact terminate rfl
    · rw [hreturns] at hphi
      exact hphi

end Trails

/-! ## 6. Subprograms -/

/-- The definition of a subprogram that was announced. -/
theorem Emit.claimRoutine_of_known {s : Compilation Code} {p : Prototype} {entry : Subprogram}
    (hentry : s.globals.subprogram? p.name = some entry) (hundefined : entry.isDefined = false)
    (harity : entry.arity = p.params.length) : Emit.claimRoutine p s = .ok entry.routine s := by
  rw [Emit.claimRoutine, Emit.get_bind, hentry]
  dsimp only
  rw [hundefined, if_neg Bool.false_ne_true, if_neg (not_not.mpr harity)]
  rfl

theorem Globals.subprogram?_register_register (x : Globals) (name other : String) (entry entry' : Subprogram) :
    ((x.register name entry).register name entry').subprogram? other = (x.register name entry').subprogram? other := by
  simp only [subprogram?_register]
  split <;> rfl

namespace Beside

variable {g g' : Nat} {s s' : Compilation Code} (h : Beside arity g g' s s')

include h

variable {t : Compilation Code} {p : Prototype} {r r' : Nat}

theorem learn {t' : Compilation Code} (ht : Abreast arity t t') (hframe : t.frame = s.frame)
    (hframe' : t'.frame = s'.frame) (hkeeps : s.code.Keeps t.code) (hkeeps' : s'.code.Keeps t'.code) :
    Beside arity g g' t t' where
  toAbreast := ht
  here := h.here.keeps hkeeps hkeeps'
  routine := by rw [hframe, h.routine]
  block := by rw [hframe, h.block]
  returnBlock := by rw [hframe, h.returnBlock]
  frame := by rw [hframe, hframe', h.frame]

/-- All that the second compilation knows has as many parameters as it should. -/
theorem arity_eq {name : String} {entry' : Subprogram} (hentry' : s'.globals.subprogram? name = some entry') :
    entry'.arity = arity name := by
  cases hentry : s.globals.subprogram? name with
  | none => exact (h.ahead name entry' hentry hentry').2.1
  | some entry =>
    obtain ⟨entry₁, hentry₁, -, ha, -⟩ := h.known name entry hentry
    obtain rfl := Option.some.inj (hentry'.symm.trans hentry₁)
    exact ha

/-- Only the second compilation comes to a `forward` declaration. -/
theorem forward (hp : p.params.length = arity p.name) :
    ∃ t' entry', Emit.forward p s' = .ok () t' ∧ t'.globals.subprogram? p.name = some entry' ∧
      Beside arity g g' s t' ∧ s'.code.Keeps t'.code := by
  cases hentry' : s'.globals.subprogram? p.name with
  | some entry' =>
    refine ⟨s', entry', ?_, hentry', h, .refl _⟩
    rw [Emit.forward, Emit.get_bind, hentry']
    dsimp only
    rw [h.arity_eq hentry', if_neg (not_not.mpr hp.symm)]
    rfl
  | none =>
    refine ⟨{ s' with
      code := (s'.code.addRoutine p.name p.params).2
      globals := s'.globals.register p.name ⟨s'.code.routines.size, p.params.length, false⟩ },
      ⟨s'.code.routines.size, p.params.length, false⟩, ?_, ?_, ?_, s'.code.keeps_addRoutine _ _⟩
    · rw [Emit.forward, Emit.get_bind, hentry']
      rfl
    · rw [Globals.subprogram?_register, if_pos rfl]
    · exact h.learn (h.foretell hentry' hp) rfl rfl (.refl _) (s'.code.keeps_addRoutine _ _)

/-- Both come to the definition of a subprogram. -/
theorem claim (hp : p.params.length = arity p.name) (hrun : Emit.claimRoutine p s = .ok r t) :
    ∃ r' t', Emit.claimRoutine p s' = .ok r' t' ∧ t.code.Namesakes t'.code r r' ∧ s.code.Keeps t.code ∧
      s'.code.Keeps t'.code ∧
      Beside arity g g' { t with globals := t.globals.register p.name ⟨r, p.params.length, true⟩ }
        { t' with globals := t'.globals.register p.name ⟨r', p.params.length, true⟩ } := by
  replace hrun := Emit.get_ok hrun
  cases hentry : s.globals.subprogram? p.name with
  | some entry =>
    -- the subprogram was announced on both sides
    rw [hentry] at hrun
    dsimp only at hrun
    split at hrun
    · cases hrun
    · next hundefined =>
      split at hrun
      · cases hrun
      · cases hrun
        obtain ⟨entry', hentry', -, ha', hd, hn, hn'⟩ := h.known p.name entry hentry
        refine ⟨entry'.routine, s', Emit.claimRoutine_of_known hentry' ?_ (ha'.trans hp.symm), ⟨p.name, hn, hn'⟩, .refl _,
          .refl _, ?_⟩
        · rw [hd]
          exact Bool.eq_false_of_not_eq_true hundefined
        · exact h.learn (h.mark hentry hentry' hp) rfl rfl (.refl _) (.refl _)
  | none =>
    rw [hentry] at hrun
    cases hrun
    cases hentry' : s'.globals.subprogram? p.name with
    | none =>
      -- neither side knew it: as if the second one heard of it first
      have hfirst := (h.foretell hentry' hp).catchUp hentry
        (by rw [Globals.subprogram?_register, if_pos rfl]) hp
      have hboth := (hfirst.mark (by rw [Globals.subprogram?_register, if_pos rfl])
        (by rw [Globals.subprogram?_register, if_pos rfl]) hp).congr
        { s with
          code := (s.code.addRoutine p.name p.params).2
          globals := s.globals.register p.name ⟨s.code.routines.size, p.params.length, true⟩ }
        { s' with
          code := (s'.code.addRoutine p.name p.params).2
          globals := s'.globals.register p.name ⟨s'.code.routines.size, p.params.length, true⟩ }
        rfl rfl (fun _ => rfl) (fun _ => rfl) (fun _ => (Globals.subprogram?_register_register _ _ _ _ _).symm)
        fun _ => (Globals.subprogram?_register_register _ _ _ _ _).symm
      refine ⟨s'.code.routines.size, { s' with code := (s'.code.addRoutine p.name p.params).2 }, ?_,
        ⟨p.name, ?_, ?_⟩, s.code.keeps_addRoutine _ _, s'.code.keeps_addRoutine _ _,
        h.learn hboth rfl rfl (s.code.keeps_addRoutine _ _) (s'.code.keeps_addRoutine _ _)⟩
      · rw [Emit.claimRoutine, Emit.get_bind, hentry']
        rfl
      · exact (s.code.name?_addRoutine _ _ _).trans (if_pos rfl)
      · exact (s'.code.name?_addRoutine _ _ _).trans (if_pos rfl)
    | some entry' =>
      -- the second side heard of it before
      obtain ⟨hd, ha, params, hr⟩ := h.ahead p.name entry' hentry hentry'
      have hboth := ((h.catchUp hentry hentry' hp).mark (by rw [Globals.subprogram?_register, if_pos rfl])
        hentry' hp).congr
        { s with
          code := (s.code.addRoutine p.name p.params).2
          globals := s.globals.register p.name ⟨s.code.routines.size, p.params.length, true⟩ }
        { s' with globals := s'.globals.register p.name ⟨entry'.routine, p.params.length, true⟩ }
        rfl rfl (fun _ => rfl) (fun _ => rfl) (fun _ => (Globals.subprogram?_register_register _ _ _ _ _).symm)
        fun _ => rfl
      exact ⟨entry'.routine, s', Emit.claimRoutine_of_known hentry' hd (ha.trans hp.symm),
        ⟨p.name, (s.code.name?_addRoutine _ _ _).trans (if_pos rfl), Code.name?_of_routine hr⟩,
        s.code.keeps_addRoutine _ _, .refl _, h.learn hboth rfl rfl (s.code.keeps_addRoutine _ _) (.refl _)⟩

/-- Both get the first blocks of a routine. -/
theorem opened (hr : s.code.Namesakes s'.code r r') (result : Option String) : Beside arity r r'
      { s with frame := (Emit.openRoutine s.code r result).1, code := (Emit.openRoutine s.code r result).2 }
      { s' with frame := (Emit.openRoutine s'.code r' result).1, code := (Emit.openRoutine s'.code r' result).2 } := by
  have hstart : Beside arity r r' { s with frame := ⟨r, ⟨r, 0⟩, ⟨r, 0⟩, result, .empty, []⟩ }
      { s' with frame := ⟨r', ⟨r', 0⟩, ⟨r', 0⟩, result, .empty, []⟩ } :=
    ⟨h.toAbreast.congr _ _ rfl rfl (fun _ => rfl) (fun _ => rfl) (fun _ => rfl) fun _ => rfl, hr, rfl, rfl, rfl, rfl⟩
  have hentry := hstart.emit (·.addBlock "entry") (·.addBlock "entry") (fun _ => rfl) (fun _ => rfl)
    fun _ _ hmatch => hmatch.addBlock "entry"
  have hboth := hentry.emit (·.addBlock "return") (·.addBlock "return") (fun _ => rfl) (fun _ => rfl)
    fun _ _ hmatch => hmatch.addBlock "return"
  have hframe : (Emit.openRoutine s'.code r' result).1 = (Emit.openRoutine s.code r result).1.renumber fun _ => r' := by
    have hfirst := hstart.blocksOf
    have hsecond := hentry.blocksOf
    change Frame.mk r' ⟨r', s'.code.blocksOf r'⟩ ⟨r', (s'.code.modify r' (·.addBlock "entry")).blocksOf r'⟩ result .empty [] =
      Frame.mk r' ⟨r', s.code.blocksOf r⟩ ⟨r', (s.code.modify r (·.addBlock "entry")).blocksOf r⟩ result .empty []
    rw [← hfirst, ← hsecond]
  rw [hframe]
  exact hboth.reframe rfl rfl rfl

/-- Both compile a routine, and come back. -/
theorem within (hr : s.code.Namesakes s'.code r r') {result : Option String} {body body' : Emit Code Unit}
    (hbody : Trails arity r r' body body') {u : Unit} (hrun : Emit.within r result body s = .ok u t) :
    ∃ t', Emit.within r' result body' s' = .ok u t' ∧ Beside arity g g' t t' ∧ s.code.Keeps t.code ∧
      s'.code.Keeps t'.code := by
  replace hrun := Emit.get_ok hrun
  obtain ⟨_, s₁, hopen, hrun₁⟩ := Emit.bind_ok hrun
  obtain ⟨_, t₁, hinner, hrun₂⟩ := Emit.bind_ok hrun₁
  cases hopen
  cases hrun₂
  obtain ⟨t₁', hinner', ht₁, hkeeps₁, hkeeps₁'⟩ := hbody _ _ _ _ (h.opened hr result) hinner
  have hkeeps := (s.code.keeps_openRoutine r result).trans hkeeps₁
  have hkeeps' := (s'.code.keeps_openRoutine r' result).trans hkeeps₁'
  refine ⟨{ t₁' with frame := s'.frame }, (Emit.bind_of_ok hinner').trans rfl, ?_, hkeeps, hkeeps'⟩
  exact h.learn (ht₁.toAbreast.congr _ _ rfl rfl (fun _ => rfl) (fun _ => rfl) (fun _ => rfl) fun _ => rfl) rfl rfl hkeeps
    hkeeps'

end Beside

namespace Trails

variable {g g' : Nat}

theorem forward {p : Prototype} (hp : p.params.length = arity p.name) :
    Trails arity g g' (Emit.forward p) (Emit.forward p) := by
  intro s s' u t h hrun
  obtain ⟨t', entry', hrun', hentry', ht', hkeeps'⟩ := h.forward hp
  replace hrun := Emit.get_ok hrun
  cases hentry : s.globals.subprogram? p.name with
  | some entry =>
    rw [hentry] at hrun
    dsimp only at hrun
    split at hrun
    · cases hrun
    · cases hrun
      exact ⟨t', hrun', ht', .refl _, hkeeps'⟩
  | none =>
    rw [hentry] at hrun
    cases hrun
    exact ⟨t', hrun', ht'.learn (ht'.catchUp hentry hentry' hp) rfl rfl (s.code.keeps_addRoutine _ _) (.refl _),
      s.code.keeps_addRoutine _ _, hkeeps'⟩

theorem routine {p : Prototype} (hp : p.params.length = arity p.name) {value value' : Emit Code Register}
    (hvalue : ∀ r r', Trails arity r r' value value') :
    Trails arity g g' (Emit.routine p value) (Emit.routine p value') := by
  intro s s' u t h hrun
  obtain ⟨r, s₁, hclaim, hrun⟩ := Emit.bind_ok hrun
  obtain ⟨⟨⟩, s₂, hregister, hrun⟩ := Emit.bind_ok hrun
  cases hregister
  obtain ⟨r', s₁', hclaim', hnamesakes, hkeeps, hkeeps', h₂⟩ := h.claim hp hclaim
  obtain ⟨t', hrun', ht, hkeeps₂, hkeeps₂'⟩ := h₂.within hnamesakes (bind (hvalue r r') finish) hrun
  exact ⟨t', (Emit.bind_of_ok hclaim').trans hrun', ht, hkeeps.trans hkeeps₂, hkeeps'.trans hkeeps₂'⟩

/-! ## 7. Trees -/

/-- The blocks that are moved to belong to the routine at hand. -/
theorem tandem : Emit.Tandem (fun name params => params.length = arity name) (fun _ : Nat × Nat => .same)
    (fun w => BlockRef.renumber fun _ => w.2)
    (fun w held m m' => (∀ place ∈ held, place.routine = w.1) → Trails arity w.1 w.2 m m') where
  pure a _ := pure a
  throw _ _ _ := throw _ _
  bind hm hk hheld := bind (hm hheld) fun a => hk a hheld
  define op hop _ := define fun _ => by
    cases op with
    | call | phi => exact hop.elim
    | _ => rfl
  store v a _ := store v a
  jump _ _ := terminate ⟨_, rfl, rfl⟩
  branch _ _ _ _ := terminate ⟨_, _, rfl, rfl, rfl⟩
  addBlock _ hk hheld := bindBlock fun x => hk ⟨_, x⟩ (Set.forall_mem_insert.mpr ⟨rfl, hheld⟩)
  here hk hheld := bindHere fun x => hk ⟨_, x⟩ hheld
  moveTo hplace hheld := hheld _ hplace ▸ moveTo _
  merge hplace _ _ _ _ hheld := bind (hheld _ hplace ▸ moveTo _) fun _ => define fun _ => ⟨_, rfl, rfl⟩
  resolve _ _ := resolve _
  holding name b hbody hheld := holding name b (hbody hheld)
  declareConstant name v _ := declareConstant name v
  declare kind name b _ := declare kind name b
  call callee count hargs hheld := call callee count (hargs hheld)
  resultValue _ := resultValue
  leave v _ := leave v
  forward hp _ := forward hp
  routine hp h _ := routine hp fun r r' => h (r, r') ∅ rfl fun _ hplace => (Set.notMem_empty _ hplace).elim

end Trails

end Mila
