import Mila.Proofs.Blocks
import Mila.Proofs.Renumbering

/-! # Watching a compilation

What holds while a program is compiled, and also where compiling it stops at a broken rule. A target that
keeps code is asked only for what it can do: blocks are added to routines that it has, and instructions and
exits to blocks that it has. And the routine of the program itself does not return before everything else is
compiled, so that code which was left half done has a `main` that is open at its end.
-/

namespace Mila

/-! ## 1. A target that watches -/

/-- Code, and whether it had what was asked for so far: the routines that blocks were added to, and the
blocks that instructions and exits were added to. -/
structure Watched where
  code : Code
  sound : Bool

def Watched.empty : Watched := ⟨.empty, true⟩

/-- The code after a step that needs a routine or a block to be there. -/
def Watched.next (k : Watched) (code : Code) (there : Bool) : Watched := ⟨code, k.sound && there⟩

instance : Target Watched where
  addRoutine k name params :=
    ((k.code.addRoutine name params).1, { k with code := (k.code.addRoutine name params).2 })
  addBlock k g label :=
    ((k.code.addBlock g label).1, k.next (k.code.addBlock g label).2 (decide (g < k.code.routines.size)))
  define k place op :=
    ((k.code.define place op).1, k.next (k.code.define place op).2 (k.code.block? place).isSome)
  store k place value address :=
    k.next (k.code.store place value address) (k.code.block? place).isSome
  terminate k place e := k.next (k.code.terminate place e) (k.code.block? place).isSome

/-- The code that is watched goes along. -/
def Watched.forgetful : Renumbering Watched Code where
  code := Watched.code
  routine := id
  addRoutine _ _ _ := rfl
  addBlock _ _ _ := rfl
  define k place op := by
    rw [op.renumber_id]
    rfl
  store _ _ _ _ := rfl
  terminate k place e := by
    rw [e.renumber_id]
    rfl

/-- Watching changes nothing. -/
theorem Program.compileInto_watched (p : Program) (k : Watched) :
    p.compileInto k.code = ((p.compileInto k).1, (p.compileInto k).2.code) :=
  Watched.forgetful.compileInto p k

/-! ## 2. Code whose program does not return -/

namespace Code

/-- The routine of the program is there, but none of its blocks returns: the one that is to return in the end
has no exit yet. Its first block merges no values. -/
structure Unreturned (c : Code) : Prop where
  named : ∃ params, c.heading? 0 = some (entryPoint, params)
  entry : ∃ b, c.block? ⟨0, 0⟩ = some b ∧ ∀ i ∈ b.body, i.isPhi = false
  last : ∃ b, c.block? ⟨0, 1⟩ = some b ∧ b.exit = none
  noReturn : ∀ x v, c.exit? ⟨0, x⟩ ≠ some (.ret v)

theorem size_modify (c : Code) (g : Nat) (f : Routine → Routine) :
    (c.modify g f).routines.size = c.routines.size := Array.size_modify

variable {place other : BlockRef}

theorem lt_size_of_block {c : Code} (h : (c.block? place).isSome) : place.routine < c.routines.size := by
  obtain ⟨b, hb⟩ := Option.isSome_iff_exists.mp h
  obtain ⟨r, hr⟩ := routine_of_block hb
  exact (Array.getElem?_eq_some_iff.mp hr).1

/-- A step that changes one block takes none away. -/
theorem isSome_change {c c' : Code} {f : Block → Block}
    (hblock : ∀ other, c'.block? other = if other = place then (c.block? place).map f else c.block? other)
    (h : (c.block? other).isSome) : (c'.block? other).isSome := by
  rw [hblock]
  split
  · next he =>
    rw [Option.isSome_map, ← he]
    exact h
  · exact h

theorem isSome_addBlock {c : Code} {g : Nat} (hg : g < c.routines.size) (label : String)
    (h : (c.block? other).isSome ∨ other = ⟨g, c.blocksOf g⟩) : ((c.addBlock g label).2.block? other).isSome := by
  rw [block?_addBlock (Array.getElem?_eq_getElem hg)]
  split
  · rfl
  · next hne => exact h.resolve_right hne

namespace Unreturned

variable {c : Code}

theorem size_pos (h : c.Unreturned) : 0 < c.routines.size := by
  obtain ⟨b, hb, -⟩ := h.entry
  obtain ⟨r, hr⟩ := routine_of_block hb
  exact (Array.getElem?_eq_some_iff.mp hr).1

theorem two_le_blocksOf (h : c.Unreturned) : 2 ≤ c.blocksOf 0 := by
  obtain ⟨b, hb, -⟩ := h.last
  exact block_lt_blocksOf hb

theorem addRoutine (h : c.Unreturned) (name : String) (params : List String) :
    (c.addRoutine name params).2.Unreturned where
  named := by
    rw [heading?_addRoutine, if_neg (Nat.ne_of_lt h.size_pos)]
    exact h.named
  entry := by
    rw [block?_addRoutine]
    exact h.entry
  last := by
    rw [block?_addRoutine]
    exact h.last
  noReturn x v := by
    rw [exit?_addRoutine]
    exact h.noReturn x v

theorem addBlock (h : c.Unreturned) {g : Nat} (hg : g < c.routines.size) (label : String) :
    (c.addBlock g label).2.Unreturned := by
  -- the first two blocks of the program are not the new one
  have hold : ∀ x, x < 2 → (c.addBlock g label).2.block? ⟨0, x⟩ = c.block? ⟨0, x⟩ := by
    intro x hx
    rw [block?_addBlock (Array.getElem?_eq_getElem hg), if_neg]
    intro he
    obtain ⟨rfl, rfl⟩ := BlockRef.mk.inj he
    have := h.two_le_blocksOf
    omega
  refine ⟨?_, ?_, ?_, fun x v => ?_⟩
  · rw [heading?_addBlock]
    exact h.named
  · rw [hold 0 (by decide)]
    exact h.entry
  · rw [hold 1 (by decide)]
    exact h.last
  · rw [exit?_addBlock]
    exact h.noReturn x v

variable {place : BlockRef}

/-- A step that changes one block, without a merge in the first one, an exit of the last one or a return. -/
theorem change {c' : Code} {f : Block → Block} (h : c.Unreturned) (hheading : c'.heading? 0 = c.heading? 0)
    (hblock : ∀ other, c'.block? other = if other = place then (c.block? place).map f else c.block? other)
    (hentry : place = ⟨0, 0⟩ → ∀ b, (∀ i ∈ b.body, i.isPhi = false) → ∀ i ∈ (f b).body, i.isPhi = false)
    (hlast : place = ⟨0, 1⟩ → ∀ b, b.exit = none → (f b).exit = none)
    (hreturn : place.routine = 0 → ∀ b v, (f b).exit = some (.ret v) → b.exit = some (.ret v)) : c'.Unreturned := by
  refine ⟨?_, ?_, ?_, fun x v => ?_⟩
  · rw [hheading]
    exact h.named
  · obtain ⟨b, hb, hbody⟩ := h.entry
    rw [hblock]
    split
    · next he =>
      rw [← he, hb]
      exact ⟨_, rfl, hentry he.symm b hbody⟩
    · exact ⟨b, hb, hbody⟩
  · obtain ⟨b, hb, hexit⟩ := h.last
    rw [hblock]
    split
    · next he =>
      rw [← he, hb]
      exact ⟨_, rfl, hlast he.symm b hexit⟩
    · exact ⟨b, hb, hexit⟩
  · have hold := h.noReturn x v
    unfold exit? at hold ⊢
    rw [hblock]
    split
    · next he =>
      rw [← he]
      cases hb : c.block? ⟨0, x⟩ with
      | none => exact (Option.some_ne_none _).symm
      | some b =>
        rw [hb] at hold
        exact fun hf => hold (hreturn (by rw [← he]) b v hf)
    · exact hold

theorem define (h : c.Unreturned) {op : Operation}
    (hop : place = ⟨0, 0⟩ → ∀ r, (Instruction.define r op).isPhi = false) : (c.define place op).2.Unreturned := by
  refine h.change (heading?_define _ _ _ _) (fun other => block?_define c place other op) ?_
    (fun _ _ he => he) fun _ _ _ he => he
  intro hplace b hbody i hi
  rcases Array.mem_push.mp hi with hi | rfl
  · exact hbody i hi
  · exact hop hplace _

theorem store (h : c.Unreturned) (place : BlockRef) (v a : Register) : (c.store place v a).Unreturned := by
  refine h.change (heading?_store _ _ _ _ _) (fun other => block?_store c place other v a) ?_
    (fun _ _ he => he) fun _ _ _ he => he
  intro _ b hbody i hi
  rcases Array.mem_push.mp hi with hi | rfl
  · exact hbody i hi
  · rfl

/-- A block of the program may be closed, if it is not the last one and does not return. -/
theorem terminate (h : c.Unreturned) {e : Exit} (hplace : place.routine = 0 → place.block ≠ 1 ∧ ∀ v, e ≠ .ret v) :
    (c.terminate place e).Unreturned := by
  refine h.change (heading?_terminate _ _ _ _) (fun other => block?_terminate c place other e)
    (fun _ _ hbody => hbody) ?_ ?_
  · rintro rfl
    exact absurd rfl (hplace rfl).1
  · intro h0 b v hexit
    exact absurd (Option.some.inj hexit) ((hplace h0).2 v)

end Unreturned

end Code

/-! ## 3. Steps that keep order -/

namespace Watched

/-- The state of a compilation in the midst of routine `g`, when the blocks `held` will still be needed. -/
structure Kept (g : Nat) (held : Set BlockRef) (s : Compilation Watched) : Prop where
  sound : s.code.sound = true
  unreturned : s.code.code.Unreturned
  known : ∀ name entry, s.globals.subprogram? name = some entry →
    entry.routine < s.code.code.routines.size ∧ (entry.isDefined = false → entry.routine ≠ 0)
  routine : s.frame.routine = g
  /-- Instructions go to a block of the routine that is there. That of the program is not its last one. -/
  place : s.frame.block.routine = g ∧ (g = 0 → s.frame.block.block ≠ 1)
  there : (s.code.code.block? s.frame.block).isSome
  returns : s.frame.returnBlock.routine = g
  returnsThere : (s.code.code.block? s.frame.returnBlock).isSome
  held : ∀ place ∈ held, (s.code.code.block? place).isSome

/-- What is left behind when compiling stops. -/
structure Left (s : Compilation Watched) : Prop where
  sound : s.code.sound = true
  unreturned : s.code.code.Unreturned

variable {g : Nat} {held : Set BlockRef} {s : Compilation Watched}

namespace Kept

theorem left (h : Kept g held s) : Left s := ⟨h.sound, h.unreturned⟩

theorem weaken (h : Kept g held s) {held' : Set BlockRef} (hsub : held' ⊆ held) : Kept g held' s :=
  { h with held := fun place hplace => h.held place (hsub hplace) }

theorem lt_size (h : Kept g held s) : g < s.code.code.routines.size := by
  rw [← h.place.1]
  exact Code.lt_size_of_block h.there

theorem emit (h : Kept g held s) {k : Watched} (hsound : k.sound = true) (hmain : k.code.Unreturned)
    (hsize : s.code.code.routines.size ≤ k.code.routines.size)
    (hblocks : ∀ place, (s.code.code.block? place).isSome → (k.code.block? place).isSome) :
    Kept g held { s with code := k } where
  sound := hsound
  unreturned := hmain
  known name entry he := ⟨(h.known name entry he).1.trans_le hsize, (h.known name entry he).2⟩
  routine := h.routine
  place := h.place
  there := hblocks _ h.there
  returns := h.returns
  returnsThere := hblocks _ h.returnsThere
  held place hplace := hblocks _ (h.held place hplace)

/-- A step that changes the block at hand. -/
theorem change (h : Kept g held s) {c : Code} {f : Block → Block} (hmain : c.Unreturned)
    (hsize : c.routines.size = s.code.code.routines.size) (hblock : ∀ other, c.block? other =
      if other = s.frame.block then (s.code.code.block? s.frame.block).map f else s.code.code.block? other) :
    Kept g held { s with code := s.code.next c (s.code.code.block? s.frame.block).isSome } := by
  refine h.emit ?_ hmain hsize.ge fun _ => Code.isSome_change hblock
  unfold next
  rw [h.sound, h.there]
  rfl

/-- A block is added to a routine that is there. -/
theorem addBlock (h : Kept g held s) {r : Nat} (hr : r < s.code.code.routines.size) (label : String) :
    Kept g held { s with code := (Target.addBlock s.code r label).2 } := by
  refine h.emit ?_ (h.unreturned.addBlock hr label) (Code.size_modify _ _ _).ge
    fun _ hplace => Code.isSome_addBlock hr label (.inl hplace)
  change (s.code.sound && decide _) = true
  rw [h.sound, decide_eq_true hr]
  rfl

theorem hold (h : Kept g held s) {place : BlockRef} (hplace : (s.code.code.block? place).isSome) :
    Kept g (insert place held) s := by
  refine { h with held := fun other hother => ?_ }
  rcases hother with rfl | hother
  · exact hplace
  · exact h.held other hother

/-- A routine that is opened has its first blocks, and those of the outer routine stay. -/
theorem opened (hs : Kept g held s) {r : Nat} (hr : r ≠ 0)
    (hlt : r < s.code.code.routines.size) (name : Option String) :
    Kept r (insert s.frame.block (insert s.frame.returnBlock held))
      { s with
        frame := (Emit.openRoutine s.code r name).1
        code := (Emit.openRoutine s.code r name).2 } := by
  have h₁ := (hs.hold hs.returnsThere).hold hs.there
  have h₂ := h₁.addBlock hlt "entry"
  have hlt₂ : r < (Target.addBlock s.code r "entry").2.code.routines.size :=
    hlt.trans_eq (Code.size_modify _ _ _).symm
  have h₃ := h₂.addBlock hlt₂ "return"
  refine { h₃ with routine := rfl, place := ⟨rfl, fun h0 => absurd h0 hr⟩, there := ?_, returns := rfl,
                   returnsThere := ?_ }
  · exact Code.isSome_addBlock hlt₂ "return" (.inl (Code.isSome_addBlock hlt "entry" (.inr rfl)))
  · exact Code.isSome_addBlock hlt₂ "return" (.inr rfl)

end Kept

/-- How a step ends: what it yields and the state after it satisfy `Q`, or it leaves order behind. -/
def Ends {α : Type} (r : EStateM.Result ScopeError (Compilation Watched) α)
    (Q : α → Compilation Watched → Prop) : Prop :=
  match r with
  | .ok a s => Q a s
  | .error _ s => Left s

theorem Ends.bind {α β : Type} {m : Emit Watched α} {k : α → Emit Watched β}
    {Q : α → Compilation Watched → Prop} {R : β → Compilation Watched → Prop} (hm : Ends (m s) Q)
    (hk : ∀ a s', Q a s' → Ends (k a s') R) : Ends ((m >>= k) s) R := by
  change Ends (EStateM.bind m k s) R
  unfold EStateM.bind
  cases hrun : m s with
  | ok a s' =>
    rw [hrun] at hm
    exact hk a s' hm
  | error e s' =>
    rw [hrun] at hm
    exact hm

theorem Ends.look {β : Type} {k : Compilation Watched → Emit Watched β} {Q : β → Compilation Watched → Prop}
    (h : Ends (k s s) Q) : Ends ((get >>= k) s) Q := h

theorem Ends.imp {α : Type} {r : EStateM.Result ScopeError (Compilation Watched) α}
    {Q R : α → Compilation Watched → Prop} (h : Ends r Q) (himp : ∀ a s, Q a s → R a s) : Ends r R := by
  cases r with
  | ok a s => exact himp a s h
  | error e s => exact h

/-- A step of routine `g` keeps order: if the blocks `held` are there before it and it succeeds, then it
yields something of which `F` holds, and the blocks `after` are there. -/
def Keeps {α : Type} (g : Nat) (held : Set BlockRef) (m : Emit Watched α) (F : α → Prop)
    (after : α → Set BlockRef) : Prop :=
  ∀ s, Kept g held s → Ends (m s) fun a s' => F a ∧ Kept g (after a) s'

/-- A step that keeps order wherever it is made. -/
def Steady {α : Type} (m : Emit Watched α) : Prop :=
  ∀ g held, Keeps g held m (fun _ => True) fun _ => held

/-- A block in which routine `g` may go on. -/
def Fits (g : Nat) (place : BlockRef) : Prop := place.routine = g ∧ (g = 0 → 2 ≤ place.block)

namespace Keeps

variable {α β : Type} {F : α → Prop} {G : β → Prop} {after : α → Set BlockRef} {after' : β → Set BlockRef}

variable {m : Emit Watched α} {k : α → Emit Watched β} {place : BlockRef}

theorem bind (hm : Keeps g held m F after)
    (hk : ∀ a, F a → Keeps g (after a) (k a) G after') : Keeps g held (m >>= k) G after' :=
  fun s hs => (hm s hs).bind fun a s' h => hk a h.1 s' h.2

/-- A step that keeps order anywhere goes first. -/
theorem next (hm : Steady m) (hk : ∀ a, Keeps g held (k a) G after') : Keeps g held (m >>= k) G after' :=
  bind (hm g held) fun a _ => hk a

theorem weaken (hm : Keeps g held m F after) {after' : α → Set BlockRef}
    (hsub : ∀ a, after' a ⊆ after a) : Keeps g held m F after' :=
  fun s hs => (hm s hs).imp fun a _ h => ⟨h.1, h.2.weaken (hsub a)⟩

/-- A new block is there from now on. -/
theorem addBlock (label : String) {k : BlockRef → Emit Watched β}
    (hk : ∀ place, Fits g place → Keeps g (insert place held) (k place) G fun b => insert place (after' b)) :
    Keeps g held (Emit.addBlock label >>= k) G after' := by
  have hnew : Keeps g held (Emit.addBlock label) (Fits g) fun place => insert place held := by
    intro s hs
    have hg : s.frame.routine < s.code.code.routines.size := by
      rw [hs.routine]
      exact hs.lt_size
    refine ⟨⟨hs.routine, fun h0 => ?_⟩, ?_⟩
    · change 2 ≤ s.code.code.blocksOf s.frame.routine
      rw [hs.routine, h0]
      exact hs.unreturned.two_le_blocksOf
    · exact (hs.addBlock hg label).hold (Code.isSome_addBlock hg label (.inr rfl))
  exact hnew.bind fun place hplace => (hk place hplace).weaken fun _ => Set.subset_insert _ _

theorem moveTo (hfits : Fits g place) (hheld : place ∈ held) :
    Keeps g held (Emit.moveTo place) (fun _ => True) fun _ => held := by
  intro s hs
  refine ⟨trivial, { hs with place := ⟨hfits.1, fun h0 h1 => ?_⟩, there := hs.held place hheld }⟩
  have h2 := hfits.2 h0
  change place.block = 1 at h1
  omega

/-- Values are merged in a block that was added later, and not where the program begins. -/
theorem merge (hfits : Fits g place) (hheld : place ∈ held) (incoming : List (Register × BlockRef)) :
    Keeps g held (Emit.moveTo place >>= fun _ => Emit.define (.phi incoming)) (fun _ => True)
      fun _ => held := by
  intro s hs
  have hs' := (moveTo hfits hheld s hs).2
  refine ⟨trivial, hs'.change (hs'.unreturned.define ?_) (Code.size_modify _ _ _)
    fun other => Code.block?_define _ _ other _⟩
  rintro hplace
  change place = ⟨0, 0⟩ at hplace
  subst hplace
  exact absurd (hfits.2 hfits.1.symm) (by decide)

end Keeps

namespace Steady

variable {α β : Type}

theorem pure (a : α) : Steady (pure a) := fun _ _ _ hs => ⟨trivial, hs⟩

theorem throw (e : ScopeError) : Steady (throw e : Emit Watched α) := fun _ _ _ hs => hs.left

theorem get {k : Compilation Watched → Emit Watched β}
    (hk : ∀ s g held, Kept g held s → Keeps g held (k s) (fun _ => True) fun _ => held) :
    Steady (get >>= k) := fun g held s hs => hk s g held hs s hs

/-- A change of the frame that leaves the place in the code as it is. -/
theorem reframe (f : Frame → Frame)
    (hf : ∀ x, (f x).routine = x.routine ∧ (f x).block = x.block ∧ (f x).returnBlock = x.returnBlock) :
    Steady (modify fun s => { s with frame := f s.frame }) := by
  intro g held s hs
  obtain ⟨hroutine, hblock, hreturn⟩ := hf s.frame
  exact ⟨trivial, hs.sound, hs.unreturned, hs.known, hroutine.trans hs.routine, hblock ▸ hs.place,
    hblock ▸ hs.there, hreturn ▸ hs.returns, hreturn ▸ hs.returnsThere, hs.held⟩

theorem define {op : Operation} (hop : ∀ r, (Instruction.define r op).isPhi = false) : Steady (Emit.define op) :=
  fun _ _ _ hs => ⟨trivial, hs.change (hs.unreturned.define fun _ => hop) (Code.size_modify _ _ _)
    fun other => Code.block?_define _ _ other op⟩

theorem const (w : Word) : Steady (Emit.const w) := define fun _ => rfl

theorem store (v a : Register) : Steady (Emit.store v a) :=
  fun _ _ _ hs => ⟨trivial, hs.change (hs.unreturned.store _ v a) (Code.size_modify _ _ _)
    fun other => Code.block?_store _ _ other v a⟩

theorem terminate {e : Exit} (he : ∀ v, e ≠ .ret v) : Steady (Emit.terminate e) :=
  fun _ _ _ hs => ⟨trivial, hs.change
    (hs.unreturned.terminate fun h0 => ⟨hs.place.2 (hs.place.1.symm.trans h0), he⟩)
    (Code.size_modify _ _ _) fun other => Code.block?_terminate _ _ other e⟩

theorem jump (place : BlockRef) : Steady (Emit.terminate (.jump place)) := terminate fun _ => Exit.noConfusion

theorem branch (c : Register) (t e : BlockRef) : Steady (Emit.terminate (.branch c t e)) :=
  terminate fun _ => Exit.noConfusion

theorem currentBlock : Steady (Emit.currentBlock : Emit Watched BlockRef) :=
  get fun s g held _ => pure s.frame.block g held

/-! ## 4. Names -/

theorem resolve (name : String) : Steady (Emit.resolve name : Emit Watched Emit.Meaning) :=
  get fun s g held _ => by
    cases s.frame.locals.get? name with
    | some b => exact pure _ g held
    | none =>
      cases s.globals.constant? name with
      | some w => exact pure _ g held
      | none => exact throw _ g held

theorem declareConstant (name : String) (w : Word) : Steady (Emit.declareConstant name w : Emit Watched Unit) :=
  fun g held s hs => .look <| by
    cases hdef : s.globals.defineConstant? name w with
    | none => exact hs.left
    | some globals =>
      refine ⟨trivial, { hs with known := fun other entry he => hs.known other entry ?_ }⟩
      rw [← he]
      exact (Globals.subprogram?_defineConstant? hdef other).symm

theorem declare (kind : SymbolKind) (name : String) (b : Binding) :
    Steady (Emit.declare kind name b : Emit Watched Unit) :=
  get fun s g held _ => by
    cases s.frame.locals.declare? name b with
    | none => exact throw _ g held
    | some locals => exact reframe (fun f => { f with locals }) (fun _ => ⟨rfl, rfl, rfl⟩) g held

/-! ## 5. Expressions and statements -/

theorem resultValue : Steady (Emit.resultValue : Emit Watched Register) :=
  get fun s g held _ => by
    dsimp only
    cases s.frame.resultName.bind s.frame.locals.get? with
    | some b => exact define (fun _ => rfl) g held
    | none => exact const 0 g held

theorem leave (v : Register) : Steady (Emit.leave v : Emit Watched Unit) :=
  get fun s g held _ => .next (reframe (fun f => { f with returns := f.returns ++ [(v, f.block)] })
    fun _ => ⟨rfl, rfl, rfl⟩) fun _ => jump s.frame.returnBlock g held

/-! ## 6. Subprograms -/

theorem addRoutine (p : Prototype) (hs : Kept g held s) : Ends (Emit.addRoutine p s) fun r s' =>
      (r < s'.code.code.routines.size ∧ r ≠ 0) ∧ Kept g held s' := by
  have hsize : (s.code.code.addRoutine p.name p.params).2.routines.size =
      s.code.code.routines.size + 1 := Array.size_push _
  refine ⟨⟨?_, hs.unreturned.size_pos.ne'⟩, hs.emit hs.sound (hs.unreturned.addRoutine _ _) ?_ ?_⟩
  · exact Nat.lt_of_lt_of_eq (Nat.lt_succ_self _) hsize.symm
  · exact Nat.le_of_lt (Nat.lt_of_lt_of_eq (Nat.lt_succ_self _) hsize.symm)
  · intro place hplace
    exact (Code.block?_addRoutine s.code.code p.name p.params place).symm ▸ hplace

theorem register (name : String) (entry : Subprogram) (hs : Kept g held s)
    (hentry : entry.routine < s.code.code.routines.size ∧ (entry.isDefined = false → entry.routine ≠ 0)) :
    Kept g held { s with globals := s.globals.register name entry } := by
  refine { hs with known := fun other found hfound => ?_ }
  change (s.globals.register name entry).subprogram? other = some found at hfound
  rw [Globals.subprogram?_register] at hfound
  split at hfound
  · rw [← Option.some.inj hfound]
    exact hentry
  · exact hs.known other found hfound

theorem forward (p : Prototype) : Steady (Emit.forward p : Emit Watched Unit) :=
  get fun s g held hs => by
    cases s.globals.subprogram? p.name with
    | none =>
      intro s₁ hs₁
      exact (addRoutine p hs₁).bind fun r s₂ h₂ => ⟨trivial, register _ _ h₂.2 ⟨h₂.1.1, fun _ => h₂.1.2⟩⟩
    | some entry =>
      dsimp only
      split
      · exact throw _ g held
      · exact pure _ g held

/-- The routine that a subprogram is given is there, and is not that of the program. -/
theorem claimRoutine (p : Prototype) (hs : Kept g held s) : Ends (Emit.claimRoutine p s) fun r s' =>
      (r < s'.code.code.routines.size ∧ r ≠ 0) ∧ Kept g held s' := by
  refine Ends.look ?_
  cases hknown : s.globals.subprogram? p.name with
  | none => exact addRoutine p hs
  | some entry =>
    obtain ⟨hlt, hne⟩ := hs.known p.name entry hknown
    dsimp only
    cases hdefined : entry.isDefined with
    | true => exact hs.left
    | false =>
      rw [if_neg Bool.false_ne_true]
      split
      · exact hs.left
      · exact ⟨⟨hlt, hne hdefined⟩, hs⟩

end Steady

namespace Keeps

theorem holding {body : Emit Watched (Option Register)} (name : String) (b : Binding)
    (hbody : Keeps g held body (fun _ => True) fun _ => held) :
    Keeps g held (Emit.holding name b body) (fun _ => True) fun _ => held := by
  have hshadow : Steady (modifyGet fun s => ((s.frame.locals.shadow name b).1,
      { s with frame := { s.frame with locals := (s.frame.locals.shadow name b).2 } }) :
      Emit Watched (Option Binding)) := fun _ _ s hs => ⟨trivial, { hs with }⟩
  exact next hshadow fun saved => bind hbody fun _ _ =>
    Steady.reframe (fun f => { f with locals := f.locals.restore name saved }) (fun _ => ⟨rfl, rfl, rfl⟩) g held

theorem call {args : Emit Watched (List Register)} (callee : String) (arity : Nat)
    (h : Keeps g held args (fun _ => True) fun _ => held) :
    Keeps g held (Emit.call callee arity args) (fun _ => True) fun _ => held := by
  intro s hs
  refine Ends.look ?_
  have hcall : ∀ r, Keeps g held (args >>= fun rs => Emit.define (.call r rs)) (fun _ => True) fun _ => held :=
    fun r => bind h fun _ _ => Steady.define (fun _ => rfl) g held
  cases s.globals.subprogram? callee with
  | none => exact hs.left
  | some entry =>
    dsimp only
    split
    · exact hs.left
    · exact hcall _ s hs

/-- A subprogram may return, because it is not the program. -/
theorem ret (hg : g ≠ 0) (v : Register) : Keeps g held (Emit.terminate (.ret v)) (fun _ => True) fun _ => held :=
  fun _ hs => ⟨trivial, hs.change
    (hs.unreturned.terminate fun h0 => absurd (hs.place.1.symm.trans h0) hg)
    (Code.size_modify _ _ _) fun other => Code.block?_terminate _ _ other _⟩

theorem phi (hg : g ≠ 0) (incoming : List (Register × BlockRef)) :
    Keeps g held (Emit.define (.phi incoming)) (fun _ => True) fun _ => held :=
  fun _ hs => ⟨trivial, hs.change
    (hs.unreturned.define fun h0 => absurd (hs.place.1.symm.trans (by rw [h0])) hg)
    (Code.size_modify _ _ _) fun other => Code.block?_define _ _ other _⟩

theorem finish (hg : g ≠ 0) (v : Register) : Keeps g held (Emit.finish v) (fun _ => True) fun _ => held := by
  refine next (Steady.leave v) fun _ s hs => Ends.look ?_
  have hforget : ∀ _ : Unit, held ⊆ insert s.frame.returnBlock held := fun _ => Set.subset_insert _ _
  -- the return block is not among the blocks that others need, but the frame knows that it is there
  have hmove : Keeps g _ (Emit.moveTo s.frame.returnBlock) _ _ :=
    moveTo ⟨hs.returns, fun h0 => absurd h0 hg⟩ (Set.mem_insert _ held)
  refine hmove.bind (fun _ _ => ?_) s (hs.hold hs.returnsThere)
  split
  · exact (ret hg _).weaken hforget
  · exact bind (phi hg _) fun _ _ => (ret hg _).weaken hforget

/-- A subprogram in the midst of a routine, which goes on where it was. -/
theorem within {r : Nat} (hr : r ≠ 0) (name : Option String) {body : Emit Watched Unit}
    (hbody : ∀ held, Keeps r held body (fun _ => True) fun _ => held) (hs : Kept g held s)
    (hlt : r < s.code.code.routines.size) : Ends (Emit.within r name body s) fun _ s' => True ∧ Kept g held s' := by
  refine Ends.bind (m := body) (hbody _ _ (hs.opened hr hlt name)) fun _ s' h => ⟨trivial, ?_⟩
  have h' := h.2
  exact ⟨h'.sound, h'.unreturned, h'.known, hs.routine, hs.place, h'.held _ (by simp), hs.returns,
    h'.held _ (by simp), fun place hplace => h'.held place (by simp [hplace])⟩

end Keeps

theorem Steady.routine (p : Prototype) {value : Emit Watched Register} (hvalue : Steady value) :
    Steady (Emit.routine p value) := by
  intro g held s hs
  refine (claimRoutine p hs).bind fun r s₁ h₁ => ?_
  obtain ⟨⟨hlt, hne⟩, hs₁⟩ := h₁
  have hs₂ := register p.name ⟨r, p.params.length, true⟩ hs₁ ⟨hlt, Bool.noConfusion⟩
  exact Keeps.within hne (Emit.resultNameOf p) (fun held => .next hvalue fun _ => .finish hne _) hs₂ hlt

/-! ## 7. Trees -/

/-- A step that keeps order in routine `g`, if it may go on in the blocks `held`. -/
def Goes {α : Type} (g : Nat) (held : Set BlockRef) (m : Emit Watched α) : Prop :=
  ∀ more, (∀ place ∈ held, Fits g place) → Keeps g (held ∪ more) m (fun _ => True) fun _ => held ∪ more

theorem Goes.steady {α : Type} {m : Emit Watched α} (h : ∀ g, Goes g ∅ m) : Steady m := by
  intro g more
  have hm := h g more fun _ hplace => (Set.notMem_empty _ hplace).elim
  rwa [Set.empty_union] at hm

/-- Only one of the two compilations matters. -/
theorem tandem : Emit.Tandem (fun _ _ => True) (fun _ : Nat => .same) (fun _ place => place)
    (fun g held m (_ : Emit Watched _) => Goes g held m) where
  pure a _ _ := Steady.pure a _ _
  throw _ _ _ _ := Steady.throw _ _ _
  bind hm hk more hheld := .bind (hm more hheld) fun a _ => hk a more hheld
  define op hop _ _ := by
    refine Steady.define (fun _ => ?_) _ _
    cases op with
    | phi => exact hop.elim
    | _ => rfl
  store v a _ _ := Steady.store v a _ _
  jump p _ _ := Steady.jump p _ _
  branch c p q _ _ := Steady.branch c p q _ _
  addBlock _ hk more hheld := .addBlock _ fun place hplace => by
    rw [← Set.insert_union]
    exact hk place more (Set.forall_mem_insert.mpr ⟨hplace, hheld⟩)
  here hk more hheld := .next Steady.currentBlock fun place => hk place more hheld
  moveTo hplace _ hheld := .moveTo (hheld _ hplace) (.inl hplace)
  merge hplace _ _ _ _ _ hheld := .merge (hheld _ hplace) (.inl hplace) _
  resolve _ _ _ := Steady.resolve _ _ _
  holding name b hbody more hheld := .holding name b (hbody more hheld)
  declareConstant name v _ _ := Steady.declareConstant name v _ _
  declare kind name b _ _ := Steady.declare kind name b _ _
  call callee arity hargs more hheld := .call callee arity (hargs more hheld)
  resultValue _ _ := Steady.resultValue _ _
  leave v _ _ := Steady.leave v _ _
  forward _ _ _ := Steady.forward _ _ _
  routine _ h _ _ := Steady.routine _ (Goes.steady fun r => h r ∅ rfl) _ _

theorem Steady.node (n : Node) : Steady (Emit.node n : Emit Watched (Option Register)) :=
  Goes.steady fun _ => tandem.node_same n.fits_same rfl ∅

theorem Steady.sequence (last : Option Register) (nodes : List Node) :
    Steady (Emit.sequence last nodes : Emit Watched (Option Register)) :=
  Goes.steady fun _ => tandem.sequence_same (Node.allFit_same nodes) last rfl ∅

/-! ## 8. Programs -/

theorem kept_start : Kept 0 ∅ (Compilation.start Watched.empty) where
  sound := rfl
  unreturned := by
    refine ⟨⟨[], rfl⟩, ⟨.empty "entry", rfl, fun i hi => ?_⟩, ⟨.empty "return", rfl, rfl⟩, fun x v => ?_⟩
    · exact absurd hi (Array.not_mem_empty i)
    -- the program has two blocks so far, both of them open
    · rcases x with _ | _ | x <;> exact (Option.some_ne_none _).symm
  known name entry he := by
    unfold Compilation.start Compilation.libraryRoutines at he
    simp only [List.foldl_cons, List.foldl_nil, Compilation.addLibraryRoutine,
      Globals.subprogram?_register] at he
    split_ifs at he <;> cases he <;> exact ⟨by decide, Bool.noConfusion⟩
  routine := rfl
  place := ⟨rfl, fun _ => by decide⟩
  there := rfl
  returns := rfl
  returnsThere := rfl
  held _ h := absurd h (Set.notMem_empty _)

/-- The program returns last of all. -/
theorem sound_finish (hs : Kept g held s) (v : Register) :
    Ends (Emit.finish v s) fun _ s' => s'.code.sound = true := by
  refine (Steady.leave v g held s hs).bind fun _ s₁ h₁ => ?_
  obtain ⟨-, hs₁⟩ := h₁
  refine Ends.look ?_
  split
  · change (s₁.code.sound && (s₁.code.code.block? s₁.frame.returnBlock).isSome) = true
    rw [hs₁.sound, hs₁.returnsThere]
    rfl
  · have hthere := Code.isSome_change (fun other => Code.block?_define s₁.code.code s₁.frame.returnBlock
      other (.phi s₁.frame.returns)) hs₁.returnsThere
    change ((s₁.code.sound && (s₁.code.code.block? s₁.frame.returnBlock).isSome) &&
      ((s₁.code.code.define s₁.frame.returnBlock (.phi s₁.frame.returns)).2.block?
        s₁.frame.returnBlock).isSome) = true
    rw [hs₁.sound, hs₁.returnsThere, hthere]
    rfl

end Watched

/-- However compiling a program ends, the code had what was asked for; and if it fails, then the program
does not return. -/
theorem Program.compileInto_kept (p : Program) : (p.compileInto Watched.empty).2.sound = true ∧
      ∀ e, (p.compileInto Watched.empty).1 = .error e →
        (p.compileInto Watched.empty).2.code.Unreturned := by
  have hrun : Watched.Ends (Emit.program p (Compilation.start Watched.empty))
      fun _ s => s.code.sound = true := by
    refine (Watched.Steady.sequence none p.declarations 0 ∅ _ Watched.kept_start).bind fun _ s₁ h₁ => ?_
    refine (Watched.Steady.node p.body 0 ∅ s₁ h₁.2).bind fun _ s₂ h₂ => ?_
    exact (Watched.Steady.const 0 0 ∅ s₂ h₂.2).bind fun v s₃ h₃ => Watched.sound_finish h₃.2 v
  unfold Program.compileInto EStateM.run
  cases h : Emit.program p (Compilation.start Watched.empty) with
  | ok a s =>
    rw [h] at hrun
    exact ⟨hrun, fun _ he => by cases he⟩
  | error e s =>
    rw [h] at hrun
    exact ⟨hrun.sound, fun _ _ => hrun.unreturned⟩

end Mila
