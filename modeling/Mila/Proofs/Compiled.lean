import Mila.Proofs.Emission

/-! # Compiled code is as described

Each construct, given that its parts emit the code of their phrases, emits the code of its own phrase. By
induction over the tree the same holds of every node, and so of a whole program.
-/

namespace Mila

open Target.Faithful (Intact)

section

variable {κ : Type} [Target κ] [Target.Faithful κ]

/-- A successful step of a compilation advances the routine at hand by the code of a phrase. -/
def Emits {α : Type} (m : Emit κ α) (phrase : Phrase) (values : α → List Register) : Prop :=
  ∀ ⦃s : Compilation κ⦄ ⦃a : α⦄ ⦃s' : Compilation κ⦄, Ready s → m s = .ok a s' →
    Advance s s' ∧ ∀ C, s'.out.Grows C → Lowered C phrase s.site (values a) s'.site

/-- A successful step of a compilation advances the routine at hand, and all code that grows out of it
relates the site before the step to the site behind it. -/
def Lays {α : Type} (m : Emit κ α) (R : Code → Site → α → Site → Prop) : Prop :=
  ∀ ⦃s : Compilation κ⦄ ⦃a : α⦄ ⦃s' : Compilation κ⦄, Ready s → m s = .ok a s' →
    Advance s s' ∧ ∀ C, s'.out.Grows C → R C s.site a s'.site

theorem Emits.lays {α : Type} {m : Emit κ α} {ph : Phrase} {v : α → List Register}
    (h : Emits m ph v) : Lays m fun C S a S' => Lowered C ph S (v a) S' := h

namespace Lays

variable {α β : Type} {m : Emit κ α} {k : α → Emit κ β} {R : Code → Site → α → Site → Prop}

theorem pure (a : α) : Lays (Pure.pure a : Emit κ α) fun _ S b S' => b = a ∧ S' = S := by
  intro s b s' hs hrun
  obtain ⟨rfl, rfl⟩ := Emit.pure_ok hrun
  exact ⟨.refl hs, fun _ _ => ⟨rfl, rfl⟩⟩

/-- The first of several steps, and the run of the others. -/
theorem first (hm : Lays m R) {s s' : Compilation κ} {b : β} (hs : Ready s)
    (hrun : (m >>= k) s = .ok b s') : ∃ a s₁, Advance s s₁ ∧
      (∀ C, s₁.out.Grows C → R C s.site a s₁.site) ∧ k a s₁ = .ok b s' := by
  obtain ⟨a, s₁, hrun₁, hrun₂⟩ := Emit.bind_ok hrun
  obtain ⟨hadv, hlow⟩ := hm hs hrun₁
  exact ⟨a, s₁, hadv, hlow, hrun₂⟩

/-- One step after the other, where the second may depend on what the first yields. -/
theorem bind {R' : α → Code → Site → β → Site → Prop} (hm : Lays m R) (hk : ∀ a, Lays (k a) (R' a)) :
    Lays (m >>= k) fun C S b S₂ => ∃ a S₁, R C S a S₁ ∧ R' a C S₁ b S₂ := by
  intro s b s' hs hrun
  obtain ⟨a, s₁, hadv₁, hlow₁, hrun₂⟩ := hm.first hs hrun
  obtain ⟨hadv₂, hlow₂⟩ := hk a hadv₁.ready hrun₂
  exact ⟨hadv₁.trans hadv₂, fun C hC => ⟨a, _, hlow₁ C (hadv₂.grown.code.trans hC), hlow₂ C hC⟩⟩

/-- A step whose code makes up that of a phrase. -/
theorem emits {ph : Phrase} {v : α → List Register} (hm : Lays m R)
    (h : ∀ C S a S', R C S a S' → Lowered C ph S (v a) S') : Emits m ph v := by
  intro s a s' hs hrun
  obtain ⟨hadv, hlow⟩ := hm hs hrun
  exact ⟨hadv, fun C hC => h C _ a _ (hlow C hC)⟩

end Lays

namespace Emits

open Emit

/-! ## 1. Straight code -/

variable {α : Type} {ph : Phrase} {op : BinaryOperator} {lhs rhs n cn bn : Node} {name : String}
  {s s' : Compilation κ} {c : Emit κ Register} {body : Emit κ (Option Register)} {b : Binding}

theorem imp {m : Emit κ α} {ph' : Phrase} {v v' : α → List Register} (hm : Emits m ph v)
    (h : ∀ C S a S₁, Lowered C ph S (v a) S₁ → Lowered C ph' S (v' a) S₁) : Emits m ph' v' :=
  hm.lays.emits h

theorem map {β : Type} {m : Emit κ α} {f : α → β} {v : α → List Register}
    {v' : β → List Register} (hm : Emits m ph v) (h : ∀ a, v' (f a) = v a) : Emits (f <$> m) ph v' := by
  intro s b s' hs hrun
  obtain ⟨a, hrun', rfl⟩ := map_ok hrun
  rw [h a]
  exact hm hs hrun'

theorem define {o : Operation} (hphi : o.isPhi = false) : Emits (define o : Emit κ Register) (.op o) ([·]) := by
  intro s r s' hs hrun
  obtain ⟨rfl, hadv, hsite, hhas⟩ := define_ok hs hrun
  refine ⟨hadv, fun C hC => ?_⟩
  rw [hsite]
  exact .op hphi (hhas C hC)

theorem const (w : Word) : Emits (const w : Emit κ Register) (.op (.const w)) ([·]) := define rfl

theorem store (v a : Register) : Emits (store v a : Emit κ Unit) (.store v a) (fun _ => []) := by
  intro s r s' hs hrun
  obtain ⟨hadv, hsite, hhas⟩ := store_ok hs hrun
  refine ⟨hadv, fun C hC => ?_⟩
  rw [hsite]
  exact .store (hhas C hC)

theorem booleanize (v : Register) : Emits (booleanize v : Emit κ Register) (.booleanize v) ([·]) :=
  ((const 0).lays.bind fun _ => (define rfl).lays).emits
    fun _ _ _ _ ⟨_, _, h₁, h₂⟩ => .booleanize h₁ h₂

theorem logical {a : Arithmetic} (hop : op.logical? = some a) (l r : Register) :
    Emits (combine.logical l r a : Emit κ Register) (.combine op l r) ([·]) :=
  ((booleanize l).lays.bind fun _ => (booleanize r).lays.bind fun _ => (define rfl).lays).emits
    fun _ _ _ _ ⟨_, _, h₁, _, _, h₂, h₃⟩ => .logical hop h₁ h₂ h₃

theorem combine (hop : op ≠ .assign) (l r : Register) :
    Emits (combine op l r : Emit κ Register) (.combine op l r) ([·]) := by
  cases op with
  | assign => exact absurd rfl hop
  | add | sub | mul | div | mod =>
    exact imp (define rfl) fun _ _ _ _ h => .arithmetic rfl h
  | lt | le | gt | ge | eq | ne =>
    exact imp (define rfl) fun _ _ _ _ h => .comparison rfl h
  | and | or => exact logical rfl l r

theorem binary (hop : op ≠ .assign) {l r : Emit κ Register}
    (hl : Emits l (.value lhs) ([·])) (hr : Emits r (.value rhs) ([·])) :
    Emits (Emit.binary op l r) (.node (.binary op lhs rhs)) ([·]) :=
  (hl.lays.bind fun lv => hr.lays.bind fun rv => (combine hop lv rv).lays).emits
    fun _ _ _ _ ⟨_, _, h₁, _, _, h₂, h₃⟩ => .binary hop h₁ h₂ h₃

theorem valueOf {m : Emit κ (Option Register)} (hm : Emits m (.node n) Option.toList) :
    Emits (valueOf m) (.value n) ([·]) := by
  intro s r s' hs hrun
  obtain ⟨x, s₁, hadv₁, hlow₁, hrun₂⟩ := hm.lays.first hs hrun
  cases x with
  | some v =>
    obtain ⟨rfl, rfl⟩ := pure_ok hrun₂
    exact ⟨hadv₁, fun C hC => .value (hlow₁ C hC)⟩
  | none =>
    obtain ⟨hadv₂, hlow₂⟩ := const 0 hadv₁.ready hrun₂
    exact ⟨hadv₁.trans hadv₂, fun C hC => .noValue (hlow₁ C (hadv₂.grown.code.trans hC)) (hlow₂ C hC)⟩

/-! ## 2. Names -/

omit [Target κ] [Target.Faithful κ] in
theorem resolve_ok {x : Meaning} (h : resolve name s = .ok x s') : s' = s ∧
      ((∃ b, s.frame.locals.get? name = some b ∧ x = .variable b) ∨
        (s.frame.locals.get? name = none ∧
          ∃ w, s.globals.constant? name = some w ∧ x = .constant w)) := by
  replace h := get_ok h
  cases hb : s.frame.locals.get? name with
  | some b =>
    rw [hb] at h
    obtain ⟨rfl, rfl⟩ := pure_ok h
    exact ⟨rfl, .inl ⟨b, rfl, rfl⟩⟩
  | none =>
    rw [hb] at h
    cases hw : s.globals.constant? name with
    | some w =>
      rw [hw] at h
      obtain ⟨rfl, rfl⟩ := pure_ok h
      exact ⟨rfl, .inr ⟨rfl, w, rfl, rfl⟩⟩
    | none =>
      rw [hw] at h
      exact absurd h throw_ok

omit [Target κ] [Target.Faithful κ] in
theorem scalarSlot_ok {slot : Register} (h : scalarSlot name s = .ok slot s') :
    s' = s ∧ s.frame.locals.get? name = some ⟨slot, .scalar⟩ := by
  obtain ⟨x, s₁, hresolve, h⟩ := bind_ok h
  obtain ⟨rfl, ⟨b, hb, rfl⟩ | ⟨-, w, -, rfl⟩⟩ := resolve_ok hresolve
  · obtain ⟨slot', shape⟩ := b
    cases shape with
    | scalar =>
      obtain ⟨rfl, rfl⟩ := pure_ok h
      exact ⟨rfl, hb⟩
    | array => exact absurd h throw_ok
  · exact absurd h throw_ok

theorem scalarSlot (name : String) : Emits (scalarSlot name : Emit κ Register) (.target (.ident name)) ([·]) := by
  intro s slot s' hs hrun
  obtain ⟨rfl, hb⟩ := scalarSlot_ok hrun
  exact ⟨.refl hs, fun C _ => .targetVariable hb⟩

theorem elementSlot {index : Node} {i : Emit κ Register} (hi : Emits i (.value index) ([·])) :
    Emits (elementSlot name i) (.target (.element name index)) ([·]) := by
  intro s r s' hs hrun
  obtain ⟨x, s₁, hresolve, hrun⟩ := bind_ok hrun
  obtain ⟨rfl, ⟨b, hb, rfl⟩ | ⟨-, w, -, rfl⟩⟩ := resolve_ok hresolve
  · obtain ⟨slot, shape⟩ := b
    cases shape with
    | scalar => exact absurd hrun throw_ok
    | array =>
      obtain ⟨hadv, hlow⟩ := (hi.lays.bind fun _ => (define rfl).lays) hs hrun
      refine ⟨hadv, fun C hC => ?_⟩
      obtain ⟨iv, S₁, h₁, h₂⟩ := hlow C hC
      exact .targetElement hb h₁ h₂
  · exact absurd hrun throw_ok

theorem readName (name : String) : Emits (readName name : Emit κ Register) (.node (.ident name)) ([·]) := by
  intro s r s' hs hrun
  obtain ⟨x, s₁, hresolve, hrun⟩ := bind_ok hrun
  obtain ⟨rfl, ⟨b, hb, rfl⟩ | ⟨hb, w, hw, rfl⟩⟩ := resolve_ok hresolve
  · obtain ⟨slot, shape⟩ := b
    cases shape with
    | scalar =>
      obtain ⟨hadv, hlow⟩ := define rfl hs hrun
      exact ⟨hadv, fun C hC => .readVariable hb (hlow C hC)⟩
    | array => exact absurd hrun throw_ok
  · obtain ⟨hadv, hlow⟩ := const w hs hrun
    exact ⟨hadv, fun C hC => .readConstant hb hw (hlow C hC)⟩

theorem declareConstant (name : String) (w : Word) :
    Emits (declareConstant name w : Emit κ Unit) (.node (.constantDecl name w)) (fun _ => []) := by
  intro s u s' hs hrun
  replace hrun := get_ok hrun
  cases hg : s.globals.defineConstant? name w with
  | none =>
    rw [hg] at hrun
    exact absurd hrun throw_ok
  | some g =>
    rw [hg] at hrun
    cases hrun
    have hsub := Globals.subprogram?_defineConstant? hg
    exact ⟨hs.names rfl rfl rfl rfl rfl hsub, fun C _ => .constantDecl hg⟩

theorem declare (kind : SymbolKind) (name : String) (b : Binding) :
    Lays (declare kind name b : Emit κ Unit) fun _ S _ S' =>
      ∃ l, S.locals.declare? name b = some l ∧ S' = { S with locals := l } := by
  intro s u s' hs hrun
  replace hrun := get_ok hrun
  cases hl : s.frame.locals.declare? name b with
  | none =>
    rw [hl] at hrun
    exact absurd hrun throw_ok
  | some l =>
    rw [hl] at hrun
    cases hrun
    exact ⟨hs.names rfl rfl rfl rfl rfl (fun _ => rfl), fun C _ => ⟨l, hl, rfl⟩⟩

theorem declareVariable (d : VariableDecl) :
    Emits (declareVariable d : Emit κ Unit) (.node (.variableDecl d)) (fun _ => []) := by
  unfold Emit.declareVariable
  split
  · next hd =>
    refine ((define rfl).lays.bind fun cells => (const d.offset).lays.bind fun bias =>
      (define rfl).lays.bind fun slot => declare _ _ _).emits ?_
    rintro C S u S' ⟨cells, S₁, h₁, bias, S₂, h₂, slot, S₃, h₃, l, hl, rfl⟩
    exact .arrayDecl hd h₁ h₂ h₃ hl
  · next hd =>
    refine ((define rfl).lays.bind fun slot => declare _ _ _).emits ?_
    rintro C S u S' ⟨slot, S₁, h₁, l, hl, rfl⟩
    exact .scalarDecl (by simpa using hd) h₁ hl

theorem assignment {v slot : Emit κ Register} (hv : Emits v (.value rhs) ([·]))
    (hslot : Emits slot (.target lhs) ([·])) : Emits (assignment v slot) (.node (.binary .assign lhs rhs)) ([·]) := by
  refine (hv.lays.bind fun r => hslot.lays.bind fun a => (store r a).lays.bind fun _ => .pure r).emits ?_
  rintro C S x S' ⟨r, S₁, h₁, a, S₂, h₂, u, S₃, h₃, rfl, rfl⟩
  exact .assign h₁ h₂ h₃

theorem intrinsic (which : Intrinsic) (name : String) :
    Emits (intrinsic which name : Emit κ Register) (.node (.intrinsic which name)) ([·]) := by
  intro s r s' hs hrun
  obtain ⟨slot, s₁, hslot, hrun'⟩ := bind_ok hrun
  obtain ⟨rfl, hb⟩ := scalarSlot_ok hslot
  obtain ⟨hadv, hlow⟩ := define rfl hs hrun'
  exact ⟨hadv, fun C hC => .intrinsic hb (hlow C hC)⟩

theorem call {callee : String} {nodes : List Node} {args : Emit κ (List Register)}
    (hargs : Emits args (.arguments nodes) id) :
    Emits (call callee nodes.length args) (.node (.call callee nodes)) ([·]) := by
  intro s r s' hs hrun
  replace hrun := get_ok hrun
  cases hentry : s.globals.subprogram? callee with
  | none =>
    rw [hentry] at hrun
    exact absurd hrun throw_ok
  | some entry =>
    rw [hentry] at hrun
    dsimp only at hrun
    split at hrun
    · obtain ⟨u, s₂, hthrow, -⟩ := bind_ok hrun
      exact absurd hthrow throw_ok
    · next harity =>
      obtain ⟨hadv, hlow⟩ := (hargs.lays.bind fun _ => (define rfl).lays) hs hrun
      refine ⟨hadv, fun C hC => ?_⟩
      obtain ⟨rs, S₁, h₁, h₂⟩ := hlow C hC
      -- the routine is registered by its name, with as many parameters as there are arguments
      obtain ⟨R, hR, hname, hparams, -⟩ := hs.registry.known callee entry hentry
      have hheading : s.out.heading? entry.routine = some (callee, R.params) := by
        unfold Code.heading?
        rw [hR, Option.map_some, hname]
      exact .call hentry ((hadv.grown.code.trans hC).heading _ _ hheading)
        (hparams.trans (not_not.mp harity)) h₁ h₂

theorem resultValue : Emits (resultValue : Emit κ Register) .result ([·]) := by
  intro s r s' hs hrun
  replace hrun := get_ok hrun
  cases hb : s.frame.resultName.bind s.frame.locals.get? with
  | some b =>
    rw [hb] at hrun
    obtain ⟨hadv, hlow⟩ := define rfl hs hrun
    exact ⟨hadv, fun C hC => .resultVariable hb (hlow C hC)⟩
  | none =>
    rw [hb] at hrun
    obtain ⟨hadv, hlow⟩ := const 0 hs hrun
    exact ⟨hadv, fun C hC => .resultZero hb (hlow C hC)⟩

/-! ## 3. Control -/

/-- The three blocks that a conditional or a loop adds before anything else. -/
theorem fork_ok {α : Type} {l₁ l₂ l₃ : String} {k : BlockRef → BlockRef → BlockRef → Emit κ α} {a : α} (hs : Ready s)
    (hrun : (addBlock l₁ >>= fun b₁ => addBlock l₂ >>= fun b₂ => addBlock l₃ >>= fun b₃ => k b₁ b₂ b₃) s = .ok a s') :
    ∃ s₃, Advance s s₃ ∧ s₃.site = s.site.grow 3 ∧ Waiting s₃ s.site.blocks ∧ Waiting s₃ (s.site.blocks + 1) ∧
      Waiting s₃ (s.site.blocks + 2) ∧ k (s.site.ref s.site.blocks) (s.site.ref (s.site.blocks + 1))
        (s.site.ref (s.site.blocks + 2)) s₃ = .ok a s' := by
  obtain ⟨b₁, s₁, h₁, hrun⟩ := bind_ok hrun
  obtain ⟨b₂, s₂, h₂, hrun⟩ := bind_ok hrun
  obtain ⟨b₃, s₃, h₃, hrun⟩ := bind_ok hrun
  obtain ⟨rfl, hadv₁, hsite₁, hw₁⟩ := addBlock_ok hs h₁
  obtain ⟨rfl, hadv₂, hsite₂, hw₂⟩ := addBlock_ok hadv₁.ready h₂
  obtain ⟨rfl, hadv₃, hsite₃, hw₃⟩ := addBlock_ok hadv₂.ready h₃
  rw [hsite₁] at hsite₂ hw₂ hrun
  rw [hsite₂] at hsite₃ hw₃ hrun
  exact ⟨s₃, hadv₁.trans (hadv₂.trans hadv₃), hsite₃, hw₁.advance (hadv₂.trans hadv₃), hw₂.advance hadv₃, hw₃, hrun⟩

theorem conditional {tn en : Node} {t e : Emit κ Register} (hc : Emits c (.value cn) ([·]))
    (ht : Emits t (.value tn) ([·])) (he : Emits e (.value en) ([·])) :
    Emits (conditional c t e) (.node (.conditional cn tn en)) ([·]) := by
  intro s r s' hs hrun
  obtain ⟨cv, s₁, hadv₁, hlow₁, hrun⟩ := hc.lays.first hs hrun
  obtain ⟨b, s₂, hadv₂, hlow₂, hrun⟩ := (booleanize cv).lays.first hadv₁.ready hrun
  obtain ⟨s₅, hadv₃, hsite₃, hthen, helse, hmerge, hrun⟩ := fork_ok hadv₂.ready hrun
  -- the branch, and the first arm
  obtain ⟨s₆, hj₁, hrun⟩ := jump_ok hadv₃.ready hthen (hadv₃.grown.ref _).symm hrun
  obtain ⟨tv, s₇, hadv₄, hlow₄, hrun⟩ := ht.lays.first hj₁.ready hrun
  have hgrown₄ := (hj₁.grown hadv₃.grown (Nat.le_refl _)).trans hadv₄.grown
  replace helse := (hj₁.waiting helse (by omega)).advance hadv₄
  replace hmerge := (hj₁.waiting hmerge (by omega)).advance hadv₄
  -- the second arm
  obtain ⟨tend, s₈, hcur, hrun⟩ := bind_ok hrun
  cases hcur
  obtain ⟨s₉, hj₂, hrun⟩ := jump_ok hadv₄.ready helse (hgrown₄.ref _).symm hrun
  obtain ⟨ev, s₁₀, hadv₅, hlow₅, hrun⟩ := he.lays.first hj₂.ready hrun
  have hgrown₅ := (hj₂.grown hgrown₄ (Nat.le_add_right _ _)).trans hadv₅.grown
  replace hmerge := (hj₂.waiting hmerge (by omega)).advance hadv₅
  -- the merge
  obtain ⟨eend, s₁₁, hcur, hrun⟩ := bind_ok hrun
  cases hcur
  obtain ⟨s₁₂, hj₃, hrun⟩ := jump_ok hadv₅.ready hmerge (hgrown₅.ref _).symm hrun
  obtain ⟨rfl, hadv₆, hsite₆, hhas⟩ := define_ok hj₃.ready hrun
  have hgrown₆ := (hj₃.grown hgrown₅ (Nat.le_add_right _ _)).trans hadv₆.grown
  refine ⟨hadv₁.trans (hadv₂.trans ⟨hadv₆.ready, hgrown₆⟩), fun C hC => ?_⟩
  -- all that the states on the way have, the code has that grows out of the last one
  have hC₁₂ := hadv₆.grown.code.trans hC
  have hC₁₀ := hj₃.code hC₁₂
  have hC₉ := hadv₅.grown.code.trans hC₁₀
  have hC₇ := hj₂.code hC₉
  have hC₆ := hadv₄.grown.code.trans hC₇
  have hC₂ := hadv₃.grown.code.trans (hj₁.code hC₆)
  have hfork := hj₁.ends hC₆
  have ht' := hlow₄ C hC₇
  have he' := hlow₅ C hC₁₀
  have hphi := hhas C hC
  rw [hj₁.site, hsite₃] at ht'
  rw [hj₂.site] at he'
  rw [hsite₃] at hfork
  rw [hj₃.site, ← hadv₄.ready.place_eq, ← hadv₅.ready.place_eq] at hphi
  rw [hsite₆, hj₃.site]
  change Lowered C _ _ [s₁₀.site.registers] _
  exact .conditional (hlow₁ C (hadv₂.grown.code.trans hC₂)) (hlow₂ C hC₂) hfork ht' (hj₂.ends hC₉) he'
    (hj₃.ends hC₁₂) hphi

theorem whileLoop (hc : Emits c (.value cn) ([·])) (hbody : Emits body (.node bn) Option.toList) :
    Emits (whileLoop c body) (.node (.whileLoop cn bn)) ([·]) := by
  intro s r s' hs hrun
  obtain ⟨s₃, hadv₁, hsite₁, htest, hround, hafter, hrun⟩ := fork_ok hs hrun
  -- the test
  obtain ⟨s₄, hj₁, hrun⟩ := jump_ok hadv₁.ready htest (hadv₁.grown.ref _).symm hrun
  obtain ⟨cv, s₅, hadv₂, hlow₂, hrun⟩ := hc.lays.first hj₁.ready hrun
  obtain ⟨b, s₆, hadv₃, hlow₃, hrun⟩ := (booleanize cv).lays.first hadv₂.ready hrun
  have hgrown₃ := (hj₁.grown hadv₁.grown (Nat.le_refl _)).trans (hadv₂.trans hadv₃).grown
  replace hround := (hj₁.waiting hround (by omega)).advance (hadv₂.trans hadv₃)
  replace hafter := (hj₁.waiting hafter (by omega)).advance (hadv₂.trans hadv₃)
  -- the body
  obtain ⟨s₇, hj₂, hrun⟩ := jump_ok hadv₃.ready hround (hgrown₃.ref _).symm hrun
  obtain ⟨v, s₈, hadv₄, hlow₄, hrun⟩ := hbody.lays.first hj₂.ready hrun
  have hgrown₄ := (hj₂.grown hgrown₃ (Nat.le_add_right _ _)).trans hadv₄.grown
  replace hafter := (hj₂.waiting hafter (by omega)).advance hadv₄
  -- behind the loop
  obtain ⟨s₉, hj₃, hrun⟩ := jump_ok hadv₄.ready hafter (hgrown₄.ref _).symm hrun
  obtain ⟨hadv₅, hlow₅⟩ := const 0 hj₃.ready hrun
  have hgrown₅ := (hj₃.grown hgrown₄ (Nat.le_add_right _ _)).trans hadv₅.grown
  refine ⟨⟨hadv₅.ready, hgrown₅⟩, fun C hC => ?_⟩
  -- all that the states on the way have, the code has that grows out of the last one
  have hC₉ := hadv₅.grown.code.trans hC
  have hC₈ := hj₃.code hC₉
  have hC₇ := hadv₄.grown.code.trans hC₈
  have hC₆ := hj₂.code hC₇
  have hC₅ := hadv₃.grown.code.trans hC₆
  have hstart := hj₁.ends (hadv₂.grown.code.trans hC₅)
  have hc' := hlow₂ C hC₅
  have hbody' := hlow₄ C hC₈
  have hlast := hlow₅ C hC
  rw [hsite₁] at hstart
  rw [hj₁.site, hsite₁] at hc'
  rw [hj₂.site] at hbody'
  rw [hj₃.site] at hlast
  exact .whileLoop hstart hc' (hlow₃ C hC₆) (hj₂.ends hC₇) hbody' (hj₃.ends hC₉) hlast

omit [Target κ] [Target.Faithful κ] in
theorem loopVariable_ok (h : loopVariable name s = .ok b s') :
    s' = s ∧ b.shape = .scalar ∧ s.frame.locals.get? name = some b := by
  obtain ⟨x, s₁, hresolve, h⟩ := bind_ok h
  obtain ⟨rfl, ⟨b', hb, rfl⟩ | ⟨-, w, -, rfl⟩⟩ := resolve_ok hresolve
  · obtain ⟨slot, shape⟩ := b'
    cases shape with
    | scalar =>
      obtain ⟨rfl, rfl⟩ := pure_ok h
      exact ⟨rfl, rfl, hb⟩
    | array => exact absurd h throw_ok
  · exact absurd h throw_ok

/-- While the body of a counting loop is compiled, the loop variable is held. -/
theorem holding (hbody : Emits body (.node n) Option.toList) : Lays (holding name b body) fun C S _ S' => ∃ rs S₁,
      Lowered C (.node n) { S with locals := (S.locals.shadow name b).2 } rs S₁ ∧
      S' = { S₁ with locals := S₁.locals.restore name (S.locals.shadow name b).1 } := by
  intro s u s' hs hrun
  obtain ⟨saved, s₁, hrun₁, hrun⟩ := bind_ok hrun
  cases hrun₁
  have hadv₁ : Advance s { s with frame := { s.frame with
      locals := (s.frame.locals.shadow name b).2 } } :=
    hs.names rfl rfl rfl rfl rfl (fun _ => rfl)
  obtain ⟨v, s₂, hadv₂, hlow, hrun⟩ := hbody.lays.first hadv₁.ready hrun
  cases hrun
  have hadv₃ : Advance s₂ { s₂ with frame := { s₂.frame with
      locals := s₂.frame.locals.restore name (s.frame.locals.shadow name b).1 } } :=
    hadv₂.ready.names rfl rfl rfl rfl rfl (fun _ => rfl)
  exact ⟨hadv₁.trans (hadv₂.trans hadv₃), fun C hC => ⟨_, _, hlow C hC, rfl⟩⟩

theorem forLoop {dir : Direction} {an zn : Node} {a z : Emit κ Register}
    (ha : Emits a (.value an) ([·])) (hz : Emits z (.value zn) ([·])) (hbody : Emits body (.node bn) Option.toList) :
    Emits (forLoop name dir a z body) (.node (.forLoop name dir an zn bn)) ([·]) := by
  intro s r s' hs hrun
  obtain ⟨⟨slot, shape⟩, s₀, hvar, hrun⟩ := bind_ok hrun
  obtain ⟨rfl, hshape, hv⟩ := loopVariable_ok hvar
  obtain rfl : shape = .scalar := hshape
  obtain ⟨av, s₁, hadv₁, hlow₁, hrun⟩ := ha.lays.first hs hrun
  obtain ⟨u, s₂, hadv₂, hlow₂, hrun⟩ := (store av slot).lays.first hadv₁.ready hrun
  obtain ⟨zv, s₃, hadv₃, hlow₃, hrun⟩ := hz.lays.first hadv₂.ready hrun
  obtain ⟨st, s₄, hadv₄, hlow₄, hrun⟩ := (const dir.step).lays.first hadv₃.ready hrun
  obtain ⟨s₇, hadv₅, hsite₅, htest, hround, hafter, hrun⟩ := fork_ok hadv₄.ready hrun
  -- the test before the first round
  obtain ⟨s₈, hj₁, hrun⟩ := jump_ok hadv₅.ready htest (hadv₅.grown.ref _).symm hrun
  obtain ⟨c₁, s₉, hadv₆, hlow₆, hrun⟩ := (define rfl).lays.first hj₁.ready hrun
  obtain ⟨t₁, s₁₀, hadv₇, hlow₇, hrun⟩ := (define rfl).lays.first hadv₆.ready hrun
  have hgrown₇ := (hj₁.grown hadv₅.grown (Nat.le_refl _)).trans (hadv₆.trans hadv₇).grown
  replace hround := (hj₁.waiting hround (by omega)).advance (hadv₆.trans hadv₇)
  replace hafter := (hj₁.waiting hafter (by omega)).advance (hadv₆.trans hadv₇)
  -- a round, and the step behind it
  obtain ⟨s₁₁, hj₂, hrun⟩ := jump_ok hadv₇.ready hround (hgrown₇.ref _).symm hrun
  obtain ⟨u', s₁₂, hadv₈, hlow₈, hrun⟩ := (holding hbody).first hj₂.ready hrun
  obtain ⟨c₂, s₁₃, hadv₉, hlow₉, hrun⟩ := (define rfl).lays.first hadv₈.ready hrun
  obtain ⟨n, s₁₄, hadv₁₀, hlow₁₀, hrun⟩ := (define rfl).lays.first hadv₉.ready hrun
  obtain ⟨u'', s₁₅, hadv₁₁, hlow₁₁, hrun⟩ := (store n slot).lays.first hadv₁₀.ready hrun
  obtain ⟨t₂, s₁₆, hadv₁₂, hlow₁₂, hrun⟩ := (define rfl).lays.first hadv₁₁.ready hrun
  have hadvRound := hadv₈.trans (hadv₉.trans (hadv₁₀.trans (hadv₁₁.trans hadv₁₂)))
  have hgrown₁₂ := (hj₂.grown hgrown₇ (Nat.le_add_right _ _)).trans hadvRound.grown
  replace hafter := (hj₂.waiting hafter (by omega)).advance hadvRound
  -- behind the loop
  obtain ⟨s₁₇, hj₃, hrun⟩ := jump_ok hadv₁₂.ready hafter (hgrown₁₂.ref _).symm hrun
  obtain ⟨hadv₁₃, hlow₁₃⟩ := const 0 hj₃.ready hrun
  have hgrown₁₃ := (hj₃.grown hgrown₁₂ (Nat.le_add_right _ _)).trans hadv₁₃.grown
  refine ⟨hadv₁.trans (hadv₂.trans (hadv₃.trans (hadv₄.trans ⟨hadv₁₃.ready, hgrown₁₃⟩))),
    fun C hC => ?_⟩
  -- all that the states on the way have, the code has that grows out of the last one
  have hC₁₇ := hadv₁₃.grown.code.trans hC
  have hC₁₆ := hj₃.code hC₁₇
  have hC₁₅ := hadv₁₂.grown.code.trans hC₁₆
  have hC₁₄ := hadv₁₁.grown.code.trans hC₁₅
  have hC₁₃ := hadv₁₀.grown.code.trans hC₁₄
  have hC₁₂ := hadv₉.grown.code.trans hC₁₃
  have hC₁₁ := hadv₈.grown.code.trans hC₁₂
  have hC₁₀ := hj₂.code hC₁₁
  have hC₉ := hadv₇.grown.code.trans hC₁₀
  have hC₈ := hadv₆.grown.code.trans hC₉
  have hC₄ := hadv₅.grown.code.trans (hj₁.code hC₈)
  have hC₃ := hadv₄.grown.code.trans hC₄
  have hC₂ := hadv₃.grown.code.trans hC₃
  have hjump := hj₁.ends hC₈
  have hfirst := hlow₆ C hC₉
  have hlast := hlow₁₃ C hC
  obtain ⟨rs, S, hround', hsite⟩ := hlow₈ C hC₁₂
  have hload := hlow₉ C hC₁₃
  rw [hsite₅] at hjump
  rw [hj₁.site, hsite₅] at hfirst
  rw [hj₂.site] at hround' hsite
  rw [hsite] at hload
  rw [hj₃.site] at hlast
  exact .forLoop hv (hlow₁ C (hadv₂.grown.code.trans hC₂)) (hlow₂ C hC₂) (hlow₃ C hC₃) (hlow₄ C hC₄)
    hjump hfirst (hlow₇ C hC₁₀) (hj₂.ends hC₁₁) hround' hload (hlow₁₀ C hC₁₄) (hlow₁₁ C hC₁₅)
    (hlow₁₂ C hC₁₆) (hj₃.ends hC₁₇) hlast

/-- A value is noted to be carried to the return block. -/
theorem left_ok (hs : Ready s) (v : Register) : Advance s (s.left v) ∧ (s.left v).site = s.site.leave v := by
  refine ⟨hs.names rfl rfl rfl rfl rfl (fun _ => rfl), ?_⟩
  unfold Site.leave
  rw [hs.place_eq]
  rfl

theorem exit : Emits (exit : Emit κ Register) (.node .exit) ([·]) := by
  intro s r s' hs hrun
  obtain ⟨v, s₁, hadv₁, hlow₁, hrun⟩ := resultValue.lays.first hs hrun
  obtain ⟨u, s₂, hleave, hrun⟩ := bind_ok hrun
  obtain rfl := leave_ok hleave
  obtain ⟨hadv₂, hsite₂⟩ := left_ok hadv₁.ready v
  obtain ⟨after, s₃, hadd, hrun⟩ := bind_ok hrun
  -- the block ends with a jump, and a new one is begun that nothing leads to
  obtain ⟨hadv₃, hsite₃, hblocks, hends⟩ :=
    hadv₂.ready.restart (.jump s₁.frame.returnBlock) "afterexit"
  obtain ⟨hafter, rfl⟩ := addBlock_run hadd
  rw [hblocks] at hafter
  subst hafter
  obtain ⟨hadv₄, hlow₄⟩ := const 0 hadv₃.ready hrun
  refine ⟨hadv₁.trans (hadv₂.trans (hadv₃.trans hadv₄)), fun C hC => ?_⟩
  have hC₃ := hadv₄.grown.code.trans hC
  have hC₁ := (hadv₂.trans hadv₃).grown.code.trans hC₃
  have hleave := hends C hC₃
  have hlast := hlow₄ C hC
  rw [hsite₃, hsite₂] at hlast
  rw [hsite₂, hadv₁.ready.returnBlock] at hleave
  exact .exit (hlow₁ C hC₁) hleave hlast

/-! ## 4. Subprograms -/

theorem parameters (index : Nat) (names : List String) :
    Emits (parameters index names : Emit κ Unit) (.parameters index names) (fun _ => []) := by
  induction names generalizing index with
  | nil =>
    refine (Lays.pure ()).emits ?_
    rintro C S u S' ⟨-, rfl⟩
    exact .parametersNil
  | cons name names ih =>
    refine ((define rfl).lays.bind fun slot => (define rfl).lays.bind fun v =>
      (store v slot).lays.bind fun _ => (declare _ _ _).bind fun _ => (ih (index + 1)).lays).emits ?_
    rintro C S u S' ⟨slot, S₁, h₁, v, S₂, h₂, _, S₃, h₃, _, S₄, ⟨l, hl, rfl⟩, hrest⟩
    exact .parametersCons h₁ h₂ h₃ hl hrest

end Emits

variable {s : Compilation κ} {p : Prototype} {g : Nat} {name : String} {params : List String}

/-- Ending the return block completes the routine. -/
theorem Open.complete (h : Open s) (hplace : s.frame.block = ⟨s.frame.routine, 1⟩)
    (e : Exit) {C : Code} (hC : (s.closed e).out.Grows C) :
    C.blocksOf s.frame.routine = s.site.blocks ∧ C.registersOf s.frame.routine = s.site.registers ∧
      C.Ends s.site e := by
  obtain ⟨-, -, -, -, -, hblocks, hregisters, hends⟩ := h.closed e
  obtain ⟨b, hb, -, he⟩ := hends _ (.refl _)
  rw [h.place_eq, hplace] at hb
  have hroutine := hC.complete _ b hb (by rw [he]; rfl)
  refine ⟨?_, ?_, hends C hC⟩
  · rw [Code.blocksOf_congr hroutine, hblocks]
    rfl
  · rw [Code.registersOf_eq, hroutine, ← Code.registersOf_eq, hregisters]
    rfl

/-- How completing a routine changes the state. -/
structure Sealed (s s' : Compilation κ) : Prop where
  intact : Intact s'.code
  globals : s'.globals = s.globals
  registry : Registry s.globals s'.out
  grows : s.out.Grows s'.out
  others : ∀ g, g ≠ s.frame.routine → s.Settled g → s'.out.routines[g]? = s.out.routines[g]?

namespace Emit

variable {s s' : Compilation κ} {returns : List (Register × BlockRef)} {u : Unit}

theorem sealed_closed (h : Open s) (e : Exit) : Sealed s (s.closed e) := by
  obtain ⟨hgrown, hintact, hregistry, -, hothers, -⟩ := h.closed e
  exact ⟨hintact, rfl, hregistry, hgrown.code, fun g hg _ => hothers g hg⟩

/-- The code of a return block that merges values. -/
theorem merge_ok (h : Open s) (hplace : s.frame.block = ⟨s.frame.routine, 1⟩) (hindex : s.site.index = 0)
    (hrun : (do let value ← define (.phi returns); terminate (.ret value)) s = .ok u s') :
    Sealed s s' ∧ ∀ C, s'.out.Grows C → C.blocksOf s.frame.routine = s.site.blocks ∧
      C.registersOf s.frame.routine = s.site.registers + 1 ∧
      ∃ b, C.block? ⟨s.frame.routine, 1⟩ = some b ∧
        b.body = #[.define s.site.registers (.phi returns)] ∧
        b.exit = some (.ret s.site.registers) := by
  obtain ⟨r, s₁, hrun₁, hrun₂⟩ := bind_ok hrun
  obtain ⟨rfl, hopen, hgrown, hsite, hhas⟩ := define_open h hrun₁
  have hs' : s' = s₁.closed (.ret s.site.registers) := by
    injection hrun₂ with _ h₂
    exact h₂.symm
  subst hs'
  have hsealed := sealed_closed hopen (.ret s.site.registers)
  -- defining a register changes nothing but the code
  obtain ⟨hframe, hglobals⟩ : s₁.frame = s.frame ∧ s₁.globals = s.globals := by
    injection hrun₁ with _ h₂
    rw [← h₂]
    exact ⟨rfl, rfl⟩
  refine ⟨⟨hsealed.intact, hglobals, hglobals ▸ hsealed.registry, hgrown.code.trans hsealed.grows, ?_⟩, fun C hC => ?_⟩
  · intro g hg hb
    refine (hsealed.others g ?_ (hgrown.settled g hb)).trans (hgrown.others g hg hb)
    rw [hframe]
    exact hg
  · -- the merge is all there is in the block, as it was empty before
    obtain ⟨hblocks, hregisters, b, hb, hsize, he⟩ := hopen.complete (by rw [hframe, hplace]) _ hC
    obtain ⟨b', hb', hget⟩ := hhas C (hsealed.grows.trans hC)
    rw [hframe, hsite] at hblocks hregisters
    rw [hsite] at hb hsize
    change C.block? s.site.place = some b at hb
    rw [hb] at hb'
    obtain rfl := Option.some.inj hb'
    refine ⟨hblocks, hregisters, b, ?_, ?_, he⟩
    · rw [← hplace, ← h.place_eq]
      exact hb
    · rw [hindex] at hget
      change b.body.size = s.site.index + 1 at hsize
      rw [hindex] at hsize
      obtain ⟨i, hi⟩ := Array.size_eq_one_iff.mp hsize
      rw [hi] at hget ⊢
      have hmerge : i = _ := Option.some.inj hget
      rw [hmerge]

/-- The return block that the given ways to leave a routine call for. -/
theorem returns_ok (h : Open s) (hplace : s.frame.block = ⟨s.frame.routine, 1⟩) (hindex : s.site.index = 0)
    (hrun : (match returns with
      | [(value, _)] => terminate (.ret value)
      | returns => do
        let value ← define (.phi returns)
        terminate (.ret value)) s = .ok u s') :
    Sealed s s' ∧ ∀ C, s'.out.Grows C → C.blocksOf s.frame.routine = s.site.blocks ∧
      C.Returns s.frame.routine s.site.registers returns := by
  rcases returns with _ | ⟨⟨value, origin⟩, _ | ⟨second, rest⟩⟩
  · obtain ⟨hsealed, hcode⟩ := merge_ok h hplace hindex hrun
    exact ⟨hsealed, hcode⟩
  · -- a single value is returned as it is
    have hs' : s' = s.closed (.ret value) := by
      injection hrun with _ h₂
      exact h₂.symm
    subst hs'
    refine ⟨sealed_closed h _, fun C hC => ?_⟩
    obtain ⟨hblocks, hregisters, b, hb, hsize, he⟩ := h.complete hplace _ hC
    rw [h.place_eq, hplace] at hb
    exact ⟨hblocks, hregisters, b, hb, Array.eq_empty_of_size_eq_zero (hsize.trans hindex), he⟩
  · obtain ⟨hsealed, hcode⟩ := merge_ok h hplace hindex hrun
    exact ⟨hsealed, hcode⟩

theorem finish_ok {v : Register} (hs : Ready s) (hrun : finish v s = .ok u s') :
    Sealed s s' ∧ ∀ C, s'.out.Grows C → C.Finishes s.site v := by
  obtain ⟨u, s₁, hleave, hrun⟩ := bind_ok hrun
  obtain rfl := leave_ok hleave
  replace hrun := get_ok hrun
  obtain ⟨u, s₂, hmove, hrun⟩ := bind_ok hrun
  cases hmove
  obtain ⟨hadv₁, hsite₁⟩ := Emits.left_ok hs v
  obtain ⟨hopen, hsite⟩ := hadv₁.ready.goOn hadv₁.ready.last (Ne.symm hadv₁.ready.notReturn)
    (.jump s.frame.returnBlock)
  have hsealed := sealed_closed hadv₁.ready.toOpen (.jump s.frame.returnBlock)
  obtain ⟨-, -, -, -, -, -, -, hends⟩ := hadv₁.ready.closed (.jump s.frame.returnBlock)
  have hplace : (s.left v).site.ref 1 = s.frame.returnBlock := hs.returnBlock.symm
  rw [hplace] at hopen hsite
  obtain ⟨hsealed', hreturns⟩ := returns_ok hopen (hs.returnBlock) (by rw [hsite]; rfl) hrun
  rw [hsite, hsite₁] at hreturns
  refine ⟨⟨hsealed'.intact, hsealed'.globals, hsealed'.registry, ?_, ?_⟩, fun C hC => ?_⟩
  · exact hsealed.grows.trans hsealed'.grows
  · intro g hg hb
    exact (hsealed'.others g hg hb).trans (hsealed.others g hg hb)
  · obtain ⟨hblocks, hret⟩ := hreturns C hC
    change C.Returns _ _ (s.left v).site.returns at hret
    rw [hsite₁] at hret
    have hend := hends C (hsealed'.grows.trans hC)
    rw [hsite₁, hs.returnBlock] at hend
    exact ⟨hend, hblocks, hret⟩

end Emit

/-- A step that leaves all that is defined alone, and so the routine at hand. -/
theorem Ready.elsewhere {s' : Compilation κ} (h : Ready s) (hframe : s'.frame = s.frame)
    (hintact : Intact s'.code) (hregistry : Registry s'.globals s'.out) (hgrows : s.out.Grows s'.out)
    (hsettled : ∀ g, s.Settled g → s'.Settled g)
    (hsame : ∀ g, s.Settled g → s'.out.routines[g]? = s.out.routines[g]?) :
    Advance s s' ∧ s'.site = { s.site with globals := s'.globals } := by
  -- the routine at hand is settled, so all of its blocks are as before
  have hroutine := hsame s.frame.routine h.settled
  have hblock : ∀ x, s'.out.block? ⟨s.frame.routine, x⟩ = s.out.block? ⟨s.frame.routine, x⟩ :=
    fun x => Code.block?_congr hroutine
  have hplace : s'.out.block? s.frame.block = s.out.block? s.frame.block := by
    apply Code.block?_congr
    rw [h.routine]
    exact hroutine
  have hblocks := Code.blocksOf_congr hroutine
  have hgrown : Grown s s' := by
    refine ⟨hgrows, ?_, ?_, ?_, .inl ?_, hblocks.ge, fun x _ _ => hblock x,
      fun g _ hb => hsame g hb, hsettled⟩ <;> rw [hframe]
  have hopen : Open s' := by
    refine ⟨hintact, ?_, ?_, ?_, hregistry⟩
    · rw [hframe]
      exact h.routine
    · rw [hframe, hplace]
      exact h.current
    · rw [hframe, hblock]
      exact h.unfinished
  refine ⟨⟨h.of_grown hopen hgrown, hgrown⟩, ?_⟩
  have hindex : s'.index = s.index := by
    unfold Compilation.index
    rw [hframe, hplace]
  unfold Compilation.site
  rw [hframe, hindex, hblocks, Code.registersOf_eq, hroutine, ← Code.registersOf_eq]

namespace Emit

variable {s s' : Compilation κ} {p : Prototype} {g : Nat}

/-- A routine for a new subprogram. -/
theorem addRoutine_ok (hrun : addRoutine p s = .ok g s') : g = s.out.routines.size ∧ s'.frame = s.frame ∧
      s'.globals = s.globals ∧ (Intact s.code → Intact s'.code) ∧
      s'.out = (s.out.addRoutine p.name p.params).2 := by
  obtain ⟨hg, rfl⟩ : g = (Target.addRoutine s.code p.name p.params).1 ∧
      s' = { s with code := (Target.addRoutine s.code p.name p.params).2 } := by
    injection hrun with h₁ h₂
    exact ⟨h₁.symm, h₂.symm⟩
  refine ⟨?_, rfl, rfl, Target.Faithful.intact_addRoutine _ _ _, Target.Faithful.code_addRoutine _ _ _⟩
  rw [hg, Target.Faithful.addRoutine_fst]
  rfl

/-- A new subprogram is entered together with its routine. -/
theorem announce_ok (hs : Ready s) (hnew : s.globals.subprogram? p.name = none) (hrun : addRoutine p s = .ok g s')
    (isDefined : Bool) (t : Compilation κ) (hcode : t.code = s'.code) (hframe : t.frame = s'.frame)
    (hglobals : t.globals = s'.globals.register p.name ⟨g, p.params.length, isDefined⟩) :
    Advance s t ∧ t.frame = s.frame ∧ t.site = { s.site with globals := t.globals } ∧
      t.out.routines[g]? = some (.empty p.name p.params) ∧
      t.globals = s.globals.register p.name ⟨g, p.params.length, isDefined⟩ ∧
      ∀ i, s.Settled i → i ≠ g ∧ t.out.routines[i]? = s.out.routines[i]? := by
  obtain ⟨rfl, hframe', hglobals', hintact, hout⟩ := addRoutine_ok hrun
  rw [hframe'] at hframe
  rw [hglobals'] at hglobals
  replace hout : t.out = (s.out.addRoutine p.name p.params).2 := by
    rw [← hout]
    unfold Compilation.out
    rw [hcode]
  have hregistry := hs.registry.add hnew p.params isDefined
  rw [← hglobals, ← hout] at hregistry
  -- what is settled was there before, so the new routine is none of it
  have hsame : ∀ i, s.Settled i → i ≠ s.out.routines.size ∧
      t.out.routines[i]? = s.out.routines[i]? := by
    rintro i ⟨name, entry, hentry, rfl, -⟩
    obtain ⟨r, hr, -⟩ := hs.registry.known name entry hentry
    have hlt := (Array.getElem?_eq_some_iff.mp hr).1
    refine ⟨by omega, ?_⟩
    rw [hout, Code.routines_addRoutine, if_neg (by omega)]
  have hgrows : s.out.Grows t.out := by
    rw [hout]
    exact Code.grows_addRoutine _ _ _
  have hsettled : ∀ i, s.Settled i → t.Settled i := by
    intro i hi
    refine hi.register hglobals fun e he => ?_
    rw [hnew] at he
    cases he
  obtain ⟨hadv, hsite⟩ := hs.elsewhere hframe (by rw [hcode]; exact hintact hs.intact) hregistry
    hgrows hsettled fun i hi => (hsame i hi).2
  refine ⟨hadv, hframe, hsite, ?_, hglobals, hsame⟩
  rw [hout, Code.routines_addRoutine, if_pos rfl]

end Emit

theorem Emits.forward (p : Prototype) : Emits (Emit.forward p : Emit κ Unit) (.node (.forward p)) (fun _ => []) := by
  intro s u s' hs hrun
  replace hrun := Emit.get_ok hrun
  cases hentry : s.globals.subprogram? p.name with
  | some entry =>
    rw [hentry] at hrun
    dsimp only at hrun
    split at hrun
    · exact absurd hrun Emit.throw_ok
    · obtain ⟨-, rfl⟩ := Emit.pure_ok hrun
      exact ⟨.refl hs, fun C _ => .forwardKnown hentry⟩
  | none =>
    rw [hentry] at hrun
    obtain ⟨g, s₁, hrun₁, hrun₂⟩ := Emit.bind_ok hrun
    cases hrun₂
    -- the routine is added elsewhere, and nothing is emitted at this place
    obtain ⟨hadv, -, hsite, -, hglobals, -⟩ := Emit.announce_ok hs hentry hrun₁ false
      { s₁ with globals := s₁.globals.register p.name ⟨g, p.params.length, false⟩ } rfl rfl rfl
    refine ⟨hadv, fun C _ => ?_⟩
    rw [hsite, hglobals]
    exact .forwardNew hentry

/-- The routine of a subprogram that is about to be defined is empty. -/
theorem Emit.claim_ok {s₁ : Compilation κ} (hs : Ready s)
    (hrun : claimRoutine p s = .ok g s₁) (t : Compilation κ) (hcode : t.code = s₁.code) (hframe : t.frame = s₁.frame)
    (hglobals : t.globals = s₁.globals.register p.name ⟨g, p.params.length, true⟩) : Advance s t ∧ t.frame = s.frame ∧
      (∃ params, t.out.routines[g]? = some (.empty p.name params) ∧
        params.length = p.params.length) ∧
      t.globals = s.globals.register p.name ⟨g, p.params.length, true⟩ ∧
      (∀ i, s.Settled i → i ≠ g ∧ t.out.routines[i]? = s.out.routines[i]?) ∧
      ∀ entry, s.globals.subprogram? p.name = some entry → entry = ⟨g, p.params.length, false⟩ := by
  replace hrun := get_ok hrun
  cases hentry : s.globals.subprogram? p.name with
  | none =>
    rw [hentry] at hrun
    obtain ⟨hadv, hframe', -, hroutine, hglobals', hsame⟩ :=
      announce_ok hs hentry hrun true t hcode hframe hglobals
    exact ⟨hadv, hframe', ⟨_, hroutine, rfl⟩, hglobals', hsame, fun _ h => by cases h⟩
  | some entry =>
    rw [hentry] at hrun
    dsimp only at hrun
    split at hrun
    · obtain ⟨u, s₂, hthrow, -⟩ := bind_ok hrun
      exact absurd hthrow throw_ok
    · next hdefined =>
      split at hrun
      · obtain ⟨u, s₂, hthrow, -⟩ := bind_ok hrun
        exact absurd hthrow throw_ok
      · next harity =>
        obtain ⟨rfl, rfl⟩ := pure_ok hrun
        obtain ⟨g, n, d⟩ := entry
        obtain rfl : n = p.params.length := not_not.mp harity
        obtain rfl : d = false := Bool.eq_false_of_not_eq_true hdefined
        obtain ⟨r, hr, hname, hparams, hempty⟩ := hs.registry.known p.name _ hentry
        have hout : t.out = s₁.out := by
          unfold Compilation.out
          rw [hcode]
        have hregistry := hs.registry.mark hentry
        rw [← hglobals, ← hout] at hregistry
        have hsettled : ∀ i, s₁.Settled i → t.Settled i := by
          intro i hi
          refine hi.register hglobals fun e he => ?_
          rw [hentry] at he
          rw [← Option.some.inj he]
        -- what is settled is defined, and this routine has been announced only
        have hother : ∀ i, s₁.Settled i → i ≠ g := by
          rintro i ⟨name, e, he, rfl, hd⟩ rfl
          obtain ⟨r', hr', hname', -⟩ := hs.registry.known name e he
          rw [hr] at hr'
          rw [← hname', ← Option.some.inj hr', hname, hentry] at he
          rw [← Option.some.inj he] at hd
          cases hd
        obtain ⟨hadv, -⟩ := hs.elsewhere hframe (by rw [hcode]; exact hs.intact) hregistry
          (by rw [hout]; exact .refl _) hsettled (fun _ _ => by rw [hout])
        refine ⟨hadv, hframe, ⟨r.params, ?_, hparams⟩, hglobals,
          fun i hi => ⟨hother i hi, by rw [hout]⟩, fun _ h => (Option.some.inj h).symm⟩
        rw [hout, ← hempty rfl]
        exact hr

theorem Code.opened_spec {c : Code} (h : c.routines[g]? = some (.empty name params)) :
    ((c.addBlock g "entry").2.addBlock g "return").2.routines[g]? =
        some ⟨name, params, #[.empty "entry", .empty "return"], 0⟩ ∧
      (∀ i, i ≠ g → ((c.addBlock g "entry").2.addBlock g "return").2.routines[i]? = c.routines[i]?) ∧
      c.Grows ((c.addBlock g "entry").2.addBlock g "return").2 := by
  have hfirst : (c.addBlock g "entry").2.routines[g]? =
      some ⟨name, params, #[.empty "entry"], 0⟩ := by
    unfold Code.addBlock
    rw [Code.routines_modify, if_pos rfl, h]
    rfl
  refine ⟨?_, ?_, ?_⟩
  · rw [show ((c.addBlock g "entry").2.addBlock g "return").2 =
      (c.addBlock g "entry").2.modify g (·.addBlock "return") from rfl, Code.routines_modify,
      if_pos rfl, hfirst]
    rfl
  · intro i hi
    exact (Code.routines_modify_of_ne _ _ hi).trans (Code.routines_modify_of_ne _ _ hi)
  · -- there is no block yet at either of the new places
    refine (Code.grows_addBlock h ?_ _).trans (Code.grows_addBlock hfirst ?_ _)
    · intro b hb
      simp [Code.block?, h, Routine.empty] at hb
    · intro b hb
      simp [Code.block?, hfirst] at hb

/-- At the start of the routine of a subprogram. -/
def Compilation.opened (s : Compilation κ) (g : Nat) (resultName : Option String) : Compilation κ :=
  { s with
    frame := (Emit.openRoutine s.code g resultName).1
    code := (Emit.openRoutine s.code g resultName).2 }

theorem Compilation.opened_spec {n : Nat} (hintact : Intact s.code) (hregistry : Registry s.globals s.out)
    (hentry : s.globals.subprogram? name = some ⟨g, n, true⟩)
    (hg : s.out.routines[g]? = some (.empty name params)) (resultName : Option String) :
    Ready (s.opened g resultName) ∧ (s.opened g resultName).site = .opened g resultName s.globals ∧
      s.out.Grows (s.opened g resultName).out ∧
      ∀ i, i ≠ g → (s.opened g resultName).out.routines[i]? = s.out.routines[i]? := by
  obtain ⟨hroutine, hother, hgrows⟩ := Code.opened_spec hg
  have hfirst : (Target.addBlock s.code g "entry").1 = ⟨g, 0⟩ := by
    rw [Target.Faithful.addBlock_fst]
    exact congrArg _ (Code.blocksOf_of_routine hg)
  have hcode : Target.Faithful.code (Target.addBlock s.code g "entry").2 =
      (s.out.addBlock g "entry").2 := Target.Faithful.code_addBlock _ _ _
  have hsecond : (Target.addBlock (Target.addBlock s.code g "entry").2 g "return").1 = ⟨g, 1⟩ := by
    rw [Target.Faithful.addBlock_fst, hcode]
    change (⟨g, (s.out.addBlock g "entry").2.blocksOf g⟩ : BlockRef) = ⟨g, 1⟩
    rw [Code.blocksOf_addBlock hg, if_pos rfl, Code.blocksOf_of_routine hg]
    rfl
  have hout : (s.opened g resultName).out = ((s.out.addBlock g "entry").2.addBlock g "return").2 := by
    rw [← hcode]
    exact Target.Faithful.code_addBlock _ _ _
  rw [← hout] at hroutine hother hgrows
  have hblock : ∀ x, (s.opened g resultName).out.block? ⟨g, x⟩ =
      #[Block.empty "entry", Block.empty "return"][x]? := by
    intro x
    unfold Code.block?
    rw [hroutine]
    rfl
  have hframe : (s.opened g resultName).frame = ⟨g, ⟨g, 0⟩, ⟨g, 1⟩, resultName, .empty, []⟩ := by
    rw [← hfirst, ← hsecond]
    rfl
  -- no other name stands for the routine, as it has a name itself
  have hdefined : ∀ other entry, s.globals.subprogram? other = some entry → entry.routine = g →
      entry.isDefined = true := by
    intro other entry he hgo
    obtain ⟨r, hr, hname, -⟩ := hregistry.known other entry he
    rw [hgo, hg] at hr
    rw [← Option.some.inj hr] at hname
    rw [← hname, show (Routine.empty name params).name = name from rfl, hentry] at he
    rw [← Option.some.inj he]
  have hheading : ∀ i, (s.opened g resultName).out.heading? i = s.out.heading? i := by
    rw [hout]
    intro i
    rw [Code.heading?_addBlock, Code.heading?_addBlock]
  have hlast : (s.opened g resultName).out.block? ⟨g, 1⟩ = some (.empty "return") := hblock 1
  refine ⟨⟨⟨?_, ?_, ?_, ?_, hregistry.update g hdefined hheading hother⟩, ?_, ?_, ?_⟩, ?_, hgrows,
    hother⟩
  · exact Target.Faithful.intact_addBlock _ _ _ (Target.Faithful.intact_addBlock _ _ _ hintact)
  · rw [hframe]
  · rw [hframe]
    exact ⟨_, hblock 0, rfl⟩
  · rw [hframe]
    exact open_of_last hlast
  · rw [hframe]
  · rw [hframe]
    exact Nat.zero_ne_one
  · rw [hframe]
    exact hlast
  · have hindex : (s.opened g resultName).index = 0 := by
      unfold Compilation.index
      rw [hframe, hblock 0]
      rfl
    unfold Compilation.site
    rw [hframe, hindex, Code.blocksOf_of_routine hroutine, Code.registersOf_of_routine hroutine]
    rfl

theorem Emits.subprogram {body : List Node} {m : Emit κ (Option Register)}
    (hm : Emits m (.sequence none body) Option.toList) :
    Emits (Emit.subprogram p m) (.node (.subprogram p body)) (fun _ => []) := by
  intro s u s' hs hrun
  obtain ⟨g, s₁, hclaim, hrun⟩ := Emit.bind_ok hrun
  obtain ⟨u₁, s₂, hregister, hrun⟩ := Emit.bind_ok hrun
  have hs₂ : s₂ = { s₁ with globals := s₁.globals.register p.name ⟨g, p.params.length, true⟩ } := by
    cases hregister
    rfl
  obtain ⟨hadv₂, hframe₂, ⟨params, hroutine, hparams⟩, hglobals, hsame₂, hnew⟩ :=
    Emit.claim_ok hs hclaim s₂ (by rw [hs₂]) (by rw [hs₂]) (by rw [hs₂])
  have hentry : s₂.globals.subprogram? p.name = some ⟨g, p.params.length, true⟩ := by
    rw [hglobals, Globals.subprogram?_register, if_pos rfl]
  obtain ⟨hready₃, hsite₃, hgrows₃, hother₃⟩ := Compilation.opened_spec hadv₂.ready.intact
    hadv₂.ready.registry hentry hroutine (Emit.resultNameOf p)
  -- inside the routine
  replace hrun := Emit.get_ok hrun
  obtain ⟨u₃, s₃, hopen, hrun⟩ := Emit.bind_ok hrun
  obtain rfl : s₃ = s₂.opened g (Emit.resultNameOf p) := by
    injection hopen with _ h₂
    exact h₂.symm
  obtain ⟨u₄, s₆, hbody, hrun⟩ := Emit.bind_ok hrun
  have hvalue : Emits (Emit.valueOf m) (.value (.block body)) ([·]) :=
    .valueOf (hm.imp fun _ _ _ _ h => .block h)
  obtain ⟨u₅, s₄, hadv₄, hlow₄, hbody⟩ := (Emits.parameters 0 p.params).lays.first hready₃ hbody
  obtain ⟨v, s₅, hadv₅, hlow₅, hbody⟩ := hvalue.lays.first hadv₄.ready hbody
  obtain ⟨hsealed, hfinish⟩ := Emit.finish_ok hadv₅.ready hbody
  have hgrown := (hadv₄.trans hadv₅).grown
  have hframe : s₅.frame.routine = g := by
    rw [hgrown.routine]
    exact congrArg Site.routine hsite₃
  -- back in the routine at hand
  obtain rfl : s' = { s₆ with frame := s₂.frame } := by
    injection hrun with _ h₂
    exact h₂.symm
  have hsettled : ∀ i, s.Settled i → s₅.Settled i := fun i hi =>
    hgrown.settled i (hadv₂.grown.settled i hi)
  -- neither opening the routine nor filling it touches what is settled outside
  have hsame : ∀ i, s.Settled i → s₆.out.routines[i]? = s.out.routines[i]? := by
    intro i hi
    obtain ⟨hne, h₂⟩ := hsame₂ i hi
    rw [← h₂, ← hother₃ i hne]
    have hroutine₃ : (s₂.opened g (Emit.resultNameOf p)).frame.routine = g :=
      congrArg Site.routine hsite₃
    rw [← hgrown.others i (by rw [hroutine₃]; exact hne) (hadv₂.grown.settled i hi)]
    exact hsealed.others i (by rw [hframe]; exact hne) (hsettled i hi)
  have hgrows : s₂.out.Grows s₆.out := hgrows₃.trans (hgrown.code.trans hsealed.grows)
  have hregistry : Registry s₆.globals s₆.out := by
    rw [hsealed.globals]
    exact hsealed.registry
  set s₇ : Compilation κ := { s₆ with frame := s₂.frame }
  obtain ⟨hadv₇, hsite₇⟩ : Advance s s₇ ∧ s₇.site = { s.site with globals := s₆.globals } := by
    refine hs.elsewhere hframe₂ hsealed.intact hregistry (hadv₂.grown.code.trans hgrows) ?_ hsame
    intro i hi
    unfold Compilation.Settled
    rw [show s₇.globals = s₆.globals from rfl, hsealed.globals]
    exact hsettled i hi
  refine ⟨hadv₇, fun C hC => ?_⟩
  have hC₆ : s₆.out.Grows C := hC
  have hC₅ := hsealed.grows.trans hC₆
  have hheading : C.heading? g = some (p.name, params) := by
    apply (hgrows.trans hC₆).heading
    unfold Code.heading?
    rw [hroutine]
    rfl
  have hparameters := hlow₄ C (hadv₅.grown.code.trans hC₅)
  rw [hsite₃, hglobals] at hparameters
  rw [hsite₇, hsealed.globals]
  exact .define hnew (.subprogram hheading hparams hparameters (hlow₅ C hC₅)) (hfinish C hC₆)

/-! ## 5. Trees -/

namespace Emits

theorem noValue {m : Emit κ Unit} {ph : Phrase} (h : Emits m ph (fun _ => [])) :
    Emits (do m; return none) ph Option.toList := by
  refine (h.lays.bind fun _ => .pure none).emits ?_
  rintro C S x S' ⟨u, S₁, h₁, rfl, rfl⟩
  exact h₁

theorem someValue {m : Emit κ Register} {ph : Phrase} (h : Emits m ph ([·])) :
    Emits (some <$> m) ph Option.toList := h.map fun _ => rfl

mutual

theorem node : ∀ n : Node, Emits (Emit.node n : Emit κ (Option Register)) (.node n) Option.toList
  | .number w => by
    unfold Emit.node
    exact someValue ((const w).imp fun _ _ _ _ h => .number h)
  | .constantDecl name w => by
    unfold Emit.node
    exact noValue (declareConstant name w)
  | .variableDecl d => by
    unfold Emit.node
    exact noValue (declareVariable d)
  | .ident name => by
    unfold Emit.node
    exact someValue (readName name)
  | .element name index => by
    unfold Emit.node
    refine ((elementSlot (valueOf (node index))).lays.bind fun slot =>
      (someValue (define rfl)).lays).emits ?_
    rintro C S (_ | r) S' ⟨slot, S₁, h₁, h₂⟩
    · cases h₂
    · exact .element h₁ h₂
  | .binary op lhs rhs => by
    unfold Emit.node
    split
    · exact someValue (assignment (valueOf (node rhs)) (target lhs))
    · next hop => exact someValue (binary hop (valueOf (node lhs)) (valueOf (node rhs)))
  | .conditional c t e => by
    unfold Emit.node
    exact someValue (conditional (valueOf (node c)) (valueOf (node t)) (valueOf (node e)))
  | .whileLoop c body => by
    unfold Emit.node
    exact someValue (whileLoop (valueOf (node c)) (node body))
  | .forLoop name dir a z body => by
    unfold Emit.node
    exact someValue (forLoop (valueOf (node a)) (valueOf (node z)) (node body))
  | .call callee args => by
    unfold Emit.node
    exact someValue (call (arguments args))
  | .intrinsic which name => by
    unfold Emit.node
    exact someValue (intrinsic which name)
  | .exit => by
    unfold Emit.node
    exact someValue exit
  | .forward p => by
    unfold Emit.node
    exact noValue (forward p)
  | .subprogram p body => by
    unfold Emit.node
    exact noValue (subprogram (sequence none body))
  | .block nodes => by
    unfold Emit.node
    exact (sequence none nodes).imp fun _ _ _ _ h => .block h

theorem target : ∀ n : Node, Emits (Emit.target n : Emit κ Register) (.target n) ([·])
  | .ident name => by
    unfold Emit.target
    exact scalarSlot name
  | .element name index => by
    unfold Emit.target
    exact elementSlot (valueOf (node index))
  | .number _ | .constantDecl _ _ | .variableDecl _ | .binary _ _ _ | .conditional _ _ _
  | .whileLoop _ _ | .forLoop _ _ _ _ _ | .call _ _ | .intrinsic _ _ | .exit | .forward _
  | .subprogram _ _ | .block _ => by
    unfold Emit.target
    exact fun _ _ _ _ hrun => absurd hrun Emit.throw_ok

theorem sequence (last : Option Register) : ∀ nodes : List Node,
    Emits (Emit.sequence last nodes : Emit κ (Option Register)) (.sequence last nodes) Option.toList
  | [] => by
    unfold Emit.sequence
    refine (Lays.pure last).emits ?_
    rintro C S x S' ⟨rfl, rfl⟩
    exact .sequenceNil
  | n :: nodes => by
    unfold Emit.sequence
    exact ((node n).lays.bind fun value => (sequence value nodes).lays).emits
      fun _ _ _ _ ⟨_, _, h₁, h₂⟩ => .sequenceCons h₁ h₂

theorem arguments : ∀ nodes : List Node, Emits (Emit.arguments nodes : Emit κ (List Register)) (.arguments nodes) id
  | [] => by
    unfold Emit.arguments
    refine (Lays.pure []).emits ?_
    rintro C S x S' ⟨rfl, rfl⟩
    exact .argumentsNil
  | n :: nodes => by
    unfold Emit.arguments
    refine ((valueOf (node n)).lays.bind fun r => (arguments nodes).lays.bind fun rs =>
      .pure (r :: rs)).emits ?_
    rintro C S x S' ⟨r, S₁, h₁, rs, S₂, h₂, rfl, rfl⟩
    exact .argumentsCons h₁ h₂

end

end Emits

/-! ## 6. Programs -/

omit [Target κ] [Target.Faithful κ] in
theorem Registry.empty : Registry Globals.empty Code.empty where
  known name entry h := by
    have hnone : Globals.empty.subprogram? name = none := Std.TreeMap.getElem?_emptyc
    rw [hnone] at h
    cases h
  named g r h := by
    rw [show (Code.empty.routines[g]? : Option Routine) = none from Array.getElem?_empty] at h
    cases h

end

/-- The names that every program starts with. -/
def Globals.initial : Globals :=
  ((Globals.empty.register Code.entryPoint ⟨0, 0, true⟩).register "writeln" ⟨1, 1, true⟩).register
    "printi" ⟨2, 1, true⟩

theorem Globals.subprogram?_initial (name : String) : Globals.initial.subprogram? name =
    if name = "printi" then some ⟨2, 1, true⟩ else if name = "writeln" then some ⟨1, 1, true⟩
    else if name = Code.entryPoint then some ⟨0, 0, true⟩ else none := by
  unfold Globals.initial
  rw [Globals.subprogram?_register, Globals.subprogram?_register, Globals.subprogram?_register]
  rfl

theorem Globals.constant?_initial (name : String) : Globals.initial.constant? name = none :=
  Std.TreeMap.getElem?_emptyc

section

variable {κ : Type} [Target κ] [Target.Faithful κ]

/-- With one more routine of the library. -/
def Compilation.withLibrary (s : Compilation κ) (name : String) : Compilation κ :=
  ⟨(addLibraryRoutine (s.globals, s.code) name).2, (addLibraryRoutine (s.globals, s.code) name).1,
    s.frame⟩

theorem Compilation.withLibrary_spec {s : Compilation κ} (h : Ready s) {name : String}
    (hnew : s.globals.subprogram? name = none) : Ready (s.withLibrary name) ∧
      (s.withLibrary name).site = { s.site with globals := (s.withLibrary name).globals } ∧
      (s.withLibrary name).globals = s.globals.register name ⟨s.out.routines.size, 1, true⟩ ∧
      (s.withLibrary name).out = (s.out.addRoutine name ["x"]).2 := by
  have hrun : Emit.addRoutine ⟨.procedure, name, ["x"]⟩ s =
      .ok (Target.addRoutine s.code name ["x"]).1
        { s with code := (Target.addRoutine s.code name ["x"]).2 } := rfl
  obtain ⟨hadv, -, hsite, -, hglobals, -⟩ :=
    Emit.announce_ok h hnew hrun true (s.withLibrary name) rfl rfl rfl
  obtain ⟨hnumber, -, -, -, hcode⟩ := Emit.addRoutine_ok hrun
  rw [hnumber] at hglobals
  exact ⟨hadv.ready, hsite, hglobals, hcode⟩

/-- A compilation starts in an empty main routine, behind which stand those of the library. -/
theorem Compilation.start_spec {k : κ} (hk : Target.Faithful.code k = Code.empty) (hintact : Intact k) :
    Ready (start k) ∧ (start k).site = .opened 0 none .initial ∧
      (start k).out = ⟨#[⟨"main", [], #[.empty "entry", .empty "return"], 0⟩, .empty "writeln" ["x"],
        .empty "printi" ["x"]]⟩ := by
  have hmain : (Target.addRoutine k Code.entryPoint []).1 = 0 := by
    rw [Target.Faithful.addRoutine_fst, hk]
    rfl
  -- the main routine, before it has blocks
  set t₀ : Compilation κ := ⟨(Target.addRoutine k Code.entryPoint []).2,
    Globals.empty.register Code.entryPoint ⟨0, 0, true⟩, (start k).frame⟩ with ht₀
  have hout₀ : t₀.out = (Code.empty.addRoutine Code.entryPoint []).2 := by
    rw [← hk]
    exact Target.Faithful.code_addRoutine _ _ _
  have hregistry : Registry t₀.globals t₀.out := by
    rw [hout₀]
    exact Registry.empty.add Std.TreeMap.getElem?_emptyc [] true
  have hentry : t₀.globals.subprogram? Code.entryPoint = some ⟨0, 0, true⟩ := by
    rw [ht₀, Globals.subprogram?_register, if_pos rfl]
  obtain ⟨hready₁, hsite₁, -⟩ := opened_spec
    (Target.Faithful.intact_addRoutine _ _ _ hintact) hregistry hentry (by rw [hout₀]; rfl) none
  set t₁ := t₀.opened 0 none
  have hout₁ : t₁.out = ⟨#[⟨"main", [], #[.empty "entry", .empty "return"], 0⟩]⟩ := by
    have h₁ : Target.Faithful.code (Target.addBlock t₀.code 0 "entry").2 =
      (t₀.out.addBlock 0 "entry").2 := Target.Faithful.code_addBlock _ _ _
    have h₂ : t₁.out = ((t₀.out.addBlock 0 "entry").2.addBlock 0 "return").2 := by
      rw [← h₁]
      exact Target.Faithful.code_addBlock _ _ _
    rw [h₂, hout₀]
    rfl
  -- the library
  have hnew₁ : t₁.globals.subprogram? "writeln" = none := by
    change (Globals.empty.register Code.entryPoint ⟨0, 0, true⟩).subprogram? "writeln" = none
    rw [Globals.subprogram?_register, if_neg (by decide)]
    exact Std.TreeMap.getElem?_emptyc
  obtain ⟨hready₂, hsite₂, hglobals₂, hout₂⟩ := withLibrary_spec hready₁ hnew₁
  rw [hout₁] at hglobals₂ hout₂
  have hnew₂ : (t₁.withLibrary "writeln").globals.subprogram? "printi" = none := by
    rw [hglobals₂, Globals.subprogram?_register, if_neg (by decide)]
    change (Globals.empty.register Code.entryPoint ⟨0, 0, true⟩).subprogram? "printi" = none
    rw [Globals.subprogram?_register, if_neg (by decide)]
    exact Std.TreeMap.getElem?_emptyc
  obtain ⟨hready₃, hsite₃, hglobals₃, hout₃⟩ := withLibrary_spec hready₂ hnew₂
  rw [hout₂] at hglobals₃ hout₃
  have hstart : start k = ((opened ⟨(Target.addRoutine k Code.entryPoint []).2,
      Globals.empty.register Code.entryPoint ⟨(Target.addRoutine k Code.entryPoint []).1, 0, true⟩,
      (start k).frame⟩ (Target.addRoutine k Code.entryPoint []).1 none).withLibrary
        "writeln").withLibrary "printi" := rfl
  rw [hmain] at hstart
  rw [hstart]
  refine ⟨hready₃, ?_, hout₃⟩
  rw [hsite₃, hsite₂, hsite₁, hglobals₃, hglobals₂]
  rfl

theorem Emit.program_ok {p : Program} {s s' : Compilation κ} {u : Unit} (hs : Ready s)
    (hrun : Emit.program p s = .ok u s') :
    Intact s'.code ∧ ∃ v S, Lowered s'.out (.program p) s.site [v] S ∧ s'.out.Finishes S v ∧
      Registry S.globals s'.out ∧ s.out.Grows s'.out ∧
      ∀ g, g ≠ s.frame.routine → s.Settled g → s'.out.routines[g]? = s.out.routines[g]? := by
  obtain ⟨x, s₁, hadv₁, hlow₁, hrun⟩ := (Emits.sequence none p.declarations).lays.first hs hrun
  obtain ⟨y, s₂, hadv₂, hlow₂, hrun⟩ := (Emits.node p.body).lays.first hadv₁.ready hrun
  obtain ⟨v, s₃, hadv₃, hlow₃, hrun⟩ := (Emits.const 0).lays.first hadv₂.ready hrun
  obtain ⟨hsealed, hfinish⟩ := finish_ok hadv₃.ready hrun
  have hC₃ := hsealed.grows
  have hC₂ := hadv₃.grown.code.trans hC₃
  have hgrown := (hadv₁.trans (hadv₂.trans hadv₃)).grown
  refine ⟨hsealed.intact, v, s₃.site, ?_, hfinish _ (.refl _), hsealed.registry,
    hgrown.code.trans hC₃, fun g hg hsettled => ?_⟩
  · exact .program (hlow₁ _ (hadv₂.grown.code.trans hC₂)) (hlow₂ _ hC₂) (hlow₃ _ hC₃)
  · rw [← hgrown.others g hg hsettled]
    exact hsealed.others g (by rw [hgrown.routine]; exact hg) (hgrown.settled g hsettled)

end

/-- What compiling a program into empty code comes to. The main routine and those of the library come
first, and the latter stay without blocks. -/
structure Program.Compiled (p : Program) (C : Code) (value : Register) (S : Site) : Prop where
  lowered : Lowered C (.program p) (.opened 0 none .initial) [value] S
  finishes : C.Finishes S value
  registry : Registry S.globals C
  main : C.heading? 0 = some (Code.entryPoint, [])
  writeln : C.routines[1]? = some (.empty "writeln" ["x"])
  printi : C.routines[2]? = some (.empty "printi" ["x"])

/-- A program that compiles comes out as described, for every target. -/
theorem Program.compileInto_spec {κ : Type} [Target κ] [Target.Faithful κ] {p : Program} {k k' : κ}
    (hk : Target.Faithful.code k = Code.empty) (hintact : Intact k) (h : p.compileInto k = (.ok (), k')) :
    Intact k' ∧ ∃ v S, p.Compiled (Target.Faithful.code k') v S := by
  obtain ⟨hready, hsite, hout⟩ := Compilation.start_spec hk hintact
  unfold Program.compileInto at h
  split at h
  · next s hrun =>
    obtain rfl : s.code = k' := (Prod.mk.inj h).2
    obtain ⟨hintact', v, S, hlow, hfinish, hregistry, hgrows, hothers⟩ := Emit.program_ok hready hrun
    have hglobals : (Compilation.start k).globals = .initial := congrArg Site.globals hsite
    have hroutine : (Compilation.start k).frame.routine = 0 := congrArg Site.routine hsite
    rw [hroutine] at hothers
    rw [hsite] at hlow
    rw [hout] at hgrows hothers
    refine ⟨hintact', v, S, hlow, hfinish, hregistry, hgrows.heading 0 _ rfl, ?_, ?_⟩
    · -- the routines of the library are settled from the start, so they are still there
      refine hothers 1 (by decide) ⟨"writeln", ⟨1, 1, true⟩, ?_, rfl, rfl⟩
      rw [hglobals, Globals.subprogram?_initial]
      rfl
    · refine hothers 2 (by decide) ⟨"printi", ⟨2, 1, true⟩, ?_, rfl, rfl⟩
      rw [hglobals, Globals.subprogram?_initial]
      rfl
  · cases h

end Mila
