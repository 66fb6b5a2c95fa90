import Mila.Proofs.Simulation

/-! # Constructs

What the code of a conditional, of a loop, of a call and of an exit does, given what the code of its parts
does.
-/

namespace Mila

open Behaviour

/-! ## 1. Nodes that declare nothing -/

mutual

/-- No declaration stands in the node. -/
def Node.Plain : Node → Prop
  | .number _ | .ident _ | .intrinsic _ _ | .exit => True
  | .constantDecl _ _ | .variableDecl _ | .forward _ | .subprogram _ _ => False
  | .element _ index => index.Plain
  | .binary _ lhs rhs => lhs.Plain ∧ rhs.Plain
  | .conditional condition thenArm elseArm => condition.Plain ∧ thenArm.Plain ∧ elseArm.Plain
  | .whileLoop condition body => condition.Plain ∧ body.Plain
  | .forLoop _ _ start stop body => start.Plain ∧ stop.Plain ∧ body.Plain
  | .call _ args => Node.AllPlain args
  | .block nodes => Node.AllPlain nodes

/-- No declaration stands in any of the nodes. -/
def Node.AllPlain : List Node → Prop
  | [] => True
  | first :: rest => first.Plain ∧ Node.AllPlain rest

end

theorem Node.allPlain_iff {nodes : List Node} : Node.AllPlain nodes ↔ ∀ n ∈ nodes, n.Plain := by
  induction nodes with
  | nil => simp [Node.AllPlain]
  | cons first rest ih => simp [Node.AllPlain, ih]

def Phrase.Plain : Phrase → Prop
  | .op _ | .store _ _ | .booleanize _ | .combine _ _ _ | .result => True
  | .node n | .value n | .target n => n.Plain
  | .sequence _ nodes | .arguments nodes => Node.AllPlain nodes
  | .parameters _ _ | .program _ | .subprogram _ _ => False

variable {C : Code} {ph : Phrase} {S' : Site} {rs : List Register}

/-- A plain phrase leaves the names as they are. -/
theorem Lowered.follows {S : Site} (h : Lowered C ph S rs S') (hplain : ph.Plain) : S.Follows S' := by
  induction h with
  | op _ _ => exact .next _
  | store _ => exact ⟨rfl, rfl, rfl, rfl, Nat.le_refl _⟩
  | targetVariable _ | sequenceNil | argumentsNil => exact .refl _
  | arithmetic _ _ ih | comparison _ _ ih | resultVariable _ _ ih | resultZero _ _ ih | number _ ih
  | readVariable _ _ ih | readConstant _ _ _ ih | intrinsic _ _ ih => exact ih trivial
  | block _ ih | value _ ih => exact ih hplain
  | booleanize _ _ ih₁ ih₂ => exact (ih₁ trivial).trans (ih₂ trivial)
  | element _ _ ih₁ ih₂ | targetElement _ _ _ ih₁ ih₂ | call _ _ _ _ _ ih₁ ih₂ | noValue _ _ ih₁ ih₂ =>
    exact (ih₁ hplain).trans (ih₂ trivial)
  | exit _ _ _ ih₁ ih₂ => exact (ih₁ trivial).trans (by simpa using ih₂ trivial)
  | sequenceCons _ _ ih₁ ih₂ | argumentsCons _ _ ih₁ ih₂ => exact (ih₁ hplain.1).trans (ih₂ hplain.2)
  | logical _ _ _ _ ih₁ ih₂ ih₃ => exact (ih₁ trivial).trans ((ih₂ trivial).trans (ih₃ trivial))
  | assign _ _ _ ih₁ ih₂ ih₃ => exact (ih₁ hplain.2).trans ((ih₂ hplain.1).trans (ih₃ trivial))
  | binary _ _ _ _ ih₁ ih₂ ih₃ => exact (ih₁ hplain.1).trans ((ih₂ hplain.2).trans (ih₃ trivial))
  | conditional _ _ _ _ _ _ _ _ ih₁ ih₂ ih₃ ih₄ =>
    have h₂ := (ih₁ hplain.1).trans (ih₂ trivial)
    have h₃ := ih₃ hplain.2.1
    have h₄ := ih₄ hplain.2.2
    simp only [Site.Follows.move_left, Site.Follows.grow_left] at h₃ h₄
    exact (h₂.trans (h₃.trans h₄)).trans ((Site.Follows.move_right.mpr (.refl _)).trans (.next _))
  | whileLoop _ _ _ _ _ _ _ ih₁ ih₂ ih₃ ih₄ =>
    have h₁ := (ih₁ hplain.1).trans (ih₂ trivial)
    have h₃ := ih₃ hplain.2
    have h₄ := ih₄ trivial
    simp only [Site.Follows.move_left, Site.Follows.grow_left] at h₁ h₃ h₄
    exact h₁.trans (h₃.trans h₄)
  | @forLoop name _ _ _ _ slot _ _ _ _ _ _ _ _ _ _ S _ _ _ S₄ _ S₆ S₇ _ _ _ _ _ hv _ _ _ _ _ _ _
      _ _ _ _ _ _ _ _ ih₁ ih₂ ih₃ ih₄ ih₅ ih₆ ih₇ ih₈ ih₉ ih₁₀ ih₁₁ ih₁₂ =>
    have h₄ := (ih₁ hplain.1).trans ((ih₂ trivial).trans ((ih₃ hplain.2.1).trans (ih₄ trivial)))
    have h₆ := (ih₅ trivial).trans (ih₆ trivial)
    have h₁₂ := ih₁₂ trivial
    simp only [Site.Follows.move_left, Site.Follows.grow_left] at h₆ h₁₂
    replace h₆ := h₄.trans h₆
    have hslot : S₆.locals.get? name = some ⟨slot, .scalar⟩ := by rw [h₆.locals, hv]
    have hround : S₆.Follows S₇ := by
      -- the name stands for the same slot before, so holding it changes nothing
      have hheld := Site.Follows.shadow (S := S₆.move (S₄.blocks + 1)) hslot
      exact Site.Follows.move_left.mp (hheld.trans (ih₇ hplain.2.2))
    have hgiven := hround.trans (Site.Follows.restore hslot hround.locals)
    have h₁₁ := (ih₈ trivial).trans ((ih₉ trivial).trans ((ih₁₀ trivial).trans (ih₁₁ trivial)))
    exact h₆.trans ((hgiven.trans h₁₁).trans h₁₂)
  | _ => exact absurd hplain id

/-- Where a round of a counting loop leads. The loop variable is held while the body is compiled. -/
theorem Lowered.round {T S₇ S₈ S₉ S₁₀ S₁₁ : Site} {name : String} {body : Node}
    {slot c st x z t : Register} {dir : Direction}
    (hbody : Lowered C (.node body) { T with locals := (T.locals.shadow name ⟨slot, .scalar⟩).2 } rs S₇)
    (hb : T.locals.get? name = some ⟨slot, .scalar⟩) (hplain : body.Plain)
    (hload : Lowered C (.op (.load slot)) { S₇ with
      locals := S₇.locals.restore name (T.locals.shadow name ⟨slot, .scalar⟩).1 } [c] S₈)
    (hnext : Lowered C (.op (.arith .add c st)) S₈ [x] S₉)
    (hstore : Lowered C (.store x slot) S₉ [] S₁₀)
    (hagain : Lowered C (.op (.compare dir.repeatTest c z)) S₁₀ [t] S₁₁) :
    T.Follows S₁₁ ∧ (T.Valid → Region C T [] S₁₁) := by
  have hf₇ := (Site.Follows.shadow hb).trans (hbody.follows hplain)
  have hgiven := hf₇.trans (Site.Follows.restore hb hf₇.locals)
  refine ⟨hgiven.trans ((hload.follows trivial).trans ((hnext.follows trivial).trans
    ((hstore.follows trivial).trans (hagain.follows trivial)))), fun hv => ?_⟩
  -- holding the variable and letting go of it emits no code
  have hheld : Region C T [] { T with locals := (T.locals.shadow name ⟨slot, .scalar⟩).2 } :=
    .still rfl rfl rfl rfl rfl rfl
  have h₇ := hheld.seq hv fun hv _ => hbody.region hv trivial
  have hlet : Region C T [] { S₇ with
      locals := S₇.locals.restore name (T.locals.shadow name ⟨slot, .scalar⟩).1 } :=
    h₇.sub hv (.still rfl rfl rfl rfl rfl rfl)
  have h₉ := (hlet.seq hv fun hv _ => hload.region hv trivial).seq hv fun hv _ => hnext.region hv trivial
  exact (h₉.seq hv fun hv _ => hstore.region hv trivial).seq hv fun hv _ => hagain.region hv trivial

theorem Lowered.op_lt {o : Operation} {v : Register} {S S₁ : Site}
    (h : Lowered C (.op o) S [v] S₁) : ∀ r ∈ [v], r < S₁.registers := by
  obtain ⟨rfl, rfl⟩ := h.of_op
  intro r hr
  rw [List.mem_singleton.mp hr]
  exact Nat.lt_succ_self _

/-- The registers that a phrase refers to, if it does, are there. -/
def Phrase.Within (registers : Nat) : Phrase → Prop
  | .sequence last _ => ∀ r : Nat, r ∈ last.toList → r < registers
  | _ => True

/-- What a plain phrase yields are registers that there are. -/
theorem Lowered.results_lt {S : Site} (h : Lowered C ph S rs S') (hplain : ph.Plain) (hslots : S.Slotted)
    (hwithin : ph.Within S.registers) : ∀ r : Nat, r ∈ rs → r < S'.registers := by
  induction h with
  | op hphi hhas => exact (Lowered.op hphi hhas).op_lt
  | booleanize _ h _ _ | arithmetic _ h _ | comparison _ h _ | logical _ _ _ h _ _ _
  | resultVariable _ h _ | resultZero _ h _ | number h _ | readVariable _ h _ | readConstant _ _ h _
  | element _ h _ _ | targetElement _ _ h _ _ | whileLoop _ _ _ _ _ _ h _ _ _ _
  | forLoop _ _ _ _ _ _ _ _ _ _ _ _ _ _ _ h _ _ _ _ _ _ _ _ _ _ _ _ | call _ _ _ _ h _ _
  | intrinsic _ h _ | exit _ _ h _ _ | noValue _ h _ _ => exact h.op_lt
  | conditional _ _ _ _ _ _ _ _ _ _ _ _ =>
    intro r hr
    rw [List.mem_singleton.mp hr]
    exact Nat.lt_succ_self _
  | targetVariable hb =>
    intro r hr
    rw [List.mem_singleton.mp hr]
    exact hslots _ _ hb
  | assign hv hslot hstore ih₁ _ _ =>
    intro r hr
    have hlt := ih₁ hplain.2 hslots trivial r hr
    exact hlt.trans_le ((hslot.follows hplain.1).registers.trans (hstore.follows trivial).registers)
  | binary _ hl hr _ _ _ ih =>
    exact ih trivial (hslots.follow ((hl.follows hplain.1).trans (hr.follows hplain.2))) trivial
  | block _ ih => exact ih hplain hslots fun r hr => absurd hr List.not_mem_nil
  | value _ ih => exact ih hplain hslots trivial
  | sequenceNil => exact hwithin
  | sequenceCons hn _ ih₁ ih₂ =>
    exact ih₂ hplain.2 (hslots.follow (hn.follows hplain.1)) (ih₁ hplain.1 hslots trivial)
  | argumentsCons hn h ih₁ ih₂ =>
    intro r hr
    have hrest := h.follows hplain.2
    rcases List.mem_cons.mp hr with rfl | hr
    · exact (ih₁ hplain.1 hslots trivial _ List.mem_cons_self).trans_le hrest.registers
    · exact ih₂ hplain.2 (hslots.follow (hn.follows hplain.1)) trivial r hr
  | store _ | argumentsNil => exact fun r hr => absurd hr List.not_mem_nil
  | _ => exact absurd hplain id

/-! ## 2. Conditionals and loops -/

namespace Scene.Does

variable {E : Scene} {n : Nat} {S T S₁ S₂ S₃ S₄ : Site} {P : Array Content → Prop} {α : Type}
  {e : Eval α} {Q : α → Array Content → Prop}

/-- The same code from another site that stands for the same place. -/
theorem from_site (h : E.Does n S S₁ P e Q) (hf : T.Follows S) (hblock : S.block = T.block)
    (hindex : S.index = T.index) : E.Does n T S₁ P e Q := by
  intro a m w hrel hp
  refine (h a m w (hrel.forward hf hblock hindex) hp).mono ?_
  rintro v w' _ y ⟨a', m', hy, hrel', hkeeps, hq⟩
  exact ⟨a', m', hy, hrel', fun r hr => hkeeps r (hr.trans_le hf.registers), hq⟩

theorem to_site (h : E.Does n S T P e Q) (hf : T.Follows S₁) (hblock : S₁.block = T.block)
    (hindex : S₁.index = T.index) : E.Does n S S₁ P e Q := by
  intro a m w hrel hp
  refine (h a m w hrel hp).mono ?_
  rintro v w' _ y ⟨a', m', hy, hrel', hkeeps, hq⟩
  exact ⟨a', m', hy, hrel'.forward hf hblock hindex, hkeeps, hq⟩

variable {b r c slot z st t : Register} {S₁₁ S₅ S₆ : Site} {name : String} {dir : Direction} {last : Word}

theorem truth {v : Register} {e : Eval Word} (hroom : E.Room S₂)
    (h : E.Does n S S₁ P e fun x regs => ∀ r ∈ [v], Holds r x regs)
    (hb : Lowered E.code (.booleanize v) S₁ [b] S₂) (hle : S.registers ≤ S₁.registers)
    (hv : v < S₁.registers) : E.Does n S S₂ P e fun x => Holds b (.ofBool x.isTrue) :=
  h.before hle fun _ a m w hrel hx =>
    booleanize (n := n) hroom hb hv a m w hrel (hx v List.mem_cons_self)

theorem conditional {tv ev : Register} {c t e : Eval Word} (hphis : E.code.PhisFirst)
    (hroom : E.Room (S₄.move (S₂.blocks + 2)).next) (hv : S₂.Valid)
    (hthen : Region E.code ((S₂.grow 3).move S₂.blocks) [] S₃) (helse : Region E.code (S₃.move (S₂.blocks + 1)) [] S₄)
    (hfirst : S₂.Follows S₃) (hsecond : S₃.Follows S₄) (hle : S.registers ≤ S₂.registers)
    (hfork : E.code.Ends S₂ (.branch b (S₂.ref S₂.blocks) (S₂.ref (S₂.blocks + 1))))
    (htend : E.code.Ends S₃ (.jump (S₂.ref (S₂.blocks + 2))))
    (heend : E.code.Ends S₄ (.jump (S₂.ref (S₂.blocks + 2)))) (hphi : E.code.Has (S₄.move (S₂.blocks + 2))
      (.define S₄.registers (.phi [(tv, S₃.place), (ev, S₄.place)])))
    (hc : E.Does n S S₂ P c fun x => Holds b (.ofBool x.isTrue))
    (ht : E.Does n ((S₂.grow 3).move S₂.blocks) S₃ (fun _ => True) t fun x => Holds tv x)
    (he : E.Does n (S₃.move (S₂.blocks + 1)) S₄ (fun _ => True) e fun x => Holds ev x) :
    E.Does n S (S₄.move (S₂.blocks + 2)).next P (do if (← c).isTrue then t else e)
      fun x => Holds S₄.registers x := by
  have hlast := hfirst.trans hsecond
  have hblocks : S₂.blocks + 3 ≤ E.code.blocksOf S₂.routine := by
    have h₁ : S₂.blocks + 3 ≤ S₃.blocks := hthen.blocks
    have h₂ : S₃.blocks ≤ S₄.blocks := helse.blocks
    have h₃ : S₄.blocks ≤ E.code.blocksOf S₄.routine := hroom.blocks
    rw [hlast.routine] at h₃
    omega
  have hone : E.Enterable S₂ S₂.blocks := ⟨by omega, hthen.direct (Region.valid_first hv) rfl htend⟩
  have hother : E.Enterable S₂ (S₂.blocks + 1) := by
    refine ⟨by omega, ?_⟩
    rw [← hfirst.ref]
    exact helse.direct (Region.valid_second hv hthen) rfl heend
  -- each arm ends in a block of its own, with its own value for the merge
  have hnodup : ([(tv, S₃.place), (ev, S₄.place)].map fun entry => entry.2.block).Nodup :=
    List.nodup_cons.mpr ⟨fun hmem => hthen.arms_ne helse (List.mem_singleton.mp hmem),
      List.nodup_singleton _⟩
  rw [← hfirst.ref] at htend
  rw [← hlast.ref] at heend
  refine hc.bind hle fun x => ?_
  cases hx : x.isTrue with
  | true =>
    have hjump := branch (n := n) true hfork hone
    have harm := ht.from_site (T := S₂.move S₂.blocks) (by simp) rfl rfl
    have hback : ∀ u, E.Does n S₃ (S₄.move (S₂.blocks + 2)).next (Holds tv u) (Pure.pure ())
        fun _ => Holds S₄.registers u := fun u =>
      merge hphis hroom htend hsecond hphi List.mem_cons_self hnodup
    rw [if_pos rfl]
    exact hjump.after (Nat.le_refl S₂.registers) (harm.before hfirst.registers hback)
  | false =>
    have hjump := branch (n := n) false hfork hother
    have harm := he.from_site (T := S₂.move (S₂.blocks + 1)) (by simpa using hfirst) rfl rfl
    have hback : ∀ u, E.Does n S₄ (S₄.move (S₂.blocks + 2)).next (Holds ev u) (Pure.pure ())
        fun _ => Holds S₄.registers u := fun u =>
      merge hphis hroom heend (.refl S₄) hphi (List.mem_cons_of_mem _ List.mem_cons_self) hnodup
    rw [if_neg Bool.false_ne_true]
    exact hjump.after (Nat.le_refl S₂.registers) (harm.before hlast.registers hback)

/-- The three blocks of a loop can be entered. -/
theorem loop_enterable {e e' : Exit} (hroom : E.Room S₄) (hv : S.Valid)
    (htest : Region E.code ((S.grow 3).move S.blocks) [] S₂) (hfork : E.code.Ends S₂ e)
    (hround : Region E.code (S₂.move (S.blocks + 1)) [] S₃) (hback : E.code.Ends S₃ e')
    (hlast : Lowered E.code (.op (.const 0)) (S₃.move (S.blocks + 2)) [r] S₄) {x : Nat}
    (hx : x = S.blocks ∨ x = S.blocks + 1 ∨ x = S.blocks + 2) : E.Enterable S x := by
  have h₁ : S.blocks + 3 ≤ S₂.blocks := htest.blocks
  have h₂ : S₂.blocks ≤ S₃.blocks := hround.blocks
  have hroutine : S₃.routine = S.routine := hround.routine.trans htest.routine
  cases hlast with
  | op hphi hhas =>
    have h₃ : S₃.blocks ≤ E.code.blocksOf S₃.routine := hroom.blocks
    rw [hroutine] at h₃
    exact ⟨by omega, Region.loop_direct hv htest hfork hround hback hhas rfl hx⟩

theorem whileLoop {c body : Eval Word} {R : Word → Array Content → Prop} (hroom : E.Room S₄) (hv : S.Valid)
    (htest : Region E.code ((S.grow 3).move S.blocks) [] S₂) (hround : Region E.code (S₂.move (S.blocks + 1)) [] S₃)
    (hfirst : S.Follows S₂) (hsecond : S₂.Follows S₃) (hstart : E.code.Ends S (.jump (S.ref S.blocks)))
    (hfork : E.code.Ends S₂ (.branch b (S.ref (S.blocks + 1)) (S.ref (S.blocks + 2))))
    (hback : E.code.Ends S₃ (.jump (S.ref S.blocks)))
    (hlast : Lowered E.code (.op (.const 0)) (S₃.move (S.blocks + 2)) [r] S₄)
    (hc : E.Does n ((S.grow 3).move S.blocks) S₂ (fun _ => True) c
      fun x => Holds b (.ofBool x.isTrue)) (hbody : E.Does n (S₂.move (S.blocks + 1)) S₃ (fun _ => True) body R) :
    E.Does n S S₄ P (Eval.whileLoop n c body) fun x => Holds r x := by
  have hthird := hfirst.trans hsecond
  have henter : ∀ {x}, x = S.blocks ∨ x = S.blocks + 1 ∨ x = S.blocks + 2 → E.Enterable S x := fun hx =>
    loop_enterable hroom hv htest hfork hround hback hlast hx
  have htop := henter (.inl rfl)
  have hin := (henter (.inr (.inl rfl))).of_routine hfirst.routine
  have hout := (henter (.inr (.inr rfl))).of_routine hfirst.routine
  rw [← hfirst.ref, ← hfirst.ref] at hfork
  rw [← hthird.ref] at hback
  set T := (S.grow 3).move S.blocks with hT
  -- a round starts at the test and leads back to it
  have hloop : E.Does n T (S₃.move (S.blocks + 2)) (fun _ => True) (Eval.loop (do
      if (← c).isTrue then
        let _ ← body
        return true
      else return false) n) fun _ _ => True := by
    refine loops (.true _) fun a m w hrel _ => ?_
    refine Sim.bind ((hc a m w hrel trivial).mono ?_)
    rintro x w₁ j y ⟨a₁, m₁, rfl, hrel₁, hkeeps₁, hx⟩
    cases hxt : x.isTrue with
    | false =>
      rw [hxt] at hx
      rw [if_neg Bool.false_ne_true]
      exact ⟨1, _, branch_leads hrel₁ hfork hx hout, a₁.goto _, m₁, rfl, hkeeps₁,
        (hrel₁.goto _).forward (by simpa using hsecond) rfl rfl⟩
    | true =>
      rw [hxt] at hx
      rw [if_pos rfl]
      have hgo := branch_leads hrel₁ hfork hx hin
      have hrun := hbody _ _ w₁ (hrel₁.goto (S.blocks + 1)) trivial
      refine (Sim.after (Sim.bind (hrun.mono ?_)) hgo).bound (by omega)
      rintro u w₂ i z ⟨a₂, m₂, rfl, hrel₂, hkeeps₂, -⟩
      have hagain := jump_leads hrel₂ hback (htop.of_routine hthird.routine)
      refine ⟨1, _, hagain, a₂.goto _, m₂, rfl, ?_, by omega, ?_⟩
      · exact hkeeps₁.trans hkeeps₂ hfirst.registers
      · exact (hrel₂.goto S.blocks).back (by simpa [hT] using hthird) rfl rfl hrel.slots
  -- the jump to the first test
  have hjump : E.Does n S T P (Pure.pure ()) fun _ _ => True := by
    have hat : (S.move S.blocks).Follows T := by simp [hT]
    exact ((jump hstart htop).to_site hat rfl rfl).weaken (fun _ h => h) fun _ _ _ => trivial
  exact hjump.after (Nat.le_refl _) (hloop.bind hthird.registers fun _ => const hroom hlast)

/-- The end of a round of a counting loop: the variable steps on, and the value that it steps from decides
whether there is another round. -/
theorem stepOn {S₈ S₉ S₁₀ : Site} {x : Register} (hroom : E.Room S₁₁)
    (hb : S.locals.get? name = some ⟨slot, .scalar⟩) (hz : z < S.registers) (hst : st < S.registers)
    (hload : Lowered E.code (.op (.load slot)) S [c] S₈) (hnext : Lowered E.code (.op (.arith .add c st)) S₈ [x] S₉)
    (hstore : Lowered E.code (.store x slot) S₉ [] S₁₀)
    (hagain : Lowered E.code (.op (.compare dir.repeatTest c z)) S₁₀ [t] S₁₁) :
    E.Does n S S₁₁ (fun regs => Holds z last regs ∧ Holds st dir.step regs) (do
      let current ← Eval.fetch (.scalar name)
      Eval.put (.scalar name) (dir.next current)
      return dir.goesOn current last) fun again => Holds t (.ofBool again) := by
  obtain ⟨rfl, rfl⟩ := hload.of_op
  obtain ⟨rfl, rfl⟩ := hnext.of_op
  obtain rfl := hstore.of_store
  obtain ⟨rfl, rfl⟩ := hagain.of_op
  have hroom₁₀ := hroom.of_next
  have hroom₉ := hroom₁₀.of_skip
  -- each step spares the registers that a later one reads
  have h₁ := (fetchScalar (n := n) (P := fun _ => True) hroom₉.of_next hb hload).frame
    ((Stable.holds hz last).and (.holds hst dir.step))
  have h₂ : ∀ y, E.Does n S.next S.next.next
      (fun regs => Holds S.registers y regs ∧ Holds z last regs ∧ Holds st dir.step regs)
      (Pure.pure (dir.next y)) fun u regs => Holds (S.registers + 1) u regs ∧
        Holds S.registers y regs ∧ Holds z last regs := by
    intro y
    have hadd := (arith (n := n) (x := y) (y := dir.step) hroom₉ hnext).frame
      ((Stable.holds (Nat.lt_succ_self S.registers) y).and
        (.holds (Nat.lt_succ_of_lt hz) last))
    rw [Direction.next_eq]
    exact hadd.weaken (fun _ h => ⟨⟨h.1, h.2.2⟩, h.1, h.2.1⟩) fun _ _ h => h
  have h₃ : ∀ y u, E.Does n S.next.next S.next.next.skip (fun regs => Holds (S.registers + 1) u regs ∧
      Holds S.registers y regs ∧ Holds z last regs) (Eval.put (.scalar name) u) fun _ regs =>
        Holds S.registers y regs ∧ Holds z last regs := by
    intro y u
    have hput := (putScalar (n := n) (x := u) (E := E) (S := S.next.next) hb hstore).frame
      ((Stable.holds (Nat.lt_add_of_pos_right Nat.zero_lt_two) y).and
        (.holds (Nat.lt_add_right 2 hz) last))
    exact hput.weaken (fun _ h => h) fun _ _ h => h.2
  have h₄ : ∀ y, E.Does n S.next.next.skip S.next.next.skip.next (fun regs =>
      Holds S.registers y regs ∧ Holds z last regs) (Pure.pure (dir.goesOn y last))
        fun again => Holds S.next.next.skip.registers (.ofBool again) := by
    intro y
    rw [Direction.goesOn_eq]
    exact fun a m w hrel hp => compare (n := n) hroom hagain a m w hrel hp
  have hrest : ∀ y, E.Does n S.next S.next.next.skip.next
      (fun regs => Holds S.registers y regs ∧ Holds z last regs ∧ Holds st dir.step regs) (do
        Eval.put (.scalar name) (dir.next y)
        return dir.goesOn y last)
      fun again => Holds S.next.next.skip.registers (.ofBool again) := fun y =>
    (h₂ y).bind (Nat.le_succ _) fun u => (h₃ y u).bind (Nat.le_refl _) fun _ => h₄ y
  exact (h₁.weaken (fun _ h => ⟨trivial, h⟩) fun _ _ h => h).bind (Nat.le_succ _) hrest

theorem entryTest {I : Array Content → Prop} (hroom : E.Room S₆)
    (hb : S.locals.get? name = some ⟨slot, .scalar⟩) (hstable : Stable S.registers I)
    (hz : ∀ regs, I regs → Holds z last regs) (hjump : E.code.Ends S (.jump (S.ref S.blocks)))
    (henter : E.Enterable S S.blocks) (hload : Lowered E.code (.op (.load slot)) ((S.grow 3).move S.blocks) [c] S₅)
    (htest : Lowered E.code (.op (.compare dir.entryTest c z)) S₅ [t] S₆) :
    E.Does n S S₆ I (Eval.fetch (.scalar name)) fun y regs =>
      Holds t (.ofBool (dir.starts y last)) regs ∧ I regs := by
  obtain ⟨rfl, rfl⟩ := hload.of_op
  obtain ⟨rfl, rfl⟩ := htest.of_op
  set T := (S.grow 3).move S.blocks with hT
  have hstart : E.Does n S T I (Pure.pure ()) fun _ => I := by
    have hat : (S.move S.blocks).Follows T := by simp [hT]
    exact (jump hjump henter).to_site hat rfl rfl
  have hcurrent : E.Does n T T.next I (Eval.fetch (.scalar name)) fun y regs =>
      Holds S.registers y regs ∧ I regs :=
    ((fetchScalar (S := T) hroom.of_next hb hload).frame hstable).weaken (fun _ h => ⟨trivial, h⟩)
      fun _ _ h => h
  have hcompare : ∀ y, E.Does n T.next T.next.next (fun regs => Holds S.registers y regs ∧ I regs)
      (Pure.pure ()) fun _ regs => Holds (S.registers + 1) (.ofBool (dir.starts y last)) regs ∧ I regs := by
    intro y
    rw [Direction.starts_eq]
    have hholds := ((compare (n := n) (x := y) (y := last) hroom htest).frame
      (hstable.mono (Nat.le_succ _))).weaken (R := fun regs => Holds S.registers y regs ∧ I regs)
      (fun regs h => ⟨⟨h.1, hz regs h.2⟩, h.2⟩) fun _ _ h => h
    exact fun a m w hrel hp => hholds a m w hrel hp
  exact hstart.after (Nat.le_refl _) (hcurrent.before (Nat.le_succ _) hcompare)

/-- A counting loop from the test before its first round on. -/
theorem counting {S₁₂ : Site} {t' : Register} {round : Eval Bool} (hroom : E.Room S₁₂) (hv : S.Valid)
    (hb : S.locals.get? name = some ⟨slot, .scalar⟩) (hz : z < S.registers) (hst : st < S.registers)
    (htest : Region E.code ((S.grow 3).move S.blocks) [] S₆) (hf₆ : S.Follows S₆)
    (hround : Region E.code (S₆.move (S.blocks + 1)) [] S₁₁) (hf : S₆.Follows S₁₁)
    (hjump : E.code.Ends S (.jump (S.ref S.blocks)))
    (hload : Lowered E.code (.op (.load slot)) ((S.grow 3).move S.blocks) [c] S₅)
    (hfirst : Lowered E.code (.op (.compare dir.entryTest c z)) S₅ [t] S₆)
    (hfork : E.code.Ends S₆ (.branch t (S.ref (S.blocks + 1)) (S.ref (S.blocks + 2))))
    (hback : E.code.Ends S₁₁ (.branch t' (S.ref (S.blocks + 1)) (S.ref (S.blocks + 2))))
    (hlast : Lowered E.code (.op (.const 0)) (S₁₁.move (S.blocks + 2)) [r] S₁₂)
    (hbody : E.Does n (S₆.move (S.blocks + 1)) S₁₁
      (fun regs => Holds z last regs ∧ Holds st dir.step regs) round
      fun again => Holds t' (.ofBool again)) :
    E.Does n S S₁₂ (fun regs => Holds z last regs ∧ Holds st dir.step regs) (do
      if dir.starts (← Eval.fetch (.scalar name)) last then Eval.loop round n
      return 0) fun x => Holds r x := by
  have henter : ∀ {x}, x = S.blocks ∨ x = S.blocks + 1 ∨ x = S.blocks + 2 → E.Enterable S x := fun hx =>
    loop_enterable hroom hv htest hfork hround hback hlast hx
  have hin : E.Enterable S₆ (S.blocks + 1) := (henter (.inr (.inl rfl))).of_routine hf₆.routine
  have hout : E.Enterable S₆ (S.blocks + 2) := (henter (.inr (.inr rfl))).of_routine hf₆.routine
  rw [← hf₆.ref, ← hf₆.ref] at hfork
  rw [← (hf₆.trans hf).ref, ← (hf₆.trans hf).ref] at hback
  have hroom₆ : E.Room S₆ := by
    obtain ⟨-, rfl⟩ := hlast.of_op
    exact (hroom.of_next.of_move.back hround).of_move
  -- the bound and the step are in registers older than the loop, so all of it leaves them alone
  set I : Array Content → Prop := fun regs => Holds z last regs ∧ Holds st dir.step regs with hI
  have hstable : Stable S.registers I := (Stable.holds hz last).and (.holds hst dir.step)
  have hstable₆ : Stable S₆.registers I := hstable.mono hf₆.registers
  have hloop : E.Does n (S₆.move (S.blocks + 1)) (S₁₁.move (S.blocks + 2)) I (Eval.loop round n)
      fun _ _ => True :=
    repeats hstable₆ rfl (by simpa using hf) hback (hin.of_routine hf.routine) (hout.of_routine hf.routine) hbody
  have hend : E.Does n (S₁₁.move (S.blocks + 2)) S₁₂ (fun _ => True) (Pure.pure 0)
      fun x => Holds r x := const hroom hlast
  refine (entryTest hroom₆ hb hstable (fun _ h => h.1) hjump (henter (.inl rfl)) hload hfirst).bind
    hf₆.registers fun y => ?_
  cases hstarts : dir.starts y last with
  | true =>
    have hgo := (branch (n := n) true hfork hin).frame hstable₆
    rw [if_pos rfl]
    refine (hgo.weaken (fun _ h => h) fun _ _ h => h.2).after (Nat.le_refl _) ?_
    exact hloop.bind hf.registers fun _ => hend
  | false =>
    have hgo := branch (n := n) false hfork hout
    have hat : (S₆.move (S.blocks + 2)).Follows (S₁₁.move (S.blocks + 2)) := by simpa using hf
    rw [if_neg Bool.false_ne_true]
    exact ((hgo.to_site hat rfl rfl).weaken (fun _ h => h.1) fun _ _ h => h).after hf.registers hend

end Scene.Does

/-! ## 3. Calls and exits -/

/-- A call comes out as the evaluator says, which takes more than `n` steps with its own one if it runs out
of rounds or calls. -/
def Code.Answers (C : Code) (n : Nat) (g : Nat) (args : List Word) (depth : Nat) (m : Machine)
    (vars : String → Option Variable) : EStateM.Result Stop World Word → Prop
  | .ok v w => w.vars = vars ∧ ∃ m', Leads 0 (C.calling g args depth m) (.returned v m') ∧
      m'.memory = m.memory ∧ m'.input = w.input ∧ m'.output.toList = w.output
  | .error (.failure f) _ => Leads 0 (C.calling g args depth m) (.faulty f.fault)
  | .error .timeout _ => ∀ k < n, Stuck k (C.calling g args depth m)
  | .error _ _ => False

/-- The routines do what the surroundings say that calls do. -/
def Surroundings.Matches (ctx : Surroundings) (C : Code) : Prop :=
  ∀ g name params args depth (m : Machine) (w : World), C.heading? g = some (name, params) →
    args.length = params.length → m.input = w.input → m.output.toList = w.output →
    C.Answers ctx.rounds g args depth m w.vars (ctx.call name args w)

theorem Activation.mapM_word {a : Activation} {args : List Word}
    (h : List.Forall₂ (fun r x => Holds r x a.registers) rs args) (m : Machine) : rs.mapM a.word m = .ok args m := by
  induction h with
  | nil => rfl
  | cons hr _ ih =>
    rw [List.mapM_cons, Run.bind_ok (word_ok hr m), Run.bind_ok ih]
    rfl

namespace Scene.Does

variable {E : Scene} {S S₁ : Site} {ctx : Surroundings}

theorem call {g : Nat} {name : String} {params : List String} {rs : List Register} {r : Register}
    {args : List Word} (hmatches : ctx.Matches E.code) (hroom : E.Room S₁)
    (hheading : E.code.heading? g = some (name, params)) (hlength : params.length = rs.length)
    (h : Lowered E.code (.op (.call g rs)) S [r] S₁) :
    E.Does ctx.rounds S S₁ (fun regs => List.Forall₂ (fun r x => Holds r x regs) rs args)
      (ctx.call name args) fun x => Holds r x := by
  intro a m w hrel hargs
  cases h with
  | op hphi hhas =>
    have hins := hrel.instruction hhas
    have hlt : S.registers < a.registers.size := by
      rw [hrel.size_eq]
      exact hroom.registers
    have hmap := Activation.mapM_word hargs
    have hanswer := hmatches g name params args (a.depth + 1) m w hheading
      (hargs.length_eq.symm.trans hlength.symm) hrel.shared.input hrel.shared.output
    -- the call comes out as the evaluation of the callee does
    cases hcall : ctx.call name args w with
    | ok v w' =>
      rw [hcall] at hanswer
      obtain ⟨hvars, m', hlead, hmemory, hinput, houtput⟩ := hanswer
      refine ⟨1, _, Activation.leads_call hins hlt hmap hlead, _, m', rfl, ?_, .defined a _ _,
        Array.getElem?_setIfInBounds_self_of_lt hlt⟩
      refine hrel.define _ ⟨hinput, houtput, fun k hk => ?_⟩ ?_
      · rw [hmemory]
        exact hrel.shared.memory k hk
      · rw [hmemory, hvars]
        exact hrel.laid
    | error stop w' =>
      rw [hcall] at hanswer
      cases stop with
      | failure f => exact (Activation.leads_call_fault hins hlt hmap hanswer).mono (Nat.zero_le 1)
      | timeout => exact Activation.stuck_call hins hlt hmap hanswer
      | exit v => exact hanswer.elim
      | senseless => exact hanswer.elim

theorem leave {n : Nat} {v : Register} {x : Word} {Q : Word → Array Content → Prop}
    (hends : E.code.Ends S (.jump (S.ref 1))) (hleaves : E.code.Leaves S.routine (v, S.place)) :
    E.Does n S S₁ (Holds v x) (throw (.exit x)) Q := by
  intro a m w hrel hv
  obtain ⟨hi, he⟩ := hrel.exit hends
  obtain ⟨a', henter, hreturn⟩ := hleaves a x hrel.routine hrel.block hrel.size hv
  exact ⟨_, ((Activation.leads_jump hi he henter).trans (hreturn m)).mono (Nat.zero_le _), m, rfl,
    hrel.shared⟩

end Scene.Does

end Mila
