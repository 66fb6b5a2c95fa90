import Mila.Proofs.Constructs

/-! # Phrases

The code of every expression and of every statement does what the evaluation of its node does. Nodes that
declare something are left out here: they may only stand at the top of a program or of a subprogram.
-/

namespace Mila

open Behaviour

/-! ## 1. What phrases mean -/

/-- A site in a routine whose names mean what the surroundings say. -/
structure Site.Suits (ctx : Surroundings) (S : Site) : Prop where
  valid : S.Valid
  slots : S.Slotted
  constants : ∀ name w, S.globals.constant? name = some w → ctx.constants name = some w
  resultName : S.resultName = ctx.resultName
  result : ∀ name, ctx.resultName = some name → ∃ slot, S.locals.get? name = some ⟨slot, .scalar⟩

theorem Site.Suits.follow {ctx : Surroundings} {S S' : Site} (h : S.Suits ctx) (hf : S.Follows S')
    (hv : S'.Valid) : S'.Suits ctx where
  valid := hv
  slots := h.slots.follow hf
  constants := by
    rw [hf.globals]
    exact h.constants
  resultName := hf.resultName.trans h.resultName
  result := by
    rw [hf.locals]
    exact h.result

/-- The registers that a node yields, if any, hold its word. A node that yields none has the word zero. -/
def Yields (rs : List Register) (x : Word) (registers : Array Content) : Prop :=
  (rs = [] → x = 0) ∧ ∀ r ∈ rs, Holds r x registers

/-- The code of a phrase does what the phrase means. -/
def Phrase.Done (E : Scene) (ctx : Surroundings) (S : Site) (rs : List Register) (S' : Site) :
    Phrase → Prop
  | .node n => E.Does ctx.rounds S S' (fun _ => True) (Eval.node ctx n) (Yields rs)
  | .value n => E.Does ctx.rounds S S' (fun _ => True) (Eval.node ctx n)
      fun x regs => ∀ r ∈ rs, Holds r x regs
  | .target n => E.Does ctx.rounds S S' (fun _ => True) (Eval.target ctx n)
      fun d regs => ∀ r ∈ rs, Points S'.locals.get? r d regs
  | .sequence last nodes => ∀ x, E.Does ctx.rounds S S' (Yields last.toList x)
      (Eval.sequence ctx x nodes) (Yields rs)
  | .arguments nodes => E.Does ctx.rounds S S' (fun _ => True) (Eval.arguments ctx nodes)
      fun xs regs => List.Forall₂ (fun r x => Holds r x regs) rs xs
  | _ => True

variable {registers : Array Content} {r : Register} {n : Nat} {P : Array Content → Prop}

theorem Yields.nil : Yields [] 0 registers :=
  ⟨fun _ => rfl, fun _ hr => absurd hr List.not_mem_nil⟩

theorem Yields.single {x : Word} : Yields [r] x registers ↔ Holds r x registers := by
  constructor
  · exact fun h => h.2 r List.mem_cons_self
  · intro h
    refine ⟨fun hnil => absurd hnil (List.cons_ne_nil r []), fun s hs => ?_⟩
    rw [List.mem_singleton.mp hs]
    exact h

section

variable {E : Scene} {ctx : Surroundings} {ph : Phrase} {S S' S₁ : Site} {rs : List Register}

theorem Site.Suits.step (hsuits : S.Suits ctx) (h : Lowered E.code ph S rs S₁) (hplain : ph.Plain)
    (hfits : ph.Fits E.code S.routine) : S₁.Suits ctx :=
  hsuits.follow (h.follows hplain) ((h.region hsuits.valid hfits).valid hsuits.valid)

theorem Scene.Room.step (hroom : E.Room S') (h : Lowered E.code ph S₁ rs S') (hsuits : S₁.Suits ctx)
    (hfits : ph.Fits E.code S₁.routine) : E.Room S₁ := hroom.back (h.region hsuits.valid hfits)

end

/-- Leaving a subprogram with the value of its result variable, or with zero if it has none. -/
theorem Scene.Does.exit {E : Scene} {ctx : Surroundings} {S S₁ S₂ : Site} {v : Register}
    {Q : Word → Array Content → Prop} (hsuits : S.Suits ctx)
    (hv : Lowered E.code .result S [v] S₁) (hroom : E.Room S₁)
    (hends : E.code.Ends S₁ (.jump (S₁.ref 1))) (hleaves : E.code.Leaves S₁.routine (v, S₁.place)) :
    E.Does n S S₂ P (Eval.exit ctx) Q := by
  have hresult := hsuits.resultName
  unfold Eval.exit
  cases hname : ctx.resultName with
  | none =>
    cases hv with
    | resultVariable hb h =>
      rw [hresult, hname] at hb
      cases hb
    | resultZero hb h => exact (const hroom h).bind (h.follows trivial).registers fun x => leave hends hleaves
  | some name =>
    obtain ⟨slot, hslot⟩ := hsuits.result name hname
    cases hv with
    | resultVariable hb h =>
      rw [hresult, hname, Option.bind_some, hslot] at hb
      obtain rfl := Option.some.inj hb
      exact (fetchScalar hroom hslot h).bind (h.follows trivial).registers fun x => leave hends hleaves
    | resultZero hb h =>
      rw [hresult, hname, Option.bind_some, hslot] at hb
      cases hb

/-- Zero stands for the value of a node that has none. -/
theorem Scene.Does.zero {E : Scene} {S S₁ S₂ : Site} {e : Eval Word}
    (hroom : E.Room S₂) (he : E.Does n S S₁ P e (Yields []))
    (hle : S.registers ≤ S₁.registers) (h : Lowered E.code (.op (.const 0)) S₁ [r] S₂) :
    E.Does n S S₂ P e fun x regs => ∀ s ∈ [r], Holds s x regs := by
  refine he.before hle fun x a m w hrel hx => ?_
  obtain rfl := hx.1 rfl
  obtain ⟨j, y, hlead, a', m', hy, hrel', hkeeps, hr⟩ :=
    const (n := n) (P := fun _ => True) hroom h a m w hrel trivial
  exact ⟨j, y, hlead, a', m', hy, hrel', hkeeps, fun s hs => List.mem_singleton.mp hs ▸ hr⟩

namespace Eval

variable (ctx : Surroundings)

theorem node_element (name : String) (index : Node) :
    node ctx (.element name index) = target ctx (.element name index) >>= fetch := by
  simp only [node, target, bind_assoc, pure_bind]

theorem node_binary {op : BinaryOperator} (hop : op ≠ .assign) (lhs rhs : Node) : node ctx (.binary op lhs rhs) = (do
      let a ← node ctx lhs
      let b ← node ctx rhs
      combine op a b) := by
  cases op with
  | assign => exact absurd rfl hop
  | _ => rfl

end Eval

namespace Scene

variable {E : Scene} {ctx : Surroundings} {S S₁ : Site} {a : Activation} {m : Machine} {w : World}
  {name : String}

theorem Related.read_variable (h : E.Related S a m w) {slot : Register}
    (hb : S.locals.get? name = some ⟨slot, .scalar⟩) : Eval.read ctx name w = Eval.fetch (.scalar name) w := by
  obtain ⟨loc, hloc⟩ := h.laid
  obtain ⟨x, c, hx, -⟩ := hloc.present name _ hb
  rw [Eval.read, Eval.get_bind, hx]

theorem Related.read_constant (h : E.Related S a m w) {value : Word}
    (hb : S.locals.get? name = none) (hvalue : ctx.constants name = some value) :
    Eval.read ctx name w = .ok value w := by
  obtain ⟨loc, hloc⟩ := h.laid
  rw [Eval.read, Eval.get_bind, hloc.absent name hb]
  dsimp only
  rw [hvalue]
  rfl

/-- Only what an evaluation does in related states matters. -/
theorem Does.congr {α : Type} {n : Nat} {P : Array Content → Prop} {Q : α → Array Content → Prop}
    {e e' : Eval α} (h : E.Does n S S₁ P e Q)
    (he : ∀ a m w, E.Related S a m w → e' w = e w) : E.Does n S S₁ P e' Q := by
  intro a m w hrel hp
  rw [he a m w hrel]
  exact h a m w hrel hp

end Scene

/-- What a round of a counting loop does. -/
theorem Scene.Does.round {E : Scene} {ctx : Surroundings} {T S₇ S₈ S₉ S₁₀ S₁₁ : Site} {name : String} {body : Node}
    {slot c st x z t : Register} {rs : List Register} {dir : Direction} {last : Word} (hsuits : T.Suits ctx)
    (hb : T.locals.get? name = some ⟨slot, .scalar⟩) (hplain : body.Plain)
    (hbody : Lowered E.code (.node body) { T with locals := (T.locals.shadow name ⟨slot, .scalar⟩).2 } rs S₇)
    (hload : Lowered E.code (.op (.load slot)) { S₇ with
      locals := S₇.locals.restore name (T.locals.shadow name ⟨slot, .scalar⟩).1 } [c] S₈)
    (hnext : Lowered E.code (.op (.arith .add c st)) S₈ [x] S₉)
    (hstore : Lowered E.code (.store x slot) S₉ [] S₁₀)
    (hagain : Lowered E.code (.op (.compare dir.repeatTest c z)) S₁₀ [t] S₁₁)
    (hdone : Site.Suits ctx { T with locals := (T.locals.shadow name ⟨slot, .scalar⟩).2 } → E.Room S₇ →
      Phrase.Done E ctx { T with locals := (T.locals.shadow name ⟨slot, .scalar⟩).2 } rs S₇ (.node body))
    (hroom : E.Room S₁₁) (hz : (z : Nat) < T.registers) (hst : (st : Nat) < T.registers) :
    E.Does ctx.rounds T S₁₁ (fun regs => Holds z last regs ∧ Holds st dir.step regs) (do
      let _ ← Eval.node ctx body
      let current ← Eval.fetch (.scalar name)
      Eval.put (.scalar name) (dir.next current)
      return dir.goesOn current last) fun again => Holds t (.ofBool again) := by
  have hv := hsuits.valid
  have hheld := Site.Follows.shadow hb
  have hsuitsB := hsuits.follow hheld ⟨hv.blocks, hv.block, hv.notReturn⟩
  have hv₇ := (hsuitsB.step hbody hplain trivial).valid
  have hf₇ := hheld.trans (hbody.follows hplain)
  have hgiven := Site.Follows.restore hb hf₇.locals
  have hsuitsG := (hsuitsB.step hbody hplain trivial).follow hgiven ⟨hv₇.blocks, hv₇.block, hv₇.notReturn⟩
  have hsuits₈ := hsuitsG.step hload trivial trivial
  have hsuits₉ := hsuits₈.step hnext trivial trivial
  have hroom₁₀ := hroom.step hagain (hsuits₉.step hstore trivial trivial) trivial
  have hroomG := ((hroom₁₀.step hstore hsuits₉ trivial).step hnext hsuits₈ trivial).step hload hsuitsG trivial
  have hdone' := hdone hsuitsB ⟨hroomG.blocks, hroomG.registers, hroomG.returns⟩
  simp only [Phrase.Done] at hdone'
  -- the registers of the bound and of the step are older than the body
  have hstable := (Stable.holds hz last).and (.holds hst dir.step)
  have hat := ((hdone'.from_site hheld rfl rfl).to_site hgiven rfl rfl).frame hstable
  refine (hat.weaken (fun _ h => ⟨trivial, h⟩) fun _ _ h => h.2).bind hf₇.registers fun _ => ?_
  refine stepOn hroom ?_ (hz.trans_le hf₇.registers) (hst.trans_le hf₇.registers) hload hnext hstore hagain
  rw [hgiven.locals, hf₇.locals, hb]

/-- Where its surroundings suit, the code of a plain phrase does what the phrase means. -/
def Phrase.Realized (E : Scene) (ctx : Surroundings) (S : Site) (rs : List Register) (S' : Site)
    (ph : Phrase) : Prop := ph.Plain → S.Suits ctx → E.Room S' → ph.Done E ctx S rs S'

/-! ## 2. One phrase made of others -/

namespace Phrase.Realized

variable {E : Scene} {ctx : Surroundings} {S S₁ S₂ S₃ S₄ : Site}

variable {name : String} {index lhs rhs c body stop n : Node} {slot r v x cv b z st : Register} {rs : List Register}
  {nodes : List Node}

theorem element (hslot : Lowered E.code (.target (.element name index)) S [slot] S₁)
    (h : Lowered E.code (.op (.load slot)) S₁ [r] S₂)
    (htarget : Realized E ctx S [slot] S₁ (.target (.element name index))) :
    Realized E ctx S [r] S₂ (.node (.element name index)) := by
  intro hplain hsuits hroom
  have hsuits₁ := hsuits.step hslot hplain trivial
  have hdone := htarget hplain hsuits (hroom.step h hsuits₁ trivial)
  rw [Phrase.Done, Eval.node_element]
  simp only [Phrase.Done] at hdone
  refine hdone.bind (hslot.follows hplain).registers fun d => ?_
  exact (Scene.Does.load hroom h).weaken (fun _ h => h _ List.mem_cons_self)
    fun _ _ h => Yields.single.mpr h

theorem targetElement {i : Register}
    (hb : S.locals.get? name = some ⟨slot, .array⟩) (hi : Lowered E.code (.value index) S [i] S₁)
    (h : Lowered E.code (.op (.offset slot i)) S₁ [r] S₂) (hindex : Realized E ctx S [i] S₁ (.value index)) :
    Realized E ctx S [r] S₂ (.target (.element name index)) := by
  intro hplain hsuits hroom
  have hsuits₁ := hsuits.step hi hplain trivial
  have hdone := hindex hplain hsuits (hroom.step h hsuits₁ trivial)
  have hf := hi.follows hplain
  rw [Phrase.Done, Eval.target]
  simp only [Phrase.Done] at hdone
  refine hdone.bind hf.registers fun x => ?_
  obtain ⟨rfl, rfl⟩ := h.of_op
  refine (Scene.Does.offset hroom (by rw [hf.locals]; exact hb) h).weaken
    (fun _ h => h _ List.mem_cons_self) fun d regs h r hr => ?_
  rw [List.mem_singleton.mp hr]
  exact h

theorem assign (hv : Lowered E.code (.value rhs) S [v] S₁)
    (hslot : Lowered E.code (.target lhs) S₁ [slot] S₂) (h : Lowered E.code (.store v slot) S₂ [] S₃)
    (hvalue : Realized E ctx S [v] S₁ (.value rhs)) (htarget : Realized E ctx S₁ [slot] S₂ (.target lhs)) :
    Realized E ctx S [v] S₃ (.node (.binary .assign lhs rhs)) := by
  intro hplain hsuits hroom
  have hsuits₁ := hsuits.step hv hplain.2 trivial
  have hsuits₂ := hsuits₁.step hslot hplain.1 trivial
  have hroom₂ := hroom.step h hsuits₂ trivial
  have hvalue := hvalue hplain.2 hsuits (hroom₂.step hslot hsuits₁ trivial)
  have htarget := htarget hplain.1 hsuits₁ hroom₂
  have hlt := hv.results_lt hplain.2 hsuits.slots trivial _ List.mem_cons_self
  have hf := hslot.follows hplain.1
  simp only [Phrase.Done]
  rw [Eval.node]
  simp only [Phrase.Done] at hvalue htarget
  refine hvalue.bind (hv.follows hplain.2).registers fun x => ?_
  -- the value stays in its register while the place is found and written to
  refine ((htarget.holding hlt x).weaken (fun _ h => ⟨trivial, h _ List.mem_cons_self⟩)
    fun _ _ h => h).bind hf.registers fun d => ?_
  have hstore := (Scene.Does.store (n := ctx.rounds) (d := d) (x := x) h).holding
    (hlt.trans_le hf.registers) x
  refine (hstore.weaken (fun _ h => ⟨⟨h.2, h.1 _ List.mem_cons_self⟩, h.2⟩)
    fun _ _ h => h.2).bind (h.follows trivial).registers fun _ => ?_
  exact .pure x fun _ h => Yields.single.mpr h

theorem binary {op : BinaryOperator} {l : Register} (hop : op ≠ .assign)
    (hl : Lowered E.code (.value lhs) S [l] S₁) (hr : Lowered E.code (.value rhs) S₁ [r] S₂)
    (h : Lowered E.code (.combine op l r) S₂ [x] S₃) (hleft : Realized E ctx S [l] S₁ (.value lhs))
    (hright : Realized E ctx S₁ [r] S₂ (.value rhs)) : Realized E ctx S [x] S₃ (.node (.binary op lhs rhs)) := by
  intro hplain hsuits hroom
  have hsuits₁ := hsuits.step hl hplain.1 trivial
  have hsuits₂ := hsuits₁.step hr hplain.2 trivial
  have hroom₂ := hroom.step h hsuits₂ trivial
  have hleft := hleft hplain.1 hsuits (hroom₂.step hr hsuits₁ trivial)
  have hright := hright hplain.2 hsuits₁ hroom₂
  have hlt := hl.results_lt hplain.1 hsuits.slots trivial _ List.mem_cons_self
  have hlt' := hr.results_lt hplain.2 hsuits₁.slots trivial _ List.mem_cons_self
  have hf := hr.follows hplain.2
  rw [Phrase.Done, Eval.node_binary ctx hop]
  simp only [Phrase.Done] at hleft hright
  refine hleft.bind (hl.follows hplain.1).registers fun x => ?_
  -- the left operand stays in its register while the right one is computed
  refine ((hright.holding hlt x).weaken (fun _ h => ⟨trivial, h _ List.mem_cons_self⟩)
    fun _ _ h => h).bind hf.registers fun y => ?_
  exact (Scene.Does.combine hroom h (hlt.trans_le hf.registers) hlt').weaken
    (fun _ h => ⟨h.2, h.1 _ List.mem_cons_self⟩) fun _ _ h => Yields.single.mpr h

theorem conditional {t e : Node} {tv ev : Register} (hphis : E.code.PhisFirst)
    (hc : Lowered E.code (.value c) S [cv] S₁) (hb : Lowered E.code (.booleanize cv) S₁ [b] S₂)
    (hfork : E.code.Ends S₂ (.branch b (S₂.ref S₂.blocks) (S₂.ref (S₂.blocks + 1))))
    (ht : Lowered E.code (.value t) ((S₂.grow 3).move S₂.blocks) [tv] S₃)
    (htend : E.code.Ends S₃ (.jump (S₂.ref (S₂.blocks + 2))))
    (he : Lowered E.code (.value e) (S₃.move (S₂.blocks + 1)) [ev] S₄)
    (heend : E.code.Ends S₄ (.jump (S₂.ref (S₂.blocks + 2)))) (hphi : E.code.Has (S₄.move (S₂.blocks + 2))
      (.define S₄.registers (.phi [(tv, S₃.place), (ev, S₄.place)]))) (hcond : Realized E ctx S [cv] S₁ (.value c))
    (hone : Realized E ctx ((S₂.grow 3).move S₂.blocks) [tv] S₃ (.value t))
    (hother : Realized E ctx (S₃.move (S₂.blocks + 1)) [ev] S₄ (.value e)) :
    Realized E ctx S [S₄.registers] (S₄.move (S₂.blocks + 2)).next (.node (.conditional c t e)) := by
  rintro ⟨hpc, hpt, hpe⟩ hsuits hroom
  have hsuits₁ := hsuits.step hc hpc trivial
  have hsuits₂ := hsuits₁.step hb trivial trivial
  have hfirst : S₂.Follows S₃ := by simpa using ht.follows hpt
  have hsecond : S₃.Follows S₄ := by simpa using he.follows hpe
  have hvt := Region.valid_first hsuits₂.valid
  have hthen := ht.region hvt trivial
  have hve := Region.valid_second hsuits₂.valid hthen
  have helse := he.region hve trivial
  -- the room at the end is room for each of the parts before
  have hroom₄ : E.Room S₄ := hroom.of_next.of_move
  have hroom₃ : E.Room S₃ := (hroom₄.back helse).of_move
  have hroom₂ : E.Room S₂ := (hroom₃.back hthen).of_move.of_grow
  have hcond := hcond hpc hsuits (hroom₂.step hb hsuits₁ trivial)
  have hone := hone hpt (hsuits₂.follow (by simp) hvt) hroom₃
  have hother := hother hpe (hsuits₂.follow (by simpa using hfirst) hve) hroom₄
  have hlt := hc.results_lt hpc hsuits.slots trivial cv List.mem_cons_self
  have hle := (hc.follows hpc).registers
  simp only [Phrase.Done] at hcond hone hother ⊢
  rw [Eval.node]
  have hdone := Scene.Does.conditional hphis hroom hsuits₂.valid hthen helse hfirst hsecond
    (hle.trans (hb.follows trivial).registers) hfork htend heend hphi
    (.truth hroom₂ hcond hb hle hlt)
    (hone.weaken (fun _ h => h) fun _ _ h => h tv List.mem_cons_self)
    (hother.weaken (fun _ h => h) fun _ _ h => h ev List.mem_cons_self)
  exact hdone.weaken (fun _ h => h) fun _ _ h => Yields.single.mpr h

theorem whileLoop (hstart : E.code.Ends S (.jump (S.ref S.blocks)))
    (hc : Lowered E.code (.value c) ((S.grow 3).move S.blocks) [cv] S₁)
    (hb : Lowered E.code (.booleanize cv) S₁ [b] S₂)
    (hfork : E.code.Ends S₂ (.branch b (S.ref (S.blocks + 1)) (S.ref (S.blocks + 2))))
    (hbody : Lowered E.code (.node body) (S₂.move (S.blocks + 1)) rs S₃)
    (hback : E.code.Ends S₃ (.jump (S.ref S.blocks)))
    (h : Lowered E.code (.op (.const 0)) (S₃.move (S.blocks + 2)) [r] S₄)
    (hcond : Realized E ctx ((S.grow 3).move S.blocks) [cv] S₁ (.value c))
    (hloop : Realized E ctx (S₂.move (S.blocks + 1)) rs S₃ (.node body)) :
    Realized E ctx S [r] S₄ (.node (.whileLoop c body)) := by
  rintro ⟨hpc, hpb⟩ hsuits hroom
  -- where the test and the body stand, and that there is room for both
  have hvt := Region.valid_first hsuits.valid
  have hsuitsT : Site.Suits ctx ((S.grow 3).move S.blocks) := hsuits.follow (by simp) hvt
  have hsuits₁ := hsuitsT.step hc hpc trivial
  have hsuits₂ := hsuits₁.step hb trivial trivial
  have hfirst : S.Follows S₂ := by simpa using (hc.follows hpc).trans (hb.follows trivial)
  have hsecond : S₂.Follows S₃ := by simpa using hbody.follows hpb
  have htest := (hc.region hvt trivial).seq hvt fun hv _ => hb.region hv trivial
  have hvb := Region.valid_second hsuits.valid htest
  have hround := hbody.region hvb trivial
  have hroom₃ : E.Room S₃ := by
    obtain ⟨-, rfl⟩ := h.of_op
    exact hroom.of_next.of_move
  have hroom₂ : E.Room S₂ := (hroom₃.back hround).of_move
  have hcond := hcond hpc hsuitsT (hroom₂.step hb hsuits₁ trivial)
  have hloop := hloop hpb (hsuits₂.follow (by simp) hvb) hroom₃
  have hlt := hc.results_lt hpc hsuitsT.slots trivial cv List.mem_cons_self
  simp only [Phrase.Done] at hcond hloop ⊢
  rw [Eval.node]
  have hdone := Scene.Does.whileLoop (P := fun _ => True) hroom hsuits.valid htest hround hfirst
    hsecond hstart hfork hback h (.truth hroom₂ hcond hb (hc.follows hpc).registers hlt) hloop
  exact hdone.weaken (fun _ h => h) fun _ _ h => Yields.single.mpr h

/-- The bound of a counting loop stays in its register while the step is put into another one. -/
theorem bound {step : Word} (hroom : E.Room S₂) (hstop : Lowered E.code (.value stop) S [z] S₁) (hplain : stop.Plain)
    (hstep : Lowered E.code (.op (.const step)) S₁ [st] S₂) (hz : (z : Nat) < S₁.registers)
    (hdone : (Phrase.value stop).Done E ctx S [z] S₁) : E.Does ctx.rounds S S₂ (fun _ => True) (Eval.node ctx stop)
      fun last regs => Holds z last regs ∧ Holds st step regs := by
  simp only [Phrase.Done] at hdone
  refine hdone.before (hstop.follows hplain).registers fun last a m w hrel hheld => ?_
  have hconst := (Scene.Does.const (n := ctx.rounds) (P := fun _ => True) hroom hstep).frame
    (Stable.holds hz last)
  exact (hconst.weaken (fun _ h => ⟨trivial, h⟩) fun _ _ h => h.symm) a m w hrel
    (hheld z List.mem_cons_self)

theorem forLoop {dir : Direction} {start : Node} {c₁ t₁ c₂ u t₂ : Register} {S₅ S₆ S₇ S₈ S₉ S₁₀ S₁₁ S₁₂ : Site}
    (hb : S.locals.get? name = some ⟨slot, .scalar⟩)
    (hstart : Lowered E.code (.value start) S [x] S₁) (hset : Lowered E.code (.store x slot) S₁ [] S₂)
    (hstop : Lowered E.code (.value stop) S₂ [z] S₃) (hstep : Lowered E.code (.op (.const dir.step)) S₃ [st] S₄)
    (hjump : E.code.Ends S₄ (.jump (S₄.ref S₄.blocks)))
    (hfirst : Lowered E.code (.op (.load slot)) ((S₄.grow 3).move S₄.blocks) [c₁] S₅)
    (htest : Lowered E.code (.op (.compare dir.entryTest c₁ z)) S₅ [t₁] S₆)
    (hfork : E.code.Ends S₆ (.branch t₁ (S₄.ref (S₄.blocks + 1)) (S₄.ref (S₄.blocks + 2))))
    (hbody : Lowered E.code (.node body) { S₆.move (S₄.blocks + 1) with
      locals := (S₆.locals.shadow name ⟨slot, .scalar⟩).2 } rs S₇)
    (hload : Lowered E.code (.op (.load slot)) { S₇ with
      locals := S₇.locals.restore name (S₆.locals.shadow name ⟨slot, .scalar⟩).1 } [c₂] S₈)
    (hnext : Lowered E.code (.op (.arith .add c₂ st)) S₈ [u] S₉)
    (hstore : Lowered E.code (.store u slot) S₉ [] S₁₀)
    (hagain : Lowered E.code (.op (.compare dir.repeatTest c₂ z)) S₁₀ [t₂] S₁₁)
    (hback : E.code.Ends S₁₁ (.branch t₂ (S₄.ref (S₄.blocks + 1)) (S₄.ref (S₄.blocks + 2))))
    (h : Lowered E.code (.op (.const 0)) (S₁₁.move (S₄.blocks + 2)) [r] S₁₂)
    (hfrom : Realized E ctx S [x] S₁ (.value start)) (hto : Realized E ctx S₂ [z] S₃ (.value stop))
    (hround : Realized E ctx { S₆.move (S₄.blocks + 1) with
      locals := (S₆.locals.shadow name ⟨slot, .scalar⟩).2 } rs S₇ (.node body)) :
    Realized E ctx S [r] S₁₂ (.node (.forLoop name dir start stop body)) := by
  rintro ⟨hps, hpl, hpb⟩ hsuits hroom
  have hsuits₁ := hsuits.step hstart hps trivial
  have hsuits₂ := hsuits₁.step hset trivial trivial
  have hsuits₃ := hsuits₂.step hstop hpl trivial
  have hsuits₄ := hsuits₃.step hstep trivial trivial
  have hf₁ := hstart.follows hps
  have hf₃ := hstop.follows hpl
  have hf₄ := hf₁.trans ((hset.follows trivial).trans (hf₃.trans (hstep.follows trivial)))
  -- the test before the first round
  have hvt := Region.valid_first hsuits₄.valid
  have hsuitsT : Site.Suits ctx ((S₄.grow 3).move S₄.blocks) := hsuits₄.follow (by simp) hvt
  have hregion := (hfirst.region hvt trivial).seq hvt fun hv _ => htest.region hv trivial
  have hsuits₆ := (hsuitsT.step hfirst trivial trivial).step htest trivial trivial
  have hf₆ : S₄.Follows S₆ := by simpa using (hfirst.follows trivial).trans (htest.follows trivial)
  -- a round
  have hslot₁ : S₁.locals.get? name = some ⟨slot, .scalar⟩ := by rw [hf₁.locals, hb]
  have hslot₄ : S₄.locals.get? name = some ⟨slot, .scalar⟩ := by rw [hf₄.locals, hb]
  have hvb := Region.valid_second hsuits₄.valid hregion
  have hsuitsB := hsuits₆.follow (Site.Follows.move_right.mpr (.refl _)) hvb
  have hslotB : (S₆.move (S₄.blocks + 1)).locals.get? name = some ⟨slot, .scalar⟩ := by
    rw [← hslot₄, ← hf₆.locals]
    rfl
  obtain ⟨hf₁₁, hregion₁₁⟩ := hbody.round hslotB hpb hload hnext hstore hagain
  have hregion' := hregion₁₁ hvb
  -- the room at the end is room for each of the parts before
  have hroom₁₁ : E.Room S₁₁ := by
    obtain ⟨-, rfl⟩ := h.of_op
    exact hroom.of_next.of_move
  have hroom₄ : E.Room S₄ := ((hroom₁₁.back hregion').of_move.back hregion).of_move.of_grow
  have hroom₃ := hroom₄.step hstep hsuits₃ trivial
  have hfrom := hfrom hps hsuits ((hroom₃.step hstop hsuits₂ trivial).step hset hsuits₁ trivial)
  have hto := hto hpl hsuits₂ hroom₃
  -- the registers of the bound and of the step are older than the rounds
  have hz : (z : Nat) < S₃.registers := hstop.results_lt hpl hsuits₂.slots trivial z List.mem_cons_self
  have hst : (st : Nat) < S₄.registers := hstep.op_lt st List.mem_cons_self
  have hz₄ := hz.trans_le (hstep.follows trivial).registers
  simp only [Phrase.Done] at hfrom ⊢
  rw [Eval.node]
  have hdone : E.Does ctx.rounds S S₁₂ (fun _ => True) (Eval.forLoop ctx.rounds name dir
      (Eval.node ctx start) (Eval.node ctx stop) (Eval.node ctx body)) fun v => Holds r v := by
    refine hfrom.bind hf₁.registers fun v => ?_
    refine ((Scene.Does.putScalar hslot₁ hset).weaken (fun _ h => h x List.mem_cons_self)
      fun _ _ _ => trivial).bind (hset.follows trivial).registers fun _ => ?_
    refine (bound hroom₄ hstop hpl hstep hz hto).bind (hf₃.trans (hstep.follows trivial)).registers
      fun last => ?_
    refine Scene.Does.counting hroom hsuits₄.valid hslot₄ hz₄ hst hregion hf₆ hregion'
      (Site.Follows.move_left.mp hf₁₁) hjump hfirst htest hfork hback h ?_
    exact .round hsuitsB hslotB hpb hbody hload hnext hstore hagain (hround hpb) hroom₁₁
      (hz₄.trans_le hf₆.registers) (hst.trans_le hf₆.registers)
  exact hdone.weaken (fun _ h => h) fun _ _ h => Yields.single.mpr h

theorem call {callee : String} {args : List Node} {entry : Subprogram} {params : List String}
    (hmatches : ctx.Matches E.code) (hheading : E.code.heading? entry.routine = some (callee, params))
    (hparams : params.length = args.length) (hargs : Lowered E.code (.arguments args) S rs S₁)
    (h : Lowered E.code (.op (.call entry.routine rs)) S₁ [r] S₂)
    (hvalues : Realized E ctx S rs S₁ (.arguments args)) : Realized E ctx S [r] S₂ (.node (.call callee args)) := by
  intro hplain hsuits hroom
  have hlength := hargs.arguments_length
  have hsuits₁ := hsuits.step hargs hplain trivial
  have hvalues := hvalues hplain hsuits
    (hroom.step h hsuits₁ ⟨_, _, hheading, hparams.trans hlength⟩)
  simp only [Phrase.Done]
  rw [Eval.node]
  simp only [Phrase.Done] at hvalues
  refine hvalues.bind (hargs.follows hplain).registers fun xs => ?_
  exact (Scene.Does.call hmatches hroom hheading (hparams.trans hlength) h).weaken (fun _ h => h)
    fun _ _ h => Yields.single.mpr h

theorem exit (hv : Lowered E.code .result S [v] S₁) (hleave : E.code.Ends S₁ (.jump (S₁.ref 1)))
    (h : Lowered E.code (.op (.const 0)) (((S₁.leave v).grow 1).move S₁.blocks) [r] S₂) :
    Realized E ctx S [r] S₂ (.node .exit) := by
  intro _ hsuits hroom
  have hregion := (hv.region hsuits.valid trivial).leave hsuits.valid v hleave
  have hleft := hroom.back (h.region (hregion.valid hsuits.valid) trivial)
  have hroom₁ : E.Room S₁ := ⟨(Nat.le_succ _).trans hleft.blocks, hleft.registers,
    fun entry hmem => hleft.returns entry (List.mem_append_left _ hmem)⟩
  rw [Phrase.Done, Eval.node]
  exact .exit hsuits hv hroom₁ hleave (hleft.returns _ (List.mem_append_right _ List.mem_cons_self))

theorem sequenceCons {last value : Option Register}
    (hn : Lowered E.code (.node n) S value.toList S₁) (h : Lowered E.code (.sequence value nodes) S₁ rs S₂)
    (hfirst : Realized E ctx S value.toList S₁ (.node n)) (hrest : Realized E ctx S₁ rs S₂ (.sequence value nodes)) :
    Realized E ctx S rs S₂ (.sequence last (n :: nodes)) := by
  intro hplain hsuits hroom
  have hsuits₁ := hsuits.step hn hplain.1 trivial
  have hfirst := hfirst hplain.1 hsuits (hroom.step h hsuits₁ trivial)
  have hrest := hrest hplain.2 hsuits₁ hroom
  simp only [Phrase.Done] at hfirst hrest ⊢
  intro x
  rw [Eval.sequence]
  exact (hfirst.weaken (fun _ _ => trivial) fun _ _ h => h).bind (hn.follows hplain.1).registers hrest

theorem argumentsCons (hn : Lowered E.code (.value n) S [r] S₁) (h : Lowered E.code (.arguments nodes) S₁ rs S₂)
    (hfirst : Realized E ctx S [r] S₁ (.value n)) (hrest : Realized E ctx S₁ rs S₂ (.arguments nodes)) :
    Realized E ctx S (r :: rs) S₂ (.arguments (n :: nodes)) := by
  intro hplain hsuits hroom
  have hsuits₁ := hsuits.step hn hplain.1 trivial
  have hfirst := hfirst hplain.1 hsuits (hroom.step h hsuits₁ trivial)
  have hrest := hrest hplain.2 hsuits₁ hroom
  have hlt := hn.results_lt hplain.1 hsuits.slots trivial _ List.mem_cons_self
  simp only [Phrase.Done] at hfirst hrest ⊢
  rw [Eval.arguments]
  refine hfirst.bind (hn.follows hplain.1).registers fun x => ?_
  refine ((hrest.holding hlt x).weaken (fun _ h => ⟨trivial, h _ List.mem_cons_self⟩)
    fun _ _ h => h).bind (h.follows hplain.2).registers fun xs => ?_
  exact .pure _ fun _ h => .cons h.2 h.1

end Phrase.Realized

/-! ## 3. All plain phrases -/

/-- The code of a plain phrase does what the phrase means. -/
theorem Lowered.done {E : Scene} {ctx : Surroundings} {ph : Phrase} {S S' : Site} {rs : List Register}
    (hphis : E.code.PhisFirst) (hmatches : ctx.Matches E.code) (h : Lowered E.code ph S rs S')
    (hplain : ph.Plain) (hsuits : S.Suits ctx) (hroom : E.Room S') : ph.Done E ctx S rs S' := by
  induction h with
  | op _ _ | store _ | booleanize _ _ _ _ | arithmetic _ _ _ | comparison _ _ _ | logical _ _ _ _ _ _ _
  | resultVariable _ _ _ | resultZero _ _ _ => trivial
  | number h _ =>
    rw [Phrase.Done, Eval.node]
    exact (Scene.Does.const hroom h).weaken (fun _ h => h) fun _ _ h => Yields.single.mpr h
  | readVariable hb h _ =>
    rw [Phrase.Done, Eval.node]
    exact ((Scene.Does.fetchScalar hroom hb h).congr fun a m w hrel => hrel.read_variable hb).weaken
      (fun _ h => h) fun _ _ h => Yields.single.mpr h
  | readConstant hb hw h _ =>
    rw [Phrase.Done, Eval.node]
    have hvalue := hsuits.constants _ _ hw
    exact ((Scene.Does.const hroom h).congr fun a m w hrel => hrel.read_constant hb hvalue).weaken
      (fun _ h => h) fun _ _ h => Yields.single.mpr h
  | element hslot h ih _ => exact Phrase.Realized.element hslot h ih hplain hsuits hroom
  | targetVariable hb =>
    rw [Phrase.Done, Eval.target]
    refine fun a m w hrel _ => ⟨0, _, .refl _, a, m, rfl, hrel, .refl a _, fun r hr => ?_⟩
    rw [List.mem_singleton.mp hr]
    exact hrel.points hb
  | targetElement hb hi h ih _ => exact Phrase.Realized.targetElement hb hi h ih hplain hsuits hroom
  | assign hv hslot h ih₁ ih₂ _ => exact Phrase.Realized.assign hv hslot h ih₁ ih₂ hplain hsuits hroom
  | binary hop hl hr h ih₁ ih₂ _ => exact Phrase.Realized.binary hop hl hr h ih₁ ih₂ hplain hsuits hroom
  | conditional hc hb hfork ht htend he heend hphi ih₁ _ ih₃ ih₄ =>
    exact Phrase.Realized.conditional hphis hc hb hfork ht htend he heend hphi ih₁ ih₃ ih₄ hplain hsuits hroom
  | whileLoop hstart hc hb hfork hbody hback h ih₁ _ ih₃ _ =>
    exact Phrase.Realized.whileLoop hstart hc hb hfork hbody hback h ih₁ ih₃ hplain hsuits hroom
  | forLoop hb hstart hset hstop hstep hjump hfirst htest hfork hbody hload hnext hstore hagain hback h
      ih₁ _ ih₃ _ _ _ ih₇ _ _ _ _ _ =>
    exact Phrase.Realized.forLoop hb hstart hset hstop hstep hjump hfirst htest hfork hbody hload hnext
      hstore hagain hback h ih₁ ih₃ ih₇ hplain hsuits hroom
  | call _ hheading hparams hargs h ih _ =>
    exact Phrase.Realized.call hmatches hheading hparams hargs h ih hplain hsuits hroom
  | intrinsic hb h _ =>
    rw [Phrase.Done, Eval.node]
    exact (Scene.Does.intrinsic hroom hb h).weaken (fun _ h => h) fun _ _ h => Yields.single.mpr h
  | exit hv hleave h _ _ => exact Phrase.Realized.exit hv hleave h hplain hsuits hroom
  | block _ ih =>
    have hdone := ih hplain hsuits hroom
    simp only [Phrase.Done] at hdone ⊢
    rw [Eval.node]
    exact (hdone 0).weaken (fun _ _ => .nil) fun _ _ h => h
  | value _ ih =>
    have hdone := ih hplain hsuits hroom
    simp only [Phrase.Done] at hdone ⊢
    exact hdone.weaken (fun _ h => h) fun _ _ h => h.2
  | noValue hn h ih _ =>
    have hsuits₁ := hsuits.step hn hplain trivial
    have hdone := ih hplain hsuits (hroom.step h hsuits₁ trivial)
    simp only [Phrase.Done] at hdone ⊢
    exact .zero hroom hdone (hn.follows hplain).registers h
  | sequenceNil =>
    intro x
    rw [Eval.sequence]
    exact .pure x fun _ h => h
  | sequenceCons hn h ih₁ ih₂ => exact Phrase.Realized.sequenceCons hn h ih₁ ih₂ hplain hsuits hroom
  | argumentsNil =>
    rw [Phrase.Done, Eval.arguments]
    exact .pure [] fun _ _ => .nil
  | argumentsCons hn h ih₁ ih₂ => exact Phrase.Realized.argumentsCons hn h ih₁ ih₂ hplain hsuits hroom
  | _ => exact absurd hplain id

end Mila
