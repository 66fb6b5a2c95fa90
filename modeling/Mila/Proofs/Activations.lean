import Mila.Proofs.Phrases
import Mila.Proofs.Structure

/-! # Activations

From the constructs to whole calls: the variables that a routine declares, the parameters it starts with, and
what a call of it comes to.
-/

namespace Mila

open Behaviour

/-! ## 1. The shape of programs -/

/-- The body of a subprogram: variables come first, then the block, and at last what the subprogram yields. A
function has one more variable, of its own name, which it yields. -/
def Prototype.Body (heading : Prototype) (body : List Node) : Prop :=
  ∃ (decls : List VariableDecl) (block : Node), block.Plain ∧
    match heading.kind with
    | .function => body = (decls ++ [VariableDecl.scalar heading.name]).map .variableDecl ++
        [block, .ident heading.name]
    | .procedure => body = decls.map .variableDecl ++ [block, .number 0]

/-- The variables of a subprogram come before its statements. -/
theorem Prototype.Body.split {heading : Prototype} {body : List Node} (h : heading.Body body) :
    ∃ (decls : List VariableDecl) (rest : List Node),
      body = decls.map .variableDecl ++ rest ∧ Node.AllPlain rest := by
  obtain ⟨decls, block, hblock, h⟩ := h
  split at h
  · exact ⟨_, _, h, hblock, trivial, trivial⟩
  · exact ⟨_, _, h, hblock, trivial, trivial⟩

/-- A node that may stand among the declarations of a program. -/
def Node.Declares : Node → Prop
  | .constantDecl _ _ | .variableDecl _ | .forward _ => True
  | .subprogram heading body => heading.Body body
  | _ => False

theorem Node.declares_variables (decls : List VariableDecl) : ∀ d ∈ decls.map Node.variableDecl, d.Declares := by
  intro d hd
  obtain ⟨_, -, rfl⟩ := List.mem_map.mp hd
  trivial

/-- Declarations stand only where they may. -/
structure Program.Formed (p : Program) : Prop where
  declarations : ∀ d ∈ p.declarations, d.Declares
  body : p.body.Plain

/-! ## 2. New variables -/

variable {name : String} {l : Locals} {S₂ : Site} {g : Nat}

theorem Site.Slotted.declare {S : Site} (h : S.Slotted) {b : Binding}
    (hl : S.locals.declare? name b = some l) (hslot : b.slot < S.registers) :
    Site.Slotted { S with locals := l } := by
  intro other b' hb'
  rw [Locals.get?_declare? hl] at hb'
  split at hb'
  · rw [← Option.some.inj hb']
    exact hslot
  · exact h other b' hb'

namespace Scene

variable {E : Scene} {S S₁ T : Site} {a a' : Activation} {m m' : Machine} {w : World}

/-- Further allocations leave what a machine shows. -/
theorem Related.extend (h : E.Related S a m w) (hinput : m'.input = m.input)
    (houtput : m'.output = m.output) (hextends : ∀ k < m.memory.size, m'.memory[k]? = m.memory[k]?) :
    E.Shared m' w ∧ ∃ loc, Laid loc E.base.size S.locals.get? a.registers m'.memory w.vars := by
  have hsize := h.shared.size_le
  obtain ⟨loc, hloc⟩ := h.laid
  refine ⟨⟨hinput.trans h.shared.input, by rw [houtput]; exact h.shared.output, fun k hk => ?_⟩,
    loc, hloc.extend hextends⟩
  rw [hextends k (by omega)]
  exact h.shared.memory k hk

variable {l : Locals} {o : Operation} {r : Register}

/-- A variable in the allocation that comes next. -/
theorem Related.declare (h : E.Related S a m w) (h' : E.Related T a' m' w)
    (hkeeps : a.Keeps S.registers a') (hlocals : T.locals = S.locals) {name : String} {b : Binding}
    {x : Variable} {c : Cells} (hl : T.locals.declare? name b = some l) (hslot : b.slot < T.registers)
    (hextends : ∀ k < m.memory.size, m'.memory[k]? = m.memory[k]?)
    (hcells : m'.memory[m.memory.size]? = some c) (hstore : c.Store x) (hshape : x.shape = b.shape)
    (haddress : a'.registers[b.slot]? = some (.address ⟨m.memory.size, -x.low⟩)) :
    E.Related { T with locals := l } a' m' (w.setVar name x) where
  routine := h'.routine
  block := h'.block
  done := h'.done
  size := h'.size
  args := h'.args
  slots := h'.slots.declare hl hslot
  shared := ⟨h'.shared.input, h'.shared.output, h'.shared.memory⟩
  laid := by
    obtain ⟨loc, hloc⟩ := h.laid
    have hold : Laid loc E.base.size T.locals.get? a'.registers m'.memory w.vars := by
      rw [hlocals]
      exact (hloc.extend hextends).slots fun other b' hb' => hkeeps b'.slot (h.slots other b' hb')
    -- all other variables lie in older allocations
    refine ⟨_, hold.declare (Locals.get?_of_declare? hl) (Locals.get?_declare? hl) ?_ hshape haddress
      h.shared.size_le hcells hstore⟩
    intro other hother
    rw [hlocals] at hother
    exact (hloc.loc_lt hother).ne

/-- An operation that makes at most further allocations. -/
theorem Related.operation (h : E.Related S a m w) (hroom : E.Room S₁)
    {content : Content} (hop : Lowered E.code (.op o) S [r] S₁) (ho : ∀ g args, o ≠ .call g args)
    (hevaluate : ∀ call, Machine.evaluate call a o m = .ok (some content) m')
    (hinput : m'.input = m.input) (houtput : m'.output = m.output)
    (hextends : ∀ k < m.memory.size, m'.memory[k]? = m.memory[k]?) : ∃ a',
      Leads 1 (a.behaviour E.code m) (a'.behaviour E.code m') ∧ E.Related S₁ a' m' w ∧
      a.Keeps S.registers a' ∧ a'.registers[r]? = some content := by
  cases hop with
  | op hphi hhas =>
    have hlt : S.registers < a.registers.size := by
      rw [h.size_eq]
      exact hroom.registers
    obtain ⟨hshared, hlaid⟩ := h.extend hinput houtput hextends
    exact ⟨a.defined S.registers content, Activation.leads_define (h.instruction hhas) ho hlt hevaluate,
      h.define _ hshared hlaid, .defined a _ _, Array.getElem?_setIfInBounds_self_of_lt hlt⟩

theorem Related.alloca (h : E.Related S a m w) (hroom : E.Room S₁) {count : Nat}
    (hop : Lowered E.code (.op (.alloca count)) S [r] S₁) : ∃ a' m',
      Leads 1 (a.behaviour E.code m) (a'.behaviour E.code m') ∧ E.Related S₁ a' m' w ∧
      a.Keeps S.registers a' ∧ a'.registers[r]? = some (.address ⟨m.memory.size, 0⟩) ∧
      (∀ k < m.memory.size, m'.memory[k]? = m.memory[k]?) ∧
      m'.memory[m.memory.size]? = some (.zeros count) := by
  have hextends : ∀ k < m.memory.size, (m.memory.push (.zeros count))[k]? = m.memory[k]? := by
    intro k hk
    rw [Array.getElem?_push_lt hk, ← Array.getElem?_eq_getElem hk]
  have hevaluate : ∀ call, Machine.evaluate call a (.alloca count) m =
      .ok (some (.address ⟨m.memory.size, 0⟩)) { m with memory := m.memory.push (.zeros count) } :=
    fun _ => rfl
  obtain ⟨a', hlead, hrel, hkeeps, haddress⟩ := h.operation hroom hop (fun _ _ => Operation.noConfusion)
    hevaluate rfl rfl hextends
  exact ⟨a', _, hlead, hrel, hkeeps, haddress, hextends, Array.getElem?_push_size⟩

theorem Room.of_locals (h : E.Room { S with locals := l }) : E.Room S :=
  ⟨h.blocks, h.registers, h.returns⟩

theorem Room.of_op (h : E.Room S₁) (hop : Lowered E.code (.op o) S [r] S₁) : E.Room S := by
  obtain ⟨-, rfl⟩ := hop.of_op
  exact h.of_next

namespace Does

variable {n : Nat} {ctx : Surroundings} {rs : List Register}

theorem variableDecl {d : VariableDecl} (hroom : E.Room S₁) (h : Lowered E.code (.node (.variableDecl d)) S rs S₁) :
    E.Does n S S₁ (fun _ => True) (Eval.node ctx (.variableDecl d)) (Yields rs) := by
  intro a m w hrel _
  have heval : Eval.node ctx (.variableDecl d) w = .ok 0 (w.setVar d.name (.ofDecl d)) := by
    rw [Eval.node, Eval.bind_ok (Eval.declare_eq d w)]
    rfl
  rw [heval]
  cases h with
  | scalarDecl hd hop hl =>
    have hlt := hop.op_lt _ List.mem_cons_self
    obtain ⟨a', m', hlead, hrel', hkeeps, haddress, hextends, hcells⟩ := hrel.alloca hroom.of_locals hop
    have hvariable : Variable.ofDecl d = .scalar 0 := by rw [Variable.ofDecl, hd]; rfl
    obtain ⟨rfl, rfl⟩ := hop.of_op
    rw [hvariable]
    refine ⟨1, _, hlead, a', m', rfl, ?_, hkeeps, .nil⟩
    exact hrel.declare hrel' hkeeps rfl hl hlt hextends hcells .scalar rfl haddress
  | @arrayDecl _ cells bias slot _ S₁ S₂ S₃ l hd hcells hbias hslot hl =>
    have hlt := hslot.op_lt _ List.mem_cons_self
    have hroom₃ := hroom.of_locals
    have hroom₂ := hroom₃.of_op hslot
    obtain ⟨a₁, m', hlead₁, hrel₁, hkeeps₁, haddress, hextends, hmemory⟩ :=
      hrel.alloca (hroom₂.of_op hbias) hcells
    obtain ⟨a₂, hlead₂, hrel₂, hkeeps₂, hword⟩ := hrel₁.operation hroom₂ hbias
      (fun _ _ => Operation.noConfusion) (fun _ => rfl) rfl rfl fun _ _ => rfl
    obtain ⟨rfl, rfl⟩ := hcells.of_op
    have haddress₂ := (hkeeps₂ S.registers (Nat.lt_succ_self _)).trans haddress
    -- the address that stands for the array is where its cell of index zero would be
    have hevaluate : ∀ call, Machine.evaluate call a₂ (.offset S.registers bias) m' =
        .ok (some (.address ⟨m.memory.size, 0 + d.offset.toInt⟩)) m' := by
      intro call
      rw [Machine.evaluate, Run.bind_ok (Activation.address_ok haddress₂ m'),
        Run.bind_ok (Activation.word_ok hword m')]
      rfl
    obtain ⟨a₃, hlead₃, hrel₃, hkeeps₃, haddress₃⟩ := hrel₂.operation hroom₃ hslot
      (fun _ _ => Operation.noConfusion) hevaluate rfl rfl fun _ _ => rfl
    obtain ⟨rfl, rfl⟩ := hbias.of_op
    obtain ⟨rfl, rfl⟩ := hslot.of_op
    have hkeeps := (hkeeps₁.trans hkeeps₂ (Nat.le_succ _)).trans hkeeps₃ (Nat.le_add_right _ 2)
    have hvariable : Variable.ofDecl d = .array (-d.offset.toInt)
        (-d.offset.toInt + d.length - 1) fun _ => 0 := by rw [Variable.ofDecl, hd]; rfl
    rw [hvariable]
    refine ⟨1 + (1 + 1), _, hlead₁.trans (hlead₂.trans hlead₃), a₃, m', rfl, ?_, hkeeps, .nil⟩
    refine hrel.declare hrel₃ hkeeps rfl hl hlt hextends hmemory (.array _ _) rfl ?_
    rw [haddress₃, Variable.low, Int.neg_neg, Int.zero_add]

/-- Nothing is done for a declaration besides that of a variable. -/
theorem declaration {d : Node} (hd : d.Declares) (hroom : E.Room S₁) (h : Lowered E.code (.node d) S rs S₁) :
    E.Does n S S₁ (fun _ => True) (Eval.node ctx d) (Yields rs) := by
  have hquiet : ∀ g : Globals,
      E.Does n S { S with globals := g } (fun _ => True) (Pure.pure 0) (Yields []) := by
    intro g a m w hrel _
    exact ⟨0, _, .refl _, a, m, rfl, hrel.congr rfl rfl rfl rfl hrel.slots, .refl a _, .nil⟩
  cases h with
  | constantDecl _ | forwardKnown _ | forwardNew _ | define _ _ _ => exact hquiet _
  | scalarDecl hd' hop hl => exact variableDecl hroom (.scalarDecl hd' hop hl)
  | arrayDecl hd' hcells hbias hslot hl => exact variableDecl hroom (.arrayDecl hd' hcells hbias hslot hl)
  | _ => exact absurd hd id

theorem declarations {ds : List Node} (hds : ∀ d ∈ ds, d.Declares) (hv : S.Valid) (hroom : E.Room S₁)
    {last : Option Register} (h : Lowered E.code (.sequence last ds) S rs S₁) (x : Word) :
    E.Does n S S₁ (Yields last.toList x) (Eval.sequence ctx x ds) (Yields rs) := by
  induction ds generalizing S last x with
  | nil =>
    cases h
    rw [Eval.sequence]
    exact .pure x fun _ h => h
  | cons d ds ih =>
    cases h with
    | sequenceCons hn h =>
      have hregion := hn.region hv trivial
      have hrest := h.region (hregion.valid hv) trivial
      have hfirst : E.Does n S _ _ (Eval.node ctx d) _ :=
        declaration (hds d List.mem_cons_self) (hroom.back hrest) hn
      rw [Eval.sequence]
      exact (hfirst.weaken (fun _ _ => trivial) fun _ _ h => h).bind hregion.registers fun v =>
        ih (fun d hd => hds d (List.mem_cons_of_mem _ hd)) (hregion.valid hv) h v

/-- A parameter starts with the value that is passed for it. -/
theorem parameter {S₂ S₃ : Site} {i : Nat} {name : String} {slot v : Register} {l : Locals} {x : Word}
    (hroom : E.Room S₃) (hx : E.args[i]? = some x) (hslot : Lowered E.code (.op (.alloca 1)) S [slot] S₁)
    (hv : Lowered E.code (.op (.param i)) S₁ [v] S₂) (hstore : Lowered E.code (.store v slot) S₂ [] S₃)
    (hl : S₃.locals.declare? name ⟨slot, .scalar⟩ = some l) : E.Does n S { S₃ with locals := l } (fun _ => True)
      (modify fun w => w.setVar name (.scalar x)) fun _ _ => True := by
  intro a m w hrel _
  obtain rfl := hstore.of_store
  have hroom₂ : E.Room S₂ := hroom.of_skip
  obtain ⟨a₁, m₁, hlead₁, hrel₁, hkeeps₁, haddress, hextends, hcells⟩ := hrel.alloca (hroom₂.of_op hv) hslot
  have hparam : ∀ call, Machine.evaluate call a₁ (.param i) m₁ = .ok (some (.word x)) m₁ := by
    intro call
    rw [Machine.evaluate, hrel₁.args, hx]
    rfl
  obtain ⟨a₂, hlead₂, hrel₂, hkeeps₂, hword⟩ := hrel₁.operation hroom₂ hv
    (fun _ _ => Operation.noConfusion) hparam rfl rfl fun _ _ => rfl
  obtain ⟨rfl, rfl⟩ := hslot.of_op
  obtain ⟨rfl, rfl⟩ := hv.of_op
  have haddress₂ := (hkeeps₂ S.registers (Nat.lt_succ_self _)).trans haddress
  -- the cell is there, so that the value can be stored
  obtain ⟨c, hc⟩ : ∃ c, (Cells.zeros 1).set? 0 x = some c := by
    rw [← Option.isSome_iff_exists, Cells.set?_isSome_iff]
    exact ⟨Int.le_refl 0, Int.one_pos⟩
  have hwrite := Machine.write_eq hcells 0 x
  rw [hc] at hwrite
  have hlt := (Array.getElem?_eq_some_iff.mp hcells).1
  have hextends₃ : ∀ k < m.memory.size,
      (m₁.memory.setIfInBounds m.memory.size c)[k]? = m.memory[k]? := by
    intro k hk
    rw [Array.getElem?_setIfInBounds_ne (by omega)]
    exact hextends k hk
  have hkeeps : a.Keeps S.registers a₂ := hkeeps₁.trans hkeeps₂ (Nat.le_succ _)
  have hrel₃ : E.Related S.next.next.skip a₂.advance
      { m₁ with memory := m₁.memory.setIfInBounds m.memory.size c } w := by
    obtain ⟨loc, hloc⟩ := hrel.laid
    refine hrel₂.skip ⟨hrel₂.shared.input, hrel₂.shared.output, fun k hk => ?_⟩
      ⟨loc, (hloc.extend hextends₃).slots fun name b hb => hkeeps b.slot (hrel.slots name b hb)⟩
    exact (hextends₃ k (hk.trans_le hrel.shared.size_le)).trans (hrel.shared.memory k hk)
  cases hstore with
  | store hhas =>
    have hlead₃ := Activation.leads_store (C := E.code) (hrel₂.instruction hhas) hword haddress₂ hwrite
    refine ⟨1 + (1 + 1), _, hlead₁.trans (hlead₂.trans hlead₃), a₂.advance, _, rfl, ?_, hkeeps, trivial⟩
    refine hrel.declare hrel₃ hkeeps rfl hl (Nat.lt_add_of_pos_right Nat.zero_lt_two) hextends₃
      (Array.getElem?_setIfInBounds_self_of_lt hlt) (Cells.Store.scalar.set (i := 0) hc) rfl haddress₂

theorem parameters {i : Nat} {names : List String} {values : List Word} (hvalues : E.args.drop i = values)
    (hlength : values.length = names.length) (hroom : E.Room S₁) (hv : S.Valid)
    (hfits : (Phrase.parameters i names).Fits E.code S.routine) (h : Lowered E.code (.parameters i names) S [] S₁) :
    E.Does n S S₁ (fun _ => True)
      (modify fun w => { w with vars := Program.pass w.vars names values }) fun _ _ => True := by
  induction names generalizing i S values with
  | nil =>
    obtain rfl := List.length_eq_zero_iff.mp hlength
    cases h
    exact .pure () fun _ _ => trivial
  | cons name names ih =>
    cases values with
    | nil => cases hlength
    | cons x values =>
      cases h with
      | @parametersCons _ _ _ slot v _ S₁ S₂ S₃ _ l hslot hp hstore hl h =>
        -- the first value that is left is the argument at hand
        have hx : E.args[i]? = some x := by
          rw [← Nat.add_zero i, ← List.getElem?_drop, hvalues]
          rfl
        have hrest : E.args.drop (i + 1) = values := by
          rw [← List.tail_drop, hvalues]
          rfl
        obtain ⟨rfl, rfl⟩ := hslot.of_op
        obtain ⟨rfl, rfl⟩ := hp.of_op
        obtain rfl := hstore.of_store
        have hfits' : (Phrase.parameters (i + 1) names).Fits E.code S.routine := by
          obtain ⟨callee, params, hheading, hle⟩ := hfits
          exact ⟨callee, params, hheading, by rw [List.length_cons] at hle; omega⟩
        have hv' : Site.Valid { S.next.next.skip with locals := l } := ⟨hv.blocks, hv.block, hv.notReturn⟩
        have hone := parameter (n := n) (hroom.back (h.region hv' hfits')).of_locals hx hslot hp hstore hl
        exact hone.bind (Nat.le_add_right _ 2) fun _ =>
          ih hrest (Nat.succ.inj hlength) hv' hfits' h

end Does

end Scene

/-! ## 3. Bodies -/

/-- What is as before once declarations are through. -/
structure Site.Opens (S S' : Site) : Prop where
  resultName : S'.resultName = S.resultName
  slots : S.Slotted → S'.Slotted

theorem Site.Opens.trans {S S₁ : Site} (h : S.Opens S₁) (h' : S₁.Opens S₂) : S.Opens S₂ :=
  ⟨h'.resultName.trans h.resultName, h'.slots ∘ h.slots⟩

theorem Site.opened_slotted (g : Nat) (name : Option String) (G : Globals) : (Site.opened g name G).Slotted := by
  intro other b hb
  rw [Site.get?_opened] at hb
  cases hb

/-- A variable in a register that was just defined. -/
theorem Site.Opens.declare {C : Code} {S S₁ : Site} {o : Operation} {shape : Shape}
    {r : Register} (h : S.Opens S₁) (hop : Lowered C (.op o) S₁ [r] S₂)
    (hl : S₂.locals.declare? name ⟨r, shape⟩ = some l) : S.Opens { S₂ with locals := l } := by
  have hf := hop.follows trivial
  exact ⟨hf.resultName.trans h.resultName, fun hslots =>
    ((h.slots hslots).follow hf).declare hl (hop.op_lt r List.mem_cons_self)⟩

namespace Lowered

variable {C : Code} {S S₁ S' : Site} {rs : List Register} {last : Option Register}

theorem opens {d : Node} (h : Lowered C (.node d) S rs S₁) (hd : d.Declares) : S.Opens S₁ := by
  cases h with
  | constantDecl _ | forwardKnown _ | forwardNew _ | define _ _ _ => exact ⟨rfl, id⟩
  | scalarDecl _ hop hl => exact .declare ⟨rfl, id⟩ hop hl
  | arrayDecl _ hcells hbias hslot hl =>
    have hf := (hcells.follows trivial).trans (hbias.follows trivial)
    exact .declare ⟨hf.resultName, fun hslots => hslots.follow hf⟩ hslot hl
  | _ => exact absurd hd id

theorem opens_sequence {ds : List Node} (h : Lowered C (.sequence last ds) S rs S₁)
    (hds : ∀ d ∈ ds, d.Declares) : S.Opens S₁ := by
  induction ds generalizing S last with
  | nil =>
    cases h
    exact ⟨rfl, id⟩
  | cons d ds ih =>
    cases h with
    | sequenceCons hn h =>
      exact (hn.opens (hds d List.mem_cons_self)).trans
        (ih h fun d hd => hds d (List.mem_cons_of_mem _ hd))

theorem opens_parameters {i : Nat} {names : List String} (h : Lowered C (.parameters i names) S rs S₁) :
    S.Opens S₁ ∧ S₁.globals = S.globals := by
  induction names generalizing S i with
  | nil =>
    cases h
    exact ⟨⟨rfl, id⟩, rfl⟩
  | cons name names ih =>
    cases h with
    | parametersCons hslot hv hstore hl h =>
      obtain ⟨hopens, hglobals⟩ := ih h
      obtain ⟨rfl, rfl⟩ := hslot.of_op
      obtain ⟨rfl, rfl⟩ := hv.of_op
      obtain rfl := hstore.of_store
      refine ⟨⟨hopens.resultName, fun hslots => hopens.slots ?_⟩, hglobals⟩
      have hafter : S.next.next.skip.Slotted := fun other b hb => (hslots other b hb).trans_le
        (Nat.le_add_right _ 2)
      exact hafter.declare hl (Nat.lt_add_of_pos_right Nat.zero_lt_two)

theorem variable_globals {d : VariableDecl} (h : Lowered C (.node (.variableDecl d)) S rs S₁) :
    S₁.globals = S.globals := by
  cases h with
  | scalarDecl _ hop _ => exact (hop.follows trivial).globals
  | arrayDecl _ hcells hbias hslot _ =>
    exact ((hcells.follows trivial).trans ((hbias.follows trivial).trans (hslot.follows trivial))).globals

variable {name : String} {decls : List VariableDecl}

theorem variable_scalar (h : Lowered C (.node (.variableDecl (.scalar name))) S rs S₁) :
    ∃ slot, S₁.locals.get? name = some ⟨slot, .scalar⟩ := by
  cases h with
  | scalarDecl _ _ hl => exact ⟨_, (Locals.get?_declare? hl name).trans (if_pos rfl)⟩
  | arrayDecl hd _ _ _ _ => exact absurd hd Bool.false_ne_true

/-- Variables do not matter to the names of the whole program. -/
theorem variables_globals
    (h : Lowered C (.sequence last (decls.map .variableDecl)) S rs S₁) : S₁.globals = S.globals := by
  induction decls generalizing S last with
  | nil =>
    cases h
    rfl
  | cons d decls ih =>
    cases h with
    | sequenceCons hn h =>
      rw [ih h]
      exact hn.variable_globals

/-- The code of a subprogram is that for its parameters, and then its body. -/
theorem subprogram_body {heading : Prototype} {body : List Node} {v : Register}
    (h : Lowered C (.subprogram heading body) S [v] S') (hv : S.Valid) :
    ∃ S₁ rs S₂, Lowered C (.parameters 0 heading.params) S [] S₁ ∧ S₁.Valid ∧
      Lowered C (.sequence none body) S₁ rs S₂ := by
  cases h with
  | @subprogram _ _ _ _ _ S₁ _ hheading hlength hparams hvalue =>
    have hv₁ := (hparams.region hv ⟨_, _, hheading, by omega⟩).valid hv
    cases hvalue with
    | value hnode | noValue hnode _ =>
      cases hnode with
      | block hseq => exact ⟨S₁, _, _, hparams, hv₁, hseq⟩

theorem sequence_append {xs ys : List Node} (h : Lowered C (.sequence last (xs ++ ys)) S rs S') :
    ∃ last' S₁, Lowered C (.sequence last xs) S last'.toList S₁ ∧
      Lowered C (.sequence last' ys) S₁ rs S' := by
  induction xs generalizing S last with
  | nil => exact ⟨last, S, .sequenceNil, h⟩
  | cons x xs ih =>
    cases h with
    | sequenceCons hn h =>
      obtain ⟨last', S₁, h₁, h₂⟩ := ih h
      exact ⟨last', S₁, .sequenceCons hn h₁, h₂⟩

theorem variables_last (h : Lowered C
      (.sequence last ((decls ++ [VariableDecl.scalar name]).map .variableDecl)) S rs S₁) :
    ∃ slot, S₁.locals.get? name = some ⟨slot, .scalar⟩ := by
  rw [List.map_append] at h
  obtain ⟨last', S₂, -, h⟩ := h.sequence_append
  cases h with
  | sequenceCons hn h =>
    cases h
    exact hn.variable_scalar

end Lowered

theorem Eval.sequence_append (ctx : Surroundings) (xs ys : List Node) (x : Word) : sequence ctx x (xs ++ ys) = (do
      let y ← sequence ctx x xs
      sequence ctx y ys) := by
  induction xs generalizing x with
  | nil => simp only [List.nil_append, sequence, pure_bind]
  | cons n xs ih => simp only [List.cons_append, sequence, bind_assoc, ih]

namespace Scene.Does

variable {E : Scene} {ctx : Surroundings} {S S' : Site} {v : Register}

theorem body {ds rest : List Node} (hphis : E.code.PhisFirst) (hmatches : ctx.Matches E.code)
    (hds : ∀ d ∈ ds, d.Declares) (hplain : Node.AllPlain rest) (hv : S.Valid) (hroom : E.Room S')
    (hsuits : ∀ last S₁, Lowered E.code (.sequence none ds) S last S₁ → S₁.Suits ctx)
    (h : Lowered E.code (.value (.block (ds ++ rest))) S [v] S') :
    E.Does ctx.rounds S S' (fun _ => True) (Eval.sequence ctx 0 (ds ++ rest))
      fun x regs => ∀ r ∈ [v], Holds r x regs := by
  -- with or without a value of its own, the block does the same
  have hsequence : ∀ rs S₂, E.Room S₂ → Lowered E.code (.node (.block (ds ++ rest))) S rs S₂ →
      E.Does ctx.rounds S S₂ (fun _ => True) (Eval.sequence ctx 0 (ds ++ rest)) (Yields rs) := by
    intro rs S₂ hroom₂ hblock
    cases hblock with
    | block hseq =>
      obtain ⟨last, S₁, hfirst, hrest⟩ := hseq.sequence_append
      have hsuits₁ := hsuits _ S₁ hfirst
      have hdone := hrest.done hphis hmatches hplain hsuits₁ hroom₂
      simp only [Phrase.Done] at hdone
      have hdecls : E.Does ctx.rounds S S₁ _ (Eval.sequence ctx 0 ds) _ :=
        declarations hds hv (hroom₂.step hrest hsuits₁ trivial) hfirst 0
      rw [Eval.sequence_append]
      exact (hdecls.weaken (fun _ _ => .nil) fun _ _ h => h).bind (hfirst.region hv trivial).registers hdone
  cases h with
  | value hn => exact (hsequence _ _ hroom hn).weaken (fun _ h => h) fun _ _ h => h.2
  | noValue hn h =>
    exact .zero hroom (hsequence _ _ (hroom.of_op h) hn) (hn.region hv trivial).registers h

theorem subprogram {heading : Prototype} {body : List Node} {g : Nat} {G : Globals}
    (hphis : E.code.PhisFirst) (hmatches : ctx.Matches E.code) (hbody : heading.Body body)
    (hresult : ctx.resultName = heading.resultName)
    (hconstants : ∀ name w, G.constant? name = some w → ctx.constants name = some w)
    (hargs : E.args.length = heading.params.length) (hroom : E.Room S')
    (h : Lowered E.code (.subprogram heading body) (.opened g (Emit.resultNameOf heading) G) [v] S') :
    E.Does ctx.rounds (.opened g (Emit.resultNameOf heading) G) S' (fun _ => True) (do
      modify fun w => { w with vars := Program.pass w.vars heading.params E.args }
      Eval.sequence ctx 0 body) fun x regs => ∀ r ∈ [v], Holds r x regs := by
  have hv := Site.opened_valid g (Emit.resultNameOf heading) G
  cases h with
  | @subprogram _ _ _ params _ S₁ _ hheading hlength hparams h =>
    have hfits : (Phrase.parameters 0 heading.params).Fits E.code g :=
      ⟨_, params, hheading, by omega⟩
    have hregion := hparams.region hv hfits
    have hv₁ := hregion.valid hv
    have hpass := parameters (n := ctx.rounds) (show E.args.drop 0 = E.args from rfl) hargs
      (hroom.back (h.region hv₁ trivial)) hv hfits hparams
    obtain ⟨hopens, hglobals⟩ := hparams.opens_parameters
    have hslots₁ := hopens.slots (Site.opened_slotted _ _ _)
    refine hpass.bind hregion.registers fun _ => ?_
    -- the names mean what they should once the variables are declared
    have hsuits : ∀ (decls : List VariableDecl), (∀ last S₂,
        Lowered E.code (.sequence none (decls.map .variableDecl)) S₁ last S₂ →
          ∀ name, ctx.resultName = some name → ∃ slot, S₂.locals.get? name = some ⟨slot, .scalar⟩) →
        ∀ last S₂, Lowered E.code (.sequence none (decls.map .variableDecl)) S₁ last S₂ →
          S₂.Suits ctx := by
      intro decls hvariable last S₂ hlow
      have hopens₂ := hlow.opens_sequence (Node.declares_variables decls)
      refine ⟨(hlow.region hv₁ trivial).valid hv₁, hopens₂.slots hslots₁, ?_, ?_, hvariable last S₂ hlow⟩
      · rw [hlow.variables_globals, hglobals]
        exact hconstants
      · rw [hopens₂.resultName, hopens.resultName, hresult]
        rfl
    obtain ⟨decls, block, hblock, hshape⟩ := hbody
    cases hkind : heading.kind <;> rw [hkind] at hshape <;> subst hshape <;>
      refine .body hphis hmatches (Node.declares_variables _) ⟨hblock, trivial, trivial⟩ hv₁ hroom (hsuits _ ?_) h <;>
      intro last S₂ hlow name hname <;> rw [hresult, Prototype.resultName, hkind] at hname
    · -- the variable for the result is the last one that is declared
      obtain rfl := Option.some.inj hname
      exact hlow.variables_last
    · cases hname

theorem program {p : Program} (hphis : E.code.PhisFirst) (hmatches : ctx.Matches E.code)
    (hformed : p.Formed) (hresult : ctx.resultName = none)
    (hconstants : ∀ last S₁, Lowered E.code (.sequence none p.declarations) (.opened 0 none .initial)
      last S₁ → ∀ name w, S₁.globals.constant? name = some w → ctx.constants name = some w)
    (hroom : E.Room S') (h : Lowered E.code (.program p) (.opened 0 none .initial) [v] S') :
    E.Does ctx.rounds (.opened 0 none .initial) S' (fun _ => True) (do
      let _ ← Eval.sequence ctx 0 p.declarations
      let _ ← Eval.node ctx p.body
      return 0) fun x regs => ∀ r ∈ [v], Holds r x regs := by
  have hv := Site.opened_valid 0 none .initial
  cases h with
  | @program _ _ last _ _ S₁ S₂ _ hdecls hbody h =>
    have hregion := hdecls.region hv trivial
    have hopens := hdecls.opens_sequence hformed.declarations
    -- the declarations leave the names that the body goes by
    have hsuits : S₁.Suits ctx := by
      refine ⟨hregion.valid hv, hopens.slots (Site.opened_slotted _ _ _), hconstants _ S₁ hdecls, ?_, ?_⟩
      · rw [hopens.resultName, hresult]
        rfl
      · intro name hname
        rw [hresult] at hname
        cases hname
    have hroom₂ := hroom.of_op h
    have hfirst : E.Does ctx.rounds _ S₁ _ (Eval.sequence ctx 0 p.declarations) _ :=
      declarations hformed.declarations hv (hroom₂.step hbody hsuits trivial) hdecls 0
    have hdone := hbody.done hphis hmatches hformed.body hsuits hroom₂
    simp only [Phrase.Done] at hdone
    refine (hfirst.weaken (fun _ _ => .nil) fun _ _ _ => trivial).bind hregion.registers fun _ => ?_
    refine (hdone.weaken (fun _ h => h) fun _ _ _ => trivial).bind
      (hbody.follows hformed.body).registers fun _ => ?_
    exact (const (P := fun _ => True) hroom h).weaken (fun _ h => h) fun _ _ hr r hmem =>
      List.mem_singleton.mp hmem ▸ hr

end Scene.Does

/-! ## 4. Calls -/

/-- What is left to do at the end of an activation is to return what it yields. -/
theorem Eval.activation_exit (vars : String → Option Variable) (body : Eval Word) :
    activation vars body = activation vars (do throw (.exit (← body))) := by
  funext w
  unfold activation
  cases h : body { w with vars } with
  | ok value after => rw [Eval.bind_ok h]; rfl
  | error stop after => rw [Eval.bind_error h]

theorem Code.Returns.registers_le {C : Code} {registers : Nat} {returns : List (Register × BlockRef)}
    (h : C.Returns g registers returns) : registers ≤ C.registersOf g := by
  unfold Code.Returns at h
  split at h
  · exact h.1.ge
  · rw [h.1]
    exact Nat.le_succ registers

/-- There is room for a whole routine, which can be left in all the ways it tries. -/
theorem Code.Whole.room {E : Scene} {S : Site} {v : Register} (h : E.code.Whole g S v) :
    E.Room S ∧ E.code.Leaves S.routine (v, S.place) := by
  have hleaves : ∀ entry ∈ (S.leave v).returns, E.code.Leaves S.routine entry := by
    intro entry hentry
    refine h.finishes.returns.leaves ?_ hentry
    obtain ⟨hnodup, hmem⟩ := h.merge_return
    -- within one routine different places are different blocks
    have hblocks : (((S.leave v).returns.map Prod.snd).map fun place => place.block).Nodup := by
      refine List.Nodup.map_on (fun x hx y hy hblock => ?_) hnodup
      obtain ⟨g₁, x⟩ := x
      obtain ⟨g₂, y⟩ := y
      obtain rfl : g₁ = g := ((hmem _).mp hx).1
      obtain rfl : g₂ = g₁ := ((hmem _).mp hy).1
      exact congrArg _ hblock
    rw [List.map_map] at hblocks
    exact hblocks
  refine ⟨⟨h.finishes.blocks.ge, h.finishes.returns.registers_le, fun entry hentry => ?_⟩, ?_⟩
  · exact hleaves entry (List.mem_append_left _ hentry)
  · exact hleaves _ (List.mem_append_right _ List.mem_cons_self)

/-- A call of a routine comes out as its body does. -/
theorem Code.Whole.answers {C : Code} {n : Nat} {S : Site} {v : Register} {R : Routine} {name : Option String}
    {G : Globals} {args : List Word} {depth : Nat} {m : Machine} {w : World} {e : Eval Word}
    (h : C.Whole g S v) (hregion : Region C (.opened g name G) [] S) (hR : C.routines[g]? = some R)
    (hinput : m.input = w.input) (houtput : m.output.toList = w.output)
    (hdoes : Scene.Does ⟨C, m.memory, args⟩ n (.opened g name G) S (fun _ => True) e
      fun x regs => ∀ r ∈ [v], Holds r x regs) :
    C.Answers (n + 1) g args depth m w.vars (Eval.activation (fun _ => none) e w) := by
  set E : Scene := ⟨C, m.memory, args⟩ with hE
  have hv := Site.opened_valid g name G
  have hzero : 0 < C.blocksOf g := by
    have hblocks := h.finishes.blocks
    have hpos := (hregion.valid hv).blocks
    rw [show S.routine = g from hregion.routine] at hblocks
    omega
  have hexternal : R.isExternal = false := by
    rw [Code.blocksOf_of_routine hR] at hzero
    exact Array.isEmpty_eq_false_iff.mpr (Array.ne_empty_of_size_pos hzero)
  set a := Activation.start R args depth with ha
  have hstart : E.Related (.opened g name G) a m { w with vars := fun _ => none } := by
    refine ⟨hR, rfl, rfl, Array.size_replicate, rfl, Site.opened_slotted g name G,
      ⟨hinput, houtput, fun _ _ => rfl⟩, fun _ => 0, fun _ _ => rfl, fun other b hb => ?_, ?_⟩
    · rw [Site.get?_opened] at hb
      cases hb
    · intro other _ hother
      rw [Site.get?_opened] at hother
      cases hother
  have henter : ∀ m', a.enter none 0 m' = .ok a m' :=
    hstart.enter ⟨hzero, hregion.direct hv rfl h.finishes.ends⟩ none
  -- the end of the body counts as an exit with its value
  have hleave : ∀ x, E.Does n S S (Holds v x) (throw (.exit x) : Eval Word) fun _ _ => False := fun x =>
    Scene.Does.leave h.finishes.ends (h.room (E := E)).2
  have hbehaves := (hdoes.weaken (fun _ h => h) fun _ _ h => h v List.mem_cons_self).bind hregion.registers
    hleave
  have hsim := hbehaves a m _ hstart trivial
  rw [Eval.activation_exit]
  unfold Eval.activation
  cases hresult : (do throw (.exit (← e)) : Eval Word) { w with vars := fun _ => none } with
  | ok x w' =>
    -- an evaluation that always ends with an exit does not end otherwise
    rw [hresult] at hsim
    obtain ⟨_, _, _, _, _, _, _, _, hfalse⟩ := hsim
    exact hfalse.elim
  | error stop w' =>
    rw [hresult] at hsim
    cases stop with
    | failure f => exact Code.leads_faulty hR hexternal henter hsim
    | exit x =>
      obtain ⟨_, hlead, m', rfl, hshared⟩ := hsim
      exact ⟨rfl, _, Code.leads_returned hR hexternal henter hlead, hshared.shrink, hshared.input,
        hshared.output⟩
    | timeout =>
      exact fun k hk => (Code.stuck_calling hR hexternal henter hsim).mono (Nat.le_of_lt_succ hk)
    | senseless => exact hsim

end Mila
