import Mila.Proofs.States

/-! # Code that does what an evaluation does

`E.Does n S S' P e Q` says of the code between two sites that it does what the evaluation `e` does: whatever
way the evaluation ends, a run that stands at the first site in a corresponding state ends the same way. The
conditions `P` and `Q` are on registers: what they hold before, and what they hold after an evaluation that
gives a result. The bound `n` is on the steps that a run makes at least when the evaluation runs out of
rounds.

One rule for each operation and for each way to put code together leads up to all constructs.
-/

namespace Mila

open Behaviour

/-! ## 1. Runs and results of evaluations -/

/-- A run that comes out as the result of an evaluation says: it gets to where `Q` holds, or it returns as
`X` asks, or it meets the failure, or it goes on for more than `n` steps. -/
def Sim {α : Type} (n : Nat) (x : Behaviour) (X : Word → World → Behaviour → Prop)
    (Q : α → World → Nat → Behaviour → Prop) : EStateM.Result Stop World α → Prop
  | .ok v w => ∃ j y, Leads j x y ∧ Q v w j y
  | .error (.failure f) _ => Leads 0 x (.faulty f.fault)
  | .error (.exit v) w => ∃ y, Leads 0 x y ∧ X v w y
  | .error .timeout _ => Stuck n x
  | .error .senseless _ => False

namespace Sim

variable {α β : Type} {n i : Nat} {x y : Behaviour} {X : Word → World → Behaviour → Prop}
  {Q Q' : α → World → Nat → Behaviour → Prop} {r : EStateM.Result Stop World α}

theorem mono (h : Sim n x X Q r) (hQ : ∀ v w j y, Q v w j y → Q' v w j y) : Sim n x X Q' r := by
  cases r with
  | ok v w =>
    obtain ⟨j, y, hxy, hy⟩ := h
    exact ⟨j, y, hxy, hQ v w j y hy⟩
  | error stop w => cases stop <;> exact h

theorem bound (h : Sim n x X Q r) (hi : i ≤ n) : Sim i x X Q r := by
  cases r with
  | ok v w => exact h
  | error stop w =>
    cases stop with
    | timeout => exact Stuck.mono h hi
    | _ => exact h

theorem after (h : Sim n y X (fun v w j => Q v w (i + j)) r) (hxy : Leads i x y) : Sim (i + n) x X Q r := by
  cases r with
  | ok v w =>
    obtain ⟨j, z, hyz, hz⟩ := h
    exact ⟨i + j, z, hxy.trans hyz, hz⟩
  | error stop w =>
    cases stop with
    | failure f => exact (hxy.trans h).mono (Nat.zero_le _)
    | exit v =>
      obtain ⟨z, hyz, hz⟩ := h
      exact ⟨z, (hxy.trans hyz).mono (Nat.zero_le _), hz⟩
    | timeout => exact hxy.stuck h
    | senseless => exact h

theorem bind {e : Eval α} {f : α → Eval β} {R : β → World → Nat → Behaviour → Prop} {w : World}
    (h : Sim n x X (fun v w' j y => Sim (n - j) y X (fun u w'' i => R u w'' (j + i)) (f v w')) (e w)) :
    Sim n x X R ((e >>= f) w) := by
  change Sim n x X R (EStateM.bind e f w)
  unfold EStateM.bind
  cases he : e w with
  | ok v w' =>
    rw [he] at h
    obtain ⟨j, y, hxy, hy⟩ := h
    exact (hy.after hxy).bound (by omega)
  | error stop w' =>
    rw [he] at h
    cases stop <;> exact h

end Sim

/-! ## 2. Code from site to site -/

/-- A condition on registers that only those below a bound matter to. -/
def Stable (k : Nat) (P : Array Content → Prop) : Prop :=
  ∀ regs regs' : Array Content, (∀ r : Nat, r < k → regs'[r]? = regs[r]?) → P regs → P regs'

namespace Stable

variable {k k' : Nat} {P P' : Array Content → Prop}

theorem true (k : Nat) : Stable k fun _ => True := fun _ _ _ _ => trivial

theorem and (h : Stable k P) (h' : Stable k P') : Stable k fun regs => P regs ∧ P' regs :=
  fun regs regs' hkeeps hp => ⟨h regs regs' hkeeps hp.1, h' regs regs' hkeeps hp.2⟩

theorem mono (h : Stable k P) (hk : k ≤ k') : Stable k' P :=
  fun regs regs' hkeeps => h regs regs' fun r hr => hkeeps r (hr.trans_le hk)

end Stable

namespace Scene

/-- A run of the routine at hand has returned. -/
def Left (E : Scene) (v : Word) (w : World) (y : Behaviour) : Prop :=
  ∃ m, y = .returned v m ∧ E.Shared m w

/-- The code between two sites does what an evaluation does. -/
def Does {α : Type} (E : Scene) (n : Nat) (S S' : Site) (P : Array Content → Prop) (e : Eval α)
    (Q : α → Array Content → Prop) : Prop :=
  ∀ a m w, E.Related S a m w → P a.registers →
    Sim n (a.behaviour E.code m) E.Left (fun v w' _ y => ∃ a' m', y = a'.behaviour E.code m' ∧
      E.Related S' a' m' w' ∧ a.Keeps S.registers a' ∧ Q v a'.registers) (e w)

namespace Does

variable {α β : Type} {E : Scene} {n : Nat} {S S₁ S₂ : Site} {P P' : Array Content → Prop}
  {e : Eval α} {Q Q' : α → Array Content → Prop}

variable {R : Array Content → Prop}

theorem weaken (h : E.Does n S S₁ P e Q) (hP : ∀ regs, R regs → P regs)
    (hQ : ∀ v regs, Q v regs → Q' v regs) : E.Does n S S₁ R e Q' := by
  intro a m w hrel hp
  refine (h a m w hrel (hP _ hp)).mono ?_
  rintro v w' _ y ⟨a', m', hy, hrel', hkeeps, hq⟩
  exact ⟨a', m', hy, hrel', hkeeps, hQ _ _ hq⟩

theorem pure (v : α) (h : ∀ regs, P regs → Q v regs) : E.Does n S S P (Pure.pure v) Q :=
  fun a m _ hrel hp => ⟨0, _, .refl _, a, m, rfl, hrel, .refl a _, h _ hp⟩

/-- One piece of code behind another. -/
theorem bind {f : α → Eval β} {R : β → Array Content → Prop} (h : E.Does n S S₁ P e Q)
    (hregisters : S.registers ≤ S₁.registers) (hf : ∀ v, E.Does n S₁ S₂ (Q v) (f v) R) :
    E.Does n S S₂ P (e >>= f) R := by
  intro a m w hrel hp
  refine Sim.bind ((h a m w hrel hp).mono ?_)
  rintro v w₁ j y ⟨a₁, m₁, rfl, hrel₁, hkeeps₁, hq⟩
  refine ((hf v a₁ m₁ w₁ hrel₁ hq).mono ?_).bound (Nat.sub_le n j)
  rintro u w₂ i z ⟨a₂, m₂, rfl, hrel₂, hkeeps₂, hr⟩
  exact ⟨a₂, m₂, rfl, hrel₂, hkeeps₁.trans hkeeps₂ hregisters, hr⟩

/-- Code that evaluates nothing, in front. -/
theorem after (h : E.Does n S S₁ P (Pure.pure ()) fun _ => R)
    (hregisters : S.registers ≤ S₁.registers) (h' : E.Does n S₁ S₂ R e Q) : E.Does n S S₂ P e Q := by
  have hbind := h.bind (f := fun _ => e) hregisters fun _ => h'
  exact hbind

/-- Code that evaluates nothing, behind. -/
theorem before {R : α → Array Content → Prop} (h : E.Does n S S₁ P e Q) (hregisters : S.registers ≤ S₁.registers)
    (h' : ∀ v, E.Does n S₁ S₂ (Q v) (Pure.pure ()) fun _ => R v) : E.Does n S S₂ P e R := by
  have hlast : ∀ v, E.Does n S₁ S₂ (Q v) (Pure.pure v) R := fun v a m w hrel hq =>
    h' v a m w hrel hq
  have hbind := h.bind hregisters hlast
  rw [bind_pure] at hbind
  exact hbind

/-- What registers below the site hold, they hold also afterwards. -/
theorem frame (h : E.Does n S S₁ P e Q) (hR : Stable S.registers R) :
    E.Does n S S₁ (fun regs => P regs ∧ R regs) e fun v regs => Q v regs ∧ R regs := by
  rintro a m w hrel ⟨hp, hr⟩
  refine (h a m w hrel hp).mono ?_
  rintro v w' j y ⟨a', m', hy, hrel', hkeeps, hq⟩
  exact ⟨a', m', hy, hrel', hkeeps, hq, hR _ _ hkeeps hr⟩

end Does

end Scene

/-! ## 3. Operators -/

namespace Word

variable (a b : Word)

theorem ofInt_add : Int32.ofInt (a.toInt + b.toInt) = a + b := by
  rw [Int32.ofInt_add, Int32.ofInt_toInt, Int32.ofInt_toInt]

theorem ofInt_sub : Int32.ofInt (a.toInt - b.toInt) = a - b := by
  rw [Int32.ofInt_sub, Int32.ofInt_toInt, Int32.ofInt_toInt]

theorem ofInt_mul : Int32.ofInt (a.toInt * b.toInt) = a * b := by
  rw [Int32.ofInt_mul, Int32.ofInt_toInt, Int32.ofInt_toInt]

theorem ofInt_tdiv : Int32.ofInt (a.toInt.tdiv b.toInt) = a / b := by
  rw [Int32.ofInt_tdiv a.minValue_le_toInt a.toInt_le b.minValue_le_toInt b.toInt_le,
    Int32.ofInt_toInt, Int32.ofInt_toInt]

theorem ofInt_tmod : Int32.ofInt (a.toInt.tmod b.toInt) = a % b := by
  rw [Int32.ofInt_tmod a.minValue_le_toInt a.toInt_le b.minValue_le_toInt b.toInt_le,
    Int32.ofInt_toInt, Int32.ofInt_toInt]

theorem toInt_eq_zero : b.toInt = 0 ↔ b = 0 := by
  rw [← Int32.toInt_inj]
  rfl

end Word

namespace BinaryOperator

variable {op : BinaryOperator} {o : Arithmetic}

theorem result?_arithmetic (h : op.arithmetic? = some o) (a b : Word) : op.result? a b = o.eval? a b := by
  cases op with
  | add => cases h; exact congrArg some (Word.ofInt_add a b)
  | sub => cases h; exact congrArg some (Word.ofInt_sub a b)
  | mul => cases h; exact congrArg some (Word.ofInt_mul a b)
  | div =>
    cases h
    simp only [result?, Arithmetic.eval?, Word.toInt_eq_zero, Word.ofInt_tdiv]
  | mod =>
    cases h
    simp only [result?, Arithmetic.eval?, Word.toInt_eq_zero, Word.ofInt_tmod]
  | _ => cases h

theorem result?_comparison {o : Comparison} (h : op.comparison? = some o)
    (a b : Word) : op.result? a b = some (.ofBool (o.holds a b)) := by
  cases op with
  | lt => cases h; simp only [result?, Comparison.holds, Int32.lt_iff_toInt_lt]
  | le => cases h; simp only [result?, Comparison.holds, Int32.le_iff_toInt_le]
  | gt => cases h; simp only [result?, Comparison.holds, Int32.lt_iff_toInt_lt]
  | ge => cases h; simp only [result?, Comparison.holds, Int32.le_iff_toInt_le]
  | eq => cases h; simp only [result?, Comparison.holds, Int32.toInt_inj, beq_eq_decide]
  | ne =>
    cases h
    simp only [result?, Comparison.holds, ne_eq, Int32.toInt_inj, bne, beq_eq_decide, decide_not]
  | _ => cases h

theorem result?_logical (h : op.logical? = some o) (a b : Word) :
    op.result? a b = o.eval? (.ofBool a.isTrue) (.ofBool b.isTrue) := by
  cases op with
  | and =>
    cases h
    simp only [result?, Arithmetic.eval?]
    cases a.isTrue <;> cases b.isTrue <;> rfl
  | or =>
    cases h
    simp only [result?, Arithmetic.eval?]
    cases a.isTrue <;> cases b.isTrue <;> rfl
  | _ => cases h

end BinaryOperator

namespace Direction

theorem starts_eq (d : Direction) (a b : Word) : d.starts a b = d.entryTest.holds a b := by
  cases d <;> simp only [starts, entryTest, Comparison.holds, Int32.le_iff_toInt_le]

theorem goesOn_eq (d : Direction) (a b : Word) : d.goesOn a b = d.repeatTest.holds a b := by
  cases d <;> simp only [goesOn, repeatTest, Comparison.holds, Int32.lt_iff_toInt_lt]

theorem next_eq (d : Direction) (a : Word) : d.next a = a + d.step := by
  cases d with
  | up => exact Word.ofInt_add a 1
  | down => exact Word.ofInt_add a (-1)

end Direction

theorem Word.isTrue_ofBool (b : Bool) : (Word.ofBool b).isTrue = b := by
  cases b <;> rfl

/-- The word that an operation on words gives, which only a zero divisor may leave undefined. -/
def Eval.arithmetic (o : Arithmetic) (x y : Word) : Eval Word :=
  match o.eval? x y with
  | some value => return value
  | none => fail .divisionByZero

/-! ## 4. Operations -/

/-- A register holds a word. -/
def Holds (r : Register) (v : Word) (registers : Array Content) : Prop :=
  registers[r]? = some (.word v)

theorem Stable.holds {k r : Nat} (hr : r < k) (v : Word) : Stable k (Holds r v) :=
  fun _ _ hkeeps hold => (hkeeps r hr).trans hold

/-- A register holds the address of a place in the world. -/
def Points (names : String → Option Binding) (r : Register) (d : Destination)
    (registers : Array Content) : Prop :=
  ∃ b place, names d.name = some b ∧ b.shape = d.shape ∧ registers[b.slot]? = some (.address place) ∧
    registers[r]? = some (.address { place with index := place.index + d.index })

variable {slot : Register} {C : Code}

theorem Points.scalar {names : String → Option Binding} {name : String}
    {registers : Array Content} {place : Address} (hb : names name = some ⟨slot, .scalar⟩)
    (hslot : registers[slot]? = some (.address place)) : Points names slot (.scalar name) registers := by
  refine ⟨⟨slot, .scalar⟩, place, hb, rfl, hslot, hslot.trans ?_⟩
  rw [show (Destination.scalar name).index = 0 from rfl, Int.add_zero]

namespace Machine

variable {m : Machine} {k : Nat} {c : Cells}

theorem read_eq (hc : m.memory[k]? = some c) (i : Int) : read ⟨k, i⟩ m = match c.get? i with
      | none => .error .outOfBounds m
      | some v => .ok v m := by
  cases hv : c.get? i with
  | none => simp only [read, hc, hv]
  | some v => simp only [read, hc, hv]

theorem write_eq (hc : m.memory[k]? = some c) (i : Int) (v : Word) : write ⟨k, i⟩ v m = match c.set? i v with
      | none => .error .outOfBounds m
      | some c => .ok () { m with memory := m.memory.setIfInBounds k c } := by
  cases hd : c.set? i v with
  | none => simp only [write, hc, hd]
  | some d => simp only [write, hc, hd]

end Machine

namespace Scene

variable {E : Scene} {n : Nat} {S S₁ : Site} {a : Activation} {m : Machine} {w : World}

variable {name : String} {slot r : Register} {d : Destination}

theorem Related.points (h : E.Related S a m w) (hb : S.locals.get? name = some ⟨slot, .scalar⟩) :
    Points S.locals.get? slot (.scalar name) a.registers := by
  obtain ⟨loc, hloc⟩ := h.laid
  obtain ⟨x, c, -, -, hslot, -⟩ := hloc.present name _ hb
  exact .scalar hb hslot

/-- Reading at an address that points to a place is looking at the place. -/
theorem Related.read (h : E.Related S a m w) (hpoints : Points S.locals.get? r d a.registers) : ∃ place,
      a.registers[r]? = some (.address place) ∧
      ((∃ v, Machine.read place m = .ok v m ∧ Eval.fetch d w = .ok v w) ∨
        (Machine.read place m = .error .outOfBounds m ∧
          Eval.fetch d w = .error (.failure .outOfBounds) w)) := by
  obtain ⟨loc, hloc⟩ := h.laid
  obtain ⟨b, place, hb, hshape, hslot, hr⟩ := hpoints
  obtain ⟨x, c, hx, hxshape, hslot', -, hc, hstore⟩ := hloc.present d.name b hb
  obtain rfl : place = ⟨loc d.name, -x.low⟩ :=
    Content.address.inj (Option.some.inj (hslot.symm.trans hslot'))
  refine ⟨_, hr, ?_⟩
  rw [Eval.fetch_eq hx (hxshape.trans hshape), ← hstore d.index, Machine.read_eq hc,
    show -x.low + d.index = d.index - x.low by omega]
  cases c.get? (d.index - x.low) with
  | none => exact .inr ⟨rfl, rfl⟩
  | some v => exact .inl ⟨v, rfl, rfl⟩

/-- Writing at an address that points to a place is writing to the place. -/
theorem Related.write (h : E.Related S a m w) (hpoints : Points S.locals.get? r d a.registers) (v : Word) : ∃ place,
      a.registers[r]? = some (.address place) ∧
      ((∃ m' w', Machine.write place v m = .ok () m' ∧ Eval.put d v w = .ok () w' ∧
          E.Shared m' w' ∧ ∃ loc, Laid loc E.base.size S.locals.get? a.registers m'.memory w'.vars) ∨
        (Machine.write place v m = .error .outOfBounds m ∧
          Eval.put d v w = .error (.failure .outOfBounds) w)) := by
  obtain ⟨loc, hloc⟩ := h.laid
  obtain ⟨b, place, hb, hshape, hslot, hr⟩ := hpoints
  obtain ⟨x, c, hx, hxshape, hslot', hbase, hc, hstore⟩ := hloc.present d.name b hb
  obtain rfl : place = ⟨loc d.name, -x.low⟩ :=
    Content.address.inj (Option.some.inj (hslot.symm.trans hslot'))
  refine ⟨_, hr, ?_⟩
  rw [Eval.put_eq hx (hxshape.trans hshape), ← hstore d.index, Machine.write_eq hc,
    show -x.low + d.index = d.index - x.low by omega]
  -- Reading and writing a cell fail at the same distances, so both sides stop or neither does.
  have hsome := Cells.get?_isSome_iff c (d.index - x.low)
  rw [← Cells.set?_isSome_iff c (d.index - x.low) v] at hsome
  cases hset : c.set? (d.index - x.low) v with
  | none =>
    rw [hset] at hsome
    cases hget : c.get? (d.index - x.low) with
    | none => exact .inr ⟨rfl, rfl⟩
    | some u =>
      rw [hget] at hsome
      exact absurd (hsome.mp rfl) Bool.false_ne_true
  | some c' =>
    rw [hset] at hsome
    obtain ⟨u, hget⟩ := Option.isSome_iff_exists.mp (hsome.mpr rfl)
    rw [hget]
    refine .inl ⟨_, _, rfl, rfl, ⟨h.shared.input, h.shared.output, fun k hk => ?_⟩, loc, ?_⟩
    · change (m.memory.setIfInBounds (loc d.name) c')[k]? = _
      rw [Array.getElem?_setIfInBounds_ne (by omega)]
      exact h.shared.memory k hk
    · exact hloc.put hb hx (Variable.shape_set ..) (Variable.low_set ..) (hstore.set hset)

namespace Does

variable {P : Array Content → Prop} {v : Register}

variable {o : Operation} {x y : Word} {l r : Register} {d : Destination}

/-- An operation other than a call that does what an evaluation does. -/
theorem defines {α : Type} {e : Eval α} {Q : α → Array Content → Prop}
    (hroom : E.Room S₁) (h : Lowered E.code (.op o) S [v] S₁) (ho : ∀ g args, o ≠ .call g args)
    (hop : ∀ a m w, E.Related S a m w → P a.registers →
      (∃ x content m' w', e w = .ok x w' ∧
        (∀ call, Machine.evaluate call a o m = .ok (some content) m') ∧ E.Shared m' w' ∧
        (∃ loc, Laid loc E.base.size S.locals.get? a.registers m'.memory w'.vars) ∧
        ∀ regs : Array Content, (∀ r : Nat, r < S.registers → regs[r]? = a.registers[r]?) →
          regs[v]? = some content → Q x regs) ∨
      (∃ f m' w', e w = .error (.failure f) w' ∧
        ∀ call, Machine.evaluate call a o m = .error f.fault m')) : E.Does n S S₁ P e Q := by
  intro a m w hrel hp
  cases h with
  | op hphi hhas =>
    have hins := hrel.instruction hhas
    have hlt : S.registers < a.registers.size := by
      rw [hrel.size_eq]
      exact hroom.registers
    -- the operation succeeds or fails as the evaluation does
    rcases hop a m w hrel hp with ⟨x, content, m', w', he, hx, hshared, hlaid, hQ⟩ | ⟨f, m', w', he, hf⟩
    · rw [he]
      have hkeeps := Activation.Keeps.defined a S.registers content
      exact ⟨1, _, Activation.leads_define hins ho hlt hx, _, m', rfl,
        hrel.define content hshared hlaid, hkeeps,
        hQ _ hkeeps (Array.getElem?_setIfInBounds_self_of_lt hlt)⟩
    · rw [he]
      exact (Activation.leads_fault hins ho hf).mono (Nat.zero_le 1)

/-- An operation that yields a word and leaves the machine as it is. -/
theorem operation {e : Eval Word} (hroom : E.Room S₁)
    (h : Lowered E.code (.op o) S [v] S₁) (ho : ∀ g args, o ≠ .call g args)
    (hop : ∀ a m w, E.Related S a m w → P a.registers →
      (∃ x, e w = .ok x w ∧ ∀ call, Machine.evaluate call a o m = .ok (some (.word x)) m) ∨
      (∃ f, e w = .error (.failure f) w ∧ ∀ call, Machine.evaluate call a o m = .error f.fault m)) :
    E.Does n S S₁ P e fun x => Holds v x := by
  refine defines hroom h ho fun a m w hrel hp => ?_
  rcases hop a m w hrel hp with ⟨x, he, hx⟩ | ⟨f, he, hf⟩
  · exact .inl ⟨x, _, m, w, he, hx, hrel.shared, hrel.laid, fun _ _ hv => hv⟩
  · exact .inr ⟨f, m, w, he, hf⟩

theorem const (hroom : E.Room S₁) (h : Lowered E.code (.op (.const x)) S [v] S₁) :
    E.Does n S S₁ P (Pure.pure x) fun x => Holds v x :=
  operation hroom h (fun _ _ => Operation.noConfusion) fun _ _ _ _ _ => .inl ⟨x, rfl, fun _ => rfl⟩

theorem compare {c : Comparison} (hroom : E.Room S₁) (h : Lowered E.code (.op (.compare c l r)) S [v] S₁) :
    E.Does n S S₁ (fun regs => Holds l x regs ∧ Holds r y regs) (Pure.pure (Word.ofBool (c.holds x y)))
      fun x => Holds v x := by
  refine operation hroom h (fun _ _ => Operation.noConfusion) ?_
  rintro a m w - ⟨hl, hr⟩
  refine .inl ⟨_, rfl, fun call => ?_⟩
  rw [Machine.evaluate, Run.bind_ok (Activation.word_ok hl m), Run.bind_ok (Activation.word_ok hr m)]
  rfl

theorem arith {o : Arithmetic} (hroom : E.Room S₁) (h : Lowered E.code (.op (.arith o l r)) S [v] S₁) :
    E.Does n S S₁ (fun regs => Holds l x regs ∧ Holds r y regs) (Eval.arithmetic o x y)
      fun x => Holds v x := by
  refine operation hroom h (fun _ _ => Operation.noConfusion) ?_
  rintro a m w - ⟨hl, hr⟩
  have hevaluate : ∀ call, Machine.evaluate call a (.arith o l r) m =
      (match o.eval? x y with
        | some value => Pure.pure (some (Content.word value))
        | none => throw .divisionByZero : Run (Option Content)) m := by
    intro call
    exact (Run.bind_ok (Activation.word_ok hl m)).trans (Run.bind_ok (Activation.word_ok hr m))
  unfold Eval.arithmetic
  cases heval : o.eval? x y with
  | some value => exact .inl ⟨value, rfl, fun call => by rw [hevaluate, heval]; rfl⟩
  | none => exact .inr ⟨.divisionByZero, rfl, fun call => by rw [hevaluate, heval]; rfl⟩

theorem load (hroom : E.Room S₁) (h : Lowered E.code (.op (.load r)) S [v] S₁) :
    E.Does n S S₁ (Points S.locals.get? r d) (Eval.fetch d) fun x => Holds v x := by
  refine operation hroom h (fun _ _ => Operation.noConfusion) fun a m w hrel hp => ?_
  obtain ⟨place, hplace, ⟨x, hread, hfetch⟩ | ⟨hread, hfetch⟩⟩ := hrel.read hp
  · refine .inl ⟨x, hfetch, fun call => ?_⟩
    rw [Machine.evaluate, Run.bind_ok (Activation.address_ok hplace m), Run.bind_ok hread]
    rfl
  · refine .inr ⟨.outOfBounds, hfetch, fun call => ?_⟩
    rw [Machine.evaluate, Run.bind_ok (Activation.address_ok hplace m), Run.bind_error hread]
    rfl

/-- The slot of an array and an index give the address of an element. -/
theorem offset {name : String} {slot i : Register} (hroom : E.Room S₁) (hb : S.locals.get? name = some ⟨slot, .array⟩)
    (h : Lowered E.code (.op (.offset slot i)) S [v] S₁) :
    E.Does n S S₁ (Holds i x) (Pure.pure (.element name x.toInt)) fun d => Points S.locals.get? v d := by
  refine defines hroom h (fun _ _ => Operation.noConfusion) fun a m w hrel hi => ?_
  obtain ⟨loc, hloc⟩ := hrel.laid
  obtain ⟨y, c, -, -, hslot, -⟩ := hloc.present name _ hb
  refine .inl ⟨_, .address ⟨loc name, -y.low + x.toInt⟩, m, w, rfl, fun call => ?_, hrel.shared,
    ⟨loc, hloc⟩, fun regs hkeeps hv => ?_⟩
  · rw [Machine.evaluate, Run.bind_ok (Activation.address_ok hslot m),
      Run.bind_ok (Activation.word_ok hi m)]
    rfl
  · exact ⟨_, _, hb, rfl, (hkeeps slot (hrel.slots name _ hb)).trans hslot, hv⟩

theorem store (h : Lowered E.code (.store l r) S [] S₁) :
    E.Does n S S₁ (fun regs => Holds l x regs ∧ Points S.locals.get? r d regs) (Eval.put d x)
      fun _ _ => True := by
  rintro a m w hrel ⟨hl, hr⟩
  cases h with
  | store hhas =>
    have hins := hrel.instruction hhas
    obtain ⟨place, hplace, ⟨m', w', hwrite, hput, hshared, hlaid⟩ | ⟨hwrite, hput⟩⟩ := hrel.write hr x
    · rw [hput]
      exact ⟨1, _, Activation.leads_store hins hl hplace hwrite, _, m', rfl,
        hrel.skip hshared hlaid, .refl _ _, trivial⟩
    · rw [hput]
      exact (Activation.leads_store_fault hins hl hplace hwrite).mono (Nat.zero_le 1)

end Does

/-- A piece of a run ends as an evaluation does: with the same word and with the variables in memory, or with the
same failure. -/
def EndsAs (E : Scene) (S : Site) (a : Activation) (m : Machine) (w : World) (x : Run Word) (e : Eval Word) :
    Prop :=
  (∃ v m' w', x m = .ok v m' ∧ e w = .ok v w' ∧ E.Shared m' w' ∧
    ∃ loc, Laid loc E.base.size S.locals.get? a.registers m'.memory w'.vars) ∨
  ∃ (f : Failure) (m' : Machine) (w' : World), x m = .error f.fault m' ∧ e w = .error (.failure f) w'

/-- The last part of an intrinsic, which stores a value and yields it. -/
theorem Related.leave (h : E.Related S a m w) (hb : S.locals.get? name = some ⟨slot, .scalar⟩) (v : Word) :
    E.EndsAs S a m w (do Machine.write (← a.address slot) v; return v) (do Eval.put (.scalar name) v; return v) := by
  obtain ⟨place, hplace, ⟨m', w', hwrite, hput, hshared, hlaid⟩ | ⟨hwrite, hput⟩⟩ :=
    h.write (h.points hb) v
  · refine .inl ⟨v, m', w', ?_, ?_, hshared, hlaid⟩
    · rw [Run.bind_ok (Activation.address_ok hplace m), Run.bind_ok hwrite]
      rfl
    · rw [Eval.bind_ok hput]
      rfl
  · refine .inr ⟨.outOfBounds, m, w, ?_, ?_⟩
    · rw [Run.bind_ok (Activation.address_ok hplace m), Run.bind_error hwrite]
      rfl
    · rw [Eval.bind_error hput]

/-- An intrinsic that works on what a plain variable holds. -/
theorem Related.change (h : E.Related S a m w)
    (hb : S.locals.get? name = some ⟨slot, .scalar⟩) {which : Intrinsic} {f : Word → Word}
    (hm : Machine.intrinsicValue a slot which = do return f (← Machine.read (← a.address slot)))
    (he : Eval.intrinsic name which = do
      let v ← Eval.fetch (.scalar name)
      Eval.put (.scalar name) (f v)
      return f v) : E.EndsAs S a m w (Machine.intrinsic a slot which) (Eval.intrinsic name which) := by
  obtain ⟨place, hplace, hread⟩ := h.read (h.points hb)
  have haddress := Activation.address_ok hplace m
  unfold EndsAs Machine.intrinsic
  rw [hm, he]
  simp only [bind_assoc, pure_bind]
  rw [Run.bind_ok haddress]
  rcases hread with ⟨v, hread, hfetch⟩ | ⟨hread, hfetch⟩
  · rw [Run.bind_ok hread, Eval.bind_ok hfetch]
    exact h.leave hb (f v)
  · rw [Run.bind_error hread, Eval.bind_error hfetch]
    exact .inr ⟨.outOfBounds, m, w, rfl, rfl⟩

/-- An intrinsic on a plain variable does the same to the machine and to the world. -/
theorem Related.intrinsic (h : E.Related S a m w)
    (hb : S.locals.get? name = some ⟨slot, .scalar⟩) (which : Intrinsic) :
    E.EndsAs S a m w (Machine.intrinsic a slot which) (Eval.intrinsic name which) := by
  cases which with
  | readln =>
    have hinput := h.shared.input
    cases hw : w.input with
    | nil =>
      rw [hw] at hinput
      have hm : Machine.readInput m = .error .inputExhausted m := by
        unfold Machine.readInput
        rw [hinput]
      have he : Eval.input w = .error (.failure .inputExhausted) w := by
        rw [Eval.input, Eval.get_bind, hw]
        rfl
      refine .inr ⟨.inputExhausted, m, w, ?_, ?_⟩
      · exact Run.bind_error hm
      · exact Eval.bind_error he
    | cons v rest =>
      rw [hw] at hinput
      have hm : Machine.readInput m = .ok v { m with input := rest } := by
        unfold Machine.readInput
        rw [hinput]
      have he : Eval.input w = .ok v { w with input := rest } := by
        rw [Eval.input, Eval.get_bind, hw]
        rfl
      -- what is read is gone on both sides, also if it can not be stored then
      have hrel : E.Related S a { m with input := rest } { w with input := rest } :=
        { h with shared := ⟨rfl, h.shared.output, h.shared.memory⟩, laid := h.laid }
      unfold EndsAs Machine.intrinsic
      rw [Run.bind_ok (x := Machine.intrinsicValue a slot .readln) hm,
        show Eval.intrinsic name .readln w = _ from Eval.bind_ok he]
      exact hrel.leave hb v
  | inc =>
    refine h.change hb rfl ?_
    simp only [Eval.intrinsic, ← Word.ofInt_add]
    rfl
  | dec =>
    refine h.change hb rfl ?_
    simp only [Eval.intrinsic, ← Word.ofInt_sub]
    rfl

namespace Does

variable {P : Array Content → Prop} {v : Register}

theorem intrinsic {which : Intrinsic} {name : String} {slot : Register} (hroom : E.Room S₁)
    (hb : S.locals.get? name = some ⟨slot, .scalar⟩) (h : Lowered E.code (.op (.intrinsic which slot)) S [v] S₁) :
    E.Does n S S₁ P (Eval.intrinsic name which) fun x => Holds v x := by
  refine defines hroom h (fun _ _ => Operation.noConfusion) fun a m w hrel _ => ?_
  rcases hrel.intrinsic hb which with ⟨x, m', w', hm, he, hshared, hlaid⟩ | ⟨f, m', w', hm, he⟩
  · refine .inl ⟨x, _, m', w', he, fun call => ?_, hshared, hlaid, fun _ _ hv => hv⟩
    rw [Machine.evaluate, Run.bind_ok hm]
    rfl
  · refine .inr ⟨f, m', w', he, fun call => ?_⟩
    rw [Machine.evaluate, Run.bind_error hm]

/-! ## 5. Straight code -/

theorem holding {α : Type} {e : Eval α} {Q : α → Array Content → Prop} (h : E.Does n S S₁ P e Q)
    {r : Register} (hr : r < S.registers) (x : Word) :
    E.Does n S S₁ (fun regs => P regs ∧ Holds r x regs) e fun v regs => Q v regs ∧ Holds r x regs :=
  h.frame (.holds hr x)

end Does

end Scene

theorem Lowered.of_op {o : Operation} {v : Register} {S S₁ : Site}
    (h : Lowered C (.op o) S [v] S₁) : v = S.registers ∧ S₁ = S.next := by
  cases h
  exact ⟨rfl, rfl⟩

theorem Lowered.of_booleanize {l v : Register} {S S₁ : Site}
    (h : Lowered C (.booleanize l) S [v] S₁) : v = S.registers + 1 ∧ S₁ = S.next.next := by
  cases h with
  | booleanize hzero htest =>
    obtain ⟨-, rfl⟩ := hzero.of_op
    exact htest.of_op

theorem Lowered.of_store {v : Register} {S S₁ : Site} (h : Lowered C (.store v slot) S [] S₁) : S₁ = S.skip := by
  cases h
  rfl

theorem Scene.Room.of_next {E : Scene} {S : Site} (h : E.Room S.next) : E.Room S :=
  ⟨h.blocks, (Nat.le_succ _).trans h.registers, h.returns⟩

theorem Scene.Room.of_move {E : Scene} {S : Site} {x : Nat} (h : E.Room (S.move x)) : E.Room S :=
  ⟨h.blocks, h.registers, h.returns⟩

theorem Scene.Room.of_grow {E : Scene} {S : Site} {k : Nat} (h : E.Room (S.grow k)) : E.Room S :=
  ⟨(Nat.le_add_right _ k).trans h.blocks, h.registers, h.returns⟩

theorem Scene.Room.of_skip {E : Scene} {S : Site} (h : E.Room S.skip) : E.Room S :=
  ⟨h.blocks, h.registers, h.returns⟩

namespace Scene.Does

variable {E : Scene} {n : Nat} {S S₁ S₂ : Site} {v l r : Register} {x y : Word}

variable {name : String} {slot c : Register} {a : Activation} {m : Machine} {w : World} {b b' : Nat} {T U : Site}
  {round : Eval Bool}

theorem fetchScalar {P : Array Content → Prop} (hroom : E.Room S₁) (hb : S.locals.get? name = some ⟨slot, .scalar⟩)
    (h : Lowered E.code (.op (.load slot)) S [v] S₁) :
    E.Does n S S₁ P (Eval.fetch (.scalar name)) fun x => Holds v x :=
  fun a m w hrel _ => load hroom h a m w hrel (hrel.points hb)

theorem putScalar (hb : S.locals.get? name = some ⟨slot, .scalar⟩) (h : Lowered E.code (.store l slot) S [] S₁) :
    E.Does n S S₁ (Holds l x) (Eval.put (.scalar name) x) fun _ _ => True :=
  fun a m w hrel hl => store h a m w hrel ⟨hl, hrel.points hb⟩

theorem booleanize (hroom : E.Room S₁) (h : Lowered E.code (.booleanize l) S [v] S₁) (hl : l < S.registers) :
    E.Does n S S₁ (Holds l x) (Pure.pure (.ofBool x.isTrue)) fun b => Holds v b := by
  cases h with
  | booleanize hzero htest =>
    obtain ⟨rfl, rfl⟩ := hzero.of_op
    obtain ⟨rfl, rfl⟩ := htest.of_op
    have hnought : E.Does n S S.next (Holds l x) (Pure.pure 0) fun z regs =>
        Holds S.registers z regs ∧ Holds l x regs :=
      ((const hroom.of_next hzero).holding hl x).weaken (fun _ h => ⟨trivial, h⟩) fun _ _ h => h
    have hne : ∀ z, E.Does n S.next S.next.next (fun regs => Holds S.registers z regs ∧ Holds l x regs)
        (Pure.pure (.ofBool (Comparison.ne.holds x z))) fun b => Holds S.next.registers b := fun z =>
      (compare hroom htest).weaken (fun _ h => h.symm) fun _ _ h => h
    exact hnought.bind (Nat.le_succ _) hne

theorem combine {op : BinaryOperator} (hroom : E.Room S₁) (h : Lowered E.code (.combine op l r) S [v] S₁)
    (hl : l < S.registers) (hr : r < S.registers) :
    E.Does n S S₁ (fun regs => Holds l x regs ∧ Holds r y regs) (Eval.combine op x y)
      fun z => Holds v z := by
  unfold Eval.combine
  cases h with
  | arithmetic hop h =>
    rw [BinaryOperator.result?_arithmetic hop]
    exact arith hroom h
  | comparison hop h =>
    rw [BinaryOperator.result?_comparison hop]
    exact compare hroom h
  | @logical _ o _ _ l' r' _ _ S₁ S₂ _ hop hleft hright h =>
    rw [BinaryOperator.result?_logical hop]
    obtain ⟨rfl, rfl⟩ := hleft.of_booleanize
    obtain ⟨rfl, rfl⟩ := hright.of_booleanize
    obtain ⟨rfl, rfl⟩ := h.of_op
    have hroom₂ := hroom.of_next
    -- one operand, the other, and then both together
    have h₁ := (booleanize (n := n) (x := x) hroom₂.of_next.of_next hleft hl).holding hr y
    have h₂ : ∀ b, E.Does n S.next.next S.next.next.next.next
        (fun regs => Holds (S.registers + 1) b regs ∧ Holds r y regs) (Pure.pure (.ofBool y.isTrue))
        fun c regs => Holds (S.registers + 3) c regs ∧ Holds (S.registers + 1) b regs := fun b =>
      ((booleanize hroom₂ hright (Nat.lt_add_right 2 hr)).holding (Nat.lt_succ_self _) b).weaken
        (fun _ h => h.symm) fun _ _ h => h
    have h₃ : ∀ b c, E.Does n S.next.next.next.next S.next.next.next.next.next
        (fun regs => Holds (S.registers + 3) c regs ∧ Holds (S.registers + 1) b regs)
        (Eval.arithmetic o b c) fun z => Holds S.next.next.next.next.registers z := fun b c =>
      (arith hroom h).weaken (fun _ h => h.symm) fun _ _ h => h
    exact h₁.bind (Nat.le_add_right _ 2) fun b => (h₂ b).bind (Nat.le_add_right _ 2) (h₃ b)

/-! ## 6. From block to block -/

variable {P : Array Content → Prop} {α : Type} {e : Eval α} {Q : α → Array Content → Prop}

/-- A run that stands at a jump goes on in the other block. -/
theorem jump_leads (hrel : E.Related S a m w) (hends : E.code.Ends S (.jump (S.ref b))) (hb : E.Enterable S b) :
    Leads 1 (a.behaviour E.code m) ((a.goto b).behaviour E.code m) := by
  obtain ⟨hi, he⟩ := hrel.exit hends
  exact Activation.leads_jump hi he (hrel.enter hb _)

theorem jump (hends : E.code.Ends S (.jump (S.ref b))) (hb : E.Enterable S b) :
    E.Does n S (S.move b) P (Pure.pure ()) fun _ => P := fun a m _ hrel hp =>
  ⟨1, _, jump_leads hrel hends hb, a.goto b, m, rfl, hrel.goto b, .refl a _, hp⟩

/-- A run that stands at a branch goes on in one of the two blocks. -/
theorem branch_leads {t : Bool} (hrel : E.Related S a m w) (hends : E.code.Ends S (.branch c (S.ref b) (S.ref b')))
    (hc : Holds c (.ofBool t) a.registers) (hb : E.Enterable S (bif t then b else b')) :
    Leads 1 (a.behaviour E.code m) ((a.goto (bif t then b else b')).behaviour E.code m) := by
  obtain ⟨hi, he⟩ := hrel.exit hends
  refine Activation.leads_branch hi he hc fun m' => ?_
  rw [Word.isTrue_ofBool]
  have henter := hrel.enter hb (some a.block) m'
  cases t <;> exact henter

theorem branch (t : Bool) (hends : E.code.Ends S (.branch c (S.ref b) (S.ref b')))
    (hb : E.Enterable S (bif t then b else b')) :
    E.Does n S (S.move (bif t then b else b')) (Holds c (.ofBool t)) (Pure.pure ())
      fun _ _ => True := fun a m _ hrel hc =>
  ⟨1, _, branch_leads hrel hends hc hb, a.goto _, m, rfl, hrel.goto _, .refl a _, trivial⟩

/-- A jump to a block that merges the value of a register with others. -/
theorem merge {L : List (Register × BlockRef)} (hphis : E.code.PhisFirst)
    (hroom : E.Room (S₁.move b).next) (hends : E.code.Ends S (.jump (S.ref b))) (hf : S.Follows S₁)
    (hphi : E.code.Has (S₁.move b) (.define S₁.registers (.phi L))) (hmem : (v, S.place) ∈ L)
    (hnodup : (L.map fun entry => entry.2.block).Nodup) :
    E.Does n S (S₁.move b).next (Holds v x) (Pure.pure ()) fun _ => Holds S₁.registers x := by
  intro a m w hrel hv
  obtain ⟨hi, he⟩ := hrel.exit hends
  -- The other branch has taken registers meanwhile: what is known at `S` still holds with those of `S₁`.
  have hrel₁ : E.Related { S₁ with block := S.block, index := S.index } a m w :=
    hrel.forward ⟨hf.routine, hf.resultName, hf.globals, hf.locals, hf.registers⟩ rfl rfl
  have hlt : S₁.registers < a.registers.size := by
    rw [hrel.size_eq, ← hf.routine]
    exact hroom.registers
  obtain ⟨blk, hblk, hins⟩ := id hphi
  have hblock : a.routine.blocks[b]? = some blk := by
    rw [← hrel.block? b, ← hf.routine]
    exact hblk
  -- No other merge stands in the block, since a merge is only found at its start.
  have hlead : blk.leadingPhis = [(S₁.registers, L)] := by
    refine Block.leadingPhis_single hins fun r' L' hsecond => ?_
    have hzero := hphis (S₁.move b).place 1 r' L' (by
      unfold Code.instruction?
      rw [hblk]
      exact hsecond)
    cases hzero
  have hfind := Code.find_origin hnodup hmem
  rw [show (S.place).block = a.block from hrel.block.symm] at hfind
  have h₁ : Leads 1 (a.behaviour E.code m) ((a.gotoWith b S₁.registers x).behaviour E.code m) :=
    Activation.leads_jump hi he (Activation.enter_merge hblock hlead hfind hv hlt)
  have hrel₂ : E.Related (S₁.move b) (a.gotoWith b S₁.registers x) m w := hrel₁.gotoWith b x
  have h₂ := Activation.leads_phi (C := E.code) (m := m) (hrel₂.instruction hphi)
  refine ⟨2, _, h₁.trans h₂, (a.gotoWith b S₁.registers x).advance, m, rfl, ?_, ?_, ?_⟩
  · exact (hrel₂.skip hrel₂.shared hrel₂.laid).forward ⟨rfl, rfl, rfl, rfl, Nat.le_succ _⟩ rfl rfl
  · exact fun r hr => Activation.Keeps.gotoWith a b S₁.registers x r (hr.trans_le hf.registers)
  · exact Array.getElem?_setIfInBounds_self_of_lt hlt

/-- A loop, given that each round gets back to where it started, after a step at least, or to where the code
goes on. -/
theorem loop {k i : Nat} (hP : Stable k P) (hround : ∀ a m w, E.Related T a m w → P a.registers →
      Sim n (a.behaviour E.code m) E.Left (fun again w' j y => ∃ a' m', y = a'.behaviour E.code m' ∧
        a.Keeps k a' ∧ bif again then 1 ≤ j ∧ E.Related T a' m' w' else E.Related U a' m' w') (round w))
    (hi : i ≤ n) (hrel : E.Related T a m w) (hp : P a.registers) :
    Sim i (a.behaviour E.code m) E.Left (fun _ w' _ y => ∃ a' m', y = a'.behaviour E.code m' ∧
      E.Related U a' m' w' ∧ a.Keeps k a') (Eval.loop round i w) := by
  induction i generalizing a m w with
  | zero =>
    -- without a round left there is no step left either
    intro L t ht
    rw [Nat.le_zero.mp ht]
    exact .inl (Activation.behaviour_zero L)
  | succ i ih =>
    -- a round ends the loop, or takes a step at least
    refine Sim.bind (((hround a m w hrel hp).bound hi).mono ?_)
    rintro (_ | _) w' j y ⟨a', m', rfl, hkeeps, hnext⟩
    · exact ⟨0, _, .refl _, a', m', rfl, hnext, hkeeps⟩
    · obtain ⟨hj, hrel'⟩ := hnext
      have hrest := ih (Nat.le_of_succ_le hi) hrel' (hP _ _ hkeeps hp)
      refine (hrest.bound (by omega)).mono ?_
      rintro _ w'' _ z ⟨a'', m'', hz, hrel'', hkeeps'⟩
      exact ⟨a'', m'', hz, hrel'', hkeeps.trans hkeeps' (Nat.le_refl k)⟩

theorem loops (hP : Stable T.registers P) (hround : ∀ a m w, E.Related T a m w → P a.registers →
      Sim n (a.behaviour E.code m) E.Left (fun again w' j y => ∃ a' m', y = a'.behaviour E.code m' ∧
        a.Keeps T.registers a' ∧ bif again then 1 ≤ j ∧ E.Related T a' m' w'
          else E.Related U a' m' w') (round w)) : E.Does n T U P (Eval.loop round n) fun _ _ => True := by
  intro a m w hrel hp
  refine (loop hP hround (Nat.le_refl n) hrel hp).mono ?_
  rintro _ w' _ y ⟨a', m', hy, hrel', hkeeps⟩
  exact ⟨a', m', hy, hrel', hkeeps, trivial⟩

/-- A loop whose rounds end with a branch back to their start. -/
theorem repeats {u : Nat} {t : Register} (hP : Stable T.registers P) (hindex : T.index = 0) (hf : T.Follows S)
    (hends : E.code.Ends S (.branch t (S.ref T.block) (S.ref u))) (hT : E.Enterable S T.block) (hu : E.Enterable S u)
    (hround : E.Does n T S P round fun again => Holds t (.ofBool again)) :
    E.Does n T (S.move u) P (Eval.loop round n) fun _ _ => True := by
  refine loops hP fun a m w hrel hp => ?_
  have hsim := hround a m w hrel hp
  cases hr : round w with
  | error stop w' =>
    rw [hr] at hsim
    cases stop <;> exact hsim
  | ok again w' =>
    rw [hr] at hsim
    obtain ⟨j, y, hlead, a', m', rfl, hrel', hkeeps, hagain⟩ := hsim
    cases again with
    | false =>
      have hgo := branch_leads hrel' hends hagain hu
      exact ⟨j + 1, _, hlead.trans hgo, a'.goto u, m', rfl, hkeeps, hrel'.goto u⟩
    | true =>
      have hgo := branch_leads hrel' hends hagain hT
      exact ⟨j + 1, _, hlead.trans hgo, a'.goto T.block, m', rfl, hkeeps, Nat.le_add_left 1 j,
        (hrel'.goto T.block).back (by simpa using hf) rfl hindex hrel.slots⟩

end Scene.Does

end Mila
