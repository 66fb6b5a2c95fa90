import Mila.Proofs.Contents
import Mila.Proofs.Elements
import Mila.Proofs.Rounds
import Mila.Proofs.Safety
import Mila.Proofs.Writing

/-! # Indices and cells

An array has one cell for each index between its bounds, in the order of the indices. The address that stands for
it is that of the element of index zero, which may lie far outside of its cells; an access moves it by the index,
and so comes to the cell of that index, or to none at all.
-/

namespace Mila

open Run Machine

/-! ## 1. Bounds of arrays -/

namespace Word

theorem ne_least_iff {low : Word} : low ≠ Int32.minValue ↔ -2 ^ 31 < low.toInt := by
  have hle := low.le_toInt
  rw [Ne, ← Int32.toInt_inj, Int32.toInt_minValue]
  omega

/-- Each word but the least has an opposite. -/
theorem toInt_opposite {low : Word} (h : -2 ^ 31 < low.toInt) : (-low).toInt = -low.toInt := by
  have hlt := low.toInt_lt
  rw [Int32.toInt_neg]
  exact Int.bmod_eq_of_le (by omega) (by omega)

theorem toInt_wideSum (x y : Word) : (x.toInt64 + y.toInt64).toInt = x.toInt + y.toInt := by
  have hx := x.le_toInt
  have hx' := x.toInt_lt
  have hy := y.le_toInt
  have hy' := y.toInt_lt
  rw [Int64.toInt_add, Int32.toInt_toInt64, Int32.toInt_toInt64]
  exact Int.bmod_eq_of_le (by omega) (by omega)

end Word

namespace VariableDecl

variable {name : String} {low high : Word} {d : VariableDecl}

theorem array?_eq_some_iff : array? name low high = some d ↔
      (low ≤ high ∧ low ≠ Int32.minValue) ∧ Grammar.declared (some (low, high)) name = d := by
  unfold array?
  split
  · next h => exact ⟨fun hd => ⟨h, Option.some.inj hd⟩, fun hd => congrArg some hd.2⟩
  · next h => exact ⟨nofun, fun hd => absurd hd.1 h⟩

/-- There is an array from one index to another if the range is not empty and starts above the least word. -/
theorem array?_isSome_iff (name : String) (low high : Word) :
    (array? name low high).isSome ↔ -2 ^ 31 < low.toInt ∧ low.toInt ≤ high.toInt := by
  rw [← Word.ne_least_iff, ← Int32.le_iff_toInt_le, Option.isSome_iff_exists]
  constructor
  · rintro ⟨d, hd⟩
    exact (array?_eq_some_iff.mp hd).1.symm
  · exact fun h => ⟨_, array?_eq_some_iff.mpr ⟨h.symm, rfl⟩⟩

/-- An array has the indices from `low` to `high`. They can be told from its declaration. Its length is a number of
32 bits, and 64 bits are enough for all addresses on the way to an element: from the first cell by the offset of the
array, and from there by any index. -/
structure Spans (d : VariableDecl) (low high : Word) : Prop where
  isArray : d.isArray = true
  bounds : d.bounds = (low, high)
  bounds? : d.bounds? = some (low, high)
  length : (d.length : Int) = high.toInt - low.toInt + 1
  length_lt : d.length < 2 ^ 32
  bias : (0 + d.offset.toInt64).toInt = -low.toInt
  index : ∀ i : Word, (0 + d.offset.toInt64 + i.toInt64).toInt = i.toInt - low.toInt

theorem spans_of_array? (h : array? name low high = some d) : d.Spans low high := by
  obtain ⟨⟨hle, hleast⟩, rfl⟩ := array?_eq_some_iff.mp h
  have hbounds := Grammar.declared_bounds hle name
  have hlow := Word.ne_least_iff.mp hleast
  have hoffset : (-low).toInt = -low.toInt := Word.toInt_opposite hlow
  have hrange := Int32.le_iff_toInt_le.mp hle
  have hlt := low.toInt_lt
  have hhigh := high.toInt_lt
  have hlength : ((high.toInt - low.toInt + 1).toNat : Int) = high.toInt - low.toInt + 1 :=
    Int.toNat_of_nonneg (by omega)
  refine ⟨Grammar.declared_isArray hle name, hbounds, ?_, hlength, ?_, ?_, fun i => ?_⟩
  · -- only the least word is the opposite of the least word
    have hne : -low ≠ Int32.minValue := Word.ne_least_iff.mpr (by omega)
    rw [bounds?, hbounds]
    exact if_neg hne
  · change (high.toInt - low.toInt + 1).toNat < 2 ^ 32
    omega
  · rw [Int64.zero_add, Int32.toInt_toInt64]
    exact hoffset
  · rw [Int64.zero_add, Word.toInt_wideSum]
    change (-low).toInt + i.toInt = _
    rw [hoffset]
    omega

/-- The address that stands for an array lies as far before its first cell as its first index above zero. -/
theorem Spans.bias_eq (h : d.Spans low high) : VariableDecl.bias d = -low.toInt := by
  have hbias := h.bias
  rw [Int64.zero_add, Int32.toInt_toInt64] at hbias
  rw [VariableDecl.bias, h.isArray]
  exact hbias

/-- An index is between the bounds if there is a cell for it. -/
theorem Spans.cell_iff (h : d.Spans low high) (i : Word) :
    (0 ≤ i.toInt - low.toInt ∧ i.toInt - low.toInt < d.cells) ↔ low ≤ i ∧ i ≤ high := by
  have hlength := h.length
  rw [cells, h.isArray, if_pos rfl, Int32.le_iff_toInt_le, Int32.le_iff_toInt_le]
  omega

end VariableDecl

/-! ## 2. Arrays in source texts -/

/-- All variables of a declaration are of a kind, those of a subprogram included. -/
def Node.DeclaresOnly (P : VariableDecl → Prop) (n : Node) : Prop :=
  (∀ d, n.declaration? = some d → P d) ∧ ∀ s, n.segment? = some s → ∀ d ∈ s.vars, P d

namespace Grammar

variable {Range : Word → Word → Prop} {ks : List Kind}

theorem declarable_scalar (name : String) : Declarable Range (.scalar name) := ⟨none, name, rfl, nofun⟩

theorem Declarable.exists_bounds {d : VariableDecl} (h : Declarable (· ≤ ·) d) (hd : d.isArray = true) :
    ∃ low high, VariableDecl.array? d.name low high = some d := by
  obtain ⟨bounds, name, rfl, hbounds⟩ := h
  cases bounds with
  | none => cases hd
  | some b => exact ⟨b.1, b.2, VariableDecl.array?_eq_some_iff.mpr ⟨hbounds b.1 b.2 rfl, rfl⟩⟩

theorem declaresOnly_subprogram {P : VariableDecl → Prop} (hscalar : ∀ name, P (.scalar name)) (p : Prototype)
    {decls : List VariableDecl} (hdecls : ∀ d ∈ decls, P d) {block : Node} (hblock : block.Plain) :
    (subprogram p decls block).DeclaresOnly P := by
  refine ⟨nofun, fun s hs => ?_⟩
  obtain rfl := Option.some.inj hs
  refine List.forall_mem_append.mpr ⟨fun d hd => ?_, ?_⟩
  · obtain ⟨name, -, rfl⟩ := List.mem_map.mp hd
    exact hscalar name
  · rw [List.filterMap_append, List.filterMap_map]
    refine List.forall_mem_append.mpr ⟨fun d hd => ?_, ?_⟩
    · obtain ⟨d', hd', hsome⟩ := List.mem_filterMap.mp hd
      exact Option.some.inj hsome ▸ hdecls d' hd'
    · -- a function has a variable for its result
      cases p.kind with
      | function =>
        have hrest : Node.AllPlain [block, .ident p.name] := ⟨hblock, trivial, trivial⟩
        refine List.forall_mem_cons.mpr ⟨hscalar p.name, ?_⟩
        change ∀ d ∈ [block, .ident p.name].filterMap Node.declaration?, P d
        rw [hrest.no_declarations]
        exact nofun
      | procedure =>
        have hrest : Node.AllPlain [block, .number 0] := ⟨hblock, trivial, trivial⟩
        change ∀ d ∈ [block, .number 0].filterMap Node.declaration?, P d
        rw [hrest.no_declarations]
        exact nofun

theorem Derives.declarable {p : Program} (h : Derives Range ks p) (hks : ∀ k ∈ ks, k.Proper) :
    ∀ s ∈ p.segments, ∀ d ∈ s.vars, Declarable Range d := by
  have hands : Hands Kind.Proper Range Node.Plain (Declarable Range) fun n => n.DeclaresOnly (Declarable Range) :=
    hands_declarable (fun hd => ⟨fun d hd' => Option.some.inj hd' ▸ hd, nofun⟩) (fun _ _ => ⟨nofun, nofun⟩)
      (fun _ => ⟨nofun, nofun⟩) fun hdecls hblock => declaresOnly_subprogram declarable_scalar _ hdecls hblock
  obtain ⟨-, hdecls, -⟩ := h.has hands (inherits_plain _) hks
  refine List.forall_mem_cons.mpr ⟨fun d hd => ?_, fun s hs => ?_⟩
  · obtain ⟨n, hn, hd⟩ := List.mem_filterMap.mp hd
    exact (hdecls n hn).1 d hd
  · obtain ⟨n, hn, hs⟩ := List.mem_filterMap.mp hs
    exact (hdecls n hn).2 s hs

end Grammar

/-! ## 3. Variables and allocations -/

/-- The allocation of a variable, in a call that began with the given memory. -/
def Allotment.allocation (A : Allotment) (C : Code) (base : Array Cells) (name : String) : Nat :=
  base.size + C.rank A.routine (A.home name)

variable {g k : Nat} {d : VariableDecl} {b : Binding}

theorem Code.Allots.alloca {C : Code} (h : C.Allots g k d b) :
    ∃ r, C.instruction? ⟨g, 0⟩ k = some (.define r (.alloca d.cells)) := by
  unfold VariableDecl.cells
  cases h with
  | scalar hd hcells => exact ⟨_, by rw [hd]; exact hcells⟩
  | array hd hcells _ _ => exact ⟨_, by rw [hd]; exact hcells⟩

/-- Different variables of a routine have different allocations. -/
theorem Site.Founded.allocation_inj {C : Code} {A : Allotment} {S : Site} (h : S.Founded C A) (base : Array Cells)
    {d' : VariableDecl} (hd : d ∈ A.vars) (hd' : d' ∈ A.vars)
    (he : A.allocation C base d.name = A.allocation C base d'.name) : d = d' := by
  obtain ⟨-, b, -, hb⟩ := h.allotted d hd
  obtain ⟨-, b', -, hb'⟩ := h.allotted d' hd'
  obtain ⟨r, hr⟩ := hb.alloca
  obtain ⟨r', hr'⟩ := hb'.alloca
  exact h.apart d hd d' hd' (Code.rank_inj hr hr' (Nat.add_left_cancel he))

/-- Once a variable is allocated, its register holds its address and there are cells for it. -/
theorem Passes.allotted {C : Code} {L : Limits} {a₀ a : Activation} {m₀ m : Machine} {made : List Nat}
    (h : Passes C L a₀ m₀ made a m) (hC : C.Ordered) (h₀ : a₀.Begins C g m₀)
    (hb : C.Allots g k d b) (hpast : a.Past (k + d.delay)) :
    a.registers[b.slot]? = some (.address ⟨m₀.memory.size + C.rank g k, d.bias⟩) ∧
      m.extent? (m₀.memory.size + C.rank g k) = some d.cells := by
  have hfirst := hpast.of_le (Nat.le_add_right k d.delay)
  obtain ⟨r, hr⟩ := hb.alloca
  refine ⟨?_, (h.alloca hC h₀ hr hfirst).2⟩
  unfold VariableDecl.delay at hpast
  unfold VariableDecl.bias
  cases hb with
  | scalar hd hcells =>
    rw [hd]
    exact (h.alloca hC h₀ hcells hfirst).1
  | array hd hcells hbias hslot =>
    rw [hd] at hpast ⊢
    exact h.offset hC h₀ hcells hbias hslot hpast

/-! ## 4. Accesses -/

namespace ElementAccess

/-- Where the element of an index is, or would be, in a call that began with the given memory. -/
def cell (F : ElementAccess) (C : Code) (base : Array Cells) (low i : Word) : Address :=
  ⟨F.allotment.allocation C base F.array.name, i.toInt - low.toInt⟩

/-- The next step, which leaves `t` further ones, reads the word in a cell and changes no memory, or writes a word
to the cell and changes no other. -/
def Touches (F : ElementAccess) (C : Code) (L : Limits) (place : Address) (t : Nat) (a : Activation) (m : Machine) :
    Prop :=
  match F.use.value with
  | none => ∃ v, m.cell? place = some v ∧
      step C L a m = .ok (.inr (a.defined F.place.next.registers (.word v))) (m.withSteps t)
  | some _ => ∃ v m', a.registers[F.source]? = some (.word v) ∧ step C L a m = .ok (.inr a.advance) m' ∧
      m' = { m.withSteps t with memory := m'.memory } ∧ (m.cell? place).isSome ∧
      ∀ other, m'.cell? other = if other = place then some v else m.cell? other

/-- What holds where the address of an element is about to be computed, in a call that began with the given memory:
the array has the indices from `low` to `high`. -/
structure Exact (F : ElementAccess) (C : Code) (L : Limits) (base : Array Cells) (low high : Word) (a : Activation)
    (m : Machine) : Prop where
  /-- The variables of the routine have all their cells, and their registers hold their addresses. -/
  allocated : ∀ d ∈ F.allotment.vars, ∃ b, F.origin.locals.get? d.name = some b ∧
    a.registers[b.slot]? = some (.address ⟨F.allotment.allocation C base d.name, d.bias⟩) ∧
    m.extent? (F.allotment.allocation C base d.name) = some d.cells
  /-- No two variables share an allocation, and none has one that was there before the call. -/
  apart : ∀ d ∈ F.allotment.vars, base.size ≤ F.allotment.allocation C base d.name ∧ ∀ d' ∈ F.allotment.vars,
    F.allotment.allocation C base d.name = F.allotment.allocation C base d'.name → d = d'
  /-- No two indices share a cell. -/
  distinct : ∀ i j, F.cell C base low i = F.cell C base low j → i = j
  /-- The access is made to the cell of its index if that is between the bounds, and fails otherwise. -/
  performed : ∃ i, a.registers[F.position]? = some (.word i) ∧ ∀ t, m.steps = t + 2 → ∃ a₁,
    step C L a m = .ok (.inr a₁) (m.withSteps (t + 1)) ∧
    a₁ = a.defined F.place.registers (.address (F.cell C base low i)) ∧
    if low ≤ i ∧ i ≤ high then F.Touches C L (F.cell C base low i) t a₁ (m.withSteps (t + 1))
    else step C L a₁ (m.withSteps (t + 1)) = .error .outOfBounds (m.withSteps t) ∧
      exec C L a m = .error .outOfBounds (m.withSteps t)

namespace In

variable {F : ElementAccess} {C : Code} {L : Limits} {a₀ a : Activation} {m₀ m : Machine} {made : List Nat}
  {low high : Word}

theorem routine_eq (hF : F.In C) : F.place.routine = F.allotment.routine :=
  (hF.index.region hF.valid trivial).routine.trans hF.founded.routine

/-- All variables are allocated before the index of an element is evaluated. -/
theorem past (hF : F.In C) (hat : a.At F.place) {d : VariableDecl} (hd : d ∈ F.allotment.vars) :
    a.Past (F.allotment.home d.name + d.delay) := by
  have hplace := (hF.index.region hF.valid trivial).place.imp id And.left
  have hpast := (hF.founded.allotted d hd).1.later hF.valid hplace
  intro hzero
  rw [hat.2]
  exact hpast (hat.1 ▸ hzero)

section

variable (hF : F.In C) (hC : C.Ordered) (h₀ : a₀.Begins C F.allotment.routine m₀) (h : Passes C L a₀ m₀ made a m)
include hF hC h₀ h

theorem allocated (hat : a.At F.place) : ∀ d ∈ F.allotment.vars, ∃ b,
      F.origin.locals.get? d.name = some b ∧
      a.registers[b.slot]? = some (.address ⟨F.allotment.allocation C m₀.memory d.name, d.bias⟩) ∧
      m.extent? (F.allotment.allocation C m₀.memory d.name) = some d.cells := by
  intro d hd
  obtain ⟨-, b, hb, hallots⟩ := hF.founded.allotted d hd
  exact ⟨b, hb, h.allotted hC h₀ hallots (hF.past hat hd)⟩

/-- The first of the two steps moves the address that stands for the array by the index. -/
theorem step_address (hat : a.At F.place) (hspans : F.array.Spans low high) {t : Nat}
    (ht : m.steps = t + 1) {i : Word} (hi : a.registers[F.position]? = some (.word i)) : step C L a m =
      .ok (.inr (a.defined F.place.registers (.address (F.cell C m₀.memory low i)))) (m.withSteps t) := by
  have ha := h.executes hC h₀
  have hins := ha.has hF.routine_eq hat hF.address
  obtain ⟨b, hb, hslot, -⟩ := hF.allocated hC h₀ h hat F.array hF.mem
  rw [hF.name, hF.named] at hb
  obtain rfl := Option.some.inj hb
  rw [step_offset hins (ha.room hC.registered hins rfl) ht hslot hi, hspans.bias_eq, cell, Int.sub_eq_add_neg,
    Int.add_comm i.toInt]

/-- The second step reads or writes at the address. -/
theorem step_access (hat : a.At F.place.next) {place : Address} {n t : Nat}
    (hplace : a.registers[F.place.registers]? = some (.address place))
    (hn : m.extent? place.allocation = some n) (ht : m.steps = t + 1) :
    if 0 ≤ place.index ∧ place.index < n then F.Touches C L place t a m
    else step C L a m = .error .outOfBounds (m.withSteps t) := by
  have ha := h.executes hC h₀
  have hins := ha.has (S := F.place.next) hF.routine_eq hat hF.access
  have hcell : 0 ≤ place.index ∧ place.index < n → (m.cell? place).isSome :=
    fun hrange => cell?_isSome_iff.mpr ⟨n, hn, hrange⟩
  unfold ElementUse.instruction at hins
  unfold Touches
  cases hvalue : F.use.value with
  | none =>
    rw [hvalue] at hins
    split
    · next hrange =>
      obtain ⟨v, hv⟩ := Option.isSome_iff_exists.mp (hcell hrange)
      exact ⟨v, hv, step_load hins (ha.room hC.registered hins rfl) ht hplace hv⟩
    · next hrange => exact step_load_outside hins ht hplace hn hrange
  | some value =>
    rw [hvalue] at hins
    -- the value that is written was evaluated before the index
    obtain ⟨v, hv⟩ := h.word hC h₀ (ha.instruction?.trans hins) List.mem_cons_self
    split
    · next hrange =>
      obtain ⟨m', hstep, hrest, hcells⟩ := step_store hins ht hv hplace (hcell hrange)
      exact ⟨v, m', hv, hstep, hrest, hcell hrange, hcells⟩
    · next hrange => exact step_store_outside hins ht hv hplace hn hrange

theorem exact (hat : a.At F.place) (hspans : F.array.Spans low high) :
    F.Exact C L m₀.memory low high a m where
  allocated := hF.allocated hC h₀ h hat
  apart d hd := ⟨Nat.le_add_right _ _, fun d' hd' he => hF.founded.allocation_inj m₀.memory hd hd' he⟩
  distinct i j he := by
    have hindex : i.toInt - low.toInt = j.toInt - low.toInt := congrArg Address.index he
    exact Int32.toInt_inj.mp (by omega)
  performed := by
    have ha := h.executes hC h₀
    have hins := ha.has hF.routine_eq hat hF.address
    obtain ⟨i, hi⟩ := h.word hC h₀ (ha.instruction?.trans hins) (r := F.position)
      (List.mem_cons_of_mem _ List.mem_cons_self)
    refine ⟨i, hi, fun t ht => ?_⟩
    have hstep := hF.step_address hC h₀ h hat hspans (t := t + 1) ht hi
    obtain ⟨b, -, -, hextent⟩ := hF.allocated hC h₀ h hat F.array hF.mem
    -- the step leaves memory as it is, so the array still has its cells
    have haccess := hF.step_access hC h₀ (h.step hstep) (hat.defined _ _)
      (Array.getElem?_setIfInBounds_self_of_lt (ha.room hC.registered hins rfl)) hextent (t := t) rfl
    have hcell : 0 ≤ (F.cell C m₀.memory low i).index ∧ (F.cell C m₀.memory low i).index < F.array.cells ↔
      low ≤ i ∧ i ≤ high := hspans.cell_iff i
    refine ⟨_, hstep, rfl, ?_⟩
    by_cases hrange : low ≤ i ∧ i ≤ high
    · rw [if_pos (hcell.mpr hrange)] at haccess
      rw [if_pos hrange]
      exact haccess
    · rw [if_neg (mt hcell.mp hrange)] at haccess
      rw [if_neg hrange]
      refine ⟨haccess, ?_⟩
      rw [exec_eq_step, bind_ok hstep, Sum.elim_inr, exec_eq_step, bind_error haccess]
      rfl

end

theorem isArray (hF : F.In C) : F.array.isArray = true := by
  obtain ⟨-, b, hb, hallots⟩ := hF.founded.allotted F.array hF.mem
  rw [hF.name, hF.named] at hb
  obtain rfl := Option.some.inj hb
  cases hallots with
  | array hd _ _ _ => exact hd

end In

end ElementAccess

/-- What a number of steps lead to is a state of the execution. -/
theorem Passes.of_next? {C : Code} {L : Limits} {c₀ c : Activation × Machine} {n : Nat}
    (h : (·.bind (CountingLoop.next? C L))^[n] (some c₀) = some c) : ∃ made, Passes C L c₀.1 c₀.2 made c.1 c.2 := by
  induction n generalizing c with
  | zero =>
    obtain rfl := Option.some.inj h
    exact ⟨[], .start⟩
  | succ n ih =>
    rw [Function.iterate_succ_apply'] at h
    obtain ⟨c', hc', hnext⟩ := Option.bind_eq_some_iff.mp h
    obtain ⟨made, hpasses⟩ := ih hc'
    exact ⟨_, hpasses.step (CountingLoop.goes_iff.mpr hnext)⟩

/-! ## 5. All accesses of all programs -/

/-- There is an array from `low` to `high` if and only if `-2 ^ 31 < low ≤ high`, and its declaration tells these
bounds and its length. In the code of every source text, each use of an element stands somewhere, and is one of an
array that was declared with such bounds. Wherever a call comes to one, all variables of the routine are in
allocations of their own, and the index is some word `i`. The access succeeds if `low ≤ i ≤ high`, and is then one
to the cell `i - low` of the array and to no other; otherwise it fails, and the call with it, as it is out of
bounds. No sum on the way to the address leaves the range of 64 bits. -/
theorem compile_elements :
    (∀ name low high, (VariableDecl.array? name low high).isSome ↔
      -2 ^ 31 < low.toInt ∧ low.toInt ≤ high.toInt) ∧
    (∀ name low high d, VariableDecl.array? name low high = some d → d.Spans low high) ∧
    ∀ source C, compile source = .ok C → ∃ p, parseProgram source = .ok p ∧
      (∀ s ∈ p.segments, ∃ A : Allotment, A.vars = s.vars ∧ ∀ u ∈ s.elementUses, ∃ F : ElementAccess, F.In C ∧
        F.use = u ∧ F.allotment = A ∧ ∃ low high, VariableDecl.array? u.name low high = some F.array) ∧
      ∀ F : ElementAccess, F.In C → ∀ low high, VariableDecl.array? F.use.name low high = some F.array →
        ∀ L R args depth m₀ a₀ m₁ made a m, C.routines[F.allotment.routine]? = some R →
          (Activation.start R args depth).enter none 0 m₀ = .ok a₀ m₁ → Passes C L a₀ m₁ made a m →
            a.At F.place → F.Exact C L m₀.memory low high a m := by
  refine ⟨VariableDecl.array?_isSome_iff, fun _ _ _ _ => VariableDecl.spans_of_array?, fun source C h => ?_⟩
  obtain ⟨p, hparse, hformed, v, S, hcompiled⟩ := compile_spec h
  have hC := hcompiled.ordered hformed
  obtain ⟨ks, hderives, hks⟩ := parseProgram_derives hparse
  refine ⟨p, hparse, fun s hs => ?_, ?_⟩
  · obtain ⟨A, hA, huses⟩ := hcompiled.elementUses hformed s hs
    refine ⟨A, hA, fun u hu => ?_⟩
    obtain ⟨F, hF, rfl, rfl⟩ := huses u hu
    -- its array is one of the variables of the source text, where arrays have bounds
    have hdeclared := hderives.declarable hks s hs F.array (hA ▸ hF.mem)
    refine ⟨F, hF, rfl, rfl, ?_⟩
    rw [← hF.name]
    exact hdeclared.exists_bounds hF.isArray
  · intro F hF low high harray L R args depth m₀ a₀ m₁ made a m hR henter hpasses hat
    obtain ⟨rfl, h₀⟩ := Activation.begins_of_enter hC.phis hR henter
    exact hF.exact hC h₀ hpasses hat (VariableDecl.spans_of_array? harray)

/-- A program with an array that has nearly all words as indices. -/
def broadest : String :=
  "program p; var b: integer; var a: array [-2147483647 .. 2147483646] of integer; " ++
  "begin a[2147483646] := 7; b := a[2147483647] end."

/-- The code of this program. -/
def broadestCode : Code := ⟨#[⟨"main", [], #[
    ⟨"entry", #[.define 0 (.alloca 1), .define 1 (.alloca 4294967294), .define 2 (.const 2147483647),
      .define 3 (.offset 1 2), .define 4 (.const 7), .define 5 (.const 2147483646), .define 6 (.offset 3 5),
      .store 4 6, .define 7 (.const 2147483647), .define 8 (.offset 3 7), .define 9 (.load 8), .store 9 0,
      .define 10 (.const 0)], some (.jump ⟨0, 1⟩)⟩,
    ⟨"return", #[], some (.ret 10)⟩], 11⟩,
  ⟨"writeln", ["x"], #[], 0⟩, ⟨"printi", ["x"], #[], 0⟩]⟩

theorem compile_broadest : compile broadest = .ok broadestCode := compile_eq_ok (by decide +kernel)

/-- The array of this program. -/
def broadestArray : VariableDecl := ⟨"a", 2147483647, 4294967294⟩

/-- Its variables, of which the array is allocated by the second instruction. -/
def broadestAllotment : Allotment :=
  ⟨0, [.scalar "b", broadestArray], Function.update (Function.update (fun _ => 0) "b" 0) "a" 1⟩

/-- The names that are in force in it. -/
def broadestNames : Locals := ⟨(Std.TreeMap.insert ∅ "b" ⟨0, .scalar⟩).insert "a" ⟨3, .array⟩⟩

/-- The site at an instruction of it, in front of which so many registers are set. -/
def broadestSite (index registers : Nat) : Site := ⟨0, none, .initial, broadestNames, [], 0, index, 2, registers⟩

theorem broadestSite_valid (index registers : Nat) : (broadestSite index registers).Valid :=
  ⟨Nat.lt_succ_self 1, Nat.two_pos, Nat.zero_ne_one⟩

theorem broadestNames_array : broadestNames.get? "a" = some ⟨3, .array⟩ := by decide +kernel

theorem broadestSite_founded {index registers : Nat} (hindex : 4 ≤ index) (hregisters : 4 ≤ registers) :
    (broadestSite index registers).Founded broadestCode broadestAllotment := by
  have hb : Locals.empty.declare? "b" ⟨0, .scalar⟩ = some ⟨Std.TreeMap.insert ∅ "b" ⟨0, .scalar⟩⟩ := by
    have hnone : Locals.empty.get? "b" = none := by decide +kernel
    simp only [Locals.declare?, hnone]
    rfl
  have ha : (Locals.mk (Std.TreeMap.insert ∅ "b" ⟨0, .scalar⟩)).declare? "a" ⟨3, .array⟩ = some broadestNames := by
    have hnone : (Locals.mk (Std.TreeMap.insert ∅ "b" ⟨0, .scalar⟩)).get? "a" = none := by decide +kernel
    simp only [Locals.declare?, hnone]
    rfl
  have hopened := Site.Founded.opened broadestCode 0 none .initial
  have hfirst := hopened.declare (d := .scalar "b") rfl (Site.opened 0 none .initial).next rfl rfl hb
    (.scalar rfl rfl) (by decide)
  have hsecond := hfirst.declare (d := broadestArray) rfl
    { (Site.opened 0 none .initial).next.next.next.next with locals := ⟨Std.TreeMap.insert ∅ "b" ⟨0, .scalar⟩⟩ }
    rfl rfl ha (.array rfl rfl rfl rfl) (by decide)
  exact hsecond.reach (broadestSite_valid 4 4)
    ⟨⟨rfl, rfl, rfl, rfl, hregisters⟩, broadestSite_valid index registers, Nat.le_refl _, .inl ⟨rfl, hindex⟩⟩

/-- The element that is written. -/
def broadestWrite : ElementAccess where
  use := ⟨"a", .number 2147483646, some (.number 7)⟩
  allotment := broadestAllotment
  array := broadestArray
  slot := 3
  position := 5
  source := 4
  origin := broadestSite 5 5
  place := broadestSite 6 6

theorem broadestWrite_in : broadestWrite.In broadestCode where
  valid := broadestSite_valid 5 5
  founded := broadestSite_founded (by decide) (by decide)
  mem := List.mem_cons_of_mem _ List.mem_cons_self
  name := rfl
  named := broadestNames_array
  value n hn := by
    obtain rfl := Option.some.inj hn
    exact ⟨broadestSite 4 4, .value (.number (.op rfl ⟨_, rfl, rfl⟩))⟩
  index := .value (.number (.op rfl ⟨_, rfl, rfl⟩))
  address := ⟨_, rfl, rfl⟩
  access := ⟨_, rfl, rfl⟩

/-- The element that is read. -/
def broadestRead : ElementAccess where
  use := ⟨"a", .number 2147483647, none⟩
  allotment := broadestAllotment
  array := broadestArray
  slot := 3
  position := 7
  source := 0
  origin := broadestSite 8 7
  place := broadestSite 9 8

theorem broadestRead_in : broadestRead.In broadestCode where
  valid := broadestSite_valid 8 7
  founded := broadestSite_founded (by decide) (by decide)
  mem := List.mem_cons_of_mem _ List.mem_cons_self
  name := rfl
  named := broadestNames_array
  value := nofun
  index := .value (.number (.op rfl ⟨_, rfl, rfl⟩))
  address := ⟨_, rfl, rfl⟩
  access := ⟨_, rfl, rfl⟩

/-- The main routine of this program, and the state in which a run of forty steps begins. -/
def broadestMain : Routine := broadestCode.routines[0]

def broadestStart : Activation × Machine := (.start broadestMain [] 0, ⟨[], #[], #[], 40⟩)

/-- The state in which it comes to the first access. -/
def broadestWriting : Activation × Machine :=
  (⟨broadestMain, [], #[.address ⟨0, 0⟩, .address ⟨1, 0⟩, .word 2147483647, .address ⟨1, 2147483647⟩, .word 7,
      .word 2147483646] ++ Array.replicate 5 .undefined, 0, 0, 6⟩,
    ⟨[], #[], #[.zeros 1, .zeros 4294967294], 34⟩)

/-- The state in which it comes to the second access. -/
def broadestReading : Activation × Machine :=
  (⟨broadestMain, [], #[.address ⟨0, 0⟩, .address ⟨1, 0⟩, .word 2147483647, .address ⟨1, 2147483647⟩, .word 7,
      .word 2147483646, .address ⟨1, 4294967293⟩, .word 2147483647] ++ Array.replicate 3 .undefined, 0, 0, 9⟩,
    ⟨[], #[], #[.zeros 1, ⟨4294967294, Std.TreeMap.insert ∅ 4294967293 7⟩], 31⟩)

/-- The write in this program is one to the last of the cells, and the read fails by one index. -/
theorem compile_elements_broadest :
    compile broadest = .ok broadestCode ∧
    VariableDecl.array? "a" (-2147483647) 2147483646 = some broadestArray ∧
    broadestWrite.In broadestCode ∧ broadestRead.In broadestCode ∧
    broadestWrite.Touches broadestCode ⟨40, 1⟩ ⟨1, 4294967293⟩ 32
      (broadestWriting.1.defined 6 (.address ⟨1, 4294967293⟩)) (broadestWriting.2.withSteps 33) ∧
    exec broadestCode ⟨40, 1⟩ broadestStart.1 broadestStart.2 =
      .error .outOfBounds (broadestReading.2.withSteps 29) := by
  have harray : VariableDecl.array? "a" (-2147483647) 2147483646 = some broadestArray := by decide +kernel
  have hphis : broadestMain.blocks[0].leadingPhis = [] := by decide +kernel
  have henter : ∀ m, broadestStart.1.enter none 0 m = .ok broadestStart.1 m :=
    Activation.enter_direct rfl hphis none
  obtain ⟨p, -, -, hlaw⟩ := compile_elements.2.2 _ _ compile_broadest
  refine ⟨compile_broadest, harray, broadestWrite_in, broadestRead_in, ?_, ?_⟩
  · obtain ⟨made, hpasses⟩ : ∃ made, Passes broadestCode ⟨40, 1⟩ broadestStart.1 broadestStart.2 made broadestWriting.1
      broadestWriting.2 :=
      Passes.of_next? (n := 6) (show _ = some broadestWriting from rfl)
    have hexact := hlaw _ broadestWrite_in _ _ harray _ _ _ _ _ _ _ _ _ _ rfl (henter _) hpasses ⟨rfl, rfl⟩
    obtain ⟨i, hi, hperformed⟩ := hexact.performed
    obtain rfl : 2147483646 = i := Content.word.inj (Option.some.inj hi)
    obtain ⟨a₁, -, rfl, htouches⟩ := hperformed 32 rfl
    have hcell : broadestWrite.cell broadestCode #[] (-2147483647) 2147483646 = ⟨1, 4294967293⟩ := by
      decide +kernel
    rw [if_pos (by decide)] at htouches
    exact hcell ▸ htouches
  · obtain ⟨made, hpasses⟩ : ∃ made, Passes broadestCode ⟨40, 1⟩ broadestStart.1 broadestStart.2 made broadestReading.1
      broadestReading.2 :=
      Passes.of_next? (n := 9) (show _ = some broadestReading from rfl)
    have hexact := hlaw _ broadestRead_in _ _ harray _ _ _ _ _ _ _ _ _ _ rfl (henter _) hpasses ⟨rfl, rfl⟩
    obtain ⟨i, hi, hperformed⟩ := hexact.performed
    obtain rfl : 2147483647 = i := Content.word.inj (Option.some.inj hi)
    obtain ⟨a₁, -, -, hfails⟩ := hperformed 29 rfl
    rw [if_neg (by decide)] at hfails
    rw [hpasses.exec_eq]
    exact hfails.2

end Mila
