import Mila.Proofs.Counting

/-! # How often a counting loop runs

A loop from `s` to `e` whose rounds leave the variable as it is makes one round for each value between the two,
in order, and leaves the variable one step behind the last of them. The variable is compared with the bound
before it is stepped, so this holds up to the ends of the range of words: the step behind the last value may wrap
around, but no round follows it. When a round does change the variable, what it leaves there decides whether
there is another one, and with which value.
-/

namespace Mila

open Run Machine

/-! ## 1. The values of the variable -/

namespace Direction

/-- How many rounds a loop makes. -/
def count : Direction → Word → Word → Nat
  | up, s, e => (e.toInt - s.toInt + 1).toNat
  | down, s, e => (s.toInt - e.toInt + 1).toNat

/-- How far the variable has come after some rounds. -/
def reach : Direction → Word → Nat → Int
  | up, s, i => s.toInt + i
  | down, s, i => s.toInt - i

/-- The value of the variable in a round, counted from zero. -/
def nth (d : Direction) (s : Word) (i : Nat) : Word := .ofInt (d.reach s i)

/-- The values of the variable in all rounds. -/
def values (d : Direction) (s e : Word) : List Word := (List.range (d.count s e)).map (d.nth s)

variable {d : Direction} {s e : Word} {i : Nat}

@[simp] theorem nth_zero (d : Direction) (s : Word) : d.nth s 0 = s := by
  cases d <;> simp [nth, reach]

theorem starts_iff : d.starts s e ↔ 0 < d.count s e := by
  cases d <;> simp only [starts, count, decide_eq_true_eq] <;> omega

/-- The values do not wrap around before the bound. -/
theorem toInt_nth (h : i < d.count s e) : (d.nth s i).toInt = d.reach s i := by
  have hs := s.toInt_lt
  have hs' := s.le_toInt
  have he := e.toInt_lt
  have he' := e.le_toInt
  cases d with
  | up =>
    simp only [count] at h
    exact Int32.toInt_ofInt_of_le (by simp only [reach]; omega) (by simp only [reach]; omega)
  | down =>
    simp only [count] at h
    exact Int32.toInt_ofInt_of_le (by simp only [reach]; omega) (by simp only [reach]; omega)

theorem goesOn_nth_iff (h : i < d.count s e) : d.goesOn (d.nth s i) e ↔ i + 1 < d.count s e := by
  have hvalue := toInt_nth h
  cases d with
  | up =>
    simp only [goesOn, decide_eq_true_eq]
    rw [hvalue]
    simp only [count, reach] at h ⊢
    omega
  | down =>
    simp only [goesOn, decide_eq_true_eq]
    rw [hvalue]
    simp only [count, reach] at h ⊢
    omega

theorem next_nth (h : i < d.count s e) : d.next (d.nth s i) = d.nth s (i + 1) := by
  have hvalue := toInt_nth h
  cases d with
  | up =>
    rw [next, hvalue, nth, reach, reach, Int.natCast_add, Int.natCast_one, Int.add_assoc]
  | down =>
    rw [next, hvalue, nth, reach, reach, Int.natCast_add, Int.natCast_one, Int.sub_sub]

/-- The last round is the one with the bound. -/
theorem nth_last (h : d.count s e = i + 1) : d.nth s i = e := by
  apply Int32.toInt_inj.mp
  rw [toInt_nth (by omega : i < d.count s e)]
  cases d with
  | up =>
    simp only [count, reach] at h ⊢
    omega
  | down =>
    simp only [count, reach] at h ⊢
    omega

/-! ## 2. Rounds that fit together -/

/-- Whether there is another round after those that left the given values behind, and the value of the
variable then. -/
def due (d : Direction) (s e : Word) (ws : List Word) : Bool × Word :=
  match ws.getLast? with
  | none => (d.starts s e, s)
  | some w => (d.goesOn w e, d.next w)

@[simp] theorem due_nil (d : Direction) (s e : Word) : d.due s e [] = (d.starts s e, s) := rfl

@[simp] theorem due_concat (d : Direction) (s e : Word) (ws : List Word) (w : Word) :
    d.due s e (ws ++ [w]) = (d.goesOn w e, d.next w) := by
  simp [due]

/-- The values that rounds started with and the values that they left behind fit together: the first starts
with the start value, and each other with the value one step behind the one that was left. -/
structure Rounds (d : Direction) (s e : Word) (vs ws : List Word) : Prop where
  first : ∀ v, vs[0]? = some v → d.starts s e ∧ v = s
  next : ∀ i v, vs[i + 1]? = some v → ∃ w, ws[i]? = some w ∧ d.goesOn w e ∧ v = d.next w
  pending : vs.length = ws.length ∨ vs.length = ws.length + 1

namespace Rounds

variable {vs ws : List Word}

theorem nil : d.Rounds s e [] [] where
  first v hv := by cases hv
  next i v hv := by cases hv
  pending := .inl rfl

theorem begin (h : d.Rounds s e vs ws) (hlength : vs.length = ws.length) (hgo : (d.due s e ws).1) :
    d.Rounds s e (vs ++ [(d.due s e ws).2]) ws := by
  refine ⟨fun v hv => ?_, fun i v hv => ?_, .inr (by simp [hlength])⟩
  · cases vs with
    | nil =>
      obtain rfl := List.length_eq_zero_iff.mp hlength.symm
      exact ⟨hgo, (Option.some.inj hv).symm⟩
    | cons first rest => exact h.first v hv
  · by_cases hi : i + 1 < vs.length
    · rw [List.getElem?_append_left hi] at hv
      exact h.next i v hv
    · -- the new round follows the last one that was done
      have hlast : i + 1 = vs.length := by
        have hlt := (List.getElem?_eq_some_iff.mp hv).1
        rw [List.length_append, List.length_singleton] at hlt
        omega
      rw [hlast, List.getElem?_concat_length] at hv
      cases ws using List.reverseRecOn with
      | nil =>
        rw [hlength] at hlast
        cases hlast
      | append_singleton ws w =>
        rw [due_concat] at hv hgo
        refine ⟨w, ?_, hgo, (Option.some.inj hv).symm⟩
        rw [hlength, List.length_append, List.length_singleton] at hlast
        rw [show i = ws.length by omega, List.getElem?_concat_length]

theorem finish (h : d.Rounds s e vs ws) (hlength : vs.length = ws.length + 1) (w : Word) :
    d.Rounds s e vs (ws ++ [w]) := by
  refine ⟨h.first, fun i v hv => ?_, .inl (by simp [hlength])⟩
  obtain ⟨w', hw', hgo, hv⟩ := h.next i v hv
  refine ⟨w', ?_, hgo, hv⟩
  rw [List.getElem?_append_left (List.getElem?_eq_some_iff.mp hw').1]
  exact hw'

/-- Rounds that leave the variable as it is follow the values from the start value on. -/
theorem getElem?_eq (h : d.Rounds s e vs ws) (hsame : ws <+: vs) {i : Nat}
    {v : Word} (hv : vs[i]? = some v) : i < d.count s e ∧ v = d.nth s i := by
  induction i generalizing v with
  | zero =>
    obtain ⟨hgo, rfl⟩ := h.first v hv
    exact ⟨starts_iff.mp hgo, (nth_zero d v).symm⟩
  | succ i ih =>
    obtain ⟨w, hw, hgo, rfl⟩ := h.next i v hv
    have hbefore : vs[i]? = some w := by
      obtain ⟨rest, rfl⟩ := hsame
      rw [List.getElem?_append_left (List.getElem?_eq_some_iff.mp hw).1]
      exact hw
    obtain ⟨hlt, rfl⟩ := ih hbefore
    exact ⟨(goesOn_nth_iff hlt).mp hgo, next_nth hlt⟩

theorem length_le (h : d.Rounds s e vs ws) (hsame : ws <+: vs) : vs.length ≤ d.count s e := by
  cases hvs : vs.length with
  | zero => exact Nat.zero_le _
  | succ n =>
    have hn : vs[n]? = some vs[n] := List.getElem?_eq_getElem (by omega)
    exact (h.getElem?_eq hsame hn).1

theorem eq_take (h : d.Rounds s e vs ws) (hsame : ws <+: vs) : vs = (d.values s e).take vs.length := by
  apply List.ext_getElem?
  intro i
  by_cases hi : i < vs.length
  · have hv : vs[i]? = some vs[i] := List.getElem?_eq_getElem hi
    obtain ⟨hlt, hvalue⟩ := h.getElem?_eq hsame hv
    rw [hv, List.getElem?_take_of_lt hi, values, List.getElem?_map, List.getElem?_range hlt, hvalue]
    rfl
  · rw [List.getElem?_eq_none (Nat.le_of_not_lt hi), List.getElem?_eq_none]
    rw [List.length_take]
    omega

/-- When there is no other round, there was one for each of the values. -/
theorem eq_values (h : d.Rounds s e vs ws) (hlength : vs.length = ws.length)
    (hsame : ws <+: vs) (hgo : (d.due s e ws).1 = false) :
    vs = d.values s e ∧ (d.due s e ws).2 = if vs = [] then s else d.next e := by
  have hle := h.length_le hsame
  have hcount : vs.length = d.count s e ∧ (d.due s e ws).2 = if vs = [] then s else d.next e := by
    cases ws using List.reverseRecOn with
    | nil =>
      obtain rfl := List.length_eq_zero_iff.mp hlength
      -- no round was made and none is due, so there is no value either
      have hnone : ¬ 0 < d.count s e := fun hpos => by
        rw [due_nil, starts_iff.mpr hpos] at hgo
        cases hgo
      exact ⟨(Nat.eq_zero_of_not_pos hnone).symm, rfl⟩
    | append_singleton ws w =>
      rw [List.length_append, List.length_singleton] at hlength
      have hlast : vs[ws.length]? = some w := by
        obtain ⟨rest, rfl⟩ := hsame
        simp
      obtain ⟨hlt, rfl⟩ := h.getElem?_eq hsame hlast
      rw [due_concat] at hgo ⊢
      -- the last round stepped from the last value, so it was the one with the bound
      have hcount : d.count s e = ws.length + 1 := by
        have hnot : ¬ ws.length + 1 < d.count s e := fun hmore => by
          rw [(goesOn_nth_iff hlt).mpr hmore] at hgo
          cases hgo
        omega
      refine ⟨hlength.trans hcount.symm, ?_⟩
      have hne : vs ≠ [] := List.ne_nil_of_length_eq_add_one hlength
      rw [if_neg hne, nth_last hcount]
  refine ⟨?_, hcount.2⟩
  have htake := h.eq_take hsame
  rw [hcount.1, List.take_of_length_le (by simp [values])] at htake
  exact htake

end Rounds

end Direction

/-! ## 3. Runs of a loop -/

namespace CountingLoop

/-- The value of the variable of a loop. -/
def value? (F : CountingLoop) (a : Activation) (m : Machine) : Option Word :=
  match a.registers[F.slot]? with
  | some (.address place) => m.cell? place
  | _ => none

/-- The value of the variable, if an activation stands at the given site. -/
def seen (F : CountingLoop) (S : Site) (a : Activation) (m : Machine) : List (Option Word) :=
  if a.At S then [F.value? a m] else []

/-- One state of an activation and of the machine is followed by another. -/
def Goes (C : Code) (L : Limits) (c c' : Activation × Machine) : Prop :=
  Machine.step C L c.1 c.2 = .ok (.inr c'.1) c'.2

/-- The states that a loop comes through from a state on, up to where the loop or the routine is left, each
with the values that the variable has had whenever a round started and whenever one was done. -/
inductive Runs (F : CountingLoop) (C : Code) (L : Limits) (c₀ : Activation × Machine) :
    List (Option Word) → List (Option Word) → Activation × Machine → Prop where
  | refl : Runs F C L c₀ [] [] c₀
  | step {xs ys : List (Option Word)} {c c' : Activation × Machine} (h : Runs F C L c₀ xs ys c)
      (stays : ¬ c.1.At F.after) (remains : c.1.block ≠ 1) (goes : Goes C L c c') :
      Runs F C L c₀ (xs ++ F.seen F.body c'.1 c'.2) (ys ++ F.seen F.outer c'.1 c'.2) c'

/-- The loop is about to store its start value. -/
structure Starts (F : CountingLoop) (C : Code) (s : Word) (c : Activation × Machine) : Prop where
  executes : c.1.Executes C F.origin.routine
  here : c.1.At F.entry
  value : c.1.registers[F.start]? = some (.word s)

/-- The bound of a loop comes out as `e`. -/
def Bounded (F : CountingLoop) (C : Code) (L : Limits) (e : Word) (c₀ : Activation × Machine) : Prop :=
  ∀ xs ys c, F.Runs C L c₀ xs ys c → c.1.At F.ready → c.1.registers[F.bound]? = some (.word e)

/-- What is known of a state of a run up to where the bound has been evaluated. -/
inductive Early (F : CountingLoop) (C : Code) (s : Word) : Activation → Machine → Prop where
  | entering {a : Activation} {m : Machine} (executes : a.Executes C F.origin.routine) (here : a.At F.entry)
      (value : a.registers[F.start]? = some (.word s)) : Early F C s a m
  | bounding {a : Activation} {m : Machine} {place : Address} (executes : a.Executes C F.origin.routine)
      (block : a.block = F.entry.block) (behind : F.entry.index < a.done) (before : a.done ≤ F.ready.index)
      (slot : a.registers[F.slot]? = some (.address place)) (cell : m.cell? place = some s)
      (yields : a.done = F.ready.index → ∃ e, a.registers[F.bound]? = some (.word e)) : Early F C s a m

/-- What is known of a state of a run behind that, by where it stands. -/
inductive Phase (F : CountingLoop) (C : Code) (s e : Word) :
    List Word → List Word → Activation → Machine → Prop where
  | jumping {a : Activation} {m : Machine} {place : Address} (held : F.Held C e place a)
      (here : a.At F.ready.next) (cell : m.cell? place = some s) : Phase F C s e [] [] a m
  | deciding {vs ws : List Word} {a : Activation} {m : Machine} {place : Address}
      (rounds : F.direction.Rounds s e vs ws) (length : vs.length = ws.length)
      (deciding : F.Deciding C e place (F.direction.due s e ws).1 (F.direction.due s e ws).2 a m) :
      Phase F C s e vs ws a m
  | inside {vs ws : List Word} {a : Activation} {m : Machine} {place : Address}
      (rounds : F.direction.Rounds s e vs ws) (length : vs.length = ws.length + 1)
      (held : F.Held C e place a) (cell : (m.cell? place).isSome) (inside : F.Inside a) :
      Phase F C s e vs ws a m
  | left {vs ws : List Word} {a : Activation} {m : Machine} {place : Address}
      (rounds : F.direction.Rounds s e vs ws) (length : vs.length = ws.length)
      (finished : (F.direction.due s e ws).1 = false)
      (decided : F.Decided C e place false (F.direction.due s e ws).2 a m) : Phase F C s e vs ws a m
  | gone {vs ws : List Word} {a : Activation} {m : Machine} (rounds : F.direction.Rounds s e vs ws)
      (block : a.block = 1) : Phase F C s e vs ws a m

variable {F : CountingLoop} {C : Code} {L : Limits} {s e v : Word} {place : Address} {vs ws : List Word}
  {a a' : Activation} {m m' : Machine} {S : Site} {go : Bool}

theorem value?_eq (h : a.registers[F.slot]? = some (.address place)) : F.value? a m = m.cell? place := by
  unfold value?
  rw [h]

theorem seen_of_at (hat : a.At S) (hv : F.value? a m = some v) : F.seen S a m = [v].map some := by
  rw [seen, if_pos hat, hv]
  rfl

theorem seen_of_not_at (hat : ¬ a.At S) : F.seen S a m = [] := if_neg hat

/-- A loop that decides is in the block of its test, or behind a round. -/
theorem Deciding.block (h : F.Deciding C e place go v a m) : (a.block = F.ready.blocks ∧ a.done < 3) ∨
    (a.block = F.outer.block ∧ F.outer.index ≤ a.done ∧ a.done < F.outer.index + 5) := by
  cases h with
  | load _ here _ | check _ here _ _ | fork _ here _ _ =>
    refine .inl ⟨here.1, ?_⟩
    rw [here.2]
    simp only [Site.next, test_index]
    omega
  | reload _ here _ => exact .inr ⟨here.1, here.2.ge, by rw [here.2]; omega⟩
  | add _ here _ _ | restore _ here _ _ _ | recheck _ here _ _ | back _ here _ _ =>
    refine .inr ⟨here.1, ?_⟩
    rw [here.2]
    simp only [Site.next, Site.skip]
    omega

/-- A decision that has begun is not at the start or at the end of a round. -/
theorem Deciding.not_at (h : F.Deciding C e place go v a m) (hF : F.In C) (hblock : a'.block = a.block)
    (hdone : a'.done = a.done + 1) : ¬ a'.At F.body ∧ ¬ a'.At F.outer := by
  have houter := hF.outer_block
  constructor
  · rintro ⟨hb, hd⟩
    rw [body_block] at hb
    rw [body_index] at hd
    omega
  · rintro ⟨hb, hd⟩
    rcases h.block with htest | ⟨-, hle⟩
    · omega
    · omega

theorem Early.block (hF : F.In C) (h : F.Early C s a m) : a.block = F.entry.block ∧ a.done ≤ F.ready.index := by
  have hindex : F.entry.index + 1 ≤ F.ready.index := hF.straight.index
  cases h with
  | entering _ here _ =>
    have hdone := here.2
    exact ⟨here.1, by omega⟩
  | bounding _ block _ before _ _ _ => exact ⟨block, before⟩

/-- A step of a run before the bound has been evaluated, or the one behind it. -/
theorem Early.step (hF : F.In C) (h : F.Early C s a m) (hstep : Machine.step C L a m = .ok (.inr a') m') :
    a'.block = F.entry.block ∧ ((¬ a.At F.ready ∧ F.Early C s a' m') ∨
      (a.At F.ready ∧ (∃ e, a.registers[F.bound]? = some (.word e)) ∧
        ∀ e, a.registers[F.bound]? = some (.word e) → F.Phase C s e [] [] a' m')) := by
  have hstraight := hF.straight
  obtain ⟨last, r, o, hle, hindex, hr, hlast, htype, hphi⟩ := hF.yields
  obtain rfl : F.bound = r := List.singleton_inj.mp hr
  change F.entry.index + 1 ≤ last at hle
  cases h with
  | entering executes here value =>
    have hi := executes.has hF.entry_routine here hF.store
    obtain ⟨rfl, place, hslot, hcell⟩ := of_step_store hi value hstep
    have hcontinues := ((Activation.Spares.refl 0 a).move a.block (a.done + 1)).toContinues
    have hhere : a.done = F.entry.index := here.2
    have hdone : a.advance.done = F.entry.index + 1 := here.advance.2
    refine ⟨here.1, .inl ⟨fun hready => ?_, ?_⟩⟩
    · have hafter := hready.2
      omega
    · exact .bounding (executes.follow hcontinues) here.1 (by omega) (by omega) hslot hcell fun _ => by omega
  | @bounding place executes block behind before slot cell yields =>
    by_cases hready : a.done = F.ready.index
    · -- behind the bound
      have here : a.At F.ready := ⟨block.trans hstraight.block.symm, hready⟩
      have hi := executes.has hF.ready_routine here hF.stride
      have hsize : F.ready.registers < a.registers.size := by
        have hroom := hF.room
        have hold := hF.outer_registers
        rw [executes.size_eq, ← hF.outer_routine]
        omega
      obtain ⟨t, ht⟩ := exists_steps hstep
      have hdefine := step_define (C := C) (L := L) hi hsize ht fun _ => rfl
      rw [hstep] at hdefine
      cases hdefine
      have hspares : a.Spares F.ready.registers (a.defined F.ready.registers (.word F.direction.step)) :=
        (Activation.Spares.set (Nat.le_refl _) _).move _ _
      refine ⟨block, .inr ⟨here, yields hready, fun e he => ?_⟩⟩
      have hheld : F.Held C e place (a.defined F.ready.registers (.word F.direction.step)) := by
        refine ⟨executes.follow hspares.toContinues, ?_, ?_, Array.getElem?_setIfInBounds_self_of_lt hsize⟩
        · rw [hspares.register F.slot hF.slot_lt_ready]
          exact slot
        · rw [hspares.register F.bound hF.bound_lt]
          exact he
      exact .jumping hheld (here.defined _ _) cell
    · obtain ⟨r, o', hins, hquiet, hfresh⟩ := hstraight.quiet a.done behind (by omega)
      have hi : a.instruction? = some (.define r o') := by
        rw [← executes.instruction?, block, ← hF.entry_routine]
        exact hins
      cases moves_of_step hstep with
      | across hnone _ _ _ _ _ _ =>
        rw [hi] at hnone
        cases hnone
      | along hsome hblock hdone _ hmemory hspares =>
        rw [hi] at hsome
        cases hsome
        have hspares := hspares F.entry.registers fun r' hr' => by
          cases hr'
          exact hfresh
        refine ⟨hblock.trans block, .inl ⟨fun hat => hready hat.2, ?_⟩⟩
        refine .bounding (executes.follow hspares.toContinues) (hblock.trans block) (by omega) (by omega) ?_
          ((cell?_congr (hmemory hquiet) place).trans cell) fun hnow => ?_
        · rw [hspares.register F.slot (Nat.lt_of_lt_of_le hF.slot_lt hF.region.registers)]
          exact slot
        · -- this was the last instruction of the bound
          obtain rfl : a.done = last := by omega
          rw [hins] at hlast
          cases hlast
          exact word_of_step hi htype hphi hstep

theorem Phase.jumping_step (hF : F.In C) (held : F.Held C e place a) (here : a.At F.ready.next)
    (cell : m.cell? place = some s) (h : Machine.step C L a m = .ok (.inr a') m') :
    F.Phase C s e [] [] a' m' ∧ a'.block = F.ready.blocks := by
  have executes := held.executes
  obtain ⟨hnone, hexit⟩ := executes.ends (S := F.ready.next) hF.ready_routine here hF.jump
  cases moves_of_step h with
  | along hsome _ _ _ _ _ =>
    rw [hnone] at hsome
    cases hsome
  | across _ hexit' ht hblock hdone hmemory hspares =>
    rw [hexit] at hexit'
    cases hexit'
    obtain rfl := List.mem_singleton.mp ht
    have hspares := hspares (F.ready.registers + 1) fun b hb phi hphi => by
      -- the block of the test merges nothing
      rw [Block.leadingPhis_nil] at hphi
      · cases hphi
      · intro r M hmerge
        refine hF.direct (.inl rfl) r M ?_
        rw [Site.ref, hF.ready_routine, Code.instruction?, executes.block?]
        rw [show a.routine.blocks[F.ready.blocks]? = some b from hb]
        exact hmerge
    have htest : a'.At F.test := ⟨hblock, hdone⟩
    have hcell := (cell?_congr hmemory place).trans cell
    exact ⟨.deciding .nil rfl (.load (held.spares hF hspares) htest hcell), hblock⟩

theorem Phase.finish (hrounds : F.direction.Rounds s e vs ws) (hlength : vs.length = ws.length + 1)
    (hheld : F.Held C e place a) (here : a.At F.outer) (hv : m.cell? place = some v) :
    F.Phase C s e vs (ws ++ [v]) a m := by
  have hdeciding : F.Deciding C e place (F.direction.due s e (ws ++ [v])).1
      (F.direction.due s e (ws ++ [v])).2 a m := by
    rw [Direction.due_concat]
    exact .reload hheld here hv
  exact .deciding (hrounds.finish hlength v) (by simp [hlength]) hdeciding

/-- The end of a loop is not the start or the end of a round. -/
theorem Decided.not_at (h : F.Decided C e place false v a m) (hF : F.In C) : ¬ a.At F.body ∧ ¬ a.At F.outer := by
  have houter := hF.outer_block
  have hblock : a.block = F.ready.blocks + 2 := h.here.1
  constructor
  · rintro ⟨hb, -⟩
    rw [body_block] at hb
    omega
  · rintro ⟨hb, -⟩
    omega

/-- A decision has been made: a round starts, which may be done at once, or the loop comes to its end. -/
theorem Phase.decided (hF : F.In C) (hrounds : F.direction.Rounds s e vs ws) (hlength : vs.length = ws.length)
    (h : F.Decided C e place (F.direction.due s e ws).1 (F.direction.due s e ws).2 a m) :
    ∃ vs' ws', F.seen F.body a m = vs'.map some ∧ F.seen F.outer a m = ws'.map some ∧
      F.Phase C s e (vs ++ vs') (ws ++ ws') a m := by
  cases hgo : (F.direction.due s e ws).1 with
  | false =>
    rw [hgo] at h
    obtain ⟨hbody, hend⟩ := h.not_at hF
    refine ⟨[], [], seen_of_not_at hbody, seen_of_not_at hend, ?_⟩
    rw [List.append_nil, List.append_nil]
    exact .left hrounds hlength hgo h
  | true =>
    rw [hgo] at h
    obtain ⟨hheld, here, hcell⟩ := h
    have hvalue : F.value? a m = some (F.direction.due s e ws).2 := (value?_eq hheld.slot).trans hcell
    have hbegun := hrounds.begin hlength hgo
    have hlength' : (vs ++ [(F.direction.due s e ws).2]).length = ws.length + 1 := by simp [hlength]
    -- a body without instructions ends where it starts
    by_cases hat : a.At F.outer
    · exact ⟨[_], [_], seen_of_at here hvalue, seen_of_at hat hvalue,
        .finish hbegun hlength' hheld hat hcell⟩
    · refine ⟨[_], [], seen_of_at here hvalue, seen_of_not_at hat, ?_⟩
      rw [List.append_nil]
      refine .inside hbegun hlength' hheld (by rw [hcell]; rfl) ?_
      have hplace : a.At F.outer ∨ F.Inside a := by
        refine Inside.of_owns (.inl here.1) fun _ => ?_
        rw [here.2]
        exact Nat.zero_le _
      exact hplace.resolve_left hat

/-- What is known of a state of a run is known of the next. -/
theorem Phase.step (hF : F.In C) (h : F.Phase C s e vs ws a m) (stays : ¬ a.At F.after)
    (remains : a.block ≠ 1) (hstep : Machine.step C L a m = .ok (.inr a') m') :
    ∃ vs' ws', F.seen F.body a' m' = vs'.map some ∧ F.seen F.outer a' m' = ws'.map some ∧
      F.Phase C s e (vs ++ vs') (ws ++ ws') a' m' := by
  have houter := hF.outer_block
  have hblocks := hF.ready_valid.blocks
  -- a state that is neither at the start nor at the end of a round adds nothing
  have hquiet : ¬ a'.At F.body → ¬ a'.At F.outer → F.Phase C s e vs ws a' m' →
      ∃ vs' ws', F.seen F.body a' m' = vs'.map some ∧ F.seen F.outer a' m' = ws'.map some ∧
        F.Phase C s e (vs ++ vs') (ws ++ ws') a' m' := by
    intro hbody hdone hphase
    refine ⟨[], [], seen_of_not_at hbody, seen_of_not_at hdone, ?_⟩
    rw [List.append_nil, List.append_nil]
    exact hphase
  cases h with
  | jumping held here cell =>
    obtain ⟨hphase, hblock⟩ := Phase.jumping_step hF held here cell hstep
    obtain ⟨hbody, hend⟩ := hF.not_at_of_le hblock.le
    exact hquiet hbody hend hphase
  | deciding rounds length deciding =>
    obtain ⟨t, ht⟩ := exists_steps hstep
    obtain ⟨a₁, m₁, hstep₁, -, hnext⟩ := deciding.next (L := L) hF ht
    rw [hstep] at hstep₁
    cases hstep₁
    rcases hnext with ⟨hnext, hblock, hdone⟩ | hdecided
    · obtain ⟨hbody, hend⟩ := deciding.not_at hF hblock hdone
      exact hquiet hbody hend (.deciding rounds length hnext)
    · exact Phase.decided hF rounds length hdecided
  | inside rounds length held cell inside =>
    rcases inside.step hF held.executes hstep with hone | ⟨hspares, hpersists, hbody, hat | hin⟩
    · obtain ⟨hbody, hend⟩ := hF.not_at_of_le (by omega : a'.block ≤ F.ready.blocks)
      exact hquiet hbody hend (.gone rounds hone)
    · have hheld := held.spares hF hspares
      obtain ⟨w, hw⟩ := Option.isSome_iff_exists.mp (hpersists _ cell)
      refine ⟨[], [w], seen_of_not_at hbody, seen_of_at hat ((value?_eq hheld.slot).trans hw), ?_⟩
      rw [List.append_nil]
      exact .finish rounds length hheld hat hw
    · refine hquiet hbody (fun hat => ?_) ?_
      · exact absurd hat.2 (Nat.ne_of_lt (hin.before hat.1))
      · exact .inside rounds length (held.spares hF hspares) (hpersists _ cell) hin
  | left _ _ _ decided => exact absurd decided.here stays
  | gone _ block => exact absurd block remains

variable {c₀ c c' : Activation × Machine} {xs ys xs' ys' : List (Option Word)}

/-- What is known of every state of a run. -/
theorem Runs.phase (hF : F.In C) (hs : F.Starts C s c₀) (he : F.Bounded C L e c₀)
    (h : F.Runs C L c₀ xs ys c) : (xs = [] ∧ ys = [] ∧ F.Early C s c.1 c.2) ∨
      ∃ vs ws, xs = vs.map some ∧ ys = ws.map some ∧ F.Phase C s e vs ws c.1 c.2 := by
  induction h with
  | refl => exact .inl ⟨rfl, rfl, .entering hs.executes hs.here hs.value⟩
  | @step xs ys c c' hbefore stays remains goes ih =>
    rcases ih with ⟨rfl, rfl, hearly⟩ | ⟨vs, ws, rfl, rfl, hphase⟩
    · obtain ⟨hblock, hnext⟩ := hearly.step hF goes
      have hlt : F.entry.block < F.ready.blocks := hF.entry_block_lt
      obtain ⟨hbody, hend⟩ := hF.not_at_of_le (by omega : c'.1.block ≤ F.ready.blocks)
      rw [seen_of_not_at hbody, seen_of_not_at hend]
      rcases hnext with ⟨-, hearly⟩ | ⟨hready, -, hphase⟩
      · exact .inl ⟨rfl, rfl, hearly⟩
      · exact .inr ⟨[], [], rfl, rfl, hphase e (he _ _ _ hbefore hready)⟩
    · right
      obtain ⟨vs', ws', hvs, hws, hphase⟩ := hphase.step hF stays remains goes
      refine ⟨vs ++ vs', ws ++ ws', ?_, ?_, hphase⟩
      · rw [hvs, List.map_append]
      · rw [hws, List.map_append]

theorem Runs.trans (h : F.Runs C L c₀ xs ys c) (h' : F.Runs C L c xs' ys' c') :
    F.Runs C L c₀ (xs ++ xs') (ys ++ ys') c' := by
  induction h' with
  | refl =>
    rw [List.append_nil, List.append_nil]
    exact h
  | step _ stays remains goes ih =>
    rw [← List.append_assoc, ← List.append_assoc]
    exact ih.step stays remains goes

/-! ## 4. The bound -/

theorem Inside.block (h : F.Inside a) : a.block = F.ready.blocks + 1 ∨ F.ready.blocks + 3 ≤ a.block := by
  rcases h.owns with hbody | ⟨hnew, -⟩
  · exact .inl hbody
  · exact .inr hnew

/-- A run that goes on starts with the step that there is. -/
theorem Runs.head (h : F.Runs C L c xs ys c') : c' = c ∨
    ∃ c₁ us ws, Goes C L c c₁ ∧ F.Runs C L c₁ us ws c' := by
  induction h with
  | refl => exact .inl rfl
  | step _ stays remains goes ih =>
    rcases ih with rfl | ⟨c₁, us, ws, hgoes, hruns⟩
    · exact .inr ⟨_, [], [], goes, .refl⟩
    · exact .inr ⟨c₁, _, _, hgoes, hruns.step stays remains goes⟩

/-- How many steps it takes to the next decision, from the first test or from the end of a round on. -/
def distance (F : CountingLoop) (a : Activation) : Nat :=
  if a.block = F.ready.blocks then 3 - a.done else F.outer.index + 5 - a.done

theorem Deciding.distance_pos (h : F.Deciding C e place go v a m) (hF : F.In C) : 0 < F.distance a := by
  have houter := hF.outer_block
  have hplace := h.block
  unfold distance
  split <;> omega

/-- A loop that is about to decide does so, when it has enough steps left. -/
theorem Deciding.runs (hF : F.In C) (h : F.Deciding C e place go v a m) (hsteps : F.distance a ≤ m.steps) :
    ∃ a' m', F.Runs C L (a, m) (F.seen F.body a' m') (F.seen F.outer a' m') (a', m') ∧
      F.Decided C e place go v a' m' := by
  induction ht : m.steps generalizing a m with
  | zero =>
    have hpos := h.distance_pos hF
    omega
  | succ t ih =>
    obtain ⟨a₁, m₁, hstep, hsteps₁, hnext⟩ := h.next (L := L) hF ht
    have houter := hF.outer_block
    have hblocks := hF.ready_valid.blocks
    have hstays : ¬ a.At F.after := by
      rintro ⟨hblock, -⟩
      rw [after_block] at hblock
      rcases h.block with htest | ⟨hend, -⟩ <;> omega
    have hremains : a.block ≠ 1 := by
      rcases h.block with htest | ⟨hend, -⟩ <;> omega
    have hgoes : Goes C L (a, m) (a₁, m₁) := hstep
    have hfirst : F.Runs C L (a, m) ([] ++ F.seen F.body a₁ m₁) ([] ++ F.seen F.outer a₁ m₁) (a₁, m₁) :=
      Runs.refl.step hstays hremains hgoes
    rw [List.nil_append, List.nil_append] at hfirst
    -- the step makes the decision, or brings it nearer
    rcases hnext with ⟨hdeciding, hblock, hdone⟩ | hdecided
    · obtain ⟨hbody, hend⟩ := h.not_at hF hblock hdone
      rw [seen_of_not_at hbody, seen_of_not_at hend] at hfirst
      have hless : F.distance a₁ ≤ m₁.steps := by
        rw [distance] at hsteps
        rw [distance, hblock, hdone]
        split
        · next htest =>
          rw [if_pos htest] at hsteps
          omega
        · next htest =>
          rw [if_neg htest] at hsteps
          omega
      obtain ⟨a', m', hruns, hdecided⟩ := ih hdeciding hless hsteps₁
      exact ⟨a', m', hfirst.trans hruns, hdecided⟩
    · exact ⟨a₁, m₁, hfirst, hdecided⟩

/-- The run comes to a decision with too few steps left. -/
def Exhausts (F : CountingLoop) (C : Code) (L : Limits) (c : Activation × Machine) : Prop :=
  ∃ xs ys c', F.Runs C L c xs ys c' ∧ (c'.1.At F.test ∨ c'.1.At F.outer) ∧ c'.2.steps < F.distance c'.1

theorem Exhausts.before (h : F.Exhausts C L c') (hruns : F.Runs C L c xs ys c') : F.Exhausts C L c := by
  obtain ⟨xs', ys', c'', h, hdecides⟩ := h
  exact ⟨_, _, c'', hruns.trans h, hdecides⟩

theorem Phase.rounds (h : F.Phase C s e vs ws a m) : F.direction.Rounds s e vs ws := by
  cases h with
  | jumping _ _ _ => exact .nil
  | deciding rounds _ _ | inside rounds _ _ _ _ | left rounds _ _ _ | gone rounds _ => exact rounds

/-- Before the first test a loop is neither at a test nor at its end. -/
theorem In.not_at_of_lt (hF : F.In C) (hlt : a.block < F.ready.blocks) :
    ¬ (a.At F.test ∨ a.At F.outer) ∧ ¬ a.At F.after := by
  refine ⟨?_, fun hat => ?_⟩
  · rintro (hat | hat)
    · exact absurd hat.1 hlt.ne
    · exact (hF.not_at_of_le hlt.le).2 hat
  · have hblock : a.block = F.ready.blocks + 2 := hat.1
    omega

/-- At the first test and at the end of a round the loop decides what comes next. -/
theorem Phase.decides (hF : F.In C) (h : F.Phase C s e vs ws a m) (hat : a.At F.test ∨ a.At F.outer) :
    vs.length = ws.length ∧ ∃ place,
      F.Deciding C e place (F.direction.due s e ws).1 (F.direction.due s e ws).2 a m := by
  have hblocks := hF.ready_valid.blocks
  cases h with
  | jumping _ here _ =>
    have hlt : a.block < F.ready.blocks := here.1.trans_lt hF.ready_valid.block
    exact absurd hat (hF.not_at_of_lt hlt).1
  | deciding _ length deciding => exact ⟨length, _, deciding⟩
  | inside _ _ _ _ inside =>
    -- inside a round the loop is neither at its test nor at the end of the round
    exfalso
    rcases hat with hat | hat
    · have hblock : a.block = F.ready.blocks := hat.1
      rcases inside.block with hbody | hnew <;> omega
    · exact absurd hat.2 (Nat.ne_of_lt (inside.before hat.1))
  | left _ _ _ decided =>
    have hblock : a.block = F.ready.blocks + 2 := decided.here.1
    rcases hat with hat | hat
    · have htest : a.block = F.ready.blocks := hat.1
      omega
    · exact absurd hat (decided.not_at hF).2
  | gone _ block => exact absurd hat (hF.not_at_of_lt (by omega)).1

/-- Behind the loop no other round is due. -/
theorem Phase.leaves (hF : F.In C) (h : F.Phase C s e vs ws a m) (hat : a.At F.after) :
    vs.length = ws.length ∧ (F.direction.due s e ws).1 = false ∧
      F.value? a m = some (F.direction.due s e ws).2 := by
  have houter := hF.outer_block
  have hblocks := hF.ready_valid.blocks
  have hblock : a.block = F.ready.blocks + 2 := hat.1
  cases h with
  | jumping _ here _ =>
    have hlt : a.block < F.ready.blocks := here.1.trans_lt hF.ready_valid.block
    omega
  | deciding _ _ deciding => rcases deciding.block with htest | ⟨hend, -⟩ <;> omega
  | inside _ _ _ _ inside => rcases inside.block with hbody | hnew <;> omega
  | left _ length finished decided =>
    exact ⟨length, finished, (value?_eq decided.held.slot).trans decided.cell⟩
  | gone _ block => omega

theorem Runs.decides (hF : F.In C) (hs : F.Starts C s c₀) (he : F.Bounded C L e c₀)
    (h : F.Runs C L c₀ xs ys c) (hat : c.1.At F.test ∨ c.1.At F.outer) :
    ∃ vs ws, xs = vs.map some ∧ ys = ws.map some ∧ F.direction.Rounds s e vs ws ∧ vs.length = ws.length ∧
      ∃ place, F.Deciding C e place (F.direction.due s e ws).1 (F.direction.due s e ws).2 c.1 c.2 := by
  rcases h.phase hF hs he with ⟨-, -, hearly⟩ | ⟨vs, ws, hxs, hys, hphase⟩
  · have hlt : c.1.block < F.ready.blocks := (hearly.block hF).1.trans_lt hF.entry_block_lt
    exact absurd hat (hF.not_at_of_lt hlt).1
  · obtain ⟨hlength, hdeciding⟩ := hphase.decides hF hat
    exact ⟨vs, ws, hxs, hys, hphase.rounds, hlength, hdeciding⟩

/-! ## 6. Whole loops -/

/-- Every round that starts is done at some time, with the variable as it was. -/
def Completes (F : CountingLoop) (C : Code) (L : Limits) (c₀ : Activation × Machine) : Prop :=
  ∀ xs ys c v, F.Runs C L c₀ xs ys c → c.1.At F.body → F.value? c.1 c.2 = some v →
    ∃ ys' c', F.Runs C L c [] ys' c' ∧ c'.1.At F.outer ∧ F.value? c'.1 c'.2 = some v

/-- The last value of the variable at the end of a round is the one at hand there. -/
theorem Runs.eq_or_concat (h : F.Runs C L c xs ys c') (hat : c'.1.At F.outer) :
    (c' = c ∧ ys = []) ∨ ∃ ys', ys = ys' ++ [F.value? c'.1 c'.2] := by
  cases h with
  | refl => exact .inl ⟨rfl, rfl⟩
  | step h _ _ _ => exact .inr ⟨_, by rw [seen, if_pos hat]⟩

/-- A round that leaves the variable as it is. -/
theorem Runs.round (hF : F.In C) (hs : F.Starts C s c₀) (he : F.Bounded C L e c₀)
    (h : F.Runs C L c₀ ((ws ++ [v]).map some) (ws.map some ++ F.seen F.outer c.1 c.2) c)
    (hv : F.value? c.1 c.2 = some v) (hround : F.Runs C L c [] ys' c')
    (hat : c'.1.At F.outer) (hv' : F.value? c'.1 c'.2 = some v) :
    F.Runs C L c₀ ((ws ++ [v]).map some) ((ws ++ [v]).map some) c' := by
  have hruns := h.trans hround
  rw [List.append_nil] at hruns
  -- as many rounds are done as have started, so that one was done on the way, with the value at hand
  obtain ⟨vs', ws', hvs, hws, -, hlength, -⟩ := hruns.decides hF hs he (.inr hat)
  have hones : (F.seen F.outer c.1 c.2 ++ ys').length = 1 := by
    have hvs := congrArg List.length hvs
    have hws := congrArg List.length hws
    simp only [List.length_map, List.length_append, List.length_singleton] at hvs hws ⊢
    omega
  have hone : F.seen F.outer c.1 c.2 ++ ys' = [some v] := by
    rcases hround.eq_or_concat hat with ⟨rfl, rfl⟩ | ⟨ys'', rfl⟩
    · rw [seen, if_pos hat, hv, List.append_nil]
    · rw [← List.append_assoc, List.length_append, List.length_singleton] at hones
      rw [← List.append_assoc, List.length_eq_zero_iff.mp (by omega :
        (F.seen F.outer c.1 c.2 ++ ys'').length = 0), hv']
      rfl
  rw [List.append_assoc, hone] at hruns
  rw [List.map_append] at hruns ⊢
  exact hruns

/-- A loop whose rounds are all done, with the variable as it was, makes a round for each of its values and
comes to its end, unless it has too few steps left. -/
theorem Runs.finishes (hF : F.In C) (hs : F.Starts C s c₀) (he : F.Bounded C L e c₀)
    (hc : F.Completes C L c₀) (h : F.Runs C L c₀ (ws.map some) (ws.map some) c)
    (hat : c.1.At F.test ∨ c.1.At F.outer) : F.Exhausts C L c ∨
      ∃ c', F.Runs C L c₀ ((F.direction.values s e).map some) ((F.direction.values s e).map some) c' ∧
        c'.1.At F.after := by
  -- each round is one less to come
  induction hk : F.direction.count s e - ws.length using Nat.strong_induction_on generalizing ws c with
  | _ k ih =>
    obtain ⟨vs', ws', hvs, hws, hrounds, -, place, hdeciding⟩ := h.decides hF hs he hat
    obtain rfl := List.map_injective_iff.mpr (Option.some_injective _) hvs
    obtain rfl := List.map_injective_iff.mpr (Option.some_injective _) hws
    by_cases hfew : c.2.steps < F.distance c.1
    · exact .inl ⟨[], [], c, .refl, hat, hfew⟩
    · obtain ⟨a', m', hruns, hdecided⟩ := hdeciding.runs (L := L) hF (Nat.le_of_not_lt hfew)
      have hnext := h.trans hruns
      cases hgo : (F.direction.due s e ws).1 with
      | false =>
        right
        rw [hgo] at hdecided
        obtain ⟨hbody, hend⟩ := hdecided.not_at hF
        rw [seen_of_not_at hbody, seen_of_not_at hend, List.append_nil] at hnext
        obtain ⟨hvalues, -⟩ := hrounds.eq_values rfl (List.prefix_refl ws) hgo
        rw [← hvalues]
        exact ⟨_, hnext, hdecided.here⟩
      | true =>
        rw [hgo] at hdecided
        have hvalue : F.value? a' m' = some (F.direction.due s e ws).2 :=
          (value?_eq hdecided.held.slot).trans hdecided.cell
        have hbegun := hrounds.begin rfl hgo
        have hle := hbegun.length_le (List.prefix_append _ _)
        have hbody : a'.At F.body := hdecided.here
        rw [seen_of_at hbody hvalue, ← List.map_append] at hnext
        obtain ⟨ys', c', hround, hat', hvalue'⟩ := hc _ _ _ _ hnext hbody hvalue
        have hdone := Runs.round hF hs he hnext hvalue hround hat' hvalue'
        rw [List.length_append, List.length_singleton] at hle
        rcases ih _ (by rw [List.length_append, List.length_singleton]; omega) hdone (.inr hat') rfl with
          hexhausts | hfinished
        · exact .inl ((hexhausts.before hround).before hruns)
        · exact .inr hfinished

variable {n N : Nat}

/-- The state behind a step, if there is one. -/
def next? (C : Code) (L : Limits) (c : Activation × Machine) : Option (Activation × Machine) :=
  match Machine.step C L c.1 c.2 with
  | .ok (.inr a) m => some (a, m)
  | _ => none

theorem goes_iff : Goes C L c c' ↔ next? C L c = some c' := by
  unfold Goes next?
  split
  · next a m hstep =>
    rw [hstep]
    constructor
    · intro h
      cases h
      rfl
    · intro h
      cases h
      rfl
  · next hnone =>
    constructor
    · intro h
      exact absurd h (hnone _ _)
    · intro h
      cases h

end CountingLoop

end Mila
