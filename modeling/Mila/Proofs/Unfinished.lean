import Mila.Code.Check
import Mila.Proofs.Correctness
import Mila.Proofs.Structure
import Mila.Proofs.Thresholds
import Mila.Proofs.Watching

/-! # Code that was left half done

Compiling a program may stop at a broken rule, and then keeps what was emitted before. Such code does not
pass for the code of a program: a block of `main` is still open, which the check of the code reports, and a
run of it comes to no result, because nothing in `main` returns.
-/

namespace Mila

/-! ## 1. The check -/

namespace Code

/-- A check of all elements stops at the first fault. -/
theorem forM_error {α : Type} {f : α → Except CodeError Unit} {a : α} {e : CodeError} {l l' : List α}
    (hl : ∀ b ∈ l, f b = .ok ()) (ha : f a = .error e) : (l ++ a :: l').forM f = .error e := by
  induction l with
  | nil =>
    change (f a >>= fun _ => l'.forM f) = .error e
    rw [ha]
    rfl
  | cons b l ih =>
    have hb := hl b List.mem_cons_self
    have hrest := ih fun c hc => hl c (List.mem_cons_of_mem _ hc)
    change (f b >>= fun _ => (l ++ a :: l').forM f) = .error e
    rw [hb]
    exact hrest

end Code

theorem Block.check_of_open {b : Block} (h : b.exit = none) (name : String) :
    b.check name = .error (.unterminated name b.label) := by
  unfold Block.check
  rw [h]
  rfl

theorem Block.check_of_closed {b : Block} {e : Exit} (h : b.exit = some e)
    (hbody : ∀ i ∈ b.body, i.isPhi = false) (name : String) : b.check name = .ok () := by
  have hlead : b.phisLead = true := by
    refine Block.phisLead_of_first fun i ins hi hphi => ?_
    have hno := hbody ins (Array.mem_of_getElem? hi)
    rw [hphi] at hno
    cases hno
  unfold Block.check
  rw [h, hlead]
  rfl

namespace Code.Unreturned

variable {C : Code}

theorem blocks (h : C.Unreturned) : ∃ (r : Routine) (rs : List Routine) (b₀ b₁ : Block) (bs : List Block),
    C.routines.toList = r :: rs ∧ r.name = entryPoint ∧ r.blocks.toList = b₀ :: b₁ :: bs ∧
      (∀ i ∈ b₀.body, i.isPhi = false) ∧ b₁.exit = none := by
  obtain ⟨params, hname⟩ := h.named
  obtain ⟨r, hr, hheading⟩ := Option.map_eq_some_iff.mp hname
  obtain ⟨b₀, hb₀, hbody⟩ := h.entry
  obtain ⟨b₁, hb₁, hopen⟩ := h.last
  unfold block? at hb₀ hb₁
  rw [hr, Option.bind_some] at hb₀ hb₁
  rw [← Array.getElem?_toList] at hr hb₀ hb₁
  cases hrs : C.routines.toList with
  | nil =>
    rw [hrs] at hr
    cases hr
  | cons r' rs =>
    rw [hrs] at hr
    obtain rfl : r' = r := Option.some.inj hr
    rcases hbs : r'.blocks.toList with _ | ⟨c₀, _ | ⟨c₁, bs⟩⟩
    · rw [hbs] at hb₁
      cases hb₁
    · rw [hbs] at hb₁
      cases hb₁
    · rw [hbs] at hb₀ hb₁
      obtain rfl : c₀ = b₀ := Option.some.inj hb₀
      obtain rfl : c₁ = b₁ := Option.some.inj hb₁
      exact ⟨r', rs, c₀, c₁, bs, rfl, (Prod.mk.inj hheading).1, hbs, hbody, hopen⟩

/-- The block that is found open is the first one of the program, or else the one that would return. -/
theorem check (h : C.Unreturned) : ∃ label, C.check = .error (.unterminated entryPoint label) := by
  obtain ⟨r, rs, b₀, b₁, bs, hroutines, hname, hblocks, hbody, hopen⟩ := h.blocks
  have hroutine : ∃ label, r.check = .error (.unterminated entryPoint label) := by
    unfold Routine.check
    rw [hblocks, ← hname]
    cases hexit : b₀.exit with
    | none =>
      refine ⟨b₀.label, forM_error (l := []) (fun _ hb => absurd hb List.not_mem_nil) (b₀.check_of_open hexit r.name)⟩
    | some e =>
      refine ⟨b₁.label, forM_error (l := [b₀]) ?_ (b₁.check_of_open hopen r.name)⟩
      intro b hb
      rw [List.mem_singleton.mp hb]
      exact b₀.check_of_closed hexit hbody r.name
  obtain ⟨label, hlabel⟩ := hroutine
  refine ⟨label, ?_⟩
  unfold Code.check
  rw [hroutines]
  exact forM_error (l := []) (fun _ hr => absurd hr List.not_mem_nil) hlabel

end Code.Unreturned

/-! ## 2. Runs -/

namespace Machine

open Run

variable {C : Code} {L : Limits}

/-- An activation of a routine without a return comes to no result. -/
theorem execute_unreturned {a : Activation} (hret : ∀ b ∈ a.routine.blocks, ∀ v, b.exit ≠ some (.ret v))
    (n : Nat) (m : Machine) : Meets (execute C L n a) m (fun _ _ => False) (fun _ _ => True) := by
  induction n generalizing a m with
  | zero => exact .throw trivial
  | succ n ih =>
    rw [execute_succ]
    refine (Meets.any _ m).bind fun _ m₁ _ => ?_
    rw [afterTick_eq_act]
    refine (a.meets_act m₁).bind fun next m₂ hnext => ?_
    cases next with
    | inl v =>
      obtain ⟨value, hexit⟩ := hnext
      obtain ⟨b, hb, he⟩ := Option.bind_eq_some_iff.mp hexit
      exact absurd he (hret b (Array.mem_of_getElem? hb) value)
    | inr b =>
      -- the activation goes on in the same routine
      refine ih ?_ m₂
      rw [hnext.routine]
      exact hret

end Machine

/-- A run whose program does not return comes to no result. -/
theorem Code.Unreturned.run_ne_ok {C : Code} (h : C.Unreturned) (input : List Word) (L : Limits)
    (outcome : Outcome) : C.run input L ≠ .ok outcome := by
  obtain ⟨params, hname⟩ := h.named
  obtain ⟨r, hr, -⟩ := Option.map_eq_some_iff.mp hname
  have hret : ∀ b ∈ r.blocks, ∀ v, b.exit ≠ some (.ret v) := by
    intro b hb v hexit
    obtain ⟨x, hx⟩ := Array.mem_iff_getElem?.mp hb
    refine h.noReturn x v ?_
    unfold Code.exit? Code.block?
    rw [hr, Option.bind_some, hx, Option.bind_some, hexit]
  have hblocks : r.isExternal = false := by
    obtain ⟨b, hb, -⟩ := h.entry
    unfold Code.block? at hb
    rw [hr, Option.bind_some] at hb
    unfold Routine.isExternal
    rw [Array.isEmpty_eq_false_iff_exists_mem]
    exact ⟨b, Array.mem_of_getElem? hb⟩
  -- whatever stops it, the call of the main routine does not return
  have hinvoke : ∀ m, Run.Meets (Machine.invoke C L (Machine.execute C L L.steps) 0 [] 0) m
      (fun _ _ => False) (fun _ _ => True) := by
    intro m
    unfold Machine.invoke
    rw [hr]
    dsimp only
    rw [hblocks, if_neg Bool.false_ne_true]
    split
    · exact .throw trivial
    · refine .releasing ?_
      refine (((Activation.start r [] 0).meets_enter m none 0).mono (fun _ _ h => h)
        fun _ _ _ => trivial).bind fun a m₁ ha => Machine.execute_unreturned ?_ L.steps m₁
      rw [ha.2.routine]
      exact hret
  unfold Code.run
  rw [Code.find_entryPoint hname]
  dsimp only
  split
  · next hrun => exact ((hinvoke _).ok hrun).elim
  · intro hok
    cases hok

/-! ## 3. Programs -/

/-- What compiling leaves behind when it fails cannot be mistaken for the code of a program: the check finds
a block of `main` without exit, and no run comes to a result. So the check tells whether compiling
succeeded. -/
theorem Program.compileInto_unfinished (p : Program) :
    (∀ e, (p.compileInto Code.empty).1 = .error e →
      (∃ label, (p.compileInto Code.empty).2.check = .error (.unterminated Code.entryPoint label)) ∧
      ∀ input L outcome, (p.compileInto Code.empty).2.run input L ≠ .ok outcome) ∧
    ((p.compileInto Code.empty).1 = .ok () ↔ (p.compileInto Code.empty).2.check = .ok ()) := by
  have hwatched := p.compileInto_watched Watched.empty
  rw [show Watched.empty.code = Code.empty from rfl] at hwatched
  have hfail : ∀ e, (p.compileInto Code.empty).1 = .error e →
      (p.compileInto Code.empty).2.Unreturned := by
    intro e he
    rw [hwatched] at he ⊢
    exact p.compileInto_kept.2 e he
  refine ⟨fun e he => ⟨(hfail e he).check, (hfail e he).run_ne_ok⟩, fun hok => ?_, fun hcheck => ?_⟩
  · have hrun : p.compileInto Code.empty = (.ok (), (p.compileInto Code.empty).2) := by rw [← hok]
    obtain ⟨-, v, S, hcompiled⟩ := Program.compileInto_spec rfl trivial hrun
    exact hcompiled.checked
  · -- code that is left unfinished does not pass the check
    cases hresult : (p.compileInto Code.empty).1 with
    | ok u => rfl
    | error e =>
      obtain ⟨label, hlabel⟩ := (hfail e hresult).check
      rw [hcheck] at hlabel
      cases hlabel

/-- A program with an unknown name in the midst of a loop of one of its functions. -/
def Program.halfDone : Program where
  name := "half"
  declarations := [.variableDecl (.scalar "n"), .subprogram ⟨.function, "f", ["x"]⟩
    [.variableDecl (.scalar "f"), .whileLoop (.ident "x") (.binary .assign (.ident "f") (.ident "y")),
      .ident "f"]]
  body := .block [.call "f" [.number 1]]

theorem Program.halfDone_unfinished :
    (Program.halfDone.compileInto Code.empty).1 = .error (.unknownIdentifier "y") ∧
      ∃ label, (Program.halfDone.compileInto Code.empty).2.check =
        .error (.unterminated Code.entryPoint label) := by
  have hfail : (Program.halfDone.compileInto Code.empty).1 = .error (.unknownIdentifier "y") := by
    decide +kernel
  exact ⟨hfail, ((Program.compileInto_unfinished Program.halfDone).1 _ hfail).1⟩

end Mila
