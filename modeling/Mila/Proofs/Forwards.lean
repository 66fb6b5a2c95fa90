import Mila.Proofs.Abreast
import Mila.Proofs.Scoping
import Mila.Proofs.Sources

/-! # Announcing subprograms early

A `forward` declaration of a subprogram that the program defines anyway changes nothing but the numbers of routines and
the names of parameters: the program with the declaration compiles beside the one without it.
-/

namespace Mila

variable {arity : String → Nat}

/-! ## 1. Numbers of parameters -/

namespace Scope

/-- How many parameters a subprogram has, as far as it is known. -/
def arity? (x : Scope) (name : String) : Option Nat := (x.subprograms[name]?).map Signature.arity

theorem arity?_insert (x : Scope) (name other : String) (signature : Signature) :
    arity? { x with subprograms := x.subprograms.insert name signature } other =
      if other = name then some signature.arity else x.arity? other := by
  unfold arity?
  rw [NameTable.getElem?_insert]
  split <;> rfl

variable {x y : Scope} {mention : Mention} {name : String} {count : Nat} {l : List Mention}

/-- A heading that is allowed has the number of parameters that is known from then on. -/
theorem arity?_announce (h : x.violation mention = none)
    (hmention : mention = .forward name count ∨ mention = .opening name count) :
    (x.update mention).arity? name = some count := by
  rcases hmention with rfl | rfl
  · cases hknown : x.subprograms[name]? with
    | none =>
      simp only [update, hknown]
      exact (x.arity?_insert name name _).trans (if_pos rfl)
    | some known =>
      simp only [violation, hknown] at h
      simp only [update, hknown]
      split at h
      · cases h
      · next harity => rw [arity?, hknown, Option.map_some, not_not.mp harity]
  · exact (x.arity?_insert name name ⟨count, true⟩).trans (if_pos rfl)

theorem arity?_update (h : x.violation mention = none)
    (hname : x.arity? name = some count) : (x.update mention).arity? name = some count := by
  obtain ⟨known, hknown, rfl⟩ := Option.map_eq_some_iff.mp hname
  cases mention with
  | use | «variable» | constant | call | nowhere => exact hname
  | closing =>
    simp only [update]
    split <;> exact hname
  | forward other n =>
    simp only [update]
    split
    · next hnew =>
      refine (x.arity?_insert other name _).trans ?_
      rw [if_neg, hname]
      rintro rfl
      rw [hnew] at hknown
      cases hknown
    · exact hname
  | opening other n =>
    refine (x.arity?_insert other name ⟨n, true⟩).trans ?_
    split
    · next heq =>
      -- the subprogram was announced, with as many parameters
      subst heq
      simp only [violation, hknown] at h
      split at h
      · cases h
      · split at h
        · cases h
        · next harity => rw [not_not.mp harity]
    · exact hname

theorem arity?_resolve (h : x.resolve l = .ok y)
    (hname : x.arity? name = some count) : y.arity? name = some count := by
  induction l generalizing x with
  | nil =>
    cases h
    exact hname
  | cons mention l ih =>
    cases hfirst : x.violation mention with
    | some e =>
      rw [resolve_violation hfirst] at h
      cases h
    | none =>
      rw [resolve_allowed hfirst] at h
      exact ih h (arity?_update hfirst hname)

/-- Each heading that is mentioned has the number of parameters that is known in the end. -/
theorem arity?_of_mem (h : x.resolve l = .ok y) (hmem : mention ∈ l)
    (hmention : mention = .forward name count ∨ mention = .opening name count) : y.arity? name = some count := by
  induction l generalizing x with
  | nil => cases hmem
  | cons first l ih =>
    cases hfirst : x.violation first with
    | some e =>
      rw [resolve_violation hfirst] at h
      cases h
    | none =>
      rw [resolve_allowed hfirst] at h
      rcases List.mem_cons.mp hmem with rfl | hmem
      · exact arity?_resolve h (arity?_announce hfirst hmention)
      · exact ih h hmem

end Scope

theorem Node.mem_allMentions {ns : List Node} {n : Node} (hn : n ∈ ns) {mention : Mention}
    (h : mention ∈ n.mentions) : mention ∈ Node.allMentions ns := by
  induction ns with
  | nil => cases hn
  | cons first rest ih =>
    rw [Node.allMentions]
    rcases List.mem_cons.mp hn with rfl | hn
    · exact List.mem_append_left _ h
    · exact List.mem_append_right _ (ih hn)

variable {p : Program} {α : Type}

/-- In a program that compiles, all headings of a subprogram have the same number of parameters. -/
theorem Program.exists_arity (h : p.resolve = .ok ()) : ∃ arity : String → Nat,
    (∀ name count, Scope.initial.arity? name = some count → arity name = count) ∧
      ∀ d ∈ p.declarations, ∀ q ∈ d.heading?, q.params.length = arity q.name := by
  unfold Program.resolve at h
  split at h
  · next y hy =>
    refine ⟨fun name => (y.arity? name).getD 0, fun name count hname => ?_, fun d hd q hq => ?_⟩
    · dsimp only
      rw [Scope.arity?_resolve hy hname, Option.getD_some]
    · -- the heading is mentioned, so that its parameters have been counted
      have hmention : ∃ mention ∈ d.mentions,
          mention = .forward q.name q.params.length ∨ mention = .opening q.name q.params.length := by
        cases d with
        | forward q' =>
          obtain rfl := Option.some.inj hq
          exact ⟨_, List.mem_singleton_self _, .inl rfl⟩
        | subprogram q' body =>
          obtain rfl := Option.some.inj hq
          exact ⟨_, by rw [Node.mentions]; exact List.mem_cons_self, .inr rfl⟩
        | _ => cases hq
      obtain ⟨mention, hmem, hmention⟩ := hmention
      have hall : mention ∈ p.mentions := List.mem_append_left _ (Node.mem_allMentions hd hmem)
      dsimp only
      rw [Scope.arity?_of_mem hy hall hmention, Option.getD_some]
  · cases h

/-! ## 2. One declaration more -/

/-- What follows declarations does not see the value of the last one. -/
theorem Emit.sequence_bind {κ : Type} [Target κ] (last last' : Option Register) (ns : List Node) (m : Emit κ α) :
    (Emit.sequence last ns >>= fun _ => m) = Emit.sequence last' ns >>= fun _ => m := by
  cases ns <;> rfl

/-- Only the second compilation comes to a step, which yields nothing. -/
theorem Trails.insert {g g' : Nat} {p : Prototype} (hp : p.params.length = arity p.name) {m m' : Emit Code α}
    (h : Trails arity g g' m m') : Trails arity g g' m (Emit.forward p >>= fun _ => m') := by
  intro s s' a t hs hrun
  obtain ⟨s₁', -, hforward, -, hs₁, hkeeps₁⟩ := hs.forward hp
  obtain ⟨t', hrun', ht, hkeeps, hkeeps'⟩ := h s s₁' a t hs₁ hrun
  exact ⟨t', (Emit.bind_of_ok hforward).trans hrun', ht, hkeeps, hkeeps₁.trans hkeeps'⟩

theorem Beside.start (h : ∀ name count, Scope.initial.arity? name = some count → arity name = count) :
    Beside arity 0 0 (Compilation.start Code.empty) (Compilation.start Code.empty) := by
  obtain ⟨hready, -, hout⟩ := Compilation.start_spec (k := Code.empty) rfl trivial
  have hregistry : Registry (Compilation.start Code.empty).globals (Compilation.start Code.empty).code := hready.registry
  have hcode : (Compilation.start Code.empty).code = ⟨#[⟨"main", [], #[.empty "entry", .empty "return"], 0⟩,
    .empty "writeln" ["x"], .empty "printi" ["x"]]⟩ := hout
  have hscoped := Compilation.scoped_start Code.empty
  set s := Compilation.start Code.empty
  have hnamed : ∀ g name, s.code.name? g = some name → ∃ entry, s.globals.subprogram? name = some entry ∧
      entry.routine = g := by
    intro g name hname
    obtain ⟨r, hr, rfl⟩ := Option.map_eq_some_iff.mp hname
    exact hregistry.named g r hr
  have hdistinct : s.code.Distinct := by
    intro i j name hi hj
    obtain ⟨entry, hentry, rfl⟩ := hnamed i name hi
    obtain ⟨entry', hentry', rfl⟩ := hnamed j name hj
    rw [Option.some.inj (hentry.symm.trans hentry')]
  -- the first routines have no instructions yet
  have hblank : ∀ (g : Nat) (r : Routine), s.code.routines[g]? = some r → r.Matches (s.code.Namesakes s.code) r := by
    intro g r hr
    rw [hcode] at hr
    rcases g with _ | _ | _ | g
    · rw [← Option.some.inj hr]
      exact ⟨rfl, rfl, .cons ⟨.nil, .none⟩ (.cons ⟨.nil, .none⟩ .nil)⟩
    · rw [← Option.some.inj hr]
      exact .empty _ _ _
    · rw [← Option.some.inj hr]
      exact .empty _ _ _
    · cases hr
  refine ⟨⟨⟨hdistinct, hdistinct, fun g r hr => ⟨g, r, hr, hblank g r hr⟩⟩, fun _ => rfl, fun name entry hentry => ?_,
    fun name entry hnone hsome => ?_, fun g name hname => ?_, fun g name hname => ?_⟩, ⟨"main", ?_, ?_⟩, rfl, rfl, rfl, rfl⟩
  · obtain ⟨r, hr, hname, -⟩ := hregistry.known name entry hentry
    have harity : arity name = entry.arity := by
      apply h
      rw [Scope.arity?, hscoped.subprograms, hentry]
      rfl
    have hroutine : s.code.name? entry.routine = some name := by rw [Code.name?_of_routine hr, hname]
    exact ⟨entry, hentry, harity.symm, harity.symm, rfl, hroutine, hroutine⟩
  · rw [hnone] at hsome
    cases hsome
  · obtain ⟨entry, hentry, -⟩ := hnamed g name hname
    rw [hentry]
    rfl
  · obtain ⟨entry, hentry, -⟩ := hnamed g name hname
    rw [hentry]
    rfl
  · rw [hcode]
    rfl
  · rw [hcode]
    rfl

/-- A program with one more `forward` declaration compiles beside the program without it. -/
theorem Trails.program (hformed : p.Formed)
    (harity : ∀ d ∈ p.declarations, ∀ q ∈ d.heading?, q.params.length = arity q.name) {before after : List Node}
    (hsplit : p.declarations = before ++ after) {f : Prototype} (hf : f.params.length = arity f.name) :
    Trails arity 0 0 (Emit.program p)
      (Emit.program { p with declarations := before ++ .forward f :: after }) := by
  have hheld : ∀ place ∈ (∅ : Set BlockRef), place.routine = 0 := fun _ hplace => hplace.elim
  have hdecls : ∀ (ns : List Node) (last : Option Register), (∀ n ∈ ns, n ∈ p.declarations) →
      Trails arity 0 0 (Emit.sequence last ns) (Emit.sequence last ns) := by
    intro ns last hns
    have hfits : Node.AllFit (fun name params => params.length = arity name) .same ns := Node.allFit_iff.mpr fun n hn =>
      (hformed.declarations n (hns n hn)).fits (harity n (hns n hn)) .same
    exact Trails.tandem.sequence_same hfits last (w := (0, 0)) rfl ∅ hheld
  have hbody : Trails arity 0 0 (Emit.node p.body) (Emit.node p.body) :=
    Trails.tandem.node_same (hformed.body.fits fun name _ => Naming.clear_same name) (w := (0, 0)) rfl ∅ hheld
  unfold Emit.program
  rw [hsplit]
  dsimp only
  rw [Emit.sequence_append, Emit.sequence_append, bind_assoc, bind_assoc]
  refine bind (hdecls before none fun n hn => by rw [hsplit]; exact List.mem_append_left _ hn) fun v => ?_
  have hzero : Trails arity 0 0 (Emit.const 0) (Emit.const 0) := Trails.define fun _ => rfl
  have hrest := (hdecls after none fun n hn => by rw [hsplit]; exact List.mem_append_right _ hn).bind
    fun _ => hbody.bind fun _ => hzero.bind fun r => Trails.finish r
  have hforward : (Emit.sequence v (.forward f :: after) : Emit Code _) =
      Emit.forward f >>= fun _ => Emit.sequence none after := by
    change ((Emit.forward f >>= fun _ => Pure.pure none) >>= fun value => Emit.sequence value after) = _
    simp only [bind_assoc, pure_bind]
  rw [Emit.sequence_bind v none after, hforward, bind_assoc]
  exact hrest.insert hf

/-- A subprogram that a program defines may be announced anywhere among the declarations, with other names for its
parameters and as either kind of subprogram: the program compiles as well, and its code runs alike on every input and
within all limits. -/
theorem Program.run_insert_forward {source : String} {p : Program} (hparse : parseProgram source = .ok p) {C : Code}
    (hcode : p.compileInto Code.empty = (.ok (), C)) {heading : Prototype} {body : List Node}
    (hdefined : .subprogram heading body ∈ p.declarations) {before after : List Node}
    (hsplit : p.declarations = before ++ after) {f : Prototype} (hname : f.name = heading.name)
    (hparams : f.params.length = heading.params.length) :
    ∃ C', Program.compileInto { p with declarations := before ++ .forward f :: after } Code.empty = (.ok (), C') ∧
      ∀ input L, C'.run input L = C.run input L := by
  have hresolve := p.compileInto_eq_resolve Code.empty
  rw [hcode] at hresolve
  obtain ⟨arity, hinitial, harity⟩ := Program.exists_arity hresolve.symm
  have hf : f.params.length = arity f.name := by
    rw [hparams, hname]
    exact harity _ hdefined heading rfl
  have htrails := Trails.program (parseProgram_formed hparse) harity hsplit hf
  obtain ⟨-, v, S, hcompiled⟩ := Program.compileInto_spec (κ := Code) rfl trivial hcode
  unfold Program.compileInto EStateM.run at hcode
  cases hrun : Emit.program p (Compilation.start Code.empty) with
  | error e t =>
    rw [hrun] at hcode
    cases hcode
  | ok u t =>
    rw [hrun] at hcode
    obtain rfl : t.code = C := (Prod.mk.inj hcode).2
    obtain ⟨t', hrun', hbeside, -⟩ := htrails _ _ u t (.start hinitial) hrun
    have hcode' : Program.compileInto { p with declarations := before ++ .forward f :: after } Code.empty =
        (.ok (), t'.code) := by
      unfold Program.compileInto EStateM.run
      rw [hrun']
    obtain ⟨-, v', S', hcompiled'⟩ := Program.compileInto_spec (κ := Code) rfl trivial hcode'
    exact ⟨t'.code, hcode', hbeside.code.run hcompiled.main hcompiled'.main⟩

theorem Program.mem_of_definition? {name : String} {heading : Prototype} {body : List Node}
    (h : p.definition? name = some (heading, body)) : .subprogram heading body ∈ p.declarations ∧ heading.name = name := by
  obtain ⟨d, hd, hdefinition⟩ := List.exists_of_findSome?_eq_some h
  cases d with
  | subprogram heading' body' =>
    rw [Node.definition?] at hdefinition
    split at hdefinition
    · next hname =>
      cases hdefinition
      exact ⟨hd, hname⟩
    · cases hdefinition
  | _ => cases hdefinition

/-- A program in which `power` calls `times`, which stands before it. -/
def powers : String := "program p; const base = 3; " ++
  "function times(a: integer; b: integer): integer; begin times := a * b end; " ++
  "function power(x: integer; n: integer): integer; " ++
  "begin if n <= 0 then power := 1 else power := times(x, power(x, n - 1)) end; " ++
  "begin writeln(power(base, 4)) end."

/-- The heading of `power` may come first, even as that of a procedure. -/
theorem run_powers_forward : ∃ p C C', parseProgram powers = .ok p ∧ p.compileInto Code.empty = (.ok (), C) ∧
    Program.compileInto { p with declarations := .forward ⟨.procedure, "power", ["u", "v"]⟩ :: p.declarations } Code.empty =
      (.ok (), C') ∧ ∀ input L, C'.run input L = C.run input L := by
  obtain ⟨C, hC⟩ : ∃ C, compile powers = .ok C := exists_code (by decide +kernel)
  obtain ⟨p, hparse, hcode⟩ := exists_program hC
  have hpower : ((parseProgram powers).toOption.any fun p =>
      (p.definition? "power").any fun z => z.1.params.length == 2) = true := by
    decide +kernel
  rw [hparse, Except.toOption, Option.any_some, Option.any_eq_true] at hpower
  obtain ⟨⟨heading, body⟩, hdefinition, hparams⟩ := hpower
  obtain ⟨hdefined, hname⟩ := Program.mem_of_definition? hdefinition
  obtain ⟨C', hC', hrun⟩ := Program.run_insert_forward hparse hcode hdefined
    (show p.declarations = [] ++ p.declarations from rfl)
    (f := ⟨.procedure, "power", ["u", "v"]⟩) hname.symm (beq_iff_eq.mp hparams).symm
  exact ⟨p, C, C', hparse, hcode, hC', hrun⟩

end Mila
