import Mila.Proofs.Activations

/-! # Correctness of compilation

What a program evaluates to is what its code runs to, unless the run stops at a limit before.
-/

namespace Mila

open Behaviour

/-! ## 1. The names of a program -/

/-- A routine holds the code of a subprogram, which knows no constants besides those in the end. -/
structure Code.Implements (C : Code) (g : Nat) (heading : Prototype) (body : List Node) (G : Globals) :
    Prop where
  shape : heading.Body body
  code : ∃ G₁ v S, Lowered C (.subprogram heading body) (.opened g (Emit.resultNameOf heading) G₁) [v] S ∧
    C.Finishes S v ∧ ∀ name w, G₁.constant? name = some w → G.constant? name = some w

/-- What declarations make of the names of a program. -/
structure Globals.Links (C : Code) (ds : List Node) (G G' : Globals) : Prop where
  constants : ∀ name, G'.constant? name = (G.constant? name).or (ds.findSome? (·.constant? name))
  /-- What is defined stays so, and is not defined again. -/
  old : ∀ name entry, G.subprogram? name = some entry → entry.isDefined = true →
    ds.findSome? (·.definition? name) = none ∧ G'.subprogram? name = some entry
  /-- A definition has its code. -/
  new : ∀ name heading body, ds.findSome? (·.definition? name) = some (heading, body) →
    ∃ entry, G'.subprogram? name = some entry ∧ entry.isDefined = true ∧
      C.Implements entry.routine heading body G'
  /-- There is no other way for a name to be defined. -/
  only : ∀ name entry, ds.findSome? (·.definition? name) = none → G'.subprogram? name = some entry →
    entry.isDefined = true → G.subprogram? name = some entry

namespace Globals.Links

variable {C : Code} {ds ds' : List Node} {G G₁ G₂ : Globals}

theorem nil (G : Globals) : Links C [] G G where
  constants name := (Option.or_none).symm
  old name entry h _ := ⟨rfl, h⟩
  new name heading body h := by cases h
  only name entry _ h _ := h

theorem append (h : Links C ds G G₁) (h' : Links C ds' G₁ G₂) : Links C (ds ++ ds') G G₂ := by
  have hkept : ∀ name w, G₁.constant? name = some w → G₂.constant? name = some w := by
    intro name w hw
    rw [h'.constants, hw]
    rfl
  refine ⟨fun name => ?_, fun name entry hentry hd => ?_, fun name heading body hfind => ?_,
    fun name entry hnone hentry hd => ?_⟩
  · rw [h'.constants, h.constants, List.findSome?_append, Option.or_assoc]
  · obtain ⟨h₁, hentry₁⟩ := h.old name entry hentry hd
    obtain ⟨h₂, hentry₂⟩ := h'.old name entry hentry₁ hd
    rw [List.findSome?_append, h₁, h₂]
    exact ⟨rfl, hentry₂⟩
  · rw [List.findSome?_append] at hfind
    -- a subprogram is defined in the first part or, if it is not there, in the second
    cases hfirst : ds.findSome? (·.definition? name) with
    | none =>
      rw [hfirst, Option.none_or] at hfind
      exact h'.new name heading body hfind
    | some found =>
      rw [hfirst, Option.some_or] at hfind
      obtain ⟨entry, hentry, hd, himpl⟩ := h.new name heading body (hfirst.trans hfind)
      obtain ⟨-, hentry₂⟩ := h'.old name entry hentry hd
      obtain ⟨hshape, G₀, v, S, hlow, hfin, hconst⟩ := himpl
      exact ⟨entry, hentry₂, hd, hshape, G₀, v, S, hlow, hfin, fun n w hw => hkept n w (hconst n w hw)⟩
  · rw [List.findSome?_append, Option.or_eq_none_iff] at hnone
    exact h.only name entry hnone.1 (h'.only name entry hnone.2 hentry hd) hd

/-- A declaration that has nothing to do with the names of the program. -/
theorem still {d : Node} (hconstant : ∀ name, d.constant? name = none)
    (hdefinition : ∀ name, d.definition? name = none) (hG : G₁ = G) : Links C [d] G G₁ := by
  subst hG
  refine ⟨fun name => ?_, fun name entry h _ => ⟨?_, h⟩, fun name heading body h => ?_, fun _ _ _ h _ => h⟩
  · rw [List.findSome?_singleton, hconstant, Option.or_none]
  · rw [List.findSome?_singleton, hdefinition]
  · rw [List.findSome?_singleton, hdefinition] at h
    cases h

theorem constantDecl {name : String} {w : Word} (h : G.defineConstant? name w = some G₁) :
    Links C [.constantDecl name w] G G₁ := by
  have hsame := Globals.subprogram?_defineConstant? h
  refine ⟨fun other => ?_, fun other entry hentry _ => ⟨rfl, (hsame other).trans hentry⟩,
    fun other heading body hfind => (nomatch hfind), fun other entry _ hentry _ => ?_⟩
  swap
  · rw [← hsame]
    exact hentry
  rw [Globals.constant?_defineConstant? h, List.findSome?_singleton, Node.constant?]
  by_cases he : other = name
  · rw [if_pos he, if_pos he.symm, he, Globals.constant?_of_defineConstant? h]
    rfl
  · rw [if_neg he, if_neg (Ne.symm he), Option.or_none]

variable {p : Prototype} {g n : Nat}

theorem forward (h : G.subprogram? p.name = none) : Links C [.forward p] G (G.register p.name ⟨g, n, false⟩) := by
  refine ⟨fun other => Option.or_none.symm, fun other entry hentry _ => ⟨rfl, ?_⟩,
    fun other heading body hfind => (nomatch hfind), fun other entry _ hentry hd => ?_⟩
  · rw [Globals.subprogram?_register, if_neg, hentry]
    rintro rfl
    rw [h] at hentry
    cases hentry
  · rw [Globals.subprogram?_register] at hentry
    split at hentry
    · rw [← Option.some.inj hentry] at hd
      cases hd
    · exact hentry

theorem subprogram {body : List Node} (hnew : ∀ entry, G.subprogram? p.name = some entry → entry.isDefined = false)
    (himpl : C.Implements g p body (G.register p.name ⟨g, n, true⟩)) :
    Links C [.subprogram p body] G (G.register p.name ⟨g, n, true⟩) := by
  refine ⟨fun other => Option.or_none.symm, fun other entry hentry hd => ?_,
    fun other heading body' hfind => ?_, fun other entry hfind hentry hd => ?_⟩
  · -- what was defined before goes by another name
    have hne : other ≠ p.name := by
      rintro rfl
      rw [hnew entry hentry] at hd
      cases hd
    rw [List.findSome?_singleton, Node.definition?, if_neg (Ne.symm hne), Globals.subprogram?_register,
      if_neg hne]
    exact ⟨rfl, hentry⟩
  · rw [List.findSome?_singleton, Node.definition?] at hfind
    split at hfind
    · next he =>
      obtain ⟨rfl, rfl⟩ := Prod.mk.inj (Option.some.inj hfind)
      exact ⟨_, by rw [Globals.subprogram?_register, if_pos he.symm], rfl, himpl⟩
    · cases hfind
  · rw [List.findSome?_singleton, Node.definition?] at hfind
    split at hfind
    · cases hfind
    · next hne =>
      rw [Globals.subprogram?_register, if_neg (Ne.symm hne)] at hentry
      exact hentry

end Globals.Links

namespace Lowered

variable {C : Code} {S S₁ : Site} {rs : List Register}

theorem subprogram_globals {heading : Prototype} {body : List Node} (hbody : heading.Body body)
    (h : Lowered C (.subprogram heading body) S rs S₁) : S₁.globals = S.globals := by
  have hsequence : ∀ {T T' : Site} {rs : List Register}, Lowered C (.node (.block body)) T rs T' →
      T'.globals = T.globals := by
    intro T T' rs hlow
    cases hlow with
    | block hseq =>
      obtain ⟨decls, rest, rfl, hplain⟩ := hbody.split
      obtain ⟨last, T₁, hfirst, hrest⟩ := hseq.sequence_append
      exact (hrest.follows hplain).globals.trans hfirst.variables_globals
  cases h with
  | subprogram _ _ hparams hvalue =>
    rw [← hparams.opens_parameters.2]
    cases hvalue with
    | value hn => exact hsequence hn
    | noValue hn hop => exact (hop.follows trivial).globals.trans (hsequence hn)

theorem links_node {d : Node} (h : Lowered C (.node d) S rs S₁) (hd : d.Declares) :
    Globals.Links C [d] S.globals S₁.globals := by
  cases h with
  | constantDecl hg => exact .constantDecl hg
  | scalarDecl hd' hop hl =>
    exact .still (fun _ => rfl) (fun _ => rfl) (variable_globals (.scalarDecl hd' hop hl))
  | arrayDecl hd' hcells hbias hslot hl =>
    exact .still (fun _ => rfl) (fun _ => rfl) (variable_globals (.arrayDecl hd' hcells hbias hslot hl))
  | forwardKnown _ => exact .still (fun _ => rfl) (fun _ => rfl) rfl
  | forwardNew hnone => exact .forward hnone
  | define hnew hbody hfinish =>
    have hglobals := hbody.subprogram_globals hd
    have himpl : C.Implements _ _ _ _ := ⟨hd, _, _, _, hbody, hfinish, fun _ _ h => h⟩
    have hlinks := Globals.Links.subprogram (fun entry hentry => by rw [hnew entry hentry]) himpl
    exact hglobals ▸ hlinks
  | _ => exact absurd hd id

theorem links {ds : List Node} {last : Option Register} (h : Lowered C (.sequence last ds) S rs S₁)
    (hds : ∀ d ∈ ds, d.Declares) : Globals.Links C ds S.globals S₁.globals := by
  induction ds generalizing S last with
  | nil =>
    cases h
    exact .nil _
  | cons d ds ih =>
    cases h with
    | sequenceCons hn h =>
      exact (hn.links_node (hds d List.mem_cons_self)).append
        (ih h fun d hd => hds d (List.mem_cons_of_mem _ hd))

end Lowered

/-- The names of a program that compiles are those of its declarations. -/
theorem Program.Compiled.links {p : Program} {C : Code} {v : Register} {S : Site} (h : p.Compiled C v S)
    (hformed : p.Formed) : Globals.Links C p.declarations .initial S.globals := by
  cases h.lowered with
  | program hdecls hbody hconst =>
    have hlinks := hdecls.links hformed.declarations
    rw [← (hbody.follows hformed.body).globals, ← (hconst.follows trivial).globals] at hlinks
    exact hlinks

/-! ## 2. Calls -/

namespace Machine

variable {name : String} {args : List Word} {m : Machine}

theorem external_write (hname : name = "writeln" ∨ name = "printi") (value : Word) :
    external name [value] m = .ok 0 { m with output := m.output.push value } := by
  rcases hname with rfl | rfl <;> rfl

theorem external_unknown (hwriteln : name ≠ "writeln") (hprinti : name ≠ "printi") :
    external name args m = .error (.unknownExternal name) m := by
  unfold external
  split
  · exact absurd rfl hwriteln
  · exact absurd rfl hprinti
  · rfl

end Machine

namespace Program.Compiled

variable {p : Program} {C : Code} {v : Register} {S : Site}

theorem phisFirst (h : p.Compiled C v S) : C.PhisFirst := by
  intro b i r L hins
  obtain ⟨S', v', hwhole⟩ := h.whole_of_instruction hins
  exact (hwhole.merge hins).1

theorem constants (h : p.Compiled C v S) (hformed : p.Formed) (name : String) :
    S.globals.constant? name = p.constant? name := by
  rw [(h.links hformed).constants, Globals.constant?_initial]
  rfl

end Program.Compiled

/-- What a routine is there for. -/
inductive Program.Role (p : Program) (C : Code) (G : Globals) (g : Nat) (R : Routine) : Prop where
  | main (hg : g = 0) (hname : R.name = Code.entryPoint)
  | library (hname : R.name = "writeln" ∨ R.name = "printi") (hparams : R.params.length = 1)
      (hexternal : R.isExternal = true)
  | defined {heading : Prototype} {body : List Node} (hmain : R.name ≠ Code.entryPoint)
      (hlibrary : ¬ (R.name = "writeln" ∨ R.name = "printi"))
      (hdefinition : p.definition? R.name = some (heading, body)) (hcode : C.Implements g heading body G)
  | announced (hmain : R.name ≠ Code.entryPoint) (hlibrary : ¬ (R.name = "writeln" ∨ R.name = "printi"))
      (hdefinition : p.definition? R.name = none) (hexternal : R.isExternal = true)

namespace Program.Compiled

variable {p : Program} {C : Code} {v : Register} {S : Site}

theorem role (h : p.Compiled C v S) (hformed : p.Formed) {g : Nat} {R : Routine}
    (hR : C.routines[g]? = some R) : p.Role C S.globals g R := by
  have hlinks := h.links hformed
  obtain ⟨entry, hentry, rfl⟩ := h.registry.named g R hR
  have hinitial := Globals.subprogram?_initial R.name
  -- the names that every program starts with are defined from the start
  have hsame : ∀ e, Globals.initial.subprogram? R.name = some e → e.isDefined = true →
      entry = e := by
    intro e he hd
    obtain ⟨-, hlater⟩ := hlinks.old R.name e he hd
    exact Option.some.inj (hentry.symm.trans hlater)
  by_cases hprinti : R.name = "printi"
  · rw [if_pos hprinti] at hinitial
    obtain rfl := hsame _ hinitial rfl
    obtain rfl := Option.some.inj (h.printi.symm.trans hR)
    exact .library (.inr rfl) rfl rfl
  by_cases hwriteln : R.name = "writeln"
  · rw [if_neg hprinti, if_pos hwriteln] at hinitial
    obtain rfl := hsame _ hinitial rfl
    obtain rfl := Option.some.inj (h.writeln.symm.trans hR)
    exact .library (.inl rfl) rfl rfl
  by_cases hmain : R.name = Code.entryPoint
  · rw [if_neg hprinti, if_neg hwriteln, if_pos hmain] at hinitial
    obtain rfl := hsame _ hinitial rfl
    exact .main rfl hmain
  rw [if_neg hprinti, if_neg hwriteln, if_neg hmain] at hinitial
  have hlibrary : ¬ (R.name = "writeln" ∨ R.name = "printi") := not_or.mpr ⟨hwriteln, hprinti⟩
  cases hdefinition : p.definition? R.name with
  | some found =>
    obtain ⟨heading, body⟩ := found
    obtain ⟨e, he, -, hcode⟩ := hlinks.new R.name heading body hdefinition
    obtain rfl := Option.some.inj (hentry.symm.trans he)
    exact .defined hmain hlibrary hdefinition hcode
  | none =>
    have hundefined : entry.isDefined = false := by
      by_contra hd
      -- a name that the program does not define would have to be one that is there from the start
      have hold := hlinks.only R.name entry hdefinition hentry (Bool.eq_true_of_not_eq_false hd)
      rw [hinitial] at hold
      cases hold
    obtain ⟨R', hR', -, -, hempty⟩ := h.registry.known R.name entry hentry
    obtain rfl := Option.some.inj (hR.symm.trans hR')
    exact .announced hmain hlibrary hdefinition (by rw [hempty hundefined]; rfl)

theorem matches_invoke (h : p.Compiled C v S) (hformed : p.Formed) (n : Nat) (result : Option String) :
    Surroundings.Matches ⟨p.constant?, result, n, p.invoke n⟩ C := by
  induction n generalizing result with
  | zero =>
    -- without calls left the evaluator gives up at once, and nothing is said
    intro g name params args depth m w _ _ _ _
    exact fun k hk => absurd hk (Nat.not_lt_zero k)
  | succ n ih =>
    intro g name params args depth m w hheading hargs hinput houtput
    obtain ⟨R, hR, hnames⟩ := Option.map_eq_some_iff.mp hheading
    obtain ⟨rfl, rfl⟩ := Prod.mk.inj hnames
    change C.Answers (n + 1) g args depth m w.vars (p.invoke (n + 1) R.name args w)
    unfold Program.invoke
    cases h.role hformed hR with
    | main hg hname =>
      subst hg
      have hregion := h.lowered.region (Site.opened_valid 0 none .initial) trivial
      have hwhole : C.Whole 0 S v := ⟨⟨none, .initial, hregion⟩, h.finishes⟩
      rw [if_pos hname]
      refine hwhole.answers hregion hR hinput houtput ?_
      refine Scene.Does.program (E := ⟨C, m.memory, args⟩) h.phisFirst (ih none) hformed rfl ?_
        hwhole.room.1 h.lowered
      intro last S₁ hdecls name value hvalue
      have hlinks := hdecls.links hformed.declarations
      rw [hlinks.constants, show (Site.opened 0 none .initial).globals = .initial from rfl,
        Globals.constant?_initial] at hvalue
      exact hvalue
    | library hname hparams hexternal =>
      obtain ⟨value, rfl⟩ := List.length_eq_one_iff.mp (hargs.trans hparams)
      have hwrites : C.calling g [value] depth m =
          .returned 0 { m with output := m.output.push value } := by
        rw [Code.calling_external hR hexternal]
        funext L t
        rw [Machine.external_write hname]
        rfl
      rw [if_neg (by rcases hname with hname | hname <;> rw [hname] <;> decide), if_pos hname]
      refine ⟨rfl, { m with output := m.output.push value }, by rw [hwrites]; exact .refl _, rfl, hinput, ?_⟩
      change (m.output.push value).toList = w.output ++ [value]
      rw [Array.toList_push, houtput]
    | @defined heading body hmain hlibrary hdefinition hcode =>
      rw [if_neg hmain, if_neg hlibrary, hdefinition]
      obtain ⟨hbody, G, v', S', hlow, hfinishes, hconstants⟩ := hcode
      have hregion := hlow.region (Site.opened_valid g (Emit.resultNameOf heading) G) trivial
      have hwhole : C.Whole g S' v' := ⟨⟨_, G, hregion⟩, hfinishes⟩
      have hlength : args.length = heading.params.length := by
        cases hlow with
        | subprogram hheading' hlength' _ _ =>
          obtain ⟨-, rfl⟩ := Prod.mk.inj (Option.some.inj (hheading.symm.trans hheading'))
          exact hargs.trans hlength'
      -- passing the arguments is the first part of the evaluation
      change C.Answers (n + 1) g args depth m w.vars (Eval.activation (fun _ => none) (do
        modify fun w => { w with vars := Program.pass w.vars heading.params args }
        Eval.sequence ⟨p.constant?, heading.resultName, n, p.invoke n⟩ 0 body) w)
      refine hwhole.answers hregion hR hinput houtput ?_
      refine Scene.Does.subprogram (E := ⟨C, m.memory, args⟩) h.phisFirst (ih heading.resultName) hbody rfl
        ?_ hlength hwhole.room.1 hlow
      intro name value hvalue
      exact (h.constants hformed name).symm.trans (hconstants name value hvalue)
    | announced hmain hlibrary hdefinition hexternal =>
      -- no code and no library routine either: both sides fail for want of the name
      rw [if_neg hmain, if_neg hlibrary, hdefinition]
      have hunknown : C.calling g args depth m = .faulty (.unknownExternal R.name) := by
        rw [Code.calling_external hR hexternal]
        funext L t
        rw [Machine.external_unknown (not_or.mp hlibrary).1 (not_or.mp hlibrary).2]
        rfl
      change Leads 0 (C.calling g args depth m) (.faulty (.unknownExternal R.name))
      rw [hunknown]
      exact .refl _

end Program.Compiled

/-! ## 3. Runs -/

theorem Code.find_entryPoint {C : Code} {params : List String}
    (h : C.heading? 0 = some (Code.entryPoint, params)) : C.find? Code.entryPoint = some 0 := by
  obtain ⟨R, hR, hnames⟩ := Option.map_eq_some_iff.mp h
  obtain ⟨hlt, rfl⟩ := Array.getElem?_eq_some_iff.mp hR
  refine Array.findIdx?_eq_some_iff_getElem.mpr ⟨hlt, ?_, fun j hj => absurd hj (Nat.not_lt_zero j)⟩
  exact beq_iff_eq.mpr (Prod.mk.inj hnames).1

/-- What a run shows of a machine. -/
def Behaviour.shown (result : Except Fault (Word × Machine)) : Except Fault Outcome :=
  result.map fun (v, m) => ⟨v, m.output.toList⟩

/-- A run as a call of the main routine. -/
theorem Code.run_eq {C : Code} (hmain : C.find? Code.entryPoint = some 0) (input : List Word) (L : Limits) :
    C.run input L = shown (C.calling 0 [] 0 ⟨input, #[], #[], 0⟩ L L.steps) := by
  have hagree : ∀ a, Run.Agree L.steps (Machine.execute C L L.steps a) (Machine.exec C L a) :=
    fun a m hm => Machine.agree_execute C L hm a m (Nat.le_refl _)
  unfold Code.run Code.calling
  simp only [hmain]
  rw [(Machine.agree_invoke hagree (Machine.frugal_execute C L _) 0 [] 0).1 _ (Nat.le_refl _)]
  change _ = shown (outcome (Machine.invoke C L (Machine.exec C L) 0 [] 0 ⟨input, #[], #[], L.steps⟩))
  cases Machine.invoke C L (Machine.exec C L) 0 [] 0 ⟨input, #[], #[], L.steps⟩ <;> rfl

namespace Program.Compiled

variable {p : Program} {C : Code} {v : Register} {S : Site}

/-- A run comes out as a behaviour that its call of the main routine leads to, if the limits allow. -/
theorem run_of_leads (h : p.Compiled C v S) {input : List Word} {y : Behaviour}
    {r : Except Fault Outcome} (hlead : Leads 0 (C.calling 0 [] 0 ⟨input, #[], #[], 0⟩) y)
    (hy : ∀ L t, shown (y L t) = r) : ∃ steps depth, ∀ L, (steps ≤ L.steps ∧ depth ≤ L.depth → C.run input L = r) ∧
      (¬ (steps ≤ L.steps ∧ depth ≤ L.depth) → AtLimit L (C.run input L)) := by
  obtain ⟨k, d, -, hlimits⟩ := hlead
  refine ⟨k, d, fun L => ?_⟩
  have hL := hlimits L L.steps
  rw [Code.run_eq (Code.find_entryPoint h.main)]
  constructor
  · intro henough
    rw [if_pos henough] at hL
    rw [hL]
    exact hy L _
  · intro hless
    rw [if_neg hless] at hL
    rcases hL with hL | hL <;> rw [hL]
    · exact .inl rfl
    · exact .inr rfl

/-- What the evaluation with a bound says of all runs. -/
theorem run_of_evaluate (h : p.Compiled C v S) (hformed : p.Formed) (n : Nat) (input : List Word) :
    (∃ r, p.evaluate n input = some r ∧ ∃ steps depth, ∀ L,
      (steps ≤ L.steps ∧ depth ≤ L.depth → C.run input L = r.mapError Failure.fault) ∧
      (¬ (steps ≤ L.steps ∧ depth ≤ L.depth) → AtLimit L (C.run input L))) ∨
    (p.evaluate n input = none ∧ ∀ L, L.steps < n → AtLimit L (C.run input L)) := by
  have hanswers := h.matches_invoke hformed n none 0 Code.entryPoint [] [] 0 ⟨input, #[], #[], 0⟩
    ⟨fun _ => none, input, []⟩ h.main rfl rfl rfl
  change C.Answers n 0 [] 0 _ _ (p.invoke n Code.entryPoint [] ⟨fun _ => none, input, []⟩) at hanswers
  unfold Program.evaluate
  -- the call has an answer, fails, or does not end within the bound
  cases hresult : p.invoke n Code.entryPoint [] ⟨fun _ => none, input, []⟩ with
  | ok value w =>
    rw [hresult] at hanswers
    obtain ⟨-, m, hlead, -, -, houtput⟩ := hanswers
    refine .inl ⟨_, rfl, h.run_of_leads hlead fun L t => ?_⟩
    rw [← houtput]
    rfl
  | error stop w =>
    rw [hresult] at hanswers
    cases stop with
    | failure f => exact .inl ⟨_, rfl, h.run_of_leads hanswers fun L t => rfl⟩
    | timeout =>
      refine .inr ⟨rfl, fun L hsteps => ?_⟩
      rw [Code.run_eq (Code.find_entryPoint h.main)]
      rcases hanswers L.steps hsteps L L.steps (Nat.le_refl _) with hL | hL <;> rw [hL]
      · exact .inl rfl
      · exact .inr rfl
    | exit value => exact hanswers.elim
    | senseless => exact hanswers.elim

/-- A run agrees with the evaluation of the program, unless it stops at a limit, which it does not if the
program has an answer and the limits are high enough. -/
theorem run_agrees (h : p.Compiled C v S) (hformed : p.Formed) (input : List Word) : (∀ L, AtLimit L (C.run input L) ∨
      ∃ r, p.Evaluates input r ∧ C.run input L = r.mapError Failure.fault) ∧
    ∀ r, p.Evaluates input r → ∃ steps depth, ∀ L, steps ≤ L.steps → depth ≤ L.depth →
      C.run input L = r.mapError Failure.fault := by
  constructor
  · intro L
    rcases h.run_of_evaluate hformed (L.steps + 1) input with ⟨r, hr, steps, depth, hruns⟩ | ⟨-, hlimit⟩
    · by_cases henough : steps ≤ L.steps ∧ depth ≤ L.depth
      · exact .inr ⟨r, ⟨_, hr⟩, (hruns L).1 henough⟩
      · exact .inl ((hruns L).2 henough)
    · exact .inl (hlimit L (Nat.lt_succ_self _))
  · rintro r ⟨n, hn⟩
    rcases h.run_of_evaluate hformed n input with ⟨r', hr, steps, depth, hruns⟩ | ⟨hnone, -⟩
    · obtain rfl := Option.some.inj (hn.symm.trans hr)
      exact ⟨steps, depth, fun L hsteps hdepth => (hruns L).1 ⟨hsteps, hdepth⟩⟩
    · rw [hnone] at hn
      cases hn

/-- A run that fails does so at a limit or as the program says, and not for want of a routine, a block, an exit, a
register, an argument or a cell. -/
theorem run_fault (h : p.Compiled C v S) (hformed : p.Formed) {input : List Word} {L : Limits} {fault : Fault}
    (hrun : C.run input L = .error fault) :
    fault ≠ .missingEntryPoint ∧ ∀ defect, fault ≠ .malformed defect := by
  rcases (h.run_agrees hformed input).1 L with (hlimit | hlimit) | ⟨r, -, hr⟩
  · rw [Except.error.inj (hrun.symm.trans hlimit)]
    exact ⟨Fault.noConfusion, fun _ => Fault.noConfusion⟩
  · rw [Except.error.inj (hrun.symm.trans hlimit)]
    exact ⟨Fault.noConfusion, fun _ => Fault.noConfusion⟩
  · cases r with
    | ok outcome => cases hrun.symm.trans hr
    | error failure =>
      rw [Except.error.inj (hrun.symm.trans hr)]
      cases failure <;> exact ⟨Fault.noConfusion, fun _ => Fault.noConfusion⟩

end Program.Compiled

end Mila
