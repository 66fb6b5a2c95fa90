import Mila.Proofs.Contents
import Mila.Proofs.Parts
import Mila.Proofs.Rounds
import Mila.Proofs.Sources

/-! # The counting loops of a program

Each counting loop of a source text stands in the code that it is compiled to, with a bound that is an
expression. So the laws of counting loops hold of all loops of all programs.
-/

namespace Mila

/-! ## 1. Loops in trees -/

mutual

/-- The counting loops in a node. -/
def Node.countingLoops : Node → List Node
  | .element _ index => index.countingLoops
  | .binary _ lhs rhs => lhs.countingLoops ++ rhs.countingLoops
  | .conditional condition thenArm elseArm =>
    condition.countingLoops ++ (thenArm.countingLoops ++ elseArm.countingLoops)
  | .whileLoop condition body => condition.countingLoops ++ body.countingLoops
  | .forLoop name direction start stop body => .forLoop name direction start stop body ::
    (start.countingLoops ++ (stop.countingLoops ++ body.countingLoops))
  | .call _ args => Node.allCountingLoops args
  | .subprogram _ body => Node.allCountingLoops body
  | .block nodes => Node.allCountingLoops nodes
  | _ => []

def Node.allCountingLoops : List Node → List Node
  | [] => []
  | first :: rest => first.countingLoops ++ Node.allCountingLoops rest

end

def Program.countingLoops (p : Program) : List Node :=
  Node.allCountingLoops p.declarations ++ p.body.countingLoops

def Phrase.countingLoops : Phrase → List Node
  | .node n | .value n | .target n => n.countingLoops
  | .sequence _ nodes | .arguments nodes | .subprogram _ nodes => Node.allCountingLoops nodes
  | .program p => p.countingLoops
  | _ => []

/-- The start value and the bound of a counting loop are expressions. -/
def Node.BoundedLoop : Node → Prop
  | .forLoop _ _ start stop _ => start.IsExpression ∧ stop.IsExpression
  | _ => True

/-- A counting loop stands in the code. -/
def Code.Counts (C : Code) (n : Node) : Prop := ∃ F : CountingLoop, F.In C ∧ F.node = n

def Node.isCountingLoop : Node → Bool
  | .forLoop _ _ _ _ _ => true
  | _ => false

variable {ph : Phrase} {S' : Site} {nodes : List Node}

/-- The loops of plain code are those parts of it that are loops. -/
theorem Lowered.countingLoops_eq {C : Code} {S : Site} {rs : List Register}
    (h : Lowered C ph S rs S') (hplain : ph.Plain) : ph.countingLoops = ph.parts.filter Node.isCountingLoop := by
  -- the loops are put together in the same order as the parts
  have happend : ∀ {l₁ l₂ k₁ k₂ : List Node}, l₁ = k₁.filter Node.isCountingLoop →
      l₂ = k₂.filter Node.isCountingLoop → l₁ ++ l₂ = (k₁ ++ k₂).filter Node.isCountingLoop := by
    rintro _ _ k₁ k₂ rfl rfl
    exact (List.filter_append k₁ k₂).symm
  induction h with
  | value _ ih | targetElement _ _ _ ih _ | noValue _ _ ih _ | element _ _ ih _ | call _ _ _ _ _ ih _
  | block _ ih => exact ih hplain
  | assign _ _ _ ih₁ ih₂ _ => exact happend (ih₂ hplain.1) (ih₁ hplain.2)
  | binary hop _ _ _ ih₁ ih₂ _ =>
    rw [Phrase.parts, Node.parts, if_neg hop]
    exact happend (ih₁ hplain.1) (ih₂ hplain.2)
  | sequenceCons _ _ ih₁ ih₂ | argumentsCons _ _ ih₁ ih₂ => exact happend (ih₁ hplain.1) (ih₂ hplain.2)
  | whileLoop _ _ _ _ _ _ _ ih₁ _ ih₃ _ => exact happend (ih₁ hplain.1) (ih₃ hplain.2)
  | conditional _ _ _ _ _ _ _ _ ih₁ _ ih₃ ih₄ =>
    exact happend (ih₁ hplain.1) (happend (ih₃ hplain.2.1) (ih₄ hplain.2.2))
  | forLoop _ _ _ _ _ _ _ _ _ _ _ _ _ _ _ _ ih₁ _ ih₃ _ _ _ ih₇ _ _ _ _ _ =>
    exact congrArg (_ :: ·) (happend (ih₁ hplain.1) (happend (ih₃ hplain.2.1) (ih₇ hplain.2.2)))
  | constantDecl _ | scalarDecl _ _ _ _ | arrayDecl _ _ _ _ _ _ _ _ | forwardKnown _ | forwardNew _
  | define _ _ _ _ | parametersNil | parametersCons _ _ _ _ _ _ _ _ _ | program _ _ _ _ _ _
  | subprogram _ _ _ _ _ _ => exact absurd hplain id
  | _ => rfl

/-- The loops of plain code stand in it. -/
theorem Lowered.counts {C : Code} {S : Site} {rs : List Register}
    (h : Lowered C ph S rs S') (hregistered : C.Registered) (hplain : ph.Plain) (hv : S.Valid)
    (hslots : S.Slotted) : ∀ n ∈ ph.countingLoops, n.BoundedLoop → C.Counts n := by
  intro n hn hbounded
  rw [h.countingLoops_eq hplain, List.mem_filter] at hn
  obtain ⟨T, rs', T', hT, hcode, hself⟩ := h.parts hplain hv hn.1
  cases n with
  | forLoop name direction start stop body =>
    cases hcode with
    | forLoop hname hstart hset hstop hstep hjump hfirst htest hfork hbody hload hnext hstore hagain hback hrest =>
      exact Lowered.countingLoop (.forLoop hname hstart hset hstop hstep hjump hfirst htest hfork hbody hload
        hnext hstore hagain hback hrest) hT.valid (hslots.follow hT.toFollows) hself hbounded.1 hbounded.2
        hregistered
  | _ => cases hn.2

/-! ## 2. Loops in programs -/

theorem Node.mem_allCountingLoops {n : Node} :
    n ∈ Node.allCountingLoops nodes ↔ ∃ node ∈ nodes, n ∈ node.countingLoops := by
  induction nodes with
  | nil => simp [Node.allCountingLoops]
  | cons first rest ih => simp [Node.allCountingLoops, ih]

namespace Lowered

variable {C : Code} {S S₁ : Site} {rs : List Register} {last : Option Register}

/-- The loops of the statements behind some declarations. -/
theorem counts_statements {ds rest : List Node} (h : Lowered C (.sequence last (ds ++ rest)) S rs S₁)
    (hregistered : C.Registered) (hds : ∀ d ∈ ds, d.Declares) (hplain : Node.AllPlain rest) (hv : S.Valid)
    (hslots : S.Slotted) : ∀ n ∈ Node.allCountingLoops rest, n.BoundedLoop → C.Counts n := by
  obtain ⟨last', S₂, hfirst, hrest⟩ := h.sequence_append
  exact hrest.counts hregistered hplain ((hfirst.region hv trivial).valid hv)
    ((hfirst.opens_sequence hds).slots hslots)

theorem counts_subprogram {heading : Prototype} {body : List Node} {g : Nat} {name : Option String}
    {G : Globals} {v : Register} (h : Lowered C (.subprogram heading body) (.opened g name G) [v] S₁)
    (hregistered : C.Registered) (hbody : heading.Body body) :
    ∀ n ∈ Node.allCountingLoops body, n.BoundedLoop → C.Counts n := by
  intro n hn hbounded
  obtain ⟨decls, rest, rfl, hplain⟩ := hbody.split
  obtain ⟨S₂, rs', S₃, hparams, hv, hseq⟩ := h.subprogram_body (Site.opened_valid g name G)
  have hslots : S₂.Slotted := hparams.opens_parameters.1.slots (Site.opened_slotted g name G)
  refine hseq.counts_statements hregistered (Node.declares_variables decls) hplain hv hslots n ?_ hbounded
  obtain ⟨node, hnode, hn⟩ := Node.mem_allCountingLoops.mp hn
  rcases List.mem_append.mp hnode with hnode | hnode
  · obtain ⟨d, -, rfl⟩ := List.mem_map.mp hnode
    cases hn
  · exact Node.mem_allCountingLoops.mpr ⟨node, hnode, hn⟩

theorem counts_declaration {d : Node} (h : Lowered C (.node d) S rs S₁) (hregistered : C.Registered)
    (hd : d.Declares) : ∀ n ∈ d.countingLoops, n.BoundedLoop → C.Counts n := by
  intro n hn hbounded
  cases h with
  | define _ hbody _ => exact hbody.counts_subprogram hregistered hd n hn hbounded
  | constantDecl _ | scalarDecl _ _ _ | arrayDecl _ _ _ _ _ | forwardKnown _ | forwardNew _ => cases hn
  | _ => exact absurd hd id

theorem counts_declarations {ds : List Node} (h : Lowered C (.sequence last ds) S rs S₁)
    (hregistered : C.Registered) (hds : ∀ d ∈ ds, d.Declares) :
    ∀ n ∈ Node.allCountingLoops ds, n.BoundedLoop → C.Counts n := by
  induction ds generalizing S last with
  | nil => exact fun n hn => by cases hn
  | cons d ds ih =>
    intro n hn
    cases h with
    | sequenceCons hfirst hrest =>
      rcases List.mem_append.mp hn with hn | hn
      · exact hfirst.counts_declaration hregistered (hds d List.mem_cons_self) n hn
      · exact ih hrest (fun d hd => hds d (List.mem_cons_of_mem _ hd)) n hn

end Lowered

namespace Program.Compiled

variable {p : Program} {C : Code} {v : Register} {S : Site}

/-- Every counting loop of a program stands in its code. -/
theorem counts (h : p.Compiled C v S) (hp : p.Formed) : ∀ n ∈ p.countingLoops, n.BoundedLoop → C.Counts n := by
  intro n hn
  have hv := Site.opened_valid 0 none .initial
  cases h.lowered with
  | program hdecls hbody _ =>
    rcases List.mem_append.mp hn with hn | hn
    · exact hdecls.counts_declarations h.registered hp.declarations n hn
    · refine hbody.counts h.registered hp.body ((hdecls.region hv trivial).valid hv) ?_ n hn
      exact (hdecls.opens_sequence hp.declarations).slots (Site.opened_slotted 0 none .initial)

end Program.Compiled

/-! ## 3. Loops in source texts -/

mutual

theorem Node.IsExpression.countingLoops : ∀ {n : Node}, n.IsExpression → n.countingLoops = []
  | .number _, _ | .ident _, _ => rfl
  | .element _ index, h => Node.IsExpression.countingLoops (n := index) h
  | .binary _ lhs rhs, h => by
    rw [Node.countingLoops, Node.IsExpression.countingLoops h.2.1, Node.IsExpression.countingLoops h.2.2]
    rfl
  | .call _ args, h => by
    have hargs : Node.AllExpressions args := h
    exact Node.AllExpressions.countingLoops hargs

theorem Node.AllExpressions.countingLoops : ∀ {nodes : List Node}, Node.AllExpressions nodes →
    Node.allCountingLoops nodes = []
  | [], _ => rfl
  | first :: rest, h => by
    rw [Node.allCountingLoops, Node.IsExpression.countingLoops h.1, Node.AllExpressions.countingLoops h.2]
    rfl

end

namespace Grammar

end Grammar

end Mila
