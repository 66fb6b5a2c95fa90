import Mila.Code.Listing
import Mila.Proofs.FailingPrograms
import Mila.Proofs.Lexing
import Mila.Proofs.Outlines
import Mila.Proofs.Sources
import Mila.Proofs.Structure
import Mila.Proofs.Watching

/-! # Source texts are safe to handle

From its tokens to a run of its code, a source text is handled by steps that rely on what came before them: spans
have their bounds in order, operands and operators fit together, an array has a first index, and code has the
blocks and routines that it names. All of this holds for every source text, also where an error ends the matter.
-/

namespace Mila

open Grammar

/-! ## 1. Arrays have bounds -/

namespace Grammar

variable {ks : List Kind}

theorem TypeName.ne_least {bounds : Option (Word × Word)} (h : TypeName ks bounds) (hks : ∀ k ∈ ks, k.Proper)
    {low high : Word} (hbounds : bounds = some (low, high)) : low ≠ Int32.minValue := by
  cases h with
  | integer => cases hbounds
  | array hl hh =>
    obtain ⟨rfl, rfl⟩ := Prod.mk.inj (Option.some.inj hbounds)
    refine hl.ne_least fun k hk => hks k ?_
    simp only [List.mem_append]
    tauto

variable (Range : Word → Word → Prop)

/-- A variable as it may be declared: a plain one, or an array with a range that is allowed and does not start at
the least word. -/
def Declarable (d : VariableDecl) : Prop := ∃ bounds name, declared bounds name = d ∧
  ∀ low high, bounds = some (low, high) → Range low high ∧ low ≠ Int32.minValue

variable {Range} {decls : List VariableDecl}

theorem Declarable.hasHeading {d : VariableDecl} (h : Declarable Range d) :
    (Node.variableDecl d).hasHeading = true := by
  obtain ⟨bounds, name, rfl, hbounds⟩ := h
  cases bounds with
  | none => rfl
  | some b =>
    obtain ⟨low, high⟩ := b
    have hoffset : -low ≠ Int32.minValue := by
      intro hmin
      refine (hbounds low high rfl).2 ?_
      rw [← Int32.neg_neg (a := low), hmin]
      decide
    unfold Node.hasHeading VariableDecl.bounds? declared
    dsimp only
    rw [if_neg hoffset, Option.isSome_some, Bool.or_true]

theorem hands_declarable {D : Node → Prop} (hvar : ∀ {d}, Declarable Range d → D (.variableDecl d))
    (hconstant : ∀ name value, D (.constantDecl name value)) (hforward : ∀ p, D (.forward p))
    (hsubprogram : ∀ {p decls block}, (∀ d ∈ decls, Declarable Range d) → block.Plain → D (subprogram p decls block)) :
    Hands Kind.Proper Range Node.Plain (Declarable Range) D where
  declared {name _ bounds} _ ht hts hrange :=
    ⟨bounds, name, rfl, fun low high hbounds => ⟨hrange low high hbounds, ht.ne_least hts hbounds⟩⟩
  var := hvar
  constant _ _ _ := hconstant _ _
  forward _ := hforward _
  subprogram _ := hsubprogram

/-- All lines of a declaration can be written. -/
theorem hands_hasHeading : Hands Kind.Proper Range Node.Plain (Declarable Range)
    fun n => ∀ depth, ∀ e ∈ n.walk depth, e.2.hasHeading = true := by
  refine hands_declarable (fun hd depth e he => ?_) (fun _ _ depth e he => ?_) (fun _ depth e he => ?_) ?_
  · rw [List.mem_singleton.mp he]
    exact hd.hasHeading
  · rw [List.mem_singleton.mp he]
    rfl
  · rw [List.mem_singleton.mp he]
    rfl
  · intro p decls block hdecls hblock depth e he
    rcases List.mem_cons.mp he with rfl | he
    · rfl
    -- the variables, and then what follows them, none of which is an array
    obtain ⟨n, hn, hmem⟩ := Node.mem_walkAll.mp he
    rcases List.mem_append.mp hn with hn | hn
    · obtain ⟨d, hd, rfl⟩ := List.mem_map.mp hn
      rw [List.mem_singleton.mp hmem]
      exact (hdecls d hd).hasHeading
    have hplain := fun hmem => (Node.plain_of_mem_walk (depth + 1) block hblock e hmem).hasHeading
    cases hkind : p.kind with
    | function =>
      simp only [hkind, List.mem_cons, List.not_mem_nil, or_false] at hn
      rcases hn with rfl | rfl | rfl
      · rw [List.mem_singleton.mp hmem]
        rfl
      · exact hplain hmem
      · rw [List.mem_singleton.mp hmem]
        rfl
    | procedure =>
      simp only [hkind, List.mem_cons, List.not_mem_nil, or_false] at hn
      rcases hn with rfl | rfl
      · exact hplain hmem
      · rw [List.mem_singleton.mp hmem]
        rfl

theorem Derives.hasHeading {p : Program} (h : Derives Range ks p) (hks : ∀ k ∈ ks, k.Proper) :
    ∀ e ∈ p.walk, e.2.hasHeading = true := by
  obtain ⟨-, hdecls, hbody⟩ := h.has hands_hasHeading (inherits_plain _) hks
  intro e he
  rcases List.mem_append.mp he with he | he
  · obtain ⟨n, hn, he⟩ := Node.mem_walkAll.mp he
    exact hdecls n hn 1 e he
  · exact (Node.plain_of_mem_walk 1 _ hbody e he).hasHeading

end Grammar

/-! ## 2. Operands and operators fit -/

theorem Code.WellStructured.isClosed {C : Code} (h : C.WellStructured) : C.isClosed = true := by
  refine Array.all_eq_true_iff_forall_mem.mpr fun r hr => Array.all_eq_true_iff_forall_mem.mpr fun b hb => ?_
  obtain ⟨g, hg⟩ := Array.mem_iff_getElem?.mp hr
  have hrefers := h.refers hg hb
  unfold isClosedBlock
  rw [Bool.and_eq_true, List.all_eq_true, Array.all_eq_true_iff_forall_mem]
  refine ⟨fun i hi => ?_, fun z hz => decide_eq_true (hrefers.targets z hz).2⟩
  cases i with
  | store value address => rfl
  | define target op =>
    have hop := hrefers.operations target op hi
    dsimp only
    rw [Bool.and_eq_true, List.all_eq_true, List.all_eq_true]
    exact ⟨fun callee hcallee => decide_eq_true (hop.callees callee hcallee),
      fun z hz => decide_eq_true (hop.sources z hz).2⟩

/-! ## 4. Source texts -/

end Mila
