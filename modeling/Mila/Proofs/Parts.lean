import Mila.Proofs.Constructs

/-! # The code of the parts of a node

What is emitted for a node within another one stands in the code of that, at a site where the same names are in
force. So what is to be said of a kind of node wherever it occurs is said once, of its own code.
-/

namespace Mila

/-! ## 1. Parts -/

mutual

/-- The nodes within a node that code is emitted for, itself included. Of the target of an assignment this is only
an index. -/
def Node.parts : Node → List Node
  | .element name index => .element name index :: index.parts
  | .binary op lhs rhs =>
    .binary op lhs rhs :: ((if op = .assign then lhs.targetParts else lhs.parts) ++ rhs.parts)
  | .conditional condition thenArm elseArm => .conditional condition thenArm elseArm ::
    (condition.parts ++ (thenArm.parts ++ elseArm.parts))
  | .whileLoop condition body => .whileLoop condition body :: (condition.parts ++ body.parts)
  | .forLoop name direction start stop body => .forLoop name direction start stop body ::
    (start.parts ++ (stop.parts ++ body.parts))
  | .call callee args => .call callee args :: Node.allParts args
  | .block nodes => .block nodes :: Node.allParts nodes
  | n => [n]

def Node.targetParts : Node → List Node
  | .element _ index => index.parts
  | _ => []

def Node.allParts : List Node → List Node
  | [] => []
  | first :: rest => first.parts ++ Node.allParts rest

end

def Phrase.parts : Phrase → List Node
  | .node n | .value n => n.parts
  | .target n => n.targetParts
  | .sequence _ nodes | .arguments nodes => Node.allParts nodes
  | _ => []

/-! ## 2. Sites within the code of a phrase -/

/-- A site where code is emitted that belongs to the code from another site on. -/
structure Site.Reaches (S T : Site) : Prop extends S.Follows T where
  valid : T.Valid
  blocks : S.blocks ≤ T.blocks
  place : (T.block = S.block ∧ S.index ≤ T.index) ∨ S.blocks ≤ T.block

namespace Site.Reaches

variable {C : Code} {S S' T : Site}

theorem refl (hv : S.Valid) : S.Reaches S := ⟨.refl S, hv, Nat.le_refl _, .inl ⟨rfl, Nat.le_refl _⟩⟩

theorem trans (h : S.Reaches S') (h' : S'.Reaches T) : S.Reaches T := by
  refine ⟨h.toFollows.trans h'.toFollows, h'.valid, h.blocks.trans h'.blocks, ?_⟩
  have hblocks := h.blocks
  have hplace := h.place
  have hplace' := h'.place
  omega

/-- A block that was added. -/
theorem move (h : S.Reaches T) (hv : S.Valid) {x : Nat} (hx : S.blocks ≤ x) (hlt : x < T.blocks) :
    S.Reaches (T.move x) :=
  ⟨Site.Follows.move_right.mpr h.toFollows, h.valid.move hlt (by have := hv.blocks; omega), h.blocks, .inr hx⟩

theorem grow (h : S.Reaches T) (k : Nat) : S.Reaches (T.grow k) :=
  ⟨Site.Follows.grow_right.mpr h.toFollows, h.valid.grow k, h.blocks.trans (Nat.le_add_right _ _), h.place⟩

theorem shadow (h : S.Reaches T) {name : String} {b : Binding} (hb : S.locals.get? name = some b) :
    S.Reaches { T with locals := (T.locals.shadow name b).2 } := by
  rw [← h.locals] at hb
  exact ⟨h.toFollows.trans (.shadow hb), ⟨h.valid.blocks, h.valid.block, h.valid.notReturn⟩, h.blocks, h.place⟩

end Site.Reaches

variable {ph : Phrase} {rs : List Register} {n : Node}

theorem Lowered.reaches {C : Code} {S S' : Site} (h : Lowered C ph S rs S')
    (hplain : ph.Plain) (hv : S.Valid) (hfits : ph.Fits C S.routine) : S.Reaches S' := by
  have hregion := h.region hv hfits
  exact ⟨h.follows hplain, hregion.valid hv, hregion.blocks, hregion.place.imp id And.left⟩

/-- The code of a node stands within the code from a site on. -/
def Code.Contains (C : Code) (S : Site) (n : Node) : Prop :=
  ∃ T rs T', S.Reaches T ∧ Lowered C (.node n) T rs T' ∧ n.Plain

theorem Code.Contains.before {C : Code} {S S₁ : Site} (h : C.Contains S₁ n) (hS : S.Reaches S₁) : C.Contains S n := by
  obtain ⟨T, rs, T', hT, hn, hplain⟩ := h
  exact ⟨T, rs, T', hS.trans hT, hn, hplain⟩

/-- The code of each part of a phrase stands within the code of the phrase. -/
theorem Lowered.parts {C : Code} {S S' : Site} (h : Lowered C ph S rs S')
    (hplain : ph.Plain) (hv : S.Valid) (hn : n ∈ ph.parts) : C.Contains S n := by
  have hself : ∀ {m : Node} {T T' : Site} {rs : List Register}, T.Valid → Lowered C (.node m) T rs T' → m.Plain →
      C.Contains T m := fun hv h hplain => ⟨_, _, _, .refl hv, h, hplain⟩
  -- a part is the node itself, or a part of what is emitted within it, at a site that is reached from there
  induction h with
  | value _ ih | targetElement _ _ _ ih _ | noValue _ _ ih _ => exact ih hplain hv hn
  | number h _ =>
    rw [List.mem_singleton.mp hn]
    exact hself hv (.number h) hplain
  | readVariable hb h _ =>
    rw [List.mem_singleton.mp hn]
    exact hself hv (.readVariable hb h) hplain
  | readConstant hb hw h _ =>
    rw [List.mem_singleton.mp hn]
    exact hself hv (.readConstant hb hw h) hplain
  | intrinsic hb h _ =>
    rw [List.mem_singleton.mp hn]
    exact hself hv (.intrinsic hb h) hplain
  | exit hresult hleave h _ _ =>
    rw [List.mem_singleton.mp hn]
    exact hself hv (.exit hresult hleave h) hplain
  | element hslot h ih _ =>
    rcases List.mem_cons.mp hn with rfl | hn
    · exact hself hv (.element hslot h) hplain
    · exact ih hplain hv hn
  | call hentry hheading hparams hargs h ih _ =>
    rcases List.mem_cons.mp hn with rfl | hn
    · exact hself hv (.call hentry hheading hparams hargs h) hplain
    · exact ih hplain hv hn
  | block h ih =>
    rcases List.mem_cons.mp hn with rfl | hn
    · exact hself hv (.block h) hplain
    · exact ih hplain hv hn
  | assign hvalue hslot hstore ih₁ ih₂ _ =>
    have h₁ := hvalue.reaches hplain.2 hv trivial
    rcases List.mem_cons.mp hn with rfl | hn
    · exact hself hv (.assign hvalue hslot hstore) hplain
    · rcases List.mem_append.mp hn with hn | hn
      · exact (ih₂ hplain.1 h₁.valid hn).before h₁
      · exact ih₁ hplain.2 hv hn
  | binary hop hl hr h ih₁ ih₂ _ =>
    have h₁ := hl.reaches hplain.1 hv trivial
    rcases List.mem_cons.mp hn with rfl | hn
    · exact hself hv (.binary hop hl hr h) hplain
    · rw [if_neg hop] at hn
      rcases List.mem_append.mp hn with hn | hn
      · exact ih₁ hplain.1 hv hn
      · exact (ih₂ hplain.2 h₁.valid hn).before h₁
  | sequenceCons hfirst _ ih₁ ih₂ | argumentsCons hfirst _ ih₁ ih₂ =>
    have h₁ := hfirst.reaches hplain.1 hv trivial
    rcases List.mem_append.mp hn with hn | hn
    · exact ih₁ hplain.1 hv hn
    · exact (ih₂ hplain.2 h₁.valid hn).before h₁
  | @conditional _ _ _ _ _ _ _ S S₁ S₂ S₃ S₄ hc hb hfork ht htend he heend hphi ih₁ _ ih₃ ih₄ =>
    have h₁ := hc.reaches hplain.1 hv trivial
    have h₂ := h₁.trans (hb.reaches trivial h₁.valid trivial)
    have hfirst := (h₂.grow 3).move hv h₂.blocks (show S₂.blocks < S₂.blocks + 3 by omega)
    have harm := ht.reaches hplain.2.1 hfirst.valid trivial
    have hblocks : S₂.blocks + 3 ≤ S₃.blocks := harm.blocks
    rcases List.mem_cons.mp hn with rfl | hn
    · exact hself hv (.conditional hc hb hfork ht htend he heend hphi) hplain
    · rcases List.mem_append.mp hn with hn | hn
      · exact ih₁ hplain.1 hv hn
      · rcases List.mem_append.mp hn with hn | hn
        · exact (ih₃ hplain.2.1 hfirst.valid hn).before hfirst
        · have hsecond := (hfirst.trans harm).move hv (x := S₂.blocks + 1) (by have := h₂.blocks; omega) (by omega)
          exact (ih₄ hplain.2.2 hsecond.valid hn).before hsecond
  | @whileLoop _ _ _ _ _ _ S S₁ S₂ S₃ S₄ hstart hc hb hfork hbody hback h ih₁ _ ih₃ _ =>
    have hfirst := ((Site.Reaches.refl hv).grow 3).move hv (Nat.le_refl _) (show S.blocks < S.blocks + 3 by omega)
    have hcondition := hc.reaches hplain.1 hfirst.valid trivial
    have htest := hcondition.trans (hb.reaches trivial hcondition.valid trivial)
    have hblocks : S.blocks + 3 ≤ S₂.blocks := htest.blocks
    rcases List.mem_cons.mp hn with rfl | hn
    · exact hself hv (.whileLoop hstart hc hb hfork hbody hback h) hplain
    · rcases List.mem_append.mp hn with hn | hn
      · exact (ih₁ hplain.1 hfirst.valid hn).before hfirst
      · have hround := (hfirst.trans htest).move hv (x := S.blocks + 1) (by omega) (by omega)
        exact (ih₃ hplain.2 hround.valid hn).before hround
  | @forLoop name _ _ _ _ slot _ _ _ _ _ _ _ _ _ _ S S₁ S₂ S₃ S₄ S₅ S₆ _ _ _ _ _ _ hname hstart hset hstop hstep
      hjump hfirst htest hfork hbody hload hnext hstore hagain hback h ih₁ _ ih₃ _ _ _ ih₇ _ _ _ _ _ =>
    have h₁ := hstart.reaches hplain.1 hv trivial
    have h₂ := h₁.trans (hset.reaches trivial h₁.valid trivial)
    have h₃ := h₂.trans (hstop.reaches hplain.2.1 h₂.valid trivial)
    have h₄ := h₃.trans (hstep.reaches trivial h₃.valid trivial)
    have hcheck := (h₄.grow 3).move hv h₄.blocks (show S₄.blocks < S₄.blocks + 3 by omega)
    have h₅ := hfirst.reaches trivial hcheck.valid trivial
    have h₆ := h₅.trans (htest.reaches trivial h₅.valid trivial)
    have hblocks : S₄.blocks + 3 ≤ S₆.blocks := h₆.blocks
    rcases List.mem_cons.mp hn with rfl | hn
    · exact hself hv (.forLoop hname hstart hset hstop hstep hjump hfirst htest hfork hbody hload hnext hstore
        hagain hback h) hplain
    · rcases List.mem_append.mp hn with hn | hn
      · exact ih₁ hplain.1 hv hn
      · rcases List.mem_append.mp hn with hn | hn
        · exact (ih₃ hplain.2.1 h₂.valid hn).before h₂
        · -- the rounds have a block of their own, where the variable of the loop is bound as before
          have hround := (hcheck.trans h₆).move hv (x := S₄.blocks + 1) (by have := h₄.blocks; omega) (by omega)
          have hheld := hround.shadow hname
          exact (ih₇ hplain.2.2 hheld.valid hn).before hheld
  | constantDecl _ | scalarDecl _ _ _ _ | arrayDecl _ _ _ _ _ _ _ _ | forwardKnown _ | forwardNew _
  | define _ _ _ _ | parametersNil | parametersCons _ _ _ _ _ _ _ _ _ | program _ _ _ _ _ _
  | subprogram _ _ _ _ _ _ => exact absurd hplain id
  | _ => cases hn

end Mila
