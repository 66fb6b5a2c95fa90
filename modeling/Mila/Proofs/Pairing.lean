import Mathlib

/-! # Computations in pairs

Two computations, each with a state of its own, that succeed or fail together. A relation between the states
before, and one between the results and the states after, say how the two correspond.
-/

namespace Mila

variable {ε σ σ' α β γ δ : Type}

/-- Two results that correspond: both are successes, or both are failures with the same error. -/
inductive Alike (Q : α → β → σ → σ' → Prop) (F : σ → σ' → Prop) :
    EStateM.Result ε σ α → EStateM.Result ε σ' β → Prop where
  | ok {a : α} {b : β} {s : σ} {s' : σ'} (h : Q a b s s') : Alike Q F (.ok a s) (.ok b s')
  | error (e : ε) {s : σ} {s' : σ'} (h : F s s') : Alike Q F (.error e s) (.error e s')

/-- From states that correspond two computations come to results that correspond. -/
def Paired (P : σ → σ' → Prop) (m : EStateM ε σ α) (m' : EStateM ε σ' β) (Q : α → β → σ → σ' → Prop)
    (F : σ → σ' → Prop) : Prop := ∀ s s', P s s' → Alike Q F (m s) (m' s')

namespace Paired

variable {P : σ → σ' → Prop} {Q : α → β → σ → σ' → Prop} {R : γ → δ → σ → σ' → Prop}
  {F : σ → σ' → Prop} {m : EStateM ε σ α} {m' : EStateM ε σ' β} {k : α → EStateM ε σ γ}
  {k' : β → EStateM ε σ' δ}

theorem pure {a : α} {b : β} (h : ∀ s s', P s s' → Q a b s s') :
    Paired P (Pure.pure a : EStateM ε σ α) (Pure.pure b) Q F := fun s s' hs => .ok (h s s' hs)

theorem throw (h : ∀ s s', P s s' → F s s') (e : ε) :
    Paired P (MonadExcept.throw e : EStateM ε σ α) (MonadExcept.throw e) Q F :=
  fun s s' hs => .error e (h s s' hs)

theorem bind (hm : Paired P m m' Q F) (hk : ∀ a b, Paired (Q a b) (k a) (k' b) R F) :
    Paired P (m >>= k) (m' >>= k') R F := by
  intro s s' hs
  change Alike R F (EStateM.bind m k s) (EStateM.bind m' k' s')
  unfold EStateM.bind
  have hresults := hm s s' hs
  generalize m s = r, m' s' = r' at hresults ⊢
  cases hresults with
  | ok hq => exact hk _ _ _ _ hq
  | error e hf => exact .error e hf

theorem get {k : σ → EStateM ε σ γ} {k' : σ' → EStateM ε σ' δ} (hk : ∀ s s', P s s' → Paired P (k s) (k' s') R F) :
    Paired P (MonadState.get >>= k) (MonadState.get >>= k') R F := fun s s' hs => hk s s' hs s s' hs

theorem update {f : σ → σ} {g : σ' → σ'} {R : PUnit → PUnit → σ → σ' → Prop}
    (h : ∀ s s', P s s' → R ⟨⟩ ⟨⟩ (f s) (g s')) :
    Paired P (modify f : EStateM ε σ PUnit) (modify g) R F := fun s s' hs => .ok (h s s' hs)

end Paired

end Mila
