import Mila.Proofs.Steps

/-! # Limits as thresholds

A run that meets none of its limits goes the same way under higher ones. So each limit is a threshold: below
it the limit is what a run ends with, and from there on the limit does not matter. The threshold for the
depth of calls is at most one more than the number of steps, because every call takes a step.
-/

namespace Mila

namespace Machine

/-- The same machine with more steps left. -/
def plusSteps (m : Machine) (k : Nat) : Machine := m.withSteps (m.steps + k)

/-- A result with more steps left. -/
def resultPlus {α : Type} (k : Nat) : EStateM.Result Fault Machine α → EStateM.Result Fault Machine α
  | .ok b m => .ok b (m.plusSteps k)
  | .error f m => .error f (m.plusSteps k)

end Machine

/-! ## 1. Pieces of a run -/

namespace Run

open Machine

variable {α β : Type} {x y : Run α} {f g : α → Run β} {limit : Fault} {k : Nat}

/-- Unless the first piece of a run meets the limit, the second one does the same with `k` steps more. -/
def Outlasts (limit : Fault) (k : Nat) (x y : Run α) : Prop :=
  ∀ m, (∃ m', x m = .error limit m') ∨ y (m.plusSteps k) = resultPlus k (x m)

namespace Outlasts

theorem throw (fault : Fault) : Outlasts limit k (MonadExcept.throw fault : Run α) (MonadExcept.throw fault) :=
  fun _ => .inr rfl

theorem idle (hx : Idle x) : Outlasts limit k x x := by
  intro m
  refine .inr ?_
  have hself := hx.withSteps m m.steps
  unfold plusSteps
  rw [hx.withSteps]
  rw [withSteps_self] at hself
  cases h : x m with
  | ok b m' =>
    rw [h] at hself
    rw [(EStateM.Result.ok.inj hself).2]
    rfl
  | error fault m' =>
    rw [h] at hself
    rw [(EStateM.Result.error.inj hself).2]
    rfl

theorem bind (hxy : Outlasts limit k x y) (hfg : ∀ b, Outlasts limit k (f b) (g b)) :
    Outlasts limit k (x >>= f) (y >>= g) := by
  intro m
  rcases hxy m with ⟨m', hlimit⟩ | hsame
  · exact .inl ⟨m', bind_error hlimit⟩
  · cases h : x m with
    | ok b m₁ =>
      rw [h] at hsame
      rw [bind_ok h, bind_ok hsame]
      exact hfg b m₁
    | error fault m₁ =>
      rw [h] at hsame
      rw [bind_error h, bind_error hsame]
      exact .inr rfl

theorem releasing (h : Outlasts limit k x y) : Outlasts limit k (releasing x) (releasing y) := by
  intro m
  unfold Machine.releasing
  rcases h m with ⟨m', hlimit⟩ | hsame
  · rw [hlimit]
    exact .inl ⟨_, rfl⟩
  · rw [hsame]
    refine .inr ?_
    cases x m <;> rfl

theorem respects : Respects (Outlasts limit k) := .of_idle idle bind

end Outlasts

end Run

/-! ## 2. Raising a limit -/

/-- One of the limits is raised, by `k` steps if it is the one on steps. The fault tells of the limit as it
was. -/
inductive Limits.Raised : Fault → Nat → Limits → Limits → Prop where
  | steps (steps k depth : Nat) :
    Raised (.stepLimitExceeded steps) k ⟨steps, depth⟩ ⟨steps + k, depth⟩
  | depth (steps depth depth' : Nat) (h : depth ≤ depth') :
    Raised (.callDepthExceeded depth) 0 ⟨steps, depth⟩ ⟨steps, depth'⟩

namespace Limits.Raised

open Run Machine

variable {limit : Fault} {k : Nat} {L L' : Limits}

theorem steps_eq (h : Raised limit k L L') : L'.steps = L.steps + k := by
  cases h <;> rfl

theorem tick (h : Raised limit k L L') : Outlasts limit k (tick L) (tick L') := by
  cases h with
  | steps steps k depth =>
    intro m
    cases hsteps : m.steps with
    | zero => exact .inl ⟨m, tick_zero hsteps⟩
    | succ t =>
      refine .inr ?_
      rw [tick_succ hsteps]
      exact tick_succ (show m.steps + k = t + k + 1 by omega)
  | depth steps d d' hle =>
    intro m
    refine .inr ?_
    change Machine.tick _ m = _
    unfold Machine.tick
    cases m.steps <;> rfl

/-- Where no step is left to begin with, there is one only under the higher limit. -/
theorem out_of_steps (h : Raised limit k L L') (C : Code) (a : Activation) :
    Outlasts limit k (throw (.stepLimitExceeded L.steps)) (execute C L' k a) := by
  cases h with
  | steps steps k depth => exact fun m => .inl ⟨m, rfl⟩
  | depth steps d d' hle => exact .throw _

theorem invoke {go go' : Activation → Run Word} (h : Raised limit k L L')
    (hgo : ∀ a, Outlasts limit k (go a) (go' a)) (C : Code) (g : Nat) (args : List Word) (depth : Nat) :
    Outlasts limit k (invoke C L go g args depth) (invoke C L' go' g args depth) := by
  unfold Machine.invoke
  split
  · exact .throw _
  · split
    · exact Outlasts.respects.threads.external _ _
    · have hbody : ∀ a : Activation, Outlasts limit k (Machine.releasing (a.enter none 0 >>= go))
          (Machine.releasing (a.enter none 0 >>= go')) := fun a =>
        .releasing (.bind (Outlasts.respects.threads.enter a _ _) hgo)
      cases h with
      | steps steps k d =>
        dsimp only
        split
        · exact .throw _
        · exact hbody _
      -- A call refused under `d` ends there; one that `d` allows is allowed under the larger `d'` too.
      | depth steps d d' hle =>
        dsimp only
        by_cases hdeep : d ≤ depth
        · rw [if_pos hdeep]
          exact fun m => .inl ⟨m, rfl⟩
        · rw [if_neg hdeep, if_neg fun hdeeper => hdeep (hle.trans hdeeper)]
          exact hbody _

end Limits.Raised

namespace Machine

open Run

variable {C : Code} {L L' : Limits} {limit : Fault} {k : Nat}

/-- A run under a higher limit goes the same way, unless it met the limit before. -/
theorem outlasts_execute (h : L.Raised limit k L') (n : Nat) (a : Activation) :
    Outlasts limit k (execute C L n a) (execute C L' (n + k) a) := by
  induction n generalizing a with
  | zero =>
    rw [Nat.zero_add]
    exact h.out_of_steps C a
  | succ n ih =>
    rw [Nat.succ_add]
    exact .bind h.tick fun _ => Outlasts.respects.afterTick _ _ ih a fun g args => h.invoke ih C g args _

/-! ## 3. Faults about limits -/

section

variable {F : Fault → Prop}

theorem meets_respects (hF : ∀ f : Fault, f.isLimit = false → F f) :
    Respects fun x _ => ∀ m, Meets x m (fun _ _ => True) (fun f _ => F f) :=
  .of_idle (fun hx _ => hx.meets hF) fun hx hf m => (hx m).bind fun b m' _ => hf b m'

/-- A call can only meet the limit on depth if it stands as deep already. -/
theorem meets_invoke (hF : ∀ f : Fault, f.isLimit = false → F f) {go : Activation → Run Word}
    {depth : Nat} (hdepth : depth < L.depth ∨ F (.callDepthExceeded L.depth))
    (hgo : ∀ (a : Activation) m, a.depth = depth → Meets (go a) m (fun _ _ => True) (fun f _ => F f))
    (g : Nat) (args : List Word) (m : Machine) :
    Meets (invoke C L go g args depth) m (fun _ _ => True) (fun f _ => F f) := by
  unfold invoke
  split
  · exact .throw (hF _ rfl)
  · next routine _ =>
    split
    · exact (meets_respects hF).threads.external _ _ m
    · split
      · next hdeep =>
        rcases hdepth with hlow | hfault
        · exact absurd hlow (Nat.not_lt.mpr hdeep)
        · exact .throw hfault
      · refine .releasing ?_
        have henter := (Activation.start routine args depth).meets_enter m none 0
        refine (henter.mono (fun _ _ h => h) ?_).bind fun a m₁ h => hgo a m₁ h.2.depth
        rintro f - ⟨-, d, -, rfl⟩
        exact hF _ rfl

/-- A run of at most `n` steps nests calls by at most `n`. -/
theorem meets_execute (hF : ∀ f : Fault, f.isLimit = false → F f) (hsteps : F (.stepLimitExceeded L.steps))
    {n : Nat} {a : Activation} (hdepth : a.depth + n < L.depth ∨ F (.callDepthExceeded L.depth))
    (m : Machine) : Meets (execute C L n a) m (fun _ _ => True) (fun f _ => F f) := by
  induction n generalizing a m with
  | zero => exact .throw hsteps
  | succ n ih =>
    have htick : Meets (tick L) m (fun _ _ => True) (fun f _ => F f) := by
      unfold Meets tick
      cases m.steps with
      | zero => exact hsteps
      | succ t => trivial
    have hfaults := meets_respects hF
    -- What is left of the steps bounds how much deeper calls can still go, since a call costs a step.
    have hact : ∀ m, Meets (a.act fun g args => invoke C L (execute C L n) g args (a.depth + 1)) m (fun _ _ => True)
        (fun f _ => F f) := hfaults.threads.act ⟨hfaults.allocate, hfaults.write⟩ (invoke C L (execute C L n) · · 0)
      fun _ g _ _ args m => meets_invoke hF (hdepth.imp_left fun h => by omega)
        (fun b m hb => ih (hdepth.imp_left fun h => by omega) m) g args m
    rw [execute_succ]
    refine htick.bind fun _ m₁ _ => ?_
    rw [afterTick_eq_act]
    refine ((a.meets_act m₁).and (hact m₁)).bind fun next m₂ hnext => ?_
    cases next with
    | inl v => exact .pure trivial
    | inr b => exact ih (hnext.depth ▸ hdepth.imp_left fun h => by omega) m₂

end

end Machine

/-! ## 4. Whole runs -/

namespace Code

open Machine Run

variable (C : Code) (input : List Word)

/-- A run in which the recursion of the machine is bounded by `n`. -/
def runWithin (C : Code) (n : Nat) (input : List Word) (L : Limits) : Except Fault Outcome :=
  match C.find? entryPoint with
  | none => .error .missingEntryPoint
  | some main =>
    match invoke C L (execute C L n) main [] 0 ⟨input, #[], #[], L.steps⟩ with
    | .ok exitCode after => .ok ⟨exitCode, after.output.toList⟩
    | .error fault _ => .error fault

/-- Raising a limit that a run did not meet changes nothing. -/
theorem run_raised {limit : Fault} {k : Nat} {L L' : Limits} (h : L.Raised limit k L') :
    C.run input L = .error limit ∨ C.run input L' = C.run input L := by
  unfold run
  cases C.find? entryPoint with
  | none => exact .inr rfl
  | some main =>
    have hgo := fun a => outlasts_execute (C := C) h L.steps a
    rw [h.steps_eq]
    dsimp only
    rcases h.invoke hgo C main [] 0 ⟨input, #[], #[], L.steps⟩ with ⟨m', hlimit⟩ | hsame
    · rw [hlimit]
      exact .inl rfl
    · change invoke C L' _ main [] 0 ⟨input, #[], #[], L.steps + k⟩ = _ at hsame
      rw [hsame]
      refine .inr ?_
      cases invoke C L (execute C L L.steps) main [] 0 ⟨input, #[], #[], L.steps⟩ <;> rfl

theorem run_fault {L : Limits} {F : Fault → Prop} (hF : ∀ f : Fault, f.isLimit = false → F f)
    (hsteps : F (.stepLimitExceeded L.steps)) (hdepth : L.steps < L.depth ∨ F (.callDepthExceeded L.depth))
    {f : Fault} (h : C.run input L = .error f) : F f := by
  unfold run at h
  cases hfind : C.find? entryPoint with
  | none =>
    rw [hfind] at h
    exact Except.error.inj h ▸ hF _ rfl
  | some main =>
    rw [hfind] at h
    dsimp only at h
    have hgo : ∀ (a : Activation) m, a.depth = 0 →
        Meets (execute C L L.steps a) m (fun _ _ => True) (fun f _ => F f) := fun a m ha =>
      meets_execute hF hsteps (hdepth.imp_left fun h => by omega) m
    have hcall := meets_invoke (C := C) hF (hdepth.imp_left Nat.zero_lt_of_lt) hgo main []
      ⟨input, #[], #[], L.steps⟩
    split at h
    · cases h
    · next hinvoke =>
      exact Except.error.inj h ▸ hcall.error hinvoke

/-- The bound on the recursion does not show if it is no less than the number of steps. -/
theorem runWithin_eq (L : Limits) (k : Nat) : C.runWithin (L.steps + k) input L = C.run input L := by
  unfold runWithin run
  cases C.find? entryPoint with
  | none => rfl
  | some main =>
    have hagree := (agree_invoke (C := C) (L := L)
      (fun a => agree_execute C L (Nat.le_add_right L.steps k) a) (frugal_execute C L _) main [] 0).1
      ⟨input, #[], #[], L.steps⟩ (Nat.le_refl _)
    cases h : invoke C L (execute C L L.steps) main [] 0 ⟨input, #[], #[], L.steps⟩ with
    | ok v m => simp only [hagree, h]
    | error f m => simp only [hagree, h]

/-- The number of steps that a run needs, if it ever ends. -/
theorem exists_step_threshold (depth : Nat) :
    ∃ (N : ℕ∞) (r : Except Fault Outcome), (∀ l, r ≠ .error (.stepLimitExceeded l)) ∧
      ∀ steps : Nat, C.run input ⟨steps, depth⟩ =
        if (steps : ℕ∞) < N then .error (.stepLimitExceeded steps) else r := by
  -- the limit that a run tells of is its own
  have hown : ∀ steps l, C.run input ⟨steps, depth⟩ = .error (.stepLimitExceeded l) → l = steps := by
    intro steps l h
    have hfault := C.run_fault input (F := fun f => ∀ l, f = .stepLimitExceeded l → l = steps)
      (fun f hf l he => by rw [he] at hf; cases hf) (fun l he => (Fault.stepLimitExceeded.inj he).symm)
      (.inr fun l he => by cases he) h
    exact hfault l rfl
  by_cases hends : ∃ steps, C.run input ⟨steps, depth⟩ ≠ .error (.stepLimitExceeded steps)
  · classical
    refine ⟨(Nat.find hends : ℕ∞), C.run input ⟨Nat.find hends, depth⟩, fun l hl => ?_, fun steps => ?_⟩
    · obtain rfl := hown _ l hl
      exact Nat.find_spec hends hl
    · split
      · next hlt => exact not_not.mp (Nat.find_min hends (Nat.cast_lt.mp hlt))
      · next hge =>
        obtain ⟨k, rfl⟩ := Nat.exists_eq_add_of_le (Nat.cast_le.mp (not_lt.mp hge))
        exact (C.run_raised input (.steps _ k depth)).resolve_left (Nat.find_spec hends)
  · refine ⟨⊤, .error .missingEntryPoint, fun l h => (nomatch h), fun steps => ?_⟩
    rw [if_pos (ENat.natCast_lt_top steps)]
    exact not_not.mp fun h => hends ⟨steps, h⟩

/-- How deep calls nest in a run. -/
theorem exists_depth_threshold (steps : Nat) :
    ∃ (D : Nat) (r : Except Fault Outcome), (∀ l, r ≠ .error (.callDepthExceeded l)) ∧
      ∀ depth, C.run input ⟨steps, depth⟩ =
        if depth < D then .error (.callDepthExceeded depth) else r := by
  have hown : ∀ depth l, C.run input ⟨steps, depth⟩ = .error (.callDepthExceeded l) →
      l = depth ∧ depth ≤ steps := by
    intro depth l h
    have hfault := C.run_fault input (F := fun f => ∀ l, f = .callDepthExceeded l → l = depth ∧ depth ≤ steps)
      (fun f hf l he => by rw [he] at hf; cases hf) (fun l he => by cases he)
      (by
        rcases Nat.lt_or_ge steps depth with hlt | hge
        · exact .inl hlt
        · exact .inr fun l he => ⟨(Fault.callDepthExceeded.inj he).symm, hge⟩) h
    exact hfault l rfl
  -- A limit above the number of steps is never met, so some least one is enough.
  have hends : ∃ depth, C.run input ⟨steps, depth⟩ ≠ .error (.callDepthExceeded depth) :=
    ⟨steps + 1, fun h => absurd (hown _ _ h).2 (Nat.not_succ_le_self steps)⟩
  classical
  refine ⟨Nat.find hends, C.run input ⟨steps, Nat.find hends⟩, fun l hl => ?_, fun depth => ?_⟩
  · obtain ⟨rfl, -⟩ := hown _ l hl
    exact Nat.find_spec hends hl
  · split
    · next hlt => exact not_not.mp (Nat.find_min hends hlt)
    · next hge =>
      exact (C.run_raised input (.depth steps _ depth (Nat.le_of_not_lt hge))).resolve_left
        (Nat.find_spec hends)

/-- Both limits of a run are thresholds. Below its threshold a limit is what the run ends with; from there on
the run comes out the same. There always is a threshold for the depth of calls, while a run may need more
steps than any number. And every run ends by itself: a bound on the recursion of the machine does not show
if it is no less than the number of steps. -/
theorem run_thresholds :
    (∀ depth, ∃ (N : ℕ∞) (r : Except Fault Outcome), (∀ l, r ≠ .error (.stepLimitExceeded l)) ∧
      ∀ steps : Nat, C.run input ⟨steps, depth⟩ =
        if (steps : ℕ∞) < N then .error (.stepLimitExceeded steps) else r) ∧
    (∀ steps, ∃ (D : Nat) (r : Except Fault Outcome), (∀ l, r ≠ .error (.callDepthExceeded l)) ∧
      ∀ depth, C.run input ⟨steps, depth⟩ =
        if depth < D then .error (.callDepthExceeded depth) else r) ∧
    ∀ (L : Limits) (k : Nat), C.runWithin (L.steps + k) input L = C.run input L :=
  ⟨C.exists_step_threshold input, C.exists_depth_threshold input, C.runWithin_eq input⟩

end Code

end Mila
