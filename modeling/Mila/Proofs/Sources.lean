import Mila.Proofs.Correctness
import Mila.Proofs.Derivations
import Mila.Proofs.Lexing

/-! # Source texts

A program that is read off a source text has its declarations only where the grammar allows them. So what is
said of the code of such programs holds for all source texts that compile.
-/

namespace Mila

open Grammar Behaviour

/-! ## 1. Declarations stand in their places -/

namespace Grammar

variable {Range : Word → Word → Prop} {ks : List Kind}

/-- No declaration stands in an expression or a statement. -/
theorem inherits_plain (Q : Kind → Prop) : Inherits Q Node.Plain Node.Plain where
  number _ _ := trivial
  ident _ := trivial
  element _ h := h
  operand _ h := Node.allPlain_iff.mpr h
  binary _ hl hr := ⟨hl, hr⟩
  assign ht hv := ⟨ht, hv⟩
  call _ h := Node.allPlain_iff.mpr h
  exit := trivial
  intrinsic _ _ := trivial
  noElse := trivial
  conditional hc ht he := ⟨hc, ht, he⟩
  whileLoop hc hb := ⟨hc, hb⟩
  forLoop _ hs hz hb := ⟨hs, hz, hb⟩
  block h := Node.allPlain_iff.mpr h

theorem hands_declares (Q : Kind → Prop) (Range : Word → Word → Prop) :
    Hands Q Range Node.Plain (fun _ => True) Node.Declares where
  declared _ _ _ _ := trivial
  var _ := trivial
  constant _ _ _ := trivial
  forward _ := trivial
  subprogram {p decls block} _ _ hblock := by
    refine ⟨decls, block, hblock, ?_⟩
    cases p.kind with
    | function => simp
    | procedure => rfl

theorem Derives.formed {p : Program} (h : Derives Range ks p) : p.Formed :=
  have hhas := h.has (hands_declares (fun _ => True) Range) (inherits_plain _) fun _ _ => trivial
  ⟨hhas.2.1, hhas.2.2⟩

end Grammar

/-! ## 2. The code of a source text -/

variable {source : String} {C : Code}

theorem parseProgram_formed {p : Program} (h : parseProgram source = .ok p) : p.Formed := by
  obtain ⟨ks, hderives, -⟩ := parseProgram_derives h
  exact hderives.formed

theorem compile_eq_ok (h : (compile source).toOption = some C) : compile source = .ok C := by
  cases hcode : compile source with
  | error _ =>
    rw [hcode] at h
    cases h
  | ok C' =>
    rw [hcode] at h
    exact congrArg _ (Option.some.inj h)

theorem exists_code (h : (compile source).toOption.isSome = true) : ∃ C, compile source = .ok C := by
  obtain ⟨C, hC⟩ := Option.isSome_iff_exists.mp h
  exact ⟨C, compile_eq_ok hC⟩

theorem exists_program (h : compile source = .ok C) :
    ∃ p, parseProgram source = .ok p ∧ p.compileInto Code.empty = (.ok (), C) := by
  unfold compile at h
  split at h
  · cases h
  · next p hparse =>
    split at h
    · next code hcode =>
      obtain rfl := Except.ok.inj h
      exact ⟨p, hparse, hcode⟩
    · cases h

theorem compile_spec (h : compile source = .ok C) :
    ∃ p, parseProgram source = .ok p ∧ p.Formed ∧ ∃ v S, p.Compiled C v S := by
  obtain ⟨p, hparse, hcode⟩ := exists_program h
  exact ⟨p, hparse, parseProgram_formed hparse, (Program.compileInto_spec rfl trivial hcode).2⟩

/-- The code of a source text runs as the program that is read off the text evaluates. A run may also stop at
a limit, which it does not if the program has an answer and the limits are high enough. -/
theorem compile_run_agrees {source : String} {C : Code} (h : compile source = .ok C) :
    ∃ p, parseProgram source = .ok p ∧ ∀ input,
      (∀ L, AtLimit L (C.run input L) ∨
        ∃ r, p.Evaluates input r ∧ C.run input L = r.mapError Failure.fault) ∧
      ∀ r, p.Evaluates input r → ∃ steps depth, ∀ L, steps ≤ L.steps → depth ≤ L.depth →
        C.run input L = r.mapError Failure.fault := by
  obtain ⟨p, hparse, hformed, v, S, hcompiled⟩ := compile_spec h
  exact ⟨p, hparse, fun input => hcompiled.run_agrees hformed input⟩

/-- A program that writes squares until there are no more words to read. -/
def squares : String := "program p; var n: integer; begin while 1 do begin readln(n); writeln(n * n) end end."

theorem compile_squares : ∃ C, compile squares = .ok C ∧
    ∃ steps depth, ∀ L, steps ≤ L.steps → depth ≤ L.depth → C.run [3, -5] L = .error .inputExhausted := by
  obtain ⟨C, hC⟩ : ∃ C, compile squares = .ok C := exists_code (by decide +kernel)
  obtain ⟨p, hp, hagrees⟩ := compile_run_agrees hC
  have hmeans : (parseProgram squares).toOption.bind (·.evaluate 4 [3, -5]) = some (.error .inputExhausted) := by
    decide +kernel
  rw [hp] at hmeans
  exact ⟨C, hC, (hagrees _).2 _ ⟨4, hmeans⟩⟩

end Mila
