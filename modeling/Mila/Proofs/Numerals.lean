import Mathlib.Data.Nat.Digits.Defs
import Mila.Proofs.Tiling

/-! # Numerals

A number is introduced in one of five ways, and goes on for as long as letters or digits follow. All of them belong
to it, however many there are: the first that is no digit of its radix makes the whole of it a bad number, and
otherwise it has the value of its digits, unless that is too large. The scanner holds the value once it is too
large, and still gets all of this right.
-/

namespace Mila

/-! ## 1. Values of digits -/

/-- The value of digits in positional notation, the first one in front. -/
def numeralValue (radix : Nat) (digits : List UInt8) : Nat :=
  Nat.ofDigits radix (digits.map Ascii.digitValue).reverse

@[simp] theorem numeralValue_nil (radix : Nat) : numeralValue radix [] = 0 := rfl

theorem numeralValue_concat (radix : Nat) (digits : List UInt8) (b : UInt8) :
    numeralValue radix (digits ++ [b]) = numeralValue radix digits * radix + Ascii.digitValue b := by
  unfold numeralValue
  rw [List.map_append, List.map_singleton, List.reverse_append, List.reverse_singleton, List.singleton_append,
    Nat.ofDigits_cons, Nat.mul_comm, Nat.add_comm]

@[simp] theorem numeralValue_singleton (radix : Nat) (b : UInt8) : numeralValue radix [b] = Ascii.digitValue b := by
  rw [← List.nil_append [b], numeralValue_concat, numeralValue_nil, Nat.zero_mul, Nat.zero_add]

namespace Ascii

/-- A byte that is a digit of the given radix. -/
def IsDigitOf (radix : Nat) (b : UInt8) : Prop := (digit? radix b).isSome = true

instance (radix : Nat) (b : UInt8) : Decidable (IsDigitOf radix b) := inferInstanceAs (Decidable (_ = true))

variable {radix : Nat} {b : UInt8}

theorem digit?_eq (h : IsDigitOf radix b) : digit? radix b = some (digitValue b) := by
  unfold IsDigitOf digit? at h
  unfold digit?
  split at h
  · next hdigit => exact if_pos hdigit
  · cases h

theorem digitValue_lt (h : IsDigitOf radix b) : digitValue b < radix := by
  unfold IsDigitOf digit? at h
  split at h
  · next hdigit => exact of_decide_eq_true (Bool.and_eq_true_iff.mp hdigit).2
  · cases h

theorem digit?_eq_none (h : ¬ IsDigitOf radix b) : digit? radix b = none :=
  Option.not_isSome_iff_eq_none.mp h

end Ascii

/-! ## 2. The value that is held -/

namespace Scan

/-- The value that the scanner has after the given digits. -/
def held (radix : Nat) (digits : List UInt8) : Nat :=
  digits.foldl (fun value b => min (value * radix + Ascii.digitValue b) numberLimit) 0

theorem held_concat (radix : Nat) (digits : List UInt8) (b : UInt8) :
    held radix (digits ++ [b]) = min (held radix digits * radix + Ascii.digitValue b) numberLimit := by
  unfold held
  rw [List.foldl_append, List.foldl_cons, List.foldl_nil]

variable {radix : Nat}

/-- The scanner has the exact value as long as it is not too large, and the limit from then on. -/
theorem held_eq (hradix : 0 < radix) (digits : List UInt8) :
    held radix digits = min (numeralValue radix digits) numberLimit := by
  -- from the right: each digit is the last one for a moment
  induction digits using List.reverseRecOn with
  | nil => exact (Nat.min_eq_left (Nat.zero_le _)).symm
  | append_singleton digits b ih =>
    rw [held_concat, numeralValue_concat, ih]
    rcases Nat.le_total (numeralValue radix digits) numberLimit with hle | hle
    · rw [Nat.min_eq_left hle]
    · have hlimit := Nat.le_mul_of_pos_right numberLimit hradix
      have hvalue := Nat.mul_le_mul_right radix hle
      rw [Nat.min_eq_right hle, Nat.min_eq_right (by omega), Nat.min_eq_right (by omega)]

/-- What the scanner computes before it cuts the value down fits into 64 bits. -/
theorem held_step_lt (hradix : 0 < radix) (hlarge : radix ≤ 16) (digits : List UInt8) {b : UInt8}
    (hb : Ascii.IsDigitOf radix b) : held radix digits * radix + Ascii.digitValue b < 0x8000000000000000 := by
  have hdigit := Ascii.digitValue_lt hb
  have hheld : held radix digits ≤ 0x80000000 := by
    rw [held_eq hradix]
    exact Nat.min_le_right _ _
  have hproduct : held radix digits * radix ≤ 0x80000000 * 16 := Nat.mul_le_mul hheld hlarge
  omega

/-- A value that is too large stays so. -/
theorem held_append (hradix : 0 < radix) {digits : List UInt8} (h : held radix digits = numberLimit)
    (more : List UInt8) : held radix (digits ++ more) = numberLimit := by
  induction more using List.reverseRecOn with
  | nil => rw [List.append_nil, h]
  | append_singleton more b ih =>
    have hlimit := Nat.le_mul_of_pos_right numberLimit hradix
    rw [← List.append_assoc, held_concat, ih, Nat.min_eq_right (by omega)]

/-- Digits that were read count with the value that is held after them. -/
theorem numberKind_append {taken : List UInt8} (htaken : ∀ b ∈ taken, Ascii.IsDigitOf radix b)
    (before more : List UInt8) : numberKind radix (held radix before) (taken ++ more) =
      numberKind radix (held radix (before ++ taken)) more := by
  induction taken generalizing before with
  | nil => rw [List.append_nil, List.nil_append]
  | cons b taken ih =>
    rw [List.forall_mem_cons] at htaken
    rw [List.cons_append, numberKind, Ascii.digit?_eq htaken.1]
    dsimp only
    rw [← held_concat, ih htaken.2, List.append_assoc, List.singleton_append]

end Scan

/-! ## 3. Ways to write a number -/

/-- What a number starts with: a digit other than zero, `0x` or `0X`, a zero with more digits behind it, `$` or
`&`. -/
inductive Introducer where
  | digit (first : UInt8)
  | hexMark (mark : UInt8)
  | zero
  | dollar
  | ampersand
  deriving DecidableEq, Repr

namespace Introducer

def radix : Introducer → Nat
  | digit _ => 10
  | hexMark _ | dollar => 16
  | zero | ampersand => 8

def bytes : Introducer → List UInt8
  | digit first => [first]
  | hexMark mark => ['0'.toUInt8, mark]
  | zero => ['0'.toUInt8]
  | dollar => ['$'.toUInt8]
  | ampersand => ['&'.toUInt8]

/-- The part of it that counts as a digit of the number. -/
def digits : Introducer → List UInt8
  | digit first => [first]
  | _ => []

/-- Whether it introduces a number that goes on with the given letters and digits. -/
def Admits : Introducer → List UInt8 → Prop
  | digit first, _ => Ascii.isDigit first = true ∧ first ≠ '0'.toUInt8
  | hexMark mark, run => (mark = 'x'.toUInt8 ∨ mark = 'X'.toUInt8) ∧ run ≠ []
  | zero, run | ampersand, run => ∃ b ∈ run.head?, Ascii.isDigit b = true
  | dollar, run => ∃ b ∈ run.head?, Ascii.IsDigitOf 16 b

/-- The value of the number that goes on with the given digits. -/
def value (i : Introducer) (run : List UInt8) : Nat := numeralValue i.radix (i.digits ++ run)

/-- The number that goes on with the given letters and digits. -/
def kind (i : Introducer) (run : List UInt8) : Kind :=
  match run.find? fun b => ¬ Ascii.IsDigitOf i.radix b with
  | some b => .error (.invalidDigit i.radix (Char.ofUInt8 b))
  | none => if i.value run ≤ 2147483647 then .integer (Int32.ofNat (i.value run)) else .error .overflow

variable {i : Introducer} {run rest : List UInt8}

theorem radix_bounds (i : Introducer) : 0 < i.radix ∧ i.radix ≤ 16 := by
  unfold radix
  split <;> decide

/-- A number is scanned from the digit that introduces it, or from nothing. -/
theorem numberKind_eq (i : Introducer) (run : List UInt8) :
    Scan.numberKind i.radix (Scan.held i.radix i.digits) run = i.kind run := by
  have hlimit : Scan.numberLimit = 2147483648 := rfl
  unfold kind
  cases hbad : run.find? fun b => ¬ Ascii.IsDigitOf i.radix b with
  | none =>
    -- all are digits: the value that is held at the end decides
    have hdigits : ∀ b ∈ run, Ascii.IsDigitOf i.radix b := fun b hb => by
      simpa using List.find?_eq_none.mp hbad b hb
    have hread := Scan.numberKind_append hdigits i.digits []
    rw [List.append_nil] at hread
    rw [hread, Scan.numberKind, Scan.held_eq i.radix_bounds.1]
    change (if min (i.value run) _ < _ then Kind.integer (Int32.ofNat (min (i.value run) _)) else _) = _
    by_cases hvalue : i.value run ≤ 2147483647
    · rw [Nat.min_eq_left (by omega), if_pos (by omega), if_pos hvalue]
    · rw [Nat.min_eq_right (by omega), if_neg (Nat.lt_irrefl _), if_neg hvalue]
  | some b =>
    obtain ⟨hb, good, more, rfl, hgood⟩ := List.find?_eq_some_iff_append.mp hbad
    have hdigits : ∀ b ∈ good, Ascii.IsDigitOf i.radix b := fun b hb => by simpa using hgood b hb
    rw [Scan.numberKind_append hdigits, Scan.numberKind, Ascii.digit?_eq_none (of_decide_eq_true hb)]

/-- The bytes behind those that introduce a number are scanned for the rest of it. -/
theorem startingWith_eq (hi : i.Admits run) (hrun : ∀ b ∈ run, Ascii.isAlphanumeric b = true) :
    ∃ first more, i.bytes = first :: more ∧ Ascii.isBlank first = false ∧
      Scan.startingWith first (.ofBytes (more ++ (run ++ rest))) =
        Scan.number i.radix (Scan.held i.radix i.digits) i.bytes.length (.ofBytes (run ++ rest)) := by
  cases i with
  | digit first =>
    obtain ⟨hfirst, hzero⟩ := hi
    have hheld : Scan.held 10 [first] = Ascii.digitValue first := by
      have hvalue : Ascii.digitValue first < 10 :=
        Ascii.digitValue_lt (Option.isSome_of_eq_some (Ascii.digit?_of_isDigit hfirst))
      rw [Scan.held_eq (by decide), numeralValue_singleton, Nat.min_eq_left]
      unfold Scan.numberLimit
      omega
    refine ⟨first, [], rfl, Ascii.not_isBlank (Ascii.isNameByte_of_isDigit hfirst), ?_⟩
    change _ = Scan.number 10 (Scan.held 10 [first]) 1 _
    unfold Scan.startingWith
    rw [Ascii.not_isLetter hfirst, if_neg Bool.false_ne_true, if_neg (by rw [beq_iff_eq]; exact hzero), if_pos hfirst,
      hheld, List.nil_append]
  | hexMark mark =>
    obtain ⟨hmark, hne⟩ := hi
    refine ⟨'0'.toUInt8, [mark], rfl, rfl, ?_⟩
    obtain ⟨b, run, rfl⟩ := List.exists_cons_of_ne_nil hne
    change (if (mark == 'x'.toUInt8 || mark == 'X'.toUInt8) = true then
      if Ascii.isAlphanumeric b = true then _ else _ else _) = _
    rw [if_pos (by rwa [Bool.or_eq_true, beq_iff_eq, beq_iff_eq]), if_pos (hrun b List.mem_cons_self)]
    rfl
  | zero =>
    obtain ⟨b, hb, hdigit⟩ := hi
    refine ⟨'0'.toUInt8, [], rfl, rfl, ?_⟩
    obtain ⟨run, rfl⟩ := List.head?_eq_some_iff.mp hb
    have hmark : (b == 'x'.toUInt8 || b == 'X'.toUInt8) = false := by
      rw [← Bool.not_eq_true, Bool.or_eq_true, beq_iff_eq, beq_iff_eq]
      rintro (rfl | rfl) <;> cases hdigit
    change (if (b == 'x'.toUInt8 || b == 'X'.toUInt8) = true then _ else
      if Ascii.isDigit b = true then _ else _) = _
    rw [hmark, if_neg Bool.false_ne_true, if_pos hdigit]
    rfl
  | dollar =>
    obtain ⟨b, hb, hdigit⟩ := hi
    refine ⟨'$'.toUInt8, [], rfl, rfl, ?_⟩
    obtain ⟨run, rfl⟩ := List.head?_eq_some_iff.mp hb
    unfold Ascii.IsDigitOf at hdigit
    change (if (Ascii.digit? 16 b).isSome = true then _ else _) = _
    rw [if_pos hdigit]
    rfl
  | ampersand =>
    obtain ⟨b, hb, hdigit⟩ := hi
    refine ⟨'&'.toUInt8, [], rfl, rfl, ?_⟩
    obtain ⟨run, rfl⟩ := List.head?_eq_some_iff.mp hb
    change (if Ascii.isDigit b = true then _ else _) = _
    rw [if_pos hdigit]
    rfl

theorem scansBack (hi : i.Admits run) (hrun : ∀ b ∈ run, Ascii.isAlphanumeric b = true)
    (hrest : ∀ b ∈ rest.head?, Ascii.isAlphanumeric b = false) : (i.kind run).ScansBack (i.bytes ++ run) rest := by
  obtain ⟨first, more, hbytes, hblank, hscan⟩ := @startingWith_eq i run rest hi hrun
  refine ⟨⟨first, more ++ run, by rw [hbytes, List.cons_append], hblank⟩, ?_⟩
  have hnumber : scan (.ofBytes (i.bytes ++ run ++ rest)) =
      Scan.number i.radix (Scan.held i.radix i.digits) i.bytes.length (.ofBytes (run ++ rest)) := by
    rw [← hscan, List.append_assoc, hbytes]
    rfl
  rw [hnumber]
  unfold Scan.number
  rw [Input.takeWhile_run hrun hrest]
  dsimp only
  rw [numberKind_eq, List.length_append]

end Introducer

/-! ## 4. Numbers in an input -/

/-- A token that is scanned back from a text is the next one wherever that text comes behind some blanks, and it
covers all of the text. -/
theorem Kind.ScansBack.token_eq {k : Kind} {spelled rest : List UInt8} (h : k.ScansBack spelled rest)
    {input : Input} (position : Nat) {blanks : List UInt8} (hblanks : ∀ b ∈ blanks, Ascii.isBlank b = true)
    (hbytes : input.bytes = blanks ++ (spelled ++ rest)) :
    ∃ left, left.bytes = rest ∧ left.ending = input.ending ∧ (Cursor.mk input position).token =
      (⟨k, Span.ofLength (position + blanks.length) spelled.length⟩,
        ⟨left, position + blanks.length + spelled.length⟩) := by
  obtain ⟨⟨first, run, rfl, hfirst⟩, hscan⟩ := h
  rw [List.cons_append] at hscan hbytes
  have htoken := Cursor.token_spec position hbytes hblanks hfirst (by rw [hscan, List.length_cons])
  rwa [hscan] at htoken

theorem Introducer.toInt_of_kind {i : Introducer} {run : List UInt8} {v : Word} (h : i.kind run = .integer v) :
    v.toInt = i.value run := by
  unfold kind at h
  split at h
  · cases h
  · split at h
    · next hvalue =>
      obtain rfl := Kind.integer.inj h
      exact Int32.toInt_ofNat_of_lt (by omega)
    · cases h

/-- Behind blanks, a lexer gives a number with all the letters and digits that follow as one token, and goes on
behind them. It is the number of the value of its digits, if they are digits of its radix and the value is not too
large. The value that is held while they are read is exact up to the limit, is computed without an overflow, and
does not leave the limit again. -/
theorem Lexer.next_number {i : Introducer} {run rest : List UInt8} (hi : i.Admits run)
    (hrun : ∀ b ∈ run, Ascii.isAlphanumeric b = true) (hrest : ∀ b ∈ rest.head?, Ascii.isAlphanumeric b = false) :
    (∀ (input : Input) (position : Nat) (finished : Bool) (blanks : List UInt8),
      (∀ b ∈ blanks, Ascii.isBlank b = true) → input.bytes = blanks ++ (i.bytes ++ run ++ rest) →
      ∃ left, left.bytes = rest ∧ left.ending = input.ending ∧ (Lexer.mk ⟨input, position⟩ [] finished).next =
        (⟨i.kind run, Span.ofLength (position + blanks.length) (i.bytes ++ run).length⟩,
          ⟨⟨left, position + blanks.length + (i.bytes ++ run).length⟩, [], finished⟩)) ∧
    (∀ v, i.kind run = .integer v → v.toInt = i.value run) ∧
    ∀ taken more, run = taken ++ more → (∀ b ∈ taken, Ascii.IsDigitOf i.radix b) →
      i.kind run = Scan.numberKind i.radix (Scan.held i.radix (i.digits ++ taken)) more ∧
      Scan.held i.radix (i.digits ++ taken) = min (i.value taken) Scan.numberLimit ∧
      (∀ b, Ascii.IsDigitOf i.radix b →
        Scan.held i.radix (i.digits ++ taken) * i.radix + Ascii.digitValue b < 0x8000000000000000) ∧
      (Scan.held i.radix (i.digits ++ taken) = Scan.numberLimit →
        ∀ further, Scan.held i.radix (i.digits ++ (taken ++ further)) = Scan.numberLimit) := by
  obtain ⟨hradix, hlarge⟩ := i.radix_bounds
  refine ⟨fun input position finished blanks hblanks hbytes => ?_, fun v hv => i.toInt_of_kind hv, ?_⟩
  · obtain ⟨left, hleft, hending, htoken⟩ := (Introducer.scansBack hi hrun hrest).token_eq position hblanks hbytes
    refine ⟨left, hleft, hending, ?_⟩
    unfold next
    rw [htoken]
  · rintro taken more rfl htaken
    refine ⟨?_, Scan.held_eq hradix _, fun b hb => Scan.held_step_lt hradix hlarge _ hb, fun hlimit further => ?_⟩
    · rw [← i.numberKind_eq, Scan.numberKind_append htaken]
    · rw [← List.append_assoc]
      exact Scan.held_append hradix hlimit further

/-- Behind a blank and an interruption, `$1FFFFFFFFg7` is one token of twelve bytes before the `)`: what is wrong
with it is the `g` and not the value that was too large long before. -/
theorem Lexer.next_number_invalid :
    ∃ left, left.bytes = [')'.toUInt8] ∧ left.ending = some .invalidData ∧ (Lexer.mk
      ⟨.byte ' '.toUInt8 :: .interrupted :: (Input.ofBytes (utf8 "$1FFFFFFFFg7)") ++ [.failure .invalidData]), 5⟩
      [] false).next = (⟨.error (.invalidDigit 16 'g'), ⟨6, 12⟩⟩, ⟨⟨left, 18⟩, [], false⟩) := by
  have hkind : Introducer.dollar.kind (utf8 "1FFFFFFFFg7") = .error (.invalidDigit 16 'g') := by decide +kernel
  have hrun : ∀ b ∈ utf8 "1FFFFFFFFg7", Ascii.isAlphanumeric b = true := by decide +kernel
  obtain ⟨left, hleft, hending, hnext⟩ := (@Lexer.next_number .dollar _ [')'.toUInt8]
    ⟨'1'.toUInt8, rfl, rfl⟩ hrun (fun b hb => by cases hb; rfl)).1
    (.byte ' '.toUInt8 :: .interrupted :: (Input.ofBytes (utf8 "$1FFFFFFFFg7)") ++ [.failure .invalidData])) 5 false
    [' '.toUInt8] (List.forall_mem_singleton.mpr rfl) rfl
  rw [hkind] at hnext
  exact ⟨left, hleft, hending, hnext⟩

end Mila
