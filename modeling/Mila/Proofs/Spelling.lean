import Mila.Proofs.Lexing

/-! # Spelling

Writing tokens as text, and scanning the text again. A token is scanned back as it was written if the byte behind
it cannot go on with it. A blank never can, and between many tokens none is needed.
-/

namespace Mila

/-! ## 1. Classes of bytes -/

namespace Ascii

variable {b : UInt8}

theorem isLetter_iff : isLetter b = true ↔ 65 ≤ b.toNat ∧ b.toNat ≤ 90 ∨ 97 ≤ b.toNat ∧ b.toNat ≤ 122 := by
  simp [isLetter, Char.isAlpha, Char.isUpper, Char.isLower, Char.ofUInt8, UInt32.le_iff_toNat_le]

theorem isDigit_iff : isDigit b = true ↔ 48 ≤ b.toNat ∧ b.toNat ≤ 57 := by
  simp [isDigit, Char.isDigit, Char.ofUInt8, UInt32.le_iff_toNat_le]

theorem isAlphanumeric_eq : isAlphanumeric b = (isLetter b || isDigit b) := rfl

theorem isAlphanumeric_iff : isAlphanumeric b = true ↔ isLetter b = true ∨ isDigit b = true := by
  rw [isAlphanumeric_eq, Bool.or_eq_true]

theorem isNameByte_iff : isNameByte b = true ↔ isAlphanumeric b = true ∨ b.toNat = 95 := by
  rw [isNameByte, Bool.or_eq_true, beq_iff_eq]
  refine or_congr_right ⟨fun h => ?_, fun h => ?_⟩
  · exact congrArg Char.toNat h
  · exact Char.toNat_inj.mp h

theorem isBlank_iff : isBlank b = true ↔
    b.toNat = 32 ∨ b.toNat = 9 ∨ b.toNat = 10 ∨ b.toNat = 12 ∨ b.toNat = 13 := by
  simp [isBlank, ← UInt8.toNat_inj, or_assoc]

theorem isNameByte_lt (h : isNameByte b = true) : b.toNat < 128 := by
  rw [isNameByte_iff, isAlphanumeric_iff, isLetter_iff, isDigit_iff] at h
  omega

theorem isNameByte_of_isLetter (h : isLetter b = true) : isNameByte b = true :=
  isNameByte_iff.mpr (.inl (isAlphanumeric_iff.mpr (.inl h)))

theorem isAlphanumeric_of_isDigit (h : isDigit b = true) : isAlphanumeric b = true :=
  isAlphanumeric_iff.mpr (.inr h)

theorem isNameByte_of_isDigit (h : isDigit b = true) : isNameByte b = true :=
  isNameByte_iff.mpr (.inl (isAlphanumeric_of_isDigit h))

theorem not_isBlank (h : isNameByte b = true) : isBlank b = false := by
  rw [isNameByte_iff, isAlphanumeric_iff, isLetter_iff, isDigit_iff] at h
  rw [← Bool.not_eq_true, isBlank_iff]
  omega

theorem not_isLetter (h : isDigit b = true) : isLetter b = false := by
  rw [isDigit_iff] at h
  rw [← Bool.not_eq_true, isLetter_iff]
  omega

theorem digit?_of_isDigit (h : isDigit b = true) : digit? 10 b = some (digitValue b) := by
  have hrange := isDigit_iff.mp h
  have hvalue : digitValue b < 10 := by
    unfold digitValue
    rw [if_pos h, show '0'.toNat = 48 from rfl]
    omega
  unfold digit?
  rw [isAlphanumeric_eq, h, Bool.or_true, decide_eq_true hvalue]
  rfl

/-- A byte that is no digit or letter does not go on with a number. -/
theorem not_numeral (h : isAlphanumeric b = false) :
    (b == 'x'.toUInt8 || b == 'X'.toUInt8) = false ∧ isDigit b = false ∧ isLetter b = false := by
  have hletter : isLetter b = false ∧ isDigit b = false := by
    rwa [isAlphanumeric_eq, Bool.or_eq_false_iff] at h
  refine ⟨?_, hletter.2, hletter.1⟩
  rw [← Bool.not_eq_true, Bool.or_eq_true, beq_iff_eq, beq_iff_eq]
  -- either letter would be one
  rintro (rfl | rfl)
  · cases hletter.1
  · cases hletter.1

theorem utf8EncodeChar_eq (h : b.toNat < 128) : String.utf8EncodeChar (Char.ofUInt8 b) = [b] := by
  have hsize : (Char.ofUInt8 b).utf8Size = 1 := by
    simp [Char.utf8Size, Char.ofUInt8, UInt32.le_iff_toNat_le]
    omega
  rw [String.utf8EncodeChar_eq_singleton hsize]
  simp [Char.ofUInt8]

end Ascii

/-! ## 2. Text and bytes -/

/-- The bytes of a text. -/
def utf8 (s : String) : List UInt8 := s.toUTF8.data.toList

theorem utf8_append (s t : String) : utf8 (s ++ t) = utf8 s ++ utf8 t := by
  simp [utf8, String.toByteArray_append]

theorem utf8_text {bytes : List UInt8} (h : ∀ b ∈ bytes, b.toNat < 128) : utf8 (Ascii.text bytes) = bytes := by
  have hencode : (bytes.map Char.ofUInt8).flatMap String.utf8EncodeChar = bytes := by
    induction bytes with
    | nil => rfl
    | cons b bytes ih =>
      rw [List.forall_mem_cons] at h
      rw [List.map_cons, List.flatMap_cons, Ascii.utf8EncodeChar_eq h.1, ih h.2]
      rfl
  unfold utf8 Ascii.text
  rw [String.toUTF8_eq_toByteArray, String.toByteArray_ofList, List.utf8Encode, hencode]
  exact List.toList_data_toByteArray

/-! ## 3. Runs of bytes -/

namespace Input

theorem takeWhile_ofBytes (p : UInt8 → Bool) (bytes : List UInt8) :
    (ofBytes bytes).takeWhile p = (bytes.takeWhile p, ofBytes (bytes.dropWhile p)) := by
  induction bytes with
  | nil => rfl
  | cons b bytes ih =>
    change takeWhile p (.byte b :: ofBytes bytes) = _
    rw [takeWhile, ih]
    cases hb : p b with
    | true => simp [hb]
    | false => simp [hb, ofBytes]

/-- A run of bytes ends where the next byte, if there is one, is another one. -/
theorem takeWhile_run {p : UInt8 → Bool} {run rest : List UInt8} (hrun : ∀ b ∈ run, p b = true)
    (hrest : ∀ b ∈ rest.head?, p b = false) :
    (ofBytes (run ++ rest)).takeWhile p = (run, ofBytes rest) := by
  have hstop : rest.takeWhile p = [] ∧ rest.dropWhile p = rest := by
    cases rest with
    | nil => exact ⟨rfl, rfl⟩
    | cons b rest =>
      have hb : p b = false := hrest b rfl
      exact ⟨by simp [hb], by simp [hb]⟩
  rw [takeWhile_ofBytes, List.takeWhile_append_of_pos hrun, List.dropWhile_append_of_pos hrun, hstop.1, hstop.2,
    List.append_nil]

end Input

/-! ## 4. Numbers in decimal -/

/-- The digits of a number, the first one in front. -/
def decimal (n : Nat) : List UInt8 := (Nat.toDigits 10 n).map Char.toUInt8

/-- The value of decimal digits behind some that have the value `value`. -/
def decimalValue (value : Nat) (run : List UInt8) : Nat :=
  run.foldl (fun value b => value * 10 + Ascii.digitValue b) value

theorem digitChar_facts : ∀ d : Fin 10, (Char.ofUInt8 (Nat.digitChar d).toUInt8 = Nat.digitChar d) ∧
    Ascii.isDigit (Nat.digitChar d).toUInt8 = true ∧ Ascii.digitValue (Nat.digitChar d).toUInt8 = d ∧
      ((Nat.digitChar d).toUInt8 = '0'.toUInt8 → d = 0) := by
  decide

theorem decimal_of_lt {n : Nat} (h : n < 10) : decimal n = [(Nat.digitChar n).toUInt8] := by
  rw [decimal, Nat.toDigits_of_lt_base h]
  rfl

theorem decimal_of_le {n : Nat} (h : 10 ≤ n) :
    decimal n = decimal (n / 10) ++ [(Nat.digitChar (n % 10)).toUInt8] := by
  rw [decimal, Nat.toDigits_of_base_le (by decide) h, List.map_append]
  rfl

theorem isDigit_of_mem_decimal (n : Nat) : ∀ b ∈ decimal n, Ascii.isDigit b = true := by
  induction n using Nat.strongRecOn with
  | ind n ih =>
    by_cases h : n < 10
    · rw [decimal_of_lt h, List.forall_mem_singleton]
      exact (digitChar_facts ⟨n, h⟩).2.1
    · rw [decimal_of_le (by omega), List.forall_mem_append, List.forall_mem_singleton]
      exact ⟨ih (n / 10) (by omega), (digitChar_facts ⟨n % 10, by omega⟩).2.1⟩

theorem text_decimal (n : Nat) : Ascii.text (decimal n) = toString n := by
  rw [Nat.toString_eq_ofList_toDigits]
  unfold Ascii.text
  congr 1
  induction n using Nat.strongRecOn with
  | ind n ih =>
    by_cases h : n < 10
    · rw [decimal_of_lt h, Nat.toDigits_of_lt_base h, List.map_singleton, (digitChar_facts ⟨n, h⟩).1]
    · rw [decimal_of_le (by omega), Nat.toDigits_of_base_le (by decide) (by omega), List.map_append,
        ih (n / 10) (by omega), List.map_singleton, (digitChar_facts ⟨n % 10, by omega⟩).1]

/-- A number other than zero does not start with the digit zero, and its digits give its value. -/
theorem decimal_eq_cons {n : Nat} (h : 0 < n) : ∃ first run, decimal n = first :: run ∧
    first ≠ '0'.toUInt8 ∧ decimalValue (Ascii.digitValue first) run = n := by
  induction n using Nat.strongRecOn with
  | ind n ih =>
    by_cases hn : n < 10
    · obtain ⟨-, -, hvalue, hzero⟩ := digitChar_facts ⟨n, hn⟩
      refine ⟨_, [], decimal_of_lt hn, fun hfirst => ?_, hvalue⟩
      have := congrArg Fin.val (hzero hfirst)
      simp only [Fin.val_zero] at this
      omega
    · obtain ⟨first, run, hdigits, hfirst, hvalue⟩ := ih (n / 10) (by omega) (by omega)
      refine ⟨first, run ++ [(Nat.digitChar (n % 10)).toUInt8], ?_, hfirst, ?_⟩
      · rw [decimal_of_le (by omega), hdigits]
        rfl
      · have hdigit : Ascii.digitValue (Nat.digitChar (n % 10)).toUInt8 = n % 10 :=
          (digitChar_facts ⟨n % 10, by omega⟩).2.2.1
        unfold decimalValue at hvalue ⊢
        rw [List.foldl_append, hvalue, List.foldl_cons, List.foldl_nil, hdigit]
        omega

theorem le_decimalValue (value : Nat) (run : List UInt8) : value ≤ decimalValue value run := by
  induction run generalizing value with
  | nil => exact Nat.le_refl _
  | cons b run ih =>
    have h := ih (value * 10 + Ascii.digitValue b)
    change value ≤ decimalValue (value * 10 + Ascii.digitValue b) run
    omega

/-- Digits whose value is small enough are the number of that value: the value is never held on the way. -/
theorem numberKind_decimal {value : Nat} {run : List UInt8} (hrun : ∀ b ∈ run, Ascii.isDigit b = true)
    (h : decimalValue value run < Scan.numberLimit) :
    Scan.numberKind 10 value run = .integer (Int32.ofNat (decimalValue value run)) := by
  induction run generalizing value with
  | nil => exact if_pos h
  | cons b run ih =>
    rw [List.forall_mem_cons] at hrun
    have hle := le_decimalValue (value * 10 + Ascii.digitValue b) run
    change decimalValue (value * 10 + Ascii.digitValue b) run < Scan.numberLimit at h
    rw [Scan.numberKind, Ascii.digit?_of_isDigit hrun.1]
    dsimp only
    rw [Nat.min_eq_left (by omega), ih hrun.2 h]
    rfl

/-! ## 5. One token -/

/-- How a token is written. -/
def Kind.spelling : Kind → String
  | .identifier name => name
  | .integer value => toString value.toInt
  | .operator symbol => symbol.text
  | .keyword word => word.text
  | .eof | .error _ => ""

/-- The tokens that can be written. -/
def Kind.Spellable : Kind → Prop
  | .identifier name => IsName name
  | .integer value => 0 ≤ value
  | .operator _ | .keyword _ => True
  | .eof | .error _ => False

/-- A token is not longer if the given byte comes behind it. -/
def Kind.EndsBefore (b : UInt8) : Kind → Prop
  | .identifier _ | .keyword _ => Ascii.isNameByte b = false
  | .integer _ => Ascii.isAlphanumeric b = false
  | .operator symbol => ∀ first, symbol.text = String.singleton first → Scan.pair? first (Char.ofUInt8 b) = none
  | .eof | .error _ => True

/-- The token is scanned off the front of the input, and nothing else. -/
def Kind.ScansBack (k : Kind) (spelled rest : List UInt8) : Prop :=
  (∃ b bytes, spelled = b :: bytes ∧ Ascii.isBlank b = false) ∧
    scan (.ofBytes (spelled ++ rest)) = ⟨k, spelled.length, .ofBytes rest⟩

namespace Scan

variable {rest : List UInt8}

theorem scan_word {first : UInt8} {run : List UInt8} (hfirst : Ascii.isLetter first = true)
    (hrun : ∀ b ∈ run, Ascii.isNameByte b = true) (hrest : ∀ b ∈ rest.head?, Ascii.isNameByte b = false) :
    (wordKind (first :: run)).ScansBack (first :: run) rest := by
  refine ⟨⟨first, run, rfl, Ascii.not_isBlank (Ascii.isNameByte_of_isLetter hfirst)⟩, ?_⟩
  change startingWith first (.ofBytes (run ++ rest)) = _
  unfold startingWith word
  rw [if_pos hfirst, Input.takeWhile_run hrun hrest, List.length_cons, Nat.add_comm]

theorem scan_name {name : String} (h : IsName name) (hrest : ∀ b ∈ rest.head?, Ascii.isNameByte b = false) :
    (Kind.identifier name).ScansBack (utf8 name) rest := by
  obtain ⟨⟨first, run, hfirst, hrun, rfl⟩, hfree⟩ := h
  have hascii : ∀ b ∈ first :: run, b.toNat < 128 := List.forall_mem_cons.mpr
    ⟨Ascii.isNameByte_lt (Ascii.isNameByte_of_isLetter hfirst), fun b hb => Ascii.isNameByte_lt (hrun b hb)⟩
  have hkind : wordKind (first :: run) = .identifier (Ascii.text (first :: run)) := by
    unfold wordKind
    rw [hfree]
  rw [utf8_text hascii, ← hkind]
  exact scan_word hfirst hrun hrest

/-- A letter and name bytes behind it. -/
def isWord : List UInt8 → Bool
  | first :: run => Ascii.isLetter first && run.all Ascii.isNameByte
  | [] => false

theorem keyword_spelled (word : Keyword) :
    isWord (utf8 word.text) = true ∧ wordKind (utf8 word.text) = .keyword word := by
  cases word <;> exact ⟨rfl, rfl⟩

theorem scan_keyword (word : Keyword) (hrest : ∀ b ∈ rest.head?, Ascii.isNameByte b = false) :
    (Kind.keyword word).ScansBack (utf8 word.text) rest := by
  obtain ⟨hword, hkind⟩ := keyword_spelled word
  rw [← hkind]
  cases hspelled : utf8 word.text with
  | nil =>
    rw [hspelled] at hword
    cases hword
  | cons first run =>
    rw [hspelled, isWord, Bool.and_eq_true, List.all_eq_true] at hword
    exact scan_word hword.1 hword.2 hrest

theorem scan_number {first : UInt8} {run : List UInt8} {n : Nat} (hfirst : Ascii.isDigit first = true)
    (hzero : first ≠ '0'.toUInt8) (hrun : ∀ b ∈ run, Ascii.isDigit b = true)
    (hvalue : decimalValue (Ascii.digitValue first) run = n) (hn : n < numberLimit)
    (hrest : ∀ b ∈ rest.head?, Ascii.isAlphanumeric b = false) :
    (Kind.integer (Int32.ofNat n)).ScansBack (first :: run) rest := by
  refine ⟨⟨first, run, rfl, Ascii.not_isBlank (Ascii.isNameByte_of_isDigit hfirst)⟩, ?_⟩
  change startingWith first (.ofBytes (run ++ rest)) = _
  unfold startingWith number
  rw [if_neg (by rw [Ascii.not_isLetter hfirst]; exact Bool.false_ne_true),
    if_neg (by rw [beq_iff_eq]; exact hzero), if_pos hfirst,
    Input.takeWhile_run (fun b hb => Ascii.isAlphanumeric_of_isDigit (hrun b hb)) hrest]
  dsimp only
  rw [numberKind_decimal hrun (by rw [hvalue]; exact hn), hvalue, List.length_cons, Nat.add_comm]

theorem scan_zero (hrest : ∀ b ∈ rest.head?, Ascii.isAlphanumeric b = false) :
    (Kind.integer 0).ScansBack ['0'.toUInt8] rest := by
  refine ⟨⟨_, _, rfl, rfl⟩, ?_⟩
  change startingWith '0'.toUInt8 (.ofBytes rest) = _
  have hstart : startingWith '0'.toUInt8 (.ofBytes rest) = leadingZero (.ofBytes rest) := by
    unfold startingWith
    rw [if_neg (by decide), if_pos (by decide)]
  rw [hstart]
  unfold leadingZero
  cases rest with
  | nil => rfl
  | cons b rest =>
    obtain ⟨hhex, hdigit, hletter⟩ := Ascii.not_numeral (hrest b rfl)
    change (if (b == 'x'.toUInt8 || b == 'X'.toUInt8) = true then _ else _) = _
    rw [hhex, hdigit, hletter]
    rfl

theorem scan_integer {value : Word} (h : 0 ≤ value)
    (hrest : ∀ b ∈ rest.head?, Ascii.isAlphanumeric b = false) :
    (Kind.integer value).ScansBack (utf8 (toString value.toInt)) rest := by
  obtain ⟨n, hn⟩ : ∃ n : Nat, value.toInt = n := Int.eq_ofNat_of_zero_le (Int32.le_iff_toInt_le.mp h)
  have hlimit : n < numberLimit := by
    have := value.toInt_lt
    unfold numberLimit
    omega
  have hword : value = Int32.ofNat n := by
    rw [← Int32.ofInt_toInt value, hn]
    rfl
  have hspelled : utf8 (toString value.toInt) = decimal n := by
    rw [hn, show toString (n : Int) = toString n from rfl, ← text_decimal]
    exact utf8_text fun b hb =>
      Ascii.isNameByte_lt (Ascii.isNameByte_of_isDigit (isDigit_of_mem_decimal n b hb))
  rw [hspelled, hword]
  -- other numbers do not start with the digit zero
  by_cases hzero : n = 0
  · subst hzero
    exact scan_zero hrest
  · obtain ⟨first, run, hdigits, hfirst, hvalue⟩ := decimal_eq_cons (Nat.pos_of_ne_zero hzero)
    have hdigit := isDigit_of_mem_decimal n
    rw [hdigits, List.forall_mem_cons] at hdigit
    rw [hdigits]
    exact scan_number hdigit.1 hfirst hdigit.2 hvalue hlimit hrest

/-- The bytes that only symbols start with. -/
def isSymbolByte (b : UInt8) : Bool := !Ascii.isBlank b && !Ascii.isNameByte b && b != '$'.toUInt8 &&
  b != '&'.toUInt8 && b < 0x80

theorem not_isBlank_of_symbol {b : UInt8} (h : isSymbolByte b = true) : Ascii.isBlank b = false := by
  simp only [isSymbolByte, Bool.and_eq_true, Bool.not_eq_true'] at h
  exact h.1.1.1.1

theorem startingWith_symbol {first : UInt8} (h : isSymbolByte first = true) (input : Input) :
    startingWith first input = symbol first input := by
  simp only [isSymbolByte, Bool.and_eq_true, Bool.not_eq_true', bne_iff_ne, decide_eq_true_eq] at h
  obtain ⟨⟨⟨⟨-, hname⟩, hdollar⟩, hand⟩, hascii⟩ := h
  rw [← Bool.not_eq_true] at hname
  have hdigit : ¬ Ascii.isDigit first = true := fun h => hname (Ascii.isNameByte_of_isDigit h)
  unfold startingWith
  rw [if_neg fun h => hname (Ascii.isNameByte_of_isLetter h), if_neg, if_neg hdigit, if_neg, if_neg, if_neg]
  · exact UInt8.not_le.mpr hascii
  · rw [Bool.and_eq_true, beq_iff_eq]
    exact fun h => hand h.1
  · rw [Bool.and_eq_true, beq_iff_eq]
    exact fun h => hdollar h.1
  · rw [beq_iff_eq]
    rintro rfl
    exact hdigit rfl

/-- A symbol of one byte that does not go on with the next one. -/
theorem scan_single {symbol : Operator} {first : UInt8} (hfirst : isSymbolByte first = true)
    (hsymbol : single? (Char.ofUInt8 first) = some symbol)
    (hrest : ∀ b ∈ rest.head?, pair? (Char.ofUInt8 first) (Char.ofUInt8 b) = none) :
    (Kind.operator symbol).ScansBack [first] rest := by
  refine ⟨⟨first, [], rfl, not_isBlank_of_symbol hfirst⟩, ?_⟩
  have hkind : singleKind first = .operator symbol := by
    unfold singleKind
    rw [hsymbol]
  change startingWith first (.ofBytes rest) = _
  rw [startingWith_symbol hfirst]
  unfold Scan.symbol
  cases rest with
  | nil => exact congrArg (Lexeme.mk · 1 _) hkind
  | cons b rest =>
    rw [show (Input.ofBytes (b :: rest)).next = .byte b (.ofBytes rest) from rfl]
    dsimp only
    rw [hrest b rfl, hkind]
    rfl

theorem scan_pair {symbol : Operator} {first second : UInt8} (hfirst : isSymbolByte first = true)
    (hsymbol : pair? (Char.ofUInt8 first) (Char.ofUInt8 second) = some symbol) :
    (Kind.operator symbol).ScansBack [first, second] rest := by
  refine ⟨⟨first, [second], rfl, not_isBlank_of_symbol hfirst⟩, ?_⟩
  change startingWith first (.ofBytes (second :: rest)) = _
  rw [startingWith_symbol hfirst]
  unfold Scan.symbol
  rw [show (Input.ofBytes (second :: rest)).next = .byte second (.ofBytes rest) from rfl]
  dsimp only
  rw [hsymbol]
  rfl

/-- A symbol is written with two bytes that spell it together, or with one byte that spells it alone. -/
theorem operator_spelled (symbol : Operator) :
    (∃ first second, utf8 symbol.text = [first, second] ∧ isSymbolByte first = true ∧
      pair? (Char.ofUInt8 first) (Char.ofUInt8 second) = some symbol) ∨
    ∃ first, utf8 symbol.text = [first] ∧ isSymbolByte first = true ∧
      single? (Char.ofUInt8 first) = some symbol ∧ symbol.text = String.singleton (Char.ofUInt8 first) := by
  cases symbol with
  | range | notEq | lessEq | greaterEq | assign => exact .inl ⟨_, _, rfl, rfl, rfl⟩
  | _ => exact .inr ⟨_, rfl, rfl, rfl, rfl⟩

theorem scan_operator {symbol : Operator} (hrest : ∀ b ∈ rest.head?, (Kind.operator symbol).EndsBefore b) :
    (Kind.operator symbol).ScansBack (utf8 symbol.text) rest := by
  rcases operator_spelled symbol with ⟨first, second, hbytes, hfirst, hpair⟩ | ⟨first, hbytes, hfirst, hsingle, htext⟩
  · rw [hbytes]
    exact scan_pair hfirst hpair
  · rw [hbytes]
    exact scan_single hfirst hsingle fun b hb => hrest b hb _ htext

end Scan

/-- A token that is written is scanned back, if the byte behind it does not go on with it. -/
theorem Kind.Spellable.scansBack {k : Kind} (h : k.Spellable) {rest : List UInt8}
    (hrest : ∀ b ∈ rest.head?, k.EndsBefore b) : k.ScansBack (utf8 k.spelling) rest := by
  cases k with
  | identifier name => exact Scan.scan_name h hrest
  | integer value => exact Scan.scan_integer h hrest
  | operator symbol => exact Scan.scan_operator hrest
  | keyword word => exact Scan.scan_keyword word hrest
  | eof | error _ => exact h.elim

/-! ## 6. Texts -/

namespace Kind

/-- No blank is written behind opening brackets and quotes. -/
def isOpening : Kind → Bool
  | .operator .lparen | .operator .lbracket | .operator .quote => true
  | _ => false

/-- No blank is written before closing brackets and quotes, and before separators. -/
def isClosing : Kind → Bool
  | .operator .rparen | .operator .rbracket | .operator .quote | .operator .comma | .operator .semicolon
  | .operator .colon => true
  | _ => false

/-- No blank is written between a word of this kind and an opening bracket. -/
def isLeading : Kind → Bool
  | .identifier _ | .keyword .write | .keyword .writeln | .keyword .readln | .keyword .inc | .keyword .dec => true
  | _ => false

/-- What is written between two tokens. -/
def gap (k k' : Kind) : String :=
  if k.isOpening || k'.isClosing || k.isLeading && k'.isOpening || k == .keyword .end && k' == .operator .dot then ""
  else " "

end Kind

/-- The text of the tokens behind a given one. -/
def spellBehind (k : Kind) : List Kind → String
  | [] => ""
  | k' :: ks => k.gap k' ++ k'.spelling ++ spellBehind k' ks

/-- The text of a sequence of tokens. -/
def spell : List Kind → String
  | [] => ""
  | k :: ks => k.spelling ++ spellBehind k ks

/-- The bytes that no token goes on with. -/
def isBreak (b : UInt8) : Bool := b == ' '.toUInt8 || b == '('.toUInt8 || b == ')'.toUInt8 || b == '['.toUInt8 ||
  b == ']'.toUInt8 || b == '\''.toUInt8 || b == ','.toUInt8 || b == ';'.toUInt8 || b == ':'.toUInt8

theorem of_isBreak {b : UInt8} (h : isBreak b = true) : Ascii.isNameByte b = false ∧
    Ascii.isAlphanumeric b = false ∧ Char.ofUInt8 b ≠ '.' ∧ Char.ofUInt8 b ≠ '>' ∧ Char.ofUInt8 b ≠ '=' := by
  simp only [isBreak, Bool.or_eq_true, beq_iff_eq] at h
  rcases h with (((((((rfl | rfl) | rfl) | rfl) | rfl) | rfl) | rfl) | rfl) | rfl <;> decide

theorem Kind.endsBefore_break (k : Kind) {b : UInt8} (h : isBreak b = true) : k.EndsBefore b := by
  obtain ⟨hname, hnumber, hdot, hgreater, heq⟩ := of_isBreak h
  cases k with
  | identifier _ | keyword _ => exact hname
  | integer _ => exact hnumber
  | operator symbol =>
    intro first _
    unfold Scan.pair?
    split
    · exact absurd (by assumption) hdot
    · exact absurd (by assumption) hgreater
    · exact absurd (by assumption) heq
    · exact absurd (by assumption) heq
    · exact absurd (by assumption) heq
    · rfl
  | eof | error _ => trivial

/-- Brackets, quotes and separators are written with a byte that no token goes on with. -/
theorem Kind.break_of_bracket {k : Kind} (h : k.isOpening = true ∨ k.isClosing = true) :
    ∃ b, utf8 k.spelling = [b] ∧ isBreak b = true := by
  cases k with
  | operator symbol =>
    cases symbol with
    | lparen | lbracket | quote | rparen | rbracket | comma | semicolon | colon => exact ⟨_, rfl, rfl⟩
    | _ => rcases h with h | h <;> cases h
  | _ => rcases h with h | h <;> cases h

/-- No symbol of two bytes starts with a bracket or a quote. -/
theorem Kind.endsBefore_of_isOpening {k : Kind} (h : k.isOpening = true) (b : UInt8) : k.EndsBefore b := by
  have hnone : ∀ first : Char, first = '(' ∨ first = '[' ∨ first = '\'' →
      ∀ second, Scan.pair? first second = none := by
    rintro _ (rfl | rfl | rfl) second <;> rfl
  cases k with
  | operator symbol =>
    intro first htext
    have hlist := congrArg String.toList htext
    rw [String.toList_singleton] at hlist
    refine hnone first ?_ _
    cases symbol with
    | lparen => exact .inl (List.cons.inj hlist).1.symm
    | lbracket => exact .inr (.inl (List.cons.inj hlist).1.symm)
    | quote => exact .inr (.inr (List.cons.inj hlist).1.symm)
    | _ => cases h
  | _ => cases h

/-- A token ends where the gap between it and the next token begins, or where the next token does. -/
theorem Kind.endsBefore_gap (k k' : Kind) (rest : List UInt8) :
    ∀ b ∈ (utf8 (k.gap k') ++ (utf8 k'.spelling ++ rest)).head?, k.EndsBefore b := by
  intro b hb
  unfold gap at hb
  split at hb
  · next htight =>
    have hnext : k'.isOpening = true ∨ k'.isClosing = true → k.EndsBefore b := by
      intro hbracket
      obtain ⟨b', hspelled, hbreak⟩ := break_of_bracket hbracket
      rw [hspelled] at hb
      obtain rfl := Option.some.inj hb
      exact k.endsBefore_break hbreak
    simp only [Bool.or_eq_true, Bool.and_eq_true, beq_iff_eq] at htight
    -- where there is no gap, the bytes of one of the two tokens never go on with the other
    rcases htight with ((hopening | hclosing) | ⟨-, hopening⟩) | ⟨rfl, rfl⟩
    · exact endsBefore_of_isOpening hopening b
    · exact hnext (.inr hclosing)
    · exact hnext (.inl hopening)
    · obtain rfl := Option.some.inj hb
      rfl
  · obtain rfl := Option.some.inj hb
    exact k.endsBefore_break rfl

theorem Kind.isBlank_gap (k k' : Kind) : ∀ b ∈ utf8 (k.gap k'), Ascii.isBlank b = true := by
  unfold gap
  split
  · exact fun b hb => by cases hb
  · exact List.forall_mem_singleton.mpr rfl

namespace Cursor

theorem token_spelled {k : Kind} (hk : k.Spellable) {blanks rest : List UInt8}
    (hblanks : ∀ b ∈ blanks, Ascii.isBlank b = true) (hrest : ∀ b ∈ rest.head?, k.EndsBefore b) (position : Nat) :
    ∃ span next, (Cursor.mk (.ofBytes (blanks ++ (utf8 k.spelling ++ rest))) position).token =
      (⟨k, span⟩, ⟨.ofBytes rest, next⟩) := by
  obtain ⟨⟨b, bytes, hspelled, hblank⟩, hscan⟩ := hk.scansBack hrest
  have hskip : (Input.ofBytes (blanks ++ (utf8 k.spelling ++ rest))).takeWhile Ascii.isBlank =
      (blanks, .ofBytes (utf8 k.spelling ++ rest)) := by
    refine Input.takeWhile_run hblanks fun b' hb' => ?_
    rw [hspelled] at hb'
    obtain rfl := Option.some.inj hb'
    exact hblank
  unfold token skipBlanks
  dsimp only
  rw [hskip]
  dsimp only
  rw [hscan]
  exact ⟨_, _, rfl⟩

theorem stream_nil (position : Nat) : (Cursor.mk (.ofBytes []) position).stream.pending = [] := by
  rw [stream]
  rfl

theorem stream_cons {c c' : Cursor} {t : Token} (h : c.token = (t, c')) (ht : t.kind ≠ .eof) :
    c.stream.pending = t :: c'.stream.pending := by
  rw [stream, h, if_neg ht]
  rfl

theorem kinds_spellBehind (k : Kind) {ks : List Kind} (hks : ∀ k ∈ ks, k.Spellable) (position : Nat) :
    (Cursor.mk (.ofBytes (utf8 (spellBehind k ks))) position).stream.pending.map Token.kind = ks := by
  induction ks generalizing k position with
  | nil => exact congrArg (List.map Token.kind) (stream_nil position)
  | cons k' ks ih =>
    rw [List.forall_mem_cons] at hks
    have hbehind : ∀ b ∈ (utf8 (spellBehind k' ks)).head?, k'.EndsBefore b := by
      cases ks with
      | nil => exact fun b hb => by cases hb
      | cons k'' ks =>
        unfold spellBehind
        rw [utf8_append, utf8_append, List.append_assoc]
        exact k'.endsBefore_gap k'' _
    obtain ⟨span, next, htoken⟩ := token_spelled hks.1 (k.isBlank_gap k') hbehind position
    have heof : k' ≠ .eof := by
      rintro rfl
      exact hks.1
    rw [spellBehind, utf8_append, utf8_append, List.append_assoc, stream_cons htoken heof, List.map_cons,
      ih k' hks.2 next]

end Cursor

/-- The tokens of a text that was written are those that it was written from. -/
theorem kinds_spell {ks : List Kind} (hks : ∀ k ∈ ks, k.Spellable) :
    (Cursor.ofInput (.ofString (spell ks))).stream.pending.map Token.kind = ks := by
  cases ks with
  | nil => exact congrArg (List.map Token.kind) (Cursor.stream_nil 0)
  | cons k ks =>
    -- a text starts as what stands behind an opening bracket does
    exact Cursor.kinds_spellBehind (.operator .lparen) hks 0

end Mila
