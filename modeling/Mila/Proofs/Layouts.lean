import Mila.Proofs.Numerals

/-! # Layouts

A sequence of tokens can be written in many ways: there are several spellings of a number, and any blanks may stand
between two tokens. Whichever is chosen, lexing gives back the tokens, each where it was written.
-/

namespace Mila

/-! ## 1. Spellings of a token -/

/-- The texts that a token is written as. -/
inductive Kind.Written : Kind → String → Prop
  | operator (symbol : Operator) : Written (.operator symbol) symbol.text
  | keyword (word : Keyword) : Written (.keyword word) word.text
  | identifier {name : String} (h : IsName name) : Written (.identifier name) name
  | zero : Written (.integer 0) "0"
  | number {i : Introducer} {run : List UInt8} {v : Word} (hi : i.Admits run)
    (hrun : ∀ b ∈ run, Ascii.IsDigitOf i.radix b) (hv : v.toInt = i.value run) :
    Written (.integer v) (Ascii.text (i.bytes ++ run))

namespace Introducer

variable {i : Introducer} {run : List UInt8}

/-- Digits whose value is that of a word are the number of that word. -/
theorem kind_eq_integer (hrun : ∀ b ∈ run, Ascii.IsDigitOf i.radix b) {v : Word} (hv : v.toInt = i.value run) :
    i.kind run = .integer v := by
  have hbad : run.find? (fun b => ¬ Ascii.IsDigitOf i.radix b) = none :=
    List.find?_eq_none.mpr fun b hb => by simpa using hrun b hb
  have hword : Int32.ofNat (i.value run) = v := by
    rw [← Int32.ofInt_toInt v, hv]
    rfl
  have hlimit : i.value run ≤ 2147483647 := by
    have := v.toInt_lt
    omega
  unfold kind
  rw [hbad]
  dsimp only
  rw [if_pos hlimit, hword]

theorem ascii_bytes (hi : i.Admits run) : ∀ b ∈ i.bytes, b.toNat < 128 := by
  cases i with
  | digit first => exact List.forall_mem_singleton.mpr (Ascii.isNameByte_lt (Ascii.isNameByte_of_isDigit hi.1))
  | hexMark mark =>
    refine List.forall_mem_cons.mpr ⟨by decide, List.forall_mem_singleton.mpr ?_⟩
    rcases hi.1 with rfl | rfl <;> decide
  | zero | dollar | ampersand => exact List.forall_mem_singleton.mpr (by decide)

end Introducer

variable {b : UInt8} {k : Kind} {text trail : String} {rest : List UInt8} {radix : Nat} {p : Piece}
  {pieces : List Piece}

theorem Kind.endsBefore_blank (k : Kind) (h : Ascii.isBlank b = true) : k.EndsBefore b := by
  have hstop := Ascii.isStop_of_isBlank h
  cases k with
  | identifier _ | keyword _ => exact hstop.name
  | integer _ => exact hstop.number
  | operator symbol => exact fun first _ => hstop.symbol first
  | eof | error _ => trivial

/-- A spelling of a token is scanned back, if nothing or a blank comes behind it. -/
theorem Kind.Written.scansBack (h : k.Written text)
    (hrest : ∀ b ∈ rest.head?, Ascii.isBlank b = true) : k.ScansBack (utf8 text) rest := by
  have hends : ∀ k : Kind, ∀ b ∈ rest.head?, k.EndsBefore b := fun k b hb => k.endsBefore_blank (hrest b hb)
  cases h with
  | operator symbol => exact Scan.scan_operator (hends _)
  | keyword word => exact Scan.scan_keyword word (hends (.keyword word))
  | identifier h => exact Scan.scan_name h (hends (.identifier text))
  | zero => exact Scan.scan_zero (hends (.integer 0))
  | @number i run v hi hrun hv =>
    have halnum : ∀ b ∈ run, Ascii.isAlphanumeric b = true :=
      fun b hb => Scan.isAlphanumeric_of_digit? (hrun b hb)
    have hascii : ∀ b ∈ i.bytes ++ run, b.toNat < 128 := List.forall_mem_append.mpr
      ⟨Introducer.ascii_bytes hi, fun b hb => Ascii.isNameByte_lt (Ascii.isNameByte_iff.mpr (.inl (halnum b hb)))⟩
    rw [utf8_text hascii, ← Introducer.kind_eq_integer hrun hv]
    exact Introducer.scansBack hi halnum (hends (.integer 0))

/-- Where nothing is left, the next token is the end of input. -/
theorem Cursor.token_of_end {input : Input} (position : Nat) (hbytes : input.bytes = [])
    (hending : input.ending = none) : (Cursor.mk input position).token.1.kind = .eof := by
  have hstream := stream_of_blanks position fun b hb => by
    rw [hbytes] at hb
    cases hb
  -- any other token would be a pending one
  by_contra hkind
  rw [stream, if_neg hkind, hending] at hstream
  cases hstream

theorem Kind.Written.ofText_eq (h : k.Written text) : Kind.ofText text = .ok k := by
  have hbytes : (Input.ofString text).bytes = [] ++ (utf8 text ++ []) := by
    rw [Input.bytes_ofString, List.nil_append, List.append_nil]
    rfl
  have hscans : k.ScansBack (utf8 text) [] := h.scansBack fun b hb => by cases hb
  obtain ⟨left, hleft, hending, htoken⟩ := hscans.token_eq 0 (fun b hb => by cases hb) hbytes
  have heof := Cursor.token_of_end (0 + ([] : List UInt8).length + (utf8 text).length) hleft
    (hending.trans (Input.ending_ofBytes _))
  unfold ofText
  rw [Cursor.ofInput, htoken]
  cases h <;> exact if_pos heof

/-! ## 2. Numbers in every notation -/

/-- The digits of a number in a radix, the first one in front. -/
def digitsIn (radix n : Nat) : List UInt8 := (Nat.toDigits radix n).map Char.toUInt8

theorem hexDigit_facts : ∀ d : Fin 16, Ascii.isAlphanumeric (Nat.digitChar d).toUInt8 = true ∧
    Ascii.digitValue (Nat.digitChar d).toUInt8 = d := by
  decide

theorem digitsIn_spec (hradix : 1 < radix) (hlarge : radix ≤ 16) (n : Nat) :
    digitsIn radix n ≠ [] ∧ (∀ b ∈ digitsIn radix n, Ascii.IsDigitOf radix b) ∧
      numeralValue radix (digitsIn radix n) = n := by
  have hdigit : ∀ d < radix, Ascii.IsDigitOf radix (Nat.digitChar d).toUInt8 ∧
      Ascii.digitValue (Nat.digitChar d).toUInt8 = d := by
    intro d hd
    obtain ⟨halnum, hvalue⟩ := hexDigit_facts ⟨d, by omega⟩
    refine ⟨?_, hvalue⟩
    unfold Ascii.IsDigitOf Ascii.digit?
    rw [halnum, hvalue, Bool.true_and, if_pos (decide_eq_true hd)]
    rfl
  induction n using Nat.strongRecOn with
  | ind n ih =>
    unfold digitsIn at ih ⊢
    by_cases hn : n < radix
    · obtain ⟨hdigit, hvalue⟩ := hdigit n hn
      rw [Nat.toDigits_of_lt_base hn, List.map_singleton, numeralValue_singleton, List.forall_mem_singleton]
      exact ⟨List.cons_ne_nil _ _, hdigit, hvalue⟩
    · -- the last digit is the remainder
      obtain ⟨-, hdigits, hquotient⟩ := ih (n / radix) (Nat.div_lt_self (by omega) hradix)
      obtain ⟨hdigit, hvalue⟩ := hdigit (n % radix) (Nat.mod_lt n (by omega))
      rw [Nat.toDigits_of_base_le hradix (by omega), List.map_append, List.map_singleton, numeralValue_concat,
        hquotient, hvalue, List.forall_mem_append, List.forall_mem_singleton]
      exact ⟨List.append_ne_nil_of_right_ne_nil _ (List.cons_ne_nil _ _), ⟨hdigits, hdigit⟩, Nat.div_add_mod' n radix⟩

theorem Ascii.isDigit_of_isDigitOf (h : IsDigitOf radix b) (hradix : radix ≤ 10) : isDigit b = true := by
  have hvalue := digitValue_lt h
  by_contra hdigit
  -- letters are worth ten or more
  unfold digitValue at hvalue
  rw [if_neg hdigit] at hvalue
  split at hvalue <;> omega

/-- The marks that may stand before the digits of any number. -/
def Introducer.marks : List Introducer := [.hexMark 'x'.toUInt8, .hexMark 'X'.toUInt8, .zero, .dollar, .ampersand]

theorem Introducer.admits_of_mem_marks {i : Introducer} (hi : i ∈ marks) {run : List UInt8} (hne : run ≠ [])
    (hrun : ∀ b ∈ run, Ascii.IsDigitOf i.radix b) : i.Admits run ∧ i.digits = [] := by
  obtain ⟨b, run, rfl⟩ := List.exists_cons_of_ne_nil hne
  have hb := hrun b List.mem_cons_self
  simp only [marks, List.mem_cons, List.not_mem_nil, or_false] at hi
  rcases hi with rfl | rfl | rfl | rfl | rfl
  · exact ⟨⟨.inl rfl, hne⟩, rfl⟩
  · exact ⟨⟨.inr rfl, hne⟩, rfl⟩
  · exact ⟨⟨b, rfl, Ascii.isDigit_of_isDigitOf hb (by decide)⟩, rfl⟩
  · exact ⟨⟨b, rfl, hb⟩, rfl⟩
  · exact ⟨⟨b, rfl, Ascii.isDigit_of_isDigitOf hb (by decide)⟩, rfl⟩

/-- Every number has a spelling in decimal, and one behind each mark. -/
theorem Kind.written_integer {v : Word} (h : 0 ≤ v) : (Kind.integer v).Written (toString v.toInt) ∧
    ∀ i ∈ Introducer.marks, (Kind.integer v).Written (Ascii.text (i.bytes ++ digitsIn i.radix v.toInt.toNat)) := by
  obtain ⟨n, hn⟩ : ∃ n : Nat, v.toInt = n := Int.eq_ofNat_of_zero_le (Int32.le_iff_toInt_le.mp h)
  rw [hn, Int.toNat_natCast]
  constructor
  · rw [show toString (n : Int) = toString n from rfl, ← text_decimal]
    -- other numbers do not start with the digit zero
    rcases Nat.eq_zero_or_pos n with rfl | hpos
    · obtain rfl : v = 0 := Int32.toInt_inj.mp hn
      exact .zero
    · obtain ⟨-, hdigits, hvalue⟩ := @digitsIn_spec 10 (by decide) (by decide) n
      obtain ⟨first, run, hcons, hfirst, -⟩ := decimal_eq_cons hpos
      change digitsIn 10 n = _ at hcons
      rw [hcons, List.forall_mem_cons] at hdigits
      rw [hcons] at hvalue
      change (Kind.integer v).Written (Ascii.text (digitsIn 10 n))
      rw [hcons]
      exact .number (i := .digit first) ⟨Ascii.isDigit_of_isDigitOf hdigits.1 (by decide), hfirst⟩ hdigits.2
        (by rw [hn, ← hvalue]; rfl)
  · intro i hi
    have hradix : 1 < i.radix ∧ i.radix ≤ 16 := by
      unfold Introducer.radix
      split <;> decide
    obtain ⟨hne, hdigits, hvalue⟩ := digitsIn_spec hradix.1 hradix.2 n
    obtain ⟨hadmits, hbefore⟩ := Introducer.admits_of_mem_marks hi hne hdigits
    refine .number hadmits hdigits ?_
    rw [hn, Introducer.value, hbefore, List.nil_append, hvalue]

/-! ## 3. Texts -/

/-- A token as it is written: its text, and what is written before it. -/
structure Piece where
  gap : String
  text : String
  kind : Kind

namespace Piece

/-- The text of pieces one behind the other, and of what comes behind the last one. -/
def textOf (trail : String) : List Piece → String
  | [] => trail
  | p :: pieces => p.gap ++ (p.text ++ textOf trail pieces)

/-- The tokens of pieces that start at the given offset. -/
def tokensOf (offset : Nat) : List Piece → List Token
  | [] => []
  | p :: pieces =>
    ⟨p.kind, Span.ofLength (offset + p.gap.utf8ByteSize) p.text.utf8ByteSize⟩ ::
      tokensOf (offset + p.gap.utf8ByteSize + p.text.utf8ByteSize) pieces

end Piece

/-- A text of blanks. -/
def IsBlankText (s : String) : Prop := ∀ b ∈ utf8 s, Ascii.isBlank b = true

/-- Tokens are written with blanks around them, and at least one between two of them. -/
structure Layout (pieces : List Piece) (trail : String) : Prop where
  written : ∀ p ∈ pieces, p.kind.Written p.text
  blank : ∀ p ∈ pieces, IsBlankText p.gap
  trailing : IsBlankText trail
  apart : ∀ p ∈ pieces.tail, p.gap ≠ ""

theorem length_utf8 (s : String) : (utf8 s).length = s.utf8ByteSize := rfl

theorem Layout.tail (h : Layout (p :: pieces) trail) : Layout pieces trail where
  written := (List.forall_mem_cons.mp h.written).2
  blank := (List.forall_mem_cons.mp h.blank).2
  trailing := h.trailing
  apart q hq := h.apart q (List.mem_of_mem_tail hq)

/-- What comes behind a piece starts with a blank, if there is anything. -/
theorem Layout.blank_behind (h : Layout (p :: pieces) trail) :
    ∀ b ∈ (utf8 (Piece.textOf trail pieces)).head?, Ascii.isBlank b = true := by
  intro b hb
  cases pieces with
  | nil => exact h.trailing b (List.mem_of_head? hb)
  | cons q pieces =>
    have hgap : utf8 q.gap ≠ [] := fun hnil =>
      h.apart q List.mem_cons_self (String.utf8ByteSize_eq_zero_iff.mp (congrArg List.length hnil))
    obtain ⟨b', bytes, hbytes⟩ := List.exists_cons_of_ne_nil hgap
    rw [Piece.textOf, utf8_append, hbytes] at hb
    obtain rfl := Option.some.inj hb
    exact h.tail.blank q List.mem_cons_self b' (by rw [hbytes]; exact List.mem_cons_self)

/-- A token that is scanned back stands before what comes behind it. -/
theorem Kind.ScansBack.tiled {spelled blanks : List UInt8} {position : Nat} {tokens : List Token}
    (h : k.ScansBack spelled rest) (hblanks : ∀ b ∈ blanks, Ascii.isBlank b = true)
    (hrest : Tiled (position + blanks.length + spelled.length) rest tokens) :
    Tiled position (blanks ++ (spelled ++ rest))
      (⟨k, Span.ofLength (position + blanks.length) spelled.length⟩ :: tokens) := by
  obtain ⟨⟨first, run, rfl, hfirst⟩, hscan⟩ := h
  rw [List.cons_append] at hscan
  have htoken := Tiled.token hblanks hfirst (by rw [hscan, List.length_cons]) hrest
  rwa [hscan] at htoken

theorem Layout.tiled (h : Layout pieces trail) (position : Nat) :
    Tiled position (utf8 (Piece.textOf trail pieces)) (Piece.tokensOf position pieces) := by
  induction pieces generalizing position with
  | nil => exact .blanks h.trailing
  | cons p pieces ih =>
    have hscans := (h.written p List.mem_cons_self).scansBack h.blank_behind
    rw [Piece.textOf, utf8_append, utf8_append]
    exact hscans.tiled (h.blank p List.mem_cons_self) (ih h.tail _)

/-- The span of a piece covers its text, unless that is too long for a span. -/
theorem Piece.cut_tokensOf (trail : String) (before : List UInt8)
    (hsize : ∀ p ∈ pieces, p.text.utf8ByteSize ≤ Span.maxLength) :
    (tokensOf before.length pieces).map (fun t => t.span.cut (before ++ utf8 (textOf trail pieces))) =
      pieces.map (fun p => utf8 p.text) := by
  induction pieces generalizing before with
  | nil => rfl
  | cons p pieces ih =>
    rw [List.forall_mem_cons] at hsize
    rw [textOf, utf8_append, utf8_append, tokensOf, List.map_cons, List.map_cons]
    have hcut : (Span.ofLength (before.length + p.gap.utf8ByteSize) p.text.utf8ByteSize).cut
        (before ++ (utf8 p.gap ++ (utf8 p.text ++ utf8 (textOf trail pieces)))) = utf8 p.text := by
      unfold Span.cut Span.ofLength
      dsimp only
      rw [Nat.min_eq_left hsize.1, ← length_utf8 p.gap, ← List.length_append, ← List.append_assoc, List.drop_left,
        ← length_utf8 p.text, List.take_left]
    have hbehind := ih (before ++ utf8 p.gap ++ utf8 p.text) hsize.2
    rw [List.length_append, List.length_append, length_utf8, length_utf8, List.append_assoc, List.append_assoc]
      at hbehind
    rw [hcut, hbehind]

/-- Lexing a text gives back the tokens that were written, whatever blanks stand around them and however the numbers
are spelled, and behind them the end of input. Every token covers the piece of the text that it was written as, and
that piece alone is read as the token. Any number can be written in decimal and behind any of the marks. -/
theorem tokens_layout {pieces : List Piece} {trail : String} (h : Layout pieces trail) :
    tokens (Piece.textOf trail pieces) =
      Piece.tokensOf 0 pieces ++ [⟨.eof, ⟨(Piece.textOf trail pieces).utf8ByteSize, 0⟩⟩] ∧
    ((∀ p ∈ pieces, p.text.utf8ByteSize < 0x100000000) →
      (Piece.tokensOf 0 pieces).map (fun t => t.span.cut (utf8 (Piece.textOf trail pieces))) =
        pieces.map (fun p => utf8 p.text)) ∧
    (∀ p ∈ pieces, Kind.ofText p.text = .ok p.kind) ∧
    ∀ v : Word, 0 ≤ v → (Kind.integer v).Written (toString v.toInt) ∧
      ∀ i ∈ Introducer.marks, (Kind.integer v).Written (Ascii.text (i.bytes ++ digitsIn i.radix v.toInt.toNat)) := by
  refine ⟨?_, fun hsize => ?_, fun p hp => (h.written p hp).ofText_eq, fun v hv => Kind.written_integer hv⟩
  · have hstream : tokens (Piece.textOf trail pieces) = (streamOf (utf8 (Piece.textOf trail pieces))).toList := rfl
    rw [hstream, (h.tiled 0).streamOf_eq]
    rfl
  · exact Piece.cut_tokensOf trail [] fun p hp => Nat.le_of_lt_succ (hsize p hp)

/-- A keyword and a name that starts like it, two symbols that would be one without the blank between them, and the
greatest number in two notations. -/
def scattered : List Piece := [
  ⟨"\t", "end", .keyword .end⟩,
  ⟨" ", "end_1", .identifier "end_1"⟩,
  ⟨"\r\n", "<", .operator .less⟩,
  ⟨" ", "=", .operator .eq⟩,
  ⟨"  ", "0X007fffFFFF", .integer 2147483647⟩,
  ⟨"\n", "&17777777777", .integer 2147483647⟩]

theorem scattered_layout : Layout scattered "\n" where
  written := by
    have hname : IsName "end_1" :=
      ⟨⟨'e'.toUInt8, utf8 "nd_1", rfl, by decide +kernel, by decide +kernel⟩, by decide +kernel⟩
    have hhex : (Kind.integer 2147483647).Written "0X007fffFFFF" :=
      @Kind.Written.number (.hexMark 'X'.toUInt8) (utf8 "007fffFFFF") 2147483647 ⟨.inr rfl, by decide +kernel⟩
        (by decide +kernel) (by decide +kernel)
    have hoctal : (Kind.integer 2147483647).Written "&17777777777" :=
      @Kind.Written.number .ampersand (utf8 "17777777777") 2147483647 ⟨'1'.toUInt8, rfl, rfl⟩
        (by decide +kernel) (by decide +kernel)
    simp only [scattered, List.forall_mem_cons]
    exact ⟨.keyword .end, .identifier hname, .operator .less, .operator .eq, hhex, hoctal, fun p hp => by cases hp⟩
  blank := by
    unfold IsBlankText
    decide +kernel
  trailing := by
    unfold IsBlankText
    decide +kernel
  apart := by decide +kernel

/-- The text of these pieces and a line feed behind them. -/
theorem tokens_layout_scattered : tokens "\tend end_1\r\n< =  0X007fffFFFF\n&17777777777\n" =
    [⟨.keyword .end, ⟨1, 3⟩⟩, ⟨.identifier "end_1", ⟨5, 5⟩⟩, ⟨.operator .less, ⟨12, 1⟩⟩, ⟨.operator .eq, ⟨14, 1⟩⟩,
      ⟨.integer 2147483647, ⟨17, 12⟩⟩, ⟨.integer 2147483647, ⟨30, 12⟩⟩, ⟨.eof, ⟨43, 0⟩⟩] ∧
    Kind.ofText "&17777777777" = .ok (.integer 2147483647) := by
  obtain ⟨htokens, -, htext, -⟩ := tokens_layout scattered_layout
  exact ⟨htokens, htext ⟨"\n", "&17777777777", .integer 2147483647⟩ (by simp [scattered])⟩

end Mila
