import Mila.Proofs.Accepting
import Mila.Proofs.Stopping

/-! # Tokens of a source text

Scanning takes bytes off the front of the input, and a token covers just those bytes that were taken for it. So
the tokens of a text stand one behind the other, within the text. What they can be is limited too: numbers are
not negative, and names are spelled by letters, digits and underscores.
-/

namespace Mila

/-! ## 1. The bytes that are taken -/

namespace Input

variable {input rest : Input} {value : UInt8}

theorem bytes_of_next_byte (h : input.next = .byte value rest) : input.bytes = value :: rest.bytes := by
  induction input with
  | nil => cases h
  | cons event events ih =>
    cases event with
    | byte v =>
      obtain ⟨rfl, rfl⟩ := Arrival.byte.inj h
      rfl
    | interrupted => exact ih h
    | failure reason => cases h
    | finished => cases h

theorem bytes_of_next_failure {reason : ReadFailure} (h : input.next = .failure reason) : input.bytes = [] := by
  induction input with
  | nil => rfl
  | cons event events ih =>
    cases event with
    | byte v => cases h
    | interrupted => exact ih h
    | failure reason => rfl
    | finished => rfl

theorem takeWhile_append_bytes (p : UInt8 → Bool) (input : Input) :
    (input.takeWhile p).1 ++ (input.takeWhile p).2.bytes = input.bytes := by
  fun_induction takeWhile p input with
  | case1 value rest h taken left htake ih =>
    rw [htake] at ih
    exact congrArg (value :: ·) ih
  | case2 value rest h => rfl
  | case3 rest ih => exact ih
  | case4 input h h' => rfl

theorem of_mem_takeWhile {p : UInt8 → Bool} {input : Input} : ∀ b ∈ (input.takeWhile p).1, p b = true := by
  fun_induction takeWhile p input with
  | case1 value rest h taken left htake ih =>
    rw [htake] at ih
    intro b hb
    rcases List.mem_cons.mp hb with rfl | hb
    · exact h
    · exact ih b hb
  | case2 value rest h => exact fun b hb => by cases hb
  | case3 rest ih => exact ih
  | case4 input h h' => exact fun b hb => by cases hb

theorem takeUpTo_append_bytes (p : UInt8 → Bool) (limit : Nat) (input : Input) :
    (input.takeUpTo p limit).1 ++ (input.takeUpTo p limit).2.bytes = input.bytes := by
  fun_induction takeUpTo p limit input with
  | case1 limit value rest h taken left htake ih =>
    rw [htake] at ih
    exact congrArg (value :: ·) ih
  | case2 limit value rest h => rfl
  | case3 limit rest ih => exact ih
  | case4 limit input h h' => rfl

theorem length_takeWhile_add (p : UInt8 → Bool) (input : Input) :
    (input.takeWhile p).1.length + (input.takeWhile p).2.bytes.length = input.bytes.length := by
  rw [← List.length_append, takeWhile_append_bytes]

theorem bytes_ofBytes (bytes : List UInt8) : (ofBytes bytes).bytes = bytes := by
  induction bytes with
  | nil => rfl
  | cons b bytes ih => exact congrArg (b :: ·) ih

theorem bytes_ofString (s : String) : (ofString s).bytes = s.toUTF8.data.toList := bytes_ofBytes _

end Input

/-- The bytes that a token covers and those that are left are those that there were. -/
def Lexeme.Covers (l : Lexeme) (lead : Nat) (input : Input) : Prop :=
  l.size + l.rest.bytes.length = lead + input.bytes.length

namespace Scan

/-- A property of the token that starts with a given byte, from what the rules for such tokens do. -/
theorem startingWith_rule {P : Lexeme → Prop} {first : UInt8} {input : Input}
    (hword : Ascii.isLetter first = true → P (word first input))
    (hzero : P (leadingZero input)) (hnumber : ∀ radix value, P (number radix value 1 input))
    (hforeign : 0x80 ≤ first → P (foreign first input)) (hsymbol : P (symbol first input)) :
    P (startingWith first input) := by
  unfold startingWith
  split
  · next h => exact hword h
  split
  · exact hzero
  split
  · exact hnumber _ _
  split
  · exact hnumber _ _
  split
  · exact hnumber _ _
  split
  · next h => exact hforeign h
  · exact hsymbol

theorem number_covers (radix value lead : Nat) (input : Input) :
    (number radix value lead input).Covers lead input := by
  have hrun := input.length_takeWhile_add Ascii.isAlphanumeric
  unfold number Lexeme.Covers
  dsimp only
  omega

theorem leadingZero_covers (input : Input) : (leadingZero input).Covers 1 input := by
  have hname := input.length_takeWhile_add Ascii.isNameByte
  unfold leadingZero
  split
  · next byte rest h =>
    have hbytes : input.bytes.length = rest.bytes.length + 1 := by
      rw [Input.bytes_of_next_byte h, List.length_cons]
    have hhex : (number 16 0 2 rest).Covers 2 rest := number_covers 16 0 2 rest
    have hoctal : (number 8 0 1 input).Covers 1 input := number_covers 8 0 1 input
    unfold Lexeme.Covers at *
    -- `0x` with digits and without, an octal number, a number that runs into a name, and a zero alone
    split
    · split
      · omega
      · dsimp only
        omega
    · split
      · exact hoctal
      · split
        · dsimp only
          omega
        · rfl
  · rfl

theorem symbol_covers (first : UInt8) (input : Input) : (symbol first input).Covers 1 input := by
  unfold symbol
  split
  · next second rest h =>
    have hbytes : input.bytes.length = rest.bytes.length + 1 := by
      rw [Input.bytes_of_next_byte h, List.length_cons]
    unfold Lexeme.Covers
    split
    · dsimp only
      omega
    · rfl
  · rfl

theorem startingWith_covers (first : UInt8) (input : Input) : (startingWith first input).Covers 1 input := by
  have hname := input.length_takeWhile_add Ascii.isNameByte
  have hforeign := congrArg List.length (input.takeUpTo_append_bytes isContinuation (sequenceTail first))
  rw [List.length_append] at hforeign
  refine startingWith_rule (P := (·.Covers 1 input)) ?_ (leadingZero_covers input)
    (fun radix value => number_covers radix value 1 input) ?_ (symbol_covers first input)
  · intro _
    unfold word Lexeme.Covers
    dsimp only
    omega
  · intro _
    unfold foreign Lexeme.Covers
    dsimp only
    omega

end Scan

theorem scan_covers (input : Input) : (scan input).Covers 0 input := by
  unfold scan
  cases h : input.next with
  | byte first rest =>
    have hcovers := Scan.startingWith_covers first rest
    unfold Lexeme.Covers at *
    rw [Input.bytes_of_next_byte h, List.length_cons]
    dsimp only
    omega
  | failure reason =>
    unfold Lexeme.Covers
    rw [Input.bytes_of_next_failure h]
    rfl
  | finished =>
    unfold Lexeme.Covers
    rfl

/-! ## 2. What a token can be -/

/-- Names start with a letter, go on with letters, digits and underscores, and are no keywords. -/
structure IsName (name : String) : Prop where
  spelled : ∃ first run, Ascii.isLetter first = true ∧ (∀ b ∈ run, Ascii.isNameByte b = true) ∧
    name = Ascii.text (first :: run)
  free : Keyword.ofText? name = none

/-- The names and numbers that a text can have. -/
def Kind.Proper : Kind → Prop
  | .identifier name => IsName name
  | .integer value => 0 ≤ value
  | _ => True

namespace Scan

theorem numberKind_proper (radix value : Nat) (run : List UInt8) : (numberKind radix value run).Proper := by
  fun_induction numberKind radix value run with
  | case1 value h =>
    refine Int32.le_iff_toInt_le.mpr ?_
    rw [Int32.toInt_ofNat_of_lt (by unfold numberLimit at h; omega)]
    exact Int.natCast_nonneg _
  | case2 value h => trivial
  | case3 value byte run digit h ih => exact ih
  | case4 value byte run h => trivial

theorem number_proper (radix value lead : Nat) (input : Input) :
    (number radix value lead input).kind.Proper := numberKind_proper radix value _

theorem leadingZero_proper (input : Input) : (leadingZero input).kind.Proper := by
  have hzero : (Kind.integer 0).Proper := Int32.le_refl 0
  unfold leadingZero
  split
  · split
    · split
      · exact number_proper _ _ _ _
      · trivial
    · split
      · exact number_proper _ _ _ _
      · split
        · trivial
        · exact hzero
  · exact hzero

theorem singleKind_proper (first : UInt8) : (singleKind first).Proper := by
  unfold singleKind
  split <;> trivial

theorem symbol_proper (first : UInt8) (input : Input) : (symbol first input).kind.Proper := by
  unfold symbol
  split
  · split
    · trivial
    · exact singleKind_proper first
  · exact singleKind_proper first

theorem word_proper {first : UInt8} (h : Ascii.isLetter first = true) (input : Input) :
    (word first input).kind.Proper := by
  unfold word wordKind
  dsimp only
  split
  · trivial
  · next hfree => exact ⟨⟨first, _, h, Input.of_mem_takeWhile, rfl⟩, hfree⟩

theorem foreign_proper (first : UInt8) (input : Input) : (foreign first input).kind.Proper := by
  unfold foreign
  dsimp only
  split <;> trivial

end Scan

theorem scan_proper (input : Input) : (scan input).kind.Proper := by
  unfold scan
  cases input.next with
  | byte first rest =>
    exact Scan.startingWith_rule (P := (·.kind.Proper)) (fun h => Scan.word_proper h rest)
      (Scan.leadingZero_proper rest) (fun radix value => Scan.number_proper radix value 1 rest)
      (fun _ => Scan.foreign_proper first rest) (Scan.symbol_proper first rest)
  | failure reason => trivial
  | finished => trivial

/-! ## 3. Streams -/

namespace Cursor

/-- The offset behind the last byte. -/
def stop (c : Cursor) : Nat := c.position + c.input.bytes.length

theorem stop_skipBlanks (c : Cursor) : c.skipBlanks.stop = c.stop := by
  have hblanks := c.input.length_takeWhile_add Ascii.isBlank
  unfold skipBlanks stop
  dsimp only
  omega

theorem position_le_skipBlanks (c : Cursor) : c.position ≤ c.skipBlanks.position := Nat.le_add_right _ _

/-- A token takes as many bytes as it covers. -/
theorem stop_token (c : Cursor) : c.token.2.stop = c.stop := by
  have hcovers := scan_covers c.skipBlanks.input
  have hblanks := c.stop_skipBlanks
  unfold Lexeme.Covers at hcovers
  unfold stop at *
  unfold token
  dsimp only
  omega

theorem position_le_stop (c : Cursor) : c.position ≤ c.stop := Nat.le_add_right _ _

/-- The next token stands between two places, the second of which is that of the cursor behind it. -/
theorem token_bounds (c : Cursor) : c.position ≤ c.token.1.span.lo ∧ c.token.1.span.lo ≤ c.token.2.position ∧
      c.token.1.span = Span.ofLength c.token.1.span.lo (c.token.2.position - c.token.1.span.lo) := by
  refine ⟨c.position_le_skipBlanks, Nat.le_add_right _ _, ?_⟩
  unfold token Span.ofLength
  dsimp only
  rw [Nat.add_sub_cancel_left]

theorem token_hi_le (c : Cursor) : c.token.1.span.hi ≤ c.token.2.position := by
  obtain ⟨-, hlo, hspan⟩ := c.token_bounds
  have hlen : c.token.1.span.len ≤ c.token.2.position - c.token.1.span.lo := by
    rw [hspan]
    exact Nat.min_le_left _ _
  unfold Span.hi
  omega

variable {c : Cursor}

/-- What each token of a stream satisfies, if each next token does. -/
theorem forall_mem_stream {P : Token → Prop} {I : Cursor → Prop} (hc : I c)
    (hnext : ∀ c, I c → I c.token.2) (htoken : ∀ c, I c → P c.token.1) : ∀ t ∈ c.stream.toList, P t := by
  fun_induction stream c with
  | case1 c heof =>
    intro t ht
    rw [List.mem_singleton.mp ht]
    have hlast : (⟨.eof, c.token.1.span⟩ : Token) = c.token.1 := by rw [← heof]
    change P ⟨.eof, c.token.1.span⟩
    rw [hlast]
    exact htoken c hc
  | case2 c heof ih =>
    intro t ht
    rcases List.mem_cons.mp ht with rfl | ht
    · exact htoken c hc
    · exact ih (hnext c hc) t ht

/-- Every token stands between a first offset and an offset that the text reaches. -/
theorem span_of_mem_stream (c : Cursor) : ∀ t ∈ c.stream.toList, c.position ≤ t.span.lo ∧
      ∃ hi, t.span.lo ≤ hi ∧ hi ≤ c.stop ∧ t.span = Span.ofLength t.span.lo (hi - t.span.lo) := by
  -- a cursor that came from `c` stands behind it, and has the same end
  refine forall_mem_stream (I := fun d => c.position ≤ d.position ∧ d.stop = c.stop) ⟨Nat.le_refl _, rfl⟩
    (fun d hd => ?_) (fun d hd => ?_)
  · obtain ⟨hlo, hlo', -⟩ := d.token_bounds
    exact ⟨by omega, d.stop_token.trans hd.2⟩
  · obtain ⟨hlo, hlo', hspan⟩ := d.token_bounds
    have hstop := d.token.2.position_le_stop
    rw [d.stop_token, hd.2] at hstop
    exact ⟨hd.1.trans hlo, d.token.2.position, hlo', hstop, hspan⟩

theorem ordered_stream (c : Cursor) : c.stream.toList.Pairwise fun t u => t.span.hi ≤ u.span.lo := by
  fun_induction stream c with
  | case1 c heof => exact List.pairwise_singleton _ _
  | case2 c heof ih =>
    refine List.pairwise_cons.mpr ⟨fun u hu => ?_, ih⟩
    exact c.token_hi_le.trans (c.token.2.span_of_mem_stream u hu).1

/-- The tokens of a text that is not too long stand in order. -/
theorem orderly_stream (h : c.stop ≤ Span.maxOffset) : c.stream.Orderly where
  ordered := c.ordered_stream
  placed t ht := by
    obtain ⟨-, hi, hlo, hstop, hspan⟩ := c.span_of_mem_stream t ht
    have hlen : t.span.len ≤ hi - t.span.lo := by
      rw [hspan]
      exact Nat.min_le_left _ _
    unfold Span.hi
    omega

theorem proper_of_mem_stream (c : Cursor) : ∀ t ∈ c.stream.toList, t.kind.Proper :=
  forall_mem_stream (I := fun _ => True) trivial (fun _ _ => trivial) fun d _ => scan_proper d.skipBlanks.input

/-- The stream of a text that is not too long is one that a lexer delivers. -/
theorem delivered_stream (h : c.stop ≤ Span.maxOffset) : c.stream.Delivered where
  values t ht value hvalue := by
    have hproper := c.proper_of_mem_stream t (List.mem_append_left _ ht)
    rw [hvalue] at hproper
    exact hproper
  ordered := (List.pairwise_append.mp (orderly_stream h).ordered).1
  placed t ht := (orderly_stream h).placed t (List.mem_append_left _ ht)

theorem stop_ofString (source : String) : (ofInput (.ofString source)).stop = source.utf8ByteSize := by
  unfold stop ofInput
  dsimp only
  rw [Input.bytes_ofString, Array.length_toList, Nat.zero_add]
  rfl

end Cursor

/-! ## 4. Programs -/

/-- The least word is not spelled: without its sign it would be too great. -/
theorem Grammar.Number.ne_least {ks : List Kind} {value : Word} (h : Grammar.Number ks value)
    (hks : ∀ k ∈ ks, k.Proper) : value ≠ Int32.minValue := by
  cases h with
  | plain value =>
    have hvalue : 0 ≤ value := hks _ List.mem_cons_self
    rintro rfl
    exact absurd hvalue (by decide)
  | negative v =>
    have hvalue : 0 ≤ v := hks (.integer v) (List.mem_cons_of_mem _ List.mem_cons_self)
    intro hmin
    have hv : v = Int32.minValue := by
      rw [← Int32.neg_neg (a := v), hmin]
      decide
    rw [hv] at hvalue
    exact absurd hvalue (by decide)

/-- A program that is read off a text is spelled by tokens that a text can have. -/
theorem parseProgram_derives {source : String} {p : Program} (h : parseProgram source = .ok p) :
    ∃ ks, Grammar.Derives (· ≤ ·) ks p ∧ ∀ k ∈ ks, k.Proper := by
  unfold parseProgram Parser.result at h
  split at h
  · next p' s' hrun =>
    obtain rfl := Except.ok.inj h
    obtain ⟨_, hstarts, ks, hderives, rfl⟩ := Parser.Takes.programOf _ _ _ _ hrun
    refine ⟨ks, hderives, fun k hk => ?_⟩
    rw [← hstarts.body_eq hderives.eof_notMem] at hk
    obtain ⟨t, ht, rfl⟩ := List.mem_map.mp ((List.takeWhile_sublist _).subset hk)
    exact Cursor.proper_of_mem_stream _ t (List.mem_append_left _ ht)
  · cases h

end Mila
