import Mila.Proofs.Tiling

/-! # Tokens and characters

Scanning goes by bytes, and takes as many of them for a character outside ASCII as its first byte asks for. In a text
those are the bytes of the character. So every token is made of whole characters: of ASCII characters, or of a single
other one, which is reported as itself.
-/

namespace Mila

/-! ## 1. Characters as bytes -/

/-- The bytes of some characters. -/
def encode (cs : List Char) : List UInt8 := cs.flatMap String.utf8EncodeChar

theorem encode_append (cs ds : List Char) : encode (cs ++ ds) = encode cs ++ encode ds := List.flatMap_append

theorem utf8_eq_encode (s : String) : utf8 s = encode s.toList := by
  obtain ⟨cs, rfl⟩ := s.exists_eq_ofList
  unfold utf8
  rw [String.toUTF8_eq_toByteArray, String.toByteArray_ofList, String.toList_ofList]
  exact List.toList_data_toByteArray

/-- The characters of ASCII. -/
def IsAscii (c : Char) : Prop := c.toNat < 0x80

instance (c : Char) : Decidable (IsAscii c) := inferInstanceAs (Decidable (c.toNat < 0x80))

variable {c : Char} {cs : List Char} {behind : List UInt8}

theorem isAscii_iff : IsAscii c ↔ c.utf8Size = 1 := by
  rw [Char.utf8Size_eq_one_iff, UInt32.le_iff_toNat_le]
  exact Nat.lt_succ_iff

theorem IsAscii.encode_eq (h : IsAscii c) : String.utf8EncodeChar c = [c.val.toUInt8] :=
  String.utf8EncodeChar_eq_singleton (isAscii_iff.mp h)

theorem IsAscii.lt (h : IsAscii c) : c.val.toUInt8 < 0x80 := by
  rw [UInt8.lt_iff_toNat_lt, UInt32.toNat_toUInt8]
  exact Nat.lt_of_le_of_lt (Nat.mod_le _ _) h

/-- The first byte of another character tells how many follow. -/
theorem encode_foreign (h : ¬IsAscii c) : ∃ first run, String.utf8EncodeChar c = first :: run ∧
    0x80 ≤ first ∧ Scan.sequenceTail first = run.length ∧ ∀ b ∈ run, Scan.isContinuation b = true := by
  have hcontinues : ∀ b : UInt8, Scan.isContinuation (b &&& 0x3f ||| 0x80) = true := by decide +kernel
  have htwo : ∀ b : UInt8, 0x80 ≤ b &&& 0x1f ||| 0xc0 ∧ Scan.sequenceTail (b &&& 0x1f ||| 0xc0) = 1 := by
    decide +kernel
  have hthree : ∀ b : UInt8, 0x80 ≤ b &&& 0x0f ||| 0xe0 ∧ Scan.sequenceTail (b &&& 0x0f ||| 0xe0) = 2 := by
    decide +kernel
  have hfour : ∀ b : UInt8, 0x80 ≤ b &&& 0x07 ||| 0xf0 ∧ Scan.sequenceTail (b &&& 0x07 ||| 0xf0) = 3 := by
    decide +kernel
  rcases c.utf8Size_eq with hsize | hsize | hsize | hsize
  · exact absurd (isAscii_iff.mpr hsize) h
  · refine ⟨_, _, String.utf8EncodeChar_eq_cons_cons hsize, (htwo _).1, (htwo _).2, ?_⟩
    exact List.forall_mem_singleton.mpr (hcontinues _)
  · refine ⟨_, _, String.utf8EncodeChar_eq_cons_cons_cons hsize, (hthree _).1, (hthree _).2, ?_⟩
    exact List.forall_mem_cons.mpr ⟨hcontinues _, List.forall_mem_singleton.mpr (hcontinues _)⟩
  · refine ⟨_, _, String.utf8EncodeChar_eq_cons_cons_cons_cons hsize, (hfour _).1, (hfour _).2, ?_⟩
    exact List.forall_mem_cons.mpr
      ⟨hcontinues _, List.forall_mem_cons.mpr ⟨hcontinues _, List.forall_mem_singleton.mpr (hcontinues _)⟩⟩

theorem length_encode_ascii (h : ∀ c ∈ cs, IsAscii c) : (encode cs).length = cs.length := by
  induction cs with
  | nil => rfl
  | cons c cs ih =>
    rw [List.forall_mem_cons] at h
    change (String.utf8EncodeChar c ++ encode cs).length = _
    rw [List.length_append, h.1.encode_eq, ih h.2, List.length_singleton, List.length_cons, Nat.add_comm]

theorem encode_split (front : List UInt8) (h : encode cs = front ++ behind) (hfront : ∀ b ∈ front, b < 0x80) :
    ∃ taken left, cs = taken ++ left ∧ encode taken = front ∧ encode left = behind ∧ ∀ c ∈ taken, IsAscii c := by
  induction front generalizing cs with
  | nil => exact ⟨[], cs, rfl, rfl, h, List.forall_mem_nil _⟩
  | cons b front ih =>
    rw [List.forall_mem_cons] at hfront
    cases cs with
    | nil => cases h
    | cons c cs =>
      change String.utf8EncodeChar c ++ encode cs = _ at h
      by_cases hc : IsAscii c
      · rw [hc.encode_eq] at h
        obtain ⟨rfl, hrest⟩ := List.cons.inj h
        obtain ⟨taken, left, rfl, hencode, hleft, hascii⟩ := ih hrest hfront.2
        refine ⟨c :: taken, left, rfl, ?_, hleft, List.forall_mem_cons.mpr ⟨hc, hascii⟩⟩
        change String.utf8EncodeChar c ++ encode taken = _
        rw [hc.encode_eq, hencode]
        rfl
      · -- the first byte of such a character is not ASCII
        obtain ⟨first, run, hencode, hfirst, -⟩ := encode_foreign hc
        rw [hencode] at h
        obtain ⟨rfl, -⟩ := List.cons.inj h
        exact absurd hfront.1 (UInt8.not_lt.mpr hfirst)

/-! ## 2. Scanning characters -/

theorem Ascii.isStop_of_le {b : UInt8} (h : 0x80 ≤ b) : IsStop b := by
  have hall : ∀ b : UInt8, 0x80 ≤ b → isNameByte b = false ∧
      Char.ofUInt8 b ≠ '.' ∧ Char.ofUInt8 b ≠ '>' ∧ Char.ofUInt8 b ≠ '=' := by decide +kernel
  obtain ⟨hname, hsymbol⟩ := hall b h
  exact ⟨hname, Scan.pair?_eq_none hsymbol⟩

namespace Scan

variable {input : Input} {first : UInt8}

/-- What starts with a byte of ASCII has no other bytes in it. -/
theorem startingWith_ascii (input : Input) (hfirst : first < 0x80) : (startingWith first input).kind.isAscii = true ∧
    ∀ b ∈ input.bytes.take ((startingWith first input).size - 1), b < 0x80 := by
  have hnot : ¬0x80 ≤ first := UInt8.not_le.mpr hfirst
  refine ⟨startingWith_kind (P := (·.isAscii = true)) (fun _ h => h) fun h => absurd h hnot, ?_⟩
  -- the token ends at the latest before the first byte that is not of ASCII
  have hsplit := List.takeWhile_append_dropWhile (p := (· < 0x80)) (l := input.bytes)
  have hascii : ∀ b ∈ input.bytes.takeWhile (· < 0x80), b < 0x80 := fun b hb => by
    simpa using List.mem_takeWhile_imp hb
  cases hrest : input.bytes.dropWhile (· < 0x80) with
  | nil =>
    rw [hrest, List.append_nil] at hsplit
    exact fun b hb => hascii b (hsplit.symm ▸ List.mem_of_mem_take hb)
  | cons stop behind =>
    have hstop : 0x80 ≤ stop := by
      have hnot := List.head?_dropWhile_not (· < (0x80 : UInt8)) input.bytes
      rw [hrest] at hnot
      exact UInt8.not_lt.mp (of_decide_eq_false hnot)
    rw [hrest] at hsplit
    have hsize := startingWith_stops (Ascii.isStop_of_le hstop) hsplit.symm fun h => absurd h hnot
    intro b hb
    rw [← hsplit, List.take_append_of_le_length (by omega)] at hb
    exact hascii b (List.mem_of_mem_take hb)

theorem startingWith_foreign (hfirst : 0x80 ≤ first) : startingWith first input = foreign first input := by
  have hall : ∀ b : UInt8, 0x80 ≤ b → Ascii.isLetter b = false ∧ (b == '0'.toUInt8) = false ∧
      Ascii.isDigit b = false ∧ (b == '$'.toUInt8) = false ∧ (b == '&'.toUInt8) = false := by decide +kernel
  obtain ⟨hletter, hzero, hdigit, hdollar, hampersand⟩ := hall first hfirst
  unfold startingWith
  rw [hletter, hzero, hdigit, hdollar, hampersand]
  exact if_pos hfirst

/-- A character outside ASCII is taken whole, whatever comes behind it. -/
theorem startingWith_character {c : Char} {run behind : List UInt8} (hfirst : 0x80 ≤ first)
    (hencode : String.utf8EncodeChar c = first :: run) (htail : sequenceTail first = run.length)
    (hrun : ∀ b ∈ run, isContinuation b = true) (hbytes : input.bytes = run ++ behind) :
    (startingWith first input).kind = .error (.unrecognizedCharacter c) ∧
      (startingWith first input).size = run.length + 1 := by
  have htaken : (input.takeUpTo isContinuation (sequenceTail first)).1 = run := by
    rw [Input.takeUpTo_fst, htail, hbytes, List.take_left]
    exact List.takeWhile_eq_self_iff.mpr hrun
  have hdecode : (first :: run).toByteArray.utf8DecodeChar? 0 = some c := by
    have hcharacter := ByteArray.utf8DecodeChar?_utf8EncodeChar_append (b := .empty) (c := c)
    rwa [ByteArray.append_empty, hencode] at hcharacter
  rw [startingWith_foreign hfirst]
  unfold foreign
  dsimp only
  rw [htaken, hdecode]
  exact ⟨rfl, Nat.add_comm 1 run.length⟩

end Scan

/-- The characters of a token, next to its kind: any number of ASCII, or a single other one. -/
inductive TakenWhole : Kind → List Char → Prop
  | ascii {k : Kind} {cs : List Char} (hkind : k.isAscii = true) (hascii : ∀ c ∈ cs, IsAscii c) : TakenWhole k cs
  | foreign {c : Char} (hc : ¬IsAscii c) : TakenWhole (.error (.unrecognizedCharacter c)) [c]

theorem scan_characters {first : UInt8} {run : List UInt8} (h : encode cs = first :: (run ++ behind))
    (hsize : (scan (.ofBytes (first :: (run ++ behind)))).size = run.length + 1) :
    ∃ taken left, cs = taken ++ left ∧ encode taken = first :: run ∧ encode left = behind ∧
      TakenWhole (scan (.ofBytes (first :: (run ++ behind)))).kind taken := by
  have hbytes := Input.bytes_ofBytes (run ++ behind)
  change (Scan.startingWith first (.ofBytes (run ++ behind))).size = _ at hsize
  change ∃ taken left, _ ∧ _ ∧ _ ∧ TakenWhole (Scan.startingWith first (.ofBytes (run ++ behind))).kind taken
  -- bytes of ASCII make tokens of ASCII, and any other byte is the first one of a character
  by_cases hfirst : first < 0x80
  · obtain ⟨hkind, hrun⟩ := Scan.startingWith_ascii (.ofBytes (run ++ behind)) hfirst
    rw [hsize, hbytes, Nat.add_sub_cancel, List.take_left] at hrun
    obtain ⟨taken, left, hcs, htaken, hleft, hascii⟩ :=
      encode_split (first :: run) h (List.forall_mem_cons.mpr ⟨hfirst, hrun⟩)
    exact ⟨taken, left, hcs, htaken, hleft, .ascii hkind hascii⟩
  · cases cs with
    | nil => cases h
    | cons c cs =>
      change String.utf8EncodeChar c ++ encode cs = _ at h
      have hc : ¬IsAscii c := fun hc => by
        rw [hc.encode_eq] at h
        exact hfirst ((List.cons.inj h).1 ▸ hc.lt)
      obtain ⟨first', run', hencode, hge, htail, hcontinues⟩ := encode_foreign hc
      rw [hencode] at h
      obtain ⟨rfl, hrest⟩ := List.cons.inj h
      obtain ⟨hkind, hwidth⟩ := Scan.startingWith_character hge hencode htail hcontinues (hbytes.trans hrest.symm)
      obtain ⟨rfl, rfl⟩ := List.append_inj hrest (Nat.succ.inj (hwidth.symm.trans hsize))
      refine ⟨[c], cs, rfl, (List.append_nil _).trans hencode, rfl, ?_⟩
      rw [hkind]
      exact .foreign hc

/-! ## 3. Tokens of a text -/

/-- The characters outside ASCII with their places, from an offset on. -/
def foreignFrom (offset : Nat) : List Char → List (Char × Span)
  | [] => []
  | c :: cs =>
    if IsAscii c then foreignFrom (offset + c.utf8Size) cs
    else (c, ⟨offset, c.utf8Size⟩) :: foreignFrom (offset + c.utf8Size) cs

/-- The character that a token complains of, with its place. -/
def Token.foreign? (t : Token) : Option (Char × Span) :=
  match t.kind with
  | .error (.unrecognizedCharacter c) => some (c, t.span)
  | _ => none

/-- An offset with whole characters on both sides of it. -/
def IsBoundary (cs : List Char) (offset : Nat) : Prop := ∃ i, (encode (cs.take i)).length = offset

theorem foreignFrom_ascii (h : ∀ c ∈ cs, IsAscii c) (offset : Nat) (ds : List Char) :
    foreignFrom offset (cs ++ ds) = foreignFrom (offset + (encode cs).length) ds := by
  induction cs generalizing offset with
  | nil => rfl
  | cons c cs ih =>
    rw [List.forall_mem_cons] at h
    have hlength : (encode (c :: cs)).length = c.utf8Size + (encode cs).length := by
      change (String.utf8EncodeChar c ++ encode cs).length = _
      rw [List.length_append, String.length_utf8EncodeChar]
    rw [List.cons_append, foreignFrom, if_pos h.1, ih h.2, hlength, Nat.add_assoc]

theorem isBoundary_append (cs ds : List Char) : IsBoundary (cs ++ ds) (encode cs).length :=
  ⟨cs.length, by rw [List.take_left]⟩

namespace TakenWhole

variable {k : Kind} {taken : List Char}

theorem foreign?_eq (h : TakenWhole k taken) (offset : Nat) (left : List Char) :
    (Token.foreign? ⟨k, Span.ofLength offset (encode taken).length⟩).toList ++
      foreignFrom (offset + (encode taken).length) left = foreignFrom offset (taken ++ left) := by
  cases h with
  | ascii hkind hascii =>
    rw [foreignFrom_ascii hascii]
    have hnone : Token.foreign? ⟨k, Span.ofLength offset (encode taken).length⟩ = none := by
      unfold Token.foreign?
      split
      · next hk =>
        change k = _ at hk
        rw [hk] at hkind
        cases hkind
      · rfl
    rw [hnone]
    rfl
  | @foreign c hc =>
    have hlength : (encode [c]).length = c.utf8Size := by
      change (String.utf8EncodeChar c ++ []).length = _
      rw [List.append_nil, String.length_utf8EncodeChar]
    have hwidth : Span.ofLength offset c.utf8Size = ⟨offset, c.utf8Size⟩ :=
      congrArg (Span.mk offset) (Nat.min_eq_left (c.utf8Size_le_four.trans (by decide)))
    rw [hlength, hwidth, List.singleton_append, foreignFrom, if_neg hc]
    rfl

theorem ne_invalidByte (h : TakenWhole k taken) (b : UInt8) : k ≠ .error (.invalidByte b) := by
  rintro rfl
  cases h with
  | ascii hkind _ => cases hkind

/-- A span ends between characters, even one that is cut short because it is too long. -/
theorem isBoundary_hi (h : TakenWhole k taken) (before left : List Char) : IsBoundary (before ++ (taken ++ left))
      (Span.ofLength (encode before).length (encode taken).length).hi := by
  obtain ⟨i, hi⟩ : ∃ i, (encode (taken.take i)).length = min (encode taken).length Span.maxLength := by
    cases h with
    | ascii _ hascii =>
      refine ⟨Span.maxLength, ?_⟩
      rw [length_encode_ascii fun c hc => hascii c (List.mem_of_mem_take hc), length_encode_ascii hascii,
        List.length_take, Nat.min_comm]
    | @foreign c _ =>
      refine ⟨1, (Nat.min_eq_left ?_).symm⟩
      change (String.utf8EncodeChar c ++ []).length ≤ _
      rw [List.append_nil, String.length_utf8EncodeChar]
      exact c.utf8Size_le_four.trans (by decide)
  have hsplit : before ++ (taken ++ left) = before ++ taken.take i ++ (taken.drop i ++ left) := by
    rw [List.append_assoc, ← List.append_assoc (taken.take i), List.take_append_drop]
  change IsBoundary _ ((encode before).length + min (encode taken).length Span.maxLength)
  rw [hsplit, ← hi, ← List.length_append, ← encode_append]
  exact isBoundary_append _ _

end TakenWhole

/-- The tokens behind some characters: induction on the tiling, with the characters before it. -/
theorem Tiled.characters {position : Nat} {bytes : List UInt8} {ts : List Token} (h : Tiled position bytes ts)
    (before : List Char) (hposition : position = (encode before).length) (hbytes : encode cs = bytes) :
    ts.filterMap Token.foreign? = foreignFrom position cs ∧
      ∀ t ∈ ts, (∀ b, t.kind ≠ .error (.invalidByte b)) ∧
        IsBoundary (before ++ cs) t.span.lo ∧ IsBoundary (before ++ cs) t.span.hi := by
  have hblank : ∀ {blanks : List UInt8}, (∀ b ∈ blanks, Ascii.isBlank b = true) → ∀ b ∈ blanks, b < 0x80 := by
    intro blanks hblanks b hb
    have hvalue := Ascii.isBlank_iff.mp (hblanks b hb)
    rw [UInt8.lt_iff_toNat_lt]
    change b.toNat < 128
    omega
  induction h generalizing before cs with
  | @blanks position blanks hblanks =>
    obtain ⟨taken, left, rfl, -, hleft, hascii⟩ :=
      encode_split blanks (hbytes.trans (List.append_nil _).symm) (hblank hblanks)
    -- without bytes there are no characters
    have hnil : left = [] := by
      cases left with
      | nil => rfl
      | cons c left =>
        have hpos := c.utf8Size_pos
        rw [← String.length_utf8EncodeChar, (List.append_eq_nil_iff.mp hleft).1] at hpos
        cases hpos
    rw [hnil, foreignFrom_ascii hascii]
    exact ⟨rfl, List.forall_mem_nil _⟩
  | @token position blanks run behind first ts hblanks hfirst hsize hbehind ih =>
    -- the characters are those of the blanks, those of the token, and the rest
    obtain ⟨skipped, rest, rfl, hskipped, hrest, hascii⟩ := encode_split blanks hbytes (hblank hblanks)
    obtain ⟨taken, left, rfl, htaken, hleft, hwhole⟩ := scan_characters hrest hsize
    have hstart : position + blanks.length = (encode (before ++ skipped)).length := by
      rw [encode_append, List.length_append, hposition, hskipped]
    have hwidth : run.length + 1 = (encode taken).length := by rw [htaken, List.length_cons]
    obtain ⟨hforeign, hplaces⟩ := ih (before ++ skipped ++ taken)
      (by rw [encode_append, List.length_append, ← hstart, hwidth]) hleft
    have hall : before ++ (skipped ++ (taken ++ left)) = before ++ skipped ++ (taken ++ left) :=
      (List.append_assoc ..).symm
    rw [hall]
    refine ⟨?_, List.forall_mem_cons.mpr ⟨⟨hwhole.ne_invalidByte, ?_, ?_⟩, ?_⟩⟩
    · rw [foreignFrom_ascii hascii, hskipped, ← hwhole.foreign?_eq, ← hwidth, ← hforeign, List.filterMap_cons]
      cases Token.foreign? _ <;> rfl
    · change IsBoundary _ (position + blanks.length)
      rw [hstart]
      exact isBoundary_append _ _
    · rw [hstart, hwidth]
      exact hwhole.isBoundary_hi _ _
    · rwa [List.append_assoc _ taken] at hplaces

theorem IsBoundary.isValid {source : String} {offset : Nat} (h : IsBoundary source.toList offset) :
    String.Pos.Raw.IsValid source ⟨offset⟩ := by
  obtain ⟨i, rfl⟩ := h
  refine String.Pos.Raw.isValid_iff_exists_take_toList.mpr ⟨i, ?_⟩
  rw [← String.toList_ofList (l := source.toList.take i), ← utf8_eq_encode, String.toList_ofList]
  rfl

/-- The tokens of a text tell its characters apart. No byte of it is reported as invalid; the characters outside ASCII
are reported in their order, each once and at its place; and no token begins or ends inside a character. -/
theorem tokens_characters (source : String) :
    (∀ t ∈ tokens source, ∀ b, t.kind ≠ .error (.invalidByte b)) ∧
    (tokens source).filterMap Token.foreign? = foreignFrom 0 source.toList ∧
    ∀ t ∈ tokens source, String.Pos.Raw.IsValid source ⟨t.span.lo⟩ ∧ String.Pos.Raw.IsValid source ⟨t.span.hi⟩ := by
  obtain ⟨ts, hts⟩ := exists_tiled 0 (utf8 source)
  have htokens : tokens source = ts ++ [⟨.eof, ⟨(encode source.toList).length, 0⟩⟩] := by
    change (streamOf (utf8 source)).toList = _
    rw [hts.streamOf_eq, utf8_eq_encode]
    rfl
  obtain ⟨hforeign, hplaces⟩ := hts.characters [] rfl (utf8_eq_encode source).symm
  have hend : IsBoundary source.toList (encode source.toList).length :=
    ⟨source.toList.length, by rw [List.take_length]⟩
  rw [htokens]
  refine ⟨fun t ht => ?_, ?_, fun t ht => ?_⟩
  · rcases List.mem_append.mp ht with ht | ht
    · exact (hplaces t ht).1
    · rw [List.mem_singleton.mp ht]
      exact fun b h => by cases h
  · rw [List.filterMap_append, hforeign]
    exact List.append_nil _
  · rcases List.mem_append.mp ht with ht | ht
    · exact (hplaces t ht).2.imp IsBoundary.isValid IsBoundary.isValid
    · rw [List.mem_singleton.mp ht]
      exact ⟨hend.isValid, hend.isValid⟩

/-- Characters of two, three and four bytes, behind a name, a number without digits and half of a symbol. -/
theorem tokens_characters_mixed : (tokens "né0x漢<😀").filterMap Token.foreign? =
    [('é', ⟨1, 2⟩), ('漢', ⟨5, 3⟩), ('😀', ⟨9, 4⟩)] :=
  (tokens_characters "né0x漢<😀").2.1.trans (by decide)

end Mila
