import Mila.Proofs.Spelling

/-! # Tokens tile a text

A token covers the bytes that were taken for it, and those alone decide what it is: no rule looks further than one
byte behind the token, and no token goes on behind a blank. So a text falls into blanks and tokens in one way,
which does not depend on how the bytes arrive, and a blank cuts a text into parts that are scanned apart from each
other.
-/

namespace Mila

/-! ## 1. Inputs as bytes -/

namespace Input

variable {input a b : Input} {p : UInt8 → Bool}

/-- What is found at the front of an input, in terms of its bytes and its ending. -/
theorem next_cases (input : Input) :
    (∃ value rest, input.next = .byte value rest ∧ input.bytes = value :: rest.bytes ∧
      rest.ending = input.ending) ∨
    (∃ reason, input.next = .failure reason ∧ input.bytes = [] ∧ input.ending = some reason) ∨
    (input.next = .finished ∧ input.bytes = [] ∧ input.ending = none) := by
  induction input with
  | nil => exact .inr (.inr ⟨rfl, rfl, rfl⟩)
  | cons event events ih =>
    cases event with
    | byte value => exact .inl ⟨value, events, rfl, rfl, rfl⟩
    | interrupted => exact ih
    | failure reason => exact .inr (.inl ⟨reason, rfl, rfl, rfl⟩)
    | finished => exact .inr (.inr ⟨rfl, rfl, rfl⟩)

theorem ending_of_next_byte {value : UInt8} {rest : Input} (h : input.next = .byte value rest) :
    rest.ending = input.ending := by
  rcases input.next_cases with ⟨v, r, hnext, -, hending⟩ | ⟨reason, hnext, -⟩ | ⟨hnext, -⟩
  · obtain ⟨rfl, rfl⟩ := Arrival.byte.inj (hnext.symm.trans h)
    exact hending
  · cases hnext.symm.trans h
  · cases hnext.symm.trans h

theorem ending_ofBytes (bytes : List UInt8) : (ofBytes bytes).ending = none := by
  induction bytes with
  | nil => rfl
  | cons b bytes ih => exact ih

theorem startsWith_eq (p : UInt8 → Bool) (input : Input) : input.startsWith p = input.bytes.head?.any p := by
  unfold startsWith
  rcases input.next_cases with ⟨v, r, hnext, hbytes, -⟩ | ⟨reason, hnext, hbytes, -⟩ | ⟨hnext, hbytes, -⟩
  · rw [hnext, hbytes]
    rfl
  · rw [hnext, hbytes]
    rfl
  · rw [hnext, hbytes]
    rfl

theorem takeWhile_fst (p : UInt8 → Bool) (input : Input) : (input.takeWhile p).1 = input.bytes.takeWhile p := by
  fun_induction takeWhile p input with
  | case1 value rest h taken left htake ih =>
    rw [htake] at ih
    rw [bytes, List.takeWhile_cons_of_pos h, ← ih]
  | case2 value rest h =>
    rw [bytes, List.takeWhile_cons_of_neg h]
  | case3 rest ih => exact ih
  | case4 input h h' =>
    cases input with
    | nil => rfl
    | cons event events =>
      cases event with
      | byte value => exact absurd rfl (h value events)
      | interrupted => exact absurd rfl (h' events)
      | failure reason => rfl
      | finished => rfl

theorem takeUpTo_fst (p : UInt8 → Bool) (limit : Nat) (input : Input) :
    (input.takeUpTo p limit).1 = (input.bytes.take limit).takeWhile p := by
  fun_induction takeUpTo p limit input with
  | case1 limit value rest h taken left htake ih =>
    rw [htake] at ih
    rw [bytes, List.take_succ_cons, List.takeWhile_cons_of_pos h, ← ih]
  | case2 limit value rest h =>
    rw [bytes, List.take_succ_cons, List.takeWhile_cons_of_neg h]
  | case3 limit rest ih => exact ih
  | case4 limit input h h' =>
    cases limit with
    | zero => rfl
    | succ limit =>
      cases input with
      | nil => rfl
      | cons event events =>
        cases event with
        | byte value => exact absurd rfl (h limit value events rfl)
        | interrupted => exact absurd rfl (h' limit events rfl)
        | failure reason => rfl
        | finished => rfl

theorem ending_takeWhile (p : UInt8 → Bool) (input : Input) : (input.takeWhile p).2.ending = input.ending := by
  fun_induction takeWhile p input with
  | case1 value rest h taken left htake ih =>
    rw [htake] at ih
    exact ih
  | case2 value rest h => rfl
  | case3 rest ih => exact ih
  | case4 input h h' => rfl

theorem ending_takeUpTo (p : UInt8 → Bool) (limit : Nat) (input : Input) :
    (input.takeUpTo p limit).2.ending = input.ending := by
  fun_induction takeUpTo p limit input with
  | case1 limit value rest h taken left htake ih =>
    rw [htake] at ih
    exact ih
  | case2 limit value rest h => rfl
  | case3 limit rest ih => exact ih
  | case4 limit input h h' => rfl

end Input

/-! ## 2. How far a rule looks

The second of two inputs goes on where the first one ends. A rule that takes no more from the longer one than there
is in the shorter one takes the same from both. -/

/-- Two tokens are of the same kind and cover as many bytes. -/
structure Lexeme.Alike (l m : Lexeme) : Prop where
  kind : l.kind = m.kind
  size : l.size = m.size

namespace Input

variable {a b : Input} {p : UInt8 → Bool}

/-- A run that is no longer than a prefix of the bytes is one of the prefix. -/
theorem takeWhile_eq_of_le {short long : List UInt8} (h : short <+: long)
    (hlength : (long.takeWhile p).length ≤ short.length) : short.takeWhile p = long.takeWhile p := by
  obtain ⟨behind, rfl⟩ := h
  induction short with
  | nil => exact (List.eq_nil_of_length_eq_zero (Nat.le_zero.mp hlength)).symm
  | cons b short ih =>
    by_cases hb : p b = true
    · rw [List.cons_append, List.takeWhile_cons_of_pos hb, List.length_cons, List.length_cons] at hlength
      rw [List.cons_append, List.takeWhile_cons_of_pos hb, List.takeWhile_cons_of_pos hb,
        ih (Nat.le_of_succ_le_succ hlength)]
    · rw [List.cons_append, List.takeWhile_cons_of_neg hb, List.takeWhile_cons_of_neg hb]

theorem run_eq_of_le (h : a.bytes <+: b.bytes) (hlength : (b.takeWhile p).1.length ≤ a.bytes.length) :
    (a.takeWhile p).1 = (b.takeWhile p).1 := by
  rw [takeWhile_fst] at hlength
  rw [takeWhile_fst, takeWhile_fst, takeWhile_eq_of_le h hlength]

theorem runUpTo_eq_of_le {limit : Nat} (h : a.bytes <+: b.bytes)
    (hlength : (b.takeUpTo p limit).1.length ≤ a.bytes.length) : (a.takeUpTo p limit).1 = (b.takeUpTo p limit).1 := by
  rw [takeUpTo_fst] at hlength
  rw [takeUpTo_fst, takeUpTo_fst]
  refine takeWhile_eq_of_le (h.take limit) ?_
  have htake : ((b.bytes.take limit).takeWhile p).length ≤ limit :=
    (List.takeWhile_prefix _).length_le.trans (List.length_take_le _ _)
  rw [List.length_take]
  omega

/-- A test of the next byte comes out the same, if there is a byte left where it succeeds. -/
theorem startsWith_congr (h : a.bytes <+: b.bytes) (hbyte : b.startsWith p = true → a.bytes ≠ []) :
    a.startsWith p = b.startsWith p := by
  rw [startsWith_eq] at hbyte
  rw [startsWith_eq, startsWith_eq]
  obtain ⟨behind, hbehind⟩ := h
  cases hbytes : a.bytes with
  | nil =>
    cases htest : b.bytes.head?.any p with
    | true => exact absurd hbytes (hbyte htest)
    | false => rfl
  | cons v bytes =>
    rw [← hbehind, hbytes]
    rfl

/-- A run starts with a byte that passes its test. -/
theorem run_ne_nil (h : b.startsWith p = true) : 0 < (b.takeWhile p).1.length := by
  rw [startsWith_eq] at h
  rw [takeWhile_fst]
  cases hbytes : b.bytes with
  | nil =>
    rw [hbytes] at h
    cases h
  | cons v bytes =>
    rw [hbytes] at h
    have hv : p v = true := h
    rw [List.takeWhile_cons_of_pos hv]
    exact Nat.succ_pos _

/-- The next byte of the shorter input is the next one of the longer input, too. -/
theorem next_of_prefix (h : a.bytes <+: b.bytes) :
    (∃ value rest rest', a.next = .byte value rest ∧ b.next = .byte value rest' ∧ rest.bytes <+: rest'.bytes ∧
      a.bytes.length = rest.bytes.length + 1) ∨
    (a.bytes = [] ∧ ∀ value rest, a.next ≠ .byte value rest) := by
  rcases a.next_cases with ⟨v, rest, hnext, hbytes, -⟩ | ⟨_, hnext, hbytes, -⟩ | ⟨hnext, hbytes, -⟩
  · rcases b.next_cases with ⟨v', rest', hnext', hbytes', -⟩ | ⟨_, -, hbytes', -⟩ | ⟨-, hbytes', -⟩
    · rw [hbytes, hbytes', List.cons_prefix_cons] at h
      obtain ⟨rfl, h⟩ := h
      refine .inl ⟨v, rest, rest', hnext, hnext', h, ?_⟩
      rw [hbytes, List.length_cons]
    · -- the longer input has a byte as well
      rw [hbytes, hbytes', List.prefix_nil] at h
      cases h
    · rw [hbytes, hbytes', List.prefix_nil] at h
      cases h
  · refine .inr ⟨hbytes, fun value rest hbyte => ?_⟩
    cases hnext.symm.trans hbyte
  · refine .inr ⟨hbytes, fun value rest hbyte => ?_⟩
    cases hnext.symm.trans hbyte

end Input

namespace Scan

variable {a b : Input}

variable {radix : Nat} {first : UInt8} {input : Input}

theorem number_alike {value lead : Nat} (h : a.bytes <+: b.bytes)
    (hsize : (number radix value lead b).size ≤ lead + a.bytes.length) :
    (number radix value lead a).Alike (number radix value lead b) := by
  have hrun : (a.takeWhile Ascii.isAlphanumeric).1 = (b.takeWhile Ascii.isAlphanumeric).1 :=
    Input.run_eq_of_le h (Nat.le_of_add_le_add_left hsize)
  exact ⟨congrArg (numberKind radix value) hrun, congrArg (fun run => lead + List.length run) hrun⟩

theorem word_alike (h : a.bytes <+: b.bytes)
    (hsize : (word first b).size ≤ 1 + a.bytes.length) : (word first a).Alike (word first b) := by
  have hrun : (a.takeWhile Ascii.isNameByte).1 = (b.takeWhile Ascii.isNameByte).1 :=
    Input.run_eq_of_le h (Nat.le_of_add_le_add_left hsize)
  exact ⟨congrArg (wordKind <| first :: ·) hrun, congrArg (fun run => 1 + List.length run) hrun⟩

theorem foreign_alike (h : a.bytes <+: b.bytes)
    (hsize : (foreign first b).size ≤ 1 + a.bytes.length) : (foreign first a).Alike (foreign first b) := by
  have hrun : (a.takeUpTo isContinuation (sequenceTail first)).1 =
      (b.takeUpTo isContinuation (sequenceTail first)).1 :=
    Input.runUpTo_eq_of_le h (Nat.le_of_add_le_add_left hsize)
  constructor
  · unfold foreign
    dsimp only
    rw [hrun]
  · exact congrArg (fun run => 1 + List.length run) hrun

/-- At the end of the input a symbol has one byte. -/
theorem symbol_of_end (h : ∀ value rest, input.next ≠ .byte value rest) :
    symbol first input = ⟨singleKind first, 1, input⟩ := by
  unfold symbol
  split
  · next hnext => exact absurd hnext (h _ _)
  · rfl

theorem symbol_alike (h : a.bytes <+: b.bytes)
    (hsize : (symbol first b).size ≤ 1 + a.bytes.length) : (symbol first a).Alike (symbol first b) := by
  rcases Input.next_of_prefix h with ⟨v, rest, rest', hnext, hnext', -, -⟩ | ⟨hbytes, hend⟩
  · unfold symbol
    rw [hnext, hnext']
    dsimp only
    split <;> exact ⟨rfl, rfl⟩
  · -- the longer input has no second byte for the symbol either, or none that fits
    rw [symbol_of_end hend]
    rw [hbytes] at hsize
    unfold symbol at hsize ⊢
    split
    · next second rest hnext =>
      rw [hnext] at hsize
      dsimp only at hsize
      cases hpair : pair? (Char.ofUInt8 first) (Char.ofUInt8 second) with
      | some symbol =>
        rw [hpair] at hsize
        exact absurd hsize (by decide : ¬ 2 ≤ 1 + 0)
      | none => exact ⟨rfl, rfl⟩
    · exact ⟨rfl, rfl⟩

/-- At the end of the input a leading zero stands alone. -/
theorem leadingZero_of_end (h : ∀ value rest, input.next ≠ .byte value rest) :
    leadingZero input = ⟨.integer 0, 1, input⟩ := by
  unfold leadingZero
  split
  · next hnext => exact absurd hnext (h _ _)
  · rfl

theorem leadingZero_alone (h : (leadingZero input).size ≤ 1) : (leadingZero input).Alike ⟨.integer 0, 1, input⟩ := by
  unfold leadingZero at h ⊢
  split
  · next byte rest hnext =>
    rw [hnext] at h
    dsimp only at h
    -- a run that goes on with the next byte makes the token longer
    have hrun : ∀ p : UInt8 → Bool, p byte = true → 0 < (input.takeWhile p).1.length := by
      intro p hp
      refine Input.run_ne_nil ?_
      unfold Input.startsWith
      rw [hnext]
      exact hp
    split at h
    · split at h
      · unfold number at h
        dsimp only at h
        omega
      · dsimp only at h
        omega
    · next hhex =>
      split at h
      · next hdigit =>
        have := hrun Ascii.isAlphanumeric (Ascii.isAlphanumeric_of_isDigit hdigit)
        unfold number at h
        dsimp only at h
        omega
      · next hdigit =>
        split at h
        · next hletter =>
          have := hrun Ascii.isNameByte (Ascii.isNameByte_of_isLetter hletter)
          dsimp only at h
          omega
        · next hletter =>
          rw [if_neg hhex, if_neg hdigit, if_neg hletter]
          exact ⟨rfl, rfl⟩
  · exact ⟨rfl, rfl⟩

theorem leadingZero_alike (h : a.bytes <+: b.bytes) (hsize : (leadingZero b).size ≤ 1 + a.bytes.length) :
    (leadingZero a).Alike (leadingZero b) := by
  rcases Input.next_of_prefix h with ⟨v, rest, rest', hnext, hnext', hrest, hlength⟩ | ⟨hbytes, hend⟩
  · unfold leadingZero at hsize ⊢
    rw [hnext'] at hsize
    rw [hnext, hnext']
    dsimp only at hsize ⊢
    split
    · next hhex =>
      rw [if_pos hhex] at hsize
      -- without a byte behind the `x` the digits of the longer input would not be covered
      have hstarts : rest.startsWith Ascii.isAlphanumeric = rest'.startsWith Ascii.isAlphanumeric := by
        refine Input.startsWith_congr hrest fun hstarts hnil => ?_
        have hrun := Input.run_ne_nil hstarts
        rw [if_pos hstarts, hlength, hnil] at hsize
        unfold number at hsize
        dsimp only [List.length_nil] at hsize
        omega
      rw [hstarts]
      split
      · next hmore =>
        rw [if_pos hmore] at hsize
        exact number_alike hrest (by omega)
      · exact ⟨rfl, rfl⟩
    · next hhex =>
      rw [if_neg hhex] at hsize
      split
      · next hdigit =>
        rw [if_pos hdigit] at hsize
        exact number_alike h hsize
      · next hdigit =>
        rw [if_neg hdigit] at hsize
        split
        · next hletter =>
          rw [if_pos hletter] at hsize
          have hrun : (a.takeWhile Ascii.isNameByte).1 = (b.takeWhile Ascii.isNameByte).1 :=
            Input.run_eq_of_le h (Nat.le_of_add_le_add_left hsize)
          exact ⟨rfl, congrArg (fun run => 1 + List.length run) hrun⟩
        · exact ⟨rfl, rfl⟩
  · rw [hbytes] at hsize
    obtain ⟨hkind, hone⟩ := leadingZero_alone hsize
    rw [leadingZero_of_end hend]
    exact ⟨hkind.symm, hone.symm⟩

/-- A number with a sign in front, where the sign needs a digit behind it. -/
theorem signed_congr {sign : UInt8} (radix : Nat) {p : UInt8 → Bool}
    (hp : ∀ b, p b = true → Ascii.isAlphanumeric b = true) (h : a.bytes <+: b.bytes)
    (hsize : (first == sign && b.startsWith p) = true → (number radix 0 1 b).size ≤ 1 + a.bytes.length) :
    (first == sign && a.startsWith p) = (first == sign && b.startsWith p) := by
  cases hsign : first == sign with
  | false => rfl
  | true =>
    refine Input.startsWith_congr h fun hstarts hnil => ?_
    have halnum : b.startsWith Ascii.isAlphanumeric = true := by
      rw [Input.startsWith_eq, Option.any_eq_true] at hstarts ⊢
      obtain ⟨v, hv, hpv⟩ := hstarts
      exact ⟨v, hv, hp v hpv⟩
    have hrun := Input.run_ne_nil halnum
    have hle := hsize (by rw [hsign, hstarts]; rfl)
    rw [hnil] at hle
    unfold number at hle
    dsimp only [List.length_nil] at hle
    omega

theorem isAlphanumeric_of_digit? {b : UInt8} (h : (Ascii.digit? radix b).isSome = true) :
    Ascii.isAlphanumeric b = true := by
  unfold Ascii.digit? at h
  split at h
  · next hboth => exact (Bool.and_eq_true_iff.mp hboth).1
  · cases h

theorem startingWith_alike (h : a.bytes <+: b.bytes) (hsize : (startingWith first b).size ≤ 1 + a.bytes.length) :
    (startingWith first a).Alike (startingWith first b) := by
  -- the same test is made on both sides: the sign of a number looks at one byte more
  unfold startingWith at hsize ⊢
  split
  · next hletter =>
    rw [if_pos hletter] at hsize
    exact word_alike h hsize
  next hletter =>
  rw [if_neg hletter] at hsize
  split
  · next hzero =>
    rw [if_pos hzero] at hsize
    exact leadingZero_alike h hsize
  next hzero =>
  rw [if_neg hzero] at hsize
  split
  · next hdigit =>
    rw [if_pos hdigit] at hsize
    exact number_alike h hsize
  next hdigit =>
  rw [if_neg hdigit] at hsize
  rw [signed_congr 16 (fun _ => isAlphanumeric_of_digit?) h fun hb => by rwa [if_pos hb] at hsize]
  split
  · next hdollar =>
    rw [if_pos hdollar] at hsize
    exact number_alike h hsize
  next hdollar =>
  rw [if_neg hdollar] at hsize
  rw [signed_congr 8 (fun _ => Ascii.isAlphanumeric_of_isDigit) h fun hb => by rwa [if_pos hb] at hsize]
  split
  · next hand =>
    rw [if_pos hand] at hsize
    exact number_alike h hsize
  next hand =>
  rw [if_neg hand] at hsize
  split
  · next hhigh =>
    rw [if_pos hhigh] at hsize
    exact foreign_alike h hsize
  · next hhigh =>
    rw [if_neg hhigh] at hsize
    exact symbol_alike h hsize

end Scan

/-! ## 3. Bytes that end tokens -/

namespace Input

variable {p : UInt8 → Bool} {before behind : List UInt8} {stop : UInt8}

theorem length_takeWhile_le_of_stop {bytes : List UInt8}
    (h : bytes <+: before ++ stop :: behind) (hstop : p stop = false) :
    (bytes.takeWhile p).length ≤ before.length := by
  induction before generalizing bytes with
  | nil =>
    cases bytes with
    | nil => exact Nat.le_refl _
    | cons b bytes =>
      obtain ⟨rfl, -⟩ := List.cons_prefix_cons.mp h
      rw [List.takeWhile_cons_of_neg (by rw [hstop]; exact Bool.false_ne_true), List.length_nil]
  | cons v before ih =>
    cases bytes with
    | nil => exact Nat.zero_le _
    | cons b bytes =>
      obtain ⟨-, h⟩ := List.cons_prefix_cons.mp h
      by_cases hb : p b = true
      · rw [List.takeWhile_cons_of_pos hb]
        exact Nat.succ_le_succ (ih h)
      · rw [List.takeWhile_cons_of_neg hb]
        exact Nat.zero_le _

theorem run_le {input : Input} (hbytes : input.bytes = before ++ stop :: behind) (hstop : p stop = false) :
    (input.takeWhile p).1.length ≤ before.length := by
  rw [takeWhile_fst, hbytes]
  exact length_takeWhile_le_of_stop (List.prefix_refl _) hstop

end Input

/-- The second byte of a symbol is one of three. -/
theorem Scan.pair?_eq_none {second : Char} (h : second ≠ '.' ∧ second ≠ '>' ∧ second ≠ '=') (first : Char) :
    pair? first second = none := by
  unfold pair?
  split
  · exact absurd rfl h.1
  · exact absurd rfl h.2.1
  · exact absurd rfl h.2.2
  · exact absurd rfl h.2.2
  · exact absurd rfl h.2.2
  · rfl

namespace Ascii

/-- A byte that no name, number or symbol goes on with. -/
structure IsStop (b : UInt8) : Prop where
  name : isNameByte b = false
  symbol : ∀ first, Scan.pair? first (Char.ofUInt8 b) = none

variable {b : UInt8}

theorem IsStop.number (h : IsStop b) : isAlphanumeric b = false := (Bool.or_eq_false_iff.mp h.name).1

theorem isStop_of_isBlank (h : isBlank b = true) : IsStop b := by
  simp only [isBlank, Bool.or_eq_true, beq_iff_eq] at h
  rcases h with (((rfl | rfl) | rfl) | rfl) | rfl <;> exact ⟨by decide, Scan.pair?_eq_none (by decide)⟩

theorem isContinuation_of_isBlank (h : isBlank b = true) : Scan.isContinuation b = false := by
  simp only [isBlank, Bool.or_eq_true, beq_iff_eq] at h
  rcases h with (((rfl | rfl) | rfl) | rfl) | rfl <;> decide

end Ascii

namespace Scan

variable {input : Input} {before behind : List UInt8} {stop : UInt8}

theorem number_stops (hstop : Ascii.IsStop stop) (hbytes : input.bytes = before ++ stop :: behind)
    (radix value lead : Nat) : (number radix value lead input).size ≤ lead + before.length :=
  Nat.add_le_add_left (Input.run_le hbytes hstop.number) lead

theorem symbol_stops (hstop : Ascii.IsStop stop) (hbytes : input.bytes = before ++ stop :: behind)
    (first : UInt8) : (symbol first input).size ≤ 1 + before.length := by
  unfold symbol
  split
  · next second rest hnext =>
    rw [Input.bytes_of_next_byte hnext] at hbytes
    -- the second byte may be the stop itself, which belongs to no symbol
    cases before with
    | nil =>
      obtain ⟨rfl, -⟩ := List.cons.inj hbytes
      rw [hstop.symbol]
      exact Nat.le_refl _
    | cons b before =>
      have htwo : 2 ≤ 1 + (b :: before).length := by
        rw [List.length_cons]
        omega
      split
      · exact htwo
      · exact Nat.le_add_right _ _
  · exact Nat.le_add_right _ _

theorem leadingZero_stops (hstop : Ascii.IsStop stop) (hbytes : input.bytes = before ++ stop :: behind) :
    (leadingZero input).size ≤ 1 + before.length := by
  have hname := Input.run_le hbytes hstop.name
  have hnumber := number_stops hstop hbytes 8 0 1
  unfold leadingZero
  split
  · next byte rest hnext =>
    rw [Input.bytes_of_next_byte hnext] at hbytes
    split
    · next hhex =>
      -- the stop is no `x`, so there is at least the `x` before it
      cases before with
      | nil =>
        obtain ⟨rfl, -⟩ := List.cons.inj hbytes
        rw [(Ascii.not_numeral hstop.number).1] at hhex
        cases hhex
      | cons b before =>
        have hrest := number_stops hstop (List.cons.inj hbytes).2 16 0 2
        rw [List.length_cons]
        split
        · omega
        · dsimp only
          omega
    · split
      · exact hnumber
      · split
        · exact Nat.add_le_add_left hname 1
        · exact Nat.le_add_right _ _
  · exact Nat.le_add_right _ _

/-- No token goes on behind such a byte, unless it is one of the bytes of a character. -/
theorem startingWith_stops (hstop : Ascii.IsStop stop) (hbytes : input.bytes = before ++ stop :: behind)
    {first : UInt8} (hforeign : 0x80 ≤ first → isContinuation stop = false) :
    (startingWith first input).size ≤ 1 + before.length := by
  refine startingWith_rule (P := (·.size ≤ 1 + before.length))
    (fun _ => Nat.add_le_add_left (Input.run_le hbytes hstop.name) 1) (leadingZero_stops hstop hbytes)
    (fun radix value => number_stops hstop hbytes radix value 1) (fun hfirst => Nat.add_le_add_left ?_ 1)
    (symbol_stops hstop hbytes first)
  rw [Input.takeUpTo_fst, hbytes]
  exact Input.length_takeWhile_le_of_stop (List.take_prefix _ _) (hforeign hfirst)

end Scan

/-! ## 4. What is left behind a token -/

/-- The kinds of the tokens that ASCII bytes spell. -/
def Kind.isAscii : Kind → Bool
  | .eof | .error (.unrecognizedCharacter _) | .error (.invalidByte _) => false
  | _ => true

/-- What is left is a part of what there was, and ends in the same way. -/
structure Lexeme.Leaves (l : Lexeme) (input : Input) : Prop where
  suffix : l.rest.bytes <:+ input.bytes
  ending : l.rest.ending = input.ending

namespace Scan

variable {input : Input}

theorem leaves_self (kind : Kind) (size : Nat) : (Lexeme.mk kind size input).Leaves input :=
  ⟨List.suffix_refl _, rfl⟩

theorem leaves_next {rest : Input} {value : UInt8} (h : input.next = .byte value rest) {l : Lexeme}
    (hl : l.Leaves rest) : l.Leaves input where
  suffix := by
    rw [Input.bytes_of_next_byte h]
    exact hl.suffix.trans (List.suffix_cons _ _)
  ending := hl.ending.trans (Input.ending_of_next_byte h)

theorem leaves_run (p : UInt8 → Bool) (input : Input) (kind : Kind) (size : Nat) :
    (Lexeme.mk kind size (input.takeWhile p).2).Leaves input :=
  ⟨⟨_, input.takeWhile_append_bytes p⟩, input.ending_takeWhile p⟩

theorem leadingZero_leaves (input : Input) : (leadingZero input).Leaves input := by
  unfold leadingZero
  split
  · next byte rest hnext =>
    split
    · split
      · exact leaves_next hnext (leaves_run _ rest _ _)
      · exact leaves_next hnext (leaves_self _ _)
    · split
      · exact leaves_run _ input _ _
      · split
        · exact leaves_run _ input _ _
        · exact leaves_self _ _
  · exact leaves_self _ _

theorem symbol_leaves (first : UInt8) (input : Input) : (symbol first input).Leaves input := by
  unfold symbol
  split
  · next second rest hnext =>
    split
    · exact leaves_next hnext (leaves_self _ _)
    · exact leaves_self _ _
  · exact leaves_self _ _

theorem startingWith_leaves (first : UInt8) (input : Input) : (startingWith first input).Leaves input :=
  startingWith_rule (P := (·.Leaves input)) (fun _ => leaves_run _ input _ _) (leadingZero_leaves input)
    (fun _ _ => leaves_run _ input _ _)
    (fun _ => ⟨⟨_, input.takeUpTo_append_bytes isContinuation _⟩, input.ending_takeUpTo isContinuation _⟩)
    (symbol_leaves first input)

/-! A token that starts with a byte is not the end of input, and one of ASCII bytes does not complain of others. -/

theorem numberKind_isAscii (radix value : Nat) (run : List UInt8) : (numberKind radix value run).isAscii = true := by
  fun_induction numberKind radix value run with
  | case1 value h => rfl
  | case2 value h => rfl
  | case3 value byte run digit h ih => exact ih
  | case4 value byte run h => rfl

theorem leadingZero_isAscii (input : Input) : (leadingZero input).kind.isAscii = true := by
  unfold leadingZero
  split
  · split
    · split
      · exact numberKind_isAscii _ _ _
      · rfl
    · split
      · exact numberKind_isAscii _ _ _
      · split <;> rfl
  · rfl

theorem singleKind_isAscii (first : UInt8) : (singleKind first).isAscii = true := by
  unfold singleKind
  split <;> rfl

theorem symbol_isAscii (first : UInt8) (input : Input) : (symbol first input).kind.isAscii = true := by
  unfold symbol
  split
  · split
    · rfl
    · exact singleKind_isAscii first
  · exact singleKind_isAscii first

theorem wordKind_isAscii (bytes : List UInt8) : (wordKind bytes).isAscii = true := by
  unfold wordKind
  split <;> rfl

/-- A property of the token that starts with a given byte, from what its kind can be. -/
theorem startingWith_kind {P : Kind → Prop} {first : UInt8} (h : ∀ k, k.isAscii = true → P k)
    (hforeign : 0x80 ≤ first → P (foreign first input).kind) : P (startingWith first input).kind :=
  startingWith_rule (P := (P ·.kind)) (fun _ => h _ (wordKind_isAscii _)) (h _ (leadingZero_isAscii input))
    (fun radix value => h _ (numberKind_isAscii radix value _)) hforeign (h _ (symbol_isAscii first input))

theorem startingWith_ne_eof (first : UInt8) (input : Input) : (startingWith first input).kind ≠ .eof := by
  refine startingWith_kind (P := (· ≠ .eof)) ?_ fun _ => ?_
  · rintro k hk rfl
    cases hk
  · unfold foreign
    dsimp only
    split <;> exact fun h => by cases h

end Scan

/-! ## 5. Scanning -/

section Scanning

variable {input a b : Input}

/-- How a token is scanned off an input that has bytes left. -/
theorem scan_of_bytes (h : input.bytes ≠ []) : ∃ first rest, input.bytes = first :: rest.bytes ∧
    rest.ending = input.ending ∧ scan input = Scan.startingWith first rest := by
  unfold scan
  rcases input.next_cases with ⟨v, rest, hnext, hbytes, hending⟩ | ⟨_, -, hbytes, -⟩ | ⟨-, hbytes, -⟩
  · rw [hnext]
    exact ⟨v, rest, hbytes, hending, rfl⟩
  · exact absurd hbytes h
  · exact absurd hbytes h

theorem scan_ne_eof (h : input.bytes ≠ []) : (scan input).kind ≠ .eof := by
  obtain ⟨first, rest, -, -, hscan⟩ := scan_of_bytes h
  rw [hscan]
  exact Scan.startingWith_ne_eof first rest

theorem scan_size_pos (h : input.bytes ≠ []) : 0 < (scan input).size := by
  obtain ⟨first, rest, hbytes, -, hscan⟩ := scan_of_bytes h
  have hcovers := Scan.startingWith_covers first rest
  have hleft := (Scan.startingWith_leaves first rest).suffix.length_le
  unfold Lexeme.Covers at hcovers
  rw [hscan]
  omega

theorem scan_size_le (input : Input) : (scan input).size ≤ input.bytes.length := by
  have hcovers := scan_covers input
  unfold Lexeme.Covers at hcovers
  omega

/-- What is left behind a token are the bytes that it does not cover. -/
theorem bytes_scan_rest (h : input.bytes ≠ []) : (scan input).rest.bytes = input.bytes.drop (scan input).size := by
  obtain ⟨first, rest, hbytes, -, hscan⟩ := scan_of_bytes h
  have hsuffix : (scan input).rest.bytes <:+ input.bytes := by
    rw [hscan, hbytes]
    exact (Scan.startingWith_leaves first rest).suffix.trans (List.suffix_cons _ _)
  have hcovers := scan_covers input
  unfold Lexeme.Covers at hcovers
  have hdrop := List.suffix_iff_eq_drop.mp hsuffix
  rw [show input.bytes.length - (scan input).rest.bytes.length = (scan input).size by omega] at hdrop
  exact hdrop

theorem ending_scan_rest (h : input.bytes ≠ []) : (scan input).rest.ending = input.ending := by
  obtain ⟨first, rest, -, hending, hscan⟩ := scan_of_bytes h
  rw [hscan]
  exact (Scan.startingWith_leaves first rest).ending.trans hending

/-- A token is decided by the bytes that it covers. -/
theorem scan_alike (h : a.bytes <+: b.bytes) (ha : a.bytes ≠ []) (hsize : (scan b).size ≤ a.bytes.length) :
    (scan a).Alike (scan b) := by
  have hb : b.bytes ≠ [] := fun hb => ha (List.prefix_nil.mp (hb ▸ h))
  obtain ⟨first, rest, hbytes, -, hscan⟩ := scan_of_bytes ha
  obtain ⟨first', rest', hbytes', -, hscan'⟩ := scan_of_bytes hb
  rw [hbytes, hbytes', List.cons_prefix_cons] at h
  obtain ⟨rfl, h⟩ := h
  rw [hscan', hbytes, List.length_cons, Nat.add_comm] at hsize
  rw [hscan, hscan']
  exact Scan.startingWith_alike h hsize

/-- A token is scanned off the same bytes in the same way, however they arrive. -/
theorem scan_congr (h : a.bytes = b.bytes) (ha : a.bytes ≠ []) : (scan a).Alike (scan b) :=
  scan_alike (h ▸ List.prefix_refl _) ha (h ▸ scan_size_le b)

theorem scan_stops {before behind : List UInt8} {blank : UInt8} (hblank : Ascii.isBlank blank = true)
    (hbytes : input.bytes = before ++ blank :: behind) (hbefore : before ≠ []) :
    (scan input).size ≤ before.length := by
  have hne : input.bytes ≠ [] := by
    rw [hbytes]
    exact List.append_ne_nil_of_left_ne_nil hbefore _
  obtain ⟨first, rest, hfirst, -, hscan⟩ := scan_of_bytes hne
  cases before with
  | nil => exact absurd rfl hbefore
  | cons b before =>
    rw [hfirst] at hbytes
    rw [hscan, List.length_cons, Nat.add_comm]
    exact Scan.startingWith_stops (Ascii.isStop_of_isBlank hblank) (List.cons.inj hbytes).2
      fun _ => Ascii.isContinuation_of_isBlank hblank

end Scanning

/-! ## 6. Blanks and tokens -/

/-- The bytes from a given position on fall into blanks and the tokens given. -/
inductive Tiled : Nat → List UInt8 → List Token → Prop
  | blanks {position : Nat} {blanks : List UInt8} (hblanks : ∀ b ∈ blanks, Ascii.isBlank b = true) :
    Tiled position blanks []
  | token {position : Nat} {blanks run behind : List UInt8} {first : UInt8} {tokens : List Token}
    (hblanks : ∀ b ∈ blanks, Ascii.isBlank b = true) (hfirst : Ascii.isBlank first = false)
    (hsize : (scan (.ofBytes (first :: (run ++ behind)))).size = run.length + 1)
    (hbehind : Tiled (position + blanks.length + (run.length + 1)) behind tokens) :
    Tiled position (blanks ++ first :: (run ++ behind))
      (⟨(scan (.ofBytes (first :: (run ++ behind)))).kind,
        Span.ofLength (position + blanks.length) (run.length + 1)⟩ :: tokens)

/-- What a failure at the given offset is reported with. -/
def ReadFailure.report (offset : Nat) (reason : ReadFailure) : Token := ⟨.error (.read reason), ⟨offset, 0⟩⟩

theorem exists_tiled (position : Nat) (bytes : List UInt8) : ∃ tokens, Tiled position bytes tokens := by
  induction hlength : bytes.length using Nat.strongRecOn generalizing position bytes with
  | ind length ih =>
    -- induction on the length: blanks, a token, and the rest
    have hsplit := List.takeWhile_append_dropWhile (p := Ascii.isBlank) (l := bytes)
    have hblanks : ∀ b ∈ bytes.takeWhile Ascii.isBlank, Ascii.isBlank b = true :=
      fun b hb => List.mem_takeWhile_imp hb
    cases hrest : bytes.dropWhile Ascii.isBlank with
    | nil =>
      rw [hrest, List.append_nil] at hsplit
      exact ⟨[], .blanks (hsplit ▸ hblanks)⟩
    | cons first more =>
      have hfirst : Ascii.isBlank first = false := by
        have := List.head?_dropWhile_not Ascii.isBlank bytes
        rw [hrest] at this
        exact this
      have hbytes := Input.bytes_ofBytes (first :: more)
      have hpos : 0 < (scan (.ofBytes (first :: more))).size :=
        scan_size_pos (by rw [hbytes]; exact List.cons_ne_nil _ _)
      have hle := scan_size_le (.ofBytes (first :: more))
      rw [hbytes, List.length_cons] at hle
      -- the token takes the bytes of its size, and the rest is shorter
      obtain ⟨size, hsize⟩ : ∃ size, (scan (.ofBytes (first :: more))).size = size + 1 :=
        ⟨_, (Nat.succ_pred_eq_of_pos hpos).symm⟩
      have htotal := congrArg List.length hsplit
      rw [hrest, List.length_append, List.length_cons] at htotal
      have hrun : (more.take size).length = size := by
        rw [List.length_take]
        omega
      obtain ⟨tokens, htokens⟩ := ih (more.drop size).length (by rw [List.length_drop]; omega)
        (position + (bytes.takeWhile Ascii.isBlank).length + ((more.take size).length + 1)) (more.drop size) rfl
      rw [← hsplit, hrest, ← List.take_append_drop size more]
      rw [← List.take_append_drop size more] at hsize
      exact ⟨_, .token hblanks hfirst (by rw [hsize, hrun]) htokens⟩

namespace Cursor

variable {input : Input} {blanks : List UInt8}

/-- Blanks are skipped up to the first byte that is none. -/
theorem skipBlanks_spec (position : Nat) {rest : List UInt8}
    (hbytes : input.bytes = blanks ++ rest) (hblanks : ∀ b ∈ blanks, Ascii.isBlank b = true)
    (hrest : ∀ b ∈ rest.head?, Ascii.isBlank b = false) :
    (Cursor.mk input position).skipBlanks.position = position + blanks.length ∧
      (Cursor.mk input position).skipBlanks.input.bytes = rest ∧
      (Cursor.mk input position).skipBlanks.input.ending = input.ending := by
  have hrun : (input.takeWhile Ascii.isBlank).1 = blanks := by
    have htake := congrArg Prod.fst (Input.takeWhile_run hblanks hrest)
    rw [Input.takeWhile_fst, Input.bytes_ofBytes] at htake
    rw [Input.takeWhile_fst, hbytes, htake]
  refine ⟨congrArg (position + List.length ·) hrun, ?_, input.ending_takeWhile _⟩
  have happend := input.takeWhile_append_bytes Ascii.isBlank
  rw [hrun, hbytes] at happend
  exact List.append_cancel_left happend

/-- The next token, where one stands behind some blanks. -/
theorem token_spec (position : Nat) {run behind : List UInt8} {first : UInt8}
    (hbytes : input.bytes = blanks ++ first :: (run ++ behind)) (hblanks : ∀ b ∈ blanks, Ascii.isBlank b = true)
    (hfirst : Ascii.isBlank first = false)
    (hsize : (scan (.ofBytes (first :: (run ++ behind)))).size = run.length + 1) :
    ∃ rest, rest.bytes = behind ∧ rest.ending = input.ending ∧ (Cursor.mk input position).token =
      (⟨(scan (.ofBytes (first :: (run ++ behind)))).kind,
        Span.ofLength (position + blanks.length) (run.length + 1)⟩,
        ⟨rest, position + blanks.length + (run.length + 1)⟩) := by
  obtain ⟨hposition, hinput, hending⟩ := skipBlanks_spec position hbytes hblanks
    fun b hb => by rwa [← Option.some.inj hb]
  have hne : (Cursor.mk input position).skipBlanks.input.bytes ≠ [] := by
    rw [hinput]
    exact List.cons_ne_nil _ _
  -- behind the blanks there are the bytes that the size was measured on, however they arrive
  have halike : (scan (Cursor.mk input position).skipBlanks.input).Alike
      (scan (.ofBytes (first :: (run ++ behind)))) :=
    scan_congr (by rw [hinput, Input.bytes_ofBytes]) hne
  refine ⟨(scan (Cursor.mk input position).skipBlanks.input).rest, ?_, ?_, ?_⟩
  · rw [bytes_scan_rest hne, halike.size, hinput, hsize, List.drop_succ_cons, List.drop_left]
  · rw [ending_scan_rest hne, hending]
  · unfold token
    dsimp only
    rw [halike.kind, halike.size, hposition, hsize]

/-- Behind the last token comes the report of a failure, if there was one, and then the end of input. -/
theorem stream_of_blanks (position : Nat) (hblanks : ∀ b ∈ input.bytes, Ascii.isBlank b = true) :
    (Cursor.mk input position).stream =
      ⟨(input.ending.map (ReadFailure.report (position + input.bytes.length))).toList,
        ⟨position + input.bytes.length, 0⟩⟩ := by
  obtain ⟨hposition, hinput, hending⟩ := skipBlanks_spec position
    (List.append_nil input.bytes).symm hblanks fun b hb => by cases hb
  rw [← hending, ← hposition]
  -- no byte is left, so what comes next is a failure or the end
  rcases (Cursor.mk input position).skipBlanks.input.next_cases with
    ⟨v, rest, -, hbytes, -⟩ | ⟨reason, hnext, -, hreason⟩ | ⟨hnext, -, hnone⟩
  · rw [hinput] at hbytes
    cases hbytes
  · have htoken : (Cursor.mk input position).token =
        (reason.report (Cursor.mk input position).skipBlanks.position,
          ⟨[], (Cursor.mk input position).skipBlanks.position⟩) := by
      unfold token scan
      dsimp only
      rw [hnext]
      rfl
    have hkind : (reason.report (Cursor.mk input position).skipBlanks.position).kind ≠ .eof := fun h => by cases h
    rw [stream, htoken, if_neg hkind, hreason, stream]
    rfl
  · have htoken : (Cursor.mk input position).token.1 =
        ⟨.eof, (Cursor.mk input position).skipBlanks.position, 0⟩ := by
      unfold token scan
      dsimp only
      rw [hnext]
      rfl
    rw [stream, htoken, if_pos rfl, hnone]
    rfl

end Cursor

theorem length_tile (blanks run behind : List UInt8) (first : UInt8) :
    (blanks ++ first :: (run ++ behind)).length = blanks.length + (run.length + 1) + behind.length := by
  rw [List.length_append, List.length_cons, List.length_append]
  omega

theorem scan_cons_ne_eof (first : UInt8) (rest : List UInt8) : (scan (.ofBytes (first :: rest))).kind ≠ .eof :=
  scan_ne_eof (by rw [Input.bytes_ofBytes]; exact List.cons_ne_nil _ _)

/-- The tokens of an input are those that its bytes fall into, and the report of a failure behind them. -/
theorem Tiled.stream_eq {position : Nat} {bytes : List UInt8} {tokens : List Token}
    (h : Tiled position bytes tokens) {input : Input} (hbytes : input.bytes = bytes) :
    (Cursor.mk input position).stream =
      ⟨tokens ++ (input.ending.map (ReadFailure.report (position + bytes.length))).toList,
        ⟨position + bytes.length, 0⟩⟩ := by
  induction h generalizing input with
  | blanks hblanks =>
    subst hbytes
    exact Cursor.stream_of_blanks _ hblanks
  | @token position blanks run behind first tokens hblanks hfirst hsize hbehind ih =>
    -- the token is scanned off, and what is left is tiled from behind it on
    obtain ⟨rest, hrest, hending, htoken⟩ := Cursor.token_spec position hbytes hblanks hfirst hsize
    have hlength : position + blanks.length + (run.length + 1) + behind.length =
        position + (blanks ++ first :: (run ++ behind)).length := by
      rw [length_tile]
      omega
    rw [Cursor.stream, htoken, if_neg (scan_cons_ne_eof _ _), ih hrest, hending, hlength]
    rfl

/-! ## 7. Texts that are moved and joined -/

/-- The same token further behind. -/
def Token.shift (distance : Nat) (t : Token) : Token :=
  { t with span := { t.span with lo := t.span.lo + distance } }

namespace Tiled

variable {position : Nat} {bytes : List UInt8} {tokens : List Token}

/-- Where a text starts only matters to the places of its tokens. -/
theorem shift (h : Tiled position bytes tokens) (distance : Nat) :
    Tiled (position + distance) bytes (tokens.map (Token.shift distance)) := by
  induction h with
  | blanks hblanks => exact .blanks hblanks
  | @token position blanks run behind first tokens hblanks hfirst hsize hbehind ih =>
    rw [Nat.add_right_comm _ _ distance, Nat.add_right_comm _ _ distance] at ih
    have htoken := Tiled.token hblanks hfirst hsize ih
    rw [Nat.add_right_comm _ distance] at htoken
    exact htoken

/-- Blanks in front are of no account. -/
theorem behindBlanks {blanks : List UInt8} (hblanks : ∀ b ∈ blanks, Ascii.isBlank b = true)
    (h : Tiled (position + blanks.length) bytes tokens) : Tiled position (blanks ++ bytes) tokens := by
  cases h with
  | blanks hmore => exact .blanks (List.forall_mem_append.mpr ⟨hblanks, hmore⟩)
  | @token _ more run behind first tokens hmore hfirst hsize hbehind =>
    rw [Nat.add_assoc position, ← List.length_append] at hbehind ⊢
    rw [← List.append_assoc]
    exact .token (List.forall_mem_append.mpr ⟨hblanks, hmore⟩) hfirst hsize hbehind

/-- A blank between two texts keeps their tokens apart. -/
theorem append {bytes' : List UInt8} {tokens' : List Token} {blank : UInt8} (h : Tiled position bytes tokens)
    (hblank : Ascii.isBlank blank = true) (h' : Tiled (position + (bytes.length + 1)) bytes' tokens') :
    Tiled position (bytes ++ blank :: bytes') (tokens ++ tokens') := by
  induction h with
  | @blanks position blanks hblanks =>
    have hall : ∀ b ∈ blanks ++ [blank], Ascii.isBlank b = true :=
      List.forall_mem_append.mpr ⟨hblanks, List.forall_mem_singleton.mpr hblank⟩
    rw [List.append_cons]
    exact behindBlanks hall (by rwa [List.length_append])
  | @token position blanks run behind first tokens hblanks hfirst hsize hbehind ih =>
    have hlength : position + ((blanks ++ first :: (run ++ behind)).length + 1) =
        position + blanks.length + (run.length + 1) + (behind.length + 1) := by
      rw [length_tile]
      omega
    rw [hlength] at h'
    -- the token stops before the blank, and so does not see it
    have halike : (scan (.ofBytes (first :: (run ++ behind)))).Alike
        (scan (.ofBytes (first :: (run ++ (behind ++ blank :: bytes'))))) := by
      have hbytes : (Input.ofBytes (first :: (run ++ (behind ++ blank :: bytes')))).bytes =
          first :: (run ++ behind) ++ blank :: bytes' := by
        rw [Input.bytes_ofBytes, List.cons_append, List.append_assoc]
      refine scan_alike ?_ ?_ ?_
      · rw [Input.bytes_ofBytes, hbytes]
        exact List.prefix_append _ _
      · rw [Input.bytes_ofBytes]
        exact List.cons_ne_nil _ _
      · rw [Input.bytes_ofBytes]
        exact scan_stops hblank hbytes (List.cons_ne_nil _ _)
    have htoken := Tiled.token hblanks hfirst (halike.size.symm.trans hsize) (ih h')
    rw [← halike.kind] at htoken
    rw [List.append_assoc, List.cons_append, List.append_assoc]
    exact htoken

/-! ## 8. What is covered -/

/-- Where a token stands, and that it is scanned there. -/
theorem place (h : Tiled position bytes tokens) : ∀ t ∈ tokens, ∃ before first run behind,
    bytes = before ++ first :: (run ++ behind) ∧ Ascii.isBlank first = false ∧
      (scan (.ofBytes (first :: (run ++ behind)))).size = run.length + 1 ∧
      t = ⟨(scan (.ofBytes (first :: (run ++ behind)))).kind,
        Span.ofLength (position + before.length) (run.length + 1)⟩ := by
  induction h with
  | blanks hblanks => exact fun t ht => by cases ht
  | @token position blanks run behind first tokens hblanks hfirst hsize hbehind ih =>
    intro t ht
    rcases List.mem_cons.mp ht with rfl | ht
    · exact ⟨blanks, first, run, behind, rfl, hfirst, hsize, rfl⟩
    · obtain ⟨before, first', run', behind', rfl, hfirst', hsize', rfl⟩ := ih t ht
      refine ⟨blanks ++ first :: (run ++ before), first', run', behind', ?_, hfirst', hsize', ?_⟩
      · rw [List.append_assoc, List.cons_append, List.append_assoc]
      · have hlo : position + blanks.length + (run.length + 1) + before.length =
            position + (blanks ++ first :: (run ++ before)).length := by
          rw [length_tile]
          omega
        rw [hlo]

/-- Every byte that is no blank is covered by a token. -/
theorem exists_covering (h : Tiled position bytes tokens) (hlength : bytes.length ≤ Span.maxLength) {i : Nat}
    {b : UInt8} (hb : bytes[i]? = some b) (hblank : Ascii.isBlank b = false) :
    ∃ t ∈ tokens, t.span.lo ≤ position + i ∧ position + i < t.span.hi := by
  induction h generalizing i with
  | blanks hblanks =>
    rw [hblanks b (List.mem_of_getElem? hb)] at hblank
    cases hblank
  | @token position blanks run behind first tokens hblanks hfirst hsize hbehind ih =>
    have htotal := length_tile blanks run behind first
    -- the byte is one of the blanks, one of the token, or further behind
    rcases Nat.lt_or_ge i blanks.length with hi | hi
    · rw [List.getElem?_append_left hi] at hb
      rw [hblanks b (List.mem_of_getElem? hb)] at hblank
      cases hblank
    rcases Nat.lt_or_ge i (blanks.length + (run.length + 1)) with hi' | hi'
    · refine ⟨_, List.mem_cons_self, Nat.add_le_add_left hi position, ?_⟩
      unfold Span.hi Span.ofLength
      dsimp only
      rw [Nat.min_eq_left (by omega)]
      omega
    · have hbehind' : behind[i - blanks.length - (run.length + 1)]? = some b := by
        rw [List.getElem?_append_right hi, ← List.cons_append,
          List.getElem?_append_right (by rw [List.length_cons]; omega), List.length_cons] at hb
        exact hb
      obtain ⟨t, ht, hlo, hhi⟩ := ih (by omega) hbehind'
      refine ⟨t, List.mem_cons_of_mem _ ht, ?_⟩
      rw [show position + i = position + blanks.length + (run.length + 1) +
        (i - blanks.length - (run.length + 1)) by omega]
      exact ⟨hlo, hhi⟩

end Tiled

/-- A token does not cover blanks. -/
theorem not_isBlank_of_covered {first : UInt8} {run behind : List UInt8} (hfirst : Ascii.isBlank first = false)
    (hsize : (scan (.ofBytes (first :: (run ++ behind)))).size = run.length + 1) :
    ∀ b ∈ first :: run, Ascii.isBlank b = false := by
  refine List.forall_mem_cons.mpr ⟨hfirst, fun b hb => ?_⟩
  cases hblank : Ascii.isBlank b with
  | false => rfl
  | true =>
    obtain ⟨before, behind', rfl⟩ := List.append_of_mem hb
    have hbytes : (Input.ofBytes (first :: (before ++ b :: behind' ++ behind))).bytes =
        (first :: before) ++ b :: (behind' ++ behind) := by
      rw [Input.bytes_ofBytes, List.append_assoc]
      rfl
    have hstops := scan_stops hblank hbytes (List.cons_ne_nil _ _)
    rw [hsize, List.length_append, List.length_cons, List.length_cons] at hstops
    omega

/-- The bytes of a token, scanned alone, are that token again. -/
theorem tiled_alone {first : UInt8} {run behind : List UInt8} (hfirst : Ascii.isBlank first = false)
    (hsize : (scan (.ofBytes (first :: (run ++ behind)))).size = run.length + 1) : Tiled 0 (first :: run)
      [⟨(scan (.ofBytes (first :: (run ++ behind)))).kind, Span.ofLength 0 (run.length + 1)⟩] := by
  have halike : (scan (.ofBytes (first :: (run ++ [])))).Alike (scan (.ofBytes (first :: (run ++ behind)))) := by
    refine scan_alike ?_ ?_ ?_
    · rw [Input.bytes_ofBytes, Input.bytes_ofBytes, List.append_nil]
      exact List.prefix_append (first :: run) behind
    · rw [Input.bytes_ofBytes]
      exact List.cons_ne_nil _ _
    · rw [Input.bytes_ofBytes, hsize, List.append_nil, List.length_cons]
  have htoken := @Tiled.token 0 [] run [] first [] (fun b hb => by cases hb) hfirst
    (halike.size.trans hsize) (.blanks fun b hb => by cases hb)
  rw [halike.kind, List.append_nil] at htoken
  exact htoken

/-! ## 9. The tokens of a sequence of bytes -/

/-- The bytes of a span. -/
def Span.cut (s : Span) (bytes : List UInt8) : List UInt8 := (bytes.drop s.lo).take s.len

/-- The tokens that a lexer gives for a sequence of bytes. -/
def streamOf (bytes : List UInt8) : TokenStream := (Lexer.ofInput (.ofBytes bytes)).stream

theorem Tiled.streamOf_eq {bytes : List UInt8} {tokens : List Token} (h : Tiled 0 bytes tokens) :
    streamOf bytes = ⟨tokens, ⟨bytes.length, 0⟩⟩ := by
  have hstream := h.stream_eq (Input.bytes_ofBytes bytes)
  rw [Input.ending_ofBytes, Option.map_none, Option.toList_none, List.append_nil, Nat.zero_add] at hstream
  exact hstream

/-- The tokens of a stream tile the given bytes. -/
structure TokenStream.Tiles (s : TokenStream) (bytes : List UInt8) : Prop where
  /-- The tokens stand one behind the other, the end of input last. -/
  ordered : s.toList.Pairwise fun t u => t.span.hi ≤ u.span.lo
  /-- The tokens before the end of input are others, and cover something. -/
  nonempty : ∀ t ∈ s.pending, t.kind ≠ .eof ∧ 0 < t.span.len
  /-- The end of input covers nothing, and stands behind the last byte. -/
  last : s.last = ⟨bytes.length, 0⟩
  /-- The bytes that no token covers are the blanks. -/
  uncovered : ∀ i b, bytes[i]? = some b →
    ((∀ t ∈ s.pending, ¬ (t.span.lo ≤ i ∧ i < t.span.hi)) ↔ Ascii.isBlank b = true)
  /-- A token starts with a byte of the text that is no blank. -/
  start : ∀ t ∈ s.pending, ∃ b, bytes[t.span.lo]? = some b ∧ Ascii.isBlank b = false

theorem Tiled.placed {bytes : List UInt8} {tokens : List Token} (h : Tiled 0 bytes tokens)
    (hlength : bytes.length ≤ Span.maxLength) {t : Token} (ht : t ∈ tokens) : ∃ before first run behind,
    bytes = before ++ first :: (run ++ behind) ∧ Ascii.isBlank first = false ∧
      (scan (.ofBytes (first :: (run ++ behind)))).size = run.length + 1 ∧
      t = ⟨(scan (.ofBytes (first :: (run ++ behind)))).kind, before.length, run.length + 1⟩ := by
  obtain ⟨before, first, run, behind, hbytes, hfirst, hsize, ht⟩ := h.place t ht
  refine ⟨before, first, run, behind, hbytes, hfirst, hsize, ?_⟩
  rw [hbytes, length_tile] at hlength
  rw [ht, Span.ofLength, Nat.min_eq_left (by omega), Nat.zero_add]

theorem Tiled.tiles {bytes : List UInt8} {tokens : List Token} (h : Tiled 0 bytes tokens)
    (hlength : bytes.length ≤ Span.maxLength) : (streamOf bytes).Tiles bytes where
  ordered := Cursor.ordered_stream _
  nonempty t ht := by
    rw [h.streamOf_eq] at ht
    obtain ⟨before, first, run, behind, -, -, -, rfl⟩ := h.placed hlength ht
    exact ⟨scan_cons_ne_eof _ _, Nat.succ_pos _⟩
  last := by rw [h.streamOf_eq]
  uncovered i b hb := by
    rw [h.streamOf_eq]
    constructor
    · intro huncovered
      cases hblank : Ascii.isBlank b with
      | true => rfl
      | false =>
        obtain ⟨t, ht, hlo, hhi⟩ := h.exists_covering hlength hb hblank
        rw [Nat.zero_add] at hlo hhi
        exact absurd ⟨hlo, hhi⟩ (huncovered t ht)
    · rintro hblank t ht ⟨hlo, hhi⟩
      -- a blank would have ended the token before it
      obtain ⟨before, first, run, behind, rfl, hfirst, hsize, rfl⟩ := h.placed hlength ht
      unfold Span.hi at hhi
      dsimp only at hlo hhi
      rw [List.getElem?_append_right hlo, ← List.cons_append,
        List.getElem?_append_left (by rw [List.length_cons]; omega)] at hb
      rw [not_isBlank_of_covered hfirst hsize b (List.mem_of_getElem? hb)] at hblank
      cases hblank
  start t ht := by
    rw [h.streamOf_eq] at ht
    obtain ⟨before, first, run, behind, rfl, hfirst, hsize, rfl⟩ := h.placed hlength ht
    refine ⟨first, ?_, hfirst⟩
    rw [List.getElem?_append_right (Nat.le_refl _), Nat.sub_self]
    rfl

/-- The bytes that a token covers are the spelling of that token and of nothing else. -/
theorem Tiled.streamOf_cut {bytes : List UInt8} {tokens : List Token} (h : Tiled 0 bytes tokens)
    (hlength : bytes.length ≤ Span.maxLength) {t : Token} (ht : t ∈ tokens) :
    (streamOf (t.span.cut bytes)).toList = [⟨t.kind, ⟨0, t.span.len⟩⟩, ⟨.eof, ⟨t.span.len, 0⟩⟩] := by
  obtain ⟨before, first, run, behind, rfl, hfirst, hsize, rfl⟩ := h.placed hlength ht
  have hcut : (Span.mk before.length (run.length + 1)).cut (before ++ first :: (run ++ behind)) = first :: run := by
    unfold Span.cut
    dsimp only
    rw [List.drop_left, List.take_succ_cons, List.take_left]
  rw [length_tile] at hlength
  dsimp only
  rw [hcut, (tiled_alone hfirst hsize).streamOf_eq, Span.ofLength, Nat.min_eq_left (by omega)]
  rfl

/-- The tokens of a sequence of bytes tile it, each token is decided by the bytes that it covers, and the tokens of
two sequences with a blank between them are those of the one and those of the other. -/
theorem streamOf_tiles :
    (∀ bytes : List UInt8, bytes.length < 0x100000000 → (streamOf bytes).Tiles bytes ∧
      ∀ t ∈ (streamOf bytes).pending, (streamOf (t.span.cut bytes)).toList =
        [⟨t.kind, ⟨0, t.span.len⟩⟩, ⟨.eof, ⟨t.span.len, 0⟩⟩]) ∧
    ∀ (s t : List UInt8) (blank : UInt8), Ascii.isBlank blank = true →
      (streamOf (s ++ blank :: t)).toList =
        (streamOf s).pending ++ (streamOf t).toList.map (Token.shift (s.length + 1)) := by
  constructor
  · intro bytes hlength
    have hmax : bytes.length ≤ Span.maxLength := Nat.le_of_lt_succ hlength
    obtain ⟨tokens, h⟩ := exists_tiled 0 bytes
    refine ⟨h.tiles hmax, fun t ht => ?_⟩
    rw [h.streamOf_eq] at ht
    exact h.streamOf_cut hmax ht
  · intro s t blank hblank
    obtain ⟨tokens, h⟩ := exists_tiled 0 s
    obtain ⟨tokens', h'⟩ := exists_tiled 0 t
    rw [(h.append hblank (h'.shift (s.length + 1))).streamOf_eq, h.streamOf_eq, h'.streamOf_eq]
    have hend : (s ++ blank :: t).length = t.length + (s.length + 1) := by
      rw [List.length_append, List.length_cons]
      omega
    unfold TokenStream.toList
    rw [List.map_append, ← List.append_assoc, hend]
    rfl

/-- Tokens that touch each other, a number without digits among them, and a character cut short at the end. -/
theorem streamOf_tiles_touching :
    (streamOf [0x61, 0x3C, 0x3D, 0x30, 0x78, 0xC3]).Tiles [0x61, 0x3C, 0x3D, 0x30, 0x78, 0xC3] ∧
      (streamOf ([0x3C] ++ 0x20 :: [0x3D])).toList =
        (streamOf [0x3C]).pending ++ (streamOf [0x3D]).toList.map (Token.shift 2) :=
  ⟨(streamOf_tiles.1 _ (by decide)).1, streamOf_tiles.2 _ _ _ rfl⟩

end Mila
